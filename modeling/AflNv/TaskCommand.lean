import AflNv.SeedEnvelope
import AflNv.Lib.JsonPlace
import AflNv.Lib.Rewriting
import AflNv.Lib.Unicode
import Mathlib.Data.List.Dedup

/-!
# The command of a generated task

`build_runner_task` of `integration/fuzz_adapter.py` copies a template, overrides its members and
rewrites the texts of its `launch_cmd`: the two assignments by regular expressions, the seed
directories by `str.replace`.

* `updateItem` is what becomes of one text of the command.
* `pieces` cuts a text into the places that the task is to fill and the characters between them, and
  `intended` is the text with these places filled and nothing else changed.
* `Clear`: the patterns match at these places only, and the template's own directory is among
  those that are replaced.  Then the command is the intended one (`generated_command`).
-/

namespace AflNv.TaskCommand

open AflNv.Lib AflNv.Lib.JsonCodec AflNv.Lib.JsonPlace AflNv.Lib.Rewriting

/-! ## What is used of Python and of the repository -/

/-- `str(path)` of a resolved path. -/
structure ResolvedPath where
  text : Text
  absolute : text.head? = some 47

/-- `str`, `int` and `casefold`, the clock, the order of a set, and the files of the repository.
A call that raises returns `none`. -/
structure World (F : Type) where
  /-- `str(v)` of a value that is no string. -/
  str : Value F → Text
  isZero : F → Bool
  int : Value F → Option ℤ
  casefold : Text → Text
  nowStr : Text
  setOrder : List Text → List Text
  setOrder_perm : ∀ texts, (setOrder texts).Perm texts
  /-- `resolve_repo_path` of a string. -/
  resolveRepoPath : Text → Option ResolvedPath
  /-- `load_json(resolve_repo_path(template))` of a template that exists. -/
  loadTemplate : Value F → Option (Value F)

variable {F : Type}

/-- `str(v)` -/
def World.text (W : World F) : Value F → Text
  | .str s => s
  | v => W.str v

/-- `bool(v)` -/
def World.truthy (W : World F) : Value F → Bool
  | .null => false
  | .bool b => b
  | .int i => i ≠ 0
  | .float x => !W.isZero x
  | .str s => s ≠ []
  | .list items => !items.isEmpty
  | .dict members => !members.isEmpty

/-- `d.get(key, default)` -/
def getD (d : Dict F) (key : String) (default : Value F) : Value F :=
  (d.get (chars key)).getD default

/-- `a or b` -/
def World.either (W : World F) (a b : Value F) : Value F := if W.truthy a then a else b

/-- `resolve_repo_path`; a value that is no string is no path. -/
def World.resolve (W : World F) : Value F → Option ResolvedPath
  | .str s => W.resolveRepoPath s
  | _ => none

/-- `[x for x in v]` -/
def iterate : Value F → Option (List (Value F))
  | .list items => some items
  | .str s => some (s.map fun c => .str [c])
  | .dict members => some (members.map fun m => .str m.1)
  | _ => none

/-- `text.replace(old, new)` for an `old` that is not empty -/
def replaceRule (old new : Text) : Rule ℕ := fun text =>
  if old.isPrefixOf text then some (old.length, new) else none

def replace (old new text : Text) : Text := rewrite (replaceRule old new) 0 text

/-! ### The replacement of `re.sub` -/

def isOctal (c : ℕ) : Bool := 48 ≤ c && c ≤ 55

def isLetter (c : ℕ) : Bool := (65 ≤ c && c ≤ 90) || (97 ≤ c && c ≤ 122)

/-- The characters of an escape behind its backslash, and what they stand for, in a pattern without
groups; `whole` is the match. -/
def escape (whole : Text) : Text → Option (ℕ × Text)
  | [] => none
  | c :: rest =>
    if c = 103 then
      match rest with
      | 60 :: name =>
        let digits := name.takeWhile (· ≠ 62)
        if 62 ∈ name ∧ digits ≠ [] ∧ digits.all (· = 48) then some (digits.length + 3, whole)
        else none
      | _ => none
    else if c = 48 then
      let digits := (rest.take 2).takeWhile isOctal
      some (digits.length + 1, [digits.foldl (fun n d => n * 8 + (d - 48)) 0])
    else if JsonCodec.isDigit c then
      match rest with
      | d :: e :: _ =>
        if isOctal c && isOctal d && isOctal e then
          let value := ((c - 48) * 8 + (d - 48)) * 8 + (e - 48)
          if value ≤ 255 then some (3, [value]) else none
        else none
      | _ => none
    else
      match c with
      | 97 => some (1, [7])
      | 98 => some (1, [8])
      | 102 => some (1, [12])
      | 110 => some (1, [10])
      | 114 => some (1, [13])
      | 116 => some (1, [9])
      | 118 => some (1, [11])
      | 92 => some (1, [92])
      | _ => if isLetter c then none else some (1, [92, c])

/-- The expansion of a replacement, without the characters that still belong to an escape. -/
def expandFrom (whole : Text) : ℕ → Text → Option Text
  | _, [] => some []
  | k + 1, _ :: text => expandFrom whole k text
  | 0, c :: text =>
    if c = 92 then
      (escape whole text).bind fun found =>
        (expandFrom whole found.1 text).map (found.2 ++ ·)
    else (expandFrom whole 0 text).map (c :: ·)

def expand (whole replacement : Text) : Option Text := expandFrom whole 0 replacement

theorem expand_of_notMem (whole : Text) {text : Text} (h : 92 ∉ text) :
    expand whole text = some text := by
  unfold expand
  induction text with
  | nil => rfl
  | cons c text ih =>
    rw [List.mem_cons, not_or] at h
    rw [expandFrom, if_neg (Ne.symm h.1), ih h.2]
    rfl

/-! ### `shlex.quote` -/

/-- A character that the shell reads as itself. -/
def isSafe (c : ℕ) : Bool :=
  isLetter c || JsonCodec.isDigit c || c = 95 || c = 64 || c = 37 || c = 43 || c = 61 || c = 58 ||
    c = 44 || c = 46 || c = 47 || c = 45

def shlexQuote (s : Text) : Text :=
  if s = [] then [39, 39]
  else if s.all isSafe then s
  else 39 :: (s.flatMap (fun c => if c = 39 then [39, 34, 39, 34, 39] else [c]) ++ [39])

/-! ## The functions of the adapter -/

section Adapter

variable (W : World F)

def normalizeDurationPlan (request profile template : Dict F) : Option (List ℤ) :=
  if W.truthy (getD request "duration_plan" .null) then
    match getD request "duration_plan" .null with
    | .list values => values.mapM W.int
    | _ => none
  else if W.truthy (getD request "time_budget" .null) then
    (W.int (getD request "time_budget" .null)).map fun budget => [budget]
  else if W.truthy (getD profile "duration_plan" .null) then
    (iterate (getD profile "duration_plan" .null)).bind (·.mapM W.int)
  else (iterate (getD template "duration_plan" (.list [.int 20, .int 60]))).bind (·.mapM W.int)

/-- What `NAME="value"` is written as. -/
def assignment (name value : Text) : Text := name ++ chars "=\"" ++ (value ++ [34])

/-- The value of a match of `NAME="[^"]*"` at the start. -/
def assignedValue (name text : Text) : Option Text :=
  let opening := name ++ chars "=\""
  let rest := text.drop opening.length
  if opening.isPrefixOf text ∧ 34 ∈ rest then some (rest.takeWhile (· ≠ 34)) else none

def envRule (name value : Text) : Rule ℕ := fun text =>
  (assignedValue name text).map fun old =>
    let whole := assignment name old
    (whole.length, (expand whole (assignment name value)).getD [])

/-- `replace_env_assignment` -/
def replaceEnvAssignment (command name value : Text) : Option Text :=
  if command.tails.any fun s => (assignedValue name s).isSome then
    if (expand [] (assignment name value)).isSome then some (rewrite (envRule name value) 0 command)
    else none
  else some command

/-- `prepend_env_assignments` -/
def prependEnvAssignments (command : Text) (envMap : List (String × Value F)) : Text :=
  let kept := envMap.filter fun e =>
    match e.2 with
    | .null => false
    | .str s => s ≠ []
    | _ => true
  let shown := kept.map fun e => chars e.1 ++ 61 :: shlexQuote (W.text e.2)
  let joined := List.intercalate [32] shown
  if joined = [] then command else joined ++ 32 :: command

def planName : Text := chars "RUNNER_DURATION_PLAN"

def thresholdName : Text := chars "NV_BODY_SCORE_THRESHOLD"

def rootPrefix : Text := chars "\x7bROOT\x7d/"

def planText (plan : List ℤ) : Text := List.intercalate [32] (plan.map JsonCodec.showInt)

/-- One pass of the loop over `old_seed_values`. -/
def replaceSeedDir (seedDir : Value F) (text oldSeed : Text) : Option Text := do
  let text := replace (rootPrefix ++ oldSeed) (rootPrefix ++ W.text seedDir) text
  let oldPath ← W.resolve (.str oldSeed)
  let newPath ← W.resolve seedDir
  some (replace oldPath.text newPath.text text)

/-- `old_seed_values`, in the order of the loop. -/
def oldSeedValues (taskConfig profile : Dict F) : List Text :=
  W.setOrder (([W.text (getD taskConfig "seed_dir" (.str [])),
    W.text (getD profile "seed_dir" (.str [])),
    W.text (getD profile "default_seed_dir" (.str []))].dedup).filter (· ≠ []))

def updateItem (olds : List Text) (seedDir : Value F) (threshold planText text : Text) :
    Option Text := do
  let text ← replaceEnvAssignment text planName planText
  let text ← replaceEnvAssignment text thresholdName threshold
  olds.foldlM (replaceSeedDir W seedDir) text

/-- The command behind the assignments of the decision profile. -/
def withProfile (profile : Dict F) (updated : List Text) : List Text :=
  let path := getD profile "_profile_path" .null
  if W.truthy path ∧ 3 ≤ updated.length ∧ updated[1]? = some (chars "-lc") then
    updated.modify 2 fun command => prependEnvAssignments W command
      [("NV_DECISION_PROFILE_PATH", path),
        ("NV_DECISION_PROFILE_NAME", getD profile "profile" (.str []))]
  else updated

/-- `update_launch_cmd` -/
def updateLaunchCmd (taskConfig profile : Dict F) (seedDir : Value F) (threshold : Text)
    (durationPlan : List ℤ) : Option (Dict F) :=
  match taskConfig.get (chars "launch_cmd") with
  | some (.list launchCmd) => do
    let olds := oldSeedValues W taskConfig profile
    let updated ← launchCmd.mapM fun item =>
      updateItem W olds seedDir threshold (planText durationPlan) (W.text item)
    some (setItem taskConfig (chars "launch_cmd")
      (.list ((withProfile W profile updated).map .str)))
  | _ => some taskConfig

/-- `d[key] = v` for each of the members, in turn. -/
def assign (d : Dict F) (members : List (String × Value F)) : Dict F :=
  members.foldl (fun d m => setItem d (chars m.1) m.2) d

def seedDirOf (request profile template : Dict F) : Value F :=
  W.either (W.either (getD request "seed_location" .null) (getD profile "seed_dir" .null))
    (getD template "seed_dir" .null)

def thresholdOf (profile template : Dict F) : Text :=
  W.text (getD profile "threshold" (getD template "threshold" (.str [])))

/-- The members that `build_runner_task` sets before it rewrites the command. -/
def taskMembers (request profile template : Dict F) (plan : List ℤ) (name : Value F)
    (maxTestCases timeBudget : ℤ) : List (String × Value F) :=
  let seedDir := seedDirOf W request profile template
  let text := fun (s : String) => Value.str (chars s)
  let taskName := getD request "task_name" (.str (W.text name ++ 95 :: W.nowStr))
  let targetType := W.either
    (getD request "target_type"
      (getD profile "target_type" (getD template "target_type" (.str []))))
    (text "http_api")
  let targetEndpoint := W.either
    (getD request "target_endpoint" (getD profile "target_endpoint" (.str [])))
    (getD profile "target_endpoint" (.str []))
  let manifest := getD profile "manifest" (getD template "manifest" (.str []))
  let isO2oa := W.casefold (W.text (getD profile "platform" (.str []))) = chars "o2oa"
  [("task_name", taskName),
    ("target_type", targetType),
    ("target_endpoint", targetEndpoint),
    ("seed_dir", seedDir),
    ("model_name", getD profile "model_name" (getD template "model_name" (.str []))),
    ("threshold", .str (thresholdOf W profile template)),
    ("manifest", manifest),
    ("duration_plan", .list (plan.map .int)),
    ("notes", getD profile "notes" (getD template "notes" (.str []))),
    ("integration_profile", name),
    ("decision", getD profile "decision" (.dict [])),
    ("seed_source", if W.truthy manifest then text "manifest" else text "seed_file"),
    ("seed_location", seedDir),
    ("mutation_scope", getD request "mutation_scope"
      (.list [text "field_value", text "boundary", text "structure"])),
    ("max_test_cases", .int maxTestCases),
    ("time_budget", .int timeBudget),
    ("enable_validity", .int (if isO2oa then 0 else 1)),
    ("integration_request", .dict
      [(chars "task_name", taskName),
        (chars "platform", name),
        (chars "target_type", targetType),
        (chars "target_endpoint", targetEndpoint),
        (chars "seed_source", getD request "seed_source" (text "seed_file")),
        (chars "seed_location", seedDir),
        (chars "mutation_scope", getD request "mutation_scope" (.list [])),
        (chars "max_test_cases", getD request "max_test_cases" .null),
        (chars "time_budget", getD request "time_budget" .null)]),
    ("integration_profile_summary", .dict
      [(chars "platform", getD profile "platform" (.str [])),
        (chars "scene", getD profile "scene" (.str [])),
        (chars "model_route", getD profile "model_route" (.str [])),
        (chars "is_mainline", .bool (W.truthy (getD profile "is_mainline" (.bool false)))),
        (chars "validation_scope", getD profile "validation_scope" (.str [])),
        (chars "decision", getD profile "decision" (.dict []))])]

/-- `build_runner_task` -/
def buildRunnerTask (request profile : Dict F) : Option (Dict F) := do
  match ← W.loadTemplate (← profile.get (chars "template")) with
  | .dict template =>
    let plan ← normalizeDurationPlan W request profile template
    let name ← profile.get (chars "profile")
    let maxTestCases ← W.int (W.either (getD request "max_test_cases" .null) (.int 30))
    let timeBudget ← (
      if W.truthy (getD request "time_budget" .null) then W.int (getD request "time_budget" .null)
      else plan.getLast?)
    updateLaunchCmd W
      (assign template (taskMembers W request profile template plan name maxTestCases timeBudget))
      profile (seedDirOf W request profile template) (thresholdOf W profile template) plan
  | _ => none

end Adapter

/-! ## The places of a command -/

/-- A part of a text of the template: a place that the task fills, or a character. -/
inductive Piece where
  | char (c : ℕ)
  | plan (old : Text)
  | threshold (old : Text)
  | seedDir

namespace Piece

def isPlan : Piece → Bool
  | .plan _ => true
  | _ => false

def isThreshold : Piece → Bool
  | .threshold _ => true
  | _ => false

def isSeedDir : Piece → Bool
  | .seedDir => true
  | _ => false

/-- The text of a piece, with what is given in the places. -/
def text (plan threshold : Option Text) (seedDir : Text) : Piece → Text
  | .char c => [c]
  | .plan old => assignment planName (plan.getD old)
  | .threshold old => assignment thresholdName (threshold.getD old)
  | .seedDir => rootPrefix ++ seedDir

/-- The value of an assignment ends at its quote. -/
def Ok : Piece → Prop
  | .plan old => 34 ∉ old
  | .threshold old => 34 ∉ old
  | _ => True

end Piece

/-- A character of the name of a variable. -/
def isNameChar (c : ℕ) : Bool := isLetter c || JsonCodec.isDigit c || c = 95

/-- A path ends here or goes on below. -/
def endsPath : Text → Bool
  | [] => true
  | c :: _ => c = 34 || c = 39 || c = 47 || Unicode.isSpace c

/-- The place at the start of a text; `inName` says that a name goes on there. -/
def placeAt (seedDir : Text) (inName : Bool) (text : Text) : Option Piece :=
  let assigned := if inName then none
    else ((assignedValue planName text).map Piece.plan).orElse fun _ =>
      (assignedValue thresholdName text).map Piece.threshold
  assigned.orElse fun _ =>
    if (rootPrefix ++ seedDir).isPrefixOf text ∧
      endsPath (text.drop (rootPrefix ++ seedDir).length) then some .seedDir else none

/-- The pieces of a text, without the characters that still belong to the last place. -/
def pieces (seedDir : Text) : ℕ → Bool → Text → List Piece
  | _, _, [] => []
  | k + 1, _, c :: text => pieces seedDir k (isNameChar c) text
  | 0, inName, c :: text =>
    match placeAt seedDir inName (c :: text) with
    | some p => p :: pieces seedDir ((p.text none none seedDir).length - 1) (isNameChar c) text
    | none => .char c :: pieces seedDir 0 (isNameChar c) text

theorem assignedValue_eq_some {name text old : Text} (h : assignedValue name text = some old) :
    34 ∉ old ∧ assignment name old <+: text := by
  rw [assignedValue] at h
  split_ifs at h with hmatch
  obtain ⟨rest, rfl⟩ := List.isPrefixOf_iff_prefix.mp hmatch.1
  rw [List.drop_left] at hmatch h
  obtain ⟨before, after, hrest, hbefore⟩ := List.eq_append_cons_of_mem hmatch.2
  have hvalue : rest.takeWhile (· ≠ 34) = before := by
    rw [hrest, List.takeWhile_append_of_pos (fun c hc => by
      simpa using fun h : c = 34 => hbefore (h ▸ hc)), List.takeWhile_cons_of_neg (by simp),
      List.append_nil]
  rw [← Option.some.inj h, hvalue]
  refine ⟨hbefore, after, ?_⟩
  rw [hrest, assignment]
  simp only [List.append_assoc, List.cons_append, List.nil_append]

/-- An assignment is read back. -/
theorem assignedValue_assignment (name : Text) {old : Text} (h : 34 ∉ old) (rest : Text) :
    assignedValue name (assignment name old ++ rest) = some old := by
  have htext : assignment name old ++ rest =
      (name ++ chars "=\"") ++ (old ++ 34 :: rest) := by
    rw [assignment]
    simp only [List.append_assoc, List.cons_append, List.nil_append]
  have hpos : ∀ c ∈ old, decide (c ≠ 34) = true := fun c hc => by
    simpa using fun h' : c = 34 => h (h' ▸ hc)
  rw [htext, assignedValue, List.drop_left, if_pos]
  · rw [List.takeWhile_append_of_pos hpos, List.takeWhile_cons_of_neg (by simp), List.append_nil]
  · exact ⟨List.isPrefixOf_iff_prefix.mpr (List.prefix_append _ _),
      List.mem_append_right _ List.mem_cons_self⟩

theorem placeAt_eq_some {seedDir text : Text} {inName : Bool} {p : Piece}
    (h : placeAt seedDir inName text = some p) :
    p.Ok ∧ p.text none none seedDir <+: text := by
  have hseed : ∀ q, (if (rootPrefix ++ seedDir).isPrefixOf text ∧
      endsPath (text.drop (rootPrefix ++ seedDir).length) then some Piece.seedDir else none) =
        some q → q.Ok ∧ q.text none none seedDir <+: text := by
    intro q hq
    split_ifs at hq with hmatch
    rw [← Option.some.inj hq]
    exact ⟨trivial, List.isPrefixOf_iff_prefix.mp hmatch.1⟩
  rw [placeAt] at h
  cases inName with
  | true => exact hseed p h
  | false =>
    cases hplan : assignedValue planName text with
    | some old =>
      rw [hplan] at h
      rw [← Option.some.inj h]
      exact assignedValue_eq_some hplan
    | none =>
      cases hthreshold : assignedValue thresholdName text with
      | some old =>
        rw [hplan, hthreshold] at h
        rw [← Option.some.inj h]
        exact assignedValue_eq_some hthreshold
      | none =>
        rw [hplan, hthreshold] at h
        exact hseed p h

theorem text_ne_nil (plan threshold : Option Text) (seedDir : Text) (p : Piece) :
    p.text plan threshold seedDir ≠ [] := by
  cases p with
  | char c => exact List.cons_ne_nil c []
  | plan old => simp [Piece.text, assignment]
  | threshold old => simp [Piece.text, assignment]
  | seedDir => simp [Piece.text, rootPrefix, chars]

/-- The pieces are those of the text. -/
theorem pieces_text (seedDir text : Text) (k : ℕ) (inName : Bool) :
    (pieces seedDir k inName text).flatMap (Piece.text none none seedDir) = text.drop k := by
  induction text generalizing k inName with
  | nil => rw [pieces, List.drop_nil, List.flatMap_nil]
  | cons c text ih =>
    cases k with
    | succ k => exact ih k _
    | zero =>
      rw [pieces]
      cases hplace : placeAt seedDir inName (c :: text) with
      | none =>
        show [c] ++ (pieces seedDir 0 (isNameChar c) text).flatMap _ = c :: text
        rw [ih]
        rfl
      | some p =>
        obtain ⟨-, rest, hrest⟩ := placeAt_eq_some hplace
        show p.text none none seedDir ++ (pieces seedDir _ (isNameChar c) text).flatMap _ =
          c :: text
        rw [ih, ← hrest]
        congr 1
        cases hp : p.text none none seedDir with
        | nil => exact absurd hp (text_ne_nil none none seedDir p)
        | cons d tail =>
          rw [hp, List.cons_append] at hrest
          rw [← (List.cons.inj hrest).2]
          exact List.drop_left

theorem ok_of_mem_pieces {seedDir text : Text} {k : ℕ} {inName : Bool} {p : Piece}
    (h : p ∈ pieces seedDir k inName text) : p.Ok := by
  induction text generalizing k inName with
  | nil =>
    rw [pieces] at h
    exact absurd h List.not_mem_nil
  | cons c text ih =>
    cases k with
    | succ k => exact ih h
    | zero =>
      rw [pieces] at h
      cases hplace : placeAt seedDir inName (c :: text) with
      | none =>
        rw [hplace] at h
        rcases List.mem_cons.mp h with rfl | h
        · trivial
        · exact ih h
      | some q =>
        rw [hplace] at h
        rcases List.mem_cons.mp h with rfl | h
        · exact (placeAt_eq_some hplace).1
        · exact ih h

/-! ## The stages of the rewriting -/

/-- What a task changes in the texts of its template. -/
structure Change where
  /-- The template's own seed directory. -/
  oldDir : Text
  /-- The seed directory of the task. -/
  newDir : Text
  plan : Text
  threshold : Text
  /-- The directories that are replaced. -/
  olds : List Text

namespace Change

variable (c : Change)

def asIs : Piece → Text := Piece.text none none c.oldDir

def planned : Piece → Text := Piece.text (some c.plan) none c.oldDir

/-- With the plan and the threshold in place, and a seed directory. -/
def scored (dir : Text) : Piece → Text := Piece.text (some c.plan) (some c.threshold) dir

end Change

/-- A text of the template with its places filled and nothing else changed. -/
def intended (oldDir newDir plan threshold item : Text) : Text :=
  (pieces oldDir 0 false item).flatMap (Piece.text (some plan) (some threshold) newDir)

/-- A text that stands nowhere in these pieces. -/
def Absent (s : Text) (text : Piece → Text) (ps : List Piece) : Prop :=
  onlyAt (fun t => s.isPrefixOf t) text (fun _ => false) ps = true

/-- The patterns match at the places of a text only, and the own directory of the template is
replaced if it is there. -/
structure Clear (W : World F) (c : Change) (ps : List Piece) : Prop where
  plan : onlyAt (fun t => (assignedValue planName t).isSome) c.asIs Piece.isPlan ps = true
  threshold :
    onlyAt (fun t => (assignedValue thresholdName t).isSome) c.planned Piece.isThreshold ps = true
  /-- The replacement has no escape that means something else. -/
  literal : ps.any Piece.isThreshold = true → ∀ whole,
    expand whole (assignment thresholdName c.threshold) =
      some (assignment thresholdName c.threshold)
  covered : ps.any Piece.isSeedDir = true → c.oldDir = c.newDir ∨ c.oldDir ∈ c.olds
  own : c.oldDir ∈ c.olds → c.oldDir ≠ c.newDir →
    onlyAt (fun t => (rootPrefix ++ c.oldDir).isPrefixOf t) (c.scored c.oldDir) Piece.isSeedDir ps =
      true
  others : ∀ old ∈ c.olds, old ≠ c.oldDir → old ≠ c.newDir →
    ∀ dir, dir = c.oldDir ∨ dir = c.newDir → Absent (rootPrefix ++ old) (c.scored dir) ps
  paths : ∀ old ∈ c.olds, ∀ p q, W.resolveRepoPath old = some p →
    W.resolveRepoPath c.newDir = some q → p.text ≠ q.text →
    ∀ dir, dir = c.oldDir ∨ dir = c.newDir → Absent p.text (c.scored dir) ps

theorem envRule_assignment (name value : Text) {old : Text} (h : 34 ∉ old) (rest : Text) :
    envRule name value (assignment name old ++ rest) =
      some ((assignment name old).length,
        (expand (assignment name old) (assignment name value)).getD []) := by
  rw [envRule, assignedValue_assignment name h rest]
  rfl

/-- The assignments at the places get the value, and nothing else is changed. -/
theorem replaceEnvAssignment_pieces {name value : Text} {old new : Piece → Text}
    {places : Piece → Bool} {ps : List Piece}
    (hplaces : ∀ p ∈ ps, places p = true →
      ∃ v, 34 ∉ v ∧ old p = assignment name v ∧ new p = assignment name value)
    (hnew : ∀ p, places p = false → new p = old p)
    (hliteral : ps.any places = true → ∀ whole,
      expand whole (assignment name value) = some (assignment name value))
    (h : onlyAt (fun t => (assignedValue name t).isSome) old places ps = true) {out : Text}
    (hout : replaceEnvAssignment (ps.flatMap old) name value = some out) :
    out = ps.flatMap new := by
  have hnone : ∀ t, (assignedValue name t).isSome = false → envRule name value t = none := by
    intro t ht
    rw [envRule, Option.isSome_eq_false_iff.mp ht |> Option.isNone_iff_eq_none.mp]
    rfl
  have hrewrite : rewrite (envRule name value) 0 (ps.flatMap old) = ps.flatMap new := by
    refine rewrite_pieces hnone hnew (fun p hp hplace => ?_) h
    obtain ⟨v, hv, hold, hval⟩ := hplaces p hp hplace
    have hexpand := hliteral (List.any_eq_true.mpr ⟨p, hp, hplace⟩) (assignment name v)
    rw [hold, hval]
    refine ⟨by simp [assignment], fun rest => ?_⟩
    rw [envRule_assignment name value hv, hexpand]
    rfl
  rw [replaceEnvAssignment] at hout
  split_ifs at hout with hfound hexpand
  · rw [← Option.some.inj hout, hrewrite]
  · rw [← Option.some.inj hout, ← hrewrite]
    refine (rewrite_of_none fun t _ ht => hnone t ?_).symm
    rw [Bool.not_eq_true, List.any_eq_false] at hfound
    exact Bool.eq_false_iff.mpr (hfound t ((List.mem_tails t _).mpr ht))

theorem replace_self {s : Text} (hs : s ≠ []) (text : Text) : replace s s text = text := by
  refine rewrite_of_same (fun t n out h => ?_) text
  rw [replaceRule] at h
  split_ifs at h with hprefix
  have hle := List.isPrefixOf_iff_prefix.mp hprefix
  obtain ⟨rfl, rfl⟩ := Prod.mk.inj (Option.some.inj h)
  exact ⟨List.length_pos_iff.mpr hs, hle.length_le, List.prefix_iff_eq_take.mp hle⟩

/-- The places are replaced, and nothing else is changed. -/
theorem replace_pieces {s t : Text} (hs : s ≠ []) {old new : Piece → Text} (places : Piece → Bool)
    {ps : List Piece} (hplaces : ∀ p, places p = true → old p = s ∧ new p = t)
    (hnew : ∀ p, places p = false → new p = old p)
    (h : onlyAt (fun text => s.isPrefixOf text) old places ps = true) :
    replace s t (ps.flatMap old) = ps.flatMap new := by
  refine rewrite_pieces (fun text htext => ?_) hnew (fun p _ hplace => ?_) h
  · rw [replaceRule, if_neg (Bool.eq_false_iff.mp htext)]
  · obtain ⟨hold, hval⟩ := hplaces p hplace
    rw [hold, hval]
    refine ⟨hs, fun rest => ?_⟩
    rw [replaceRule, if_pos (List.isPrefixOf_iff_prefix.mpr (List.prefix_append s rest))]

theorem replace_absent {s : Text} (hs : s ≠ []) (t : Text) {text : Piece → Text} {ps : List Piece}
    (h : Absent s text ps) : replace s t (ps.flatMap text) = ps.flatMap text :=
  replace_pieces hs (fun _ => false) (fun _ hp => absurd hp Bool.false_ne_true) (fun _ _ => rfl) h

theorem ResolvedPath.ne_nil (p : ResolvedPath) : p.text ≠ [] := by
  intro h
  have habsolute := p.absolute
  rw [h] at habsolute
  cases habsolute

section Stages

variable {W : World F} {c : Change} {ps : List Piece}

theorem rootPrefix_ne_nil (s : Text) : rootPrefix ++ s ≠ [] := by
  simp [rootPrefix, chars]

/-- One pass over a directory: the own one of the template is replaced, another is not there. -/
theorem replaceSeedDir_pieces (hclear : Clear W c ps) {seedDir : Value F}
    (hseed : W.text seedDir = c.newDir) {o : Text} (ho : o ∈ c.olds) {dir : Text}
    (hdir : dir = c.oldDir ∨ dir = c.newDir) (hown : o = c.oldDir → dir = c.oldDir) {out : Text}
    (h : replaceSeedDir W seedDir (ps.flatMap (c.scored dir)) o = some out) :
    out = ps.flatMap (c.scored (if o = c.oldDir then c.newDir else dir)) := by
  have hroot : replace (rootPrefix ++ o) (rootPrefix ++ c.newDir) (ps.flatMap (c.scored dir)) =
      ps.flatMap (c.scored (if o = c.oldDir then c.newDir else dir)) := by
    by_cases hsame : o = c.newDir
    · rw [hsame, replace_self (rootPrefix_ne_nil _)]
      split_ifs with hold
      · rw [hown (hsame.trans hold), hold]
      · rfl
    · by_cases hold : o = c.oldDir
      · rw [if_pos hold, hown hold]
        subst hold
        refine replace_pieces (rootPrefix_ne_nil _) Piece.isSeedDir (fun p hp => ?_)
          (fun p hp => ?_) (hclear.own ho hsame)
        · cases p with
          | seedDir => exact ⟨rfl, rfl⟩
          | _ => cases hp
        · cases p with
          | seedDir => cases hp
          | _ => rfl
      · rw [if_neg hold]
        exact replace_absent (rootPrefix_ne_nil _) _ (hclear.others o ho hold hsame dir hdir)
  have hdir' : (if o = c.oldDir then c.newDir else dir) = c.oldDir ∨
      (if o = c.oldDir then c.newDir else dir) = c.newDir := by
    split_ifs
    · exact .inr rfl
    · exact hdir
  rw [replaceSeedDir, hseed, hroot] at h
  cases hp : W.resolve (.str o) with
  | none =>
    rw [hp] at h
    cases h
  | some p =>
    cases hq : W.resolve seedDir with
    | none =>
      rw [hp, hq] at h
      cases h
    | some q =>
      rw [hp, hq] at h
      have hnew : W.resolveRepoPath c.newDir = some q := by
        cases seedDir with
        | str s => exact hseed ▸ hq
        | _ => cases hq
      rw [← Option.some.inj h]
      by_cases hsame : p.text = q.text
      · rw [hsame, replace_self q.ne_nil]
      · exact replace_absent p.ne_nil _ (hclear.paths o ho p q hp hnew hsame _ hdir')

/-- The loop over the directories. -/
theorem foldlM_replaceSeedDir (hclear : Clear W c ps) {seedDir : Value F}
    (hseed : W.text seedDir = c.newDir) {olds : List Text} (holds : ∀ o ∈ olds, o ∈ c.olds)
    (hnodup : olds.Nodup) {dir : Text} (hdir : dir = c.oldDir ∨ dir = c.newDir)
    (hown : c.oldDir ∈ olds → dir = c.oldDir) {out : Text}
    (h : olds.foldlM (replaceSeedDir W seedDir) (ps.flatMap (c.scored dir)) = some out) :
    out = ps.flatMap (c.scored (if c.oldDir ∈ olds then c.newDir else dir)) := by
  induction olds generalizing dir with
  | nil =>
    rw [if_neg List.not_mem_nil]
    exact (Option.some.inj h).symm
  | cons o olds ih =>
    rw [List.foldlM_cons] at h
    obtain ⟨next, hnext, h⟩ := Option.bind_eq_some_iff.mp h
    obtain ⟨hnotin, hnodup⟩ := List.nodup_cons.mp hnodup
    have hstep := replaceSeedDir_pieces hclear hseed (holds o List.mem_cons_self) hdir
      (fun ho => hown (ho ▸ List.mem_cons_self)) hnext
    have holds := fun o' ho' => holds o' (List.mem_cons_of_mem o ho')
    rw [hstep] at h
    by_cases hold : o = c.oldDir
    · rw [if_pos hold] at h
      have hrest : c.oldDir ∉ olds := hold ▸ hnotin
      rw [ih holds hnodup (.inr rfl) (fun hmem => absurd hmem hrest) h, if_neg hrest,
        if_pos (List.mem_cons.mpr (.inl hold.symm))]
    · rw [if_neg hold] at h
      rw [ih holds hnodup hdir (fun hmem => hown (List.mem_cons_of_mem o hmem)) h]
      have hiff : c.oldDir ∈ o :: olds ↔ c.oldDir ∈ olds :=
        List.mem_cons.trans (or_iff_right (Ne.symm hold))
      simp only [hiff]

/-- The numbers of a plan are written without escapes. -/
theorem notMem_showInt (i : ℤ) : 92 ∉ JsonCodec.showInt i := by
  have hdigits : ∀ n : ℕ, 92 ∉ JsonCodec.showNat n := by
    intro n h
    have hdigit := JsonCodec.showNat_isDigit h
    cases hdigit
  cases i with
  | ofNat n => exact hdigits n
  | negSucc n =>
    intro h
    rcases List.mem_cons.mp h with h | h
    · cases h
    · exact hdigits (n + 1) h

theorem notMem_planText (plan : List ℤ) : 92 ∉ planText plan := by
  induction plan with
  | nil => exact List.not_mem_nil
  | cons i plan ih =>
    cases plan with
    | nil =>
      rw [planText, List.map_singleton, List.intercalate_singleton]
      exact notMem_showInt i
    | cons j plan =>
      rw [planText, List.map_cons, List.map_cons, List.intercalate_cons_cons]
      intro h
      rcases List.mem_append.mp h with h | h
      · rcases List.mem_append.mp h with h | h
        · exact notMem_showInt i h
        · exact absurd (List.mem_singleton.mp h) (by decide)
      · exact ih h

theorem notMem_assignment {name value : Text} (hname : 92 ∉ name) (hvalue : 92 ∉ value) :
    92 ∉ assignment name value := by
  have hequals : 92 ∉ chars "=\"" := by decide
  rw [assignment, List.mem_append, List.mem_append, List.mem_append]
  rintro ((h | h) | (h | h))
  · exact hname h
  · exact hequals h
  · exact hvalue h
  · exact absurd (List.mem_singleton.mp h) (by decide)

/-- A text of the command becomes the intended one. -/
theorem updateItem_pieces {item : Text} (hclear : Clear W c (pieces c.oldDir 0 false item))
    (hplan : 92 ∉ c.plan) {seedDir : Value F} (hseed : W.text seedDir = c.newDir)
    {olds : List Text} (holds : ∀ o, o ∈ olds ↔ o ∈ c.olds) (hnodup : olds.Nodup) {out : Text}
    (h : updateItem W olds seedDir c.threshold c.plan item = some out) :
    out = intended c.oldDir c.newDir c.plan c.threshold item := by
  have hok : ∀ p ∈ pieces c.oldDir 0 false item, p.Ok := fun p hp => ok_of_mem_pieces hp
  have hitem : (pieces c.oldDir 0 false item).flatMap c.asIs = item :=
    pieces_text c.oldDir item 0 false
  rw [intended]
  generalize pieces c.oldDir 0 false item = ps at *
  rw [updateItem] at h
  obtain ⟨text₁, hplanned, h⟩ := Option.bind_eq_some_iff.mp h
  obtain ⟨text₂, hscored, h⟩ := Option.bind_eq_some_iff.mp h
  rw [← hitem] at hplanned
  have hplanned : text₁ = ps.flatMap c.planned := by
    refine replaceEnvAssignment_pieces (fun p hp hplace => ?_) (fun p hp => ?_)
      (fun _ whole => expand_of_notMem whole ?_) hclear.plan hplanned
    · cases p with
      | plan old => exact ⟨old, hok _ hp, rfl, rfl⟩
      | _ => cases hplace
    · cases p with
      | plan old => cases hp
      | _ => rfl
    · exact notMem_assignment (by decide) hplan
  have hscored : text₂ = ps.flatMap (c.scored c.oldDir) := by
    rw [hplanned] at hscored
    refine replaceEnvAssignment_pieces (fun p hp hplace => ?_) (fun p hp => ?_) hclear.literal
      hclear.threshold hscored
    · cases p with
      | threshold old => exact ⟨old, hok _ hp, rfl, rfl⟩
      | _ => cases hplace
    · cases p with
      | threshold old => cases hp
      | _ => rfl
  rw [hscored] at h
  rw [foldlM_replaceSeedDir hclear hseed (fun o ho => (holds o).mp ho) hnodup (.inl rfl)
    (fun _ => rfl) h]
  split_ifs with hmem
  · rfl
  · refine List.flatMap_congr fun p hp => ?_
    cases p with
    | seedDir =>
      have hany : ps.any Piece.isSeedDir = true := List.any_eq_true.mpr ⟨.seedDir, hp, rfl⟩
      rcases hclear.covered hany with hsame | hmem'
      · show rootPrefix ++ c.oldDir = rootPrefix ++ c.newDir
        rw [hsame]
      · exact absurd ((holds _).mpr hmem') hmem
    | _ => rfl

end Stages

/-! ## The task -/

theorem lookup_setItem (ms : Dict F) (k key : Text) (v : Value F) :
    (setItem ms k v).lookup key = if key = k then some v else ms.lookup key := by
  rw [setItem]
  split_ifs with hany hkey hkey
  · rw [lookup_map_ite, if_pos hkey]
    obtain ⟨m, hm, hk⟩ := List.any_eq_true.mp hany
    cases hlookup : ms.lookup k with
    | some w => rfl
    | none =>
      rw [List.lookup_eq_none_iff] at hlookup
      have hne := hlookup m hm
      rw [← of_decide_eq_true hk, bne_self_eq_false] at hne
      cases hne
  · rw [lookup_map_ite, if_neg hkey]
  · rw [List.lookup_append, hkey]
    have hnone : ms.lookup k = none := by
      rw [List.lookup_eq_none_iff]
      intro m hm
      rw [bne_iff_ne]
      intro h
      exact hany (List.any_eq_true.mpr ⟨m, hm, decide_eq_true h.symm⟩)
    rw [hnone, lookup_cons_if, if_pos rfl]
    rfl
  · rw [List.lookup_append, lookup_cons_if, if_neg hkey]
    exact Option.or_none

theorem get_assign_of_notMem (d : Dict F) {members : List (String × Value F)} {key : Text}
    (h : ∀ name ∈ members.map Prod.fst, chars name ≠ key) :
    (assign d members).get key = d.get key := by
  induction members generalizing d with
  | nil => rfl
  | cons m members ih =>
    rw [List.map_cons] at h
    show (assign (setItem d (chars m.1) m.2) members).get key = d.get key
    rw [ih _ fun name hname => h name (List.mem_cons_of_mem _ hname)]
    show (setItem d (chars m.1) m.2).lookup key = d.lookup key
    rw [lookup_setItem, if_neg fun hkey => h m.1 List.mem_cons_self hkey.symm]

/-- The last member of a name counts. -/
theorem get_assign (d : Dict F) {members : List (String × Value F)} {i : ℕ} {key : String}
    {v : Value F} (hget : members[i]? = some (key, v))
    (hlast : ∀ name ∈ (members.drop (i + 1)).map Prod.fst, chars name ≠ chars key) :
    (assign d members).get (chars key) = some v := by
  induction members generalizing d i with
  | nil => cases hget
  | cons m members ih =>
    cases i with
    | succ i => exact ih _ hget hlast
    | zero =>
      rw [List.getElem?_cons_zero] at hget
      rw [Option.some.inj hget]
      show (assign (setItem d (chars key) v) members).get (chars key) = some v
      have hmembers : members.map Prod.fst = ((m :: members).drop (0 + 1)).map Prod.fst := rfl
      rw [get_assign_of_notMem _ (hmembers ▸ hlast)]
      show (setItem d (chars key) v).lookup (chars key) = some v
      rw [lookup_setItem, if_pos rfl]

section Task

variable (W : World F) (request profile template : Dict F)

/-- What a task changes in the commands of its template. -/
def changeOf (plan : List ℤ) : Change where
  oldDir := W.text (getD template "seed_dir" .null)
  newDir := W.text (seedDirOf W request profile template)
  plan := planText plan
  threshold := thresholdOf W profile template
  olds := ([W.text (seedDirOf W request profile template),
    W.text (getD profile "seed_dir" (.str [])),
    W.text (getD profile "default_seed_dir" (.str []))]).filter (· ≠ [])

theorem mem_oldSeedValues (taskConfig profile : Dict F) (o : Text) :
    o ∈ oldSeedValues W taskConfig profile ↔
      o ∈ ([W.text (getD taskConfig "seed_dir" (.str [])),
        W.text (getD profile "seed_dir" (.str [])),
        W.text (getD profile "default_seed_dir" (.str []))]).filter (· ≠ []) := by
  rw [oldSeedValues, (W.setOrder_perm _).mem_iff, List.mem_filter, List.mem_filter, List.mem_dedup]

theorem nodup_oldSeedValues (taskConfig profile : Dict F) :
    (oldSeedValues W taskConfig profile).Nodup := by
  rw [oldSeedValues, (W.setOrder_perm _).nodup_iff]
  exact (List.nodup_dedup _).filter _

theorem eq_map_of_mapM {α β : Type} {f : α → Option β} {g : α → β} {l : List α} {r : List β}
    (hg : ∀ a ∈ l, ∀ b, f a = some b → b = g a) (h : l.mapM f = some r) : r = l.map g := by
  induction l generalizing r with
  | nil =>
    rw [List.mapM_nil] at h
    exact (Option.some.inj h).symm
  | cons a l ih =>
    rw [List.mapM_cons] at h
    obtain ⟨b, hb, h⟩ := Option.bind_eq_some_iff.mp h
    obtain ⟨bs, hbs, h⟩ := Option.bind_eq_some_iff.mp h
    rw [← Option.some.inj h, hg a List.mem_cons_self b hb,
      ih (fun a' ha' => hg a' (List.mem_cons_of_mem a ha')) hbs, List.map_cons]

/-- The names of `taskMembers`. -/
def taskKeys : List String :=
  ["task_name", "target_type", "target_endpoint", "seed_dir", "model_name", "threshold", "manifest",
    "duration_plan", "notes", "integration_profile", "decision", "seed_source", "seed_location",
    "mutation_scope", "max_test_cases", "time_budget", "enable_validity", "integration_request",
    "integration_profile_summary"]

/-- What the task stores of its seed directory, its threshold and its plan. -/
theorem get_task (plan : List ℤ) (name : Value F) (maxTestCases timeBudget : ℤ) :
    (assign template (taskMembers W request profile template plan name maxTestCases timeBudget)).get
        (chars "seed_dir") = some (seedDirOf W request profile template) ∧
    (assign template (taskMembers W request profile template plan name maxTestCases timeBudget)).get
        (chars "threshold") = some (.str (thresholdOf W profile template)) ∧
    (assign template (taskMembers W request profile template plan name maxTestCases timeBudget)).get
        (chars "duration_plan") = some (.list (plan.map .int)) ∧
    (assign template (taskMembers W request profile template plan name maxTestCases timeBudget)).get
        (chars "launch_cmd") = template.get (chars "launch_cmd") := by
  have hkeys : (taskMembers W request profile template plan name maxTestCases timeBudget).map
      Prod.fst = taskKeys := rfl
  refine ⟨get_assign (i := 3) _ rfl ?_, get_assign (i := 5) _ rfl ?_,
    get_assign (i := 7) _ rfl ?_, get_assign_of_notMem _ ?_⟩
  · rw [List.map_drop, hkeys]
    decide
  · rw [List.map_drop, hkeys]
    decide
  · rw [List.map_drop, hkeys]
    decide
  · rw [hkeys]
    decide

variable {W request profile template}

/-- The command of a generated task is that of its template with the seed directory, the plan and
the threshold of the task at their places, behind the assignments of the decision profile. -/
theorem generated_command {task : Dict F} {path : Value F} {launchCmd : List (Value F)}
    (htemplate : profile.get (chars "template") = some path)
    (hload : W.loadTemplate path = some (.dict template))
    (hlaunch : template.get (chars "launch_cmd") = some (.list launchCmd))
    (hclear : ∀ plan, normalizeDurationPlan W request profile template = some plan →
      ∀ item ∈ launchCmd, Clear W (changeOf W request profile template plan)
        (pieces (W.text (getD template "seed_dir" .null)) 0 false (W.text item)))
    (h : buildRunnerTask W request profile = some task) :
    ∃ seedDir threshold plan,
      task.get (chars "seed_dir") = some seedDir ∧
      task.get (chars "threshold") = some (.str threshold) ∧
      task.get (chars "duration_plan") = some (.list (plan.map .int)) ∧
      task.get (chars "launch_cmd") = some (.list ((withProfile W profile (launchCmd.map fun item =>
        intended (W.text (getD template "seed_dir" .null)) (W.text seedDir) (planText plan)
          threshold (W.text item))).map .str)) := by
  rw [buildRunnerTask, htemplate, Option.bind_eq_bind, Option.bind_some, Option.bind_eq_bind, hload,
    Option.bind_some] at h
  obtain ⟨plan, hplan, h⟩ := Option.bind_eq_some_iff.mp h
  obtain ⟨name, -, h⟩ := Option.bind_eq_some_iff.mp h
  obtain ⟨maxTestCases, -, h⟩ := Option.bind_eq_some_iff.mp h
  obtain ⟨timeBudget, -, h⟩ := Option.bind_eq_some_iff.mp h
  obtain ⟨hseed, hthreshold, hduration, hcommand⟩ :=
    get_task W request profile template plan name maxTestCases timeBudget
  generalize assign template _ = taskConfig at h hseed hthreshold hduration hcommand
  unfold updateLaunchCmd at h
  rw [hcommand, hlaunch] at h
  obtain ⟨updated, hupdated, h⟩ := Option.bind_eq_some_iff.mp h
  have hother : ∀ {key v}, key ≠ chars "launch_cmd" → taskConfig.get key = some v →
      task.get key = some v := by
    intro key v hne hget
    rw [← Option.some.inj h]
    show (setItem taskConfig _ _).lookup key = some v
    rw [lookup_setItem, if_neg hne]
    exact hget
  refine ⟨_, _, plan, hother (by decide) hseed, hother (by decide) hthreshold,
    hother (by decide) hduration, ?_⟩
  have hitems : updated = launchCmd.map fun item =>
      intended (W.text (getD template "seed_dir" .null))
        (W.text (seedDirOf W request profile template)) (planText plan)
        (thresholdOf W profile template) (W.text item) := by
    refine eq_map_of_mapM (fun item hitem out hout => ?_) hupdated
    refine updateItem_pieces (hclear plan hplan item hitem) (notMem_planText plan) rfl
      (fun o => ?_) (nodup_oldSeedValues W taskConfig profile) hout
    have hdir : getD taskConfig "seed_dir" (.str []) = seedDirOf W request profile template := by
      rw [getD, hseed]
      rfl
    rw [mem_oldSeedValues, hdir]
    rfl
  rw [← Option.some.inj h, ← hitems]
  show (setItem taskConfig _ _).lookup _ = _
  rw [lookup_setItem, if_pos rfl]

end Task

/-- A repository with one template, and numbers that are whole. -/
def oneTemplate (template : Dict Unit) : World Unit where
  str v :=
    match v with
    | .null => chars "None"
    | .int i => JsonCodec.showInt i
    | _ => []
  isZero _ := true
  int v :=
    match v with
    | .int i => some i
    | _ => none
  casefold text := text
  nowStr := []
  setOrder texts := texts
  setOrder_perm texts := List.Perm.refl texts
  resolveRepoPath s := if s = [] then none else some ⟨chars "/repo/" ++ s, rfl⟩
  loadTemplate _ := some (.dict template)

/-- A template whose command sets the plan, the threshold and the seed directory. -/
def runCommand : Text := chars
  "NV_BODY_SCORE_THRESHOLD=\"1\" IN=\"\x7bROOT\x7d/in/a\" RUNNER_DURATION_PLAN=\"20\" run"

def runTemplate : Dict Unit :=
  [(chars "seed_dir", .str (chars "in/a")), (chars "launch_cmd", .list [.str runCommand])]

def runProfile (more : Dict Unit) : Dict Unit :=
  [(chars "template", .str (chars "t.json")), (chars "profile", .str (chars "p")),
    (chars "threshold", .str (chars "2.5")),
    (chars "duration_plan", .list [.int 7, .int 9])] ++ more

/-- A profile with the seed directory of the template. -/
def sameDirProfile : Dict Unit := runProfile [(chars "seed_dir", .str (chars "in/a"))]

def runRequest : Dict Unit := [(chars "seed_location", .str (chars "in/b"))]

theorem clear_run : Clear (oneTemplate runTemplate)
    (changeOf (oneTemplate runTemplate) runRequest sameDirProfile runTemplate [7, 9])
    (pieces (chars "in/a") 0 false runCommand) where
  plan := by decide
  threshold := by decide
  literal _ whole := expand_of_notMem whole (by decide)
  covered _ := .inr (by decide)
  own _ _ := by decide
  others old hold hown hnew := by
    have holds : (changeOf (oneTemplate runTemplate) runRequest sameDirProfile runTemplate
        [7, 9]).olds = [chars "in/b", chars "in/a"] := rfl
    rw [holds] at hold
    rcases List.mem_cons.mp hold with rfl | hold
    · exact absurd rfl hnew
    · exact absurd (List.mem_singleton.mp hold) hown
  paths old hold p q hp hq hne dir hdir := by
    have holds : (changeOf (oneTemplate runTemplate) runRequest sameDirProfile runTemplate
        [7, 9]).olds = [chars "in/b", chars "in/a"] := rfl
    rw [holds] at hold
    rcases List.mem_cons.mp hold with rfl | hold
    · rw [Option.some.inj (hp.symm.trans hq)] at hne
      exact absurd rfl hne
    · rw [List.mem_singleton.mp hold] at hp
      have hpath : p = ⟨chars "/repo/in/a", rfl⟩ := (Option.some.inj hp).symm
      rw [hpath]
      rcases hdir with rfl | rfl
      · unfold Absent
        decide
      · unfold Absent
        decide

theorem generated_command_run : ∃ task,
    buildRunnerTask (oneTemplate runTemplate) runRequest sameDirProfile = some task ∧
    ∃ seedDir threshold plan,
      task.get (chars "seed_dir") = some seedDir ∧
      task.get (chars "threshold") = some (.str threshold) ∧
      task.get (chars "duration_plan") = some (.list (plan.map .int)) ∧
      task.get (chars "launch_cmd") = some (.list
        ((withProfile (oneTemplate runTemplate) sameDirProfile
          ([Value.str runCommand].map fun item =>
            intended (chars "in/a") ((oneTemplate runTemplate).text seedDir) (planText plan)
              threshold ((oneTemplate runTemplate).text item))).map .str)) := by
  have hbuild : ∃ task,
      buildRunnerTask (oneTemplate runTemplate) runRequest sameDirProfile = some task := ⟨_, rfl⟩
  have hload : (oneTemplate runTemplate).loadTemplate (.str (chars "t.json")) =
      some (.dict runTemplate) := rfl
  have hlaunch : Dict.get runTemplate (chars "launch_cmd") = some (.list [.str runCommand]) := rfl
  obtain ⟨task, htask⟩ := hbuild
  refine ⟨task, htask,
    generated_command rfl hload hlaunch (fun plan hplan item hitem => ?_) htask⟩
  rw [List.mem_singleton.mp hitem, ← Option.some.inj hplan]
  exact clear_run

/-- The directory of the template is kept when the profile does not name it. -/
theorem seed_dir_is_kept :
    ¬ ∃ task, buildRunnerTask (oneTemplate runTemplate) runRequest (runProfile []) = some task ∧
      task.get (chars "launch_cmd") = some (.list
        ((withProfile (oneTemplate runTemplate) (runProfile [])
          ([Value.str runCommand].map fun item =>
            intended (chars "in/a") (chars "in/b") (planText [7, 9]) (chars "2.5")
              ((oneTemplate runTemplate).text item))).map .str)) := by
  rintro ⟨task, htask, hcommand⟩
  have hkept : task.get (chars "launch_cmd") = some (.list [.str (chars
      "NV_BODY_SCORE_THRESHOLD=\"2.5\" IN=\"\x7bROOT\x7d/in/a\" RUNNER_DURATION_PLAN=\"7 9\" run"
      )]) := by
    rw [← Option.some.inj htask]
    rfl
  rw [hkept] at hcommand
  have hitem := (List.cons.inj (Value.list.inj (Option.some.inj hcommand))).1
  exact absurd (Value.str.inj hitem) (by decide)

end AflNv.TaskCommand
