import AflNv.BodyRules
import AflNv.CanonicalJson

/-!
# The bounded A/B/C protocol

`run_protocol` (`scripts/run_alfresco_bounded_protocol.py`) starts three children one after the
other, judges each by its return code and by two files that it leaves, and writes a report.  The
files are arbitrary bytes.

* `runEntries_completed` says when the loop comes to its end.
* `failClosed_iff` says for which children the verdict is fail-closed.
-/

namespace AflNv.BoundedProtocol

open AflNv.Lib AflNv.Lib.JsonCodec AflNv.PythonJson AflNv.CanonicalJson
open AflNv.BodyRules (FloatEq pyEq)

/-- What is raised. -/
inductive Raised where
  | valueError (message : Text)
  | runtimeError (message : Text)
  | unicodeEncodeError
  | recursionError
  | osError
  | other
  deriving DecidableEq

/-- The calls that can fail with an `OSError`. -/
inductive Call where
  | makeOutput
  | makeRuns
  | openLock
  | makeRun (label : Text)
  | writeReport

/-- What a child leaves: its return code, or what starting it raises, and its two files. -/
structure Child where
  returnCode : Except Raised ℤ
  report : Option Bytes
  task : Option Bytes

/-- The host: JSON (`tooDeep` texts raise a `RecursionError`), the comparison of floats, the file
tree, the lock, and what each command does. -/
structure Host (F : Type) where
  interp : Interp F
  floatEq : FloatEq F
  tooDeep : Text → Bool
  resolved : Text → Text
  isRelativeTo : Text → Text → Bool
  isFile : Text → Bool
  isDir : Text → Bool
  isSymlink : Text → Bool
  pathExists : Text → Bool
  anyEntry : Text → Bool
  fails : Call → Bool
  lockHeld : Bool
  python : Text
  invoke : List Text → Child

variable {F : Type} (H : Host F)

/-- An entry of the protocol. -/
structure Entry where
  label : Text
  targetFileName : Text
  mutationScope : Text
  deriving DecidableEq

/-- `PROTOCOL_ENTRIES` -/
def protocolEntries : List Entry :=
  [⟨chars "A", chars "nv-afl-levelc-metadata.txt", chars "field_value"⟩,
    ⟨chars "B", chars "nv-afl-levelc-metadata-arm1.txt", chars "boundary"⟩,
    ⟨chars "C", chars "nv-afl-levelc-metadata-arm2.txt", chars "structure"⟩]

/-! ## The files of a child -/

/-- `_read_json` -/
def readJson (file : Option Bytes) : Except Raised (Option (List (Text × Value F))) :=
  match file.bind Utf8.decode with
  | none => .ok none
  | some content =>
    let text := Unicode.universalNewlines content
    if H.tooDeep text then .error .recursionError
    else
      match loads H.interp text with
      | some (.dict ms) => .ok (some ms)
      | _ => .ok none

/-- `value.get(key)` -/
def get (ms : List (Text × Value F)) (key : String) : Value F := (ms.lookup (chars key)).getD .null

/-- `v is True` -/
def isTrue : Value F → Bool
  | .bool b => b
  | _ => false

/-- `v == s` -/
def equals (v : Value F) (s : String) : Bool := pyEq H.floatEq v (.str (chars s))

/-- `isinstance(v, dict)` and a check of it. -/
def isDict (check : List (Text × Value F) → Bool) : Value F → Bool
  | .dict ms => check ms
  | _ => false

/-- `{"exit_code": 0, "exit_status": "success", "recorded": True}` -/
def success : List (Text × Value F) :=
  [(chars "exit_code", .int 0), (chars "exit_status", .str (chars "success")),
    (chars "recorded", .bool true)]

/-- The checks of `execution_ledger` and of `mab_journal`. -/
def evidenceReconciled (ms : List (Text × Value F)) : Bool :=
  isTrue (get ms "required") && isTrue (get ms "present") && isTrue (get ms "reconciled")

/-- The checks of `readback`. -/
def readbackPassed (ms : List (Text × Value F)) : Bool :=
  isTrue (get ms "applicable") && isTrue (get ms "attempted") && isTrue (get ms "present") &&
    isTrue (get ms "reconciled") && isTrue (get ms "artifact_valid") &&
    equals H (get ms "verdict") "pass"

/-- The conditions of `_child_report_is_success` on the report. -/
def reportIsSuccess (targetFileName : Text) (report : List (Text × Value F)) : Bool :=
  isTrue (get report "ok") && equals H (get report "artifact_final_result") "pass" &&
    isDict (fun runner => pyEq H.floatEq (.dict runner) (.dict success)) (get report "runner") &&
    isDict evidenceReconciled (get report "execution_ledger") &&
    isDict evidenceReconciled (get report "mab_journal") &&
    isDict (readbackPassed H) (get report "readback") &&
    isDict (fun binding => pyEq H.floatEq (get binding "target_file_name") (.str targetFileName))
      (get report "target_binding")

/-- `task.get("mutation_scope") == [mutation_scope]` -/
def scopeIs (mutationScope : Text) (task : List (Text × Value F)) : Bool :=
  pyEq H.floatEq (get task "mutation_scope") (.list [.str mutationScope])

/-- `_child_report_is_success` -/
def childReportIsSuccess (e : Entry) (child : Child) : Except Raised Bool := do
  match ← readJson H child.report with
  | none => return false
  | some report =>
    if reportIsSuccess H e.targetFileName report then
      match ← readJson H child.task with
      | none => return false
      | some task => return scopeIs H e.mutationScope task
    else return false

/-- The identity of the target in a report, if it is a `str`. -/
def targetIdentity (report : Option (List (Text × Value F))) : Option Text :=
  match report with
  | none => none
  | some report =>
    match get report "target_binding" with
    | .dict binding =>
      match get binding "node_identity" with
      | .str identity => some identity
      | _ => none
    | _ => none

/-! ## The report -/

/-- An item of `entries`. -/
structure EntryReport where
  entry : Entry
  runRoot : Text
  returnCode : ℤ
  targetIdentity : Option Text
  success : Bool

/-- `None` or a `str`. -/
def optional : Option Text → Value F
  | none => .null
  | some s => .str s

/-- `report_path` -/
def reportPath (runRoot : Text) : Text := runRoot ++ chars "/evidence/artifact_report.json"

def EntryReport.toJson (r : EntryReport) : Value F :=
  .dict
    [(chars "label", .str r.entry.label),
      (chars "target_file_name", .str r.entry.targetFileName),
      (chars "mutation_scope", .str r.entry.mutationScope),
      (chars "run_root", .str r.runRoot),
      (chars "return_code", .int r.returnCode),
      (chars "report_path", .str (reportPath r.runRoot)),
      (chars "target_identity", optional r.targetIdentity),
      (chars "success", .bool r.success)]

/-- The verdict, with what the failing ones say. -/
inductive Verdict where
  | pass
  | failed (entry : Text)
  | notDistinct (entry : Text)
  | lockHeld
  deriving DecidableEq

/-- `status` -/
def Verdict.status : Verdict → Text
  | .pass => chars "pass"
  | _ => chars "failed"

/-- The members behind `status`. -/
def Verdict.members : Verdict → List (Text × Text)
  | .pass => []
  | .failed entry => [(chars "failed_entry", entry)]
  | .notDistinct entry =>
    [(chars "failure", chars "TARGET_IDENTITY_NOT_DISTINCT"), (chars "failed_entry", entry)]
  | .lockHeld => [(chars "failure", chars "PROTOCOL_LOCK_HELD")]

/-- `result` -/
structure Report where
  verdict : Verdict
  entries : List EntryReport

def Report.toJson (r : Report) : Value F :=
  .dict
    ([(chars "schema_version", .int 1),
      (chars "protocol", .str (chars "alfresco_bounded_single_arm_abc")),
      (chars "status", .str r.verdict.status)] ++
      r.verdict.members.map (fun m => (m.1, .str m.2)) ++
      [(chars "entries", .list (r.entries.map EntryReport.toJson))])

/-- `_write_summary`: the bytes that replace the report. -/
def writeSummary (r : Report) : Except Raised Bytes :=
  let text := canonicalText H.interp.floats r.toJson
  if encodes text then
    if H.fails .writeReport then .error .osError else .ok (Utf8.encode text)
  else .error .unicodeEncodeError

/-! ## The protocol -/

/-- The arguments. -/
structure Config where
  repoRoot : Text
  outputRoot : Text
  runner : Text
  seedManifest : Option Text
  seedSourceDir : Option Text

/-- The resolved paths of a run. -/
structure Paths where
  output : Text
  runner : Text
  seedManifest : Option Text
  seedSourceDir : Option Text

/-- `if b: raise e` -/
def refuse (b : Bool) (e : Raised) : Except Raised Unit := if b then .error e else .ok ()

/-- `_validate_external_path` -/
def validateExternalPath (path repoRoot name : Text) : Except Raised Text := do
  let value := H.resolved path
  let repo := H.resolved repoRoot
  refuse (value = repo || H.isRelativeTo value repo)
    (.valueError (name ++ chars "_INSIDE_GIT_WORKTREE"))
  return value

/-- The checks of the seeds. -/
def validateSeeds (seedManifest seedSourceDir : Option Text) :
    Except Raised (Option Text × Option Text) :=
  match seedManifest, seedSourceDir with
  | some manifest, some source => do
    let manifest := H.resolved manifest
    let source := H.resolved source
    refuse (!H.isFile manifest || H.isSymlink manifest) (.valueError (chars "MANIFEST_NOT_REGULAR"))
    refuse (!H.isDir source || H.isSymlink source)
      (.valueError (chars "MANIFEST_SOURCE_NOT_DIRECTORY"))
    return (some manifest, some source)
  | none, none => return (none, none)
  | _, _ => .error (.valueError (chars "MANIFEST_SOURCE_CONFIGURATION_INCOMPLETE"))

/-- The directory of the output is there and empty. -/
def makeOutput (output : Text) : Except Raised Unit := do
  if H.pathExists output then
    refuse (!H.isDir output || H.anyEntry output)
      (.valueError (chars "PROTOCOL_OUTPUT_NOT_FRESH"))
  else refuse (H.fails .makeOutput) .osError
  refuse (H.fails .makeRuns) .osError

/-- What `run_protocol` does in front of the lock. -/
def prepare (cfg : Config) : Except Raised Paths := do
  let repo := H.resolved cfg.repoRoot
  let output ← validateExternalPath H cfg.outputRoot repo (chars "PROTOCOL_OUTPUT")
  let runner := H.resolved cfg.runner
  refuse (!H.isFile runner) (.valueError (chars "RUNNER_NOT_FOUND"))
  let (seedManifest, seedSourceDir) ← validateSeeds H cfg.seedManifest cfg.seedSourceDir
  makeOutput H output
  return { output, runner, seedManifest, seedSourceDir }

/-- The directory of a run. -/
def Paths.runRoot (p : Paths) (e : Entry) : Text := p.output ++ chars "/runs/" ++ e.label

/-- The arguments for the seeds. -/
def seedArguments : Option Text → Option Text → Except Raised (List Text)
  | none, none => .ok []
  | some manifest, some source =>
    .ok [chars "--seed-manifest", H.resolved manifest, chars "--seed-source-dir", H.resolved source]
  | _, _ => .error (.valueError (chars "MANIFEST_SOURCE_CONFIGURATION_INCOMPLETE"))

/-- `build_single_run_command` -/
def buildSingleRunCommand (p : Paths) (e : Entry) : Except Raised (List Text) := do
  let seeds ← seedArguments H p.seedManifest p.seedSourceDir
  return [H.python, H.resolved p.runner, chars "--run-root", H.resolved (p.runRoot e),
    chars "--target-file-name", e.targetFileName, chars "--mutation-scope", e.mutationScope] ++
    seeds

/-- How the loop ends. -/
inductive Ending where
  | raised (e : Raised)
  | returned (r : Report)
  | completed (entries : List EntryReport)

/-- A child that was started. -/
structure Started where
  entry : Entry
  command : List Text

/-- `return_code == 0 and _child_report_is_success(..)` -/
def succeeds (e : Entry) (child : Child) (returnCode : ℤ) : Except Raised Bool :=
  if returnCode = 0 then childReportIsSuccess H e child else .ok false

/-- The report on a child that has returned. -/
def judge (p : Paths) (e : Entry) (child : Child) : Except Raised EntryReport := do
  let returnCode ← child.returnCode
  let report ← readJson H child.report
  let success ← succeeds H e child returnCode
  return ⟨e, p.runRoot e, returnCode, targetIdentity report, success⟩

/-- The loop, with the reports so far and the identities seen: the children that it starts, and how
it ends. -/
def runEntries (p : Paths) :
    List Entry → List EntryReport → List Text → List Started × Ending
  | [], entries, _ => ([], .completed entries)
  | e :: rest, entries, identities =>
    if H.fails (.makeRun e.label) then ([], .raised .osError)
    else
      match buildSingleRunCommand H p e with
      | .error x => ([], .raised x)
      | .ok command =>
        match judge H p e (H.invoke command) with
        | .error x => ([⟨e, command⟩], .raised x)
        | .ok r =>
          if r.success && r.targetIdentity.any (· ∈ identities) then
            ([⟨e, command⟩], .returned ⟨.notDistinct e.label, entries ++ [r]⟩)
          else if r.success then
            let later := runEntries p rest (entries ++ [r]) (identities ++ r.targetIdentity.toList)
            (⟨e, command⟩ :: later.1, later.2)
          else ([⟨e, command⟩], .returned ⟨.failed e.label, entries ++ [r]⟩)

/-- What a call leaves: the children it started, the content of `protocol_report.json`, and its
result. -/
structure Outcome where
  started : List Started
  content : Option Bytes
  result : Except Raised Report

/-- Write a report and return it. -/
def finish (started : List Started) (r : Report) : Outcome :=
  match writeSummary H r with
  | .ok content => ⟨started, some content, .ok r⟩
  | .error x => ⟨started, none, .error x⟩

/-- The handler of the `RuntimeError`s. -/
def handle (started : List Started) (x : Raised) : Outcome :=
  if x = .runtimeError (chars "PROTOCOL_LOCK_HELD") then finish H started ⟨.lockHeld, []⟩
  else ⟨started, none, .error x⟩

/-- `run_protocol` -/
def runProtocol (cfg : Config) : Outcome :=
  match prepare H cfg with
  | .error x => ⟨[], none, .error x⟩
  | .ok p =>
    if H.fails .openLock then ⟨[], none, .error .osError⟩
    else if H.lockHeld then handle H [] (.runtimeError (chars "PROTOCOL_LOCK_HELD"))
    else
      match runEntries H p protocolEntries [] [] with
      | (started, .raised x) => handle H started x
      | (started, .returned r) =>
        match writeSummary H r with
        | .ok content => ⟨started, some content, .ok r⟩
        | .error x => handle H started x
      | (started, .completed entries) => finish H started ⟨.pass, entries⟩

/-! ## What is written -/

/-- The texts of an item. -/
def EntryReport.texts (r : EntryReport) : List Text :=
  [r.entry.label, r.entry.targetFileName, r.entry.mutationScope, r.runRoot, reportPath r.runRoot] ++
    r.targetIdentity.toList

/-- The texts of a report that are not fixed. -/
def Report.texts (r : Report) : List Text :=
  r.verdict.members.map Prod.snd ++ r.entries.flatMap EntryReport.texts

theorem encodable_entry (r : EntryReport) :
    encodable (r.toJson : Value F) = true ↔ ∀ s ∈ r.texts, encodes s = true := by
  have hkeys : ∀ key ∈ [chars "label", chars "target_file_name", chars "mutation_scope",
      chars "run_root", chars "return_code", chars "report_path", chars "target_identity",
      chars "success"], encodes key = true := by decide
  simp only [List.forall_mem_cons] at hkeys
  obtain ⟨k₁, k₂, k₃, k₄, k₅, k₆, k₇, k₈, -⟩ := hkeys
  cases hid : r.targetIdentity <;>
    simp [EntryReport.toJson, EntryReport.texts, hid, optional, encodable, encodableMembers, k₁, k₂,
      k₃, k₄, k₅, k₆, k₇, k₈]

theorem encodable_status (v : Verdict) : encodes v.status = true := by
  have hpass : encodes (chars "pass") = true := by decide
  have hfailed : encodes (chars "failed") = true := by decide
  cases v with
  | pass => exact hpass
  | _ => exact hfailed

theorem encodable_members (v : Verdict) : ∀ m ∈ v.members, encodes m.1 = true := by
  cases v <;> simp only [Verdict.members, List.forall_mem_cons] <;> decide

theorem encodable_report (r : Report) :
    encodable (r.toJson : Value F) = true ↔ ∀ s ∈ r.texts, encodes s = true := by
  have hkeys : ∀ key ∈ [chars "schema_version", chars "protocol", chars "status", chars "entries",
      chars "alfresco_bounded_single_arm_abc"], encodes key = true := by decide
  simp only [List.forall_mem_cons] at hkeys
  obtain ⟨k₁, k₂, k₃, k₄, k₅, -⟩ := hkeys
  have hmembers := encodable_members r.verdict
  rw [Report.toJson, encodable, encodableMembers_iff]
  simp only [List.forall_mem_append, List.forall_mem_cons, List.forall_mem_map, k₁, k₂, k₃, k₄,
    encodable, k₅, encodable_status, encodableItems_iff, encodable_entry, Report.texts,
    List.mem_flatMap]
  constructor
  · rintro ⟨⟨-, hverdict⟩, ⟨-, hentries⟩, -⟩
    refine ⟨fun m hm => (hverdict m hm).2, ?_⟩
    rintro s ⟨e, he, hs⟩
    exact hentries e he s hs
  · rintro ⟨hverdict, hentries⟩
    refine ⟨⟨by simp, fun m hm => ⟨hmembers m hm, hverdict m hm⟩⟩,
      ⟨trivial, fun e he s hs => hentries s ⟨e, he, hs⟩⟩, by simp⟩

theorem nodup_report (v : Verdict) :
    ([chars "schema_version", chars "protocol", chars "status"] ++ v.members.map Prod.fst ++
      [chars "entries"]).Nodup := by
  cases v <;> simp only [Verdict.members, List.map_cons, List.map_nil] <;> decide

theorem keysDistinct_entry (r : EntryReport) : keysDistinct (r.toJson : Value F) = true := by
  have hkeys : [chars "label", chars "target_file_name", chars "mutation_scope", chars "run_root",
      chars "return_code", chars "report_path", chars "target_identity",
      chars "success"].Nodup := by decide
  have hid : keysDistinct (optional r.targetIdentity : Value F) = true := by
    cases r.targetIdentity <;> rfl
  rw [EntryReport.toJson, keysDistinct, Bool.and_eq_true, decide_eq_true_eq]
  refine ⟨hkeys, ?_⟩
  simp [keysDistinctMembers, keysDistinct, hid]

theorem keysDistinct_report (r : Report) : keysDistinct (r.toJson : Value F) = true := by
  have hentries : keysDistinctItems (r.entries.map EntryReport.toJson : List (Value F)) = true := by
    rw [keysDistinctItems_iff, List.forall_mem_map]
    exact fun e _ => keysDistinct_entry e
  have hnodup := nodup_report r.verdict
  rw [Report.toJson, keysDistinct, Bool.and_eq_true, decide_eq_true_eq]
  constructor
  · simpa [List.map_append, Function.comp_def] using hnodup
  · cases r.verdict <;> simp [Verdict.members, keysDistinctMembers, keysDistinct, hentries]

theorem wf_report {r : Report} (h : ∀ s ∈ r.texts, encodes s = true) : (r.toJson : Value F).Wf :=
  wf_of_encodable ((encodable_report r).mpr h) (keysDistinct_report r)

/-- The report is written exactly if no text of it holds a surrogate and the file can be written;
then the file is read back as the report. -/
theorem writeSummary_eq_ok (r : Report) :
    (∃ content, writeSummary H r = .ok content) ↔
      (∀ s ∈ r.texts, encodes s = true) ∧ H.fails .writeReport = false := by
  rw [writeSummary, encodes_canonicalText, ← encodable_report]
  cases encodable (r.toJson : Value F) <;> cases H.fails .writeReport <;> simp

theorem read_writeSummary {r : Report} {content : Bytes} (h : writeSummary H r = .ok content) :
    ∃ text, Utf8.decode content = some text ∧
      read H.interp.floats text = some (sortKeys r.toJson) := by
  have htexts := ((writeSummary_eq_ok H r).mp ⟨content, h⟩).1
  have henc : encodes (canonicalText H.interp.floats r.toJson) = true :=
    (encodes_canonicalText _ _).trans ((encodable_report r).mpr htexts)
  rw [writeSummary, if_pos henc] at h
  split_ifs at h
  obtain rfl := Except.ok.inj h
  exact ⟨_, Utf8.decode_encode (encodes_iff.mp henc), read_canonicalText _ (wf_report htexts)⟩

/-! ## The children -/

/-- A child that succeeds: it returns 0, and its report satisfies every condition. -/
def Passes (e : Entry) (child : Child) : Prop :=
  child.returnCode = .ok 0 ∧ childReportIsSuccess H e child = .ok true

/-- The identity that the report of a child carries. -/
def identityOf (child : Child) : Option Text :=
  match readJson H child.report with
  | .ok report => targetIdentity report
  | .error _ => none

/-- The conditions on a child that succeeds. -/
theorem childReportIsSuccess_iff (e : Entry) (child : Child) :
    childReportIsSuccess H e child = .ok true ↔
      ∃ report task, readJson H child.report = .ok (some report) ∧
        reportIsSuccess H e.targetFileName report = true ∧
        readJson H child.task = .ok (some task) ∧
        scopeIs H e.mutationScope task = true := by
  unfold childReportIsSuccess
  rw [bind_eq_ok]
  constructor
  · rintro ⟨report, hreport, h⟩
    cases report with
    | none => cases h
    | some report =>
      dsimp only at h
      split_ifs at h with hsuccess
      · obtain ⟨task, htask, h⟩ := bind_eq_ok.mp h
        cases task with
        | none => cases h
        | some task => exact ⟨report, task, hreport, hsuccess, htask, Except.ok.inj h⟩
      · cases h
  · rintro ⟨report, task, hreport, hsuccess, htask, hscope⟩
    refine ⟨some report, hreport, ?_⟩
    dsimp only
    rw [if_pos hsuccess, htask]
    exact congrArg Except.ok hscope

theorem judge_success (p : Paths) (e : Entry) (child : Child) (r : EntryReport) :
    judge H p e child = .ok r ∧ r.success = true ↔
      Passes H e child ∧ r = ⟨e, p.runRoot e, 0, identityOf H child, true⟩ := by
  simp only [judge, bind_eq_ok, succeeds]
  constructor
  · rintro ⟨⟨code, hcode, report, hreport, success, hjudged, hr⟩, hsuccess⟩
    obtain rfl := Except.ok.inj hr
    obtain rfl : success = true := hsuccess
    split_ifs at hjudged with hzero
    · subst hzero
      exact ⟨⟨hcode, hjudged⟩, by rw [identityOf, hreport]⟩
    · cases hjudged
  · rintro ⟨⟨hcode, hsuccess⟩, rfl⟩
    obtain ⟨report, -, hreport, -⟩ := (childReportIsSuccess_iff H e child).mp hsuccess
    refine ⟨⟨0, hcode, some report, hreport, true, hsuccess, ?_⟩, rfl⟩
    rw [identityOf, hreport]
    rfl

/-- The file that `json.dumps` makes of an object. -/
def fileOf (N : Floats F) (ms : List (Text × Value F)) : Option Bytes :=
  some (Utf8.encode (dumps N utf8Style (.dict ms)))

/-- A file that was written by `json.dumps` is read back. -/
theorem readJson_fileOf {ms : List (Text × Value F)} (henc : encodable (.dict ms) = true)
    (hkeys : keysDistinct (.dict ms) = true)
    (hlines : 13 ∉ dumps H.interp.floats utf8Style (.dict ms))
    (hdeep : H.tooDeep (dumps H.interp.floats utf8Style (.dict ms)) = false)
    (hrefuses : H.interp.refuses (dumps H.interp.floats utf8Style (.dict ms)) = false) :
    readJson H (fileOf H.interp.floats ms) = .ok (some ms) := by
  have hscalar := encodes_iff.mp
    ((encodes_dumps (w := utf8Style) rfl H.interp.floats (.dict ms)).trans henc)
  rw [readJson, fileOf, Option.bind_some, Utf8.decode_encode hscalar]
  dsimp only
  rw [Unicode.universalNewlines_eq_self hlines, hdeep, if_neg Bool.false_ne_true, loads, hrefuses,
    if_neg Bool.false_ne_true, read_dumps _ _ (wf_of_encodable henc hkeys)]

/-! ## The loop -/

section Loop

variable {p : Paths} {seeds : List Text}
variable (hseeds : seedArguments H p.seedManifest p.seedSourceDir = .ok seeds)

/-- The command of an entry. -/
def commandOf (p : Paths) (seeds : List Text) (e : Entry) : List Text :=
  [H.python, H.resolved p.runner, chars "--run-root", H.resolved (p.runRoot e),
    chars "--target-file-name", e.targetFileName, chars "--mutation-scope", e.mutationScope] ++
    seeds

/-- What the command of an entry leaves. -/
def childOf (p : Paths) (seeds : List Text) (e : Entry) : Child := H.invoke (commandOf H p seeds e)

/-- The report on an entry whose child succeeds. -/
def passReport (p : Paths) (seeds : List Text) (e : Entry) : EntryReport :=
  ⟨e, p.runRoot e, 0, identityOf H (childOf H p seeds e), true⟩

include hseeds in
theorem buildSingleRunCommand_eq (e : Entry) :
    buildSingleRunCommand H p e = .ok (commandOf H p seeds e) := by
  rw [buildSingleRunCommand, hseeds]
  rfl

/-- The loop goes on behind an entry: its child succeeds with an identity that was not seen, or with
none. -/
structure Advances (p : Paths) (seeds : List Text) (ids : List Text) (e : Entry) : Prop where
  made : H.fails (.makeRun e.label) = false
  passes : Passes H e (childOf H p seeds e)
  fresh : ∀ id ∈ identityOf H (childOf H p seeds e), id ∉ ids

/-- An end of the loop that is no pass. -/
def Ending.Halts : Ending → Prop
  | .raised _ => True
  | .returned r => r.verdict.status ≠ chars "pass"
  | .completed _ => False

include hseeds in
theorem runEntries_advance {e : Entry} {ids : List Text} (h : Advances H p seeds ids e)
    (rest : List Entry) (entries : List EntryReport) :
    runEntries H p (e :: rest) entries ids =
      (⟨e, commandOf H p seeds e⟩ ::
          (runEntries H p rest (entries ++ [passReport H p seeds e])
            (ids ++ (identityOf H (childOf H p seeds e)).toList)).1,
        (runEntries H p rest (entries ++ [passReport H p seeds e])
          (ids ++ (identityOf H (childOf H p seeds e)).toList)).2) := by
  have hjudge := ((judge_success H p e (childOf H p seeds e) (passReport H p seeds e)).mpr
    ⟨h.passes, rfl⟩).1
  have hfresh : ((passReport H p seeds e).success &&
      (passReport H p seeds e).targetIdentity.any (· ∈ ids)) = false := by
    rw [passReport, Bool.true_and, Option.any_eq_false]
    simpa using h.fresh
  rw [runEntries, if_neg (by simp [h.made]), buildSingleRunCommand_eq H hseeds e]
  dsimp only
  rw [show H.invoke (commandOf H p seeds e) = childOf H p seeds e from rfl, hjudge]
  dsimp only
  rw [hfresh, if_neg Bool.false_ne_true,
    if_pos (show (passReport H p seeds e).success = true from rfl)]
  rfl

include hseeds in
theorem runEntries_halt {e : Entry} {ids : List Text} (h : ¬ Advances H p seeds ids e)
    (rest : List Entry) (entries : List EntryReport) :
    (runEntries H p (e :: rest) entries ids).1.length ≤ 1 ∧
      (runEntries H p (e :: rest) entries ids).2.Halts := by
  rw [runEntries]
  split_ifs with hmade
  · exact ⟨Nat.zero_le 1, trivial⟩
  rw [buildSingleRunCommand_eq H hseeds e]
  dsimp only
  cases hjudge : judge H p e (H.invoke (commandOf H p seeds e)) with
  | error x => exact ⟨Nat.le_refl 1, trivial⟩
  | ok r =>
    have hfailed : chars "failed" ≠ chars "pass" := by decide
    dsimp only
    split_ifs with hseen hsuccess
    · exact ⟨Nat.le_refl 1, hfailed⟩
    · exfalso
      obtain ⟨hpasses, rfl⟩ := (judge_success H p e _ r).mp ⟨hjudge, hsuccess⟩
      refine h ⟨by simpa using hmade, hpasses, fun id hid hmem => hseen ?_⟩
      rw [Bool.true_and, Option.any_eq_true]
      exact ⟨id, hid, decide_eq_true hmem⟩
    · exact ⟨Nat.le_refl 1, hfailed⟩

/-- No child is started after one that failed. -/
def Stops (started : List Started) : Prop :=
  ∀ pre s post, started = pre ++ s :: post → ¬ Passes H s.entry (H.invoke s.command) → post = []

include hseeds in
theorem stops_runEntries (es : List Entry) (entries : List EntryReport) (ids : List Text) :
    Stops H (runEntries H p es entries ids).1 := by
  induction es generalizing entries ids with
  | nil =>
    intro pre s post h
    simp [runEntries] at h
  | cons e rest ih =>
    by_cases hadvance : Advances H p seeds ids e
    · rw [runEntries_advance H hseeds hadvance]
      intro pre s post h hfailed
      cases pre with
      | nil =>
        obtain ⟨rfl, -⟩ := List.cons.inj h
        exact absurd hadvance.passes hfailed
      | cons t pre => exact ih _ _ pre s post (List.cons.inj h).2 hfailed
    · have hlen := (runEntries_halt H hseeds hadvance rest entries).1
      intro pre s post h _
      rw [h, List.length_append, List.length_cons] at hlen
      exact List.eq_nil_of_length_eq_zero (by omega)

/-- All children of some entries succeed, and the identities that they carry are distinct. -/
structure AllPass (p : Paths) (seeds : List Text) (es : List Entry) (ids : List Text) : Prop where
  made : ∀ e ∈ es, H.fails (.makeRun e.label) = false
  passes : ∀ e ∈ es, Passes H e (childOf H p seeds e)
  distinct : (ids ++ es.filterMap fun e => identityOf H (childOf H p seeds e)).Nodup

theorem allPass_cons {e : Entry} {rest : List Entry} {ids : List Text} :
    AllPass H p seeds (e :: rest) ids ↔ Advances H p seeds ids e ∧
      AllPass H p seeds rest (ids ++ (identityOf H (childOf H p seeds e)).toList) := by
  have hsplit : (e :: rest).filterMap (fun e => identityOf H (childOf H p seeds e)) =
      (identityOf H (childOf H p seeds e)).toList ++
        rest.filterMap fun e => identityOf H (childOf H p seeds e) := by
    rw [List.filterMap_cons]
    cases identityOf H (childOf H p seeds e) <;> rfl
  constructor
  · rintro ⟨hmade, hpasses, hdistinct⟩
    rw [List.forall_mem_cons] at hmade hpasses
    rw [hsplit, ← List.append_assoc] at hdistinct
    refine ⟨⟨hmade.1, hpasses.1, fun id hid hmem => ?_⟩, hmade.2, hpasses.2, hdistinct⟩
    have hpair := (List.nodup_append.mp hdistinct).1
    exact (List.nodup_append.mp hpair).2.2 id hmem id (Option.mem_toList.mpr hid) rfl
  · rintro ⟨hadvances, hmade, hpasses, hdistinct⟩
    refine ⟨List.forall_mem_cons.mpr ⟨hadvances.made, hmade⟩,
      List.forall_mem_cons.mpr ⟨hadvances.passes, hpasses⟩, ?_⟩
    rw [hsplit, ← List.append_assoc]
    exact hdistinct

theorem Advances.nodup {e : Entry} {ids : List Text} (h : Advances H p seeds ids e)
    (hids : ids.Nodup) : (ids ++ (identityOf H (childOf H p seeds e)).toList).Nodup := by
  have hfresh := h.fresh
  cases hid : identityOf H (childOf H p seeds e) with
  | none => simpa using hids
  | some id =>
    rw [Option.toList_some, ← List.concat_eq_append, List.nodup_concat]
    exact ⟨hfresh id hid, hids⟩

include hseeds in
/-- The loop comes to its end exactly if all children succeed, with distinct identities. -/
theorem runEntries_cases (es : List Entry) (entries : List EntryReport) {ids : List Text}
    (hids : ids.Nodup) :
    (AllPass H p seeds es ids ∧ runEntries H p es entries ids =
      (es.map fun e => ⟨e, commandOf H p seeds e⟩,
        .completed (entries ++ es.map (passReport H p seeds)))) ∨
    (¬ AllPass H p seeds es ids ∧ (runEntries H p es entries ids).2.Halts) := by
  induction es generalizing entries ids with
  | nil =>
    refine .inl ⟨⟨by simp, by simp, by simpa using hids⟩, ?_⟩
    rw [runEntries, List.map_nil, List.map_nil, List.append_nil]
  | cons e rest ih =>
    by_cases hadvances : Advances H p seeds ids e
    · rw [allPass_cons, runEntries_advance H hseeds hadvances]
      rcases ih (entries ++ [passReport H p seeds e]) (hadvances.nodup H hids) with
        ⟨hall, hrun⟩ | ⟨hnot, hhalts⟩
      · refine .inl ⟨⟨hadvances, hall⟩, ?_⟩
        rw [hrun, List.append_assoc]
        rfl
      · exact .inr ⟨fun h => hnot h.2, hhalts⟩
    · exact .inr ⟨fun h => hadvances ((allPass_cons H).mp h).1,
        (runEntries_halt H hseeds hadvances rest entries).2⟩

end Loop

/-! ## The verdict -/

/-- What the protocol promises of a call: what it returns is the content of the report; it passes
only after three children that succeed and carry distinct identities; and no child is started after
one that failed. -/
structure FailClosed (o : Outcome) : Prop where
  reported : ∀ r, o.result = .ok r → ∃ content text, o.content = some content ∧
    Utf8.decode content = some text ∧ read H.interp.floats text = some (sortKeys r.toJson)
  passed : ∀ r, o.result = .ok r → r.verdict.status = chars "pass" →
    o.started.map Started.entry = protocolEntries ∧
      (∀ s ∈ o.started, Passes H s.entry (H.invoke s.command)) ∧
      ∃ ids : List Text, o.started.map (fun s => identityOf H (H.invoke s.command)) = ids.map some ∧
        ids.Nodup
  stopped : Stops H o.started

/-- A run that comes to a pass although a report carries no identity. -/
structure UnidentifiedPass (cfg : Config) (p : Paths) (seeds : List Text) : Prop where
  prepared : prepare H cfg = .ok p
  arguments : seedArguments H p.seedManifest p.seedSourceDir = .ok seeds
  locked : H.fails .openLock = false ∧ H.lockHeld = false
  passes : AllPass H p seeds protocolEntries []
  output : encodes p.output = true
  identities : ∀ e ∈ protocolEntries, ∀ id ∈ identityOf H (childOf H p seeds e), encodes id = true
  written : H.fails .writeReport = false
  unidentified : ∃ e ∈ protocolEntries, identityOf H (childOf H p seeds e) = none

theorem prepare_arguments {cfg : Config} {p : Paths} (h : prepare H cfg = .ok p) :
    ∃ seeds, seedArguments H p.seedManifest p.seedSourceDir = .ok seeds := by
  simp only [prepare, bind_eq_ok] at h
  obtain ⟨output, -, -, -, ⟨manifest, source⟩, hseeds, -, -, hp⟩ := h
  obtain rfl := Except.ok.inj hp
  unfold validateSeeds at hseeds
  split at hseeds
  · obtain ⟨-, -, hseeds⟩ := bind_eq_ok.mp hseeds
    obtain ⟨-, -, hseeds⟩ := bind_eq_ok.mp hseeds
    obtain ⟨rfl, rfl⟩ := Prod.mk.inj (Except.ok.inj hseeds)
    exact ⟨_, rfl⟩
  · obtain ⟨rfl, rfl⟩ := Prod.mk.inj (Except.ok.inj hseeds)
    exact ⟨_, rfl⟩
  · cases hseeds

/-- The texts of the report of a pass can be encoded if the path of the output and the identities
can. -/
theorem encodes_passTexts (p : Paths) (seeds : List Text) :
    (∀ s ∈ (Report.mk .pass (protocolEntries.map (passReport H p seeds))).texts,
        encodes s = true) ↔
      encodes p.output = true ∧
        ∀ e ∈ protocolEntries, ∀ id ∈ identityOf H (childOf H p seeds e), encodes id = true := by
  have hentry : ∀ e ∈ protocolEntries, encodes e.label = true ∧ encodes e.targetFileName = true ∧
      encodes e.mutationScope = true := by decide
  have hroot (e : Entry) (he : e ∈ protocolEntries) :
      encodes (p.runRoot e) = encodes p.output := by
    have hruns : encodes (chars "/runs/") = true := by decide
    rw [Paths.runRoot, encodes_append, encodes_append, hruns, (hentry e he).1, Bool.and_true,
      Bool.and_true]
  have hpath (root : Text) : encodes (reportPath root) = encodes root := by
    have hfile : encodes (chars "/evidence/artifact_report.json") = true := by decide
    rw [reportPath, encodes_append, hfile, Bool.and_true]
  have htexts (e : Entry) (he : e ∈ protocolEntries) :
      (∀ s ∈ (passReport H p seeds e).texts, encodes s = true) ↔ encodes p.output = true ∧
        ∀ id ∈ identityOf H (childOf H p seeds e), encodes id = true := by
    simp only [EntryReport.texts, passReport, List.forall_mem_append, List.forall_mem_cons,
      (hentry e he).1, (hentry e he).2.1, (hentry e he).2.2, hroot e he, hpath, Option.mem_toList]
    simp
  simp only [Report.texts, Verdict.members, List.map_nil, List.nil_append, List.mem_flatMap,
    List.mem_map]
  constructor
  · intro h
    have hall (e : Entry) (he : e ∈ protocolEntries) :=
      (htexts e he).mp fun s hs => h s ⟨_, ⟨e, he, rfl⟩, hs⟩
    exact ⟨(hall _ List.mem_cons_self).1, fun e he => (hall e he).2⟩
  · rintro ⟨hout, hids⟩ s ⟨_, ⟨e, he, rfl⟩, hs⟩
    exact (htexts e he).mpr ⟨hout, hids e he⟩ s hs

theorem failClosed_error {started : List Started} (h : Stops H started) (x : Raised) :
    FailClosed H ⟨started, none, .error x⟩ where
  reported r hr := by cases hr
  passed r hr := by cases hr
  stopped := h

theorem failClosed_written {started : List Started} {content : Bytes} {r : Report}
    (hcontent : writeSummary H r = .ok content) (h : Stops H started)
    (hstatus : r.verdict.status ≠ chars "pass") :
    FailClosed H ⟨started, some content, .ok r⟩ where
  reported r' hr := by
    obtain rfl := Except.ok.inj hr
    obtain ⟨text, htext, hread⟩ := read_writeSummary H hcontent
    exact ⟨content, text, rfl, htext, hread⟩
  passed r' hr hpass := by
    obtain rfl := Except.ok.inj hr
    exact absurd hpass hstatus
  stopped := h

theorem failClosed_handle {started : List Started} (h : Stops H started) (x : Raised) :
    FailClosed H (handle H started x) := by
  rw [handle]
  split_ifs
  · rw [finish]
    split
    · rename_i content hcontent
      exact failClosed_written H hcontent h (by decide)
    · exact failClosed_error H h _
  · exact failClosed_error H h x

theorem stops_nil : Stops H [] := by
  intro pre s post h
  simp at h

theorem map_eq_map_some {α β : Type} {f : α → Option β} {l : List α} (h : ∀ a ∈ l, f a ≠ none) :
    l.map f = (l.filterMap f).map some := by
  induction l with
  | nil => rfl
  | cons a l ih =>
    obtain ⟨b, hb⟩ := Option.ne_none_iff_exists'.mp (h a List.mem_cons_self)
    rw [List.map_cons, ih fun a' ha' => h a' (List.mem_cons_of_mem a ha'),
      List.filterMap_cons_some hb, List.map_cons, hb]

/-- The end of a run whose children all succeed. -/
theorem failClosed_pass {p : Paths} {seeds : List Text}
    (hseeds : seedArguments H p.seedManifest p.seedSourceDir = .ok seeds)
    (hall : AllPass H p seeds protocolEntries []) :
    FailClosed H (finish H (protocolEntries.map fun e => ⟨e, commandOf H p seeds e⟩)
        ⟨.pass, protocolEntries.map (passReport H p seeds)⟩) ↔
      ¬ (encodes p.output = true ∧
        (∀ e ∈ protocolEntries, ∀ id ∈ identityOf H (childOf H p seeds e), encodes id = true) ∧
        H.fails .writeReport = false ∧
        ∃ e ∈ protocolEntries, identityOf H (childOf H p seeds e) = none) := by
  have hwritten := writeSummary_eq_ok H ⟨.pass, protocolEntries.map (passReport H p seeds)⟩
  rw [encodes_passTexts] at hwritten
  have hstops : Stops H (protocolEntries.map fun e => ⟨e, commandOf H p seeds e⟩) := by
    have hrun := (runEntries_cases H hseeds protocolEntries [] List.nodup_nil).resolve_right
      fun h => h.1 hall
    have hstops := stops_runEntries H hseeds protocolEntries [] []
    rwa [hrun.2] at hstops
  rw [finish]
  cases hcontent : writeSummary H ⟨.pass, protocolEntries.map (passReport H p seeds)⟩ with
  | error x =>
    refine iff_of_true (failClosed_error H hstops x) ?_
    rintro ⟨hout, hids, hwrite, -⟩
    obtain ⟨content, hok⟩ := hwritten.mpr ⟨⟨hout, hids⟩, hwrite⟩
    rw [hcontent] at hok
    cases hok
  | ok content =>
    obtain ⟨⟨hout, hids⟩, hwrite⟩ := hwritten.mp ⟨content, hcontent⟩
    have hidentified : (∃ ids : List Text, (protocolEntries.map fun e =>
        identityOf H (childOf H p seeds e)) = ids.map some ∧ ids.Nodup) ↔
        ¬ ∃ e ∈ protocolEntries, identityOf H (childOf H p seeds e) = none := by
      constructor
      · rintro ⟨ids, hids, -⟩ ⟨e, he, hnone⟩
        have hmem := List.mem_map_of_mem (f := fun e => identityOf H (childOf H p seeds e)) he
        rw [hids, hnone, List.mem_map] at hmem
        obtain ⟨id, -, hid⟩ := hmem
        cases hid
      · intro hnone
        exact ⟨_, map_eq_map_some fun e he hnone' => hnone ⟨e, he, hnone'⟩, hall.distinct⟩
    constructor
    · rintro h ⟨-, -, -, hnone⟩
      have hids := (h.passed _ rfl rfl).2.2
      rw [List.map_map] at hids
      exact hidentified.mp hids hnone
    · intro h
      have hids := hidentified.mpr fun hnone => h ⟨hout, hids, hwrite, hnone⟩
      refine ⟨?_, fun r hr _ => ⟨?_, ?_, ?_⟩, hstops⟩
      · intro r hr
        obtain rfl := Except.ok.inj hr
        obtain ⟨text, htext, hread⟩ := read_writeSummary H hcontent
        exact ⟨content, text, rfl, htext, hread⟩
      · rw [List.map_map]
        exact List.map_id _
      · intro s hs
        obtain ⟨e, he, rfl⟩ := List.mem_map.mp hs
        exact hall.passes e he
      · rw [List.map_map]
        exact hids

/-- A call is fail-closed, except where all children succeed, no identity is seen twice, and one of
the reports carries none. -/
theorem failClosed_iff (cfg : Config) :
    FailClosed H (runProtocol H cfg) ↔ ¬ ∃ p seeds, UnidentifiedPass H cfg p seeds := by
  unfold runProtocol
  cases hprep : prepare H cfg with
  | error x =>
    refine iff_of_true (failClosed_error H (stops_nil H) x) ?_
    rintro ⟨p, seeds, h⟩
    cases hprep.symm.trans h.prepared
  | ok p =>
    obtain ⟨seeds, hseeds⟩ := prepare_arguments H hprep
    have hsame {p' : Paths} {seeds' : List Text} (h : UnidentifiedPass H cfg p' seeds') :
        p' = p ∧ seeds' = seeds := by
      obtain rfl := Except.ok.inj (hprep.symm.trans h.prepared)
      exact ⟨rfl, Except.ok.inj (h.arguments.symm.trans hseeds)⟩
    dsimp only
    split_ifs with hlock hheld
    · refine iff_of_true (failClosed_error H (stops_nil H) _) ?_
      rintro ⟨p', seeds', h⟩
      exact Bool.false_ne_true (h.locked.1.symm.trans hlock)
    · refine iff_of_true (failClosed_handle H (stops_nil H) _) ?_
      rintro ⟨p', seeds', h⟩
      exact Bool.false_ne_true (h.locked.2.symm.trans hheld)
    · have hstops := stops_runEntries H hseeds protocolEntries [] []
      rcases runEntries_cases H hseeds protocolEntries [] List.nodup_nil with
        ⟨hall, hrun⟩ | ⟨hnot, hhalts⟩
      · rw [hrun]
        dsimp only
        rw [List.nil_append, failClosed_pass H hseeds hall, not_iff_not]
        constructor
        · rintro ⟨hout, hids, hwrite, hnone⟩
          exact ⟨p, seeds, hprep, hseeds, ⟨by simpa using hlock, by simpa using hheld⟩, hall, hout,
            hids, hwrite, hnone⟩
        · rintro ⟨p', seeds', h⟩
          obtain ⟨rfl, rfl⟩ := hsame h
          exact ⟨h.output, h.identities, h.written, h.unidentified⟩
      · have hfailing : ¬ ∃ p seeds, UnidentifiedPass H cfg p seeds := by
          rintro ⟨p', seeds', h⟩
          obtain ⟨rfl, rfl⟩ := hsame h
          exact hnot h.passes
        refine iff_of_true ?_ hfailing
        generalize runEntries H p protocolEntries [] [] = run at hstops hhalts
        obtain ⟨started, ending⟩ := run
        cases ending with
        | raised x => exact failClosed_handle H hstops x
        | returned r =>
          dsimp only
          split
          · rename_i content hcontent
            exact failClosed_written H hcontent hstops hhalts
          · exact failClosed_handle H hstops _
        | completed entries => exact hhalts.elim

/-- A report of success whose target binding has no identity. -/
def namelessReport (e : Entry) : List (Text × Value Special) :=
  [(chars "ok", .bool true),
    (chars "artifact_final_result", .str (chars "pass")),
    (chars "runner", .dict success),
    (chars "execution_ledger", .dict
      [(chars "required", .bool true), (chars "present", .bool true),
        (chars "reconciled", .bool true)]),
    (chars "mab_journal", .dict
      [(chars "required", .bool true), (chars "present", .bool true),
        (chars "reconciled", .bool true)]),
    (chars "readback", .dict
      [(chars "applicable", .bool true), (chars "attempted", .bool true),
        (chars "present", .bool true), (chars "reconciled", .bool true),
        (chars "artifact_valid", .bool true), (chars "verdict", .str (chars "pass"))]),
    (chars "target_binding", .dict [(chars "target_file_name", .str e.targetFileName)])]

/-- The task of an entry. -/
def taskOf (e : Entry) : List (Text × Value Special) :=
  [(chars "mutation_scope", .list [.str e.mutationScope])]

/-- A child that leaves that report and its task. -/
def namelessChild (e : Entry) : Child :=
  ⟨.ok 0, fileOf Special.floats (namelessReport e), fileOf Special.floats (taskOf e)⟩

/-- A host on which all three children leave such reports. -/
def namelessHost : Host Special where
  interp := plainInterp
  floatEq := { eq := fun _ _ => false, eqInt := fun _ _ => false }
  tooDeep := fun _ => false
  resolved := id
  isRelativeTo := fun _ _ => false
  isFile := fun _ => true
  isDir := fun _ => true
  isSymlink := fun _ => false
  pathExists := fun _ => false
  anyEntry := fun _ => false
  fails := fun _ => false
  lockHeld := false
  python := chars "/usr/bin/python3"
  invoke := fun command =>
    match protocolEntries.find? fun e => e.mutationScope ∈ command with
    | some e => namelessChild e
    | none => ⟨.error .other, none, none⟩

/-- Arguments without seeds. -/
def config : Config := ⟨chars "/r", chars "/o", chars "/r/run.py", none, none⟩

def paths : Paths := ⟨chars "/o", chars "/r/run.py", none, none⟩

theorem childOf_nameless :
    ∀ e ∈ protocolEntries, childOf namelessHost paths [] e = namelessChild e := by
  simp only [protocolEntries, List.forall_mem_cons]
  exact ⟨rfl, rfl, rfl, fun _ h => absurd h List.not_mem_nil⟩

theorem readJson_nameless (e : Entry) (he : e ∈ protocolEntries) :
    readJson namelessHost (namelessChild e).report = .ok (some (namelessReport e)) ∧
      readJson namelessHost (namelessChild e).task = .ok (some (taskOf e)) := by
  constructor
  · refine readJson_fileOf namelessHost ?_ ?_ ?_ rfl rfl <;> (revert e; decide +kernel)
  · refine readJson_fileOf namelessHost ?_ ?_ ?_ rfl rfl <;> (revert e; decide +kernel)

theorem identityOf_nameless (e : Entry) (he : e ∈ protocolEntries) :
    identityOf namelessHost (childOf namelessHost paths [] e) = none := by
  rw [childOf_nameless e he, identityOf, (readJson_nameless e he).1]
  rfl

theorem allPass_nameless : AllPass namelessHost paths [] protocolEntries [] where
  made _ _ := rfl
  passes e he := by
    have hsuccess : ∀ e ∈ protocolEntries,
        reportIsSuccess namelessHost e.targetFileName (namelessReport e) = true ∧
          scopeIs namelessHost e.mutationScope (taskOf e) = true := by decide +kernel
    obtain ⟨hreport, htask⟩ := readJson_nameless e he
    rw [childOf_nameless e he]
    exact ⟨rfl, (childReportIsSuccess_iff _ _ _).mpr
      ⟨_, _, hreport, (hsuccess e he).1, htask, (hsuccess e he).2⟩⟩
  distinct := by
    rw [List.filterMap_eq_nil_iff.mpr identityOf_nameless]
    exact List.nodup_nil

/-- Three reports without an identity pass. -/
theorem nameless_reports_pass : ¬ FailClosed namelessHost (runProtocol namelessHost config) := by
  have hseeds : seedArguments namelessHost paths.seedManifest paths.seedSourceDir = .ok [] := rfl
  have hrun := (runEntries_cases namelessHost hseeds protocolEntries []
    List.nodup_nil).resolve_right fun h => h.1 allPass_nameless
  have hprepare : prepare namelessHost config = .ok paths := rfl
  have hprotocol : runProtocol namelessHost config =
      finish namelessHost (protocolEntries.map fun e => ⟨e, commandOf namelessHost paths [] e⟩)
        ⟨.pass, protocolEntries.map (passReport namelessHost paths [])⟩ := by
    rw [runProtocol, hprepare]
    dsimp only
    rw [if_neg (by decide), if_neg (by decide), hrun.2]
    rfl
  rw [hprotocol, failClosed_pass namelessHost hseeds allPass_nameless, not_not]
  refine ⟨by decide, fun e he id hid => ?_, rfl, protocolEntries.head (by decide),
    List.head_mem _, identityOf_nameless _ (List.head_mem _)⟩
  rw [identityOf_nameless e he] at hid
  cases hid

end AflNv.BoundedProtocol
