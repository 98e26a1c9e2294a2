import AflNv.Lib.JsonIndent
import AflNv.Lib.RoundBits
import AflNv.Lib.Unicode
import AflNv.PythonJson
import AflNv.Python
import Mathlib.Data.Rat.Floor

/-!
# Submit requests and their tasks

`validate_submit_request` and `build_fuzzing_command` (`integration/fuzz_api.py`) turn the JSON body
of a submit request into a `task.json` and a command line, and `nv_load_task_json` (afl-fuzz.c)
reads the budget of test cases from that file.  A float of the body is a rational number, an
infinity or NaN.

* `validate_eq_ok` says which bodies are accepted (`Accepted`) and `polite_validate_iff` which are
  refused with another exception than a `ValueError`.
* `build_eq_ok` is the command and the document of an accepted request.
* `submit_runnable_iff` says which bodies are refused in good order or become tasks that can run.
-/

namespace AflNv.SubmitRequest

open AflNv.Lib AflNv.Lib.JsonCodec AflNv.PythonJson

/-- A JSON value of a request. -/
abbrev Json := Value (PyFloat ℚ)

/-- What the two functions raise; a `ValueError` with its message. -/
inductive SubmitError where
  | valueError (message : Text)
  | runtimeError (message : Text)
  | attributeError
  | overflowError
  | recursionError
  deriving DecidableEq

def SubmitError.isValueError : SubmitError → Bool
  | .valueError _ => true
  | _ => false

/-- What the functions take from the host: `str(v)` (`none` is a `RecursionError`), the text of a
float, eight digits of a new `uuid4`, the file tree and the names of the tools. -/
structure Host where
  pyStr : Json → Option Text
  floatRepr : PyFloat ℚ → Text
  uuidDigits : Text
  repoRoot : Text
  /-- The resolved path of a location. -/
  resolve : Text → Text
  insideRepo : Text → Bool
  pathExists : Text → Bool
  python : Text

variable (H : Host)

/-- The request that `validate_submit_request` returns. -/
structure Request where
  targetType : Text
  targetEndpoint : Text
  seedSource : Text
  seedLocation : Text
  mutationScope : List Json
  maxTestCases : Json
  timeBudget : Json
  taskName : Text

/-! ## The tables -/

def allowedTargetTypes : List Text :=
  [chars "http_api", chars "file_upload", chars "protocol_message"]

def allowedSeedSources : List Text :=
  [chars "captured_traffic", chars "seed_file", chars "manual"]

def allowedMutationScopes : List Text := [chars "field_value", chars "boundary", chars "structure"]

/-- `TARGET_TYPE_CAPABILITY` -/
def targetTypeCapability : List (Text × Text) :=
  [(chars "http_api", chars "OPERATIONAL"), (chars "file_upload", chars "OPERATIONAL"),
    (chars "protocol_message", chars "NOT_IMPLEMENTED")]

/-- `SEED_SOURCE_CAPABILITY` -/
def seedSourceCapability : List (Text × Text) :=
  [(chars "captured_traffic", chars "NOT_IMPLEMENTED"), (chars "seed_file", chars "OPERATIONAL"),
    (chars "manual", chars "OPERATIONAL")]

/-- `TARGET_TYPE_TO_SCENARIO` -/
def targetTypeToScenario : List (Text × Text) :=
  [(chars "http_api", chars "platform_api"), (chars "file_upload", chars "multipart_upload")]

/-- A list of texts as it is formatted into a message. -/
def listRepr (l : List Text) : Text :=
  chars "[" ++ (chars ", ").intercalate (l.map fun s => chars "'" ++ s ++ chars "'") ++ chars "]"

/-! ## Validation -/

/-- `req.get(key)` -/
def get (ms : List (Text × Json)) (key : String) : Json := (ms.lookup (chars key)).getD .null

/-- `if not b: raise e` -/
def require (b : Bool) (e : SubmitError) : Except SubmitError Unit := if b then .ok () else .error e

/-- `isinstance(v, str) and v in allowed` -/
def oneOf (allowed : List Text) (message : Text) : Json → Except SubmitError Text
  | .str s => if s ∈ allowed then .ok s else .error (.valueError message)
  | _ => .error (.valueError message)

/-- `isinstance(v, str) and v.strip()` -/
def nonBlank (message : Text) : Json → Except SubmitError Text
  | .str s => if Unicode.strip s ≠ [] then .ok s else .error (.valueError message)
  | _ => .error (.valueError message)

/-- `scope in ALLOWED_MUTATION_SCOPES` -/
def isScope : Json → Bool
  | .str s => s ∈ allowedMutationScopes
  | _ => false

/-- The checks of `mutation_scope`. -/
def checkScopes : Json → Except SubmitError (List Json)
  | .list scopes =>
    if scopes = [] then .error (.valueError (chars "mutation_scope must not be empty"))
    else
      match scopes.find? fun scope => !isScope scope with
      | none => .ok scopes
      | some scope =>
        match H.pyStr scope with
        | some s => .error (.valueError (chars "invalid mutation_scope: " ++ s ++
            chars ", allowed: " ++ listRepr allowedMutationScopes))
        | none => .error .recursionError
  | _ => .error (.valueError (chars "mutation_scope must be a list"))

/-- `isinstance(v, int) and v > 0`: a `bool` is an `int`. -/
def isPositiveInt : Json → Bool
  | .int i => 0 < i
  | .bool b => b
  | _ => false

/-- `isinstance(v, (int, float)) and not v <= 0`: a NaN is not `<= 0`. -/
def isPositiveNumber : Json → Bool
  | .float (.finite q) => 0 < q
  | .float (.inf neg) => !neg
  | .float .nan => true
  | v => isPositiveInt v

/-- The characters of a task name. -/
def isNameChar (c : ℕ) : Bool :=
  (97 ≤ c && c ≤ 122) || (65 ≤ c && c ≤ 90) || (48 ≤ c && c ≤ 57) || c = 95 || c = 45

/-- `TASK_NAME_PATTERN.match(name)`; its `$` also matches in front of a last line end. -/
def matchesName (name : Text) : Bool :=
  let body := if name.getLast? = some 10 then name.dropLast else name
  1 ≤ body.length && body.length ≤ 64 && body.all isNameChar

/-- `validate_task_name` -/
def validateTaskName : Json → Except SubmitError Text
  | .null => .ok (chars "task_" ++ H.uuidDigits)
  | .str [] => .ok (chars "task_" ++ H.uuidDigits)
  | .str name =>
    if matchesName name then .ok name
    else .error (.valueError
      (chars "task_name must be 1-64 alphanumeric/underscore/hyphen chars"))
  | _ => .error (.valueError (chars "task_name must be a string"))

/-- A capability check: `TABLE[name] != "OPERATIONAL"` raises. -/
def checkCapability (table : List (Text × Text)) (field name : Text) : Except SubmitError Unit :=
  let status := (table.lookup name).getD []
  require (status = chars "OPERATIONAL") (.valueError (field ++ chars " '" ++ name ++
    chars "' is not yet implemented (status: " ++ status ++ chars ")"))

/-- `validate_submit_request` -/
def validateSubmitRequest : Json → Except SubmitError Request
  | .dict ms => do
    let targetType ← oneOf allowedTargetTypes
      (chars "target_type must be one of " ++ listRepr allowedTargetTypes) (get ms "target_type")
    let targetEndpoint ← nonBlank
      (chars "target_endpoint is required and must be non-empty string") (get ms "target_endpoint")
    let seedSource ← oneOf allowedSeedSources
      (chars "seed_source must be one of " ++ listRepr allowedSeedSources) (get ms "seed_source")
    let seedLocation ← nonBlank
      (chars "seed_location is required and must be non-empty string") (get ms "seed_location")
    let mutationScope ← checkScopes H (get ms "mutation_scope")
    require (isPositiveInt (get ms "max_test_cases"))
      (.valueError (chars "max_test_cases must be a positive integer"))
    require (isPositiveNumber (get ms "time_budget"))
      (.valueError (chars "time_budget must be a positive number"))
    let taskName ← validateTaskName H (get ms "task_name")
    checkCapability targetTypeCapability (chars "target_type") targetType
    checkCapability seedSourceCapability (chars "seed_source") seedSource
    return {
      targetType, seedSource, mutationScope, taskName
      targetEndpoint := Unicode.strip targetEndpoint
      seedLocation := Unicode.strip seedLocation
      maxTestCases := get ms "max_test_cases"
      timeBudget := get ms "time_budget" }
  | _ => .error .attributeError

/-! ## The command -/

/-- `safe_path_check` -/
def safePathCheck (location : Text) : Except SubmitError Text :=
  if 0 ∈ location then .error (.valueError (chars "path contains null byte"))
  else if chars ".." ∈ location.splitOn 47 then
    .error (.valueError (chars "path traversal not allowed"))
  else if H.insideRepo (H.resolve location) then .ok (H.resolve location)
  else .error (.valueError (chars "path must stay inside repository"))

/-- `int(v)` of a number. -/
def intOf : Json → Except SubmitError ℤ
  | .int i => .ok i
  | .bool b => .ok (if b then 1 else 0)
  | .float (.finite q) => .ok (CDouble.trunc q)
  | .float (.inf _) => .error .overflowError
  | _ => .error (.valueError (chars "cannot convert float NaN to integer"))

/-- A dict display: a key that comes again keeps its place and gets the later value. -/
def dictDisplay (items : List (Text × Json)) : List (Text × Json) :=
  items.foldl (fun ms item => setItem ms item.1 item.2) []

/-- The input format that is determined from the scenario. -/
def inputFormat (scenario : Text) : Text :=
  if scenario = chars "multipart_upload" then chars "full_http_multipart" else chars "json_body"

/-- `task_config` -/
@[irreducible] def taskConfig (r : Request) (scenario seedPath : Text) (timeBudget : ℤ) :
    List (Text × Json) :=
  dictDisplay
    [(chars "target_type", .str r.targetType),
      (chars "target_endpoint", .str r.targetEndpoint),
      (chars "scenario", .str scenario),
      (chars "input_format", .str (inputFormat scenario)),
      (chars "seed_source", .str r.seedSource),
      (chars "seed_location", .str seedPath),
      (chars "mutation_scope", .list r.mutationScope),
      (chars "max_test_cases", r.maxTestCases),
      (chars "time_budget", .int timeBudget),
      (chars "enable_validity", .int 0),
      (chars "input_format", .str (chars "json_body"))]

/-- What a call leaves: the document in `task.json` and the command. -/
structure Built where
  taskConfig : List (Text × Json)
  command : List Text

/-- The command line. -/
@[irreducible] def commandLine (outDir taskJson seedPath : Text) (timeoutSec : ℤ) : List Text :=
  [chars "timeout", JsonCodec.showInt timeoutSec ++ chars "s", chars "env", chars "AFL_NO_UI=1",
    chars "AFL_I_DONT_CARE_ABOUT_MISSING_CRASHES=1", chars "AFL_FAST_CAL=1",
    chars "AFL_PYTHON_MODULE=nv_json_mutator", chars "PYTHONPATH=" ++ H.repoRoot,
    chars "NV_BODY_ONLY_MODE=1", chars "NV_TASK_PATH=" ++ taskJson,
    chars "NV_STATUS_PATH=" ++ outDir ++ chars "/nv_http_status.json",
    chars "NV_STATUS_LEDGER_PATH=" ++ outDir ++ chars "/nv_http_status.jsonl",
    chars "NV_STATE_TRACE_PATH=" ++ outDir ++ chars "/nv_state_trace.jsonl",
    chars "NV_MAB_JOURNAL_PATH=" ++ outDir ++ chars "/mab_journal.jsonl", chars "NV_BODY_RULES=",
    H.repoRoot ++ chars "/afl-fuzz", chars "-n", chars "-i", seedPath, chars "-o", outDir,
    chars "--", H.python, H.repoRoot ++ chars "/nv_http_harness.py"]

/-- `build_fuzzing_command`; the writing of `task.json` does not fail. -/
def buildFuzzingCommand (r : Request) (outDir : Text) : Except SubmitError Built := do
  let seedPath ← safePathCheck H r.seedLocation
  require (H.pathExists seedPath)
    (.valueError (chars "seed_location does not exist: " ++ r.seedLocation))
  match targetTypeToScenario.lookup r.targetType with
  | none => .error (.valueError (chars "target_type '" ++ r.targetType ++
      chars "' has no scenario mapping"))
  | some scenario => do
    let timeBudget ← intOf r.timeBudget
    let config := taskConfig r scenario seedPath timeBudget
    require (H.pathExists (H.repoRoot ++ chars "/afl-fuzz"))
      (.runtimeError (chars "afl-fuzz not found; run 'make' first"))
    require (H.pathExists (H.repoRoot ++ chars "/nv_http_harness.py"))
      (.runtimeError (chars "nv_http_harness.py not found"))
    let timeoutSec ← intOf r.timeBudget
    return ⟨config, commandLine H outDir (outDir ++ chars "/task.json") seedPath timeoutSec⟩

/-- The bytes of `task.json`. -/
def taskBytes (b : Built) : Bytes :=
  Utf8.encode (dumpsIndent H.floatRepr { ensureAscii := true, spaced := true } 2 0
    (.dict b.taskConfig))

/-! ## The loader -/

/-- `max_test_cases` of a task that `nv_load_task_json` loads from a file with this content. -/
def loadMaxTestCases (lib : CLib) (content : Bytes) : UInt64 :=
  match lib.cJSONParse (cstr content) with
  | none => 0
  | some root => lib.u64OrZero (root.getObjectItemCaseSensitive (ascii "max_test_cases"))

/-- The text that cJSON makes of the escapes of a `str`: two surrogates that belong together are one
character, and another surrogate is an error. -/
def joinSurrogates : Text → Option Text
  | [] => some []
  | [c] => if isHigh c || isLow c then none else some [c]
  | c :: d :: rest =>
    if isHigh c then
      if isLow d then (joinSurrogates rest).map (join c d :: ·) else none
    else if isLow c then none
    else (joinSurrogates (d :: rest)).map (c :: ·)

/-- From here on a double is an infinity. -/
def doubleLimit : ℕ := 2 ^ 1024

theorem le_doubleLimit : 2 ^ 64 ≤ doubleLimit := by
  rw [doubleLimit, Nat.pow_le_pow_iff_right (by omega)]
  omega

/-- `strtod` on the digits of an integer. -/
def strtodInt (i : ℤ) : CDouble :=
  let n := RoundBits.roundBits 53 i.natAbs
  if doubleLimit ≤ n then .inf (decide (i < 0)) else .finite (i.sign * n)

mutual

/-- What cJSON reads from the text that `json.dumps` writes for a value. -/
def cjsonOf : Json → Option CJson
  | .null => some .null
  | .bool b => some (.bool b)
  | .int i => some (.number (strtodInt i))
  | .float (.finite q) => some (.number (.finite q))
  | .float _ => none
  | .str s => (joinSurrogates s).map fun t => .string (Utf8.encode t)
  | .list vs => (cjsonItems vs).map .array
  | .dict ms => (cjsonMembers ms).map .object

def cjsonItems : List Json → Option (List CJson)
  | [] => some []
  | v :: vs => (cjsonOf v).bind fun c => (cjsonItems vs).map (c :: ·)

def cjsonMembers : List (Text × Json) → Option (List (Bytes × CJson))
  | [] => some []
  | (key, v) :: ms =>
    (joinSurrogates key).bind fun t => (cjsonOf v).bind fun c =>
      (cjsonMembers ms).map ((Utf8.encode t, c) :: ·)

end

/-! ## Which bodies are accepted -/

theorem require_eq_ok {b : Bool} {e : SubmitError} {u : Unit} :
    require b e = .ok u ↔ b = true := by
  cases b <;> simp [require]

theorem oneOf_eq_ok {allowed : List Text} {message s : Text} {v : Json} :
    oneOf allowed message v = .ok s ↔ v = .str s ∧ s ∈ allowed := by
  cases v with
  | str t =>
    rw [oneOf]
    split_ifs with h
    · simp only [Except.ok.injEq, Value.str.injEq]
      exact ⟨fun he => ⟨he, he ▸ h⟩, And.left⟩
    · simp only [Value.str.injEq, false_iff, not_and]
      rintro rfl
      exact h
  | _ => simp [oneOf]

theorem nonBlank_eq_ok {message s : Text} {v : Json} :
    nonBlank message v = .ok s ↔ v = .str s ∧ Unicode.strip s ≠ [] := by
  cases v with
  | str t =>
    rw [nonBlank]
    split_ifs with h
    · simp only [Except.ok.injEq, Value.str.injEq]
      exact ⟨fun he => ⟨he, he ▸ h⟩, And.left⟩
    · simp only [Value.str.injEq, false_iff, not_and]
      rintro rfl
      exact h
  | _ => simp [nonBlank]

theorem checkScopes_eq_ok {v : Json} {scopes : List Json} :
    checkScopes H v = .ok scopes ↔
      v = .list scopes ∧ scopes ≠ [] ∧ ∀ scope ∈ scopes, isScope scope = true := by
  cases v with
  | list l =>
    rw [checkScopes]
    split_ifs with hnil
    · subst hnil
      simp only [Value.list.injEq, false_iff, not_and]
      rintro rfl hne
      exact absurd rfl hne
    · cases hfind : l.find? fun scope => !isScope scope with
      | none =>
        rw [List.find?_eq_none] at hfind
        simp only [Bool.not_eq_true', Bool.not_eq_false] at hfind
        simp only [Except.ok.injEq, Value.list.injEq]
        constructor
        · rintro rfl
          exact ⟨rfl, hnil, hfind⟩
        · exact And.left
      | some scope =>
        have hbad := List.find?_some hfind
        have hmem := List.mem_of_find?_eq_some hfind
        refine iff_of_false ?_ ?_
        · dsimp only
          split <;> simp
        · rintro ⟨heq, -, hgood⟩
          obtain rfl := Value.list.inj heq
          simp [hgood scope hmem] at hbad
  | _ => simp [checkScopes]

/-- The fields of an accepted body, and the request that is made of them. -/
structure Accepted (ms : List (Text × Json)) (r : Request) : Prop where
  targetType : get ms "target_type" = .str r.targetType ∧ r.targetType ∈ allowedTargetTypes
  targetEndpoint : ∃ s, get ms "target_endpoint" = .str s ∧ Unicode.strip s ≠ [] ∧
    r.targetEndpoint = Unicode.strip s
  seedSource : get ms "seed_source" = .str r.seedSource ∧ r.seedSource ∈ allowedSeedSources
  seedLocation : ∃ s, get ms "seed_location" = .str s ∧ Unicode.strip s ≠ [] ∧
    r.seedLocation = Unicode.strip s
  mutationScope : get ms "mutation_scope" = .list r.mutationScope ∧ r.mutationScope ≠ [] ∧
    ∀ scope ∈ r.mutationScope, isScope scope = true
  maxTestCases : get ms "max_test_cases" = r.maxTestCases ∧ isPositiveInt r.maxTestCases = true
  timeBudget : get ms "time_budget" = r.timeBudget ∧ isPositiveNumber r.timeBudget = true
  taskName : validateTaskName H (get ms "task_name") = .ok r.taskName
  targetOperational : targetTypeCapability.lookup r.targetType = some (chars "OPERATIONAL")
  sourceOperational : seedSourceCapability.lookup r.seedSource = some (chars "OPERATIONAL")

theorem checkCapability_eq_ok {table : List (Text × Text)} {field name : Text} {u : Unit} :
    checkCapability table field name = .ok u ↔
      table.lookup name = some (chars "OPERATIONAL") := by
  rw [checkCapability, require_eq_ok, decide_eq_true_iff]
  cases table.lookup name with
  | none => simp [show chars "OPERATIONAL" ≠ [] by decide]
  | some status => simp

theorem validate_eq_ok {ms : List (Text × Json)} {r : Request} :
    validateSubmitRequest H (.dict ms) = .ok r ↔ Accepted H ms r := by
  simp only [validateSubmitRequest, bind_eq_ok, oneOf_eq_ok, nonBlank_eq_ok, checkScopes_eq_ok,
    require_eq_ok, checkCapability_eq_ok]
  constructor
  · rintro ⟨tt, htt, ep, hep, ss, hss, sl, hsl, scope, hscope, -, hcount, -, htime, name, hname,
      -, htop, -, hsop, hr⟩
    obtain rfl := Except.ok.inj hr
    exact ⟨htt, ⟨ep, hep.1, hep.2, rfl⟩, hss, ⟨sl, hsl.1, hsl.2, rfl⟩, hscope, ⟨rfl, hcount⟩,
      ⟨rfl, htime⟩, hname, htop, hsop⟩
  · rintro ⟨htt, ⟨ep, hep, hepne, hepr⟩, hss, ⟨sl, hsl, hslne, hslr⟩, hscope, ⟨hcount, hcountpos⟩,
      ⟨htime, htimepos⟩, hname, htop, hsop⟩
    refine ⟨r.targetType, htt, ep, ⟨hep, hepne⟩, r.seedSource, hss, sl, ⟨hsl, hslne⟩,
      r.mutationScope, hscope, (), hcount ▸ hcountpos, (), htime ▸ htimepos, r.taskName, hname,
      (), htop, (), hsop, ?_⟩
    rw [hcount, htime, ← hepr, ← hslr]
    rfl

/-! ## What else is raised -/

/-- The call raises nothing but a `ValueError`. -/
def Polite {α : Type} (x : Except SubmitError α) : Prop := ∀ e, x = .error e → e.isValueError = true

theorem polite_ok {α : Type} (a : α) : Polite (.ok a : Except SubmitError α) := by
  intro e h
  cases h

theorem polite_valueError {α : Type} (message : Text) :
    Polite (.error (.valueError message) : Except SubmitError α) := by
  intro e h
  obtain rfl := Except.error.inj h
  rfl

theorem Polite.bind {α β : Type} {x : Except SubmitError α} {f : α → Except SubmitError β}
    (hx : Polite x) (hf : ∀ a, x = .ok a → Polite (f a)) : Polite (x >>= f) := by
  cases x with
  | error e =>
    intro e' h
    obtain rfl : e = e' := Except.error.inj h
    exact hx e rfl
  | ok a => exact hf a rfl

theorem polite_require (b : Bool) (message : Text) : Polite (require b (.valueError message)) := by
  cases b with
  | true => exact polite_ok ()
  | false => exact polite_valueError message

theorem polite_oneOf (allowed : List Text) (message : Text) (v : Json) :
    Polite (oneOf allowed message v) := by
  unfold oneOf
  split
  · split_ifs
    · exact polite_ok _
    · exact polite_valueError message
  · exact polite_valueError message

theorem polite_nonBlank (message : Text) (v : Json) : Polite (nonBlank message v) := by
  unfold nonBlank
  split
  · split_ifs
    · exact polite_ok _
    · exact polite_valueError message
  · exact polite_valueError message

theorem polite_validateTaskName (v : Json) : Polite (validateTaskName H v) := by
  unfold validateTaskName
  split
  · exact polite_ok _
  · exact polite_ok _
  · split_ifs
    · exact polite_ok _
    · exact polite_valueError _
  · exact polite_valueError _

/-- The scopes are refused by a message that cannot be written. -/
def UnprintableScope (v : Json) : Prop :=
  ∃ scopes scope, v = .list scopes ∧ scopes.find? (fun scope => !isScope scope) = some scope ∧
    H.pyStr scope = none

theorem checkScopes_unprintable {v : Json} (h : UnprintableScope H v) :
    checkScopes H v = .error .recursionError := by
  obtain ⟨scopes, scope, rfl, hfind, hstr⟩ := h
  have hne : scopes ≠ [] := by
    rintro rfl
    simp at hfind
  rw [checkScopes, if_neg hne, hfind]
  dsimp only
  rw [hstr]

theorem polite_checkScopes {v : Json} (h : ¬ UnprintableScope H v) : Polite (checkScopes H v) := by
  unfold checkScopes
  split
  · rename_i scopes
    split_ifs
    · exact polite_valueError _
    · split
      · exact polite_ok _
      · rename_i scope hfind
        split
        · exact polite_valueError _
        · rename_i hstr
          exact absurd ⟨scopes, scope, rfl, hfind, hstr⟩ h
  · exact polite_valueError _

/-- The fields in front of the scopes are in order, and the scopes are refused by a message that
cannot be written. -/
structure Unprintable (ms : List (Text × Json)) : Prop where
  targetType : ∃ s, get ms "target_type" = .str s ∧ s ∈ allowedTargetTypes
  targetEndpoint : ∃ s, get ms "target_endpoint" = .str s ∧ Unicode.strip s ≠ []
  seedSource : ∃ s, get ms "seed_source" = .str s ∧ s ∈ allowedSeedSources
  seedLocation : ∃ s, get ms "seed_location" = .str s ∧ Unicode.strip s ≠ []
  scope : UnprintableScope H (get ms "mutation_scope")

theorem polite_validate_iff (ms : List (Text × Json)) :
    Polite (validateSubmitRequest H (.dict ms)) ↔ ¬ Unprintable H ms := by
  constructor
  · rintro h ⟨⟨tt, htt⟩, ⟨ep, hep⟩, ⟨ss, hss⟩, ⟨sl, hsl⟩, hscope⟩
    have herror : validateSubmitRequest H (.dict ms) = .error .recursionError := by
      rw [validateSubmitRequest, oneOf_eq_ok.mpr htt]
      show (nonBlank _ _ >>= _) = _
      rw [nonBlank_eq_ok.mpr hep]
      show (oneOf _ _ _ >>= _) = _
      rw [oneOf_eq_ok.mpr hss]
      show (nonBlank _ _ >>= _) = _
      rw [nonBlank_eq_ok.mpr hsl]
      show (checkScopes _ _ >>= _) = _
      rw [checkScopes_unprintable H hscope]
      rfl
    exact Bool.false_ne_true (h _ herror)
  · intro h
    rw [validateSubmitRequest]
    refine (polite_oneOf _ _ _).bind fun tt htt => (polite_nonBlank _ _).bind fun ep hep =>
      (polite_oneOf _ _ _).bind fun ss hss => (polite_nonBlank _ _).bind fun sl hsl => ?_
    have hscope : ¬ UnprintableScope H (get ms "mutation_scope") := fun hscope =>
      h ⟨⟨tt, oneOf_eq_ok.mp htt⟩, ⟨ep, nonBlank_eq_ok.mp hep⟩, ⟨ss, oneOf_eq_ok.mp hss⟩,
        ⟨sl, nonBlank_eq_ok.mp hsl⟩, hscope⟩
    refine (polite_checkScopes H hscope).bind fun _ _ => (polite_require _ _).bind fun _ _ =>
      (polite_require _ _).bind fun _ _ => (polite_validateTaskName H _).bind fun _ _ =>
      (polite_require _ _).bind fun _ _ => (polite_require _ _).bind fun _ _ => polite_ok _

/-! ## The command of an accepted request -/

/-- The seed location lies in the repository and exists. -/
def SeedReady (r : Request) : Prop :=
  ∃ path, safePathCheck H r.seedLocation = .ok path ∧ H.pathExists path = true

/-- `afl-fuzz` and the harness are there. -/
def ToolsReady : Prop :=
  H.pathExists (H.repoRoot ++ chars "/afl-fuzz") = true ∧
    H.pathExists (H.repoRoot ++ chars "/nv_http_harness.py") = true

/-- The scenario of a target type that is operational. -/
def scenarioOf (targetType : Text) : Text := (targetTypeToScenario.lookup targetType).getD []

theorem safePathCheck_eq_ok {location path : Text} (h : safePathCheck H location = .ok path) :
    path = H.resolve location := by
  unfold safePathCheck at h
  split_ifs at h
  exact (Except.ok.inj h).symm

theorem operational_cases {ms : List (Text × Json)} {r : Request} (h : Accepted H ms r) :
    r.targetType = chars "http_api" ∨ r.targetType = chars "file_upload" := by
  have hmem := h.targetType.2
  have hop := h.targetOperational
  simp only [allowedTargetTypes, List.mem_cons, List.not_mem_nil, or_false] at hmem
  rcases hmem with htype | htype | htype
  · exact .inl htype
  · exact .inr htype
  · rw [htype] at hop
    exact absurd hop (by decide)

theorem setItem_middle {k : Text} {pre post : List (Text × Json)} (hpre : k ∉ pre.map Prod.fst)
    (hpost : k ∉ post.map Prod.fst) (old v : Json) :
    setItem (pre ++ (k, old) :: post) k v = pre ++ (k, v) :: post := by
  have hkeep {l : List (Text × Json)} (hl : k ∉ l.map Prod.fst) :
      l.map (fun m => if m.1 = k then (k, v) else m) = l := by
    refine (List.map_congr_left fun m hm => if_neg fun he => hl ?_).trans (List.map_id l)
    exact he ▸ List.mem_map_of_mem hm
  rw [setItem, if_pos (by simp), List.map_append, List.map_cons, if_pos rfl, hkeep hpre,
    hkeep hpost]

theorem dictDisplay_concat (items : List (Text × Json)) (item : Text × Json) :
    dictDisplay (items ++ [item]) = setItem (dictDisplay items) item.1 item.2 := by
  rw [dictDisplay, List.foldl_append]
  rfl

theorem dictDisplay_eq {items : List (Text × Json)} (h : (items.map Prod.fst).Nodup) :
    dictDisplay items = items := by
  induction items using List.reverseRecOn with
  | nil => rfl
  | append_singleton items item ih =>
    rw [List.map_append, List.nodup_append] at h
    have hnew : item.1 ∉ items.map Prod.fst := fun hmem =>
      h.2.2 _ hmem _ (List.mem_singleton.mpr rfl) rfl
    have hany : items.any (fun m => decide (m.1 = item.1)) = false := by
      simp only [List.any_eq_false, decide_eq_true_iff]
      exact fun m hm he => hnew (he ▸ List.mem_map_of_mem hm)
    rw [dictDisplay_concat, ih h.1, setItem, hany, if_neg Bool.false_ne_true]

/-- A display that ends with a further item. -/
theorem dictDisplay_repeat (items : List (Text × Json)) (item : Text × Json)
    (h : (items.map Prod.fst).Nodup) :
    dictDisplay (items ++ [item]) = setItem items item.1 item.2 := by
  rw [dictDisplay_concat, dictDisplay_eq h]

/-- The keys of the document, without the repetition. -/
def configKeys : List Text :=
  [chars "target_type", chars "target_endpoint", chars "scenario", chars "input_format",
    chars "seed_source", chars "seed_location", chars "mutation_scope", chars "max_test_cases",
    chars "time_budget", chars "enable_validity"]

theorem nodup_configKeys : configKeys.Nodup := by decide

/-- The document has one entry for the repeated key, in its first place. -/
theorem taskConfig_eq (r : Request) (scenario seedPath : Text) (timeBudget : ℤ) :
    taskConfig r scenario seedPath timeBudget =
      [(chars "target_type", .str r.targetType),
        (chars "target_endpoint", .str r.targetEndpoint),
        (chars "scenario", .str scenario)] ++
      (chars "input_format", .str (chars "json_body")) ::
      [(chars "seed_source", .str r.seedSource),
        (chars "seed_location", .str seedPath),
        (chars "mutation_scope", .list r.mutationScope),
        (chars "max_test_cases", r.maxTestCases),
        (chars "time_budget", .int timeBudget),
        (chars "enable_validity", .int 0)] := by
  have hpre : chars "input_format" ∉
      [chars "target_type", chars "target_endpoint", chars "scenario"] := by decide
  have hpost : chars "input_format" ∉
      [chars "seed_source", chars "seed_location", chars "mutation_scope", chars "max_test_cases",
        chars "time_budget", chars "enable_validity"] := by decide
  have h := dictDisplay_repeat
    [(chars "target_type", .str r.targetType),
      (chars "target_endpoint", .str r.targetEndpoint),
      (chars "scenario", .str scenario),
      (chars "input_format", .str (inputFormat scenario)),
      (chars "seed_source", .str r.seedSource),
      (chars "seed_location", .str seedPath),
      (chars "mutation_scope", .list r.mutationScope),
      (chars "max_test_cases", r.maxTestCases),
      (chars "time_budget", .int timeBudget),
      (chars "enable_validity", .int 0)]
    (chars "input_format", .str (chars "json_body")) nodup_configKeys
  rw [← setItem_middle hpre hpost (.str (inputFormat scenario)) (.str (chars "json_body")),
    taskConfig]
  simpa only [List.cons_append, List.nil_append] using h

theorem build_eq_ok {r : Request} {outDir : Text} {b : Built}
    (hscenario : targetTypeToScenario.lookup r.targetType = some (scenarioOf r.targetType))
    (hseed : SeedReady H r) (htools : ToolsReady H) :
    buildFuzzingCommand H r outDir = .ok b ↔
      ∃ n, intOf r.timeBudget = .ok n ∧
        b.taskConfig = taskConfig r (scenarioOf r.targetType) (H.resolve r.seedLocation) n ∧
        b.command =
          commandLine H outDir (outDir ++ chars "/task.json") (H.resolve r.seedLocation) n := by
  obtain ⟨path, hpath, hexists⟩ := hseed
  obtain rfl := safePathCheck_eq_ok H hpath
  simp only [buildFuzzingCommand, bind_eq_ok, hpath, Except.ok.injEq, exists_eq_left',
    require_eq_ok, hscenario, hexists, htools.1, htools.2, true_and, exists_const]
  constructor
  · rintro ⟨n, hn, m, hm, hb⟩
    obtain rfl := Except.ok.inj (hn.symm.trans hm)
    obtain rfl := Except.ok.inj hb
    exact ⟨n, hn, rfl, rfl⟩
  · rintro ⟨n, hn, hconfig, hcommand⟩
    obtain ⟨config, command⟩ := b
    subst hconfig hcommand
    exact ⟨n, hn, n, hn, rfl⟩

/-! ## What the loader reads -/

/-- The surrogates of a text stand in pairs. -/
def Paired (s : Text) : Prop := (joinSurrogates s).isSome = true

instance (s : Text) : Decidable (Paired s) :=
  inferInstanceAs (Decidable ((joinSurrogates s).isSome = true))

theorem Paired.eq_some {s : Text} (h : Paired s) : ∃ t, joinSurrogates s = some t :=
  Option.isSome_iff_exists.mp h

theorem joinSurrogates_configKeys : ∀ key ∈ configKeys, joinSurrogates key = some key := by decide

theorem Paired.eq_none {s : Text} (h : ¬ Paired s) : joinSurrogates s = none :=
  Option.not_isSome_iff_eq_none.mp h

theorem cjsonItems_scopes {scopes : List Json} (h : ∀ scope ∈ scopes, isScope scope = true) :
    ∃ items, cjsonItems scopes = some items := by
  induction scopes with
  | nil => exact ⟨[], rfl⟩
  | cons scope scopes ih =>
    obtain ⟨hscope, hscopes⟩ := List.forall_mem_cons.mp h
    obtain ⟨items, hitems⟩ := ih hscopes
    cases scope with
    | str s =>
      have hpaired : ∀ s ∈ allowedMutationScopes, Paired s := by decide
      obtain ⟨t, ht⟩ := (hpaired s (of_decide_eq_true hscope)).eq_some
      exact ⟨.string (Utf8.encode t) :: items, by rw [cjsonItems, cjsonOf, ht, hitems]; rfl⟩
    | _ => cases hscope

/-- A member that comes behind others with other names. -/
theorem getObjectItem_append {pre post : List (Bytes × CJson)} {name : Bytes} (c : CJson)
    (h : ∀ m ∈ pre, m.1 ≠ name) :
    (CJson.object (pre ++ (name, c) :: post)).getObjectItemCaseSensitive name = some c := by
  have hpre : pre.find? (fun m => decide (m.1 = name)) = none := by
    rw [List.find?_eq_none]
    intro m hm
    simpa using h m hm
  simp [CJson.getObjectItemCaseSensitive, List.find?_append, hpre]

/-- The loader's view of the document: it is no JSON for cJSON when a surrogate of the endpoint or
of the path stands alone. -/
theorem cjsonOf_taskConfig {ms : List (Text × Json)} {r : Request} (h : Accepted H ms r)
    (path : Text) (n : ℤ) :
    (∃ root count, cjsonOf (.dict (taskConfig r (scenarioOf r.targetType) path n)) = some root ∧
        cjsonOf r.maxTestCases = some count ∧
        root.getObjectItemCaseSensitive (ascii "max_test_cases") = some count ∧
        Paired r.targetEndpoint ∧ Paired path) ∨
      (cjsonOf (.dict (taskConfig r (scenarioOf r.targetType) path n)) = none ∧
        ¬ (Paired r.targetEndpoint ∧ Paired path)) := by
  obtain ⟨items, hitems⟩ := cjsonItems_scopes h.mutationScope.2.2
  obtain ⟨tt, htt⟩ : ∃ t, joinSurrogates r.targetType = some t := by
    have hall : ∀ s ∈ allowedTargetTypes, Paired s := by decide
    exact (hall _ h.targetType.2).eq_some
  obtain ⟨sc, hsc⟩ : ∃ t, joinSurrogates (scenarioOf r.targetType) = some t := by
    have hall : ∀ s ∈ [chars "http_api", chars "file_upload"], Paired (scenarioOf s) := by decide
    exact (hall _ (by simpa using operational_cases H h)).eq_some
  obtain ⟨ss, hss⟩ : ∃ t, joinSurrogates r.seedSource = some t := by
    have hall : ∀ s ∈ allowedSeedSources, Paired s := by decide
    exact (hall _ h.seedSource.2).eq_some
  obtain ⟨fmt, hfmt⟩ : ∃ t, joinSurrogates (chars "json_body") = some t :=
    Paired.eq_some (by decide)
  obtain ⟨count, hcount⟩ : ∃ count, cjsonOf r.maxTestCases = some count := by
    have hpos := h.maxTestCases.2
    cases hmax : r.maxTestCases with
    | int i => exact ⟨_, rfl⟩
    | bool b => exact ⟨_, rfl⟩
    | _ =>
      rw [hmax] at hpos
      cases hpos
  have hkeys := joinSurrogates_configKeys
  simp only [configKeys, List.forall_mem_cons] at hkeys
  obtain ⟨k₁, k₂, k₃, k₄, k₅, k₆, k₇, k₈, k₉, k₁₀, -⟩ := hkeys
  rw [taskConfig_eq]
  by_cases hep : Paired r.targetEndpoint
  · obtain ⟨ep, hep'⟩ := hep.eq_some
    by_cases hpath : Paired path
    · obtain ⟨loc, hloc⟩ := hpath.eq_some
      refine .inl ⟨.object
        ([(ascii "target_type", .string (Utf8.encode tt)),
          (ascii "target_endpoint", .string (Utf8.encode ep)),
          (ascii "scenario", .string (Utf8.encode sc)),
          (ascii "input_format", .string (Utf8.encode fmt)),
          (ascii "seed_source", .string (Utf8.encode ss)),
          (ascii "seed_location", .string (Utf8.encode loc)),
          (ascii "mutation_scope", .array items)] ++
        (ascii "max_test_cases", count) ::
        [(ascii "time_budget", .number (strtodInt n)),
          (ascii "enable_validity", .number (strtodInt 0))]),
        count, ?_, hcount, getObjectItem_append count ?_, hep, hpath⟩
      · simp only [List.cons_append, List.nil_append, cjsonOf, cjsonMembers, k₁, k₂, k₃, k₄, k₅, k₆,
          k₇, k₈, k₉, k₁₀, htt, hep', hsc, hfmt, hss, hloc, hitems, hcount, Option.bind_some,
          Option.map_some]
        rfl
      · simp only [List.forall_mem_cons]
        decide
    · refine .inr ⟨?_, fun hboth => hpath hboth.2⟩
      simp only [List.cons_append, List.nil_append, cjsonOf, cjsonMembers, k₁, k₂, k₃, k₄, k₅, k₆,
        htt, hep', hsc, hfmt, hss, Paired.eq_none hpath, Option.bind_some, Option.map_some,
        Option.map_none, Option.bind_none]
  · refine .inr ⟨?_, fun hboth => hep hboth.1⟩
    simp only [List.cons_append, List.nil_append, cjsonOf, cjsonMembers, k₁, k₂, htt,
      Paired.eq_none hep, Option.bind_some, Option.map_some, Option.map_none, Option.bind_none]

/-! ## Numbers -/

theorem trunc_natCast (n : ℕ) : CDouble.trunc (n : ℚ) = n := by
  simp [CDouble.trunc]

theorem trunc_eq_floor {q : ℚ} (h : 0 ≤ q) : CDouble.trunc q = ⌊q⌋ := by
  rw [CDouble.trunc, Rat.floor_def', Int.tdiv_eq_ediv_of_nonneg (Rat.num_nonneg.mpr h)]

/-- A count that survives the double of the loader: below `2 ^ 64`, with 53 significant bits. -/
def CountOk (v : Json) : Prop := ∃ n : ℕ, v = .int n ∧ n < 2 ^ 64 ∧ RoundBits.Holds 53 n

/-- At least one second, and finite. -/
def AtLeastOne : Json → Prop
  | .int i => 1 ≤ i
  | .bool b => b = true
  | .float (.finite q) => 1 ≤ q
  | _ => False

/-- The time budget, rounded up. -/
def ceilOf : Json → Option ℤ
  | .int i => some i
  | .bool b => some (if b then 1 else 0)
  | .float (.finite q) => some ⌈q⌉
  | _ => none

/-- The loader's number, whatever a double that does not fit is converted to. -/
def ReadsCount (lib : CLib) (item : CJson) (n : ℤ) : Prop :=
  ∀ undef, ((CLib.u64OrZero { lib with undefU64 := undef } (some item)).toNat : ℤ) = n

theorem strtodInt_natCast {n : ℕ} (hlt : n < 2 ^ 64) (hholds : RoundBits.Holds 53 n) :
    strtodInt n = .finite n := by
  have hround := (RoundBits.roundBits_eq_self_iff 53 n).mpr hholds
  have hsmall : ¬ doubleLimit ≤ n := not_le.mpr (hlt.trans_le le_doubleLimit)
  have hsign : ((n : ℤ).sign : ℚ) * n = n := by
    cases n with
    | zero => simp
    | succ m => simp
  simp only [strtodInt, Int.natAbs_natCast, hround, if_neg hsmall, hsign]

theorem readsCount_number (lib : CLib) {n : ℕ} (hpos : 0 < n) :
    ReadsCount lib (.number (strtodInt n)) n ↔ n < 2 ^ 64 ∧ RoundBits.Holds 53 n := by
  rw [← RoundBits.roundBits_eq_self_iff]
  have hsign : (n : ℤ).sign = 1 := Int.sign_eq_one_of_pos (by omega)
  generalize hv : RoundBits.roundBits 53 n = v
  have hdouble : strtodInt n = if doubleLimit ≤ v then .inf false else .finite (v : ℚ) := by
    have hneg : decide ((n : ℤ) < 0) = false := by simp
    rw [strtodInt, Int.natAbs_natCast, hsign, hv, hneg, Int.cast_one, one_mul]
  constructor
  · intro h
    -- an undefined conversion can give 0
    have hzero := h fun _ => 0
    rw [hdouble] at hzero
    simp only [CLib.u64OrZero] at hzero
    split_ifs at hzero with hinf
    · simp [CLib.toU64] at hzero
      omega
    · simp only [CLib.toU64] at hzero
      split_ifs at hzero with hfits
      · have hlt : v < 2 ^ 64 := by exact_mod_cast hfits.2
        rw [trunc_natCast, Int.toNat_natCast, UInt64.toNat_ofNat_of_lt' hlt] at hzero
        omega
      · simp at hzero
        omega
  · rintro ⟨hlt, hvn⟩ undef
    subst hvn
    have hfits : (-1 : ℚ) < v ∧ (v : ℚ) < 2 ^ 64 :=
      ⟨(neg_one_lt_zero (R := ℚ)).trans_le (Nat.cast_nonneg v), by exact_mod_cast hlt⟩
    have hsmall : ¬ doubleLimit ≤ v := not_le.mpr (hlt.trans_le le_doubleLimit)
    rw [hdouble, if_neg hsmall]
    simp only [CLib.u64OrZero, CLib.toU64]
    rw [if_pos hfits, trunc_natCast, Int.toNat_natCast, UInt64.toNat_ofNat_of_lt' hlt]

theorem readsCount_iff (lib : CLib) {v : Json} (hpos : isPositiveInt v = true) {count : CJson}
    (hcount : cjsonOf v = some count) :
    (∃ n, intOf v = .ok n ∧ ReadsCount lib count n) ↔ CountOk v := by
  cases v with
  | int i =>
    obtain rfl := Option.some.inj hcount
    have hi : 0 < i := of_decide_eq_true hpos
    obtain ⟨n, rfl⟩ := Int.eq_ofNat_of_zero_le hi.le
    have hn : 0 < n := by omega
    constructor
    · rintro ⟨m, hm, hreads⟩
      obtain rfl := Except.ok.inj hm
      obtain ⟨hlt, hholds⟩ := (readsCount_number lib hn).mp hreads
      exact ⟨n, rfl, hlt, hholds⟩
    · rintro ⟨m, hm, hlt, hholds⟩
      obtain rfl : n = m := Int.ofNat.inj (Value.int.inj hm)
      exact ⟨n, rfl, (readsCount_number lib hn).mpr ⟨hlt, hholds⟩⟩
  | bool b =>
    obtain rfl := Option.some.inj hcount
    obtain rfl : b = true := hpos
    refine iff_of_false ?_ ?_
    · rintro ⟨n, hn, hreads⟩
      obtain rfl := Except.ok.inj hn
      have := hreads fun _ => 0
      simp [CLib.u64OrZero] at this
    · rintro ⟨n, hn, -⟩
      cases hn
  | _ => cases hpos

/-- The timeout of a budget that is accepted is at least a second exactly for a budget of at least
a second, and then not above the budget. -/
theorem timeout_iff {v : Json} (hpos : isPositiveNumber v = true) :
    (∃ n c, intOf v = .ok n ∧ 1 ≤ n ∧ ceilOf v = some c ∧ n ≤ c) ↔ AtLeastOne v := by
  cases v with
  | int i =>
    constructor
    · rintro ⟨n, c, hn, hone, -⟩
      obtain rfl := Except.ok.inj hn
      exact hone
    · exact fun h => ⟨i, i, rfl, h, rfl, le_refl i⟩
  | bool b =>
    obtain rfl : b = true := hpos
    exact iff_of_true ⟨1, 1, rfl, le_refl 1, rfl, le_refl 1⟩ rfl
  | float x =>
    cases x with
    | finite q =>
      have hq : 0 < q := of_decide_eq_true hpos
      have hfloor := trunc_eq_floor hq.le
      constructor
      · rintro ⟨n, c, hn, hone, -⟩
        obtain rfl := Except.ok.inj hn
        rw [hfloor] at hone
        exact_mod_cast Int.le_floor.mp hone
      · intro h
        refine ⟨⌊q⌋, ⌈q⌉, by rw [intOf, hfloor], ?_, rfl, Int.floor_le_ceil q⟩
        exact Int.le_floor.mpr (by exact_mod_cast h)
    | inf neg =>
      refine iff_of_false ?_ id
      rintro ⟨n, c, hn, -⟩
      cases hn
    | nan =>
      refine iff_of_false ?_ id
      rintro ⟨n, c, hn, -⟩
      cases hn
  | _ => cases hpos

/-! ## Runnable tasks -/

/-- The command and the document of a task that can run: a timeout of at least a second and not
above the budget, the input format of the scenario, and a count that the loader reads. -/
structure Runs (lib : CLib) (r : Request) (b : Built) : Prop where
  timeout : ∃ n c : ℤ, b.command[1]? = some (JsonCodec.showInt n ++ chars "s") ∧ 1 ≤ n ∧
    ceilOf r.timeBudget = some c ∧ n ≤ c
  inputFormat : b.taskConfig.lookup (chars "input_format") =
    some (.str (inputFormat (scenarioOf r.targetType)))
  maxTestCases : ∃ n, intOf r.maxTestCases = .ok n ∧
    ∀ undef, ((loadMaxTestCases { lib with undefU64 := undef } (taskBytes H b)).toNat : ℤ) = n

/-- The body is refused with a `ValueError`, or it becomes a task that can run, once the seed and
the tools are there. -/
def Submits (lib : CLib) (outDir : Text) (req : Json) : Prop :=
  match validateSubmitRequest H req with
  | .error e => e.isValueError = true
  | .ok r => SeedReady H r → ToolsReady H →
    ∃ b, buildFuzzingCommand H r outDir = .ok b ∧ Runs H lib r b

/-- cJSON reads the document that is written. -/
def ReadsTask (lib : CLib) (b : Built) : Prop :=
  lib.cJSONParse (cstr (taskBytes H b)) = cjsonOf (.dict b.taskConfig)

theorem inputFormat_iff {ms : List (Text × Json)} {r : Request} (h : Accepted H ms r) (path : Text)
    (n : ℤ) :
    (taskConfig r (scenarioOf r.targetType) path n).lookup (chars "input_format") =
        some (.str (inputFormat (scenarioOf r.targetType))) ↔
      r.targetType = chars "http_api" := by
  have hlookup : (taskConfig r (scenarioOf r.targetType) path n).lookup (chars "input_format") =
      some (.str (chars "json_body")) := by
    simp only [taskConfig_eq, List.cons_append, List.nil_append, lookup_cons_ite,
      if_neg (show chars "input_format" ≠ chars "target_type" by decide),
      if_neg (show chars "input_format" ≠ chars "target_endpoint" by decide),
      if_neg (show chars "input_format" ≠ chars "scenario" by decide), if_true]
  rw [hlookup, Option.some.injEq, Value.str.injEq]
  rcases operational_cases H h with htype | htype
  · rw [htype]
    exact iff_of_true (by decide) rfl
  · rw [htype]
    exact iff_of_false (by decide) (by decide)

/-- What a body must be for its task to run: an HTTP scenario, a time budget of at least a second, a
count that a double holds, and no single surrogate in the endpoint or the path of the seed. -/
structure Sound (r : Request) : Prop where
  targetType : r.targetType = chars "http_api"
  timeBudget : AtLeastOne r.timeBudget
  maxTestCases : CountOk r.maxTestCases
  targetEndpoint : Paired r.targetEndpoint
  seedPath : Paired (H.resolve r.seedLocation)

theorem scenario_lookup {ms : List (Text × Json)} {r : Request} (h : Accepted H ms r) :
    targetTypeToScenario.lookup r.targetType = some (scenarioOf r.targetType) := by
  rcases operational_cases H h with htype | htype <;> rw [htype] <;> decide

theorem loads_iff (lib : CLib) {ms : List (Text × Json)} {r : Request} (h : Accepted H ms r)
    {b : Built} {n : ℤ}
    (hb : b.taskConfig = taskConfig r (scenarioOf r.targetType) (H.resolve r.seedLocation) n)
    (hparse : ReadsTask H lib b) :
    (∃ n, intOf r.maxTestCases = .ok n ∧ ∀ undef,
        ((loadMaxTestCases { lib with undefU64 := undef } (taskBytes H b)).toNat : ℤ) = n) ↔
      CountOk r.maxTestCases ∧ Paired r.targetEndpoint ∧ Paired (H.resolve r.seedLocation) := by
  unfold ReadsTask at hparse
  rw [hb] at hparse
  rcases cjsonOf_taskConfig H h (H.resolve r.seedLocation) n with
    ⟨root, count, hroot, hcount, hitem, hep, hpath⟩ | ⟨hnone, hlone⟩
  · have hload (undef : CDouble → UInt64) :
        loadMaxTestCases { lib with undefU64 := undef } (taskBytes H b) =
          CLib.u64OrZero { lib with undefU64 := undef } (some count) := by
      rw [loadMaxTestCases, hparse, hroot]
      dsimp only
      rw [hitem]
    simp only [hload, hep, hpath, and_true]
    exact readsCount_iff lib h.maxTestCases.2 hcount
  · refine iff_of_false ?_ fun hall => hlone hall.2
    rintro ⟨m, hm, hreads⟩
    have hzero := hreads fun _ => 0
    rw [loadMaxTestCases, hparse, hnone] at hzero
    obtain rfl : 0 = m := hzero
    have hpos := h.maxTestCases.2
    cases hmax : r.maxTestCases with
    | int i =>
      rw [hmax] at hm hpos
      obtain rfl := Except.ok.inj hm
      exact absurd hpos (by decide)
    | bool c =>
      rw [hmax] at hm hpos
      obtain rfl : c = true := hpos
      exact absurd (Except.ok.inj hm) (by decide)
    | _ =>
      rw [hmax] at hpos
      cases hpos

theorem runs_iff (lib : CLib) {ms : List (Text × Json)} {r : Request} (h : Accepted H ms r)
    {outDir : Text} (hseed : SeedReady H r) (htools : ToolsReady H)
    (hparse : ∀ b, buildFuzzingCommand H r outDir = .ok b → ReadsTask H lib b) :
    (∃ b, buildFuzzingCommand H r outDir = .ok b ∧ Runs H lib r b) ↔ Sound H r := by
  have hbuild : ∀ b, buildFuzzingCommand H r outDir = .ok b ↔ ∃ n, intOf r.timeBudget = .ok n ∧
      b.taskConfig = taskConfig r (scenarioOf r.targetType) (H.resolve r.seedLocation) n ∧
      b.command =
        commandLine H outDir (outDir ++ chars "/task.json") (H.resolve r.seedLocation) n :=
    fun b => build_eq_ok H (scenario_lookup H h) hseed htools
  have hcommand (n : ℤ) : (commandLine H outDir (outDir ++ chars "/task.json")
      (H.resolve r.seedLocation) n)[1]? = some (JsonCodec.showInt n ++ chars "s") := by
    rw [commandLine]
    rfl
  constructor
  · rintro ⟨b, hb, ⟨n, c, htimeout, hone, hceil, hle⟩, hformat, hcount⟩
    obtain ⟨m, hm, hconfig, hcmd⟩ := (hbuild b).mp hb
    rw [hcmd, hcommand, Option.some.injEq, List.append_left_inj] at htimeout
    obtain rfl : m = n := by
      have hread := congrArg JsonCodec.readInt htimeout
      rwa [JsonCodec.readInt_showInt, JsonCodec.readInt_showInt] at hread
    have hload := (loads_iff H lib h hconfig (hparse b hb)).mp hcount
    rw [hconfig, inputFormat_iff H h] at hformat
    exact ⟨hformat, (timeout_iff h.timeBudget.2).mp ⟨m, c, hm, hone, hceil, hle⟩, hload.1,
      hload.2.1, hload.2.2⟩
  · rintro ⟨htype, htime, hcount, hep, hpath⟩
    obtain ⟨n, c, hn, hone, hceil, hle⟩ := (timeout_iff h.timeBudget.2).mpr htime
    let b : Built :=
      ⟨taskConfig r (scenarioOf r.targetType) (H.resolve r.seedLocation) n,
        commandLine H outDir (outDir ++ chars "/task.json") (H.resolve r.seedLocation) n⟩
    have hb : buildFuzzingCommand H r outDir = .ok b := (hbuild b).mpr ⟨n, hn, rfl, rfl⟩
    exact ⟨b, hb, ⟨n, c, hcommand n, hone, hceil, hle⟩, (inputFormat_iff H h _ n).mpr htype,
      (loads_iff H lib h rfl (hparse b hb)).mpr ⟨hcount, hep, hpath⟩⟩

/-- A body is refused in good order or becomes a task that can run exactly when it is an object,
the message about a scope can be written, and what it asks for is sound. -/
theorem submit_runnable_iff (lib : CLib) (outDir : Text) (req : Json)
    (hparse : ∀ r b, validateSubmitRequest H req = .ok r → buildFuzzingCommand H r outDir = .ok b →
      ReadsTask H lib b) :
    Submits H lib outDir req ↔ ∃ ms, req = .dict ms ∧ ¬ Unprintable H ms ∧
      ∀ r, Accepted H ms r → SeedReady H r → ToolsReady H → Sound H r := by
  cases req with
  | dict ms =>
    have hpolite := polite_validate_iff H ms
    unfold Submits
    cases hvalid : validateSubmitRequest H (.dict ms) with
    | error e =>
      have hnone : ∀ r, ¬ Accepted H ms r := fun r h => by
        rw [validate_eq_ok H |>.mpr h] at hvalid
        cases hvalid
      rw [hvalid] at hpolite
      constructor
      · intro h
        refine ⟨ms, rfl, hpolite.mp ?_, fun r hr => absurd hr (hnone r)⟩
        intro e' he'
        obtain rfl := Except.error.inj he'
        exact h
      · rintro ⟨ms', heq, hprint, -⟩
        obtain rfl := Value.dict.inj heq
        exact hpolite.mpr hprint e rfl
    | ok r =>
      have hr := (validate_eq_ok H).mp hvalid
      have hprint : ¬ Unprintable H ms := hpolite.mp (hvalid ▸ polite_ok r)
      constructor
      · intro h
        refine ⟨ms, rfl, hprint, fun r' hr' hseed htools => ?_⟩
        obtain rfl : r = r' := by
          have := (validate_eq_ok H).mpr hr'
          rw [hvalid] at this
          exact Except.ok.inj this
        exact (runs_iff H lib hr hseed htools fun b hb => hparse r b hvalid hb).mp (h hseed htools)
      · rintro ⟨ms', heq, -, h⟩ hseed htools
        obtain rfl := Value.dict.inj heq
        exact (runs_iff H lib hr hseed htools fun b hb => hparse r b hvalid hb).mpr
          (h r hr hseed htools)
  | _ =>
    refine iff_of_false ?_ ?_
    · intro h
      exact Bool.false_ne_true h
    · rintro ⟨ms, heq, -⟩
      cases heq

/-- A host whose repository is `/r`. -/
def host : Host where
  pyStr := fun _ => some []
  floatRepr := fun _ => []
  uuidDigits := chars "0a1b2c3d"
  repoRoot := chars "/r"
  resolve := fun location => chars "/r/" ++ location
  insideRepo := fun _ => true
  pathExists := fun _ => true
  python := chars "/usr/bin/python3"

/-- A body with a target type and a time budget. -/
def bodyOf (targetType : String) (timeBudget : Json) : List (Text × Json) :=
  [(chars "target_type", .str (chars targetType)),
    (chars "target_endpoint", .str (chars "http://h/login")),
    (chars "seed_source", .str (chars "manual")),
    (chars "seed_location", .str (chars "seeds")),
    (chars "mutation_scope", .list [.str (chars "boundary")]),
    (chars "max_test_cases", .int 100),
    (chars "time_budget", timeBudget),
    (chars "task_name", .str (chars "t"))]

/-- The request of `bodyOf`. -/
def requestOf (targetType : String) (timeBudget : Json) : Request where
  targetType := chars targetType
  targetEndpoint := chars "http://h/login"
  seedSource := chars "manual"
  seedLocation := chars "seeds"
  mutationScope := [.str (chars "boundary")]
  maxTestCases := .int 100
  timeBudget := timeBudget
  taskName := chars "t"

/-- The task of `bodyOf "http_api"` with a budget of a minute. -/
def built : Built where
  taskConfig :=
    taskConfig (requestOf "http_api" (.int 60)) (chars "platform_api") (chars "/r/seeds") 60
  command := commandLine host (chars "/o") (chars "/o/task.json") (chars "/r/seeds") 60

/-- The document of that task, as cJSON reads it. -/
def document : CJson :=
  .object
    [(ascii "target_type", .string (ascii "http_api")),
      (ascii "target_endpoint", .string (ascii "http://h/login")),
      (ascii "scenario", .string (ascii "platform_api")),
      (ascii "input_format", .string (ascii "json_body")),
      (ascii "seed_source", .string (ascii "manual")),
      (ascii "seed_location", .string (ascii "/r/seeds")),
      (ascii "mutation_scope", .array [.string (ascii "boundary")]),
      (ascii "max_test_cases", .number (.finite 100)),
      (ascii "time_budget", .number (.finite 60)),
      (ascii "enable_validity", .number (.finite 0))]

theorem cjsonOf_built : cjsonOf (.dict built.taskConfig) = some document := by
  have hsmall (n : ℕ) (h : n < 128) : strtodInt n = .finite n :=
    strtodInt_natCast (by omega) ⟨n, 0, by omega, by omega⟩
  have hcount : strtodInt 100 = .finite 100 := hsmall 100 (by omega)
  have hbudget : strtodInt 60 = .finite 60 := hsmall 60 (by omega)
  have hvalidity : strtodInt 0 = .finite 0 := by
    have := hsmall 0 (by omega)
    rwa [Nat.cast_zero, Nat.cast_zero] at this
  simp only [built, requestOf, taskConfig_eq, List.cons_append, List.nil_append, cjsonOf,
    cjsonMembers, cjsonItems, hcount, hbudget, hvalidity]
  rfl

/-- cJSON, on the text of that document. -/
def library : CLib := CLib.ofDocs [(cstr (taskBytes host built), document)]

theorem submit_runnable_minute :
    Submits host library (chars "/o") (.dict (bodyOf "http_api" (.int 60))) := by
  refine (submit_runnable_iff host library (chars "/o") _ ?_).mpr ⟨_, rfl, ?_, ?_⟩
  · intro r b hr hb
    obtain rfl : requestOf "http_api" (.int 60) = r := Except.ok.inj hr
    obtain rfl : built = b := Except.ok.inj hb
    rw [ReadsTask, cjsonOf_built, library, CLib.ofDocs]
    simp
  · rintro ⟨-, -, -, -, scopes, scope, hscopes, hfind, -⟩
    obtain rfl := Value.list.inj hscopes
    cases hfind
  · intro r hr _ _
    obtain rfl : requestOf "http_api" (.int 60) = r :=
      Except.ok.inj ((validate_eq_ok host).mpr hr)
    refine ⟨rfl, ?_, ⟨100, rfl, by omega, 100, 0, by omega, by omega⟩, by decide, by decide⟩
    show (1 : ℤ) ≤ 60
    decide

/-- The task of an upload names the format of a JSON body, an infinite budget is accepted and then
has no timeout, and a body that is no object is refused by an `AttributeError`. -/
theorem upload_gets_json_format :
    ¬ Submits host library (chars "/o") (.dict (bodyOf "file_upload" (.int 60))) ∧
      ¬ Submits host library (chars "/o") (.dict (bodyOf "http_api" (.float (.inf false)))) ∧
      ¬ Submits host library (chars "/o") .null := by
  refine ⟨fun h => ?_, fun h => ?_, Bool.false_ne_true⟩
  · obtain ⟨b, hb, hruns⟩ := h ⟨_, rfl, rfl⟩ ⟨rfl, rfl⟩
    obtain rfl := Except.ok.inj hb
    have hformat := hruns.inputFormat
    rw [taskConfig_eq] at hformat
    have htexts : chars "json_body" = chars "full_http_multipart" :=
      Value.str.inj (Option.some.inj hformat)
    exact absurd htexts (by decide)
  · obtain ⟨b, hb, -⟩ := h ⟨_, rfl, rfl⟩ ⟨rfl, rfl⟩
    cases hb

end AflNv.SubmitRequest
