import Mathlib.Tactic.Linarith
import AflNv.BodyRules
import AflNv.PythonJson
import AflNv.Python

/-!
# The two-stage decision

`integration/decision_engine.py` decides whether a body passes by a score of a model.  Two
thresholds split the scores; between them a second stage gives a score of its own, which has to be
below `second_stage_threshold`.

* `decide` is the decision, `runSecondStage` the second stage with its four sources of a score.
* `flowableRules` are the checks of the stage `flowable_rule`, `Admissible` says what they ask of a
  sample.
* `Sound` puts together what is asked of the decision: the scores that pass are downward closed, NaN
  passes neither as the first nor as the second score, and between the thresholds the flowable
  stage lets pass what is admissible.
* `decide_sound_iff` says where the decision keeps to it.  A first score that is NaN is compared like
  one between the thresholds (`nan_unsound`).
-/

namespace AflNv

open AflNv.Lib

namespace DecisionEngine

open AflNv.Lib.JsonCodec (Text Value chars)
open AflNv.PythonJson
open AflNv.BodyRules (Check reject reject_bind_ok)

variable {F : Type}

/-! ## Comparisons -/

/-- `x <= y` -/
def pyLe : PyFloat ℚ → PyFloat ℚ → Bool
  | .finite x, .finite y => x ≤ y
  | .finite _, .inf neg => !neg
  | .inf neg, .finite _ => neg
  | .inf neg, .inf neg' => neg || !neg'
  | _, _ => false

/-- `x < y` -/
def pyLt : PyFloat ℚ → PyFloat ℚ → Bool
  | .finite x, .finite y => x < y
  | .finite _, .inf neg => !neg
  | .inf neg, .finite _ => neg
  | .inf neg, .inf neg' => neg && !neg'
  | _, _ => false

/-- `max(x, y)` -/
def pyMax (x y : PyFloat ℚ) : PyFloat ℚ := if pyLt x y then y else x

/-! ## The configuration -/

/-- What `DecisionEngine(config)` keeps of a configuration that it accepts. -/
structure Config where
  tLow : PyFloat ℚ
  tHigh : PyFloat ℚ
  ordered : pyLt tHigh tLow = false
  enableSecondStage : Bool
  secondStageType : Text
  secondStageThreshold : PyFloat ℚ
  secondStageEndpoint : Text
  secondStageDefaultScore : PyFloat ℚ
  maxInputBytes : ℤ
  allowedProcessDefinitionKeys : List Text
  maxJsonDepth : ℤ
  maxStringLen : ℤ
  maxTotalKeys : ℤ
  maxVariables : ℤ
  maxVariableNameLen : ℤ
  allowedRootFields : List Text
  requiredVariablesByKey : List (Text × List Text)
  variableTypeHints : List (Text × List (Text × Text))

/-- The limits of `DecisionEngine({"t_low": tLow, "t_high": tHigh})`. -/
def Config.default (tLow tHigh : PyFloat ℚ) (ordered : pyLt tHigh tLow = false) : Config where
  tLow := tLow
  tHigh := tHigh
  ordered := ordered
  enableSecondStage := false
  secondStageType := chars "rule"
  secondStageThreshold := .finite 1
  secondStageEndpoint := []
  secondStageDefaultScore := .finite (6 / 5)
  maxInputBytes := 262144
  allowedProcessDefinitionKeys := []
  maxJsonDepth := 6
  maxStringLen := 512
  maxTotalKeys := 80
  maxVariables := 50
  maxVariableNameLen := 128
  allowedRootFields := []
  requiredVariablesByKey := []
  variableTypeHints := []

/-- What is decided: the bytes of a body, a text or a value. -/
inductive Sample (F : Type) where
  | bytes (data : Bytes)
  | text (text : Text)
  | value (v : Value F)

/-- What the engine asks for: the answer of the second model for a payload, if it gives one, and
`round(x, 6)`. -/
structure Env where
  gan : Bytes → Option (PyFloat ℚ)
  round6 : ℚ → ℚ

/-! ## Samples -/

def sampleBytes (I : Interp F) : Sample F → Option Bytes
  | .bytes data => some data
  | .text text => some (Utf8.encode (text.filter fun c => Utf8.Scalar c))
  | .value v => (dumpsBytes I .sampleDumps v).toOption

/-- `_normalize_sample_bytes` -/
def normalizeSampleBytes (I : Interp F) (c : Config) (sample : Sample F) : Option Bytes :=
  (sampleBytes I sample).bind fun payload =>
    if payload = [] ∨ c.maxInputBytes < payload.length then none else some payload

/-- What was loaded, unless it is `None`. -/
def notNone : Option (Value F) → Option (Value F)
  | some .null => none
  | loaded => loaded

/-- `_normalize_sample_object`; `none` is `None`, which `null` is loaded as too. -/
def normalizeSampleObject (I : Interp F) : Sample F → Option (Value F)
  | .value (.dict ms) => some (.dict ms)
  | .value (.list vs) => some (.list vs)
  | .value _ => none
  | .bytes data => notNone (loadsBytes I data)
  | .text text => notNone (loads I text)

/-! ## The rule stage -/

def riskScore (env : Env) (bytes depth keys longest : ℕ) : ℚ :=
  env.round6 (7 / 5 * (7 / 20 * min 1 (bytes / 4096) + 1 / 4 * min 1 (depth / 8) +
    1 / 5 * min 1 (keys / 64) + 1 / 5 * min 1 (longest / 512)))

def runRuleStage (I : Interp F) (env : Env) (c : Config) (sample : Sample F) :
    Except Raised (PyFloat ℚ) :=
  match normalizeSampleObject I sample with
  | none => .ok c.secondStageDefaultScore
  | some v => do
    let body ← dumpsBytes I .ruleDumps v
    if I.overflows .ruleDepth v then .error .recursionError
    else .ok (.finite (riskScore env body.length (jsonDepth v 0) (jsonKeyCount v)
      (maxStringLenInJson v)))

/-! ## The flowable stage -/

def isSimpleFlowableValue (c : Config) (value : Value F) : Bool :=
  match value with
  | .str s => s.length ≤ c.maxStringLen
  | .dict _ | .list _ =>
    jsonDepth value 0 ≤ 3 && jsonKeyCount value ≤ 20 && maxStringLenInJson value ≤ c.maxStringLen
  | _ => true

/-- `str.lower` as far as the names of the types go. -/
def lower (text : Text) : Text := text.map fun c => if 65 ≤ c ∧ c ≤ 90 then c + 32 else c

def flowableValueMatchesType (value : Value F) (expected : Text) : Bool :=
  let expected := lower (Unicode.strip expected)
  if expected ∈ [chars "str", chars "string"] then value matches .str _
  else if expected ∈ [chars "number", chars "numeric"] then
    value matches .int _ || value matches .float _
  else if expected ∈ [chars "bool", chars "boolean"] then value matches .bool _
  else if expected = chars "null" then value matches .null
  else if expected = chars "scalar" then !(value matches .dict _) && !(value matches .list _)
  else if expected = chars "object" then value matches .dict _
  else if expected = chars "array" then value matches .list _
  else true

/-- A text with more than white space. -/
def stripped? : Option (Value F) → Option Text
  | some (.str s) => if Unicode.strip s = [] then none else some (Unicode.strip s)
  | _ => none

def rootFields (c : Config) (ms : List (Text × Value F)) : Check :=
  if c.allowedRootFields = [] then .ok ()
  else match ms.find? fun m => m.1 ∉ c.allowedRootFields with
    | some m => .error (chars "unexpected_root_field:" ++ m.1)
    | none => .ok ()

def processKey (c : Config) (ms : List (Text × Value F)) : Except Text Text :=
  match stripped? (ms.lookup (chars "processDefinitionKey")) with
  | none => .error (chars "missing_or_empty_processDefinitionKey")
  | some key => do
    reject (c.allowedProcessDefinitionKeys ≠ [] ∧ key ∉ c.allowedProcessDefinitionKeys)
      "processDefinitionKey_not_allowed"
    .ok key

/-- `normalized.get("variables", [])`, with nothing for `null`. -/
def variablesOf (c : Config) (ms : List (Text × Value F)) : Except Text (List (Value F)) := do
  let vs ← match ms.lookup (chars "variables") with
    | none | some .null => .ok []
    | some (.list vs) => .ok vs
    | some _ => .error (chars "variables_not_array")
  reject (c.maxVariables < vs.length) "variables_count_exceeded"
  .ok vs

/-- `type_hints.get(name)`, unless it is empty. -/
def typeHint (c : Config) (processKey name : Text) : Option Text :=
  ((c.variableTypeHints.lookup processKey).bind fun hints => hints.lookup name).filter (· ≠ [])

/-- The body of the loop over the variables; it gives the name. -/
def variableItem (c : Config) (processKey : Text) : Value F → Except Text Text
  | .dict item => do
    match stripped? (item.lookup (chars "name")) with
    | none => .error (chars "variable_name_missing_or_empty")
    | some name => do
      reject (c.maxVariableNameLen < name.length) "variable_name_too_long"
      match item.lookup (chars "value") with
      | none => .error (chars "variable_value_missing")
      | some value => do
        reject (!isSimpleFlowableValue c value) "variable_value_not_simple"
        if (typeHint c processKey name).any fun typ => !flowableValueMatchesType value typ then
          .error (chars "variable_type_mismatch:" ++ name)
        else .ok name
  | _ => .error (chars "variable_item_not_object")

def requiredVariables (c : Config) (processKey : Text) : List Text :=
  (c.requiredVariablesByKey.lookup processKey).getD []

def missingVariable (c : Config) (processKey : Text) (seen : List Text) : Check :=
  match (requiredVariables c processKey).find? fun required => required ∉ seen with
  | some required => .error (chars "missing_required_variable:" ++ required)
  | none => .ok ()

/-- The checks behind that of the root fields. -/
def flowableRules (c : Config) (ms : List (Text × Value F)) : Check := do
  reject (c.maxJsonDepth < jsonDepth (.dict ms) 0) "json_depth_exceeded"
  reject (c.maxTotalKeys < jsonKeyCount (.dict ms)) "total_keys_exceeded"
  reject (c.maxStringLen < maxStringLenInJson (.dict ms)) "string_length_exceeded"
  let key ← processKey c ms
  let vs ← variablesOf c ms
  let seen ← vs.mapM (variableItem c key)
  missingVariable c key seen

/-- `_run_flowable_rule_stage`: a reason to reject, or none. -/
def runFlowableRuleStage (I : Interp F) (c : Config) (sample : Sample F) : Except Raised Check :=
  match normalizeSampleBytes I c sample with
  | none => .ok (.error (chars "invalid_or_oversize_payload"))
  | some payload =>
    match loadsBytes I payload with
    | none => .ok (.error (chars "invalid_json"))
    | some (.dict ms) =>
      match rootFields c ms with
      | .error reason => .ok (.error reason)
      | .ok () =>
        if I.overflows .flowableDepth (.dict ms) then .error .recursionError
        else .ok (flowableRules c ms)
    | some _ => .ok (.error (chars "root_not_object"))

/-- `_flowable_rule_reject`, and 0 for what is not rejected. -/
def flowableScore (c : Config) : Check → PyFloat ℚ
  | .ok () => .finite 0
  | .error _ => pyMax c.secondStageThreshold c.secondStageDefaultScore

/-! ## The decision -/

/-- Where a second score comes from. -/
inductive Source where
  | ganRpc
  | ruleFallback
  | localRule
  | flowableRuleV1 (reason : Check)
  | defaultScore

structure Second where
  score : PyFloat ℚ
  source : Source

/-- The answer of the second model, if it can be asked. -/
def runSecondStageRpc (I : Interp F) (env : Env) (c : Config) (sample : Sample F) :
    Option (PyFloat ℚ) :=
  if (chars "unix://").isPrefixOf c.secondStageEndpoint then
    (normalizeSampleBytes I c sample).bind env.gan
  else none

def runSecondStage (I : Interp F) (env : Env) (c : Config) (sample : Sample F) :
    Except Raised Second :=
  if c.secondStageType = chars "gan" then
    match runSecondStageRpc I env c sample with
    | some score => .ok ⟨score, .ganRpc⟩
    | none => do
      let score ← runRuleStage I env c sample
      .ok ⟨score, .ruleFallback⟩
  else if c.secondStageType = chars "rule" then do
    let score ← runRuleStage I env c sample
    .ok ⟨score, .localRule⟩
  else if c.secondStageType ∈ [chars "flowable_rule", chars "flowable_rule_v1"] then do
    let reason ← runFlowableRuleStage I c sample
    .ok ⟨flowableScore c reason, .flowableRuleV1 reason⟩
  else .ok ⟨c.secondStageDefaultScore, .defaultScore⟩

inductive Stage where
  | aeLow
  | aeHigh
  | secondPass (second : Second)
  | secondReject (second : Second)
  | fallback

/-- `"pass"` or `"reject"`, with what is said about it. -/
structure Decision where
  pass : Bool
  stage : Stage
  aeScore : PyFloat ℚ

def decide (I : Interp F) (env : Env) (c : Config) (aeScore : PyFloat ℚ) (sample : Sample F) :
    Except Raised Decision :=
  if pyLe aeScore c.tLow then .ok ⟨true, .aeLow, aeScore⟩
  else if pyLe c.tHigh aeScore then .ok ⟨false, .aeHigh, aeScore⟩
  else if c.enableSecondStage then do
    let second ← runSecondStage I env c sample
    if pyLt second.score c.secondStageThreshold then .ok ⟨true, .secondPass second, aeScore⟩
    else .ok ⟨false, .secondReject second, aeScore⟩
  else .ok ⟨false, .fallback, aeScore⟩

/-! ## What the flowable stage asks for -/

def memberOf (v : Value F) (key : String) : Option (Value F) :=
  match v with
  | .dict ms => ms.lookup (chars key)
  | _ => none

def variableName (v : Value F) : Option Text := stripped? (memberOf v "name")

/-- A variable with a short name and a simple value of the type that is hinted at. -/
structure VariableOk (c : Config) (key name : Text) (v : Value F) : Prop where
  named : variableName v = some name
  short : (name.length : ℤ) ≤ c.maxVariableNameLen
  value : ∃ x, memberOf v "value" = some x ∧ isSimpleFlowableValue c x = true ∧
    ∀ typ, typeHint c key name = some typ → flowableValueMatchesType x typ = true

structure VariablesOk (c : Config) (key : Text) (vs : List (Value F)) : Prop where
  few : (vs.length : ℤ) ≤ c.maxVariables
  each : ∀ v ∈ vs, ∃ name, VariableOk c key name v
  required : ∀ name ∈ requiredVariables c key, ∃ v ∈ vs, variableName v = some name

/-- The variables of an object; `null` and no member at all stand for none. -/
def HasVariables (ms : List (Text × Value F)) (vs : List (Value F)) : Prop :=
  ms.lookup (chars "variables") = some (.list vs) ∨
    (ms.lookup (chars "variables") = none ∨ ms.lookup (chars "variables") = some .null) ∧ vs = []

/-- An object that keeps to all limits of the configuration. -/
structure Admissible (c : Config) (ms : List (Text × Value F)) : Prop where
  fields : c.allowedRootFields = [] ∨ ∀ m ∈ ms, m.1 ∈ c.allowedRootFields
  depth : (jsonDepth (.dict ms) 0 : ℤ) ≤ c.maxJsonDepth
  keys : (jsonKeyCount (.dict ms) : ℤ) ≤ c.maxTotalKeys
  strings : (maxStringLenInJson (.dict ms) : ℤ) ≤ c.maxStringLen
  process : ∃ key vs, stripped? (ms.lookup (chars "processDefinitionKey")) = some key ∧
    (c.allowedProcessDefinitionKeys = [] ∨ key ∈ c.allowedProcessDefinitionKeys) ∧
    HasVariables ms vs ∧ VariablesOk c key vs

/-- The sample is an object in at most `max_input_bytes` bytes of JSON. -/
def SampleObject (I : Interp F) (c : Config) (sample : Sample F) (ms : List (Text × Value F)) :
    Prop :=
  ∃ payload, sampleBytes I sample = some payload ∧ (payload.length : ℤ) ≤ c.maxInputBytes ∧
    loadsBytes I payload = some (.dict ms)

/-- The sample is an admissible object. -/
def AdmissibleSample (I : Interp F) (c : Config) (sample : Sample F) : Prop :=
  ∃ ms, SampleObject I c sample ms ∧ Admissible c ms

/-- The sample is not too deep for `json_depth`. -/
def Shallow (I : Interp F) (c : Config) (sample : Sample F) : Prop :=
  ∀ ms, SampleObject I c sample ms → I.overflows .flowableDepth (.dict ms) = false

theorem rootFields_iff (c : Config) (ms : List (Text × Value F)) :
    rootFields c ms = .ok () ↔
      c.allowedRootFields = [] ∨ ∀ m ∈ ms, m.1 ∈ c.allowedRootFields := by
  rw [rootFields]
  split_ifs with h
  · exact iff_of_true rfl (.inl h)
  · cases hfind : ms.find? fun m => m.1 ∉ c.allowedRootFields with
    | none =>
      rw [List.find?_eq_none] at hfind
      exact iff_of_true rfl (.inr fun m hm => by simpa using hfind m hm)
    | some m =>
      have hm := List.mem_of_find?_eq_some hfind
      have hnot : m.1 ∉ c.allowedRootFields := by simpa using List.find?_some hfind
      simp only [reduceCtorEq, h, false_or, false_iff]
      exact fun hall => hnot (hall m hm)

theorem processKey_iff (c : Config) (ms : List (Text × Value F)) (key : Text) :
    processKey c ms = .ok key ↔
      stripped? (ms.lookup (chars "processDefinitionKey")) = some key ∧
        (c.allowedProcessDefinitionKeys = [] ∨ key ∈ c.allowedProcessDefinitionKeys) := by
  rw [processKey]
  cases stripped? (ms.lookup (chars "processDefinitionKey")) with
  | none => simp
  | some k =>
    simp only [reject_bind_ok, Except.ok.injEq, Option.some.injEq, decide_eq_false_iff_not,
      not_and_or, not_not]
    constructor
    · rintro ⟨hallowed, rfl⟩
      exact ⟨rfl, hallowed⟩
    · rintro ⟨rfl, hallowed⟩
      exact ⟨hallowed, rfl⟩

theorem variablesOf_iff (c : Config) (ms : List (Text × Value F)) (vs : List (Value F)) :
    variablesOf c ms = .ok vs ↔ HasVariables ms vs ∧ (vs.length : ℤ) ≤ c.maxVariables := by
  have hcount (ws : List (Value F)) :
      (reject (c.maxVariables < ws.length) "variables_count_exceeded" >>= fun _ => .ok ws) =
        .ok vs ↔ ws = vs ∧ (vs.length : ℤ) ≤ c.maxVariables := by
    simp only [reject_bind_ok, Except.ok.injEq, decide_eq_false_iff_not, not_lt]
    constructor
    · rintro ⟨hle, rfl⟩
      exact ⟨rfl, hle⟩
    · rintro ⟨rfl, hle⟩
      exact ⟨hle, rfl⟩
  rw [variablesOf, HasVariables]
  cases ms.lookup (chars "variables") with
  | none => exact (hcount []).trans (by simp [eq_comm])
  | some v =>
    cases v with
    | null => exact (hcount []).trans (by simp [eq_comm])
    | list ws => exact (hcount ws).trans (by simp)
    | _ => exact iff_of_false (fun h => nomatch h) (by simp)

theorem variableItem_iff (c : Config) (key name : Text) (v : Value F) :
    variableItem c key v = .ok name ↔ VariableOk c key name v := by
  have hno (h : variableName v = none) : ¬ VariableOk c key name v := fun hok => by
    cases h.symm.trans hok.named
  match v with
  | .null | .bool _ | .int _ | .float _ | .str _ | .list _ =>
    exact iff_of_false (by simp [variableItem]) (hno rfl)
  | .dict item =>
    rw [variableItem]
    cases hname : stripped? (item.lookup (chars "name")) with
    | none => exact iff_of_false (by simp) (hno hname)
    | some n =>
      simp only [reject_bind_ok, decide_eq_false_iff_not, not_lt]
      cases hvalue : item.lookup (chars "value") with
      | none =>
        refine iff_of_false (by simp) fun hok => ?_
        obtain ⟨x, hx, -⟩ := hok.value
        cases hvalue.symm.trans hx
      | some x =>
        have hhint : ((typeHint c key n).any fun typ => !flowableValueMatchesType x typ) = true ↔
            ¬ ∀ typ, typeHint c key n = some typ → flowableValueMatchesType x typ = true := by
          cases typeHint c key n <;> simp
        simp only [reject_bind_ok, hhint, Bool.not_eq_false']
        constructor
        · rintro ⟨hshort, hsimple, h⟩
          split_ifs at h with hmatch
          obtain rfl := Except.ok.inj h
          exact ⟨hname, hshort, x, hvalue, hsimple, hmatch⟩
        · intro hok
          obtain rfl : n = name := Option.some.inj (hname.symm.trans hok.named)
          obtain ⟨y, hy, hsimple, hmatch⟩ := hok.value
          obtain rfl : x = y := Option.some.inj (hvalue.symm.trans hy)
          exact ⟨hok.short, hsimple, if_neg (not_not.mpr hmatch)⟩

theorem missingVariable_iff (c : Config) (key : Text) (seen : List Text) :
    missingVariable c key seen = .ok () ↔ ∀ name ∈ requiredVariables c key, name ∈ seen := by
  rw [missingVariable]
  cases hfind : (requiredVariables c key).find? fun required => required ∉ seen with
  | none =>
    rw [List.find?_eq_none] at hfind
    exact iff_of_true rfl fun name hname => by simpa using hfind name hname
  | some name =>
    have hmem := List.mem_of_find?_eq_some hfind
    have hnot : name ∉ seen := by simpa using List.find?_some hfind
    exact iff_of_false (fun h => nomatch h) fun hall => hnot (hall name hmem)

/-- The loop over the variables and the check behind it. -/
theorem variables_iff (c : Config) (key : Text) (vs : List (Value F)) :
    (∃ seen, vs.mapM (variableItem c key) = .ok seen ∧ missingVariable c key seen = .ok ()) ↔
      (∀ v ∈ vs, ∃ name, VariableOk c key name v) ∧
        ∀ name ∈ requiredVariables c key, ∃ v ∈ vs, variableName v = some name := by
  simp only [mapM_eq_ok, missingVariable_iff, variableItem_iff]
  have hseen {seen : List Text} (h : List.Forall₂ (fun v name => VariableOk c key name v) vs seen) :
      vs.map variableName = seen.map some := by
    induction h with
    | nil => rfl
    | cons hv _ ih => rw [List.map_cons, List.map_cons, hv.named, ih]
  have hmem {seen : List Text} (h : List.Forall₂ (fun v name => VariableOk c key name v) vs seen)
      (name : Text) : name ∈ seen ↔ ∃ v ∈ vs, variableName v = some name := by
    rw [← List.mem_map, hseen h]
    simp
  constructor
  · rintro ⟨seen, hok, hrequired⟩
    refine ⟨fun v hv => ?_, fun name hname => (hmem hok name).mp (hrequired name hname)⟩
    exact (List.forall₂_iff_get.mp hok).elim fun hlen hget => by
      obtain ⟨i, hi, rfl⟩ := List.mem_iff_getElem.mp hv
      exact ⟨_, hget i hi (hlen ▸ hi)⟩
  · rintro ⟨heach, hrequired⟩
    obtain ⟨seen, hok⟩ : ∃ seen, List.Forall₂ (fun v name => VariableOk c key name v) vs seen := by
      clear hseen hmem hrequired
      induction vs with
      | nil => exact ⟨[], .nil⟩
      | cons v vs ih =>
        obtain ⟨name, hname⟩ := heach v (List.mem_cons_self ..)
        obtain ⟨seen, hok⟩ := ih fun v hv => heach v (List.mem_cons_of_mem _ hv)
        exact ⟨name :: seen, .cons hname hok⟩
    exact ⟨seen, hok, fun name hname => (hmem hok name).mpr (hrequired name hname)⟩

/-- Behind the root fields, the checks accept what keeps to the limits. -/
theorem flowableRules_iff (c : Config) (ms : List (Text × Value F)) :
    rootFields c ms = .ok () ∧ flowableRules c ms = .ok () ↔ Admissible c ms := by
  rw [flowableRules, rootFields_iff]
  simp only [reject_bind_ok, decide_eq_false_iff_not, not_lt]
  simp only [bind_eq_ok, processKey_iff, variablesOf_iff]
  constructor
  · rintro ⟨hfields, hdepth, hkeys, hstrings, key, ⟨hkey, hallowed⟩, vs, ⟨hvs, hfew⟩, hseen⟩
    obtain ⟨heach, hrequired⟩ := (variables_iff c key vs).mp hseen
    exact ⟨hfields, hdepth, hkeys, hstrings, key, vs, hkey, hallowed, hvs, hfew, heach, hrequired⟩
  · rintro ⟨hfields, hdepth, hkeys, hstrings, key, vs, hkey, hallowed, hvs, hok⟩
    exact ⟨hfields, hdepth, hkeys, hstrings, key, ⟨hkey, hallowed⟩, vs, ⟨hvs, hok.few⟩,
      (variables_iff c key vs).mpr ⟨hok.each, hok.required⟩⟩

theorem normalizeSampleBytes_eq_some {I : Interp F} {c : Config} {sample : Sample F}
    {payload : Bytes} :
    normalizeSampleBytes I c sample = some payload ↔
      sampleBytes I sample = some payload ∧ payload ≠ [] ∧
        (payload.length : ℤ) ≤ c.maxInputBytes := by
  rw [normalizeSampleBytes, Option.bind_eq_some_iff]
  constructor
  · rintro ⟨data, hdata, h⟩
    split_ifs at h with hsize
    obtain rfl := Option.some.inj h
    exact ⟨hdata, not_or.mp hsize |>.1, not_lt.mp (not_or.mp hsize).2⟩
  · rintro ⟨hdata, hne, hsize⟩
    exact ⟨payload, hdata, if_neg (not_or.mpr ⟨hne, not_lt.mpr hsize⟩)⟩

theorem loadsBytes_nil (I : Interp F) : loadsBytes I [] = none := by
  show loads I [] = none
  rw [loads]
  split_ifs <;> rfl

/-- The flowable stage has no reason to reject what is admissible and not too deep, and nothing
else. -/
theorem runFlowableRuleStage_iff (I : Interp F) (c : Config) (sample : Sample F) :
    runFlowableRuleStage I c sample = .ok (.ok ()) ↔
      AdmissibleSample I c sample ∧ Shallow I c sample := by
  have hobject (payload : Bytes) (hpayload : normalizeSampleBytes I c sample = some payload)
      (ms : List (Text × Value F)) :
      SampleObject I c sample ms ↔ loadsBytes I payload = some (.dict ms) := by
    obtain ⟨hdata, -, hsize⟩ := normalizeSampleBytes_eq_some.mp hpayload
    constructor
    · rintro ⟨payload', hdata', -, h⟩
      obtain rfl := Option.some.inj (hdata.symm.trans hdata')
      exact h
    · exact fun h => ⟨payload, hdata, hsize, h⟩
  rw [runFlowableRuleStage]
  cases hpayload : normalizeSampleBytes I c sample with
  | none =>
    refine iff_of_false (fun h => nomatch Except.ok.inj h) ?_
    rintro ⟨⟨ms, ⟨payload, hdata, hsize, hloads⟩, -⟩, -⟩
    have hne : payload ≠ [] := fun h => by
      rw [h, loadsBytes_nil] at hloads
      exact nomatch hloads
    exact nomatch hpayload.symm.trans (normalizeSampleBytes_eq_some.mpr ⟨hdata, hne, hsize⟩)
  | some payload =>
    simp only [AdmissibleSample, Shallow, hobject payload hpayload]
    match hloads : loadsBytes I payload with
    | none => exact iff_of_false (fun h => nomatch Except.ok.inj h) fun ⟨⟨_, h, _⟩, _⟩ => nomatch h
    | some .null | some (.bool _) | some (.int _) | some (.float _) | some (.str _)
    | some (.list _) =>
      exact iff_of_false (fun h => nomatch Except.ok.inj h) fun ⟨⟨_, h, _⟩, _⟩ => nomatch h
    | some (.dict ms) =>
      simp only [Option.some.injEq, Value.dict.injEq, exists_eq_left', forall_eq',
        ← flowableRules_iff]
      cases rootFields c ms with
      | error reason =>
        exact iff_of_false (fun h => nomatch Except.ok.inj h) fun h => nomatch h.1.1
      | ok _ =>
        dsimp only
        split_ifs with hdeep
        · exact iff_of_false (fun h => nomatch h) fun h => nomatch hdeep.symm.trans h.2
        · rw [Except.ok.injEq]
          exact ⟨fun h => ⟨⟨rfl, h⟩, Bool.eq_false_iff.mpr hdeep⟩, fun h => h.1.2⟩

/-! ## What passes -/

def Passes (I : Interp F) (env : Env) (c : Config) (score : PyFloat ℚ) (sample : Sample F) : Prop :=
  ∃ d, decide I env c score sample = .ok d ∧ d.pass = true

/-- The rule gives the sample a score below the threshold. -/
def RuleBelow (I : Interp F) (env : Env) (c : Config) (sample : Sample F) : Prop :=
  ∃ score, runRuleStage I env c sample = .ok score ∧ pyLt score c.secondStageThreshold = true

/-- Neither low nor high. -/
def Grey (c : Config) (score : PyFloat ℚ) : Prop :=
  pyLe score c.tLow = false ∧ pyLe c.tHigh score = false

def SecondPasses (I : Interp F) (env : Env) (c : Config) (sample : Sample F) : Prop :=
  c.enableSecondStage = true ∧ ∃ second, runSecondStage I env c sample = .ok second ∧
    pyLt second.score c.secondStageThreshold = true

theorem passes_iff (I : Interp F) (env : Env) (c : Config) (score : PyFloat ℚ) (sample : Sample F) :
    Passes I env c score sample ↔
      pyLe score c.tLow = true ∨ Grey c score ∧ SecondPasses I env c sample := by
  rw [Passes, Grey, SecondPasses, decide]
  split_ifs with hlow hhigh hsecond
  · simp [hlow]
  · simp [hlow, hhigh]
  · simp only [bind_eq_ok, hlow, hhigh, hsecond, true_and, Bool.false_eq_true, false_or]
    constructor
    · rintro ⟨d, ⟨second, hrun, h⟩, hpass⟩
      split_ifs at h with hlt
      · exact ⟨second, hrun, hlt⟩
      · obtain rfl := Except.ok.inj h
        exact nomatch hpass
    · rintro ⟨second, hrun, hlt⟩
      exact ⟨_, ⟨second, hrun, if_pos hlt⟩, rfl⟩
  · simp [hlow, hsecond]

theorem pyLe_trans {x y z : PyFloat ℚ} (hxy : pyLe x y = true) (hyz : pyLe y z = true) :
    pyLe x z = true := by
  cases x <;> cases y <;> cases z <;> simp_all [pyLe]
  case finite.finite.finite => exact hxy.trans hyz
  case inf.inf.inf neg neg' neg'' => cases neg' <;> simp_all

theorem pyLt_nan (y : PyFloat ℚ) : pyLt .nan y = false := by cases y <;> rfl

theorem not_le_of_lt {x y : PyFloat ℚ} (h : pyLt x y = true) : pyLe y x = false := by
  cases x <;> cases y <;> simp_all [pyLt, pyLe]

theorem grey_of_between {c : Config} {s : PyFloat ℚ} (hlow : pyLt c.tLow s = true)
    (hhigh : pyLt s c.tHigh = true) : Grey c s :=
  ⟨not_le_of_lt hlow, not_le_of_lt hhigh⟩

theorem grey_nan (c : Config) : Grey c .nan :=
  ⟨by cases c.tLow <;> rfl, by cases c.tHigh <;> rfl⟩

theorem pyMax_threshold (c : Config) (reason : Text) :
    pyLt (flowableScore c (.error reason)) c.secondStageThreshold = false := by
  rw [flowableScore, pyMax]
  generalize c.secondStageThreshold = x, c.secondStageDefaultScore = y
  split_ifs with h
  · cases x <;> cases y <;> simp_all [pyLt]
    exact h.le
  · cases x <;> simp [pyLt]

/-- The sample gets a second score below the threshold: from the second model, by the rule, by the
flowable rules, or by default. -/
def SecondBelow (I : Interp F) (env : Env) (c : Config) (sample : Sample F) : Prop :=
  if c.secondStageType = chars "gan" then
    match runSecondStageRpc I env c sample with
    | some score => pyLt score c.secondStageThreshold = true
    | none => RuleBelow I env c sample
  else if c.secondStageType = chars "rule" then RuleBelow I env c sample
  else if c.secondStageType ∈ [chars "flowable_rule", chars "flowable_rule_v1"] then
    pyLt (.finite 0) c.secondStageThreshold = true ∧ AdmissibleSample I c sample ∧
      Shallow I c sample
  else pyLt c.secondStageDefaultScore c.secondStageThreshold = true

theorem secondPasses_iff (I : Interp F) (env : Env) (c : Config) (sample : Sample F) :
    SecondPasses I env c sample ↔ c.enableSecondStage = true ∧ SecondBelow I env c sample := by
  have hone (s : Second) :
      (∃ second, (.ok s : Except Raised Second) = .ok second ∧
        pyLt second.score c.secondStageThreshold = true) ↔
        pyLt s.score c.secondStageThreshold = true := by simp
  have hrule (source : Source) :
      (∃ second, (runRuleStage I env c sample >>= fun score => .ok (Second.mk score source)) =
        .ok second ∧ pyLt second.score c.secondStageThreshold = true) ↔
        RuleBelow I env c sample := by
    simp only [bind_eq_ok, RuleBelow]
    constructor
    · rintro ⟨second, ⟨score, hscore, h⟩, hlt⟩
      obtain rfl := Except.ok.inj h
      exact ⟨score, hscore, hlt⟩
    · rintro ⟨score, hscore, hlt⟩
      exact ⟨_, ⟨score, hscore, rfl⟩, hlt⟩
  rw [SecondPasses, SecondBelow, runSecondStage]
  refine and_congr_right fun _ => ?_
  split_ifs with hgan hlocal hflowable
  · cases runSecondStageRpc I env c sample with
    | some score => exact hone _
    | none => exact hrule _
  · exact hrule _
  · rw [← runFlowableRuleStage_iff]
    simp only [bind_eq_ok]
    constructor
    · rintro ⟨second, ⟨check, hrun, h⟩, hlt⟩
      obtain rfl := Except.ok.inj h
      cases check with
      | ok _ => exact ⟨hlt, hrun⟩
      | error reason => exact nomatch (pyMax_threshold c reason).symm.trans hlt
    · rintro ⟨hpos, hrun⟩
      exact ⟨_, ⟨_, hrun, rfl⟩, hpos⟩
  · exact hone _

/-- With a positive second threshold, the second stage `flowable_rule` lets pass what is admissible
and not too deep. -/
theorem secondBelow_flowable (I : Interp F) (env : Env) (c : Config) (sample : Sample F)
    (htype : c.secondStageType ∈ [chars "flowable_rule", chars "flowable_rule_v1"])
    (hpos : pyLt (.finite 0) c.secondStageThreshold = true) :
    SecondBelow I env c sample ↔ AdmissibleSample I c sample ∧ Shallow I c sample := by
  have hne {name : Text} (hname : name ∉ [chars "flowable_rule", chars "flowable_rule_v1"]) :
      c.secondStageType ≠ name := by
    rintro h
    exact hname (h ▸ htype)
  rw [SecondBelow, if_neg (hne (by decide)), if_neg (hne (by decide)), if_pos htype]
  exact and_iff_right hpos

theorem passes_grey {I : Interp F} {env : Env} {c : Config} {score : PyFloat ℚ} {sample : Sample F}
    (h : Grey c score) : Passes I env c score sample ↔ SecondPasses I env c sample := by
  simp [passes_iff, h, h.1]

/-- What is below a score that passes passes too. -/
theorem passes_of_le {I : Interp F} {env : Env} {c : Config} {score score' : PyFloat ℚ}
    {sample : Sample F} (hle : pyLe score' score = true) (h : Passes I env c score sample) :
    Passes I env c score' sample := by
  rw [passes_iff] at h ⊢
  rcases h with hlow | ⟨hscore, hsecond⟩
  · exact .inl (pyLe_trans hle hlow)
  · cases hlow : pyLe score' c.tLow with
    | true => exact .inl rfl
    | false =>
      refine .inr ⟨⟨hlow, ?_⟩, hsecond⟩
      cases hhigh : pyLe c.tHigh score' with
      | true => exact nomatch hscore.2.symm.trans (pyLe_trans hhigh hle)
      | false => rfl

/-- A second score that is NaN lets nothing pass. -/
theorem not_passes_of_second_nan {I : Interp F} {env : Env} {c : Config} {score : PyFloat ℚ}
    {sample : Sample F} (hgrey : Grey c score) {second : Second}
    (hrun : runSecondStage I env c sample = .ok second) (hnan : second.score = .nan) :
    ¬ Passes I env c score sample := by
  rw [passes_grey hgrey]
  rintro ⟨-, second', hrun', hlt⟩
  obtain rfl := Except.ok.inj (hrun.symm.trans hrun')
  rw [hnan, pyLt_nan] at hlt
  exact nomatch hlt

/-- A first score that is NaN passes where the second stage lets the sample pass. -/
theorem passes_nan_iff (I : Interp F) (env : Env) (c : Config) (sample : Sample F) :
    Passes I env c .nan sample ↔ c.enableSecondStage = true ∧ SecondBelow I env c sample := by
  rw [passes_grey (grey_nan c), secondPasses_iff]

/-- What is asked of the decision about a score. -/
structure Sound (I : Interp F) (env : Env) (c : Config) (score : PyFloat ℚ) (sample : Sample F) :
    Prop where
  downward : Passes I env c score sample → ∀ score', pyLe score' score = true →
    Passes I env c score' sample
  first : score = .nan → ¬ Passes I env c score sample
  second : Grey c score → ∀ second, runSecondStage I env c sample = .ok second →
    second.score = .nan → ¬ Passes I env c score sample
  flowable : c.secondStageType ∈ [chars "flowable_rule", chars "flowable_rule_v1"] →
    pyLt (.finite 0) c.secondStageThreshold = true →
    pyLt c.tLow score = true → pyLt score c.tHigh = true →
    (Passes I env c score sample ↔ AdmissibleSample I c sample)

/-- The decision is as it should be just where a score that is NaN finds no second score below the
threshold, and where an admissible sample between the thresholds finds the second stage enabled and
its checks able to walk it. -/
theorem decide_sound_iff (I : Interp F) (env : Env) (c : Config) (score : PyFloat ℚ)
    (sample : Sample F) :
    Sound I env c score sample ↔
      (score = .nan → ¬ (c.enableSecondStage = true ∧ SecondBelow I env c sample)) ∧
      (c.secondStageType ∈ [chars "flowable_rule", chars "flowable_rule_v1"] →
        pyLt (.finite 0) c.secondStageThreshold = true →
        pyLt c.tLow score = true → pyLt score c.tHigh = true → AdmissibleSample I c sample →
        c.enableSecondStage = true ∧ Shallow I c sample) := by
  have hflowable (htype : c.secondStageType ∈ [chars "flowable_rule", chars "flowable_rule_v1"])
      (hpos : pyLt (.finite 0) c.secondStageThreshold = true)
      (hlow : pyLt c.tLow score = true) (hhigh : pyLt score c.tHigh = true) :
      Passes I env c score sample ↔ c.enableSecondStage = true ∧
        AdmissibleSample I c sample ∧ Shallow I c sample := by
    rw [passes_grey (grey_of_between hlow hhigh), secondPasses_iff,
      secondBelow_flowable I env c sample htype hpos]
  constructor
  · intro h
    refine ⟨fun hnan => ?_, fun htype hpos hlow hhigh hadmissible => ?_⟩
    · have hno := h.first hnan
      rwa [hnan, passes_nan_iff] at hno
    · have hpasses := (h.flowable htype hpos hlow hhigh).mpr hadmissible
      obtain ⟨henable, -, hshallow⟩ := (hflowable htype hpos hlow hhigh).mp hpasses
      exact ⟨henable, hshallow⟩
  · rintro ⟨hnan, hbetween⟩
    refine ⟨fun h score' hle => passes_of_le hle h, ?_, fun hgrey second hrun hsecond =>
      not_passes_of_second_nan hgrey hrun hsecond, fun htype hpos hlow hhigh => ?_⟩
    · rintro rfl
      rw [passes_nan_iff]
      exact hnan rfl
    · rw [hflowable htype hpos hlow hhigh]
      refine ⟨fun h => h.2.1, fun hadmissible => ?_⟩
      obtain ⟨henable, hshallow⟩ := hbetween htype hpos hlow hhigh hadmissible
      exact ⟨henable, hadmissible, hshallow⟩

/-! ## What raises -/

/-- The value of the sample can be written and walked. -/
def RuleStageSafe (I : Interp F) (sample : Sample F) : Prop :=
  ∀ v, normalizeSampleObject I sample = some v →
    I.overflows .ruleDumps v = false ∧ encodable v = true ∧ I.overflows .ruleDepth v = false

/-- The object of the sample, if its fields are allowed, can be walked. -/
def FlowableStageSafe (I : Interp F) (c : Config) (sample : Sample F) : Prop :=
  ∀ payload, normalizeSampleBytes I c sample = some payload →
    ∀ ms, loadsBytes I payload = some (.dict ms) → rootFields c ms = .ok () →
      I.overflows .flowableDepth (.dict ms) = false

/-- The stage that is run is safe. -/
structure StageSafe (I : Interp F) (env : Env) (c : Config) (sample : Sample F) : Prop where
  gan : c.secondStageType = chars "gan" → runSecondStageRpc I env c sample = none →
    RuleStageSafe I sample
  rule : c.secondStageType = chars "rule" → RuleStageSafe I sample
  flowable : c.secondStageType ∈ [chars "flowable_rule", chars "flowable_rule_v1"] →
    FlowableStageSafe I c sample

theorem returns_runRuleStage (I : Interp F) (env : Env) (c : Config) (sample : Sample F) :
    Returns (runRuleStage I env c sample) ↔ RuleStageSafe I sample := by
  rw [runRuleStage, RuleStageSafe]
  cases normalizeSampleObject I sample with
  | none => exact iff_of_true (returns_ok _) fun _ h => nomatch h
  | some v =>
    simp only [returns_bind, dumpsBytes_eq_ok, Option.some.injEq, forall_eq']
    split_ifs with hdeep <;> simp [hdeep]

theorem returns_runFlowableRuleStage (I : Interp F) (c : Config) (sample : Sample F) :
    Returns (runFlowableRuleStage I c sample) ↔ FlowableStageSafe I c sample := by
  rw [runFlowableRuleStage, FlowableStageSafe]
  cases normalizeSampleBytes I c sample with
  | none => exact iff_of_true (returns_ok _) fun _ h => nomatch h
  | some payload =>
    simp only [Option.some.injEq, forall_eq']
    generalize loadsBytes I payload = parsed
    match parsed with
    | none => exact iff_of_true (returns_ok _) fun _ h => nomatch h
    | some .null | some (.bool _) | some (.int _) | some (.float _) | some (.str _)
    | some (.list _) =>
      exact iff_of_true (returns_ok _) fun _ h => nomatch h
    | some (.dict ms) =>
      simp only [Option.some.injEq, Value.dict.injEq, forall_eq']
      cases rootFields c ms with
      | error reason => exact iff_of_true (returns_ok _) fun h => nomatch h
      | ok _ =>
        dsimp only
        split_ifs with hdeep <;> simp [hdeep]

/-- The second stage returns when the stage that it runs is safe. -/
theorem returns_runSecondStage (I : Interp F) (env : Env) (c : Config) (sample : Sample F) :
    Returns (runSecondStage I env c sample) ↔ StageSafe I env c sample := by
  rw [runSecondStage]
  split_ifs with hgan hrule hflowable
  · have hsafe : StageSafe I env c sample ↔
        (runSecondStageRpc I env c sample = none → RuleStageSafe I sample) := by
      refine ⟨fun h => h.gan hgan, fun h => ⟨fun _ => h, fun hrule => ?_, fun hflowable => ?_⟩⟩
      · exact absurd (hgan.symm.trans hrule) (by decide)
      · rw [hgan] at hflowable
        exact absurd hflowable (by decide)
    rw [hsafe]
    cases runSecondStageRpc I env c sample with
    | some score => exact iff_of_true (returns_ok _) fun h => nomatch h
    | none =>
      dsimp only
      rw [returns_bind_iff fun _ => returns_ok _, returns_runRuleStage]
      exact ⟨fun h _ => h, fun h => h rfl⟩
  · rw [returns_bind_iff fun _ => returns_ok _, returns_runRuleStage]
    refine ⟨fun h => ⟨fun hgan' => absurd hgan' hgan, fun _ => h, fun hflowable => ?_⟩,
      fun h => h.rule hrule⟩
    rw [hrule] at hflowable
    exact absurd hflowable (by decide)
  · rw [returns_bind_iff fun _ => returns_ok _, returns_runFlowableRuleStage]
    exact ⟨fun h => ⟨fun hgan' => absurd hgan' hgan, fun hrule' => absurd hrule' hrule, fun _ => h⟩,
      fun h => h.flowable hflowable⟩
  · exact iff_of_true (returns_ok _) ⟨fun hgan' => absurd hgan' hgan,
      fun hrule' => absurd hrule' hrule, fun hflowable' => absurd hflowable' hflowable⟩

theorem returns_decide (I : Interp F) (env : Env) (c : Config) (score : PyFloat ℚ)
    (sample : Sample F) :
    Returns (decide I env c score sample) ↔
      (Grey c score → c.enableSecondStage = true → StageSafe I env c sample) := by
  rw [decide, Grey]
  split_ifs with hlow hhigh hsecond
  · simp [hlow]
  · simp [hhigh]
  · have htail (second : Second) : Returns (if pyLt second.score c.secondStageThreshold then
        (.ok ⟨true, .secondPass second, score⟩ : Except Raised Decision)
        else .ok ⟨false, .secondReject second, score⟩) := by
      split_ifs <;> exact returns_ok _
    rw [returns_bind_iff htail, returns_runSecondStage]
    simp [hlow, hhigh, hsecond]
  · simp [hsecond]

/-! ## A first score that is not a number -/

/-- No second model answers. -/
def noGan : Env where
  gan _ := none
  round6 x := x

def flowableConfig : Config :=
  { Config.default (.finite 0) (.finite 1) rfl with
    enableSecondStage := true
    secondStageType := chars "flowable_rule" }

def processMembers : List (Text × Value JsonCodec.Special) :=
  [(chars "processDefinitionKey", .str (chars "p"))]

/-- `{"processDefinitionKey":"p"}` -/
def processBody : Bytes :=
  Utf8.encode (JsonCodec.dumps plainInterp.floats utf8Style (.dict processMembers))

theorem processBody_object :
    SampleObject plainInterp flowableConfig (.bytes processBody) processMembers := by
  have hwf : (Value.dict processMembers).Wf :=
    ⟨by decide, ⟨by decide, by decide⟩, ⟨by decide, by decide⟩, trivial⟩
  exact ⟨processBody, rfl, by decide, loadsBytes_encode plainInterp hwf (by decide)⟩

theorem processMembers_admissible : Admissible flowableConfig processMembers :=
  ⟨.inl rfl, by decide, by decide, by decide, chars "p", [], rfl, .inl rfl,
    .inr ⟨.inl rfl, rfl⟩, by decide, fun v hv => (nomatch hv), fun name hname => (nomatch hname)⟩

/-- A score that is NaN passes. -/
theorem nan_unsound : ¬ Sound plainInterp noGan flowableConfig .nan (.bytes processBody) := by
  intro h
  have hbelow := (secondBelow_flowable plainInterp noGan flowableConfig (.bytes processBody)
    (by decide) rfl).mpr ⟨⟨_, processBody_object, processMembers_admissible⟩, fun _ _ => rfl⟩
  exact h.first rfl ((passes_nan_iff ..).mpr ⟨rfl, hbelow⟩)

end DecisionEngine

end AflNv
