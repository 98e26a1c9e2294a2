import AflNv.DecisionEngine

/-!
# The validation of a body

`body_validate` of `nv_body_valid.py`.  A JSON body is normalised: read, and written without
blanks and escapes.  The limits and the rules of the endpoint are checked, and the score of a model
is decided on.  The scenarios `multipart_upload` and `content_update` check the raw bytes and decide
on their score in the same way.

* `validateJson_again`: the normalised body is validated like the body that it was made of.
* `Safe` says which bodies let `body_validate` return.  A JSON body must not hold a surrogate, which
  `\ud800` puts into it, since writing it as UTF-8 raises; and the recursions on its value must fit
  on the stack.
* `bodyValidate_total_iff`: `body_validate` returns, and validates the normalised body alike, for
  those bodies and no others.
-/

namespace AflNv

open AflNv.Lib

namespace BodyValidate

open AflNv.Lib.JsonCodec (Text Value Plain chars)
open AflNv.Lib.Unicode (isSpace)
open AflNv.PythonJson
open AflNv.BodyRules (Check Schema FloatEq reject validateBody)
open AflNv.DecisionEngine (Config Env Decision decide Grey StageSafe)

variable {F : Type}

/-! ## Rules and results -/

structure EndpointRules (F : Type) where
  /-- `transport` is `url_query` -/
  urlQuery : Bool
  /-- `request_body` is `none` -/
  bodyNone : Bool
  schema : Schema F
  query : Schema F

structure Rules (F : Type) where
  maxBytes : ℤ
  maxDepth : ℤ
  maxKeys : ℤ
  maxString : ℤ
  endpoint : Text → EndpointRules F

structure Result (F : Type) where
  ok : Bool
  reason : Text
  score : Option (PyFloat ℚ)
  scoreRpcOk : Bool
  normBody : Option Bytes
  query : Option (Value F)
  body : Option (Value F)
  decision : Option Decision

/-- A result without a score. -/
def Result.unscored (ok : Bool) (reason : Text) (normBody : Option Bytes) : Result F :=
  ⟨ok, reason, none, false, normBody, none, none, none⟩

/-- What the validation uses beside the rules: the scorer, which may give no answer, the
configuration of the decision, if there is one, and what the decision asks for. -/
structure Scoring where
  scorer : Bytes → Option (PyFloat ℚ)
  config : Option Config
  env : Env

/-! ## The steps -/

/-- `{}` -/
def emptyObject : Bytes := [123, 125]

def normalizeJsonBodyOrNone (I : Interp F) (data : Bytes) : Except Raised (Option Bytes) :=
  if data = [] then .ok (some emptyObject)
  else match Utf8.decode data with
    | none => .ok none
    | some text =>
      let text := Unicode.strip text
      if text = [] then .ok (some emptyObject)
      else if text.head? ≠ some 123 ∧ text.head? ≠ some 91 then .ok none
      else match loads I text with
        | none => .ok none
        | some obj => do
          let norm ← dumpsBytes I .normalizeDumps obj
          .ok (some norm)

/-- The limits on a value. -/
def withinLimits (rules : Rules F) (obj : Value F) : Check := do
  reject (rules.maxDepth < jsonDepth obj 0) "too_deep"
  reject (rules.maxKeys < jsonKeyCount obj) "too_many_keys"
  reject (rules.maxString < maxStringLenInJson obj) "string_too_long"

def validateCommonLimits (I : Interp F) (rules : Rules F) (norm : Bytes) (obj : Value F) :
    Except Raised Check :=
  if rules.maxBytes < norm.length then .ok (.error (chars "too_large"))
  else if I.overflows .commonLimits obj then .error .recursionError
  else .ok (withinLimits rules obj)

/-- A result of the validation of a query envelope. -/
def Result.envelope (ok : Bool) (reason : Text) (norm : Bytes) (query body : Option (Value F)) :
    Result F :=
  ⟨ok, reason, none, false, some norm, query, body, none⟩

def validateQueryEnvelope (E : FloatEq F) (norm : Bytes) (obj : Value F) (ep : EndpointRules F) :
    Result F :=
  match obj with
  | .dict ms =>
    if ms.any fun m => m.1 ≠ chars "query" ∧ m.1 ≠ chars "body" then
      .envelope false (chars "unknown_query_envelope_field") norm none none
    else match ms.lookup (chars "query") with
      | some (.dict query) =>
        let body := (ms.lookup (chars "body")).filter fun v => !(v matches .null)
        if ep.bodyNone ∧ body.isSome then .envelope false (chars "body_not_allowed") norm none none
        else match validateBody E (.dict query) ep.query with
          | .error reason => .envelope false reason norm (some (.dict query)) body
          | .ok () => .envelope true (chars "ok") norm (some (.dict query)) body
      | _ => .envelope false (chars "wrong_query_type") norm none none
  | _ => .envelope false (chars "wrong_query_envelope_type") norm none none

/-- The end of each scenario: the score of a body that the rules accept. -/
def scored (I : Interp F) (s : Scoring) (norm : Bytes) : Except Raised (Result F) :=
  match s.scorer norm with
  | none => .ok (.unscored true (chars "ok") (some norm))
  | some score =>
    match s.config with
    | none => .ok ⟨true, chars "ok", some score, true, some norm, none, none, none⟩
    | some config => do
      let d ← decide I s.env config score (.bytes norm)
      let reason := if d.pass then chars "ok" else chars "score_reject"
      .ok ⟨d.pass, reason, some score, true, some norm, none, none, some d⟩

/-- What follows the normalisation. -/
def validateNorm (I : Interp F) (E : FloatEq F) (rules : Rules F) (s : Scoring) (endpoint : Text)
    (norm : Bytes) : Except Raised (Result F) :=
  match loadsBytes I norm with
  | none => .ok (.unscored false (chars "invalid_json") none)
  | some obj => do
    match ← validateCommonLimits I rules norm obj with
    | .error reason => .ok (.unscored false reason (some norm))
    | .ok () =>
      let ep := rules.endpoint endpoint
      if ep.urlQuery then .ok (validateQueryEnvelope E norm obj ep)
      else match validateBody E obj ep.schema with
        | .error reason => .ok (.unscored false reason (some norm))
        | .ok () => scored I s norm

def validateJson (I : Interp F) (E : FloatEq F) (rules : Rules F) (s : Scoring) (endpoint : Text)
    (raw : Bytes) : Except Raised (Result F) := do
  match ← normalizeJsonBodyOrNone I raw with
  | none => .ok (.unscored false (chars "invalid_json") none)
  | some norm => validateNorm I E rules s endpoint norm

/-- The branch of `content_update`. -/
def validateContent (I : Interp F) (rules : Rules F) (s : Scoring) (raw : Bytes) :
    Except Raised (Result F) :=
  if raw = [] then .ok (.unscored false (chars "empty_body") none)
  else match Utf8.decode raw with
    | none => .ok (.unscored false (chars "invalid_utf8") none)
    | some _ =>
      if rules.maxBytes < raw.length then .ok (.unscored false (chars "too_large") (some raw))
      else scored I s raw

/-- `name="field"` -/
def fieldMark (field : String) : Text := chars "name=\"" ++ (chars field ++ [34])

/-- What the branch of `multipart_upload` finds missing in a text. -/
def missingPart (text : Text) : Option Text :=
  if (Substring.cut (chars "--") text).isNone then some (chars "no_multipart_boundary")
  else
    let missing := ["name", "nodeType", "filedata"].find? fun field =>
      (Substring.cut (fieldMark field) text).isNone
    missing.map fun field => chars "missing_required_field_" ++ chars field

/-- The branch of `multipart_upload`. -/
def validateMultipart (I : Interp F) (rules : Rules F) (s : Scoring) (raw : Bytes) :
    Except Raised (Result F) :=
  if raw = [] then .ok (.unscored false (chars "empty_body") none)
  else match Utf8.decode raw with
    | none => .ok (.unscored false (chars "invalid_utf8") none)
    | some text =>
      match missingPart text with
      | some reason => .ok (.unscored false reason (some raw))
      | none =>
        if rules.maxBytes < raw.length then .ok (.unscored false (chars "too_large") (some raw))
        else scored I s raw

inductive Scenario where
  | multipartUpload
  | contentUpdate
  | json
  deriving DecidableEq

def bodyValidate (I : Interp F) (E : FloatEq F) (rules : Rules F) (s : Scoring) (endpoint : Text) :
    Scenario → Bytes → Except Raised (Result F)
  | .multipartUpload => validateMultipart I rules s
  | .contentUpdate => validateContent I rules s
  | .json => validateJson I E rules s endpoint

/-! ## The value of a body -/

/-- The value that a JSON body denotes; an empty body stands for an empty object. -/
def bodyValue (I : Interp F) (data : Bytes) : Option (Value F) :=
  if data = [] then some (.dict [])
  else (Utf8.decode data).bind fun text =>
    if Unicode.strip text = [] then some (.dict [])
    else if (Unicode.strip text).head? ≠ some 123 ∧ (Unicode.strip text).head? ≠ some 91 then none
    else loads I (Unicode.strip text)

/-- The text of a value as bytes. -/
def normal (I : Interp F) (v : Value F) : Bytes :=
  Utf8.encode (JsonCodec.dumps I.floats utf8Style v)

theorem dumpsBytes_nil (I : Interp F) (call : Call) :
    dumpsBytes I call (.dict []) = .ok emptyObject := by
  rw [dumpsBytes_eq, I.overflows_nil]
  rfl

theorem normalizeJsonBodyOrNone_eq (I : Interp F) (data : Bytes) :
    normalizeJsonBodyOrNone I data =
      match bodyValue I data with
      | none => .ok none
      | some v => dumpsBytes I .normalizeDumps v >>= fun norm => .ok (some norm) := by
  rw [normalizeJsonBodyOrNone, bodyValue]
  split_ifs with hempty
  · dsimp only
    rw [dumpsBytes_nil]
    rfl
  · cases Utf8.decode data with
    | none => rfl
    | some text =>
      dsimp only [Option.bind_some]
      split_ifs with hblank hopen
      · dsimp only
        rw [dumpsBytes_nil]
        rfl
      · rfl
      · cases loads I (Unicode.strip text) <;> rfl

/-- An object or an array. -/
def IsContainer : Value F → Prop
  | .dict _ | .list _ => True
  | _ => False

theorem isContainer_of_value {N : JsonCodec.Floats F} {n c : ℕ} {text rest : Text} {v : Value F}
    (hc : c = 123 ∨ c = 91) (h : JsonCodec.value N n (c :: text) = some (v, rest)) :
    IsContainer v := by
  cases n with
  | zero => exact nomatch h
  | succ n =>
    rw [JsonCodec.value, if_neg (by omega)] at h
    rcases hc with rfl | rfl
    · rw [if_pos rfl] at h
      split at h
      · obtain rfl := (Prod.mk.inj (Option.some.inj h)).1
        trivial
      · obtain ⟨r, -, hr⟩ := Option.map_eq_some_iff.mp h
        obtain rfl := (Prod.mk.inj hr).1
        trivial
    · rw [if_neg (by decide), if_pos rfl] at h
      split at h
      · obtain rfl := (Prod.mk.inj (Option.some.inj h)).1
        trivial
      · obtain ⟨r, -, hr⟩ := Option.map_eq_some_iff.mp h
        obtain rfl := (Prod.mk.inj hr).1
        trivial

theorem isContainer_of_read {N : JsonCodec.Floats F} {text : Text} {v : Value F}
    (hhead : text.head? = some 123 ∨ text.head? = some 91)
    (h : JsonCodec.read N text = some v) : IsContainer v := by
  cases text with
  | nil => exact absurd hhead (by decide)
  | cons c text =>
    have hc : c = 123 ∨ c = 91 := hhead.imp Option.some.inj Option.some.inj
    have hws : JsonCodec.isWs c = false := by rcases hc with rfl | rfl <;> rfl
    obtain ⟨⟨w, rest⟩, hvalue, hrest⟩ := Option.bind_eq_some_iff.mp h
    rw [JsonCodec.skipWs_cons hws] at hvalue
    dsimp only at hrest
    split_ifs at hrest
    exact Option.some.inj hrest ▸ isContainer_of_value hc hvalue

theorem plain_strip {text : Text} (h : Plain text) : Plain (Unicode.strip text) := fun c hc =>
  h c ((Substring.trim_infix isSpace text).subset hc)

/-- A body denotes an object or an array, with the strings that a text can hold. -/
theorem bodyValue_spec {I : Interp F} {data : Bytes} {v : Value F} (h : bodyValue I data = some v) :
    v.Wf ∧ IsContainer v := by
  have hnil : (Value.dict [] : Value F).Wf ∧ IsContainer (Value.dict [] : Value F) :=
    ⟨⟨List.nodup_nil, trivial⟩, trivial⟩
  rw [bodyValue] at h
  split_ifs at h
  · exact Option.some.inj h ▸ hnil
  · obtain ⟨text, htext, h⟩ := Option.bind_eq_some_iff.mp h
    split_ifs at h with hblank hopen
    · exact Option.some.inj h ▸ hnil
    · unfold loads at h
      split_ifs at h
      have hhead : (Unicode.strip text).head? = some 123 ∨
          (Unicode.strip text).head? = some 91 := by
        rwa [not_and_or, not_not, not_not] at hopen
      exact ⟨JsonCodec.read_wf I.floats (plain_strip (plain_of_decode htext)) h,
        isContainer_of_read hhead h⟩

theorem suffix_dumpsItems (N : JsonCodec.Floats F) (vs : List (Value F)) :
    [93] <:+ JsonCodec.dumpsItems N utf8Style vs := by
  induction vs with
  | nil => exact List.suffix_rfl
  | cons v vs ih =>
    rw [JsonCodec.dumpsItems]
    exact ((ih.trans (List.suffix_append _ _)).trans (List.suffix_append _ _)).trans
      (List.suffix_cons _ _)

theorem suffix_dumpsMembers (N : JsonCodec.Floats F) (ms : List (Text × Value F)) :
    [125] <:+ JsonCodec.dumpsMembers N utf8Style ms := by
  induction ms with
  | nil => exact List.suffix_rfl
  | cons m ms ih =>
    obtain ⟨key, v⟩ := m
    rw [JsonCodec.dumpsMembers]
    refine List.IsSuffix.trans ?_ (List.suffix_cons _ _)
    refine List.IsSuffix.trans ?_ (List.suffix_append _ _)
    refine List.IsSuffix.trans ?_ (List.suffix_append _ _)
    refine List.IsSuffix.trans ?_ (List.suffix_cons _ _)
    exact (ih.trans (List.suffix_append _ _)).trans (List.suffix_append _ _)

/-- A container is written between brackets. -/
theorem brackets_dumps (N : JsonCodec.Floats F) {v : Value F} (hv : IsContainer v) :
    ((JsonCodec.dumps N utf8Style v).head? = some 123 ∨
        (JsonCodec.dumps N utf8Style v).head? = some 91) ∧
      ([125] <:+ JsonCodec.dumps N utf8Style v ∨ [93] <:+ JsonCodec.dumps N utf8Style v) := by
  match v, hv with
  | .dict [], _ => exact ⟨.inl rfl, .inl (List.suffix_cons _ _)⟩
  | .list [], _ => exact ⟨.inr rfl, .inr (List.suffix_cons _ _)⟩
  | .list (x :: xs), _ =>
    refine ⟨.inr rfl, .inr ?_⟩
    rw [JsonCodec.dumps]
    exact ((suffix_dumpsItems N xs).trans (List.suffix_append _ _)).trans (List.suffix_cons _ _)
  | .dict ((key, x) :: ms), _ =>
    refine ⟨.inl rfl, .inl ?_⟩
    rw [JsonCodec.dumps]
    refine List.IsSuffix.trans ?_ (List.suffix_cons _ _)
    refine List.IsSuffix.trans ?_ (List.suffix_append _ _)
    refine List.IsSuffix.trans ?_ (List.suffix_cons _ _)
    exact ((suffix_dumpsMembers N ms).trans (List.suffix_append _ _)).trans
      (List.suffix_append _ _)

theorem strip_dumps (N : JsonCodec.Floats F) {v : Value F} (hv : IsContainer v) :
    Unicode.strip (JsonCodec.dumps N utf8Style v) = JsonCodec.dumps N utf8Style v := by
  have hlast {c : ℕ} (hc : [c] <:+ JsonCodec.dumps N utf8Style v) (hspace : isSpace c = false) :
      ∀ d ∈ (JsonCodec.dumps N utf8Style v).getLast?, isSpace d = false := by
    obtain ⟨lead, hlead⟩ := hc
    intro d hd
    rw [← hlead, List.getLast?_append_of_ne_nil _ (List.cons_ne_nil c [])] at hd
    exact Option.some.inj hd ▸ hspace
  obtain ⟨hhead, hend⟩ := brackets_dumps N hv
  refine Substring.trim_eq_self isSpace (fun c hc => ?_) ?_
  · rcases hhead with h | h <;>
    · rw [h] at hc
      exact Option.some.inj hc ▸ rfl
  · exact hend.elim (fun h => hlast h rfl) fun h => hlast h rfl

/-- The text of an object or an array is taken as it stands. -/
theorem bodyValue_normal {I : Interp F} {v : Value F} (hwf : v.Wf) (hv : IsContainer v)
    (henc : encodable v = true) (hloads : loadsBytes I (normal I v) ≠ none) :
    bodyValue I (normal I v) = some v := by
  have hbrackets := (brackets_dumps I.floats hv).1
  have hscalar := encodes_iff.mp ((encodes_dumps (w := utf8Style) rfl I.floats v).trans henc)
  have hdecode : Utf8.decode (normal I v) = some (JsonCodec.dumps I.floats utf8Style v) :=
    Utf8.decode_encode hscalar
  have hread := loadsBytes_encode I hwf henc
  have hne : normal I v ≠ [] := by
    intro h
    rw [h] at hdecode
    rw [← Option.some.inj hdecode] at hbrackets
    exact absurd hbrackets (by decide)
  have htext : JsonCodec.dumps I.floats utf8Style v ≠ [] := by
    intro h
    rw [h] at hbrackets
    exact absurd hbrackets (by decide)
  have hsame : loads I (JsonCodec.dumps I.floats utf8Style v) = loadsBytes I (normal I v) := by
    rw [loadsBytes, hdecode]
    rfl
  rw [bodyValue, if_neg hne, hdecode]
  dsimp only [Option.bind_some]
  rw [strip_dumps I.floats hv, if_neg htext, if_neg (by tauto), hsame]
  show loadsBytes I (Utf8.encode (JsonCodec.dumps I.floats utf8Style v)) = some v
  rw [hread]
  refine if_neg fun hrefuses => hloads ?_
  show loadsBytes I (Utf8.encode (JsonCodec.dumps I.floats utf8Style v)) = none
  rw [hread, if_pos hrefuses]

/-! ## Validating the normalised body -/

theorem scored_normBody {I : Interp F} {s : Scoring} {norm : Bytes} {r : Result F}
    (h : scored I s norm = .ok r) : r.normBody = some norm := by
  rw [scored] at h
  split at h
  · exact Except.ok.inj h ▸ rfl
  · split at h
    · exact Except.ok.inj h ▸ rfl
    · obtain ⟨d, -, h⟩ := bind_eq_ok.mp h
      exact Except.ok.inj h ▸ rfl

theorem validateQueryEnvelope_normBody (E : FloatEq F) (norm : Bytes) (obj : Value F)
    (ep : EndpointRules F) : (validateQueryEnvelope E norm obj ep).normBody = some norm := by
  unfold validateQueryEnvelope
  split
  · split_ifs
    · rfl
    · split
      · dsimp only
        split_ifs
        · rfl
        · split <;> rfl
      · rfl
  · rfl

variable {I : Interp F} {E : FloatEq F} {rules : Rules F} {s : Scoring} {endpoint : Text}

theorem validateNorm_normBody {norm n : Bytes} {r : Result F}
    (h : validateNorm I E rules s endpoint norm = .ok r) (hn : r.normBody = some n) :
    n = norm ∧ loadsBytes I norm ≠ none := by
  rw [validateNorm] at h
  cases hloads : loadsBytes I norm with
  | none =>
    rw [hloads] at h
    rw [← Except.ok.inj h] at hn
    exact nomatch hn
  | some obj =>
    refine ⟨?_, by simp⟩
    rw [hloads] at h
    obtain ⟨check, -, h⟩ := bind_eq_ok.mp h
    have hnorm : r.normBody = some norm := by
      cases check with
      | error reason => exact Except.ok.inj h ▸ rfl
      | ok _ =>
        dsimp only at h
        split_ifs at h
        · exact Except.ok.inj h ▸ validateQueryEnvelope_normBody E norm obj _
        · split at h
          · exact Except.ok.inj h ▸ rfl
          · exact scored_normBody h
    exact Option.some.inj (hn.symm.trans hnorm)

/-- A normalised body is validated like the body that it was made of. -/
theorem validateJson_again {raw n : Bytes} {r : Result F}
    (h : validateJson I E rules s endpoint raw = .ok r) (hn : r.normBody = some n) :
    validateJson I E rules s endpoint n = .ok r := by
  rw [validateJson, normalizeJsonBodyOrNone_eq] at h ⊢
  cases hvalue : bodyValue I raw with
  | none =>
    rw [hvalue] at h
    rw [← Except.ok.inj h] at hn
    exact nomatch hn
  | some v =>
    rw [hvalue] at h
    obtain ⟨hwf, hcontainer⟩ := bodyValue_spec hvalue
    obtain ⟨parsed, hparsed, hnorm⟩ := bind_eq_ok.mp h
    obtain ⟨norm, hdumps, hok⟩ := bind_eq_ok.mp hparsed
    obtain rfl := Except.ok.inj hok
    obtain ⟨rfl, hloads⟩ := validateNorm_normBody hnorm hn
    obtain ⟨⟨-, henc⟩, rfl⟩ := dumpsBytes_eq_ok.mp hdumps
    have hagain := bodyValue_normal hwf hcontainer henc hloads
    unfold normal at hagain
    rw [hagain]
    exact h

/-! ## The bodies that are validated -/

/-- The second stage, if the score of the body calls for it, is safe. -/
def ScoreSafe (I : Interp F) (s : Scoring) (norm : Bytes) : Prop :=
  ∀ score, s.scorer norm = some score → ∀ config, s.config = some config →
    Grey config score → config.enableSecondStage = true →
      StageSafe I s.env config (.bytes norm)

/-- A value of a JSON body: none of its strings holds a surrogate, and what is done with it fits on
the stack. -/
structure JsonSafe (I : Interp F) (E : FloatEq F) (rules : Rules F) (s : Scoring) (endpoint : Text)
    (v : Value F) : Prop where
  written : I.overflows .normalizeDumps v = false
  noSurrogate : encodable v = true
  walked : I.refuses (JsonCodec.dumps I.floats utf8Style v) = false →
    ((normal I v).length : ℤ) ≤ rules.maxBytes → I.overflows .commonLimits v = false
  judged : I.refuses (JsonCodec.dumps I.floats utf8Style v) = false →
    ((normal I v).length : ℤ) ≤ rules.maxBytes → withinLimits rules v = .ok () →
    (rules.endpoint endpoint).urlQuery = false →
    validateBody E v (rules.endpoint endpoint).schema = .ok () → ScoreSafe I s (normal I v)

/-- The inputs on which `body_validate` returns. -/
def Safe (I : Interp F) (E : FloatEq F) (rules : Rules F) (s : Scoring) (endpoint : Text) :
    Scenario → Bytes → Prop
  | .multipartUpload, raw => ∀ text, raw ≠ [] → Utf8.decode raw = some text →
      missingPart text = none → (raw.length : ℤ) ≤ rules.maxBytes → ScoreSafe I s raw
  | .contentUpdate, raw => ∀ text, raw ≠ [] → Utf8.decode raw = some text →
      (raw.length : ℤ) ≤ rules.maxBytes → ScoreSafe I s raw
  | .json, raw => ∀ v, bodyValue I raw = some v → JsonSafe I E rules s endpoint v

theorem returns_scored (norm : Bytes) : Returns (scored I s norm) ↔ ScoreSafe I s norm := by
  rw [scored, ScoreSafe]
  cases s.scorer norm with
  | none => exact iff_of_true (returns_ok _) fun _ h => nomatch h
  | some score =>
    simp only [Option.some.injEq, forall_eq']
    cases s.config with
    | none => exact iff_of_true (returns_ok _) fun _ h => nomatch h
    | some config =>
      simp only [Option.some.injEq, forall_eq']
      exact (returns_bind_iff fun _ => returns_ok _).trans
        (DecisionEngine.returns_decide I s.env config score (.bytes norm))

theorem returns_validateContent (raw : Bytes) :
    Returns (validateContent I rules s raw) ↔ Safe I E rules s endpoint .contentUpdate raw := by
  rw [validateContent, Safe]
  by_cases hempty : raw = []
  · rw [if_pos hempty]
    exact iff_of_true (returns_ok _) fun _ h => absurd hempty h
  rw [if_neg hempty]
  cases Utf8.decode raw with
  | none => exact iff_of_true (returns_ok _) fun _ _ h => nomatch h
  | some text =>
    dsimp only
    split_ifs with hsize
    · exact iff_of_true (returns_ok _) fun _ _ _ h => absurd h (not_le.mpr hsize)
    · rw [returns_scored]
      exact ⟨fun h _ _ _ _ => h, fun h => h text hempty rfl (not_lt.mp hsize)⟩

theorem returns_validateMultipart (raw : Bytes) :
    Returns (validateMultipart I rules s raw) ↔
      Safe I E rules s endpoint .multipartUpload raw := by
  rw [validateMultipart, Safe]
  by_cases hempty : raw = []
  · rw [if_pos hempty]
    exact iff_of_true (returns_ok _) fun _ h => absurd hempty h
  rw [if_neg hempty]
  cases Utf8.decode raw with
  | none => exact iff_of_true (returns_ok _) fun _ _ h => nomatch h
  | some text =>
    cases hmissing : missingPart text with
    | some reason =>
      dsimp only
      rw [hmissing]
      refine iff_of_true (returns_ok _) fun text' _ htext hnone => ?_
      rw [← Option.some.inj htext, hmissing] at hnone
      exact nomatch hnone
    | none =>
      dsimp only
      rw [hmissing]
      dsimp only
      split_ifs with hsize
      · exact iff_of_true (returns_ok _) fun _ _ _ _ h => absurd h (not_le.mpr hsize)
      · rw [returns_scored]
        exact ⟨fun h _ _ _ _ _ => h, fun h => h text hempty rfl hmissing (not_lt.mp hsize)⟩

theorem returns_validateCommonLimits (norm : Bytes) (obj : Value F) :
    Returns (validateCommonLimits I rules norm obj) ↔
      ((norm.length : ℤ) ≤ rules.maxBytes → I.overflows .commonLimits obj = false) := by
  rw [validateCommonLimits]
  split_ifs with hsize hdeep
  · exact iff_of_true (returns_ok _) fun h => absurd h (not_le.mpr hsize)
  · simpa [hdeep] using hsize
  · exact iff_of_true (returns_ok _) fun _ => Bool.eq_false_iff.mpr hdeep

theorem validateCommonLimits_eq {norm : Bytes} {obj : Value F}
    (hsize : (norm.length : ℤ) ≤ rules.maxBytes) (hdeep : I.overflows .commonLimits obj = false) :
    validateCommonLimits I rules norm obj = .ok (withinLimits rules obj) := by
  rw [validateCommonLimits, if_neg (not_lt.mpr hsize), hdeep]
  rfl

theorem size_of_validateCommonLimits {norm : Bytes} {obj : Value F}
    (h : validateCommonLimits I rules norm obj = .ok (.ok ())) :
    (norm.length : ℤ) ≤ rules.maxBytes ∧ withinLimits rules obj = .ok () := by
  rw [validateCommonLimits] at h
  split_ifs at h with hsize hdeep
  · exact nomatch Except.ok.inj h
  · exact ⟨not_lt.mp hsize, Except.ok.inj h⟩

/-- What follows the normalisation returns when the limits can be checked and, for a body that the
rules accept, the score can be decided on. -/
theorem returns_validateNorm {norm : Bytes} {obj : Value F}
    (hloads : loadsBytes I norm = some obj) :
    Returns (validateNorm I E rules s endpoint norm) ↔
      ((norm.length : ℤ) ≤ rules.maxBytes → I.overflows .commonLimits obj = false) ∧
      ((norm.length : ℤ) ≤ rules.maxBytes → withinLimits rules obj = .ok () →
        (rules.endpoint endpoint).urlQuery = false →
        validateBody E obj (rules.endpoint endpoint).schema = .ok () → ScoreSafe I s norm) := by
  rw [← returns_validateCommonLimits, validateNorm, hloads]
  dsimp only
  rw [returns_bind]
  cases hcheck : validateCommonLimits I rules norm obj with
  | error e => exact iff_of_false (by simp) fun h => not_returns_error e h.1
  | ok check =>
    simp only [Except.ok.injEq, exists_eq_left', returns_ok, true_and]
    cases check with
    | error reason =>
      refine iff_of_true (returns_ok _) fun hsize hwithin => ?_
      have hdeep := (returns_validateCommonLimits norm obj).mp ⟨_, hcheck⟩ hsize
      rw [validateCommonLimits_eq hsize hdeep, hwithin] at hcheck
      cases Except.ok.inj hcheck
    | ok _ =>
      obtain ⟨hsize, hwithin⟩ := size_of_validateCommonLimits hcheck
      simp only [hsize, hwithin, forall_const]
      split_ifs with hquery
      · simp [hquery]
      · rw [Bool.not_eq_true] at hquery
        simp only [hquery, forall_const]
        cases validateBody E obj (rules.endpoint endpoint).schema with
        | error reason => exact iff_of_true (returns_ok _) (by simp)
        | ok _ => exact (returns_scored norm).trans (by simp)

theorem returns_validateJson (raw : Bytes) :
    Returns (validateJson I E rules s endpoint raw) ↔ Safe I E rules s endpoint .json raw := by
  rw [validateJson, normalizeJsonBodyOrNone_eq, Safe]
  cases hvalue : bodyValue I raw with
  | none => exact iff_of_true (returns_ok _) fun _ h => nomatch h
  | some v =>
    obtain ⟨hwf, -⟩ := bodyValue_spec hvalue
    simp only [Option.some.injEq, forall_eq', returns_bind, bind_eq_ok, dumpsBytes_eq_ok]
    constructor
    · rintro ⟨parsed, ⟨norm, ⟨⟨hdeep, henc⟩, rfl⟩, hok⟩, hnorm⟩
      obtain rfl := Except.ok.inj hok
      have hloads (hrefuses : I.refuses (JsonCodec.dumps I.floats utf8Style v) = false) :=
        (returns_validateNorm (by rw [loadsBytes_encode I hwf henc, hrefuses]; rfl)).mp hnorm
      exact ⟨hdeep, henc, fun h => (hloads h).1, fun h => (hloads h).2⟩
    · intro hsafe
      refine ⟨_, ⟨_, ⟨⟨hsafe.written, hsafe.noSurrogate⟩, rfl⟩, rfl⟩, ?_⟩
      have hread := loadsBytes_encode I hwf hsafe.noSurrogate
      cases hrefuses : I.refuses (JsonCodec.dumps I.floats utf8Style v) with
      | true =>
        rw [hrefuses, if_pos rfl] at hread
        show Returns (validateNorm I E rules s endpoint _)
        rw [validateNorm, hread]
        exact returns_ok _
      | false =>
        rw [hrefuses, if_neg Bool.false_ne_true] at hread
        exact (returns_validateNorm hread).mpr ⟨hsafe.walked hrefuses, hsafe.judged hrefuses⟩

/-- `body_validate` returns on the inputs that are safe and on no others; a normalised body is
validated like the body that it was made of. -/
theorem bodyValidate_total_iff (I : Interp F) (E : FloatEq F) (rules : Rules F) (s : Scoring)
    (endpoint : Text) (scenario : Scenario) (raw : Bytes) :
    (∃ r, bodyValidate I E rules s endpoint scenario raw = .ok r ∧
      (scenario = .json → ∀ n, r.normBody = some n →
        bodyValidate I E rules s endpoint scenario n = .ok r)) ↔
      Safe I E rules s endpoint scenario raw := by
  cases scenario with
  | multipartUpload =>
    rw [← @returns_validateMultipart F I E rules s endpoint]
    exact ⟨fun ⟨r, h, _⟩ => ⟨r, h⟩, fun ⟨r, h⟩ => ⟨r, h, fun h => nomatch h⟩⟩
  | contentUpdate =>
    rw [← @returns_validateContent F I E rules s endpoint]
    exact ⟨fun ⟨r, h, _⟩ => ⟨r, h⟩, fun ⟨r, h⟩ => ⟨r, h, fun h => nomatch h⟩⟩
  | json =>
    rw [← returns_validateJson]
    exact ⟨fun ⟨r, h, _⟩ => ⟨r, h⟩, fun ⟨r, h⟩ => ⟨r, h, fun _ n hn => validateJson_again h hn⟩⟩

/-! ## A surrogate in a body -/

/-- No rules but a bound on the size. -/
def openRules : Rules JsonCodec.Special where
  maxBytes := 16384
  maxDepth := 8
  maxKeys := 128
  maxString := 2048
  endpoint _ := ⟨false, false, .mk .none [] none, .mk .none [] none⟩

/-- No score. -/
def unscored : Scoring where
  scorer _ := none
  config := none
  env := DecisionEngine.noGan

def noFloats : FloatEq JsonCodec.Special where
  eq _ _ := false
  eqInt _ _ := false

/-- `["\ud800"]` -/
def surrogateText : Text := [91, 34, 92, 117, 100, 56, 48, 48, 34, 93]

theorem surrogate_raises : bodyValidate plainInterp noFloats openRules unscored []
    .json (Utf8.encode surrogateText) = .error .unicodeEncodeError := by
  have hvalue : bodyValue plainInterp (Utf8.encode surrogateText) =
      some (.list [.str [0xD800]]) := by
    rw [bodyValue, if_neg (by decide), Utf8.decode_encode (by decide)]
    rfl
  rw [bodyValidate, validateJson, normalizeJsonBodyOrNone_eq, hvalue]
  dsimp only
  rw [dumpsBytes_eq]
  rfl

end BodyValidate

end AflNv
