import AflNv.CanonicalJson
import AflNv.Lib.Unicode

/-!
# The secret guard

`guarded_report_bytes`, `safe_write_report` and `runtime_secret_values`
(`scripts/secret_scan.py`) keep the credentials of the environment out of the reports.  The guard
looks into what a reader decodes from the very bytes that are written.

* `guarded_free` says that a report that gets through the guard gives no secret away.
* `mem_runtimeSecretValues` says which values are monitored.
* `secretGuard_iff` says for which environments no credential is dropped.
-/

namespace AflNv.SecretGuard

open AflNv.Lib AflNv.Lib.JsonCodec AflNv.PythonJson AflNv.CanonicalJson

inductive Raised where
  | secretSerializationError
  | unicodeEncodeError
  | recursionError
  | osError
  deriving DecidableEq

/-- The host: JSON, with the values and the texts that nest too deep for it, `str.casefold`, and
what happens to the file of a report. -/
structure Host (F : Type) where
  interp : Interp F
  valueTooDeep : Value F → Bool
  textTooDeep : Text → Bool
  casefold : Text → Text
  mkdirFails : Bool
  /-- What `path.write_bytes` returns and leaves in the file. -/
  writeBytes : Bytes → Except Raised Unit × Option Bytes

variable {F : Type} (H : Host F)

/-! ## The guard -/

/-- `canonical_serialize` -/
def canonicalSerialize (report : Value F) : Except Raised Bytes :=
  if H.valueTooDeep report then .error .recursionError
  else
    let text := canonicalText H.interp.floats report
    if encodes text then .ok (Utf8.encode text) else .error .unicodeEncodeError

mutual

/-- `_iter_json_strings` -/
def iterJsonStrings : Value F → List Text
  | .str s => [s]
  | .list vs => iterItems vs
  | .dict ms => iterMembers ms
  | _ => []

def iterItems : List (Value F) → List Text
  | [] => []
  | v :: vs => iterJsonStrings v ++ iterItems vs

def iterMembers : List (Text × Value F) → List Text
  | [] => []
  | (key, v) :: ms => key :: (iterJsonStrings v ++ iterMembers ms)

end

/-- The secrets that are looked for. -/
def monitored (secretValues : List Text) : List Text :=
  secretValues.filter fun value => Unicode.strip value ≠ []

/-- `assert_no_secrets` -/
def assertNoSecrets (serializedOutput : Bytes) (secretValues : List Text) : Except Raised Unit :=
  if monitored secretValues = [] then .ok ()
  else
    match Utf8.decode serializedOutput with
    | none => .error .secretSerializationError
    | some text =>
      if H.textTooDeep text then .error .recursionError
      else
        match loads H.interp text with
        | none => .error .secretSerializationError
        | some decoded =>
          if (iterJsonStrings decoded).any fun s => (monitored secretValues).any (· <:+: s) then
            .error .secretSerializationError
          else .ok ()

/-- `guarded_report_bytes` -/
def guardedReportBytes (report : Value F) (secretValues : List Text) : Except Raised Bytes := do
  let serializedOutput ← canonicalSerialize H report
  assertNoSecrets H serializedOutput secretValues
  return serializedOutput

/-- `safe_write_report`, with the content of the file before and after the call. -/
def safeWriteReport (target : Option Bytes) (report : Value F) (secretValues : List Text) :
    Except Raised Unit × Option Bytes :=
  match guardedReportBytes H report secretValues with
  | .error x => (.error x, target)
  | .ok serializedOutput =>
    if H.mkdirFails then (.error .osError, target) else H.writeBytes serializedOutput

/-- A string stands in a value, as a key or a value at any depth. -/
inductive StringIn (s : Text) : Value F → Prop
  | str : StringIn s (.str s)
  | item {vs : List (Value F)} {v : Value F} (hv : v ∈ vs) (h : StringIn s v) :
    StringIn s (.list vs)
  | key {ms : List (Text × Value F)} (h : s ∈ ms.map Prod.fst) : StringIn s (.dict ms)
  | member {ms : List (Text × Value F)} {m : Text × Value F} (hm : m ∈ ms) (h : StringIn s m.2) :
    StringIn s (.dict ms)

theorem iterItems_eq (vs : List (Value F)) : iterItems vs = vs.flatMap iterJsonStrings := by
  induction vs with
  | nil => rfl
  | cons v vs ih => rw [iterItems, ih, List.flatMap_cons]

theorem iterMembers_eq (ms : List (Text × Value F)) :
    iterMembers ms = ms.flatMap fun m => m.1 :: iterJsonStrings m.2 := by
  induction ms with
  | nil => rfl
  | cons m ms ih => rw [iterMembers, ih, List.flatMap_cons, List.cons_append]

theorem StringIn.mem_iterJsonStrings {s : Text} {v : Value F} (h : StringIn s v) :
    s ∈ iterJsonStrings v := by
  induction h with
  | str => exact List.mem_singleton.mpr rfl
  | item hv _ ih =>
    rw [iterJsonStrings, iterItems_eq]
    exact List.mem_flatMap.mpr ⟨_, hv, ih⟩
  | key h =>
    obtain ⟨m, hm, rfl⟩ := List.mem_map.mp h
    rw [iterJsonStrings, iterMembers_eq]
    exact List.mem_flatMap.mpr ⟨m, hm, List.mem_cons_self⟩
  | member hm _ ih =>
    rw [iterJsonStrings, iterMembers_eq]
    exact List.mem_flatMap.mpr ⟨_, hm, List.mem_cons_of_mem _ ih⟩

theorem mem_monitored {secret : Text} {secretValues : List Text} :
    secret ∈ monitored secretValues ↔ secret ∈ secretValues ∧ Unicode.strip secret ≠ [] := by
  rw [monitored, List.mem_filter, decide_eq_true_eq]

/-- What a reader decodes from the bytes of a guarded report holds no secret. -/
theorem guarded_free {report : Value F} {secretValues : List Text} {content : Bytes}
    (h : guardedReportBytes H report secretValues = .ok content) {decoded : Value F}
    (hdecoded : loadsBytes H.interp content = some decoded) {secret s : Text}
    (hsecret : secret ∈ secretValues) (hblank : Unicode.strip secret ≠ [])
    (hs : StringIn s decoded) : ¬ secret <:+: s := by
  obtain ⟨output, -, h⟩ := bind_eq_ok.mp h
  obtain ⟨_, hassert, h⟩ := bind_eq_ok.mp h
  obtain rfl := Except.ok.inj h
  have hmonitored := mem_monitored.mpr ⟨hsecret, hblank⟩
  obtain ⟨text, htext, hloads⟩ := Option.bind_eq_some_iff.mp hdecoded
  rw [assertNoSecrets, if_neg (List.ne_nil_of_mem hmonitored), htext] at hassert
  dsimp only at hassert
  split_ifs at hassert
  rw [hloads] at hassert
  dsimp only at hassert
  split_ifs at hassert with hany
  intro hinfix
  refine hany (List.any_eq_true.mpr ⟨s, hs.mem_iterJsonStrings, ?_⟩)
  exact List.any_eq_true.mpr ⟨secret, hmonitored, decide_eq_true hinfix⟩

/-! ## Placeholders -/

/-- A character without its case, as `re.IGNORECASE` compares it with an ASCII letter. -/
def foldChar (c : ℕ) : ℕ :=
  if 65 ≤ c ∧ c ≤ 90 then c + 32
  else if c = 0x130 ∨ c = 0x131 then 105
  else if c = 0x17F then 115
  else if c = 0x212A then 107
  else c

/-- `[A-Z]` -/
def isLetter (c : ℕ) : Bool := 97 ≤ foldChar c && foldChar c ≤ 122

/-- `[A-Z0-9_]` -/
def isNameChar (c : ℕ) : Bool := isLetter c || (48 ≤ c && c ≤ 57) || c = 95

/-- `[A-Z0-9_]+` -/
def isName (text : Text) : Bool := text ≠ [] && text.all isNameChar

/-- `[A-Z][A-Z0-9_]*` -/
def isVariable : Text → Bool
  | [] => false
  | c :: rest => isLetter c && rest.all isNameChar

/-- One or more other characters in front of a closing one. -/
def closedBy (close : ℕ) (text : Text) : Bool :=
  text.getLast? = some close && text.dropLast ≠ [] && close ∉ text.dropLast

/-- `[_ -]?` -/
def separators : List Text := [[], [95], [32], [45]]

/-- The words of `PLACEHOLDER_RE`, in lower case. -/
def words : List Text :=
  [chars "user", chars "username", chars "password", chars "passwd", chars "example",
    chars "demo", chars "redacted"] ++
  (separators.flatMap fun gap => separators.flatMap fun gap' =>
    [chars "token", chars "password"].map fun word =>
      chars "the" ++ gap ++ chars "real" ++ gap' ++ word) ++
  separators.map fun gap => chars "change" ++ gap ++ chars "me"

/-- What stands behind a word, its case ignored. -/
def behind (word : String) (text : Text) : Option Text :=
  if (chars word).isPrefixOf (text.map foldChar) then some (text.drop (chars word).length) else none

/-- `PLACEHOLDER_RE.fullmatch(value)` -/
def placeholderRe (value : Text) : Bool :=
  (match value with
    | 60 :: rest => closedBy 62 rest
    | 36 :: 123 :: rest => closedBy 125 rest
    | 36 :: rest => isVariable rest
    | _ => false) ||
  value.map foldChar ∈ words ||
  (behind "redacted_" value).any isName ||
  (behind "your" value).any fun rest =>
    separators.any fun gap => gap.isPrefixOf rest && isName (rest.drop gap.length)

/-- `re.fullmatch(r"%[A-Z][A-Z0-9_]*%", value, re.IGNORECASE)` -/
def percentRe : Text → Bool
  | 37 :: rest => rest.getLast? = some 37 && isVariable rest.dropLast
  | _ => false

/-- The further spellings, in folded case. -/
def spellings : List Text :=
  [chars "...", chars "-\x7d", chars "?nv_token", chars "none", chars "null", chars "nil",
    chars "undefined", chars "true", chars "false", chars "redacted", chars "empty"]

/-- The value is, as a whole, a placeholder. -/
def wholePlaceholder (value : Text) : Bool :=
  placeholderRe value || percentRe value || H.casefold value ∈ spellings

/-- The value holds a word of a placeholder somewhere. -/
def hasMarker (value : Text) : Bool :=
  ([chars "your", chars "local-evidence", chars "audit-local"].any (· <:+: H.casefold value)) ||
    ([chars "你的", chars "真实token", chars "当前会话token"].any (· <:+: value))

/-- `_is_placeholder` -/
def isPlaceholder (value : Text) : Bool :=
  wholePlaceholder H (Unicode.strip value) || hasMarker H (Unicode.strip value)

/-! ## The monitored values -/

/-- `PROJECT_RUNTIME_SECRET_ENV_NAMES` -/
def runtimeSecretEnvNames : List Text :=
  [chars "ALFRESCO_USER", chars "ALFRESCO_PASS", chars "FLOWABLE_USER", chars "FLOWABLE_PASS",
    chars "NV_TOKEN"]

/-- The names in the order in which the set of them is run through. -/
structure Names where
  order : List Text
  perm : order.Perm runtimeSecretEnvNames

/-- The step of `runtime_secret_values` for one name. -/
def addSecretValue (env : Text → Option Text) (values : List Text) (name : Text) : List Text :=
  match env name with
  | none => values
  | some value =>
    let probe := Unicode.strip value
    if probe = [] ∨ isPlaceholder H probe = true then values
    else if value ∈ values then values
    else values ++ [value]

/-- `runtime_secret_values` -/
def runtimeSecretValues (names : Names) (env : Text → Option Text) : List Text :=
  names.order.foldl (addSecretValue H env) []

theorem strip_strip (text : Text) : Unicode.strip (Unicode.strip text) = Unicode.strip text :=
  Substring.trim_eq_self _ (Substring.head?_trim _ text) (Substring.getLast?_trim _ text)

/-- A value that is kept. -/
def Kept (value : Text) : Prop :=
  Unicode.strip value ≠ [] ∧ wholePlaceholder H (Unicode.strip value) = false ∧
    hasMarker H (Unicode.strip value) = false

theorem mem_addSecretValue {env : Text → Option Text} {values : List Text} {name value : Text} :
    value ∈ addSecretValue H env values name ↔
      value ∈ values ∨ (env name = some value ∧ Kept H value) := by
  unfold addSecretValue
  cases hname : env name with
  | none => simp
  | some found =>
    simp only [isPlaceholder, strip_strip, Bool.or_eq_true]
    split_ifs with hdropped hmem
    · refine (or_iff_left ?_).symm
      rintro ⟨hfound, hblank, hwhole, hmarker⟩
      obtain rfl := Option.some.inj hfound
      rcases hdropped with h | h | h
      · exact hblank h
      · exact Bool.false_ne_true (hwhole.symm.trans h)
      · exact Bool.false_ne_true (hmarker.symm.trans h)
    · refine (or_iff_left_of_imp ?_).symm
      rintro ⟨hfound, -⟩
      exact Option.some.inj hfound ▸ hmem
    · rw [List.mem_append, List.mem_singleton]
      push Not at hdropped
      refine or_congr_right ⟨?_, fun h => (Option.some.inj h.1).symm⟩
      rintro rfl
      exact ⟨rfl, hdropped.1, by simpa using hdropped.2.1, by simpa using hdropped.2.2⟩

/-- The values that are monitored. -/
theorem mem_runtimeSecretValues {names : Names} {env : Text → Option Text} {value : Text} :
    value ∈ runtimeSecretValues H names env ↔
      ∃ name ∈ runtimeSecretEnvNames, env name = some value ∧ Kept H value := by
  have hfold (order values : List Text) : value ∈ order.foldl (addSecretValue H env) values ↔
      value ∈ values ∨ ∃ name ∈ order, env name = some value ∧ Kept H value := by
    induction order generalizing values with
    | nil => simp
    | cons name order ih =>
      rw [List.foldl_cons, ih, mem_addSecretValue, or_assoc]
      simp only [List.exists_mem_cons_iff]
  rw [runtimeSecretValues, hfold]
  simp only [List.not_mem_nil, false_or, names.perm.mem_iff]

/-! ## The claims of the guard -/

/-- A call that raises leaves the file of the report as it is, and bytes that are returned give no
secret away. -/
def GuardSafe : Prop :=
  ∀ (report : Value F) (secretValues : List Text) (target : Option Bytes),
    match guardedReportBytes H report secretValues with
    | .error _ => (safeWriteReport H target report secretValues).2 = target
    | .ok content => ∀ decoded, loadsBytes H.interp content = some decoded →
      ∀ s, StringIn s decoded → ∀ secret ∈ secretValues, Unicode.strip secret ≠ [] →
        ¬ secret <:+: s

theorem guardSafe : GuardSafe H := by
  intro report secretValues target
  cases h : guardedReportBytes H report secretValues with
  | error x =>
    dsimp only
    rw [safeWriteReport, h]
  | ok content =>
    intro decoded hdecoded s hs secret hsecret hblank
    exact guarded_free H h hdecoded hsecret hblank hs

/-- The value of each variable is monitored, unless it is blank or a placeholder as a whole. -/
def KeepsCredentials (names : Names) (env : Text → Option Text) : Prop :=
  ∀ name ∈ runtimeSecretEnvNames, ∀ value, env name = some value → Unicode.strip value ≠ [] →
    wholePlaceholder H (Unicode.strip value) = false → value ∈ runtimeSecretValues H names env

/-- No such value holds a word of a placeholder. -/
def MarkerFree (env : Text → Option Text) : Prop :=
  ∀ name ∈ runtimeSecretEnvNames, ∀ value, env name = some value → Unicode.strip value ≠ [] →
    wholePlaceholder H (Unicode.strip value) = false → hasMarker H (Unicode.strip value) = false

/-- The guard lets no secret through, and no credential is dropped exactly if none holds a word of a
placeholder. -/
theorem secretGuard_iff (names : Names) (env : Text → Option Text) :
    (GuardSafe H ∧ KeepsCredentials H names env) ↔ MarkerFree H env := by
  constructor
  · rintro ⟨-, hkeeps⟩ name hname value hvalue hblank hwhole
    obtain ⟨-, -, -, -, -, hmarker⟩ :=
      (mem_runtimeSecretValues H).mp (hkeeps name hname value hvalue hblank hwhole)
    exact hmarker
  · intro hfree
    refine ⟨guardSafe H, fun name hname value hvalue hblank hwhole => ?_⟩
    exact (mem_runtimeSecretValues H).mpr
      ⟨name, hname, hvalue, hblank, hwhole, hfree name hname value hvalue hblank hwhole⟩

/-- A host with ASCII texts. -/
def asciiHost : Host Special where
  interp := plainInterp
  valueTooDeep := fun _ => false
  textTooDeep := fun _ => false
  casefold := fun text => text.map fun c => if 65 ≤ c ∧ c ≤ 90 then c + 32 else c
  mkdirFails := false
  writeBytes := fun content => (.ok (), some content)

/-- An environment with one token. -/
def tokenEnv (name : Text) : Option Text :=
  if name = chars "NV_TOKEN" then some (chars "yourboat-7Kq9") else none

/-- A token that holds `your` is not monitored. -/
theorem your_token_dropped :
    ¬ (GuardSafe asciiHost ∧
      KeepsCredentials asciiHost ⟨runtimeSecretEnvNames, List.Perm.refl _⟩ tokenEnv) := by
  rintro ⟨-, hkeeps⟩
  have hmem := hkeeps (chars "NV_TOKEN") (by decide) (chars "yourboat-7Kq9") rfl (by decide)
    (by decide)
  revert hmem
  decide

end AflNv.SecretGuard
