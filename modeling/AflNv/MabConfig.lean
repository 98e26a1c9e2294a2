import AflNv.Bandit
import AflNv.Lib.Machine
import AflNv.Lib.Numeral
import AflNv.MultipartSeed
import Mathlib.Data.Rat.Floor

/-!
# The tunables of the bandit

The exploration constant and the length of the warm-up come from the environment, from
`task.json` or from the defaults: `nv_mab_env_c`, `nv_mab_env_min_explore` and
`nv_mab_init_defaults` of `src/afl-fuzz-nv-mab.c`, and `nv_load_task_json` of
`src/afl-fuzz.c`.  The environment is read whenever a value is established; the loader may
run more than once, and `nv_mab_pick` initialises what is not.

* `strtod` and `strtol` are the conversions of the C library, up to the rounding.
* `EffectiveC` and `EffectiveMinExplore` are the documented precedence.
* `tunables_in_force`: every pick of every run uses exactly these values.
-/

namespace AflNv

open AflNv.Lib

namespace MabConfig

/-! ## `strtod` and `strtol` -/

/-- What a text denotes. -/
inductive Token where
  | number (v : ℚ)
  | inf (neg : Bool)
  | nan
  deriving DecidableEq

/-- What follows a word at the front of a text, in letters of either case. -/
def dropWord (word text : Bytes) : Option Bytes :=
  if (text.take word.length).map tolower = word then some (text.drop word.length) else none

def isHexDigit (b : UInt8) : Bool :=
  Numeral.isDigit b || (97 ≤ tolower b && tolower b ≤ 102)

/-- The number that hexadecimal digits denote. -/
def hexOf (ds : Bytes) : ℕ :=
  ds.foldl (fun n b =>
    16 * n + (if Numeral.isDigit b then b.toNat - 48 else (tolower b).toNat - 87)) 0

/-- The binary exponent; a mark that no digit follows belongs to no number. -/
def scanBinaryExponent : Bytes → ℤ × Bytes
  | [] => (0, [])
  | b :: text =>
    let sign := Numeral.scanSign text
    let digits := Numeral.scanDigits sign.2
    if tolower b = 112 ∧ digits.1 ≠ [] then
      (if sign.1 then -(Numeral.natOf digits.1 : ℤ) else Numeral.natOf digits.1, digits.2)
    else (0, b :: text)

/-- A hexadecimal number behind its sign. -/
def scanHex (text : Bytes) : Option (ℚ × Bytes) :=
  (dropWord (ascii "0x") text).bind fun text =>
    let whole := text.takeWhile isHexDigit
    let text := text.dropWhile isHexDigit
    let frac := match text with
      | 46 :: rest => (rest.takeWhile isHexDigit, rest.dropWhile isHexDigit)
      | _ => ([], text)
    if whole = [] ∧ frac.1 = [] then none
    else
      let exp := scanBinaryExponent frac.2
      some ((hexOf (whole ++ frac.1) : ℚ) * 2 ^ (exp.1 - 4 * frac.1.length), exp.2)

/-- What follows `nan`: it may carry letters, digits and `_` in parentheses. -/
def dropNanChars (text : Bytes) : Bytes :=
  match text with
  | 40 :: rest =>
    let chars := rest.takeWhile fun b =>
      Numeral.isDigit b || (97 ≤ tolower b && tolower b ≤ 122) || b = 95
    match rest.drop chars.length with
    | 41 :: rest => rest
    | _ => text
  | _ => text

/-- The longest number at the front of a text, and what follows it. -/
def scanDouble (text : Bytes) : Option (Token × Bytes) :=
  let text := text.dropWhile isspace
  let sign := Numeral.scanSign text
  match scanHex sign.2, dropWord (ascii "infinity") sign.2, dropWord (ascii "inf") sign.2,
      dropWord (ascii "nan") sign.2 with
  | some (v, rest), _, _, _ => some (.number (if sign.1 then -v else v), rest)
  | none, some rest, _, _ => some (.inf sign.1, rest)
  | none, none, some rest, _ => some (.inf sign.1, rest)
  | none, none, none, some rest => some (.nan, dropNanChars rest)
  | none, none, none, none => (Numeral.scan text).map fun r => (.number r.1, r.2)

/-- The rounding of `strtod`: the double next to a number, and the numbers for which it sets
`errno` to `ERANGE`. -/
structure Rounding where
  round : ℚ → CDouble
  erange : ℚ → Bool

/-- What `strtod` returns; `nan` is a double that is no number. -/
structure Strtod where
  value : Option CDouble
  erange : Bool
  rest : Bytes

/-- `strtod`; `none` where it converts nothing, with `end == raw`. -/
def strtod (lib : Rounding) (text : Bytes) : Option Strtod :=
  (scanDouble text).map fun
    | (.number v, rest) => ⟨some (lib.round v), lib.erange v, rest⟩
    | (.inf neg, rest) => ⟨some (.inf neg), false, rest⟩
    | (.nan, rest) => ⟨none, false, rest⟩

/-- What `strtol` with base 10 returns, with the number itself. -/
structure Strtol where
  value : ℤ
  rest : Bytes

/-- `strtol`; `none` where it converts nothing. -/
def strtol (text : Bytes) : Option Strtol :=
  let sign := Numeral.scanSign (text.dropWhile isspace)
  let digits := Numeral.scanDigits sign.2
  if digits.1 = [] then none
  else some ⟨if sign.1 then -(Numeral.natOf digits.1 : ℤ) else Numeral.natOf digits.1, digits.2⟩

/-- `strtol` sets `errno` and returns a bound of `long`. -/
def longRange (v : ℤ) : Bool := -(2 ^ 63) ≤ v ∧ v < 2 ^ 63

/-! ## The environment -/

/-- `nv_env_value`: the variable behind its leading blanks; `none` is NULL. -/
def nvEnvValue (var : Option Bytes) : Option Bytes :=
  match var.map (List.dropWhile isspace) with
  | some (b :: v) => some (b :: v)
  | _ => none

/-- `nv_str_is_terminated` -/
def nvStrIsTerminated (rest : Bytes) : Bool := rest.dropWhile isspace = []

/-- `nv_mab_env_c` -/
def nvMabEnvC (lib : Rounding) (var : Option Bytes) : Option ℚ :=
  (nvEnvValue var).bind fun raw => (strtod lib raw).bind fun r =>
    if !nvStrIsTerminated r.rest then none
    else match r.value with
      | some (.finite c) => if r.erange || decide (c ≤ 0) then none else some c
      | _ => none

/-- `NV_MAB_MAX_MIN_EXPLORE` -/
def nvMabMaxMinExplore : ℕ := 1000000

/-- `nv_mab_env_min_explore` -/
def nvMabEnvMinExplore (var : Option Bytes) : Option ℕ :=
  (nvEnvValue var).bind fun raw => (strtol raw).bind fun r =>
    if !nvStrIsTerminated r.rest then none
    else if !longRange r.value ∨ r.value < 1 ∨ r.value > nvMabMaxMinExplore then none
    else some r.value.toNat

theorem nvMabEnvC_pos {lib : Rounding} {var : Option Bytes} {c : ℚ}
    (h : nvMabEnvC lib var = some c) : 0 < c := by
  unfold nvMabEnvC at h
  obtain ⟨raw, -, h⟩ := Option.bind_eq_some_iff.mp h
  obtain ⟨r, -, h⟩ := Option.bind_eq_some_iff.mp h
  split at h
  · exact absurd h (by simp)
  · split at h
    · split at h
      · exact absurd h (by simp)
      next hpos =>
        rw [Bool.or_eq_true, decide_eq_true_iff, not_or] at hpos
        rw [← Option.some.inj h]
        exact not_le.mp hpos.2
    · exact absurd h (by simp)

theorem nvMabEnvMinExplore_range {var : Option Bytes} {m : ℕ}
    (h : nvMabEnvMinExplore var = some m) : 1 ≤ m ∧ m ≤ 1000000 := by
  unfold nvMabEnvMinExplore at h
  obtain ⟨raw, -, h⟩ := Option.bind_eq_some_iff.mp h
  obtain ⟨r, -, h⟩ := Option.bind_eq_some_iff.mp h
  split at h
  · exact absurd h (by simp)
  · split at h
    · exact absurd h (by simp)
    next hrange =>
      simp only [nvMabMaxMinExplore, not_or, not_lt, gt_iff_lt] at hrange
      have hm := Option.some.inj h
      omega

/-- The variables `NV_MAB_C` and `NV_MAB_MIN_EXPLORE`. -/
structure Vars where
  c : Option Bytes
  minExplore : Option Bytes

/-- What the bandit finds in the environment. -/
def Vars.env (lib : Rounding) (vars : Vars) : MabEnv ℚ where
  envC := nvMabEnvC lib vars.c
  envMinExplore := nvMabEnvMinExplore vars.minExplore
  envC_pos _ h := nvMabEnvC_pos h
  envMinExplore_range _ h := nvMabEnvMinExplore_range h

/-! ## The loader -/

/-- The test of `mab_c`: a positive finite number, and no valid override. -/
def refineC (lib : Rounding) (vars : Vars) (mc : Option CJson) (mab : NvMab ℚ) : NvMab ℚ :=
  match mc with
  | some (.number (.finite c)) =>
    if 0 < c ∧ (nvMabEnvC lib vars.c).isNone then { mab with c := c } else mab
  | _ => mab

/-- The test of `mab_min_explore`. -/
def refineMinExplore (vars : Vars) (mme : Option CJson) (mab : NvMab ℚ) : NvMab ℚ :=
  match mme with
  | some (.number (.finite q)) =>
    if 1 ≤ q ∧ q ≤ nvMabMaxMinExplore ∧ (nvMabEnvMinExplore vars.minExplore).isNone then
      { mab with minExplore := (CDouble.trunc q).toNat }
    else mab
  | _ => mab

/-- The part of `nv_load_task_json` that sets up the bandit. -/
def loadMab (lib : Rounding) (vars : Vars) (root : CJson) (mab : NvMab ℚ) : NvMab ℚ :=
  let mab := nvMabInitDefaults (vars.env lib) { mab with totalPulls := 0 }
  let mc := root.getObjectItemCaseSensitive (ascii "mab_c")
  let mme := root.getObjectItemCaseSensitive (ascii "mab_min_explore")
  let mab := refineC lib vars mc mab
  let mab := refineMinExplore vars mme mab
  { mab with
    coldStartPicks := 0
    ucbPicks := 0
    pendingArm := ArmIdx.fieldValue.val
    pendingUpdate := false
    updateSource := 0
    arms := fun _ => ⟨0, 0, 0, 0⟩ }

/-! ## Runs -/

/-- What happens to the bandit. -/
inductive Event where
  | load (content : Bytes)
  | pick (scopeMask : UInt32)
  | begin (selectedArm actualUsedArm : NvArmId) (iterationId : ℕ) (updateSource : UInt8)
  | update (arm : NvArmId) (reward : ℚ)

/-- What does not change in a run. -/
structure Setup where
  lib : CLib
  rounding : Rounding
  fns : MathFns ℚ
  vars : Vars

/-- One event; `none` is a process that a `FATAL` has ended.  The output is the constant and
the length of the warm-up that a pick uses. -/
def Setup.step (s : Setup) : Option (NvMab ℚ) → Event → Option (ℚ × ℕ) × Option (NvMab ℚ)
  | none, _ => (none, none)
  | some mab, .load content =>
    (none, (s.lib.cJSONParse (cstr content)).map fun root => loadMab s.rounding s.vars root mab)
  | some mab, .pick scopeMask =>
    let used := mab.lazyInit (s.vars.env s.rounding)
    (some (used.c, used.minExplore),
      some (nvMabPick (s.vars.env s.rounding) s.fns mab scopeMask).2)
  | some mab, .begin selectedArm actualUsedArm iterationId updateSource =>
    (none, some (nvMabBeginPending mab selectedArm actualUsedArm iterationId updateSource))
  | some mab, .update arm reward => (none, some (nvMabUpdate mab arm reward))

/-! ## The precedence -/

/-- The whole text but its blanks is one number for `strtod`, in range, and a positive
finite double. -/
def EnvC (lib : Rounding) (var : Option Bytes) (c : ℚ) : Prop :=
  ∃ raw v rest, var = some raw ∧ scanDouble raw = some (.number v, rest) ∧
    (∀ b ∈ rest, isspace b = true) ∧ lib.erange v = false ∧ lib.round v = .finite c ∧ 0 < c

/-- The whole text but its blanks is one number for `strtol`, from 1 to 1000000. -/
def EnvMinExplore (var : Option Bytes) (m : ℕ) : Prop :=
  ∃ raw v rest, var = some raw ∧ strtol raw = some ⟨v, rest⟩ ∧
    (∀ b ∈ rest, isspace b = true) ∧ 1 ≤ v ∧ v ≤ 1000000 ∧ m = v.toNat

/-- A positive finite number in `task.json`. -/
def DocC (doc : Option CJson) (c : ℚ) : Prop :=
  ∃ root, doc = some root ∧
    root.getObjectItemCaseSensitive (ascii "mab_c") = some (.number (.finite c)) ∧ 0 < c

/-- A number from 1 to 1000000 in `task.json`, without its fraction. -/
def DocMinExplore (doc : Option CJson) (m : ℕ) : Prop :=
  ∃ root q, doc = some root ∧
    root.getObjectItemCaseSensitive (ascii "mab_min_explore") = some (.number (.finite q)) ∧
      1 ≤ q ∧ q ≤ 1000000 ∧ m = (CDouble.trunc q).toNat

/-- A value of the first layer, else one of the second, else the default. -/
def Layered {α : Type} (env doc : α → Prop) (dflt x : α) : Prop :=
  env x ∨ (¬ ∃ e, env e) ∧ (doc x ∨ (¬ ∃ d, doc d) ∧ x = dflt)

/-- The exploration constant that is to be used after a document was loaded, or none. -/
def EffectiveC (s : Setup) (doc : Option CJson) (c : ℚ) : Prop :=
  Layered (EnvC s.rounding s.vars.c) (DocC doc) (1 / 20) c

/-- The length of the warm-up that is to be used. -/
def EffectiveMinExplore (s : Setup) (doc : Option CJson) (m : ℕ) : Prop :=
  Layered (EnvMinExplore s.vars.minExplore) (DocMinExplore doc) 8 m

/-- The document that was loaded last. -/
def lastDoc (lib : CLib) (doc : Option CJson) : List Event → Option CJson
  | [] => doc
  | .load content :: es => lastDoc lib (lib.cJSONParse (cstr content)) es
  | _ :: es => lastDoc lib doc es

/-! ## What the environment gives -/

theorem dropWhile_idem (p : UInt8 → Bool) (l : Bytes) :
    (l.dropWhile p).dropWhile p = l.dropWhile p := by
  induction l with
  | nil => rfl
  | cons b l ih =>
    by_cases hb : p b = true
    · rw [List.dropWhile_cons_of_pos hb, ih]
    · rw [List.dropWhile_cons_of_neg hb, List.dropWhile_cons_of_neg hb]

theorem scanDouble_dropWhile (raw : Bytes) :
    scanDouble (raw.dropWhile isspace) = scanDouble raw := by
  unfold scanDouble
  rw [dropWhile_idem]

theorem strtol_dropWhile (raw : Bytes) : strtol (raw.dropWhile isspace) = strtol raw := by
  unfold strtol
  rw [dropWhile_idem]

theorem nvEnvValue_eq_some {var : Option Bytes} {raw : Bytes} :
    nvEnvValue var = some raw ↔
      ∃ v, var = some v ∧ raw = v.dropWhile isspace ∧ raw ≠ [] := by
  unfold nvEnvValue
  cases var with
  | none => simp
  | some v =>
    cases hv : v.dropWhile isspace with
    | nil => simp [hv]
    | cons b rest =>
      simp only [Option.map_some, hv, Option.some.injEq]
      constructor
      · intro h
        exact ⟨v, rfl, by rw [hv, h], by rw [← h]; simp⟩
      · intro ⟨v', hv', hraw, _⟩
        rw [hraw, ← hv', hv]

theorem nvStrIsTerminated_iff (rest : Bytes) :
    nvStrIsTerminated rest = true ↔ ∀ b ∈ rest, isspace b = true := by
  unfold nvStrIsTerminated
  rw [decide_eq_true_iff, List.dropWhile_eq_nil_iff]

theorem scanDouble_nil : scanDouble [] = none := by decide

theorem strtol_nil : strtol [] = none := by decide

theorem nvMabEnvC_eq_some {lib : Rounding} {var : Option Bytes} {c : ℚ} :
    nvMabEnvC lib var = some c ↔ EnvC lib var c := by
  unfold nvMabEnvC
  constructor
  · intro h
    obtain ⟨raw, hraw, h⟩ := Option.bind_eq_some_iff.mp h
    obtain ⟨r, hr, h⟩ := Option.bind_eq_some_iff.mp h
    obtain ⟨v, rfl, rfl, -⟩ := nvEnvValue_eq_some.mp hraw
    obtain ⟨⟨token, rest⟩, hscan, rfl⟩ := Option.map_eq_some_iff.mp hr
    rw [scanDouble_dropWhile] at hscan
    cases token with
    | inf neg => exact absurd h (by simp)
    | nan => exact absurd h (by simp)
    | number q =>
      dsimp only at h
      split at h
      · exact absurd h (by simp)
      next hrest =>
        split at h
        next d hd =>
          split at h
          · exact absurd h (by simp)
          next hpos =>
            obtain rfl := Option.some.inj h
            rw [Bool.or_eq_true, decide_eq_true_iff, not_or, Bool.not_eq_true] at hpos
            exact ⟨v, q, rest, rfl, hscan, (nvStrIsTerminated_iff rest).mp (by simpa using hrest),
              hpos.1, Option.some.inj hd, not_le.mp hpos.2⟩
        · exact absurd h (by simp)
  · intro ⟨raw, v, rest, hvar, hscan, hrest, herange, hround, hpos⟩
    have hne : raw.dropWhile isspace ≠ [] := by
      intro hnil
      rw [← scanDouble_dropWhile, hnil, scanDouble_nil] at hscan
      exact absurd hscan (by simp)
    have hvalue : nvEnvValue var = some (raw.dropWhile isspace) :=
      nvEnvValue_eq_some.mpr ⟨raw, hvar, rfl, hne⟩
    have hterm : nvStrIsTerminated rest = true := (nvStrIsTerminated_iff rest).mpr hrest
    rw [hvalue, Option.bind_some, strtod, scanDouble_dropWhile, hscan]
    simp [hterm, hround, herange, hpos]

theorem nvMabEnvMinExplore_eq_some {var : Option Bytes} {m : ℕ} :
    nvMabEnvMinExplore var = some m ↔ EnvMinExplore var m := by
  unfold nvMabEnvMinExplore
  constructor
  · intro h
    obtain ⟨raw, hraw, hconv⟩ := Option.bind_eq_some_iff.mp h
    obtain ⟨r, hr, hvalid⟩ := Option.bind_eq_some_iff.mp hconv
    obtain ⟨v, hvar, hdrop, -⟩ := nvEnvValue_eq_some.mp hraw
    rw [hdrop, strtol_dropWhile] at hr
    split at hvalid
    · exact absurd hvalid (by simp)
    next hrest =>
      split at hvalid
      · exact absurd hvalid (by simp)
      next hrange =>
        simp only [nvMabMaxMinExplore, not_or, not_lt, gt_iff_lt] at hrange
        exact ⟨v, r.value, r.rest, hvar, hr, (nvStrIsTerminated_iff _).mp (by simpa using hrest),
          hrange.2.1, hrange.2.2, (Option.some.inj hvalid).symm⟩
  · intro ⟨raw, v, rest, hvar, hconv, hrest, hlow, hhigh, hm⟩
    have hne : raw.dropWhile isspace ≠ [] := by
      intro hnil
      rw [← strtol_dropWhile, hnil, strtol_nil] at hconv
      exact absurd hconv (by simp)
    have hvalue : nvEnvValue var = some (raw.dropWhile isspace) :=
      nvEnvValue_eq_some.mpr ⟨raw, hvar, rfl, hne⟩
    have hterm : nvStrIsTerminated rest = true := (nvStrIsTerminated_iff rest).mpr hrest
    have hlong : longRange v = true := by
      unfold longRange
      rw [decide_eq_true_iff]
      omega
    rw [hvalue, Option.bind_some, strtol_dropWhile, hconv, Option.bind_some, hterm, hlong]
    rw [if_neg (by simp), if_neg (by simp [nvMabMaxMinExplore]; omega), hm]

/-! ## What is established -/

/-- The value of the first layer that has one. -/
theorem layered_of_eq {α : Type} {env doc : α → Prop} {dflt : α} {e d : Option α}
    (he : ∀ x, e = some x ↔ env x) (hd : ∀ x, d = some x ↔ doc x) :
    Layered env doc dflt ((e.or d).getD dflt) := by
  cases e with
  | some x => exact Or.inl ((he x).mp rfl)
  | none =>
    have hnone : ¬ ∃ x, env x := fun ⟨x, hx⟩ => absurd ((he x).mpr hx) (by simp)
    cases d with
    | some x => exact Or.inr ⟨hnone, Or.inl ((hd x).mp rfl)⟩
    | none => exact Or.inr ⟨hnone, Or.inr ⟨fun ⟨x, hx⟩ => absurd ((hd x).mpr hx) (by simp), rfl⟩⟩

/-- The constant that an item gives. -/
def itemC : Option CJson → Option ℚ
  | some (.number (.finite c)) => if 0 < c then some c else none
  | _ => none

/-- The length of the warm-up that an item gives. -/
def itemMinExplore : Option CJson → Option ℕ
  | some (.number (.finite q)) =>
    if 1 ≤ q ∧ q ≤ 1000000 then some (CDouble.trunc q).toNat else none
  | _ => none

/-- The constant that a document gives. -/
def docC (doc : Option CJson) : Option ℚ :=
  doc.bind fun root => itemC (root.getObjectItemCaseSensitive (ascii "mab_c"))

/-- The length of the warm-up that a document gives. -/
def docMinExplore (doc : Option CJson) : Option ℕ :=
  doc.bind fun root => itemMinExplore (root.getObjectItemCaseSensitive (ascii "mab_min_explore"))

theorem itemC_eq_some {mc : Option CJson} {c : ℚ} :
    itemC mc = some c ↔ mc = some (.number (.finite c)) ∧ 0 < c := by
  unfold itemC
  split
  next d =>
    by_cases hd : 0 < d
    · rw [if_pos hd]
      simp only [Option.some.injEq, CJson.number.injEq, CDouble.finite.injEq]
      constructor
      · intro h
        exact ⟨h, h ▸ hd⟩
      · exact fun h => h.1
    · rw [if_neg hd]
      refine iff_of_false (by simp) fun h => ?_
      obtain rfl : d = c := by simpa using h.1
      exact hd h.2
  next hne => exact iff_of_false (by simp) fun h => hne c h.1

theorem itemMinExplore_eq_some {mme : Option CJson} {m : ℕ} :
    itemMinExplore mme = some m ↔ ∃ q, mme = some (.number (.finite q)) ∧
      1 ≤ q ∧ q ≤ 1000000 ∧ m = (CDouble.trunc q).toNat := by
  unfold itemMinExplore
  split
  next d =>
    by_cases hd : 1 ≤ d ∧ d ≤ 1000000
    · rw [if_pos hd]
      constructor
      · intro h
        exact ⟨d, rfl, hd.1, hd.2, (Option.some.inj h).symm⟩
      · intro ⟨q, hq, _, _, hm⟩
        obtain rfl : d = q := by simpa using hq
        rw [hm]
    · rw [if_neg hd]
      refine iff_of_false (by simp) fun ⟨q, hq, hlow, hhigh, _⟩ => ?_
      obtain rfl : d = q := by simpa using hq
      exact hd ⟨hlow, hhigh⟩
  next hne => exact iff_of_false (by simp) fun ⟨q, hq, _⟩ => hne q hq

theorem docC_eq_some {doc : Option CJson} {c : ℚ} : docC doc = some c ↔ DocC doc c := by
  unfold docC DocC
  rw [Option.bind_eq_some_iff]
  exact exists_congr fun root => and_congr Iff.rfl itemC_eq_some

theorem docMinExplore_eq_some {doc : Option CJson} {m : ℕ} :
    docMinExplore doc = some m ↔ DocMinExplore doc m := by
  unfold docMinExplore DocMinExplore
  rw [Option.bind_eq_some_iff]
  refine exists_congr fun root => ?_
  rw [itemMinExplore_eq_some]
  exact ⟨fun ⟨hdoc, q, h⟩ => ⟨q, hdoc, h⟩, fun ⟨q, hdoc, h⟩ => ⟨hdoc, q, h⟩⟩

variable (s : Setup)

/-- The constant in force. -/
def cInForce (doc : Option CJson) : ℚ :=
  ((nvMabEnvC s.rounding s.vars.c).or (docC doc)).getD (1 / 20)

/-- The length of the warm-up in force. -/
def minExploreInForce (doc : Option CJson) : ℕ :=
  ((nvMabEnvMinExplore s.vars.minExplore).or (docMinExplore doc)).getD 8

variable {s}

theorem effectiveC (doc : Option CJson) : EffectiveC s doc (cInForce s doc) :=
  layered_of_eq (fun _ => nvMabEnvC_eq_some) (fun _ => docC_eq_some)

theorem effectiveMinExplore (doc : Option CJson) :
    EffectiveMinExplore s doc (minExploreInForce s doc) :=
  layered_of_eq (fun _ => nvMabEnvMinExplore_eq_some) (fun _ => docMinExplore_eq_some)

theorem refineC_eq (lib : Rounding) (vars : Vars) (mc : Option CJson) (mab : NvMab ℚ) :
    refineC lib vars mc mab =
      { mab with c := if (nvMabEnvC lib vars.c).isNone then (itemC mc).getD mab.c else mab.c } := by
  unfold refineC itemC
  split
  next c =>
    by_cases hc : 0 < c <;> cases nvMabEnvC lib vars.c <;> simp [hc]
  next => simp

theorem refineMinExplore_eq (vars : Vars) (mme : Option CJson) (mab : NvMab ℚ) :
    refineMinExplore vars mme mab =
      { mab with
        minExplore := if (nvMabEnvMinExplore vars.minExplore).isNone then
          (itemMinExplore mme).getD mab.minExplore else mab.minExplore } := by
  unfold refineMinExplore itemMinExplore nvMabMaxMinExplore
  split
  next q =>
    by_cases hq : 1 ≤ q ∧ q ≤ 1000000 <;> cases nvMabEnvMinExplore vars.minExplore <;>
      simp [hq]
  next => simp

theorem loadMab_c (root : CJson) (mab : NvMab ℚ) :
    (loadMab s.rounding s.vars root mab).c = cInForce s (some root) := by
  unfold loadMab cInForce docC
  simp only [refineMinExplore_eq, refineC_eq, Option.bind_some]
  cases henv : nvMabEnvC s.rounding s.vars.c with
  | some e => simp [nvMabInitDefaults, Vars.env, henv]
  | none => simp [nvMabInitDefaults, Vars.env, henv]

theorem loadMab_minExplore (root : CJson) (mab : NvMab ℚ) :
    (loadMab s.rounding s.vars root mab).minExplore = minExploreInForce s (some root) := by
  unfold loadMab minExploreInForce docMinExplore
  simp only [refineMinExplore_eq, refineC_eq, Option.bind_some]
  cases henv : nvMabEnvMinExplore s.vars.minExplore with
  | some e => simp [nvMabInitDefaults, Vars.env, henv]
  | none => simp [nvMabInitDefaults, Vars.env, henv]

theorem loadMab_initialized (root : CJson) (mab : NvMab ℚ) :
    (loadMab s.rounding s.vars root mab).initialized = true := by
  unfold loadMab
  simp only [refineMinExplore_eq, refineC_eq]
  rfl

/-! ## Runs keep it -/

/-- The tunables are those in force, or they are not established and no document was
loaded. -/
structure InForce (s : Setup) (doc : Option CJson) (mab : NvMab ℚ) : Prop where
  established : mab.initialized = true →
    mab.c = cInForce s doc ∧ mab.minExplore = minExploreInForce s doc
  fresh : mab.initialized = false → doc = none

theorem defaults_inForce (mab : NvMab ℚ) :
    (nvMabInitDefaults (s.vars.env s.rounding) mab).c = cInForce s none ∧
      (nvMabInitDefaults (s.vars.env s.rounding) mab).minExplore = minExploreInForce s none := by
  simp [nvMabInitDefaults, Vars.env, cInForce, minExploreInForce, docC, docMinExplore]

/-- What a pick uses is in force. -/
theorem InForce.lazyInit {doc : Option CJson} {mab : NvMab ℚ} (h : InForce s doc mab) :
    (mab.lazyInit (s.vars.env s.rounding)).c = cInForce s doc ∧
      (mab.lazyInit (s.vars.env s.rounding)).minExplore = minExploreInForce s doc := by
  unfold NvMab.lazyInit
  split
  next hinit => exact h.established hinit
  next hinit =>
    rw [h.fresh (Bool.not_eq_true _ ▸ hinit)]
    exact defaults_inForce mab

theorem nvMabPick_tunables (env : MabEnv ℚ) (fns : MathFns ℚ) (mab : NvMab ℚ)
    (scopeMask : UInt32) :
    (nvMabPick env fns mab scopeMask).2.c = (mab.lazyInit env).c ∧
      (nvMabPick env fns mab scopeMask).2.minExplore = (mab.lazyInit env).minExplore ∧
      (nvMabPick env fns mab scopeMask).2.initialized = true := by
  unfold nvMabPick
  dsimp only
  split
  · exact ⟨rfl, rfl, NvMab.lazyInit_initialized env mab⟩
  · split
    · exact ⟨rfl, rfl, NvMab.lazyInit_initialized env mab⟩
    · split
      · exact ⟨rfl, rfl, NvMab.lazyInit_initialized env mab⟩
      · exact ⟨rfl, rfl, NvMab.lazyInit_initialized env mab⟩

theorem nvMabUpdate_tunables (mab : NvMab ℚ) (arm : NvArmId) (reward : ℚ) :
    (nvMabUpdate mab arm reward).c = mab.c ∧
      (nvMabUpdate mab arm reward).minExplore = mab.minExplore ∧
      (nvMabUpdate mab arm reward).initialized = mab.initialized := by
  unfold nvMabUpdate
  split
  · exact ⟨rfl, rfl, rfl⟩
  · exact ⟨rfl, rfl, rfl⟩

/-- One event keeps the tunables in force, with the document that it loads. -/
theorem InForce.step {doc : Option CJson} {mab mab' : NvMab ℚ} {e : Event}
    (h : InForce s doc mab) (hstep : (s.step (some mab) e).2 = some mab') :
    InForce s (lastDoc s.lib doc [e]) mab' := by
  cases e with
  | load content =>
    obtain ⟨root, hroot, rfl⟩ := Option.map_eq_some_iff.mp hstep
    show InForce s (s.lib.cJSONParse (cstr content)) _
    rw [hroot]
    refine ⟨fun _ => ⟨loadMab_c root mab, loadMab_minExplore root mab⟩, fun hinit => ?_⟩
    rw [loadMab_initialized] at hinit
    exact absurd hinit (by simp)
  | pick scopeMask =>
    obtain rfl := Option.some.inj hstep
    obtain ⟨hc, hexplore, hinit⟩ :=
      nvMabPick_tunables (s.vars.env s.rounding) s.fns mab scopeMask
    refine ⟨fun _ => ?_, fun hnot => ?_⟩
    · rw [hc, hexplore]
      exact h.lazyInit
    · rw [hinit] at hnot
      exact absurd hnot (by simp)
  | begin selectedArm actualUsedArm iterationId updateSource =>
    obtain rfl := Option.some.inj hstep
    exact ⟨h.established, h.fresh⟩
  | update arm reward =>
    obtain rfl := Option.some.inj hstep
    obtain ⟨hc, hexplore, hinit⟩ := nvMabUpdate_tunables mab arm reward
    refine ⟨fun hyes => ?_, fun hno => h.fresh (hinit ▸ hno)⟩
    rw [hc, hexplore]
    exact h.established (hinit ▸ hyes)

theorem lastDoc_cons (lib : CLib) (doc : Option CJson) (e : Event) (es : List Event) :
    lastDoc lib doc (e :: es) = lastDoc lib (lastDoc lib doc [e]) es := by
  cases e <;> rfl

theorem run_none (es : List Event) : Machine.run s.step none es = none := by
  induction es with
  | nil => rfl
  | cons e es ih => exact ih

theorem InForce.run {doc : Option CJson} {mab mab' : NvMab ℚ} {es : List Event}
    (h : InForce s doc mab) (hrun : Machine.run s.step (some mab) es = some mab') :
    InForce s (lastDoc s.lib doc es) mab' := by
  induction es generalizing doc mab with
  | nil =>
    obtain rfl := Option.some.inj hrun
    exact h
  | cons e es ih =>
    rw [Machine.run_cons] at hrun
    cases hstep : (s.step (some mab) e).2 with
    | none =>
      rw [hstep, run_none] at hrun
      exact absurd hrun (by simp)
    | some next =>
      rw [hstep] at hrun
      rw [lastDoc_cons]
      exact ih (h.step hstep) hrun

/-! ## The result -/

/-- The memory of a process that has just started, with or without `afl_state_init`. -/
def Started (s : Setup) (mab : NvMab ℚ) : Prop :=
  mab = NvMab.zero ∨ mab = nvMabInitDefaults (s.vars.env s.rounding) NvMab.zero

theorem Started.inForce {mab : NvMab ℚ} (h : Started s mab) : InForce s none mab := by
  rcases h with rfl | rfl
  · exact ⟨fun hinit => absurd hinit (by simp [NvMab.zero]), fun _ => rfl⟩
  · exact ⟨fun _ => defaults_inForce _, fun _ => rfl⟩

theorem trunc_range {q : ℚ} (hlow : 1 ≤ q) (hhigh : q ≤ 1000000) :
    1 ≤ (CDouble.trunc q).toNat ∧ (CDouble.trunc q).toNat ≤ 1000000 := by
  have hnum : 0 ≤ q.num := Rat.num_nonneg.mpr (by linarith)
  have hfloor : CDouble.trunc q = ⌊q⌋ := by
    rw [CDouble.trunc, Int.tdiv_eq_ediv_of_nonneg hnum, Rat.floor_def']
  have hone : 1 ≤ ⌊q⌋ := Int.le_floor.mpr (by simpa using hlow)
  have hmax : ⌊q⌋ ≤ 1000000 := Int.floor_le_iff.mpr (by
    have : q < 1000000 + 1 := by linarith
    simpa using this)
  rw [hfloor]
  omega

theorem EffectiveC.pos {doc : Option CJson} {c : ℚ} (h : EffectiveC s doc c) : 0 < c := by
  rcases h with ⟨_, _, _, _, _, _, _, _, hpos⟩ | ⟨-, ⟨_, _, _, hpos⟩ | ⟨-, rfl⟩⟩
  · exact hpos
  · exact hpos
  · norm_num

theorem EffectiveMinExplore.range {doc : Option CJson} {m : ℕ}
    (h : EffectiveMinExplore s doc m) : 1 ≤ m ∧ m ≤ 1000000 := by
  rcases h with ⟨_, v, _, _, _, _, hlow, hhigh, rfl⟩ |
    ⟨-, ⟨_, q, _, _, hlow, hhigh, rfl⟩ | ⟨-, rfl⟩⟩
  · omega
  · exact trunc_range hlow hhigh
  · decide

/-- Every pick uses the constant and the length of the warm-up that the environment, the
document loaded last and the defaults give, in this order. -/
theorem tunables_in_force (s : Setup) {start : NvMab ℚ} (hstart : Started s start)
    {es : List Event} {mab : NvMab ℚ} (hrun : Machine.run s.step (some start) es = some mab)
    (scopeMask : UInt32) :
    ∃ c m, (s.step (some mab) (.pick scopeMask)).1 = some (c, m) ∧
      EffectiveC s (lastDoc s.lib none es) c ∧
      EffectiveMinExplore s (lastDoc s.lib none es) m ∧ 0 < c ∧ 1 ≤ m ∧ m ≤ 1000000 := by
  obtain ⟨hc, hexplore⟩ := (hstart.inForce.run hrun).lazyInit
  have heffC : EffectiveC s (lastDoc s.lib none es) (cInForce s (lastDoc s.lib none es)) :=
    effectiveC _
  have heffM : EffectiveMinExplore s (lastDoc s.lib none es)
      (minExploreInForce s (lastDoc s.lib none es)) := effectiveMinExplore _
  refine ⟨_, _, ?_, heffC, heffM, heffC.pos, heffM.range.1, heffM.range.2⟩
  show some (_, _) = _
  rw [hc, hexplore]

/-! ## Two variables -/

/-- Rounding of the numbers that a double holds, and of `1e-310`, which lies below the normal
doubles and between two others. -/
def subnormalRounding : Rounding where
  round q := if q = 1 / 10 ^ 310 then .finite (20240225330731 / 2 ^ 1074) else .finite q
  erange q := q = 1 / 10 ^ 310

/-- A process with these variables and no task file. -/
def plainSetup (c minExplore : String) : Setup where
  lib := .ofDocs []
  rounding := subnormalRounding
  fns := ⟨id, id⟩
  vars := ⟨some (ascii c), some (ascii minExplore)⟩

theorem tunables_in_force_plain :
    ∃ c m, ((plainSetup " 0.5 " "16").step (some NvMab.zero) (.pick 0)).1 = some (c, m) ∧
      EffectiveC (plainSetup " 0.5 " "16") none c ∧
      EffectiveMinExplore (plainSetup " 0.5 " "16") none m ∧ 0 < c ∧ 1 ≤ m ∧ m ≤ 1000000 :=
  have hrun : Machine.run (plainSetup " 0.5 " "16").step (some NvMab.zero) [] =
      some NvMab.zero := rfl
  tunables_in_force (plainSetup " 0.5 " "16") (Or.inl rfl) hrun 0

/-- A numeral of a 1 and an exponent. -/
def powerOfTen (sign : Numeral.Sign) (digits : Bytes) (hne : digits ≠ [])
    (hok : ∀ b ∈ digits, Numeral.isDigit b = true) : Lib.Numeral where
  sign := none
  whole := [49]
  frac := none
  exp := some ⟨false, sign, digits, hne, hok⟩
  whole_ok := List.all_eq_true.mp (by decide)
  frac_ok := List.all_eq_true.mp (by decide)
  digits_ne := by decide

/-- A decimal number without a sign in front. -/
theorem scanDouble_decimal {text : Bytes} {v : ℚ} (hscan : Numeral.scan text = some (v, []))
    (hblank : text.dropWhile isspace = text) (hsign : (Numeral.scanSign text).2 = text)
    (hhex : dropWord (ascii "0x") text = none) (hinf : dropWord (ascii "infinity") text = none)
    (hinf' : dropWord (ascii "inf") text = none) (hnan : dropWord (ascii "nan") text = none) :
    scanDouble text = some (.number v, []) := by
  unfold scanDouble scanHex
  simp only [hblank, hsign, hhex, hinf, hinf', hnan, hscan, Option.bind_none, Option.map_some]

theorem scan_powerOfTen (sign : Numeral.Sign) (digits : Bytes) (hne : digits ≠ [])
    (hok : ∀ b ∈ digits, Numeral.isDigit b = true) :
    Numeral.scan (Numeral.text (powerOfTen sign digits hne hok)) =
      some (Numeral.scale 1 (Numeral.expValue (powerOfTen sign digits hne hok).exp), []) := by
  have hstops : Numeral.Stops (powerOfTen sign digits hne hok) [] :=
    ⟨by simp, by simp, by simp [powerOfTen]⟩
  have hscan := Numeral.scan_text hstops
  have hone : Numeral.natOf [49] = 1 := by decide
  rw [List.append_nil] at hscan
  rw [hscan, Numeral.value, Numeral.valueOf]
  congr 3
  show (1 : ℚ) * ((Numeral.natOf [49] : ℚ) / 10 ^ 0) = 1
  rw [hone]
  norm_num

theorem scan_small : scanDouble (ascii "1e-310") = some (.number (1 / 10 ^ 310), []) := by
  have hscan := scan_powerOfTen (some true) (ascii "310") (by decide)
    (List.all_eq_true.mp (by decide))
  have hexp : Numeral.expValue (powerOfTen (some true) (ascii "310") (by decide)
      (List.all_eq_true.mp (by decide))).exp = Int.negSucc 309 := by decide
  rw [hexp] at hscan
  exact scanDouble_decimal hscan (by decide) (by decide) (by decide) (by decide) (by decide)
    (by decide)

theorem scan_thousand : scanDouble (ascii "1e3") = some (.number 1000, []) := by
  have hscan := scan_powerOfTen none (ascii "3") (by decide) (List.all_eq_true.mp (by decide))
  have hexp : Numeral.expValue (powerOfTen none (ascii "3") (by decide)
      (List.all_eq_true.mp (by decide))).exp = Int.ofNat 3 := by decide
  have hvalue : Numeral.scale 1 (Int.ofNat 3) = 1000 := by norm_num [Numeral.scale]
  rw [hexp, hvalue] at hscan
  exact scanDouble_decimal hscan (by decide) (by decide) (by decide) (by decide) (by decide)
    (by decide)

/-- The values `1e-310` and `1e3` are numbers in range, the first one a positive double; the
pick uses the defaults. -/
theorem small_and_scientific_ignored :
    scanDouble (ascii "1e-310") = some (.number (1 / 10 ^ 310), []) ∧
      subnormalRounding.round (1 / 10 ^ 310) = .finite (20240225330731 / 2 ^ 1074) ∧
      (0 : ℚ) < 20240225330731 / 2 ^ 1074 ∧
      scanDouble (ascii "1e3") = some (.number 1000, []) ∧
      ((plainSetup "1e-310" "1e3").step (some NvMab.zero) (.pick 0)).1 = some (1 / 20, 8) := by
  have hpos : (0 : ℚ) < 20240225330731 / 2 ^ 1074 := by positivity
  have hc : nvMabEnvC subnormalRounding (some (ascii "1e-310")) = none := by
    rw [Option.eq_none_iff_forall_ne_some]
    intro c hc
    obtain ⟨raw, v, rest, hraw, hscan, -, herange, -⟩ := nvMabEnvC_eq_some.mp hc
    obtain rfl := Option.some.inj hraw
    obtain ⟨hv, -⟩ := Prod.mk.inj (Option.some.inj (scan_small.symm.trans hscan))
    obtain rfl := Token.number.inj hv
    exact absurd herange (by simp [subnormalRounding])
  have hexplore : nvMabEnvMinExplore (some (ascii "1e3")) = none := by decide
  refine ⟨scan_small, if_pos rfl, hpos, scan_thousand, ?_⟩
  show some (NvMab.c _, NvMab.minExplore _) = _
  simp [NvMab.lazyInit, NvMab.zero, nvMabInitDefaults, Vars.env, plainSetup, hc, hexplore]

end MabConfig

end AflNv
