import Mathlib.Data.List.TakeWhile
import Mathlib.Tactic.Ring
import Mathlib.Tactic.FieldSimp
import Mathlib.Tactic.Positivity
import Mathlib.Tactic.Linarith

/-!
# Decimal numerals

A numeral has a sign, digits before and behind a point, and an exponent; its value is a
rational number.  `scan` reads the longest numeral at the front of a text.

* `Numeral.cut` is what is left of a numeral whose text ends early, and `scan_take` says
  that it is what `scan` reads there.
* `cut_value_eq_iff` says when a cut numeral without an exponent keeps its value: only
  zeros are missing behind the point, and digits before the point are missing only from
  a zero.
-/

namespace AflNv.Lib.Numeral

abbrev Text := List UInt8

def isDigit (b : UInt8) : Bool := 48 ≤ b && b ≤ 57

/-- The number that digits denote. -/
def natOf (ds : Text) : ℕ := ds.foldl (fun n b => 10 * n + (b.toNat - 48)) 0

/-- `q * 10 ^ e` -/
def scale (q : ℚ) : ℤ → ℚ
  | .ofNat n => q * 10 ^ n
  | .negSucc n => q / 10 ^ (n + 1)

/-- The number with these digits before and behind the point. -/
def valueOf (neg : Bool) (whole frac : Text) (exp : ℤ) : ℚ :=
  scale ((if neg then -1 else 1) * (natOf (whole ++ frac) / 10 ^ frac.length)) exp

/-! ## Reading -/

def scanSign : Text → Bool × Text
  | [] => (false, [])
  | b :: text =>
    if b = 45 then (true, text) else if b = 43 then (false, text) else (false, b :: text)

/-- The digits at the front of a text, and what follows them. -/
def scanDigits (text : Text) : Text × Text :=
  (text.takeWhile isDigit, text.dropWhile isDigit)

/-- The point and the digits behind it. -/
def scanFraction : Text → Text × Text
  | [] => ([], [])
  | b :: text => if b = 46 then scanDigits text else ([], b :: text)

/-- The exponent; a mark that no digit follows belongs to no numeral. -/
def scanExponent : Text → ℤ × Text
  | [] => (0, [])
  | b :: text =>
    let sign := scanSign text
    let digits := scanDigits sign.2
    if (b = 101 ∨ b = 69) ∧ digits.1 ≠ [] then
      (if sign.1 then -(natOf digits.1 : ℤ) else natOf digits.1, digits.2)
    else (0, b :: text)

/-- The longest numeral at the front of a text: its value, and what follows it. -/
def scan (text : Text) : Option (ℚ × Text) :=
  let sign := scanSign text
  let whole := scanDigits sign.2
  let frac := scanFraction whole.2
  if whole.1 ++ frac.1 = [] then none
  else
    let exp := scanExponent frac.2
    some (valueOf sign.1 whole.1 frac.1 exp.1, exp.2)

/-! ## Numerals -/

/-- A sign, if there is one. -/
abbrev Sign := Option Bool

namespace Sign

def text : Sign → Text
  | none => []
  | some true => [45]
  | some false => [43]

/-- The sign is a minus. -/
def isMinus (s : Sign) : Bool := s = some true

end Sign

/-- An exponent: the mark `e` or `E`, a sign and digits. -/
structure Exponent where
  upper : Bool
  sign : Sign
  digits : Text
  digits_ne : digits ≠ []
  digits_ok : ∀ b ∈ digits, isDigit b = true

namespace Exponent

def mark (e : Exponent) : UInt8 := if e.upper then 69 else 101

def text (e : Exponent) : Text := e.mark :: (Sign.text e.sign ++ e.digits)

def value (e : Exponent) : ℤ :=
  if Sign.isMinus e.sign then -(natOf e.digits : ℤ) else natOf e.digits

end Exponent

end Numeral

/-- A decimal numeral; without a point there is no `frac`. -/
structure Numeral where
  sign : Numeral.Sign
  whole : Numeral.Text
  frac : Option Numeral.Text
  exp : Option Numeral.Exponent
  whole_ok : ∀ b ∈ whole, Numeral.isDigit b = true
  frac_ok : ∀ b ∈ frac.getD [], Numeral.isDigit b = true
  digits_ne : whole ++ frac.getD [] ≠ []

namespace Numeral

/-- The point and the digits behind it. -/
def fracText : Option Text → Text
  | none => []
  | some ds => 46 :: ds

def expText : Option Exponent → Text
  | none => []
  | some e => e.text

def expValue : Option Exponent → ℤ
  | none => 0
  | some e => e.value

def text (n : Numeral) : Text :=
  Sign.text n.sign ++ (n.whole ++ (fracText n.frac ++ expText n.exp))

def value (n : Numeral) : ℚ :=
  valueOf (Sign.isMinus n.sign) n.whole (n.frac.getD []) (expValue n.exp)

/-- A byte of a numeral. -/
def isNumeralByte (b : UInt8) : Bool :=
  isDigit b || b = 43 || b = 45 || b = 46 || b = 101 || b = 69

theorem isNumeralByte_of_isDigit {b : UInt8} (h : isDigit b = true) : isNumeralByte b = true := by
  simp [isNumeralByte, h]

theorem Sign.text_bytes (s : Sign) : ∀ b ∈ Sign.text s, isNumeralByte b = true := by
  match s with
  | none => exact fun _ hb => (nomatch hb)
  | some true => exact fun _ hb => List.mem_singleton.mp hb ▸ rfl
  | some false => exact fun _ hb => List.mem_singleton.mp hb ▸ rfl

theorem Exponent.text_bytes (e : Exponent) : ∀ b ∈ e.text, isNumeralByte b = true := by
  refine List.forall_mem_cons.mpr ⟨?_, List.forall_mem_append.mpr ⟨Sign.text_bytes e.sign, ?_⟩⟩
  · rw [Exponent.mark]
    split_ifs <;> rfl
  · exact fun b hb => isNumeralByte_of_isDigit (e.digits_ok b hb)

theorem text_bytes (n : Numeral) : ∀ b ∈ n.text, isNumeralByte b = true := by
  have hfrac := n.frac_ok
  refine List.forall_mem_append.mpr ⟨Sign.text_bytes n.sign, List.forall_mem_append.mpr
    ⟨fun b hb => isNumeralByte_of_isDigit (n.whole_ok b hb), List.forall_mem_append.mpr ⟨?_, ?_⟩⟩⟩
  · cases hf : n.frac with
    | none => exact fun _ hb => (nomatch hb)
    | some ds =>
      rw [hf] at hfrac
      exact List.forall_mem_cons.mpr ⟨rfl, fun b hb => isNumeralByte_of_isDigit (hfrac b hb)⟩
  · cases n.exp with
    | none => exact fun _ hb => (nomatch hb)
    | some e => exact e.text_bytes

theorem text_ne_nil (n : Numeral) : n.text ≠ [] := by
  intro h
  obtain ⟨-, h⟩ := List.append_eq_nil_iff.mp h
  obtain ⟨hwhole, h⟩ := List.append_eq_nil_iff.mp h
  obtain ⟨hfrac, -⟩ := List.append_eq_nil_iff.mp h
  refine n.digits_ne (List.append_eq_nil_iff.mpr ⟨hwhole, ?_⟩)
  cases hf : n.frac with
  | none => rfl
  | some ds =>
    rw [hf] at hfrac
    exact absurd hfrac (List.cons_ne_nil _ _)

/-! ## What is left of a numeral whose text ends early -/

/-- The exponent in the first `k` bytes of its text. -/
def Exponent.cut (e : Exponent) (k : ℕ) : Option Exponent :=
  if h : e.digits.take (k - 1 - (Sign.text e.sign).length) ≠ [] then
    some { e with
      digits := e.digits.take (k - 1 - (Sign.text e.sign).length)
      digits_ne := h
      digits_ok := fun b hb => e.digits_ok b (List.mem_of_mem_take hb) }
  else none

/-- The point and the digits in the first `k` bytes of their text. -/
def cutFrac : Option Text → ℕ → Option Text
  | some ds, k + 1 => some (ds.take k)
  | _, _ => none

theorem mem_cutFrac {frac : Option Text} {k : ℕ} {b : UInt8} (h : b ∈ (cutFrac frac k).getD []) :
    b ∈ frac.getD [] := by
  cases frac with
  | none => exact h
  | some ds =>
    cases k with
    | zero => exact absurd h (by simp [cutFrac])
    | succ k => exact List.mem_of_mem_take h

/-- The numeral in the first `k` bytes of the text, if there is one. -/
def cut (n : Numeral) (k : ℕ) : Option Numeral :=
  let j := k - (Sign.text n.sign).length
  let i := j - n.whole.length
  if h : n.whole.take j ++ (cutFrac n.frac i).getD [] ≠ [] then
    some {
      sign := n.sign
      whole := n.whole.take j
      frac := cutFrac n.frac i
      exp := n.exp.bind fun e => e.cut (i - (fracText n.frac).length)
      whole_ok := fun b hb => n.whole_ok b (List.mem_of_mem_take hb)
      frac_ok := fun b hb => n.frac_ok b (mem_cutFrac hb)
      digits_ne := h }
  else none

/-! ## Reading a numeral -/

/-- A digit is no other byte of a numeral. -/
theorem ne_of_isDigit {b : UInt8} (h : isDigit b = true) {c : UInt8} (hc : isDigit c = false) :
    b ≠ c := fun heq => Bool.false_ne_true (hc.symm.trans (heq ▸ h))

theorem scanDigits_append {ds rest : Text} (hds : ∀ b ∈ ds, isDigit b = true)
    (hrest : ∀ b ∈ rest.head?, isDigit b = false) : scanDigits (ds ++ rest) = (ds, rest) := by
  have hhead : rest.takeWhile isDigit = [] ∧ rest.dropWhile isDigit = rest := by
    cases rest with
    | nil => exact ⟨rfl, rfl⟩
    | cons b rest =>
      have hb : isDigit b = false := hrest b rfl
      simp [hb]
  rw [scanDigits, List.takeWhile_append_of_pos hds, List.dropWhile_append_of_pos hds, hhead.1,
    hhead.2, List.append_nil]

theorem scanSign_text (s : Sign) {rest : Text} (hrest : ∀ b ∈ rest.head?, b ≠ 45 ∧ b ≠ 43) :
    scanSign (Sign.text s ++ rest) = (Sign.isMinus s, rest) := by
  match s with
  | some true => rfl
  | some false => rfl
  | none =>
    cases rest with
    | nil => rfl
    | cons b rest =>
      obtain ⟨h45, h43⟩ := hrest b rfl
      show scanSign (b :: rest) = _
      rw [scanSign, if_neg h45, if_neg h43]
      rfl

theorem head_of_digits {ds : Text} (hds : ∀ b ∈ ds, isDigit b = true) (rest : Text) :
    ∀ b ∈ (ds ++ rest).head?, isDigit b = true ∨ (ds = [] ∧ b ∈ rest.head?) := by
  intro b hb
  cases ds with
  | nil => exact .inr ⟨rfl, hb⟩
  | cons d ds =>
    obtain rfl : d = b := Option.some.inj hb
    exact .inl (hds d List.mem_cons_self)

theorem no_sign_of_isDigit {b : UInt8} (h : isDigit b = true) : b ≠ 45 ∧ b ≠ 43 :=
  ⟨ne_of_isDigit h rfl, ne_of_isDigit h rfl⟩

theorem scanExponent_text (e : Exponent) {rest : Text}
    (hrest : ∀ b ∈ rest.head?, isDigit b = false) :
    scanExponent (e.text ++ rest) = (e.value, rest) := by
  have hsign : scanSign (Sign.text e.sign ++ (e.digits ++ rest)) =
      (Sign.isMinus e.sign, e.digits ++ rest) := by
    refine scanSign_text e.sign fun b hb => ?_
    rcases head_of_digits e.digits_ok rest b hb with hdigit | ⟨hnil, -⟩
    · exact no_sign_of_isDigit hdigit
    · exact absurd hnil e.digits_ne
  have hmark : e.mark = 101 ∨ e.mark = 69 := by
    rw [Exponent.mark]
    split_ifs
    · exact .inr rfl
    · exact .inl rfl
  rw [Exponent.text, List.cons_append, List.append_assoc, scanExponent]
  rw [hsign, scanDigits_append e.digits_ok hrest, if_pos ⟨hmark, e.digits_ne⟩]
  rfl

theorem Exponent.mark_spec (e : Exponent) : isDigit e.mark = false ∧ e.mark ≠ 46 := by
  rw [Exponent.mark]
  split_ifs
  · exact ⟨rfl, by decide⟩
  · exact ⟨rfl, by decide⟩

/-- The numeral ends before this text. -/
structure Stops (n : Numeral) (rest : Text) : Prop where
  noDigit : ∀ b ∈ rest.head?, isDigit b = false
  noPoint : n.exp = none → n.frac = none → ∀ b ∈ rest.head?, b ≠ 46
  noExponent : n.exp = none → scanExponent rest = (0, rest)

theorem scanExponent_expText {n : Numeral} {rest : Text} (h : n.Stops rest) :
    scanExponent (expText n.exp ++ rest) = (expValue n.exp, rest) := by
  have hno := h.noExponent
  cases hexp : n.exp with
  | none => exact hno hexp
  | some e => exact scanExponent_text e h.noDigit

theorem head_expText {n : Numeral} {rest : Text} (h : n.Stops rest) :
    ∀ b ∈ (expText n.exp ++ rest).head?, isDigit b = false ∧ (n.frac = none → b ≠ 46) := by
  intro b hb
  have hpoint := h.noPoint
  cases hexp : n.exp with
  | none =>
    rw [hexp] at hb
    exact ⟨h.noDigit b hb, fun hfrac => hpoint hexp hfrac b hb⟩
  | some e =>
    rw [hexp] at hb
    obtain rfl : e.mark = b := Option.some.inj hb
    exact ⟨e.mark_spec.1, fun _ => e.mark_spec.2⟩

theorem scanFraction_fracText {n : Numeral} {rest : Text} (h : n.Stops rest) :
    scanFraction (fracText n.frac ++ (expText n.exp ++ rest)) =
      (n.frac.getD [], expText n.exp ++ rest) := by
  have hhead := head_expText h
  have hok := n.frac_ok
  cases hfrac : n.frac with
  | some ds =>
    rw [hfrac] at hok
    show scanDigits (ds ++ (expText n.exp ++ rest)) = _
    exact scanDigits_append hok fun b hb => (hhead b hb).1
  | none =>
    show scanFraction (expText n.exp ++ rest) = ([], expText n.exp ++ rest)
    cases htext : expText n.exp ++ rest with
    | nil => rfl
    | cons b text => rw [scanFraction, if_neg ((hhead b (by rw [htext]; rfl)).2 hfrac)]

/-- A numeral is read back, whatever stops it. -/
theorem scan_text {n : Numeral} {rest : Text} (h : n.Stops rest) :
    scan (n.text ++ rest) = some (n.value, rest) := by
  have hsplit : n.text ++ rest = Sign.text n.sign ++ (n.whole ++
      (fracText n.frac ++ (expText n.exp ++ rest))) := by
    simp only [text, List.append_assoc]
  have hfracHead : ∀ b ∈ (fracText n.frac ++ (expText n.exp ++ rest)).head?,
      isDigit b = false ∧ (n.whole = [] → b = 46) := by
    intro b hb
    cases hfrac : n.frac with
    | some ds =>
      rw [hfrac] at hb
      obtain rfl : 46 = b := Option.some.inj hb
      exact ⟨rfl, fun _ => rfl⟩
    | none =>
      rw [hfrac] at hb
      refine ⟨(head_expText h b hb).1, fun hwhole => absurd ?_ n.digits_ne⟩
      rw [hwhole, hfrac]
      rfl
  have hsign : ∀ b ∈ (n.whole ++ (fracText n.frac ++ (expText n.exp ++ rest))).head?,
      b ≠ 45 ∧ b ≠ 43 := by
    intro b hb
    rcases head_of_digits n.whole_ok _ b hb with hdigit | ⟨hnil, hmem⟩
    · exact no_sign_of_isDigit hdigit
    · rw [(hfracHead b hmem).2 hnil]
      decide
  rw [hsplit, scan]
  dsimp only
  rw [scanSign_text n.sign hsign]
  dsimp only
  rw [scanDigits_append n.whole_ok fun b hb => (hfracHead b hb).1]
  dsimp only
  rw [scanFraction_fracText h, if_neg n.digits_ne, scanExponent_expText h]
  rfl

/-! ## Reading a numeral whose text ends early -/

/-- What follows a numeral and does not belong to it. -/
def Ends (rest : Text) : Prop := ∀ b ∈ rest.head?, isDigit b = false ∧ b ≠ 46 ∧ b ≠ 101 ∧ b ≠ 69

theorem Ends.take {rest : Text} (h : Ends rest) (k : ℕ) : Ends (rest.take k) := by
  cases rest with
  | nil => rwa [List.take_nil]
  | cons b rest =>
    cases k with
    | zero => exact fun _ hb => (nomatch hb)
    | succ k => exact h

theorem Ends.scanExponent_eq {rest : Text} (h : Ends rest) : scanExponent rest = (0, rest) := by
  cases rest with
  | nil => rfl
  | cons b rest =>
    obtain ⟨-, -, h101, h69⟩ := h b rfl
    rw [scanExponent, if_neg fun hmark => hmark.1.elim h101 h69]

theorem fracText_cutFrac (frac : Option Text) (k : ℕ) :
    (fracText frac).take k = fracText (cutFrac frac k) := by
  cases frac with
  | none => exact List.take_nil
  | some ds =>
    cases k with
    | zero => rfl
    | succ k => rfl

/-- A mark and a part of a sign are no exponent. -/
theorem scanExponent_mark (mark : UInt8) (s : Sign) (k : ℕ) :
    scanExponent (mark :: (Sign.text s).take k) = (0, mark :: (Sign.text s).take k) := by
  have hdigits : (scanDigits (scanSign ((Sign.text s).take k)).2).1 = [] := by
    match s, k with
    | none, _ => rw [Sign.text, List.take_nil]; rfl
    | some true, 0 => rfl
    | some true, k + 1 => simp [Sign.text, scanSign, scanDigits]
    | some false, 0 => rfl
    | some false, k + 1 => simp [Sign.text, scanSign, scanDigits]
  rw [scanExponent, if_neg fun h => h.2 hdigits]

/-- What is left of an exponent and of what follows it. -/
theorem expText_take (e : Option Exponent) {rest : Text} (hrest : Ends rest) (k : ℕ) :
    ∃ left, (expText e ++ rest).take k = expText (e.bind fun e => e.cut k) ++ left ∧
      (∀ b ∈ left.head?, isDigit b = false ∧ b ≠ 46) ∧
      ((e.bind fun e => e.cut k) = none → scanExponent left = (0, left)) := by
  have hends : ∀ i, (∀ b ∈ (rest.take i).head?, isDigit b = false ∧ b ≠ 46) := fun i b hb =>
    ⟨(hrest.take i b hb).1, (hrest.take i b hb).2.1⟩
  cases e with
  | none => exact ⟨rest.take k, rfl, hends k, fun _ => (hrest.take k).scanExponent_eq⟩
  | some e =>
    have htake : ∀ j, (e.text ++ rest).take (j + 1) = e.mark :: ((Sign.text e.sign).take j ++
        ((e.digits.take (j - (Sign.text e.sign).length)) ++
          rest.take (j - (Sign.text e.sign).length - e.digits.length))) := by
      intro j
      simp only [Exponent.text, List.cons_append, List.take_succ_cons, List.append_assoc,
        List.take_append]
    cases k with
    | zero =>
      have hcut : e.cut 0 = none := by simp [Exponent.cut]
      refine ⟨[], ?_, fun _ h => (nomatch h), fun _ => rfl⟩
      rw [List.take_zero, Option.bind_some, hcut]
      rfl
    | succ j =>
      by_cases hdigits : e.digits.take (j - (Sign.text e.sign).length) = []
      · have hcut : e.cut (j + 1) = none := by
          rw [Exponent.cut, dif_neg]
          exact not_not.mpr hdigits
        have hshort : j - (Sign.text e.sign).length = 0 := by
          by_contra hpos
          rw [List.take_eq_nil_iff] at hdigits
          exact hdigits.elim hpos e.digits_ne
        have hleft : (e.text ++ rest).take (j + 1) = e.mark :: (Sign.text e.sign).take j := by
          rw [htake, hshort]
          simp
        refine ⟨e.mark :: (Sign.text e.sign).take j, ?_, ?_, fun _ => scanExponent_mark _ e.sign j⟩
        · rw [Option.bind_some, hcut]
          exact hleft
        · intro b hb
          exact Option.some.inj hb ▸ e.mark_spec
      · have hcut : e.cut (j + 1) = some { e with
            digits := e.digits.take (j - (Sign.text e.sign).length)
            digits_ne := hdigits
            digits_ok := fun b hb => e.digits_ok b (List.mem_of_mem_take hb) } := by
          exact dif_pos hdigits
        have hsign : (Sign.text e.sign).take j = Sign.text e.sign := by
          refine List.take_of_length_le ?_
          by_contra hlt
          rw [Nat.sub_eq_zero_of_le (by omega)] at hdigits
          exact hdigits rfl
        refine ⟨rest.take (j - (Sign.text e.sign).length - e.digits.length), ?_, hends _, ?_⟩
        · rw [Option.bind_some, hcut]
          show (e.text ++ rest).take (j + 1) = _
          rw [htake, hsign]
          simp only [expText, Exponent.text, List.cons_append, List.append_assoc]
          rfl
        · intro hnone
          rw [Option.bind_some, hcut] at hnone
          exact absurd hnone nofun

theorem scan_sign_take (s : Sign) (k : ℕ) : scan ((Sign.text s).take k) = none := by
  match s, k with
  | none, _ => rw [Sign.text, List.take_nil]; rfl
  | some true, 0 => rfl
  | some true, k + 1 => simp [Sign.text, scan, scanSign, scanDigits, scanFraction]
  | some false, 0 => rfl
  | some false, k + 1 => simp [Sign.text, scan, scanSign, scanDigits, scanFraction]

theorem scan_sign_point (s : Sign) : scan (Sign.text s ++ [46]) = none := by
  match s with
  | none => rfl
  | some true => rfl
  | some false => rfl

/-- What is read of a numeral whose text ends early. -/
theorem scan_take (n : Numeral) {rest : Text} (hrest : Ends rest) (k : ℕ) :
    (scan ((n.text ++ rest).take k)).map Prod.fst = (n.cut k).map value := by
  set j := k - (Sign.text n.sign).length with hj
  set i := j - n.whole.length with hi
  obtain ⟨left, hleft, hstops, hexp⟩ :=
    expText_take n.exp hrest (i - (fracText n.frac).length)
  have htext : (n.text ++ rest).take k = (Sign.text n.sign).take k ++ (n.whole.take j ++
      (fracText (cutFrac n.frac i) ++ (expText (n.exp.bind fun e =>
        e.cut (i - (fracText n.frac).length)) ++ left))) := by
    rw [← hleft, ← fracText_cutFrac]
    simp only [text, List.append_assoc, List.take_append, ← hj, ← hi]
  by_cases hdigits : n.whole.take j ++ (cutFrac n.frac i).getD [] = []
  · have hcut : n.cut k = none := dif_neg (not_not.mpr hdigits)
    obtain ⟨hwhole, hfrac⟩ := List.append_eq_nil_iff.mp hdigits
    have hrest0 : i - (fracText n.frac).length = 0 → expText (n.exp.bind fun e =>
        e.cut (i - (fracText n.frac).length)) ++ left = [] := by
      intro h0
      rw [← hleft, h0, List.take_zero]
    rw [hcut, htext, hwhole, List.nil_append]
    rcases List.take_eq_nil_iff.mp hwhole with hj0 | hnil
    · -- The text ends in the sign.
      have hi0 : i = 0 := by omega
      have hcutFrac : cutFrac n.frac i = none := by
        rw [hi0]
        cases n.frac <;> rfl
      rw [hcutFrac, hrest0 (by omega)]
      simp [fracText, scan_sign_take]
    · -- The numeral starts with a point, and no digit behind it is left.
      cases hn : n.frac with
      | none => exact absurd (by rw [hnil, hn]; rfl) n.digits_ne
      | some ds =>
        have hds : ds ≠ [] := fun h => n.digits_ne (by rw [hnil, hn, h]; rfl)
        have hlen : (fracText (some ds)).length = ds.length + 1 := rfl
        rw [hn] at hfrac hrest0
        cases hi' : i with
        | zero =>
          rw [hi'] at hrest0
          rw [hrest0 (by omega)]
          simp [cutFrac, fracText, scan_sign_take]
        | succ i' =>
          rw [hi'] at hfrac hrest0
          have htake : ds.take i' = [] := hfrac
          have hi0 : i' = 0 := (List.take_eq_nil_iff.mp htake).resolve_right hds
          have hsign : (Sign.text n.sign).take k = Sign.text n.sign :=
            List.take_of_length_le (by omega)
          rw [hrest0 (by omega), hsign, hi0]
          show (scan (Sign.text n.sign ++ [46])).map Prod.fst = none
          rw [scan_sign_point]
          rfl
  · have hcut : n.cut k = some {
        sign := n.sign
        whole := n.whole.take j
        frac := cutFrac n.frac i
        exp := n.exp.bind fun e => e.cut (i - (fracText n.frac).length)
        whole_ok := fun b hb => n.whole_ok b (List.mem_of_mem_take hb)
        frac_ok := fun b hb => n.frac_ok b (mem_cutFrac hb)
        digits_ne := hdigits } := dif_pos hdigits
    have hsign : (Sign.text n.sign).take k = Sign.text n.sign := by
      refine List.take_of_length_le ?_
      by_contra hlt
      have hj0 : j = 0 := by omega
      have hi0 : i = 0 := by omega
      rw [hj0, hi0] at hdigits
      exact hdigits (by cases n.frac <;> rfl)
    have hscan := scan_text (n := {
        sign := n.sign
        whole := n.whole.take j
        frac := cutFrac n.frac i
        exp := n.exp.bind fun e => e.cut (i - (fracText n.frac).length)
        whole_ok := fun b hb => n.whole_ok b (List.mem_of_mem_take hb)
        frac_ok := fun b hb => n.frac_ok b (mem_cutFrac hb)
        digits_ne := hdigits })
      ⟨fun b hb => (hstops b hb).1, fun _ _ b hb => (hstops b hb).2, hexp⟩
    rw [text] at hscan
    simp only [List.append_assoc] at hscan
    rw [hcut, htext, hsign, hscan]
    rfl

/-! ## The value of a cut numeral -/

theorem natOf_append (a b : Text) : natOf (a ++ b) = natOf a * 10 ^ b.length + natOf b := by
  have hfold : ∀ (ds : Text) (n : ℕ), ds.foldl (fun n b => 10 * n + (b.toNat - 48)) n =
      n * 10 ^ ds.length + natOf ds := by
    intro ds
    induction ds with
    | nil => intro n; simp [natOf]
    | cons d ds ih =>
      intro n
      rw [natOf, List.foldl_cons, List.foldl_cons, ih, ih (10 * 0 + _), List.length_cons, pow_succ]
      ring
  rw [natOf, List.foldl_append, hfold b]
  rfl

theorem natOf_eq_zero_iff {ds : Text} (hds : ∀ b ∈ ds, isDigit b = true) :
    natOf ds = 0 ↔ ∀ b ∈ ds, b = 48 := by
  induction ds with
  | nil => exact iff_of_true rfl fun _ hb => (nomatch hb)
  | cons d ds ih =>
    obtain ⟨hd, htail⟩ := List.forall_mem_cons.mp hds
    have hlow : 48 ≤ d.toNat := by
      simp only [isDigit, Bool.and_eq_true, decide_eq_true_eq] at hd
      exact UInt8.le_iff_toNat_le.mp hd.1
    have hzero : d.toNat - 48 = 0 ↔ d = 48 := by
      rw [← UInt8.toNat_inj]
      show d.toNat - 48 = 0 ↔ d.toNat = 48
      omega
    have hcons : natOf (d :: ds) = (d.toNat - 48) * 10 ^ ds.length + natOf ds := by
      have happend := natOf_append [d] ds
      simpa [natOf] using happend
    rw [hcons, Nat.add_eq_zero_iff, Nat.mul_eq_zero, ih htail, List.forall_mem_cons, hzero]
    simp

/-- Digits behind the point that are left out change nothing if they are zeros. -/
theorem frac_cut_iff (w f g : Text) :
    (natOf (w ++ f) : ℚ) / 10 ^ f.length = natOf (w ++ (f ++ g)) / 10 ^ (f ++ g).length ↔
      natOf g = 0 := by
  have hf : (10 : ℚ) ^ f.length ≠ 0 := by positivity
  have hg : (10 : ℚ) ^ g.length ≠ 0 := by positivity
  rw [← List.append_assoc, natOf_append (w ++ f) g, List.length_append, pow_add,
    div_eq_div_iff hf (mul_ne_zero hf hg)]
  push_cast
  constructor
  · intro h
    have hcancel : (10 : ℚ) ^ f.length * natOf g = 0 := by linarith
    exact_mod_cast (mul_eq_zero.mp hcancel).resolve_left hf
  · intro h
    rw [h]
    push_cast
    ring

/-- Digits before the point can be left out only of zero. -/
theorem whole_cut_iff {w v : Text} (hv : v ≠ []) (f : Text) :
    (natOf w : ℚ) = natOf ((w ++ v) ++ f) / 10 ^ f.length ↔ natOf w = 0 ∧ natOf (v ++ f) = 0 := by
  have hf : (10 : ℚ) ^ f.length ≠ 0 := by positivity
  rw [List.append_assoc, natOf_append w (v ++ f), List.length_append, eq_div_iff hf]
  constructor
  · intro h
    have hnat : natOf w * 10 ^ f.length =
        natOf w * 10 ^ (v.length + f.length) + natOf (v ++ f) := by
      exact_mod_cast h
    have hlt : 10 ^ f.length < 10 ^ (v.length + f.length) := by
      have hpos := List.length_pos_iff.mpr hv
      exact Nat.pow_lt_pow_right (by decide) (by omega)
    rcases Nat.eq_zero_or_pos (natOf w) with hw | hw
    · rw [hw] at hnat
      exact ⟨hw, by omega⟩
    · have hmul := Nat.mul_lt_mul_of_pos_left hlt hw
      omega
  · rintro ⟨hw, hvf⟩
    rw [hw, hvf]
    simp

/-- The digits that do not arrive in the first `k` bytes count for nothing. -/
def MissingZero (n : Numeral) (k : ℕ) : Prop :=
  (∀ b ∈ n.whole.drop (k - (Sign.text n.sign).length) ++
    (n.frac.getD []).drop (k - (Sign.text n.sign).length - n.whole.length - 1), b = 48) ∧
  (n.whole.drop (k - (Sign.text n.sign).length) ≠ [] → ∀ b ∈ n.whole, b = 48)

theorem cutFrac_getD (frac : Option Text) (k : ℕ) :
    (cutFrac frac k).getD [] = (frac.getD []).take (k - 1) := by
  cases frac with
  | none => exact List.take_nil.symm
  | some ds =>
    cases k with
    | zero => rfl
    | succ k => rfl

theorem sign_mul_inj (neg : Bool) (p q : ℚ) :
    (if neg then -1 else 1) * p = (if neg then -1 else 1) * q ↔ p = q := by
  cases neg <;> simp

theorem scale_zero (q : ℚ) : scale q 0 = q := by
  show q * 10 ^ 0 = q
  simp

/-- A numeral without an exponent keeps its value if the missing digits count for
nothing. -/
theorem cut_value_eq_iff {n c : Numeral} {k : ℕ} (hexp : n.exp = none) (hcut : n.cut k = some c) :
    c.value = n.value ↔ n.MissingZero k := by
  set j := k - (Sign.text n.sign).length with hj
  have hdigits : n.whole.take j ++ (cutFrac n.frac (j - n.whole.length)).getD [] ≠ [] := by
    intro h
    rw [cut, dif_neg (not_not.mpr h)] at hcut
    exact absurd hcut nofun
  have hc : c.value = valueOf (Sign.isMinus n.sign) (n.whole.take j)
      ((n.frac.getD []).take (j - n.whole.length - 1)) 0 := by
    rw [cut, dif_pos hdigits] at hcut
    rw [← Option.some.inj hcut, ← cutFrac_getD, value, hexp]
    rfl
  have hn : n.value = valueOf (Sign.isMinus n.sign) n.whole (n.frac.getD []) 0 := by
    rw [value, hexp]
    rfl
  rw [hc, hn, valueOf, valueOf, scale_zero, scale_zero, sign_mul_inj, MissingZero, ← hj]
  have hwholeOk : ∀ b ∈ n.whole.drop j, isDigit b = true := fun b hb =>
    n.whole_ok b (List.mem_of_mem_drop hb)
  by_cases hdrop : n.whole.drop j = []
  · have htake : n.whole.take j = n.whole :=
      List.take_of_length_le (List.drop_eq_nil_iff.mp hdrop)
    rw [htake, hdrop, List.nil_append]
    have hsplit := List.take_append_drop (j - n.whole.length - 1) (n.frac.getD [])
    have hiff := frac_cut_iff n.whole ((n.frac.getD []).take (j - n.whole.length - 1))
      ((n.frac.getD []).drop (j - n.whole.length - 1))
    rw [hsplit, natOf_eq_zero_iff fun b hb => n.frac_ok b (List.mem_of_mem_drop hb)] at hiff
    rw [hiff]
    simp
  · have hshort : j - n.whole.length = 0 := by
      rw [List.drop_eq_nil_iff] at hdrop
      omega
    have hiff := whole_cut_iff (w := n.whole.take j) hdrop (n.frac.getD [])
    rw [List.take_append_drop,
      natOf_eq_zero_iff (fun b hb => n.whole_ok b (List.mem_of_mem_take hb)),
      natOf_eq_zero_iff (List.forall_mem_append.mpr ⟨hwholeOk, n.frac_ok⟩)] at hiff
    rw [hshort, Nat.zero_sub, List.take_zero, List.append_nil, List.length_nil, pow_zero, div_one,
      hiff, List.drop_zero]
    constructor
    · rintro ⟨hw, hrest⟩
      refine ⟨hrest, fun _ b hb => ?_⟩
      rw [← List.take_append_drop j n.whole, List.mem_append] at hb
      exact hb.elim (hw b) fun h => hrest b (List.mem_append_left _ h)
    · rintro ⟨hrest, hw⟩
      exact ⟨fun b hb => hw hdrop b (List.mem_of_mem_take hb), hrest⟩

/-- The bytes in which the digits of a numeral end. -/
theorem length_digits_le (n : Numeral) {k : ℕ} (hk : n.text.length ≤ k) :
    n.whole.length ≤ k - (Sign.text n.sign).length ∧
      (n.frac.getD []).length ≤ k - (Sign.text n.sign).length - n.whole.length - 1 := by
  have hfrac : (n.frac.getD []).length ≤ (fracText n.frac).length - 1 := by
    cases n.frac with
    | none => exact Nat.zero_le _
    | some ds => exact Nat.le_refl _
  rw [text, List.length_append, List.length_append, List.length_append] at hk
  omega

/-- A numeral of which all bytes are there is not cut. -/
theorem exists_cut (n : Numeral) {k : ℕ} (hk : n.text.length ≤ k) : ∃ c, n.cut k = some c := by
  obtain ⟨hwhole, hfrac⟩ := n.length_digits_le hk
  have hdigits : n.whole.take (k - (Sign.text n.sign).length) ++ (cutFrac n.frac
      (k - (Sign.text n.sign).length - n.whole.length)).getD [] ≠ [] := by
    rw [cutFrac_getD, List.take_of_length_le hwhole, List.take_of_length_le hfrac]
    exact n.digits_ne
  rw [cut, dif_pos hdigits]
  exact ⟨_, rfl⟩

theorem missingZero_of_length_le (n : Numeral) {k : ℕ} (hk : n.text.length ≤ k) :
    n.MissingZero k := by
  obtain ⟨hwhole, hfrac⟩ := n.length_digits_le hk
  rw [MissingZero, List.drop_eq_nil_of_le hwhole, List.drop_eq_nil_of_le hfrac]
  exact ⟨fun b hb => absurd hb List.not_mem_nil, fun h => absurd rfl h⟩

end Numeral

end AflNv.Lib
