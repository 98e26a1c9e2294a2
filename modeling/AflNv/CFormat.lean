import Mathlib.Algebra.Ring.Rat
import AflNv.CBase

/-!
# Printing numbers

The conversions of `snprintf` that the audit files use: `%llu` and `%u` for
natural numbers, `%d` for integers and `%.17g` for doubles.  The reader of each
gives back the number.  `%.17g` is a parameter with the two properties the
files rely on: it is exact, and it prints no delimiter.
-/

namespace AflNv

/-- The bytes that end a value in a line of JSON: the comma, the quote, the
closing brace and the newline.  No number is printed with one of them. -/
def isDelimiter (b : UInt8) : Bool := b = 44 || b = 34 || b = 125 || b = nl

/-- `%llu`. -/
def showNat (n : ℕ) : Bytes := (Nat.toDigits 10 n).map fun c => UInt8.ofNat c.toNat

/-- The number a decimal text denotes. -/
def readNat (text : Bytes) : ℕ := text.foldl (fun n b => 10 * n + (b.toNat - 48)) 0

/-- `%d`. -/
def showInt : ℤ → Bytes
  | .ofNat n => showNat n
  | .negSucc n => 45 :: showNat (n + 1)

/-- The integer a decimal text denotes. -/
def readInt (text : Bytes) : ℤ :=
  if text.head? = some 45 then -(readNat text.tail : ℤ) else readNat text

/-- `x ? "true" : "false"`. -/
def showBool (b : Bool) : Bytes := if b then ascii "true" else ascii "false"

/-- `%.17g`, taken as exact. -/
structure DoubleFmt (R : Type) where
  print : R → Bytes
  read : Bytes → R
  read_print : ∀ x, read (print x) = x
  print_bytes : ∀ x, ∀ b ∈ print x, isDelimiter b = false

theorem digit_toNat {n : ℕ} {c : Char} (h : c ∈ Nat.toDigits 10 n) :
    (UInt8.ofNat c.toNat).toNat = c.toNat ∧ 48 ≤ c.toNat ∧ c.toNat ≤ 57 := by
  obtain ⟨hlo, hhi⟩ := Char.isDigit_iff_toNat.mp
    (Nat.isDigit_of_mem_toDigits (by decide) (by decide) h)
  rw [show '0'.toNat = 48 from rfl] at hlo
  rw [show '9'.toNat = 57 from rfl] at hhi
  refine ⟨?_, hlo, hhi⟩
  rw [UInt8.toNat_ofNat']
  omega

/-- The bytes of a printed natural number are digits. -/
theorem showNat_digit {n : ℕ} {b : UInt8} (h : b ∈ showNat n) : 48 ≤ b.toNat ∧ b.toNat ≤ 57 := by
  obtain ⟨c, hc, rfl⟩ := List.mem_map.mp h
  obtain ⟨heq, hlo, hhi⟩ := digit_toNat hc
  omega

theorem readNat_showNat (n : ℕ) : readNat (showNat n) = n := by
  have hfold : ∀ (cs : List Char), (∀ c ∈ cs, c ∈ Nat.toDigits 10 n) → ∀ acc : ℕ,
      (cs.map fun c => UInt8.ofNat c.toNat).foldl (fun n b => 10 * n + (b.toNat - 48)) acc =
        Nat.ofDigitChars 10 cs acc := by
    intro cs
    induction cs with
    | nil => intro _ acc; simp
    | cons c cs ih =>
      intro hmem acc
      rw [List.map_cons, List.foldl_cons, (digit_toNat (hmem c (by simp))).1,
        ih (fun d hd => hmem d (List.mem_cons_of_mem c hd)), Nat.ofDigitChars_cons]
      rfl
  rw [readNat, showNat, hfold _ (fun c hc => hc), Nat.ofDigitChars_ten_toDigits]

theorem isDelimiter_of_le {b : UInt8} (hlo : 48 ≤ b.toNat) (hhi : b.toNat ≤ 57) :
    isDelimiter b = false := by
  have hne : ∀ d : UInt8, d.toNat < 48 ∨ 57 < d.toNat → b ≠ d := by
    intro d hd hbd
    rw [hbd] at hlo hhi
    omega
  simp [isDelimiter, nl, hne 44 (by decide), hne 34 (by decide), hne 125 (by decide),
    hne 10 (by decide)]

theorem showNat_bytes (n : ℕ) : ∀ b ∈ showNat n, isDelimiter b = false := fun _ hb =>
  isDelimiter_of_le (showNat_digit hb).1 (showNat_digit hb).2

theorem showInt_bytes (z : ℤ) : ∀ b ∈ showInt z, isDelimiter b = false := by
  cases z with
  | ofNat n => exact showNat_bytes n
  | negSucc n =>
    intro b hb
    rcases List.mem_cons.mp hb with rfl | hb
    · decide
    · exact showNat_bytes _ b hb

theorem showBool_bytes (x : Bool) : ∀ b ∈ showBool x, isDelimiter b = false := by
  cases x <;> exact forall_mem_of_all (by decide)

theorem readInt_showInt (z : ℤ) : readInt (showInt z) = z := by
  cases z with
  | ofNat n =>
    have hhead : (showNat n).head? ≠ some 45 := by
      intro h
      have hlo := (showNat_digit (List.mem_of_mem_head? h)).1
      exact absurd hlo (by decide)
    rw [showInt, readInt, if_neg hhead, readNat_showNat]
    rfl
  | negSucc n =>
    rw [showInt, readInt, List.head?_cons, if_pos rfl, List.tail_cons, readNat_showNat]
    rfl

/-- A reader of `showBool`. -/
def readBool (text : Bytes) : Bool := text = ascii "true"

theorem readBool_showBool (x : Bool) : readBool (showBool x) = x := by
  cases x <;> decide

/-- An exact format for rational numbers: numerator, slash, denominator. -/
def ratFmt : DoubleFmt ℚ where
  print q := showInt q.num ++ 47 :: showNat q.den
  read text :=
    let num := text.takeWhile (· ≠ 47)
    (readInt num : ℚ) / (readNat (text.drop (num.length + 1)) : ℚ)
  read_print q := by
    have hnum : (47 : UInt8) ∉ showInt q.num := by
      cases q.num with
      | ofNat n =>
        intro h
        exact absurd (showNat_digit h).1 (by decide)
      | negSucc n =>
        intro h
        rcases List.mem_cons.mp h with h | h
        · exact absurd h (by decide)
        · exact absurd (showNat_digit h).1 (by decide)
    have htake : (showInt q.num ++ 47 :: showNat q.den).takeWhile (· ≠ 47) = showInt q.num := by
      rw [List.takeWhile_append_of_pos, List.takeWhile_cons_of_neg (by simp), List.append_nil]
      intro b hb
      simpa using fun h : b = 47 => hnum (h ▸ hb)
    dsimp only
    rw [htake, List.drop_append, List.drop_of_length_le (Nat.le_succ _), Nat.add_sub_cancel_left,
      List.nil_append, List.drop_one, List.tail_cons, readInt_showInt, readNat_showNat]
    exact Rat.num_div_den q
  print_bytes q b hb := by
    rcases List.mem_append.mp hb with hb | hb
    · exact showInt_bytes _ b hb
    · rcases List.mem_cons.mp hb with rfl | hb
      · decide
      · exact showNat_bytes _ b hb

end AflNv
