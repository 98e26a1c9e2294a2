import Mathlib.Data.Nat.Cast.Order.Field
import Mathlib.Tactic.FieldSimp
import Mathlib.Tactic.Linarith
import Mathlib.Tactic.Positivity
import Mathlib.Tactic.Ring

/-!
# Words of binary64, and their decimals

A word is a number below `2 ^ 64`.  Its value is a multiple of `2 ^ -1074`, and `units` counts
them.  `roundDiv` divides and rounds to the nearest number, of two to the even one.

* `abs_roundDiv_sub` bounds what rounding changes.
* `decimals` is the value rounded to `k` digits behind the point, and `abs_decimals_sub` bounds
  what is lost.
-/

namespace AflNv.Lib

/-- `n / d`, rounded to the nearest number, ties to even. -/
def roundDiv (n d : ℕ) : ℕ :=
  if 2 * (n % d) < d ∨ (2 * (n % d) = d ∧ n / d % 2 = 0) then n / d else n / d + 1

theorem roundDiv_mul (n : ℕ) {d : ℕ} (hd : 0 < d) : roundDiv (n * d) d = n := by
  rw [roundDiv, Nat.mul_mod_left, Nat.mul_div_cancel n hd, if_pos (.inl (by omega))]

/-- Rounding moves a quotient by at most one half. -/
theorem abs_roundDiv_sub (n : ℕ) {d : ℕ} (hd : 0 < d) :
    |(roundDiv n d : ℚ) - (n : ℚ) / d| ≤ 1 / 2 := by
  have hdiv := Nat.div_add_mod n d
  have hmod := Nat.mod_lt n hd
  have hbounds : 2 * (roundDiv n d * d) ≤ 2 * n + d ∧ 2 * n ≤ 2 * (roundDiv n d * d) + d := by
    have hmul : n / d * d = n - n % d := by
      rw [Nat.mul_comm]
      omega
    rw [roundDiv]
    split_ifs with h
    · omega
    · rw [Nat.add_mul, Nat.one_mul]
      omega
  have hd' : (0 : ℚ) < d := Nat.cast_pos.mpr hd
  have hlow : 2 * ((roundDiv n d : ℚ) * d) ≤ 2 * n + d := by exact_mod_cast hbounds.1
  have hhigh : 2 * (n : ℚ) ≤ 2 * (roundDiv n d * d) + d := by exact_mod_cast hbounds.2
  rw [abs_le, neg_le_sub_iff_le_add, sub_le_iff_le_add, div_le_iff₀ hd', ← sub_le_iff_le_add',
    le_div_iff₀ hd']
  constructor
  · nlinarith
  · nlinarith

namespace Binary64

/-- The number of units in 1. -/
def one : ℕ := 2 ^ 1074

theorem one_pos : 0 < one := Nat.pos_of_ne_zero (pow_ne_zero 1074 (by decide))

theorem one_eq {a b : ℕ} (h : a + b = 1074) : one = 2 ^ a * 2 ^ b := by
  rw [← Nat.pow_add, h, one]

def exponentOf (bits : ℕ) : ℕ := bits / 2 ^ 52 % 2048

def isNegative (bits : ℕ) : Bool := 2 ^ 63 ≤ bits

/-- The magnitude of a finite word, in units. -/
def units (bits : ℕ) : ℕ :=
  if exponentOf bits = 0 then bits % 2 ^ 52
  else (2 ^ 52 + bits % 2 ^ 52) * 2 ^ (exponentOf bits - 1)

def signOf (bits : ℕ) : ℚ := if isNegative bits then -1 else 1

/-- The value of a finite word. -/
def valueOf (bits : ℕ) : ℚ := signOf bits * (units bits / one)

theorem abs_signOf (bits : ℕ) : |signOf bits| = 1 := by
  rw [signOf]
  split_ifs
  · rw [abs_neg, abs_one]
  · exact abs_one

theorem units_lt {bits e : ℕ} (he : exponentOf bits ≤ e) (hpos : 0 < e) :
    units bits < 2 ^ (52 + e) := by
  have hmod : bits % 2 ^ 52 < 2 ^ 52 := Nat.mod_lt _ (by decide)
  rw [units]
  split_ifs with hzero
  · exact hmod.trans_le (Nat.pow_le_pow_right (by decide) (by omega))
  · have hsignificand : 2 ^ 52 + bits % 2 ^ 52 < 2 ^ 53 := by omega
    calc (2 ^ 52 + bits % 2 ^ 52) * 2 ^ (exponentOf bits - 1)
        < 2 ^ 53 * 2 ^ (exponentOf bits - 1) :=
          Nat.mul_lt_mul_of_pos_right hsignificand (Nat.two_pow_pos _)
      _ = 2 ^ (53 + (exponentOf bits - 1)) := (Nat.pow_add 2 53 _).symm
      _ ≤ 2 ^ (52 + e) := Nat.pow_le_pow_right (by decide) (by omega)

/-- The magnitude in units of the `k`-th digit behind the point, rounded. -/
def digits (k bits : ℕ) : ℕ := roundDiv (units bits * 10 ^ k) one

/-- The value rounded to `k` digits behind the point. -/
def decimals (k bits : ℕ) : ℚ := signOf bits * (digits k bits / 10 ^ k)

theorem abs_decimals_sub (k bits : ℕ) :
    |decimals k bits - valueOf bits| ≤ 1 / 2 * (1 / 10 ^ k) := by
  have hpow : (0 : ℚ) < 10 ^ k := by positivity
  have hfactor (sign n m unit : ℚ) : sign * (m / 10 ^ k) - sign * (n / unit) =
      sign * ((m - n * 10 ^ k / unit) * (1 / 10 ^ k)) := by
    field_simp
  have hscale : decimals k bits - valueOf bits = signOf bits *
      (((digits k bits : ℚ) - ((units bits * 10 ^ k : ℕ) : ℚ) / one) * (1 / 10 ^ k)) := by
    rw [decimals, valueOf, Nat.cast_mul, Nat.cast_pow, Nat.cast_ofNat]
    exact hfactor _ _ _ _
  have hround := abs_roundDiv_sub (units bits * 10 ^ k) one_pos
  rw [hscale, abs_mul, abs_signOf, one_mul, abs_mul, abs_of_pos (one_div_pos.mpr hpow)]
  exact mul_le_mul_of_nonneg_right hround (one_div_pos.mpr hpow).le

end Binary64

end AflNv.Lib
