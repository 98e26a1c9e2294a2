import Mathlib.Data.Nat.Size
import Mathlib.Tactic.Ring

/-!
# Natural numbers in a binary format

A format with `p` significant bits holds the numbers `m * 2 ^ k` with `m < 2 ^ p`.  `roundBits p`
takes a number to the nearest of them, and of two to the one with the even significand.
`roundBits_eq_self_iff` says which numbers it leaves as they are.
-/

namespace AflNv.Lib.RoundBits

/-- The number with `p` significant bits next to `n`, ties to even. -/
def roundBits (p n : ℕ) : ℕ :=
  let unit := 2 ^ (n.size - p)
  if 2 * (n % unit) < unit ∨ (2 * (n % unit) = unit ∧ n / unit % 2 = 0) then n / unit * unit
  else (n / unit + 1) * unit

/-- The format holds the number. -/
def Holds (p n : ℕ) : Prop := ∃ m k, m < 2 ^ p ∧ n = m * 2 ^ k

theorem div_unit_lt (p n : ℕ) : n / 2 ^ (n.size - p) < 2 ^ p := by
  apply Nat.div_lt_of_lt_mul
  rw [← pow_add]
  exact (Nat.lt_size_self n).trans_le (Nat.pow_le_pow_right (by decide) (by omega))

theorem roundBits_eq_self_iff (p n : ℕ) : roundBits p n = n ↔ Holds p n := by
  have hunit : 0 < 2 ^ (n.size - p) := Nat.two_pow_pos _
  have hdiv := Nat.div_add_mod' n (2 ^ (n.size - p))
  have hmod := Nat.mod_lt n hunit
  constructor
  · intro h
    refine ⟨n / 2 ^ (n.size - p), n.size - p, div_unit_lt p n, ?_⟩
    simp only [roundBits] at h
    split_ifs at h
    · exact h.symm
    · rw [Nat.add_mul, Nat.one_mul] at h
      omega
  · rintro ⟨m, k, hm, hn⟩
    have hsize : n.size ≤ p + k := by
      rw [Nat.size_le, hn, pow_add]
      exact Nat.mul_lt_mul_of_pos_right hm (Nat.two_pow_pos k)
    have hrest : n % 2 ^ (n.size - p) = 0 := by
      apply Nat.mod_eq_zero_of_dvd
      have hdvd : 2 ^ (n.size - p) ∣ 2 ^ k := Nat.pow_dvd_pow 2 (by omega)
      rw [hn] at hdvd ⊢
      exact hdvd.mul_left m
    have hlow : 2 * (n % 2 ^ (n.size - p)) < 2 ^ (n.size - p) := by omega
    simp only [roundBits]
    rw [if_pos (.inl hlow)]
    omega

end AflNv.Lib.RoundBits
