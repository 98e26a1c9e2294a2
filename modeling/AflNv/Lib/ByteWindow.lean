import AflNv.Lib.Codec
import Mathlib.Tactic.Ring

/-!
# Windows of a byte string as numbers

`value` is the number of a byte string, little endian.  A window of `w` bytes at `i` is read as the
number `window w bs i` and written by `write w bs i`.

* `value_write`: to write to a window is to flip bits of the number of the whole string.
* `write_write`, `write_window`: what is written last counts, and what was read restores.
* `window_window`: a window of a window.
* `xor_eq_of_fields`: two numbers that agree in all fields but one differ by that field alone.
-/

namespace AflNv.Lib.ByteWindow

open Codec

/-! ## Numbers in parts -/

/-- Numbers in two parts are combined part by part. -/
theorem xor_parts {n a c : ℕ} (ha : a < 2 ^ n) (hc : c < 2 ^ n) (b d : ℕ) :
    (a + 2 ^ n * b) ^^^ (c + 2 ^ n * d) = (a ^^^ c) + 2 ^ n * (b ^^^ d) := by
  refine Nat.eq_of_testBit_eq fun j => ?_
  rw [Nat.testBit_xor, Nat.add_comm a, Nat.add_comm c, Nat.add_comm (a ^^^ c),
    Nat.testBit_two_pow_mul_add _ ha, Nat.testBit_two_pow_mul_add _ hc,
    Nat.testBit_two_pow_mul_add _ (Nat.xor_lt_two_pow ha hc)]
  split_ifs
  · rw [Nat.testBit_xor]
  · rw [Nat.testBit_xor]

/-- Field `k` of a number in fields of `m` bits. -/
def field (m k x : ℕ) : ℕ := x / 2 ^ (m * k) % 2 ^ m

theorem testBit_field (m k x j : ℕ) :
    (field m k x).testBit j = (decide (j < m) && x.testBit (m * k + j)) := by
  rw [field, Nat.testBit_mod_two_pow, Nat.testBit_div_two_pow, Nat.add_comm j]

theorem field_lt (m k x : ℕ) : field m k x < 2 ^ m := Nat.mod_lt _ (Nat.two_pow_pos m)

/-- Numbers that agree in all fields but field `k`. -/
theorem xor_eq_of_fields {m n k x y : ℕ} (hm : 0 < m) (hx : x < 2 ^ (m * n)) (hy : y < 2 ^ (m * n))
    (h : ∀ i < n, i ≠ k → field m i x = field m i y) :
    x ^^^ y = (field m k x ^^^ field m k y) <<< (m * k) := by
  refine Nat.eq_of_testBit_eq fun j => ?_
  have hsplit : m * (j / m) + j % m = j := Nat.div_add_mod j m
  have hmod : j % m < m := Nat.mod_lt j hm
  rw [Nat.testBit_xor, Nat.testBit_shiftLeft, Nat.testBit_xor, testBit_field, testBit_field]
  by_cases hk : j / m = k
  · have hle : m * k ≤ j := hk ▸ Nat.mul_div_le j m
    have hlt : j - m * k < m := by
      rw [← hk]
      omega
    have hj : m * k + (j - m * k) = j := Nat.add_sub_cancel' hle
    rw [hj, decide_eq_true hle, decide_eq_true hlt, Bool.true_and, Bool.true_and, Bool.true_and]
  · have hout : (decide (m * k ≤ j) &&
        ((decide (j - m * k < m) && x.testBit (m * k + (j - m * k))) ^^
          (decide (j - m * k < m) && y.testBit (m * k + (j - m * k))))) = false := by
      by_cases hle : m * k ≤ j
      · have hge : ¬ j - m * k < m := by
          intro hlt
          apply hk
          refine Nat.div_eq_of_lt_le ?_ ?_
          · rw [Nat.mul_comm]
            exact hle
          · rw [Nat.mul_comm, Nat.mul_add]
            omega
        rw [decide_eq_false hge]
        simp
      · rw [decide_eq_false hle, Bool.false_and]
    rw [hout]
    have hbits : x.testBit j = y.testBit j := by
      by_cases hn : j / m < n
      · have hfield := congrArg (fun z => Nat.testBit z (j % m)) (h (j / m) hn hk)
        simp only [testBit_field, decide_eq_true hmod, Bool.true_and, hsplit] at hfield
        exact hfield
      · have hbig : m * n ≤ j := by
          have hn : n ≤ j / m := Nat.le_of_not_lt hn
          exact (Nat.mul_le_mul_left m hn).trans (Nat.mul_div_le j m)
        rw [Nat.testBit_lt_two_pow (hx.trans_le (Nat.pow_le_pow_right (by decide) hbig)),
          Nat.testBit_lt_two_pow (hy.trans_le (Nat.pow_le_pow_right (by decide) hbig))]
    rw [hbits, Bool.xor_self]

/-! ## Byte strings -/

/-- The number of a byte string. -/
def value : List UInt8 → ℕ
  | [] => 0
  | b :: bs => b.toNat + 256 * value bs

/-- The number in the `w` bytes at `i`. -/
def window (w : ℕ) (bs : List UInt8) (i : ℕ) : ℕ := value ((bs.drop i).take w)

/-- The byte string with a number in the `w` bytes at `i`. -/
def write (w : ℕ) (bs : List UInt8) (i v : ℕ) : List UInt8 :=
  bs.take i ++ (putLE w v ++ bs.drop (i + w))

theorem pow256 (n : ℕ) : 256 ^ n = 2 ^ (8 * n) := by
  rw [Nat.pow_mul]

theorem value_append (a b : List UInt8) : value (a ++ b) = value a + 256 ^ a.length * value b := by
  induction a with
  | nil => simp [value]
  | cons x a ih =>
    rw [List.cons_append, value, value, ih, List.length_cons]
    ring

theorem value_lt (bs : List UInt8) : value bs < 256 ^ bs.length := by
  induction bs with
  | nil => exact Nat.one_pos
  | cons b bs ih =>
    have hb := b.toNat_lt
    rw [value, List.length_cons, pow_succ]
    omega

theorem value_putLE (w v : ℕ) : value (putLE w v) = v % 256 ^ w := by
  induction w generalizing v with
  | zero => exact (Nat.mod_one v).symm
  | succ w ih =>
    have hpow : 256 ^ (w + 1) = 256 * 256 ^ w := Nat.pow_succ'
    rw [putLE, value, ih, UInt8.toNat_ofNat', hpow, Nat.mod_mul]

/-- A byte string of known length is given by its number. -/
theorem value_inj {a b : List UInt8} (hlen : a.length = b.length) (h : value a = value b) :
    a = b := by
  induction a generalizing b with
  | nil => exact (List.length_eq_zero_iff.mp hlen.symm).symm
  | cons x a ih =>
    cases b with
    | nil => cases hlen
    | cons y b =>
      have hx := x.toNat_lt
      have hy := y.toNat_lt
      rw [value, value] at h
      have hhead : x.toNat = y.toNat := by omega
      have htail : value a = value b := by omega
      rw [UInt8.toNat_inj.mp hhead, ih (Nat.succ.inj hlen) htail]

theorem length_write {w i : ℕ} {bs : List UInt8} (h : i + w ≤ bs.length) (v : ℕ) :
    (write w bs i v).length = bs.length := by
  rw [write, List.length_append, List.length_append, List.length_take, List.length_drop,
    length_putLE]
  omega

theorem window_lt {w i : ℕ} {bs : List UInt8} (h : i + w ≤ bs.length) :
    window w bs i < 256 ^ w := by
  have hlen : ((bs.drop i).take w).length = w := by
    rw [List.length_take, List.length_drop]
    omega
  have hlt := value_lt ((bs.drop i).take w)
  rwa [hlen] at hlt

/-- The number of a string around a window. -/
theorem value_eq_window {w i : ℕ} {bs : List UInt8} (h : i + w ≤ bs.length) :
    value bs = value (bs.take i) +
      256 ^ i * (window w bs i + 256 ^ w * value (bs.drop (i + w))) := by
  have hi : (bs.take i).length = i := List.length_take_of_le (by omega)
  have hw : ((bs.drop i).take w).length = w := by
    rw [List.length_take, List.length_drop]
    omega
  have hsplit : bs = bs.take i ++ ((bs.drop i).take w ++ bs.drop (i + w)) := by
    rw [← List.drop_drop, List.take_append_drop, List.take_append_drop]
  conv_lhs => rw [hsplit]
  rw [value_append, value_append, hi, hw, window]

theorem value_write_eq {w i : ℕ} {bs : List UInt8} (h : i + w ≤ bs.length) {v : ℕ}
    (hv : v < 256 ^ w) : value (write w bs i v) =
      value (bs.take i) + 256 ^ i * (v + 256 ^ w * value (bs.drop (i + w))) := by
  have hi : (bs.take i).length = i := List.length_take_of_le (by omega)
  rw [write, value_append, value_append, hi, length_putLE, value_putLE, Nat.mod_eq_of_lt hv]

/-- To write to a window is to flip bits. -/
theorem value_write {w i : ℕ} {bs : List UInt8} (h : i + w ≤ bs.length) {v : ℕ}
    (hv : v < 256 ^ w) :
    value (write w bs i v) = value bs ^^^ ((window w bs i ^^^ v) <<< (8 * i)) := by
  have hfront : value (bs.take i) < 2 ^ (8 * i) := by
    have hlt := value_lt (bs.take i)
    rwa [List.length_take_of_le (by omega), pow256] at hlt
  have hwindow := window_lt h
  rw [value_write_eq h hv, value_eq_window h, Nat.shiftLeft_eq]
  rw [pow256] at hwindow hv ⊢
  rw [pow256 w]
  have hmask : (window w bs i ^^^ v) * 2 ^ (8 * i) = 0 + 2 ^ (8 * i) * ((window w bs i ^^^ v) +
      2 ^ (8 * w) * 0) := by ring
  rw [hmask, xor_parts hfront (Nat.two_pow_pos _), Nat.xor_zero,
    xor_parts hwindow (Nat.xor_lt_two_pow hwindow hv), Nat.xor_zero, ← Nat.xor_assoc,
    Nat.xor_self, Nat.zero_xor]

/-- What is written last counts. -/
theorem write_write {w i : ℕ} {bs : List UInt8} (h : i + w ≤ bs.length) (v v' : ℕ) :
    write w (write w bs i v) i v' = write w bs i v' := by
  have hi : (bs.take i).length = i := List.length_take_of_le (by omega)
  have htake : (write w bs i v).take i = bs.take i := by
    rw [write, List.take_left' hi]
  have hdrop : (write w bs i v).drop (i + w) = bs.drop (i + w) := by
    rw [write, ← List.drop_drop, List.drop_left' hi, List.drop_left' (length_putLE w v)]
  rw [write, htake, hdrop, write]

/-- What was read restores. -/
theorem write_window {w i : ℕ} {bs : List UInt8} (h : i + w ≤ bs.length) :
    write w bs i (window w bs i) = bs := by
  refine value_inj (length_write h _) ?_
  rw [value_write h (window_lt h), Nat.xor_self, Nat.zero_shiftLeft, Nat.xor_zero]

/-- The bytes `k` to `k + u` of a window. -/
theorem window_window {w i u k : ℕ} {bs : List UInt8} (h : i + w ≤ bs.length) (hk : k + u ≤ w) :
    window w bs i / 256 ^ k % 256 ^ u = window u bs (i + k) := by
  have hsub : k + u ≤ ((bs.drop i).take w).length := by
    rw [List.length_take, List.length_drop]
    omega
  have hwindow := value_eq_window hsub
  have hfront : value (((bs.drop i).take w).take k) < 256 ^ k := by
    have hlt := value_lt (((bs.drop i).take w).take k)
    rwa [List.length_take_of_le (by omega)] at hlt
  have hsame : window u ((bs.drop i).take w) k = window u bs (i + k) := by
    rw [window, window, List.drop_take, List.drop_drop, List.take_take,
      Nat.min_eq_left (by omega)]
  have hlt : window u bs (i + k) < 256 ^ u := window_lt (by omega)
  rw [hsame] at hwindow
  show value ((bs.drop i).take w) / 256 ^ k % 256 ^ u = _
  rw [hwindow, Nat.add_mul_div_left _ _ (Nat.pow_pos (by decide)), Nat.div_eq_of_lt hfront,
    Nat.zero_add, Nat.add_mul_mod_self_left, Nat.mod_eq_of_lt hlt]

end AflNv.Lib.ByteWindow
