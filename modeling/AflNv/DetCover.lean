import AflNv.DetDedup
import Mathlib.Data.Nat.Factorization.Basic

/-!
# What the deterministic stages cover

A candidate is told by the bits in which it differs from the input: the exclusive or of the two
numbers.  `Reached` says that a candidate with these bits is executed, `Straddles` that the bits are
two or four in a row, lowest bit first, over the edge of a byte.

* `done_of_bitflip`, `arith_done`, `interest_done`: what a predicate of `afl-fuzz-one.c` takes for
  done is reached, unless it straddles.
* `executed_not_straddles`: nothing that is executed straddles, for the bit flips count the highest
  bit of a byte first, and the other stages skip such a candidate.
* `dedup_loses_nothing`: the candidates that are lost are those that straddle.
-/

namespace AflNv.DetDedup

open AflNv.Lib AflNv.Lib.ByteWindow AutoExtras

/-! ## Runs of bits -/

theorem exists_oddPart {x n : ℕ} (hx : x ≠ 0) (hlt : x < 2 ^ n) :
    ∃ p q, p % 2 = 1 ∧ q < n ∧ x = p * 2 ^ q := by
  obtain ⟨q, p, hp, hpq⟩ := Nat.exists_eq_two_pow_mul_odd hx
  have hodd : p % 2 = 1 := Nat.odd_iff.mp hp
  refine ⟨p, q, hodd, ?_, hpq.trans (Nat.mul_comm _ _)⟩
  have hle : 2 ^ q ≤ x := by
    rw [hpq]
    exact Nat.le_mul_of_pos_right _ (by omega)
  exact (Nat.pow_lt_pow_iff_right (by decide)).mp (hle.trans_lt hlt)

/-- The bits of a number lie below its bound. -/
theorem add_lt_of_mul_lt {k m p q : ℕ} (hp : 2 ^ k ≤ p) (h : p * 2 ^ q < 2 ^ m) : k + q < m := by
  have hle : 2 ^ (k + q) ≤ p * 2 ^ q := by
    rw [Nat.pow_add]
    exact Nat.mul_le_mul_right _ hp
  exact (Nat.pow_lt_pow_iff_right (by decide)).mp (hle.trans_lt h)

theorem shiftOut_eq {n p q : ℕ} (hp : p % 2 = 1) (hq : q < n) (sh : ℕ) :
    shiftOut n sh (p * 2 ^ q) = (sh + q, p) := by
  induction n generalizing q sh with
  | zero => omega
  | succ n ih =>
    cases q with
    | zero =>
      rw [Nat.pow_zero, Nat.mul_one, shiftOut, if_pos hp]
      rfl
    | succ q =>
      have hpow : p * 2 ^ (q + 1) = 2 * (p * 2 ^ q) := by
        rw [Nat.pow_succ, ← Nat.mul_assoc, Nat.mul_comm]
      have heven : ¬ p * 2 ^ (q + 1) % 2 = 1 := by omega
      have hhalf : p * 2 ^ (q + 1) / 2 = p * 2 ^ q := by omega
      rw [shiftOut, if_neg heven, hhalf, ih (by omega), Nat.add_assoc, Nat.add_comm 1]

/-- What `could_be_bitflip` says of an odd pattern at a bit. -/
theorem couldBeBitflip_iff {p q : ℕ} (hp : p % 2 = 1) (hq : q < 32) :
    couldBeBitflip (p * 2 ^ q) = true ↔ p = 1 ∨ p = 3 ∨ p = 15 ∨
      q % 8 = 0 ∧ (p = 0xff ∨ p = 0xffff ∨ p = 0xffffffff) := by
  have hne : p * 2 ^ q ≠ 0 := Nat.mul_ne_zero (by omega) (Nat.two_pow_pos q).ne'
  rw [couldBeBitflip, if_neg hne, shiftOut_eq hp hq, Nat.zero_add]
  by_cases hshort : p = 1 ∨ p = 3 ∨ p = 15
  · rw [if_pos hshort]
    exact iff_of_true rfl (hshort.imp_right (Or.imp_right Or.inl))
  · rw [if_neg hshort]
    by_cases hq8 : q % 8 = 0
    · rw [if_neg (not_not_intro hq8), decide_eq_true_eq]
      tauto
    · rw [if_pos hq8]
      refine iff_of_false Bool.false_ne_true ?_
      tauto

/-- Two or four bits in a row, lowest bit first, over the edge of a byte. -/
def Straddles (x : ℕ) : Prop :=
  ∃ q, (x = 3 * 2 ^ q ∧ q % 8 = 7) ∨ (x = 15 * 2 ^ q ∧ 5 ≤ q % 8)

theorem Straddles.couldBeBitflip {x : ℕ} (h : Straddles x) (hx : x < 2 ^ 32) :
    couldBeBitflip x = true := by
  obtain ⟨q, ⟨rfl, -⟩ | ⟨rfl, -⟩⟩ := h
  · have hlt := add_lt_of_mul_lt (k := 0) (by decide) hx
    exact (couldBeBitflip_iff (by decide) (by omega)).mpr (Or.inr (Or.inl rfl))
  · have hlt := add_lt_of_mul_lt (k := 0) (by decide) hx
    exact (couldBeBitflip_iff (by decide) (by omega)).mpr (Or.inr (Or.inr (Or.inl rfl)))

theorem not_straddles_of_odd {x : ℕ} (hx : x % 2 = 1) : ¬ Straddles x := by
  intro ⟨q, h⟩
  have hq : q ≠ 0 := by omega
  obtain ⟨q, rfl⟩ := Nat.exists_eq_succ_of_ne_zero hq
  rw [Nat.pow_succ] at h
  omega

theorem exists_of_shift {p q x k : ℕ} (hp : p % 2 = 1) (h : x * 2 ^ k = p * 2 ^ q) :
    ∃ r, q = r + k ∧ x = p * 2 ^ r := by
  rcases Nat.lt_or_ge q k with hlt | hle
  · obtain ⟨d, rfl⟩ := Nat.exists_eq_add_of_lt hlt
    have hsplit : x * 2 ^ (q + d + 1) = 2 * (x * 2 ^ d) * 2 ^ q := by ring
    rw [hsplit] at h
    have heven := Nat.eq_of_mul_eq_mul_right (Nat.two_pow_pos q) h
    omega
  · obtain ⟨r, rfl⟩ := Nat.exists_eq_add_of_le' hle
    rw [Nat.pow_add, ← Nat.mul_assoc] at h
    exact ⟨r, rfl, Nat.eq_of_mul_eq_mul_right (Nat.two_pow_pos k) h⟩

/-- Whether bits straddle does not depend on the byte they are at. -/
theorem straddles_shift (x k : ℕ) : Straddles (x <<< (8 * k)) ↔ Straddles x := by
  rw [Nat.shiftLeft_eq]
  constructor
  · intro ⟨q, h⟩
    rcases h with ⟨h, hq⟩ | ⟨h, hq⟩
    · obtain ⟨r, rfl, hx⟩ := exists_of_shift (by decide) h
      exact ⟨r, Or.inl ⟨hx, by omega⟩⟩
    · obtain ⟨r, rfl, hx⟩ := exists_of_shift (by decide) h
      exact ⟨r, Or.inr ⟨hx, by omega⟩⟩
  · intro ⟨q, h⟩
    refine ⟨q + 8 * k, ?_⟩
    rw [Nat.pow_add, ← Nat.mul_assoc, ← Nat.mul_assoc]
    rcases h with ⟨rfl, hq⟩ | ⟨rfl, hq⟩
    · exact Or.inl ⟨rfl, by omega⟩
    · exact Or.inr ⟨rfl, by omega⟩

/-- The last bit of a byte and the first of the next are among bits that straddle. -/
theorem Straddles.bits {x : ℕ} (h : Straddles x) :
    ∃ k, x.testBit (8 * k + 7) = true ∧ x.testBit (8 * k + 8) = true := by
  have hbit (p q d : ℕ) : (p * 2 ^ q).testBit (q + d) = p.testBit d := by
    rw [← Nat.shiftLeft_eq, Nat.testBit_shiftLeft, Nat.add_sub_cancel_left,
      decide_eq_true (Nat.le_add_right q d), Bool.true_and]
  obtain ⟨q, h⟩ := h
  refine ⟨q / 8, ?_⟩
  have hq := Nat.div_add_mod q 8
  rcases h with ⟨rfl, hmod⟩ | ⟨rfl, hmod⟩
  · have h₇ : 8 * (q / 8) + 7 = q + 0 := by omega
    have h₈ : 8 * (q / 8) + 8 = q + 1 := by omega
    rw [h₇, h₈, hbit, hbit]
    exact ⟨rfl, rfl⟩
  · have hlt := Nat.mod_lt q (show 8 > 0 by decide)
    have h₇ : 8 * (q / 8) + 7 = q + (7 - q % 8) := by omega
    have h₈ : 8 * (q / 8) + 8 = q + (7 - q % 8 + 1) := by omega
    rw [h₇, h₈, hbit, hbit]
    generalize q % 8 = r at hmod hlt
    interval_cases r
    · exact ⟨rfl, rfl⟩
    · exact ⟨rfl, rfl⟩
    · exact ⟨rfl, rfl⟩

/-! ## What is reached -/

variable {input : Bytes}

/-- The buffer that differs from the input in these bits is executed. -/
def Reached (input : Bytes) (m : ℕ) : Prop :=
  ∃ c, Happens input (.executed c) ∧ c.length = input.length ∧ value c = value input ^^^ m

/-- Nothing is lost by a skip. -/
def Done (input : Bytes) (m : ℕ) : Prop := Reached input m ∨ Straddles m

theorem bitsMask_succ (n b : ℕ) : bitsMask (n + 1) b = bitsMask n b ^^^ 2 ^ place (b + n) := by
  rw [bitsMask, List.range_succ, List.foldl_append]
  rfl

/-- The bits of one byte. -/
theorem bitsMask_eq {n b : ℕ} (h : b % 8 + n ≤ 8) :
    bitsMask n b = (2 ^ n - 1) * 2 ^ (8 * (b / 8) + (8 - n - b % 8)) := by
  induction n with
  | zero => simp [bitsMask]
  | succ n ih =>
    have hup : 8 * (b / 8) + (8 - n - b % 8) = 8 * (b / 8) + (8 - (n + 1) - b % 8) + 1 := by omega
    have hlast : place (b + n) = 8 * (b / 8) + (8 - (n + 1) - b % 8) := by
      unfold place
      omega
    have hone := xor_parts (n := 1) (a := 0) (c := 1) (by decide) (by decide) (2 ^ n - 1) 0
    have hpos := Nat.two_pow_pos n
    have hmask : (2 ^ n - 1) * 2 ^^^ 1 = 2 ^ (n + 1) - 1 := by
      rw [Nat.zero_add, Nat.mul_zero, Nat.add_zero, Nat.xor_zero, Nat.pow_one, Nat.zero_xor,
        Nat.mul_comm] at hone
      rw [hone, Nat.pow_succ]
      omega
    rw [bitsMask_succ, ih (by omega), hup, hlast, Nat.pow_succ, ← hmask]
    generalize 8 * (b / 8) + (8 - (n + 1) - b % 8) = r
    have hleft : (2 ^ n - 1) * (2 ^ r * 2) = ((2 ^ n - 1) * 2) <<< r := by
      rw [Nat.shiftLeft_eq, Nat.mul_comm (2 ^ r), Nat.mul_assoc]
    have hright : 2 ^ r = 1 <<< r := by rw [Nat.shiftLeft_eq, Nat.one_mul]
    rw [hleft, hright, ← Nat.shiftLeft_xor_distrib, Nat.shiftLeft_eq, Nat.shiftLeft_eq, Nat.one_mul]

theorem reached_self : Reached input 0 := ⟨input, .start, rfl, (Nat.xor_zero _).symm⟩

theorem reached_bytes {w i : ℕ} (hw : w = 1 ∨ w = 2 ∨ w = 4) (h : i + w ≤ input.length) :
    Reached input ((256 ^ w - 1) <<< (8 * i)) := by
  have hmask : 256 ^ w - 1 < 256 ^ w := Nat.sub_lt (Nat.pow_pos (by decide)) (by decide)
  exact ⟨_, .bytes w i hw h, length_flip h _, value_flip h hmask⟩

/-- One, two or four bits in a row are flipped, or they straddle. -/
theorem done_bits {n q : ℕ} (hn : n = 1 ∨ n = 2 ∨ n = 4) (hq : q + n ≤ 8 * input.length) :
    Done input ((2 ^ n - 1) * 2 ^ q) := by
  by_cases hin : q % 8 + n ≤ 8
  · left
    have hb : 8 * (q / 8) + (8 - n - q % 8) + n ≤ 8 * input.length := by omega
    obtain ⟨hlen, hvalue⟩ := value_flipBits hb
    refine ⟨_, .bits n _ hn hb, hlen, ?_⟩
    have hplace : 8 * ((8 * (q / 8) + (8 - n - q % 8)) / 8) +
        (8 - n - (8 * (q / 8) + (8 - n - q % 8)) % 8) = q := by omega
    rw [hvalue, bitsMask_eq (by omega), hplace]
  · right
    rcases hn with rfl | rfl | rfl
    · omega
    · exact ⟨q, Or.inl ⟨rfl, by omega⟩⟩
    · exact ⟨q, Or.inr ⟨rfl, by omega⟩⟩

/-- What `could_be_bitflip` takes for done. -/
theorem done_of_bitflip {w i x : ℕ} (h : i + w ≤ input.length) (hw : w ≤ 4) (hx : x < 256 ^ w)
    (hflip : couldBeBitflip x = true) : Done input (x <<< (8 * i)) := by
  rw [pow256] at hx
  by_cases hzero : x = 0
  · rw [hzero, Nat.zero_shiftLeft]
    exact Or.inl reached_self
  obtain ⟨p, q, hp, hq, rfl⟩ := exists_oddPart hzero hx
  have hbits {n : ℕ} (hn : n = 1 ∨ n = 2 ∨ n = 4) (hlow : 2 ^ (n - 1) ≤ p) (hpn : p = 2 ^ n - 1) :
      Done input ((p * 2 ^ q) <<< (8 * i)) := by
    have hlt := add_lt_of_mul_lt hlow hx
    rw [Nat.shiftLeft_eq, Nat.mul_assoc, ← Nat.pow_add, hpn]
    exact done_bits hn (by omega)
  have hbytes {u : ℕ} (hu : u = 1 ∨ u = 2 ∨ u = 4) (hq8 : q % 8 = 0) (hlow : 2 ^ (8 * u - 1) ≤ p)
      (hpu : p = 256 ^ u - 1) : Done input ((p * 2 ^ q) <<< (8 * i)) := by
    have hlt := add_lt_of_mul_lt hlow hx
    have hplace : q + 8 * i = 8 * (i + q / 8) := by omega
    rw [← Nat.shiftLeft_eq, ← Nat.shiftLeft_add, hplace, hpu]
    exact Or.inl (reached_bytes hu (by omega))
  rcases (couldBeBitflip_iff hp (by omega)).mp hflip with hone | hthree | hfifteen | ⟨hq8, hlong⟩
  · exact hbits (Or.inl rfl) (by omega) hone
  · exact hbits (Or.inr (Or.inl rfl)) (by omega) hthree
  · exact hbits (Or.inr (Or.inr rfl)) (by omega) hfifteen
  · rcases hlong with hbyte | hword | hdword
    · exact hbytes (Or.inl rfl) hq8 (by omega) hbyte
    · exact hbytes (Or.inr (Or.inl rfl)) hq8 (by omega) hword
    · exact hbytes (Or.inr (Or.inr rfl)) hq8 (by omega) hdword

theorem window_eq_field {w u k i n : ℕ} (h : i + w ≤ input.length) (hn : w = u * n) (hk : k < n) :
    window u input (i + u * k) = field (8 * u) k (window w input i) := by
  have hfit : u * k + u ≤ w := by
    rw [hn, ← Nat.mul_succ]
    exact Nat.mul_le_mul_left u hk
  rw [field, Nat.mul_assoc, ← pow256, ← pow256, window_window h hfit]

/-- A candidate that differs in one field of `u` bytes only. -/
theorem done_of_field {w u k i n v : ℕ} (h : i + w ≤ input.length) (hn : w = u * n)
    (hu : 0 < u) (hk : k < n) (hv : v < 256 ^ w)
    (hsame : ∀ j < n, j ≠ k → field (8 * u) j (window w input i) = field (8 * u) j v)
    (hdone : Done input
      ((window u input (i + u * k) ^^^ field (8 * u) k v) <<< (8 * (i + u * k)))) :
    Done input ((window w input i ^^^ v) <<< (8 * i)) := by
  have horig := window_lt h
  rw [pow256, hn, ← Nat.mul_assoc] at hv horig
  rw [← hn] at horig
  have hxor := xor_eq_of_fields (by omega) horig hv hsame
  have hplace : 8 * u * k + 8 * i = 8 * (i + u * k) := by ring
  rw [hxor, ← window_eq_field h hn hk, ← Nat.shiftLeft_add, hplace]
  exact hdone

/-! ## Attempts -/

theorem swap16_lt (x : ℕ) : swap16 x < 2 ^ 16 := Nat.mod_lt _ (by decide)

theorem swap32_lt (x : ℕ) : swap32 x < 2 ^ 32 := Nat.mod_lt _ (by decide)

theorem unsigned_lt (m : ℕ) (x : ℤ) : unsigned m x < 2 ^ m := by
  have hpos : (0 : ℤ) < 2 ^ m := by positivity
  have hnonneg := Int.emod_nonneg x hpos.ne'
  have hlt := Int.emod_lt_of_pos x hpos
  rw [unsigned, Int.toNat_lt hnonneg]
  push_cast
  exact hlt

/-- A value fits its width, and what could be a bit flip is skipped. -/
def Attempt.Sound (a : Attempt) (w orig : ℕ) : Prop :=
  a.value < 2 ^ (8 * w) ∧ (couldBeBitflip (orig ^^^ a.value) = true → a.redundant = true)

theorem arithAttempt_sound {overflows : Prop} [Decidable overflows] {w orig v : ℕ}
    (hv : v < 2 ^ (8 * w)) {a : Attempt} (ha : a ∈ arithAttempt overflows orig v) :
    a.Sound w orig := by
  unfold arithAttempt at ha
  split_ifs at ha
  · rw [List.mem_singleton.mp ha]
    exact ⟨hv, id⟩
  · exact absurd ha List.not_mem_nil

theorem mem_arith {f : ℕ → List Attempt} {a : Attempt} :
    a ∈ ((List.range' 1 arithMax).map f).flatten ↔ ∃ j, 1 ≤ j ∧ j ≤ arithMax ∧ a ∈ f j := by
  simp only [List.mem_flatten, List.mem_map, List.mem_range'_1]
  constructor
  · intro ⟨_, ⟨j, hj, hf⟩, ha⟩
    exact ⟨j, hj.1, by omega, hf ▸ ha⟩
  · intro ⟨j, hlow, hhigh, ha⟩
    exact ⟨f j, ⟨j, ⟨hlow, by omega⟩, rfl⟩, ha⟩

theorem mem_interestAttempts {blen orig v swapped : ℕ} {a : Attempt}
    (ha : a ∈ interestAttempts blen orig v swapped) :
    a = interestAttempt blen orig v false ∨ a = interestAttempt blen orig swapped true := by
  rcases List.mem_cons.mp ha with rfl | ha
  · exact Or.inl rfl
  · split_ifs at ha
    · exact Or.inr (List.mem_singleton.mp ha)
    · exact absurd ha List.not_mem_nil

theorem interestAttempt_sound {w blen orig v : ℕ} (hv : v < 2 ^ (8 * w)) (checkLe : Bool) :
    (interestAttempt blen orig v checkLe).Sound w orig := by
  refine ⟨hv, fun h => ?_⟩
  show (couldBeBitflip (orig ^^^ v) || _ || _) = true
  rw [show couldBeBitflip (orig ^^^ v) = true from h]
  rfl

theorem sound_append {l l' : List Attempt} {w orig : ℕ} (h : ∀ a ∈ l, a.Sound w orig)
    (h' : ∀ a ∈ l', a.Sound w orig) : ∀ a ∈ l ++ l', a.Sound w orig :=
  List.forall_mem_append.mpr ⟨h, h'⟩

theorem attempt_sound {st : Stage} (hst : st ∈ stages) {orig : ℕ} {a : Attempt}
    (ha : a ∈ (st.groups orig).flatten) : a.Sound st.width orig := by
  simp only [stages, List.mem_cons, List.not_mem_nil, or_false] at hst
  have hmod (w x : ℕ) : x % 2 ^ (8 * w) < 2 ^ (8 * w) := Nat.mod_lt x (Nat.two_pow_pos _)
  rcases hst with rfl | rfl | rfl | rfl | rfl | rfl
  · dsimp only [arith8] at ha
    obtain ⟨j, -, -, ha⟩ := mem_arith.mp ha
    exact sound_append (fun _ => arithAttempt_sound (hmod 1 _))
      (fun _ => arithAttempt_sound (hmod 1 _)) a ha
  · dsimp only [arith16] at ha
    obtain ⟨j, -, -, ha⟩ := mem_arith.mp ha
    exact sound_append (sound_append (sound_append (fun _ => arithAttempt_sound (hmod 2 _))
      fun _ => arithAttempt_sound (hmod 2 _)) fun _ => arithAttempt_sound (swap16_lt _))
      (fun _ => arithAttempt_sound (swap16_lt _)) a ha
  · dsimp only [arith32] at ha
    obtain ⟨j, -, -, ha⟩ := mem_arith.mp ha
    exact sound_append (sound_append (sound_append (fun _ => arithAttempt_sound (hmod 4 _))
      fun _ => arithAttempt_sound (hmod 4 _)) fun _ => arithAttempt_sound (swap32_lt _))
      (fun _ => arithAttempt_sound (swap32_lt _)) a ha
  · obtain ⟨_, hg, ha⟩ := List.mem_flatten.mp ha
    obtain ⟨x, -, rfl⟩ := List.mem_map.mp hg
    rw [List.mem_singleton.mp ha]
    refine ⟨unsigned_lt 8 x, fun h => ?_⟩
    show (couldBeBitflip (orig ^^^ unsigned 8 x) || _) = true
    rw [show couldBeBitflip (orig ^^^ unsigned 8 x) = true from h]
    rfl
  · obtain ⟨_, hg, ha⟩ := List.mem_flatten.mp ha
    rw [List.mem_singleton.mp hg] at ha
    obtain ⟨x, -, ha⟩ := List.mem_flatMap.mp ha
    rcases mem_interestAttempts ha with rfl | rfl
    · exact interestAttempt_sound (unsigned_lt 16 x) false
    · exact interestAttempt_sound (swap16_lt _) true
  · obtain ⟨_, hg, ha⟩ := List.mem_flatten.mp ha
    rw [List.mem_singleton.mp hg] at ha
    obtain ⟨x, -, ha⟩ := List.mem_flatMap.mp ha
    rcases mem_interestAttempts ha with rfl | rfl
    · exact interestAttempt_sound (unsigned_lt 32 x) false
    · exact interestAttempt_sound (swap32_lt _) true

theorem arith8_mem : arith8 ∈ stages := by simp [stages]

theorem arith16_mem : arith16 ∈ stages := by simp [stages]

theorem arith32_mem : arith32 ∈ stages := by simp [stages]

theorem interest8_mem : interest8 ∈ stages := by simp [stages]

theorem interest16_mem : interest16 ∈ stages := by simp [stages]

theorem interest32_mem : interest32 ∈ stages := by simp [stages]

theorem width_le {st : Stage} (h : st ∈ stages) : st.width ≤ 4 := by
  revert st
  simp [stages, arith8, arith16, arith32, interest8, interest16, interest32]

theorem Attempt.Sound.xor_lt {st : Stage} (hst : st ∈ stages) {i : ℕ}
    (h : i + st.width ≤ input.length) {a : Attempt}
    (ha : a.Sound st.width (window st.width input i)) :
    window st.width input i ^^^ a.value < 2 ^ 32 := by
  have horig := window_lt h
  have hwidth := width_le hst
  rw [pow256] at horig
  exact (Nat.xor_lt_two_pow horig ha.1).trans_le (Nat.pow_le_pow_right (by decide) (by omega))

/-- An attempt that is not skipped is executed. -/
theorem done_of_attempt {st : Stage} (hst : st ∈ stages) {i : ℕ}
    (h : i + st.width ≤ input.length) {a : Attempt}
    (ha : a ∈ (st.groups (window st.width input i)).flatten)
    (hskip : a.redundant = true →
      Done input ((window st.width input i ^^^ a.value) <<< (8 * i))) :
    Done input ((window st.width input i ^^^ a.value) <<< (8 * i)) := by
  cases hred : a.redundant with
  | true => exact hskip hred
  | false =>
    have hevent := Happens.attempt st hst i h a ha
    rw [Attempt.event, hred, if_neg Bool.false_ne_true] at hevent
    have hv := (attempt_sound hst ha).1
    rw [← pow256] at hv
    exact Or.inl ⟨_, hevent, length_write h _, value_write h hv⟩

/-! ## Arithmetic -/

/-- A sum or difference with a number up to `ARITH_MAX`, in `m` bits. -/
def Near (m x v : ℕ) : Prop :=
  ∃ j, 1 ≤ j ∧ j ≤ arithMax ∧ (v = (x + j) % 2 ^ m ∨ v = (x + 2 ^ m - j) % 2 ^ m)

theorem swap16_eq {x : ℕ} (hx : x < 2 ^ 16) : swap16 x = x % 2 ^ 8 * 2 ^ 8 + x / 2 ^ 8 := by
  have hlow : x / 2 ^ 8 < 2 ^ 8 := by omega
  have hor : (x <<< 8) ||| (x / 2 ^ 8) = x <<< 8 + x / 2 ^ 8 :=
    (Nat.shiftLeft_add_eq_or_of_lt hlow x).symm
  rw [swap16, Nat.shiftRight_eq_div_pow, hor, Nat.shiftLeft_eq]
  omega

theorem swap16_swap16 {x : ℕ} (hx : x < 2 ^ 16) : swap16 (swap16 x) = x := by
  rw [swap16_eq (swap16_lt x), swap16_eq hx]
  omega

theorem swap16_div {x : ℕ} (hx : x < 2 ^ 16) : swap16 x / 2 ^ 8 = x % 2 ^ 8 := by
  rw [swap16_eq hx]
  omega

theorem swap16_mod {x : ℕ} (hx : x < 2 ^ 16) : swap16 x % 2 ^ 8 = x / 2 ^ 8 := by
  rw [swap16_eq hx]
  omega

theorem and_shifted (n k y : ℕ) : y &&& ((2 ^ n - 1) <<< k) = (y / 2 ^ k % 2 ^ n) <<< k := by
  refine Nat.eq_of_testBit_eq fun j => ?_
  rw [Nat.testBit_and, Nat.testBit_shiftLeft, Nat.testBit_shiftLeft, Nat.testBit_two_pow_sub_one,
    Nat.testBit_mod_two_pow, Nat.testBit_div_two_pow]
  by_cases hk : k ≤ j
  · rw [Nat.sub_add_cancel hk, decide_eq_true hk, Bool.true_and, Bool.true_and, Bool.and_comm]
  · rw [decide_eq_false hk, Bool.false_and, Bool.false_and, Bool.and_false]

theorem swap32_eq {x : ℕ} (hx : x < 2 ^ 32) :
    swap32 x = swap16 (x % 2 ^ 16) * 2 ^ 16 + swap16 (x / 2 ^ 16) := by
  have hlast : x / 2 ^ 24 < 2 ^ 8 := by omega
  have hthird : (x <<< 8) &&& 0x00FF0000 = (x / 2 ^ 8 % 2 ^ 8) <<< 16 := by
    refine (and_shifted 8 16 (x <<< 8)).trans ?_
    rw [Nat.shiftLeft_eq]
    omega
  have hsecond : (x >>> 8) &&& 0x0000FF00 = (x / 2 ^ 16 % 2 ^ 8) <<< 8 := by
    refine (and_shifted 8 8 (x >>> 8)).trans ?_
    rw [Nat.shiftRight_eq_div_pow]
    omega
  have hthree : (x / 2 ^ 16 % 2 ^ 8) <<< 8 ||| x / 2 ^ 24 =
      (x / 2 ^ 16 % 2 ^ 8) <<< 8 + x / 2 ^ 24 := (Nat.shiftLeft_add_eq_or_of_lt hlast _).symm
  have htwo (y : ℕ) (hy : y < 2 ^ 16) :
      (x / 2 ^ 8 % 2 ^ 8) <<< 16 ||| y = (x / 2 ^ 8 % 2 ^ 8) <<< 16 + y :=
    (Nat.shiftLeft_add_eq_or_of_lt hy _).symm
  have hone (y : ℕ) (hy : y < 2 ^ 24) : x <<< 24 ||| y = x <<< 24 + y :=
    (Nat.shiftLeft_add_eq_or_of_lt hy _).symm
  have horder (a b c d : ℕ) : a ||| b ||| c ||| d = a ||| (c ||| (d ||| b)) := by ac_rfl
  have hfirst : x * 2 ^ 24 % 2 ^ 32 = x % 2 ^ 8 * 2 ^ 24 := by omega
  have hlow : x % 2 ^ 16 / 2 ^ 8 = x / 2 ^ 8 % 2 ^ 8 := by omega
  have hlowest : x % 2 ^ 16 % 2 ^ 8 = x % 2 ^ 8 := by omega
  have hhigh : x / 2 ^ 16 / 2 ^ 8 = x / 2 ^ 24 := by omega
  rw [swap32, hthird, hsecond, Nat.shiftRight_eq_div_pow, horder, hthree,
    htwo _ (by simp only [Nat.shiftLeft_eq]; omega),
    hone _ (by simp only [Nat.shiftLeft_eq]; omega), swap16_eq (by omega), swap16_eq (by omega),
    hlow, hlowest, hhigh]
  simp only [Nat.shiftLeft_eq]
  have hA := Nat.mod_lt x (Nat.two_pow_pos 8)
  have hB := Nat.mod_lt (x / 2 ^ 8) (Nat.two_pow_pos 8)
  have hC := Nat.mod_lt (x / 2 ^ 16) (Nat.two_pow_pos 8)
  rw [Nat.add_mod, hfirst]
  generalize x % 2 ^ 8 = A at *
  generalize x / 2 ^ 8 % 2 ^ 8 = B at *
  generalize x / 2 ^ 16 % 2 ^ 8 = C at *
  generalize x / 2 ^ 24 = D at *
  clear hthird hsecond hthree htwo hone hfirst hlow hlowest hhigh
  omega

theorem swap32_div {x : ℕ} (hx : x < 2 ^ 32) : swap32 x / 2 ^ 16 = swap16 (x % 2 ^ 16) := by
  have hlt := swap16_lt (x / 2 ^ 16)
  rw [swap32_eq hx]
  omega

theorem swap32_mod {x : ℕ} (hx : x < 2 ^ 32) : swap32 x % 2 ^ 16 = swap16 (x / 2 ^ 16) := by
  have hlt := swap16_lt (x / 2 ^ 16)
  rw [swap32_eq hx]
  omega

theorem swap32_swap32 {x : ℕ} (hx : x < 2 ^ 32) : swap32 (swap32 x) = x := by
  rw [swap32_eq (swap32_lt x), swap32_div hx, swap32_mod hx, swap16_swap16 (by omega),
    swap16_swap16 (by omega)]
  omega

/-- A sum without a carry out of the low half. -/
theorem add_low {B s j : ℕ} (hs : s < B * B) (hj : s % B + j < B) :
    (s + j) % (B * B) / B = s / B ∧ (s + j) % (B * B) % B = (s % B + j) % B := by
  have hsplit := Nat.div_add_mod s B
  have hdiv : s / B < B := Nat.div_lt_of_lt_mul hs
  have hroom : B * (s / B) + B ≤ B * B := by
    rw [← Nat.mul_succ]
    exact Nat.mul_le_mul_left B hdiv
  have hsum : s + j = s % B + j + B * (s / B) := by omega
  rw [Nat.mod_eq_of_lt (show s + j < B * B by omega), hsum, Nat.add_mul_div_left _ _ (by omega),
    Nat.div_eq_of_lt hj, Nat.zero_add, Nat.add_mul_mod_self_left]
  exact ⟨rfl, rfl⟩

/-- A difference without a borrow. -/
theorem sub_low {B s j : ℕ} (hs : s < B * B) (hj : j ≤ s % B) :
    (s + B * B - j) % (B * B) / B = s / B ∧
      (s + B * B - j) % (B * B) % B = (s % B + B - j) % B := by
  have hpos : 0 < B := by
    rcases Nat.eq_zero_or_pos B with rfl | hpos
    · omega
    · exact hpos
  have hsplit := Nat.div_add_mod s B
  have hmod := Nat.mod_lt s hpos
  have hsum : s + B * B - j = s - j + B * B := by omega
  have hlow : s - j = s % B - j + B * (s / B) := by omega
  have hhigh : s % B + B - j = s % B - j + B := by omega
  rw [hsum, Nat.add_mod_right, Nat.mod_eq_of_lt (show s - j < B * B by omega), hlow, hhigh,
    Nat.add_mul_div_left _ _ hpos, Nat.div_eq_of_lt (by omega), Nat.zero_add,
    Nat.add_mul_mod_self_left, Nat.add_mod_right]
  exact ⟨rfl, rfl⟩

/-- A sum or difference changes the low half only, or there is a carry or a borrow. -/
theorem Near.split (m : ℕ) {x v : ℕ} (hx : x < 2 ^ (2 * m)) (hv : Near (2 * m) x v) :
    (v / 2 ^ m = x / 2 ^ m ∧ Near m (x % 2 ^ m) (v % 2 ^ m)) ∨
    ∃ j, 1 ≤ j ∧ j ≤ arithMax ∧ ((2 ^ m ≤ x % 2 ^ m + j ∧ v = (x + j) % 2 ^ (2 * m)) ∨
      (x % 2 ^ m < j ∧ v = (x + 2 ^ (2 * m) - j) % 2 ^ (2 * m))) := by
  obtain ⟨j, hlow, hhigh, hv⟩ := hv
  have hsquare : 2 ^ (2 * m) = 2 ^ m * 2 ^ m := by rw [Nat.two_mul, Nat.pow_add]
  rw [hsquare] at hx hv ⊢
  rcases hv with rfl | rfl
  · by_cases hcarry : 2 ^ m ≤ x % 2 ^ m + j
    · exact Or.inr ⟨j, hlow, hhigh, Or.inl ⟨hcarry, rfl⟩⟩
    · obtain ⟨hdiv, hmod⟩ := add_low hx (Nat.lt_of_not_le hcarry)
      exact Or.inl ⟨hdiv, j, hlow, hhigh, Or.inl hmod⟩
  · by_cases hborrow : x % 2 ^ m < j
    · exact Or.inr ⟨j, hlow, hhigh, Or.inr ⟨hborrow, rfl⟩⟩
    · obtain ⟨hdiv, hmod⟩ := sub_low hx (Nat.le_of_not_lt hborrow)
      exact Or.inl ⟨hdiv, j, hlow, hhigh, Or.inr hmod⟩

theorem field_zero (m x : ℕ) : field m 0 x = x % 2 ^ m := by
  rw [field, Nat.mul_zero, Nat.pow_zero, Nat.div_one]

theorem field_one {m x : ℕ} (hx : x < 2 ^ (2 * m)) : field m 1 x = x / 2 ^ m := by
  rw [field, Nat.mul_one]
  refine Nat.mod_eq_of_lt (Nat.div_lt_of_lt_mul ?_)
  rwa [← Nat.pow_add, ← Nat.two_mul]

theorem mem_arithAttempt {overflows : Prop} [Decidable overflows] (h : overflows) (orig v : ℕ) :
    ⟨couldBeBitflip (orig ^^^ v), v⟩ ∈ arithAttempt overflows orig v := by
  rw [arithAttempt, if_pos h]
  exact List.mem_singleton_self _

/-- A candidate of an arithmetic stage is only skipped for `could_be_bitflip`. -/
theorem done_of_arith {st : Stage} (hst : st ∈ stages) {i v : ℕ}
    (h : i + st.width ≤ input.length)
    (ha : ⟨couldBeBitflip (window st.width input i ^^^ v), v⟩ ∈
      (st.groups (window st.width input i)).flatten) :
    Done input ((window st.width input i ^^^ v) <<< (8 * i)) := by
  have hv := (attempt_sound hst ha).1
  have horig := window_lt h
  have hlt : window st.width input i ^^^ v < 256 ^ st.width := by
    rw [pow256] at horig ⊢
    exact Nat.xor_lt_two_pow horig hv
  exact done_of_attempt hst h ha fun hflip => done_of_bitflip h (width_le hst) hlt hflip

theorem near8_done {i v : ℕ} (h : i + 1 ≤ input.length) (hv : Near 8 (window 1 input i) v) :
    Done input ((window 1 input i ^^^ v) <<< (8 * i)) := by
  obtain ⟨j, hlow, hhigh, hv⟩ := hv
  have hmem : ⟨couldBeBitflip (window 1 input i ^^^ v), v⟩ ∈
      (arith8.groups (window 1 input i)).flatten := by
    dsimp only [arith8]
    refine mem_arith.mpr ⟨j, hlow, hhigh, ?_⟩
    rcases hv with rfl | rfl
    · exact List.mem_append_left _ (mem_arithAttempt trivial _ _)
    · exact List.mem_append_right _ (mem_arithAttempt trivial _ _)
  exact done_of_arith arith8_mem h hmem

/-- One byte of a candidate is near. -/
theorem near8_field {w i k v : ℕ} (h : i + w ≤ input.length) (hk : k < w) (hv : v < 256 ^ w)
    (hsame : ∀ j < w, j ≠ k → field 8 j (window w input i) = field 8 j v)
    (hnear : Near 8 (field 8 k (window w input i)) (field 8 k v)) :
    Done input ((window w input i ^^^ v) <<< (8 * i)) := by
  have hn : w = 1 * w := (Nat.one_mul w).symm
  have hwindow := window_eq_field h hn hk
  refine done_of_field h hn (by decide) hk hv hsame (near8_done (by omega) ?_)
  rw [hwindow]
  exact hnear

theorem near16_done {i v : ℕ} (h : i + 2 ≤ input.length) (hlt : v < 2 ^ 16)
    (hv : Near 16 (window 2 input i) v) :
    Done input ((window 2 input i ^^^ v) <<< (8 * i)) := by
  have horig : window 2 input i < 2 ^ (2 * 8) := window_lt h
  have hattempt (ha : ⟨couldBeBitflip (window 2 input i ^^^ v), v⟩ ∈
      (arith16.groups (window 2 input i)).flatten) :
      Done input ((window 2 input i ^^^ v) <<< (8 * i)) :=
    done_of_arith arith16_mem h ha
  have hbyte := near8_field (k := 0) h (by decide) hlt
  generalize window 2 input i = o at *
  have hmask : o &&& 0xff = o % 2 ^ 8 := Nat.and_two_pow_sub_one_eq_mod o 8
  dsimp only [arith16] at hattempt
  rcases Near.split 8 horig hv with ⟨hdiv, hmod⟩ | ⟨j, hlow, hhigh, hj⟩
  · refine hbyte (fun k hk hne => ?_) ?_
    · have hk : k = 1 := by omega
      rw [hk, field_one horig, field_one hlt, hdiv]
    · rwa [field_zero, field_zero]
  · refine hattempt (mem_arith.mpr ⟨j, hlow, hhigh, ?_⟩)
    rcases hj with ⟨hcarry, rfl⟩ | ⟨hborrow, rfl⟩
    · exact List.mem_append_left _ (List.mem_append_left _ (List.mem_append_left _
        (mem_arithAttempt (by omega) _ _)))
    · exact List.mem_append_left _ (List.mem_append_left _ (List.mem_append_right _
        (mem_arithAttempt (by omega) _ _)))

/-- The same in the other byte order. -/
theorem near16_swap_done {i v : ℕ} (h : i + 2 ≤ input.length) (hlt : v < 2 ^ 16)
    (hv : Near 16 (swap16 (window 2 input i)) (swap16 v)) :
    Done input ((window 2 input i ^^^ v) <<< (8 * i)) := by
  have horig : window 2 input i < 2 ^ (2 * 8) := window_lt h
  have hattempt (ha : ⟨couldBeBitflip (window 2 input i ^^^ v), v⟩ ∈
      (arith16.groups (window 2 input i)).flatten) :
      Done input ((window 2 input i ^^^ v) <<< (8 * i)) :=
    done_of_arith arith16_mem h ha
  have hbyte := near8_field (k := 1) h (by decide) hlt
  generalize window 2 input i = o at *
  have hshift : o >>> 8 = o / 2 ^ 8 := Nat.shiftRight_eq_div_pow o 8
  have hhalf := swap16_mod horig
  dsimp only [arith16] at hattempt
  rcases Near.split 8 (swap16_lt o) hv with ⟨hdiv, hmod⟩ | ⟨j, hlow, hhigh, hj⟩
  · rw [swap16_div hlt, swap16_div horig] at hdiv
    rw [swap16_mod hlt, hhalf] at hmod
    refine hbyte (fun k hk hne => ?_) ?_
    · have hk : k = 0 := by omega
      rw [hk, field_zero, field_zero, hdiv]
    · rwa [field_one horig, field_one hlt]
  · refine hattempt (mem_arith.mpr ⟨j, hlow, hhigh, ?_⟩)
    have hback := swap16_swap16 hlt
    rcases hj with ⟨hcarry, hj⟩ | ⟨hborrow, hj⟩
    · rw [hj] at hback
      rw [← hback]
      exact List.mem_append_left _ (List.mem_append_right _ (mem_arithAttempt (by omega) _ _))
    · rw [hj] at hback
      rw [← hback]
      exact List.mem_append_right _ (mem_arithAttempt (by omega) _ _)

/-- Near in one of the two byte orders. -/
def Near16 (x v : ℕ) : Prop := Near 16 x v ∨ Near 16 (swap16 x) (swap16 v)

/-- Two bytes of a candidate are near. -/
theorem near16_field {w n i k v : ℕ} (h : i + w ≤ input.length) (hn : w = 2 * n) (hk : k < n)
    (hv : v < 256 ^ w) (hsame : ∀ j < n, j ≠ k → field 16 j (window w input i) = field 16 j v)
    (hnear : Near16 (field 16 k (window w input i)) (field 16 k v)) :
    Done input ((window w input i ^^^ v) <<< (8 * i)) := by
  have hwindow := window_eq_field h hn hk
  have hroom : i + 2 * k + 2 ≤ input.length := by omega
  refine done_of_field h hn (by decide) hk hv hsame ?_
  unfold Near16 at hnear
  rw [← hwindow] at hnear
  rcases hnear with hnear | hnear
  · exact near16_done hroom (field_lt 16 k v) hnear
  · exact near16_swap_done hroom (field_lt 16 k v) hnear

theorem near32_done {i v : ℕ} (h : i + 4 ≤ input.length) (hlt : v < 2 ^ 32)
    (hv : Near 32 (window 4 input i) v) :
    Done input ((window 4 input i ^^^ v) <<< (8 * i)) := by
  have horig : window 4 input i < 2 ^ (2 * 16) := window_lt h
  have hattempt (ha : ⟨couldBeBitflip (window 4 input i ^^^ v), v⟩ ∈
      (arith32.groups (window 4 input i)).flatten) :
      Done input ((window 4 input i ^^^ v) <<< (8 * i)) :=
    done_of_arith arith32_mem h ha
  have hword := near16_field (n := 2) (k := 0) h rfl (by decide) hlt
  generalize window 4 input i = o at *
  have hmask : o &&& 0xffff = o % 2 ^ 16 := Nat.and_two_pow_sub_one_eq_mod o 16
  dsimp only [arith32] at hattempt
  rcases Near.split 16 horig hv with ⟨hdiv, hmod⟩ | ⟨j, hlow, hhigh, hj⟩
  · refine hword (fun k hk hne => ?_) (Or.inl ?_)
    · have hk : k = 1 := by omega
      rw [hk, field_one horig, field_one hlt, hdiv]
    · rwa [field_zero, field_zero]
  · refine hattempt (mem_arith.mpr ⟨j, hlow, hhigh, ?_⟩)
    rcases hj with ⟨hcarry, rfl⟩ | ⟨hborrow, rfl⟩
    · exact List.mem_append_left _ (List.mem_append_left _ (List.mem_append_left _
        (mem_arithAttempt (by omega) _ _)))
    · exact List.mem_append_left _ (List.mem_append_left _ (List.mem_append_right _
        (mem_arithAttempt (by omega) _ _)))

theorem near32_swap_done {i v : ℕ} (h : i + 4 ≤ input.length) (hlt : v < 2 ^ 32)
    (hv : Near 32 (swap32 (window 4 input i)) (swap32 v)) :
    Done input ((window 4 input i ^^^ v) <<< (8 * i)) := by
  have horig : window 4 input i < 2 ^ (2 * 16) := window_lt h
  have hattempt (ha : ⟨couldBeBitflip (window 4 input i ^^^ v), v⟩ ∈
      (arith32.groups (window 4 input i)).flatten) :
      Done input ((window 4 input i ^^^ v) <<< (8 * i)) :=
    done_of_arith arith32_mem h ha
  have hword := near16_field (n := 2) (k := 1) h rfl (by decide) hlt
  generalize window 4 input i = o at *
  have hmask : swap32 o &&& 0xffff = swap32 o % 2 ^ 16 := Nat.and_two_pow_sub_one_eq_mod _ 16
  dsimp only [arith32] at hattempt
  rcases Near.split 16 (swap32_lt o) hv with ⟨hdiv, hmod⟩ | ⟨j, hlow, hhigh, hj⟩
  · rw [swap32_div hlt, swap32_div horig] at hdiv
    rw [swap32_mod hlt, swap32_mod horig] at hmod
    refine hword (fun k hk hne => ?_) (Or.inr ?_)
    · have hk : k = 0 := by omega
      rw [hk, field_zero, field_zero, ← swap16_swap16 (Nat.mod_lt o (Nat.two_pow_pos 16)), ← hdiv,
        swap16_swap16 (Nat.mod_lt v (Nat.two_pow_pos 16))]
    · rwa [field_one horig, field_one hlt]
  · refine hattempt (mem_arith.mpr ⟨j, hlow, hhigh, ?_⟩)
    have hback := swap32_swap32 hlt
    rcases hj with ⟨hcarry, hj⟩ | ⟨hborrow, hj⟩
    · rw [hj] at hback
      rw [← hback]
      exact List.mem_append_left _ (List.mem_append_right _ (mem_arithAttempt (by omega) _ _))
    · rw [hj] at hback
      rw [← hback]
      exact List.mem_append_right _ (mem_arithAttempt (by omega) _ _)

/-- One field differs, and it is the last pair. -/
theorem lastDiff_spec (m n old new : ℕ) :
    ((lastDiff m n old new).1 = 0 → ∀ i < n, field m i old = field m i new) ∧
    ((lastDiff m n old new).1 = 1 → ∃ k < n,
      (∀ i < n, i ≠ k → field m i old = field m i new) ∧ field m k old ≠ field m k new ∧
        (lastDiff m n old new).2 = (field m k old, field m k new)) := by
  induction n with
  | zero => exact ⟨fun _ i hi => absurd hi (Nat.not_lt_zero i), fun h => by cases h⟩
  | succ n ih =>
    obtain ⟨hnone, hone⟩ := ih
    have hstep : lastDiff m (n + 1) old new = if field m n old ≠ field m n new then
        ((lastDiff m n old new).1 + 1, field m n old, field m n new)
        else lastDiff m n old new := by
      rw [lastDiff, List.range_succ, List.foldl_append]
      rfl
    rw [hstep]
    by_cases hne : field m n old ≠ field m n new
    · rw [if_pos hne]
      refine ⟨fun h => absurd h (Nat.succ_ne_zero _), fun h => ?_⟩
      have hbefore := hnone (Nat.succ.inj h)
      exact ⟨n, Nat.lt_succ_self n, fun i hi hin => hbefore i (by omega), hne, rfl⟩
    · rw [if_neg hne]
      have hlast : field m n old = field m n new := not_not.mp hne
      constructor
      · intro h i hi
        rcases Nat.lt_succ_iff_lt_or_eq.mp hi with hi | rfl
        · exact hnone h i hi
        · exact hlast
      · intro h
        obtain ⟨k, hk, hsame, hdiff, hpair⟩ := hone h
        refine ⟨k, by omega, fun i hi hik => ?_, hdiff, hpair⟩
        rcases Nat.lt_succ_iff_lt_or_eq.mp hi with hi | rfl
        · exact hsame i hi hik
        · exact hlast

theorem near_of_within {m ov nv : ℕ} (hov : ov < 2 ^ m) (hnv : nv < 2 ^ m) (hne : ov ≠ nv)
    (h : within m ov nv = true) : Near m ov nv := by
  have hdiff {a b : ℕ} (ha : a < 2 ^ m) (hb : b < 2 ^ m) (hab : a ≠ b) :
      1 ≤ (a + 2 ^ m - b) % 2 ^ m ∧ b = (a + 2 ^ m - (a + 2 ^ m - b) % 2 ^ m) % 2 ^ m ∧
        a = (b + (a + 2 ^ m - b) % 2 ^ m) % 2 ^ m := by
    rcases Nat.lt_or_gt_of_ne hab with hlt | hgt
    · have hmod : (a + 2 ^ m - b) % 2 ^ m = a + 2 ^ m - b := Nat.mod_eq_of_lt (by omega)
      have hback : a + 2 ^ m - (a + 2 ^ m - b) = b := by omega
      have hforth : b + (a + 2 ^ m - b) = a + 2 ^ m := by omega
      rw [hmod, hback, hforth, Nat.mod_eq_of_lt hb, Nat.add_mod_right, Nat.mod_eq_of_lt ha]
      exact ⟨by omega, rfl, rfl⟩
    · have hsum : a + 2 ^ m - b = a - b + 2 ^ m := by omega
      have hmod : (a + 2 ^ m - b) % 2 ^ m = a - b := by
        rw [hsum, Nat.add_mod_right, Nat.mod_eq_of_lt (by omega)]
      have hback : a + 2 ^ m - (a - b) = b + 2 ^ m := by omega
      have hforth : b + (a - b) = a := by omega
      rw [hmod, hback, hforth, Nat.add_mod_right, Nat.mod_eq_of_lt hb, Nat.mod_eq_of_lt ha]
      exact ⟨by omega, rfl, rfl⟩
  rcases of_decide_eq_true h with hle | hle
  · obtain ⟨hpos, hsub, -⟩ := hdiff hov hnv hne
    exact ⟨_, hpos, hle, Or.inr hsub⟩
  · obtain ⟨hpos, -, hadd⟩ := hdiff hnv hov hne.symm
    exact ⟨_, hpos, hle, Or.inl hadd⟩

theorem near16_of_within {ov nv : ℕ} (hov : ov < 2 ^ 16) (hnv : nv < 2 ^ 16) (hne : ov ≠ nv)
    (h : within 16 ov nv = true ∨ within 16 (swap16 ov) (swap16 nv) = true) : Near16 ov nv := by
  refine h.imp (near_of_within hov hnv hne) (near_of_within (swap16_lt ov) (swap16_lt nv) ?_)
  intro heq
  apply hne
  rw [← swap16_swap16 hov, heq, swap16_swap16 hnv]

/-- What `could_be_arith` takes for done. -/
theorem done_of_couldBeArith {w i v : ℕ} (hw : w = 1 ∨ w = 2 ∨ w = 4) (h : i + w ≤ input.length)
    (hv : v < 256 ^ w) (hcould : couldBeArith (window w input i) v w = true) :
    Done input ((window w input i ^^^ v) <<< (8 * i)) := by
  have horig := window_lt h
  unfold couldBeArith at hcould
  by_cases heq : window w input i = v
  · rw [heq, Nat.xor_self, Nat.zero_shiftLeft]
    exact Or.inl reached_self
  rw [if_neg heq] at hcould
  by_cases hbyte : (lastDiff 8 w (window w input i) v).1 = 1 ∧
      within 8 (lastDiff 8 w (window w input i) v).2.1
        (lastDiff 8 w (window w input i) v).2.2 = true
  · obtain ⟨k, hk, hsame, hdiff, hpair⟩ := (lastDiff_spec 8 w (window w input i) v).2 hbyte.1
    have hwithin := hbyte.2
    rw [hpair] at hwithin
    exact near8_field h hk hv hsame
      (near_of_within (field_lt 8 k _) (field_lt 8 k _) hdiff hwithin)
  dsimp only at hcould
  rw [if_neg hbyte] at hcould
  by_cases hone : w = 1
  · rw [if_pos hone] at hcould
    cases hcould
  rw [if_neg hone] at hcould
  split_ifs at hcould with hword hfour
  · obtain ⟨k, hk, hsame, hdiff, hpair⟩ :=
      (lastDiff_spec 16 (w / 2) (window w input i) v).2 hword.1
    have hwithin := hword.2
    rw [hpair] at hwithin
    exact near16_field h (by omega) hk hv hsame
      (near16_of_within (field_lt 16 k _) (field_lt 16 k _) hdiff hwithin)
  · subst hfour
    rcases Bool.or_eq_true_iff.mp hcould with hwithin | hwithin
    · exact near32_done h hv (near_of_within horig hv heq hwithin)
    · refine near32_swap_done h hv (near_of_within (swap32_lt _) (swap32_lt _) ?_ hwithin)
      intro hswap
      apply heq
      rw [← swap32_swap32 horig, hswap, swap32_swap32 hv]

/-! ## Interesting values -/

/-- An insertion changes the bits of its place. -/
theorem xor_insertAt {m k old v : ℕ} (hold : old < 2 ^ 32) (hv : v < 2 ^ m) (hfit : k + m ≤ 32) :
    old ^^^ insertAt m k old v = (old / 2 ^ k % 2 ^ m ^^^ v) <<< k := by
  have hmask : (0xffffffff : ℕ) = 2 ^ 32 - 1 := rfl
  refine Nat.eq_of_testBit_eq fun j => ?_
  have hout (hj : 32 ≤ j) : old.testBit j = false :=
    Nat.testBit_lt_two_pow (hold.trans_le (Nat.pow_le_pow_right (by decide) hj))
  have hhigh (hj : m ≤ j - k) : v.testBit (j - k) = false :=
    Nat.testBit_lt_two_pow (hv.trans_le (Nat.pow_le_pow_right (by decide) hj))
  rw [insertAt, hmask]
  simp only [Nat.testBit_xor, Nat.testBit_or, Nat.testBit_and, Nat.testBit_shiftLeft,
    Nat.testBit_two_pow_sub_one, Nat.testBit_mod_two_pow, Nat.testBit_div_two_pow]
  by_cases hk : k ≤ j
  · rw [Nat.sub_add_cancel hk]
    by_cases hm : j - k < m
    · have h32 : j < 32 := by omega
      simp [hk, hm, h32]
    · rw [hhigh (Nat.le_of_not_lt hm)]
      by_cases h32 : j < 32
      · simp [hm, h32]
      · simp [hm, h32, hout (Nat.le_of_not_lt h32)]
  · by_cases h32 : j < 32
    · simp [hk, h32]
    · omega

/-- A candidate that differs in the `u` bytes from byte `k` on. -/
theorem done_of_insertAt {w u k i v : ℕ} (hw : w ≤ 4) (h : i + w ≤ input.length) (hk : k + u ≤ w)
    (hv : v < 2 ^ (8 * u))
    (hdone : Done input ((window u input (i + k) ^^^ v) <<< (8 * (i + k)))) :
    Done input
      ((window w input i ^^^ insertAt (8 * u) (k * 8) (window w input i) v) <<< (8 * i)) := by
  have horig : window w input i < 2 ^ 32 := by
    have hlt := window_lt h
    rw [pow256] at hlt
    exact hlt.trans_le (Nat.pow_le_pow_right (by decide) (by omega))
  have hfield := window_window h hk
  rw [pow256, pow256, Nat.mul_comm 8 k] at hfield
  have hplace : k * 8 + 8 * i = 8 * (i + k) := by ring
  rw [xor_insertAt horig hv (by omega), hfield, ← Nat.shiftLeft_add, hplace]
  exact hdone

theorem interest8_done {i : ℕ} (h : i + 1 ≤ input.length) {x : ℤ} (hx : x ∈ interesting8) :
    Done input ((window 1 input i ^^^ unsigned 8 x) <<< (8 * i)) := by
  have horig := window_lt h
  have hlt : window 1 input i ^^^ unsigned 8 x < 256 ^ 1 :=
    Nat.xor_lt_two_pow (n := 8) horig (unsigned_lt 8 x)
  refine done_of_attempt interest8_mem h
    (a := ⟨_, unsigned 8 x⟩) (List.mem_flatten.mpr
      ⟨_, List.mem_map.mpr ⟨x, hx, rfl⟩, List.mem_singleton_self _⟩) fun hskip => ?_
  rcases Bool.or_eq_true_iff.mp hskip with hflip | harith
  · exact done_of_bitflip h (by decide) hlt hflip
  · exact done_of_couldBeArith (Or.inl rfl) h (unsigned_lt 8 x) harith

/-- An attempt of the wider stages, when `could_be_interest` is right. -/
theorem done_of_interestAttempt {st : Stage} (hst : st ∈ stages)
    (hwidth : st.width = 2 ∨ st.width = 4) {i v : ℕ} {checkLe : Bool}
    (h : i + st.width ≤ input.length)
    (ha : interestAttempt st.width (window st.width input i) v checkLe ∈
      (st.groups (window st.width input i)).flatten)
    (hinterest : couldBeInterest (window st.width input i) v st.width checkLe = true →
      Done input ((window st.width input i ^^^ v) <<< (8 * i))) :
    Done input ((window st.width input i ^^^ v) <<< (8 * i)) := by
  have hv : v < 2 ^ (8 * st.width) := (attempt_sound hst ha).1
  have horig := window_lt h
  have hlt : window st.width input i ^^^ v < 256 ^ st.width := by
    rw [pow256] at horig ⊢
    exact Nat.xor_lt_two_pow horig hv
  refine done_of_attempt hst h ha fun hskip => ?_
  rcases Bool.or_eq_true_iff.mp hskip with hskip | hskip
  · rcases Bool.or_eq_true_iff.mp hskip with hflip | harith
    · exact done_of_bitflip h (by omega) hlt hflip
    · exact done_of_couldBeArith (Or.inr hwidth) h (by rwa [pow256]) harith
  · exact hinterest hskip

/-- What `could_be_interest` takes for done, when the two-byte values and those of the same length
in the other order are. -/
theorem done_of_couldBeInterest {w i v : ℕ} {checkLe : Bool} (hw : w = 2 ∨ w = 4)
    (h : i + w ≤ input.length) (hcould : couldBeInterest (window w input i) v w checkLe = true)
    (hle : w = 4 ∨ checkLe = true → ∀ k, k + 2 ≤ w → ∀ x ∈ interesting16,
      Done input ((window 2 input (i + k) ^^^ unsigned 16 x) <<< (8 * (i + k))))
    (hbe : w = 4 → ∀ k, k + 2 ≤ w → ∀ x ∈ interesting16,
      Done input ((window 2 input (i + k) ^^^ swap16 (unsigned 16 x)) <<< (8 * (i + k))))
    (hwide : w = 4 → checkLe = true → ∀ x ∈ interesting32,
      Done input ((window w input i ^^^ unsigned 32 x) <<< (8 * i))) :
    Done input ((window w input i ^^^ v) <<< (8 * i)) := by
  unfold couldBeInterest at hcould
  split_ifs at hcould with heq hbyte hbail hword hfour
  · rw [heq, Nat.xor_self, Nat.zero_shiftLeft]
    exact Or.inl reached_self
  · obtain ⟨k, hk, hany⟩ := List.any_eq_true.mp hbyte
    obtain ⟨x, hx, hv⟩ := List.any_eq_true.mp hany
    have hk := List.mem_range.mp hk
    rw [of_decide_eq_true hv]
    exact done_of_insertAt (u := 1) (by omega) h (by omega) (unsigned_lt 8 x)
      (interest8_done (by omega) hx)
  · obtain ⟨k, hk, hany⟩ := List.any_eq_true.mp hword
    obtain ⟨x, hx, hv⟩ := List.any_eq_true.mp hany
    have hk := List.mem_range.mp hk
    rcases Bool.or_eq_true_iff.mp hv with hv | hv
    · have hcase : w = 4 ∨ checkLe = true := by
        rcases hw with hw | hw
        · refine Or.inr ?_
          cases checkLe with
          | true => rfl
          | false => exact absurd ⟨hw, rfl⟩ hbail
        · exact Or.inl hw
      rw [of_decide_eq_true hv]
      exact done_of_insertAt (u := 2) (by omega) h (by omega) (unsigned_lt 16 x)
        (hle hcase k (by omega) x hx)
    · obtain ⟨hlong, hv⟩ := Bool.and_eq_true_iff.mp hv
      have hlong := of_decide_eq_true hlong
      rw [of_decide_eq_true hv]
      exact done_of_insertAt (u := 2) (by omega) h (by omega) (swap16_lt _)
        (hbe (by omega) k (by omega) x hx)
  · obtain ⟨x, hx, hv⟩ := List.any_eq_true.mp hcould
    rw [of_decide_eq_true hv]
    exact hwide hfour.1 hfour.2 x hx

theorem mem_interest16 (orig : ℕ) {x : ℤ} (hx : x ∈ interesting16) {a : Attempt}
    (ha : a ∈ interestAttempts 2 orig (unsigned 16 x) (swap16 (unsigned 16 x))) :
    a ∈ (interest16.groups orig).flatten :=
  List.mem_flatten.mpr ⟨_, List.mem_singleton_self _, List.mem_flatMap.mpr ⟨x, hx, ha⟩⟩

theorem mem_interest32 (orig : ℕ) {x : ℤ} (hx : x ∈ interesting32) {a : Attempt}
    (ha : a ∈ interestAttempts 4 orig (unsigned 32 x) (swap32 (unsigned 32 x))) :
    a ∈ (interest32.groups orig).flatten :=
  List.mem_flatten.mpr ⟨_, List.mem_singleton_self _, List.mem_flatMap.mpr ⟨x, hx, ha⟩⟩

theorem interest16_done {i : ℕ} (h : i + 2 ≤ input.length) {x : ℤ} (hx : x ∈ interesting16) :
    Done input ((window 2 input i ^^^ unsigned 16 x) <<< (8 * i)) := by
  have ha := mem_interest16 (window 2 input i) hx List.mem_cons_self
  refine done_of_interestAttempt interest16_mem (Or.inl rfl) h ha
    fun hcould => ?_
  refine done_of_couldBeInterest (Or.inl rfl) h hcould (fun hcase => ?_) (fun hw => ?_)
    fun hw => ?_
  · rcases hcase with hw | hle
    · cases hw
    · cases hle
  · cases hw
  · cases hw

theorem interest16_swap_done {i : ℕ} (h : i + 2 ≤ input.length) {x : ℤ} (hx : x ∈ interesting16) :
    Done input ((window 2 input i ^^^ swap16 (unsigned 16 x)) <<< (8 * i)) := by
  by_cases hsame : unsigned 16 x ≠ swap16 (unsigned 16 x)
  · have hsecond : interestAttempt 2 (window 2 input i) (swap16 (unsigned 16 x)) true ∈
        interestAttempts 2 (window 2 input i) (unsigned 16 x) (swap16 (unsigned 16 x)) := by
      rw [interestAttempts, if_pos hsame]
      exact List.mem_cons_of_mem _ (List.mem_singleton_self _)
    refine done_of_interestAttempt interest16_mem (Or.inl rfl) h
      (mem_interest16 _ hx hsecond) fun hcould => ?_
    refine done_of_couldBeInterest (Or.inl rfl) h hcould (fun _ k hk y hy => ?_) (fun hw => ?_)
      fun hw => ?_
    · have hk : k + 2 ≤ 2 := hk
      exact interest16_done (by omega) hy
    · cases hw
    · cases hw
  · rw [← not_not.mp hsame]
    exact interest16_done h hx

theorem interest32_done {i : ℕ} (h : i + 4 ≤ input.length) {x : ℤ} (hx : x ∈ interesting32) :
    Done input ((window 4 input i ^^^ unsigned 32 x) <<< (8 * i)) := by
  have ha := mem_interest32 (window 4 input i) hx List.mem_cons_self
  refine done_of_interestAttempt interest32_mem (Or.inr rfl) h ha
    fun hcould => ?_
  refine done_of_couldBeInterest (Or.inr rfl) h hcould (fun _ k hk y hy => ?_)
    (fun _ k hk y hy => ?_) fun _ hle => ?_
  · have hk : k + 2 ≤ 4 := hk
    exact interest16_done (by omega) hy
  · have hk : k + 2 ≤ 4 := hk
    exact interest16_swap_done (by omega) hy
  · cases hle

theorem interest32_swap_done {i : ℕ} (h : i + 4 ≤ input.length) {x : ℤ} (hx : x ∈ interesting32) :
    Done input ((window 4 input i ^^^ swap32 (unsigned 32 x)) <<< (8 * i)) := by
  by_cases hsame : unsigned 32 x ≠ swap32 (unsigned 32 x)
  · have hsecond : interestAttempt 4 (window 4 input i) (swap32 (unsigned 32 x)) true ∈
        interestAttempts 4 (window 4 input i) (unsigned 32 x) (swap32 (unsigned 32 x)) := by
      rw [interestAttempts, if_pos hsame]
      exact List.mem_cons_of_mem _ (List.mem_singleton_self _)
    refine done_of_interestAttempt interest32_mem (Or.inr rfl) h
      (mem_interest32 _ hx hsecond) fun hcould => ?_
    refine done_of_couldBeInterest (Or.inr rfl) h hcould (fun _ k hk y hy => ?_)
      (fun _ k hk y hy => ?_) fun _ _ y hy => ?_
    · have hk : k + 2 ≤ 4 := hk
      exact interest16_done (by omega) hy
    · have hk : k + 2 ≤ 4 := hk
      exact interest16_swap_done (by omega) hy
    · exact interest32_done h hy
  · rw [← not_not.mp hsame]
    exact interest32_done h hx

/-! ## All candidates -/

/-- An attempt of the arithmetic stages asks `could_be_bitflip` only. -/
theorem eq_of_mem_arithAttempt {overflows : Prop} [Decidable overflows] {orig v : ℕ} {a : Attempt}
    (ha : a ∈ arithAttempt overflows orig v) :
    a = ⟨couldBeBitflip (orig ^^^ a.value), a.value⟩ := by
  unfold arithAttempt at ha
  split_ifs at ha
  · rw [List.mem_singleton.mp ha]
  · exact absurd ha List.not_mem_nil

theorem eq_of_mem_arith {st : Stage} (hst : st = arith8 ∨ st = arith16 ∨ st = arith32) {orig : ℕ}
    {a : Attempt} (ha : a ∈ (st.groups orig).flatten) :
    a = ⟨couldBeBitflip (orig ^^^ a.value), a.value⟩ := by
  rcases hst with rfl | rfl | rfl
  · dsimp only [arith8] at ha
    obtain ⟨j, -, -, ha⟩ := mem_arith.mp ha
    rcases List.mem_append.mp ha with ha | ha
    · exact eq_of_mem_arithAttempt ha
    · exact eq_of_mem_arithAttempt ha
  · dsimp only [arith16] at ha
    obtain ⟨j, -, -, ha⟩ := mem_arith.mp ha
    simp only [List.mem_append] at ha
    rcases ha with ((ha | ha) | ha) | ha
    · exact eq_of_mem_arithAttempt ha
    · exact eq_of_mem_arithAttempt ha
    · exact eq_of_mem_arithAttempt ha
    · exact eq_of_mem_arithAttempt ha
  · dsimp only [arith32] at ha
    obtain ⟨j, -, -, ha⟩ := mem_arith.mp ha
    simp only [List.mem_append] at ha
    rcases ha with ((ha | ha) | ha) | ha
    · exact eq_of_mem_arithAttempt ha
    · exact eq_of_mem_arithAttempt ha
    · exact eq_of_mem_arithAttempt ha
    · exact eq_of_mem_arithAttempt ha

/-- What any stage attempts is reached, or it straddles. -/
theorem attempt_done {st : Stage} (hst : st ∈ stages) {i : ℕ} (h : i + st.width ≤ input.length)
    {a : Attempt} (ha : a ∈ (st.groups (window st.width input i)).flatten) :
    Done input ((window st.width input i ^^^ a.value) <<< (8 * i)) := by
  have hcases := hst
  simp only [stages, List.mem_cons, List.not_mem_nil, or_false] at hcases
  have harith (hkind : st = arith8 ∨ st = arith16 ∨ st = arith32) :
      Done input ((window st.width input i ^^^ a.value) <<< (8 * i)) := by
    have hform := eq_of_mem_arith hkind ha
    rw [hform] at ha
    exact done_of_arith hst h ha
  rcases hcases with rfl | rfl | rfl | rfl | rfl | rfl
  · exact harith (Or.inl rfl)
  · exact harith (Or.inr (Or.inl rfl))
  · exact harith (Or.inr (Or.inr rfl))
  · obtain ⟨_, hg, ha⟩ := List.mem_flatten.mp ha
    obtain ⟨x, hx, rfl⟩ := List.mem_map.mp hg
    rw [List.mem_singleton.mp ha]
    exact interest8_done h hx
  · obtain ⟨_, hg, ha⟩ := List.mem_flatten.mp ha
    rw [List.mem_singleton.mp hg] at ha
    obtain ⟨x, hx, ha⟩ := List.mem_flatMap.mp ha
    rcases mem_interestAttempts ha with rfl | rfl
    · exact interest16_done h hx
    · exact interest16_swap_done h hx
  · obtain ⟨_, hg, ha⟩ := List.mem_flatten.mp ha
    rw [List.mem_singleton.mp hg] at ha
    obtain ⟨x, hx, ha⟩ := List.mem_flatMap.mp ha
    rcases mem_interestAttempts ha with rfl | rfl
    · exact interest32_done h hx
    · exact interest32_swap_done h hx

theorem testBit_bitsMask {n b j : ℕ} (h : (bitsMask n b).testBit j = true) :
    ∃ t < n, j = place (b + t) := by
  induction n with
  | zero =>
    rw [bitsMask, List.range_zero, List.foldl_nil, Nat.zero_testBit] at h
    cases h
  | succ n ih =>
    rw [bitsMask_succ, Nat.testBit_xor, Nat.testBit_two_pow] at h
    by_cases hj : place (b + n) = j
    · exact ⟨n, Nat.lt_succ_self n, hj.symm⟩
    · rw [decide_eq_false hj, Bool.xor_false] at h
      obtain ⟨t, ht, hplace⟩ := ih h
      exact ⟨t, by omega, hplace⟩

/-- The bits that are flipped in a row do not pass from the last bit of a byte to the first of the
next: these are 15 steps apart. -/
theorem not_straddles_bitsMask {n b : ℕ} (hn : n ≤ 4) : ¬ Straddles (bitsMask n b) := by
  intro h
  obtain ⟨k, hlast, hfirst⟩ := h.bits
  obtain ⟨t, ht, hplace⟩ := testBit_bitsMask hlast
  obtain ⟨t', ht', hplace'⟩ := testBit_bitsMask hfirst
  unfold place at hplace hplace'
  omega

/-- Nothing that straddles is executed. -/
theorem executed_not_straddles {c : Bytes} (h : Happens input (.executed c)) :
    ¬ Straddles (value input ^^^ value c) := by
  generalize he : Event.executed c = e at h
  cases h with
  | start =>
    obtain rfl := Event.executed.inj he
    rw [Nat.xor_self]
    intro ⟨q, hq⟩
    have hpos := Nat.two_pow_pos q
    omega
  | bits n b hn hb =>
    obtain rfl := Event.executed.inj he
    rw [(value_flipBits hb).2, ← Nat.xor_assoc, Nat.xor_self, Nat.zero_xor]
    exact not_straddles_bitsMask (by omega)
  | bytes w i hw hi =>
    obtain rfl := Event.executed.inj he
    rw [value_flip hi (Nat.sub_lt (Nat.pow_pos (by decide)) (by decide)), ← Nat.xor_assoc,
      Nat.xor_self, Nat.zero_xor, straddles_shift]
    refine not_straddles_of_odd ?_
    rcases hw with rfl | rfl | rfl
    · rfl
    · rfl
    · rfl
  | attempt st hst i hi a ha =>
    have hsound := attempt_sound hst ha
    rw [Attempt.event] at he
    split_ifs at he with hred
    obtain rfl := Event.executed.inj he
    rw [value_write hi (by rw [pow256]; exact hsound.1), ← Nat.xor_assoc, Nat.xor_self,
      Nat.zero_xor, straddles_shift]
    intro hstraddles
    apply hred
    exact hsound.2 (hstraddles.couldBeBitflip (hsound.xor_lt hst hi))

/-- A candidate that is skipped is the input, or it is executed in the same pass, exactly when no
candidate differs from the input in bits that straddle; what the dictionary stages execute `later`
may make up for one. -/
theorem dedup_loses_nothing (input : Bytes) (later : Bytes → Prop) :
    (∀ c, Event.skipped c ∈ (detStages input).events →
      c = input ∨ Event.executed c ∈ (detStages input).events ∨ later c) ↔
    ∀ st ∈ stages, ∀ i, i + st.width ≤ input.length →
      ∀ a ∈ (st.groups (window st.width input i)).flatten,
        Straddles (window st.width input i ^^^ a.value) →
          later (write st.width input i a.value) := by
  simp only [mem_events]
  constructor
  · intro hkept st hst i hi a ha hstraddles
    have hsound := attempt_sound hst ha
    have hred := hsound.2 (hstraddles.couldBeBitflip (hsound.xor_lt hst hi))
    have hvalue := value_write hi (by rw [pow256]; exact hsound.1)
    have hmask : Straddles (value input ^^^ value (write st.width input i a.value)) := by
      rw [hvalue, ← Nat.xor_assoc, Nat.xor_self, Nat.zero_xor, straddles_shift]
      exact hstraddles
    have hskipped := Happens.attempt st hst i hi a ha
    rw [Attempt.event, if_pos hred] at hskipped
    rcases hkept _ hskipped with hinput | hexecuted | hlater
    · rw [hinput] at hmask
      exact absurd hmask (executed_not_straddles .start)
    · exact absurd hmask (executed_not_straddles hexecuted)
    · exact hlater
  · intro hlost c hskipped
    generalize he : Event.skipped c = e at hskipped
    cases hskipped with
    | start => cases he
    | bits => cases he
    | bytes => cases he
    | attempt st hst i hi a ha =>
      have hsound := attempt_sound hst ha
      rw [Attempt.event] at he
      split_ifs at he with hred
      obtain rfl := Event.skipped.inj he
      rcases attempt_done hst hi ha with ⟨c, hexecuted, hlen, hvalue⟩ | hstraddles
      · rw [← value_write hi (by rw [pow256]; exact hsound.1)] at hvalue
        have hc : c = write st.width input i a.value :=
          value_inj (hlen.trans (length_write hi _).symm) hvalue
        exact Or.inr (Or.inl (hc ▸ hexecuted))
      · rw [straddles_shift] at hstraddles
        exact Or.inr (Or.inr (hlost st hst i hi a ha hstraddles))

/-- 224 + 32 in two bytes differs from 224 in the bits 5 to 8: it is skipped, and never executed. -/
theorem nibble_over_the_edge_lost :
    Event.skipped [0x00, 0x01] ∈ (detStages [0xE0, 0x00]).events ∧
      ([0x00, 0x01] : Bytes) ≠ [0xE0, 0x00] ∧
      Event.executed [0x00, 0x01] ∉ (detStages [0xE0, 0x00]).events := by
  rw [mem_events, mem_events]
  refine ⟨?_, by decide, fun h => executed_not_straddles h ⟨5, Or.inr ⟨rfl, by decide⟩⟩⟩
  have hmem : (⟨true, 0x100⟩ : Attempt) ∈
      (arith16.groups (window 2 [0xE0, 0x00] 0)).flatten := by
    show (⟨true, 0x100⟩ : Attempt) ∈ (arith16.groups 0xE0).flatten
    dsimp only [arith16]
    refine mem_arith.mpr ⟨32, by decide, by decide, ?_⟩
    exact List.mem_append_left _ (List.mem_append_left _ (List.mem_append_left _
      (mem_arithAttempt (by decide) 0xE0 0x100)))
  exact Happens.attempt arith16 arith16_mem 0 (by decide) _ hmem

end AflNv.DetDedup
