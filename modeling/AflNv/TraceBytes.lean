import AflNv.Coverage

/-!
# The bytes of a trace

The routines of `src/afl-fuzz-bitmap.c` and `include/coverage-64.h` work on words of eight
counts.  Here are the words as sequences of bytes: `word_ext`, the bitwise operations byte
by byte, and `byteAt_classifyWord`, which reads `classify_word` as `count_class_lookup8`
on every byte.
-/

namespace AflNv

namespace Coverage

/-! ## The bytes of a word -/

theorem byteAt_bit (word : UInt64) (k : ℕ) {j : ℕ} (hj : j < 8) :
    (byteAt word k).toBitVec.getLsbD j = word.toBitVec.getLsbD (8 * (k % 8) + j) := by
  have hmod : 8 * k % 64 = 8 * (k % 8) := Nat.mul_mod_mul_left 8 k 8
  simp [byteAt, hj, BitVec.getLsbD_ushiftRight, hmod]

theorem byte_ext {a b : UInt8} (h : ∀ j < 8, a.toBitVec.getLsbD j = b.toBitVec.getLsbD j) :
    a = b := by
  apply UInt8.toBitVec_inj.mp
  exact BitVec.eq_of_getLsbD_eq h

theorem byteAt_and (a b : UInt64) (k : ℕ) : byteAt (a &&& b) k = byteAt a k &&& byteAt b k := by
  apply byte_ext
  intro j hj
  rw [byteAt_bit _ _ hj, UInt64.toBitVec_and, BitVec.getLsbD_and, UInt8.toBitVec_and,
    BitVec.getLsbD_and, byteAt_bit _ _ hj, byteAt_bit _ _ hj]

theorem byteAt_or (a b : UInt64) (k : ℕ) : byteAt (a ||| b) k = byteAt a k ||| byteAt b k := by
  apply byte_ext
  intro j hj
  rw [byteAt_bit _ _ hj, UInt64.toBitVec_or, BitVec.getLsbD_or, UInt8.toBitVec_or,
    BitVec.getLsbD_or, byteAt_bit _ _ hj, byteAt_bit _ _ hj]

theorem byteAt_not (a : UInt64) (k : ℕ) : byteAt (~~~a) k = ~~~byteAt a k := by
  apply byte_ext
  intro j hj
  have hlt : 8 * (k % 8) + j < 64 := by omega
  rw [byteAt_bit _ _ hj, UInt64.toBitVec_not, BitVec.getLsbD_not, UInt8.toBitVec_not,
    BitVec.getLsbD_not, byteAt_bit _ _ hj, decide_eq_true hlt, decide_eq_true hj]

theorem byteAt_zero (k : ℕ) : byteAt 0 k = 0 := by
  apply byte_ext
  intro j hj
  rw [byteAt_bit _ _ hj]
  simp

/-- A word is the sequence of its bytes. -/
theorem word_ext {a b : UInt64} (h : ∀ k < 8, byteAt a k = byteAt b k) : a = b := by
  apply UInt64.toBitVec_inj.mp
  apply BitVec.eq_of_getLsbD_eq
  intro i hi
  have hdiv : 8 * (i / 8 % 8) + i % 8 = i := by omega
  have hbyte := congrArg (fun c : UInt8 => c.toBitVec.getLsbD (i % 8)) (h (i / 8) (by omega))
  rw [← hdiv, ← byteAt_bit a (i / 8) (Nat.mod_lt i (by decide)),
    ← byteAt_bit b (i / 8) (Nat.mod_lt i (by decide))]
  exact hbyte

theorem word_ne_zero_iff {a : UInt64} : a ≠ 0 ↔ ∃ k < 8, byteAt a k ≠ 0 := by
  constructor
  · intro h
    by_contra hnone
    apply h
    apply word_ext
    intro k hk
    rw [byteAt_zero]
    by_contra hbyte
    exact hnone ⟨k, hk, hbyte⟩
  · rintro ⟨k, -, hk⟩ rfl
    exact hk (byteAt_zero k)

theorem and_not_of_and_eq_zero {c v : UInt64} (h : c &&& v = 0) : v &&& ~~~c = v := by
  apply UInt64.toBitVec_inj.mp
  apply BitVec.eq_of_getLsbD_eq
  intro i hi
  have hbit := congrArg (fun w : UInt64 => w.toBitVec.getLsbD i) h
  simp only [UInt64.toBitVec_and, BitVec.getLsbD_and, UInt64.toBitVec_ofNat, BitVec.getLsbD_zero,
    Bool.and_eq_false_iff] at hbit
  simp only [UInt64.toBitVec_and, UInt64.toBitVec_not, BitVec.getLsbD_and, BitVec.getLsbD_not, hi,
    decide_true, Bool.true_and]
  cases hc : c.toBitVec.getLsbD i with
  | false => simp
  | true =>
    have hv : v.toBitVec.getLsbD i = false := hbit.resolve_left (by simp [hc])
    simp [hv]

theorem byte_and_ff (b : UInt8) : b &&& 255 = b := by
  apply byte_ext
  intro j hj
  have hff : (255 : UInt8).toBitVec = BitVec.allOnes 8 := by decide
  rw [UInt8.toBitVec_and, BitVec.getLsbD_and, hff, BitVec.getLsbD_allOnes, decide_eq_true hj,
    Bool.and_true]

/-! ## Classifying byte by byte -/

/-- A byte of a half word that was shifted to its place. -/
theorem byteAt_half (u : UInt16) {s : UInt64} {i k : ℕ} (hs : s.toNat % 64 = 16 * i) (hk : k < 8) :
    byteAt (u.toUInt64 <<< s) k =
      if k = 2 * i then u.toUInt8 else if k = 2 * i + 1 then (u >>> 8).toUInt8 else 0 := by
  apply byte_ext
  intro j hj
  have hmod : k % 8 = k := Nat.mod_eq_of_lt hk
  have hlt : 8 * k + j < 64 := by omega
  have hbit : (u.toUInt64 <<< s).toBitVec.getLsbD (8 * k + j) =
      (!decide (8 * k + j < 16 * i) && u.toBitVec.getLsbD (8 * k + j - 16 * i)) := by
    simp [hs, hlt]
  rw [byteAt_bit _ _ hj, hmod, hbit]
  split_ifs with h0 h1
  · have hlow : 8 * k + j - 16 * i = j := by omega
    have hle : ¬ 8 * k + j < 16 * i := by omega
    simp [hlow, hle, hj]
  · have hhigh : 8 * k + j - 16 * i = 8 + j := by omega
    have hle : ¬ 8 * k + j < 16 * i := by omega
    simp [hhigh, hle, hj]
  · rcases Nat.lt_or_ge (8 * k + j) (16 * i) with hlow | hhigh
    · simp [hlow]
    · have hout : 16 ≤ 8 * k + j - 16 * i := by omega
      simp [BitVec.getLsbD_of_ge _ _ hout]

/-- The two bytes of a half word. -/
theorem half_bytes (w : UInt64) {s : UInt64} {i : ℕ} (hs : s.toNat % 64 = 16 * i) :
    (w >>> s).toUInt16.toUInt8 = byteAt w (2 * i) ∧
      ((w >>> s).toUInt16 >>> 8).toUInt8 = byteAt w (2 * i + 1) := by
  constructor
  · apply byte_ext
    intro j hj
    have hbit : 8 * (2 * i % 8) = 16 * i := by omega
    rw [byteAt_bit _ _ hj]
    simp [hj, hs, hbit]
  · apply byte_ext
    intro j hj
    have hbit : 8 * ((2 * i + 1) % 8) + j = 16 * i + (8 + j) := by omega
    rw [byteAt_bit _ _ hj]
    simp [hj, hs, hbit]
    omega

theorem lookup16_bytes (u : UInt16) :
    (countClassLookup16 u).toUInt8 = countClassLookup8 u.toUInt8 ∧
      (countClassLookup16 u >>> 8).toUInt8 = countClassLookup8 (u >>> 8).toUInt8 := by
  constructor
  · apply byte_ext
    intro j hj
    simp [countClassLookup16, hj]
  · apply byte_ext
    intro j hj
    have hlt : 8 + j < 16 := by omega
    simp [countClassLookup16, hj, hlt]

/-- A byte of a half word that was classified. -/
theorem byteAt_classifiedHalf (w : UInt64) {s : UInt64} {i k : ℕ} (hs : s.toNat % 64 = 16 * i)
    (hk : k < 8) :
    byteAt ((countClassLookup16 (w >>> s).toUInt16).toUInt64 <<< s) k =
      if k / 2 = i then countClassLookup8 (byteAt w k) else 0 := by
  obtain ⟨hlow, hhigh⟩ := lookup16_bytes (w >>> s).toUInt16
  obtain ⟨hbyte, hbyte'⟩ := half_bytes w hs
  rw [byteAt_half _ hs hk, hlow, hhigh, hbyte, hbyte']
  by_cases h0 : k = 2 * i
  · rw [if_pos h0, if_pos (by omega), h0]
  · rw [if_neg h0]
    by_cases h1 : k = 2 * i + 1
    · rw [if_pos h1, if_pos (by omega), h1]
    · rw [if_neg h1, if_neg (by omega)]

/-- `classify_word` looks up every byte. -/
theorem byteAt_classifyWord (w : UInt64) {k : ℕ} (hk : k < 8) :
    byteAt (classifyWord w) k = countClassLookup8 (byteAt w k) := by
  have hshift : ∀ x : UInt64, x <<< 0 = x := by simp
  have hdef : classifyWord w =
      (countClassLookup16 (w >>> 0).toUInt16).toUInt64 <<< 0 |||
        (countClassLookup16 (w >>> 16).toUInt16).toUInt64 <<< 16 |||
        (countClassLookup16 (w >>> 32).toUInt16).toUInt64 <<< 32 |||
        (countClassLookup16 (w >>> 48).toUInt16).toUInt64 <<< 48 := by
    rw [hshift]
    rfl
  rw [hdef, byteAt_or, byteAt_or, byteAt_or,
    byteAt_classifiedHalf w (i := 0) rfl hk,
    byteAt_classifiedHalf w (i := 1) rfl hk,
    byteAt_classifiedHalf w (i := 2) rfl hk,
    byteAt_classifiedHalf w (i := 3) rfl hk]
  have hhalf : k / 2 = 0 ∨ k / 2 = 1 ∨ k / 2 = 2 ∨ k / 2 = 3 := by omega
  rcases hhalf with h | h | h | h <;> simp [h]

end Coverage

end AflNv
