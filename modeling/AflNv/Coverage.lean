import Mathlib.Data.List.GetD
import Mathlib.Tactic.IntervalCases

/-!
# New bits in the coverage map

`has_new_bits` and `has_new_bits_unclassified` of `src/afl-fuzz-bitmap.c`, and the
64-bit routines of `include/coverage-64.h`: `classify_word`, `classify_counts`,
`discover_word` and the three variants of `skim`.

The maps are arrays of words, as the routines read them; `byteAt` reads a byte of a
word.  A pointer that moves on is the rest of the list, and behind the end there are
zeroes.

* `skim_eq_one_iff`: every variant of `skim` finds exactly the words that have a new
  bit once they are classified.
* `hasNewBitsUnclassified_eq`: the fast path does what `classify_counts` and
  `has_new_bits` do.
-/

namespace AflNv

namespace Coverage

/-! ## Counts and their classes -/

/-- `count_class_lookup8`. -/
def countClassLookup8 (b : UInt8) : UInt8 :=
  if b = 0 then 0
  else if b = 1 then 1
  else if b = 2 then 2
  else if b = 3 then 4
  else if b ≤ 7 then 8
  else if b ≤ 15 then 16
  else if b ≤ 31 then 32
  else if b ≤ 127 then 64
  else 128

/-- `count_class_lookup16`, as `init_count_class16` fills it. -/
def countClassLookup16 (w : UInt16) : UInt16 :=
  (countClassLookup8 (w >>> 8).toUInt8).toUInt16 <<< 8 ||| (countClassLookup8 w.toUInt8).toUInt16

/-- `classify_word`. -/
def classifyWord (word : UInt64) : UInt64 :=
  let mem16 (k : UInt64) : UInt64 := (countClassLookup16 (word >>> (16 * k)).toUInt16).toUInt64
  mem16 0 ||| mem16 1 <<< 16 ||| mem16 2 <<< 32 ||| mem16 3 <<< 48

/-- A byte of a word. -/
def byteAt (word : UInt64) (k : ℕ) : UInt8 := (word >>> (8 * UInt64.ofNat k)).toUInt8

/-! ## The slow path -/

/-- The fields of `afl_state_t` that the routines use. -/
structure CoverageMaps where
  mapSize : ℕ
  realMapSize : ℕ
  traceBits : List UInt64
  /-- The map that `virgin_map` points to. -/
  virginMap : List UInt64
  /-- `virgin_map == afl->virgin_bits`. -/
  isVirginBits : Bool
  bitmapChanged : Bool
  deriving DecidableEq

/-- The loop of `classify_counts` over `n` words. -/
def classifyLoop : ℕ → List UInt64 → List UInt64
  | n + 1, w :: ws => (if w ≠ 0 then classifyWord w else w) :: classifyLoop n ws
  | _, ws => ws

/-- `classify_counts`. -/
def classifyCounts (m : CoverageMaps) : CoverageMaps :=
  { m with traceBits := classifyLoop (m.mapSize / 8) m.traceBits }

/-- Some byte is hit and was never hit before. -/
def pristineHit (current virgin : UInt64) : Bool :=
  (List.range 8).any fun k => byteAt current k ≠ 0 && byteAt virgin k = 255

/-- `discover_word`: the new `ret` and the new word of the virgin map. -/
def discoverWord (ret : UInt8) (current virgin : UInt64) : UInt8 × UInt64 :=
  if current &&& virgin ≠ 0 then
    (if ret < 2 then (if pristineHit current virgin then 2 else 1) else ret,
      virgin &&& ~~~current)
  else (ret, virgin)

/-- The loop of `has_new_bits` over `n` words. -/
def newBitsLoop : ℕ → UInt8 → List UInt64 → List UInt64 → UInt8 × List UInt64
  | n + 1, ret, c :: cs, v :: vs =>
    let d := if c ≠ 0 then discoverWord ret c v else (ret, v)
    let r := newBitsLoop n d.1 cs vs
    (r.1, d.2 :: r.2)
  | _, ret, _, vs => (ret, vs)

/-- `has_new_bits`. -/
def hasNewBits (m : CoverageMaps) : UInt8 × CoverageMaps :=
  let r := newBitsLoop ((m.realMapSize + 7) / 8) 0 m.traceBits m.virginMap
  (r.1, { m with
    virginMap := r.2
    bitmapChanged := m.bitmapChanged || r.1 ≠ 0 && m.isVirginBits })

/-! ## The fast path -/

/-- The loop of a `skim`: `n` blocks of `size` words. -/
def skimLoop (size : ℕ) (block : List UInt64 → List UInt64 → Bool) :
    ℕ → List UInt64 → List UInt64 → UInt32
  | 0, _, _ => 0
  | n + 1, virgin, current =>
    if block virgin current then 1
    else skimLoop size block n (virgin.drop size) (current.drop size)

/-- `classify_word(current[x]) & virgin[x]`. -/
def newsAt (virgin current : List UInt64) (x : ℕ) : Bool :=
  classifyWord (current.getD x 0) &&& virgin.getD x 0 ≠ 0

/-- `_mm512_testn_epi64_mask(value, value)`: the bit of each lane that is zero. -/
def testnMask (z : ℕ → Bool) : UInt8 :=
  (List.range 8).foldl (fun mask x => if z x then mask ||| 1 <<< UInt8.ofNat x else mask) 0

/-- One block of 8 words. -/
def blockAvx512 (virgin current : List UInt64) : Bool :=
  let mask := testnMask fun x => current.getD x 0 = 0
  if mask = 0xff then false
  else (List.range 8).any fun x =>
    mask &&& 1 <<< UInt8.ofNat x = 0 && newsAt virgin current x

/-- `_mm256_movemask_epi8` of a comparison with zero: 8 bits for each lane. -/
def movemask (z : ℕ → Bool) : UInt32 :=
  (List.range 4).foldl
    (fun mask x => if z x then mask ||| 0xff <<< (8 * UInt32.ofNat x) else mask) 0

/-- One block of 4 words. -/
def blockAvx2 (virgin current : List UInt64) : Bool :=
  let mask := movemask fun x => current.getD x 0 = 0
  if mask = 0xffffffff then false
  else (List.range 4).any fun x =>
    mask &&& 0xff <<< (8 * UInt32.ofNat x) = 0 && newsAt virgin current x

/-- Four words one by one. -/
def blockScalar (virgin current : List UInt64) : Bool :=
  (List.range 4).any fun x => current.getD x 0 ≠ 0 && newsAt virgin current x

/-- The variant of `skim` that the compiler flags select. -/
inductive Simd where
  | avx512 | avx2 | scalar
  deriving DecidableEq

/-- `skim`; `words` is the distance of `current` and `current_end`. -/
def skim (simd : Simd) (virgin current : List UInt64) (words : ℕ) : UInt32 :=
  match simd with
  | .avx512 => skimLoop 8 blockAvx512 (words / 8) virgin current
  | .avx2 => skimLoop 4 blockAvx2 ((words + 3) / 4) virgin current
  | .scalar => skimLoop 4 blockScalar ((words + 3) / 4) virgin current

/-- `has_new_bits_unclassified`, with `*classified`. -/
def hasNewBitsUnclassified (simd : Simd) (classified : Bool) (m : CoverageMaps) :
    (UInt8 × Bool) × CoverageMaps :=
  if skim simd m.virginMap m.traceBits (m.mapSize / 8) = 0 then ((0, classified), m)
  else
    let r := hasNewBits (classifyCounts m)
    ((r.1, true), r.2)

/-! ## What a block finds -/

section Masks

variable {z : ℕ → Bool}

/-- The bit of a lane, and the mask of a block of zeroes. -/
theorem testnMask_spec :
    (∀ x < 8, (testnMask z &&& 1 <<< UInt8.ofNat x = 0) ↔ z x = false) ∧
      (testnMask z = 0xff → ∀ x < 8, z x = true) := by
  have hbits : ∀ z0 z1 z2 z3 z4 z5 z6 z7 : Bool,
      let f : ℕ → Bool := fun x => [z0, z1, z2, z3, z4, z5, z6, z7].getD x false
      (∀ x < 8, (testnMask f &&& 1 <<< UInt8.ofNat x = 0) ↔ f x = false) ∧
        (testnMask f = 0xff → ∀ x < 8, f x = true) := by
    decide +kernel
  obtain ⟨hbit, hall⟩ := hbits (z 0) (z 1) (z 2) (z 3) (z 4) (z 5) (z 6) (z 7)
  have hlane : ∀ x < 8,
      [z 0, z 1, z 2, z 3, z 4, z 5, z 6, z 7].getD x false = z x := by
    intro x hx
    interval_cases x <;> rfl
  refine ⟨fun x hx => ?_, fun hmask x hx => ?_⟩
  · rw [← hlane x hx]
    exact hbit x hx
  · rw [← hlane x hx]
    exact hall hmask x hx

/-- The same for the groups of 8 bits. -/
theorem movemask_spec :
    (∀ x < 4, (movemask z &&& 0xff <<< (8 * UInt32.ofNat x) = 0) ↔ z x = false) ∧
      (movemask z = 0xffffffff → ∀ x < 4, z x = true) := by
  have hbits : ∀ z0 z1 z2 z3 : Bool,
      let f : ℕ → Bool := fun x => [z0, z1, z2, z3].getD x false
      (∀ x < 4, (movemask f &&& 0xff <<< (8 * UInt32.ofNat x) = 0) ↔ f x = false) ∧
        (movemask f = 0xffffffff → ∀ x < 4, f x = true) := by
    decide
  obtain ⟨hbit, hall⟩ := hbits (z 0) (z 1) (z 2) (z 3)
  have hlane : ∀ x < 4, [z 0, z 1, z 2, z 3].getD x false = z x := by
    intro x hx
    interval_cases x <;> rfl
  refine ⟨fun x hx => ?_, fun hmask x hx => ?_⟩
  · rw [← hlane x hx]
    exact hbit x hx
  · rw [← hlane x hx]
    exact hall hmask x hx

end Masks

section Blocks

variable {virgin current : List UInt64} {x : ℕ}

/-- A word without hits has no news. -/
theorem newsAt_of_zero (h : current.getD x 0 = 0) : newsAt virgin current x = false := by
  rw [newsAt, h, show classifyWord 0 = 0 from by decide, UInt64.zero_and]
  rfl

/-- A block is searched right when it finds the news in its words. -/
def Finds (size : ℕ) (block : List UInt64 → List UInt64 → Bool) : Prop :=
  ∀ virgin current, block virgin current = true ↔ ∃ x < size, newsAt virgin current x = true

/-- A block that asks a mask which of its words are zero. -/
theorem finds_of_mask {size : ℕ} (lane : (ℕ → Bool) → ℕ → Bool) (full : (ℕ → Bool) → Bool)
    (hlane : ∀ z, ∀ x < size, lane z x = true ↔ z x = false)
    (hfull : ∀ z, full z = true → ∀ x < size, z x = true) :
    Finds size fun virgin current =>
      let z := fun x => decide (current.getD x 0 = 0)
      if full z then false
      else (List.range size).any fun x => lane z x && newsAt virgin current x := by
  intro virgin current
  show (if full fun x => decide (current.getD x 0 = 0) then false else _) = true ↔ _
  split_ifs with hmask
  · refine iff_of_false not_false ?_
    rintro ⟨x, hx, hnews⟩
    rw [newsAt_of_zero (of_decide_eq_true (hfull _ hmask x hx))] at hnews
    exact Bool.noConfusion hnews
  · simp only [List.any_eq_true, List.mem_range, Bool.and_eq_true]
    refine exists_congr fun x => and_congr_right fun hx => ?_
    rw [hlane _ x hx, decide_eq_false_iff_not]
    refine and_iff_right_of_imp fun hnews hzero => ?_
    rw [newsAt_of_zero hzero] at hnews
    exact Bool.noConfusion hnews

theorem finds_avx512 : Finds 8 blockAvx512 := by
  have h := finds_of_mask (fun z x => decide (testnMask z &&& 1 <<< UInt8.ofNat x = 0))
    (fun z => decide (testnMask z = 0xff))
    (fun z x hx => decide_eq_true_iff.trans (testnMask_spec.1 x hx))
    (fun z hz => testnMask_spec.2 (of_decide_eq_true hz))
  intro virgin current
  rw [blockAvx512]
  simpa only [decide_eq_true_eq] using h virgin current

theorem finds_avx2 : Finds 4 blockAvx2 := by
  have h := finds_of_mask
    (fun z x => decide (movemask z &&& 0xff <<< (8 * UInt32.ofNat x) = 0))
    (fun z => decide (movemask z = 0xffffffff))
    (fun z x hx => decide_eq_true_iff.trans (movemask_spec.1 x hx))
    (fun z hz => movemask_spec.2 (of_decide_eq_true hz))
  intro virgin current
  rw [blockAvx2]
  simpa only [decide_eq_true_eq] using h virgin current

theorem finds_scalar : Finds 4 blockScalar := by
  intro virgin current
  rw [blockScalar]
  simp only [List.any_eq_true, List.mem_range, Bool.and_eq_true, decide_eq_true_eq]
  refine exists_congr fun x => and_congr_right fun _ => ?_
  refine and_iff_right_of_imp fun hnews hzero => ?_
  rw [newsAt_of_zero hzero] at hnews
  exact Bool.noConfusion hnews

theorem getD_drop (l : List UInt64) (n x : ℕ) : (l.drop n).getD x 0 = l.getD (n + x) 0 := by
  rw [List.getD_eq_getElem?_getD, List.getElem?_drop, ← List.getD_eq_getElem?_getD]

theorem skimLoop_eq_zero_or_one (size : ℕ) (block : List UInt64 → List UInt64 → Bool) :
    ∀ n virgin current, skimLoop size block n virgin current = 0 ∨
      skimLoop size block n virgin current = 1
  | 0, _, _ => Or.inl rfl
  | n + 1, virgin, current => by
    rw [skimLoop]
    split_ifs
    · exact Or.inr rfl
    · exact skimLoop_eq_zero_or_one size block n _ _

theorem skimLoop_eq_one_iff {size : ℕ} {block : List UInt64 → List UInt64 → Bool}
    (h : Finds size block) : ∀ n virgin current,
      skimLoop size block n virgin current = 1 ↔
        ∃ x < n * size, newsAt virgin current x = true
  | 0, virgin, current => by
    refine iff_of_false (show ¬ (0 : UInt32) = 1 by decide) ?_
    rintro ⟨x, hx, _⟩
    omega
  | n + 1, virgin, current => by
    have ih := skimLoop_eq_one_iff h n (virgin.drop size) (current.drop size)
    have hnews : ∀ x, newsAt (virgin.drop size) (current.drop size) x =
        newsAt virgin current (size + x) := by
      intro x
      rw [newsAt, newsAt, getD_drop, getD_drop]
    rw [skimLoop]
    split_ifs with hblock
    · obtain ⟨x, hx, hx'⟩ := (h virgin current).mp hblock
      refine iff_of_true rfl ⟨x, ?_, hx'⟩
      rw [Nat.succ_mul]
      omega
    · rw [ih]
      constructor
      · rintro ⟨x, hx, hx'⟩
        refine ⟨size + x, ?_, by rw [← hnews]; exact hx'⟩
        rw [Nat.succ_mul]
        omega
      · rintro ⟨x, hx, hx'⟩
        have hge : size ≤ x := by
          by_contra hlt
          exact hblock ((h virgin current).mpr ⟨x, by omega, hx'⟩)
        refine ⟨x - size, ?_, ?_⟩
        · rw [Nat.succ_mul] at hx
          omega
        · rw [hnews, Nat.add_sub_cancel' hge]
          exact hx'

/-- Every variant finds the words with news, if it is given whole blocks. -/
theorem skim_eq_one_iff (simd : Simd) (virgin current : List UInt64) {words : ℕ}
    (hwords : words % 8 = 0) :
    skim simd virgin current words = 1 ↔ ∃ x < words, newsAt virgin current x = true := by
  cases simd with
  | avx512 =>
    rw [skim, skimLoop_eq_one_iff finds_avx512, Nat.div_mul_cancel (Nat.dvd_of_mod_eq_zero hwords)]
  | avx2 =>
    rw [skim, skimLoop_eq_one_iff finds_avx2, show (words + 3) / 4 * 4 = words by omega]
  | scalar =>
    rw [skim, skimLoop_eq_one_iff finds_scalar, show (words + 3) / 4 * 4 = words by omega]

theorem skim_eq_zero_iff (simd : Simd) (virgin current : List UInt64) {words : ℕ}
    (hwords : words % 8 = 0) :
    skim simd virgin current words = 0 ↔ ∀ x < words, newsAt virgin current x = false := by
  have hone := skim_eq_one_iff simd virgin current hwords
  have hcases : skim simd virgin current words = 0 ∨ skim simd virgin current words = 1 := by
    cases simd <;> exact skimLoop_eq_zero_or_one ..
  constructor
  · intro hzero x hx
    by_contra hnews
    have h := hone.mpr ⟨x, hx, Bool.not_eq_false _ ▸ hnews⟩
    rw [hzero] at h
    exact absurd h (by decide)
  · intro hall
    rcases hcases with h | h
    · exact h
    · obtain ⟨x, hx, hnews⟩ := hone.mp h
      rw [hall x hx] at hnews
      exact Bool.noConfusion hnews

end Blocks

/-! ## What the slow path finds -/

section Slow

theorem classifyLoop_getD : ∀ (n : ℕ) (ws : List UInt64) (x : ℕ), x < n →
    (classifyLoop n ws).getD x 0 = classifyWord (ws.getD x 0)
  | 0, _, x, hx => absurd hx (Nat.not_lt_zero x)
  | n + 1, [], x, _ => by
    show (0 : UInt64) = classifyWord 0
    decide
  | n + 1, w :: ws, 0, _ => by
    show (if w ≠ 0 then classifyWord w else w) = classifyWord w
    split_ifs with hw
    · rfl
    · rw [not_not.mp hw]
      decide
  | n + 1, w :: ws, x + 1, hx => by
    show (classifyLoop n ws).getD x 0 = classifyWord (ws.getD x 0)
    exact classifyLoop_getD n ws x (Nat.lt_of_succ_lt_succ hx)

/-- A word changes the result and the map exactly when it has a new bit. -/
theorem discoverWord_of_news {ret : UInt8} {c v : UInt64} (h : c &&& v ≠ 0) (hret : ret < 3) :
    (discoverWord ret c v).1 ≠ 0 ∧ (discoverWord ret c v).1 < 3 := by
  rw [discoverWord, if_pos h]
  split_ifs with h2 hp
  · exact ⟨show (2 : UInt8) ≠ 0 by decide, show (2 : UInt8) < 3 by decide⟩
  · exact ⟨show (1 : UInt8) ≠ 0 by decide, show (1 : UInt8) < 3 by decide⟩
  · refine ⟨fun hzero => h2 ?_, hret⟩
    have hz : ret = 0 := hzero
    rw [hz]
    decide

theorem newBitsLoop_ret_ne_zero : ∀ (n : ℕ) (ret : UInt8) (cs vs : List UInt64), ret ≠ 0 →
    ret < 3 → (newBitsLoop n ret cs vs).1 ≠ 0
  | 0, _, _, _, h, _ => h
  | n + 1, ret, [], vs, h, _ => h
  | n + 1, ret, c :: cs, [], h, _ => h
  | n + 1, ret, c :: cs, v :: vs, h, hlt => by
    show (newBitsLoop n (if c ≠ 0 then discoverWord ret c v else (ret, v)).1 cs vs).1 ≠ 0
    by_cases hc : c ≠ 0
    · rw [if_pos hc]
      by_cases hnews : c &&& v ≠ 0
      · obtain ⟨hne, hlt'⟩ := discoverWord_of_news hnews hlt
        exact newBitsLoop_ret_ne_zero n _ cs vs hne hlt'
      · rw [discoverWord, if_neg hnews]
        exact newBitsLoop_ret_ne_zero n ret cs vs h hlt
    · rw [if_neg hc]
      exact newBitsLoop_ret_ne_zero n ret cs vs h hlt

/-- The loop answers 0 exactly when no word has a new bit, and then it keeps the map. -/
theorem newBitsLoop_eq_zero : ∀ (n : ℕ) (cs vs : List UInt64),
    ((newBitsLoop n 0 cs vs).1 = 0 ↔ ∀ x < n, cs.getD x 0 &&& vs.getD x 0 = 0) ∧
      ((newBitsLoop n 0 cs vs).1 = 0 → (newBitsLoop n 0 cs vs).2 = vs)
  | 0, cs, vs => ⟨iff_of_true rfl fun x hx => absurd hx (Nat.not_lt_zero x), fun _ => rfl⟩
  | n + 1, [], vs => ⟨iff_of_true rfl fun x _ => UInt64.zero_and, fun _ => rfl⟩
  | n + 1, c :: cs, [] => ⟨iff_of_true rfl fun x _ => UInt64.and_zero, fun _ => rfl⟩
  | n + 1, c :: cs, v :: vs => by
    obtain ⟨hiff, hsame⟩ := newBitsLoop_eq_zero n cs vs
    have hforall : (∀ x < n + 1, (c :: cs).getD x 0 &&& (v :: vs).getD x 0 = 0) ↔
        c &&& v = 0 ∧ ∀ x < n, cs.getD x 0 &&& vs.getD x 0 = 0 := by
      refine ⟨fun h => ⟨h 0 (Nat.succ_pos n), fun x hx => h (x + 1) (Nat.succ_lt_succ hx)⟩,
        fun h x hx => ?_⟩
      cases x with
      | zero => exact h.1
      | succ x => exact h.2 x (Nat.lt_of_succ_lt_succ hx)
    rw [hforall]
    show ((newBitsLoop n (if c ≠ 0 then discoverWord 0 c v else (0, v)).1 cs vs).1 = 0 ↔ _) ∧
      ((newBitsLoop n (if c ≠ 0 then discoverWord 0 c v else (0, v)).1 cs vs).1 = 0 →
        (if c ≠ 0 then discoverWord 0 c v else (0, v)).2 ::
          (newBitsLoop n (if c ≠ 0 then discoverWord 0 c v else (0, v)).1 cs vs).2 = v :: vs)
    by_cases hnews : c &&& v ≠ 0
    · have hc : c ≠ 0 := by
        rintro rfl
        exact hnews UInt64.zero_and
      obtain ⟨hne, hlt⟩ := discoverWord_of_news hnews (show (0 : UInt8) < 3 by decide)
      have hret := newBitsLoop_ret_ne_zero n _ cs vs hne hlt
      rw [if_pos hc]
      exact ⟨iff_of_false hret fun h => hnews h.1, fun h => absurd h hret⟩
    · have hword : (if c ≠ 0 then discoverWord 0 c v else (0, v)) = (0, v) := by
        rw [discoverWord, if_neg hnews]
        split_ifs <;> rfl
      rw [hword, hiff, and_iff_right (not_not.mp hnews)]
      exact ⟨Iff.rfl, fun h => by rw [hsame (hiff.mpr h)]⟩

end Slow

/-! ## The fast path is the slow path -/

/-- The fast path has the result and the virgin map of `classify_counts` followed by
`has_new_bits`; it keeps the trace when the result is 0, and classifies it otherwise. -/
theorem hasNewBitsUnclassified_eq (simd : Simd) (classified : Bool) (m : CoverageMaps)
    (hmod : m.mapSize % 64 = 0) (hreal : m.realMapSize = m.mapSize) :
    let slow := hasNewBits (classifyCounts m)
    let fast := hasNewBitsUnclassified simd classified m
    (fast.1.1 = slow.1 ∧ fast.2.virginMap = slow.2.virginMap ∧
        fast.2.bitmapChanged = slow.2.bitmapChanged) ∧
      (fast.1.1 = 0 → fast.2.traceBits = m.traceBits ∧ fast.1.2 = classified) ∧
      (fast.1.1 ≠ 0 → fast.2.traceBits = (classifyCounts m).traceBits ∧ fast.1.2 = true) := by
  intro slow fast
  have hwords : (m.realMapSize + 7) / 8 = m.mapSize / 8 := by omega
  obtain ⟨hzero, hsame⟩ := newBitsLoop_eq_zero (m.mapSize / 8)
    (classifyLoop (m.mapSize / 8) m.traceBits) m.virginMap
  have hret : slow.1 = (newBitsLoop (m.mapSize / 8) 0
      (classifyLoop (m.mapSize / 8) m.traceBits) m.virginMap).1 := by
    show (newBitsLoop ((m.realMapSize + 7) / 8) 0 _ m.virginMap).1 = _
    rw [hwords]
    rfl
  have hvirgin : slow.2.virginMap = (newBitsLoop (m.mapSize / 8) 0
      (classifyLoop (m.mapSize / 8) m.traceBits) m.virginMap).2 := by
    show (newBitsLoop ((m.realMapSize + 7) / 8) 0 _ m.virginMap).2 = _
    rw [hwords]
    rfl
  have hchanged : slow.2.bitmapChanged =
      (m.bitmapChanged || decide (slow.1 ≠ 0) && m.isVirginBits) := rfl
  -- both paths look for the same words
  have hnews : skim simd m.virginMap m.traceBits (m.mapSize / 8) = 0 ↔ slow.1 = 0 := by
    rw [skim_eq_zero_iff simd _ _ (by omega), hret, hzero]
    refine forall_congr' fun x => forall_congr' fun hx => ?_
    rw [classifyLoop_getD _ _ _ hx, newsAt]
    simp
  have hfast : fast = if slow.1 = 0 then ((0, classified), m) else ((slow.1, true), slow.2) := by
    show (if skim simd m.virginMap m.traceBits (m.mapSize / 8) = 0 then _ else _) = _
    by_cases h : slow.1 = 0
    · rw [if_pos (hnews.mpr h), if_pos h]
    · rw [if_neg fun hskim => h (hnews.mp hskim), if_neg h]
  by_cases h : slow.1 = 0
  · rw [if_pos h] at hfast
    rw [hfast]
    refine ⟨⟨h.symm, ?_, ?_⟩, fun _ => ⟨rfl, rfl⟩, fun hne => absurd rfl hne⟩
    · rw [hvirgin]
      exact (hsame (hret.symm.trans h)).symm
    · rw [hchanged, h]
      simp
  · rw [if_neg h] at hfast
    rw [hfast]
    exact ⟨⟨rfl, rfl, rfl⟩, fun hne => absurd hne h, fun _ => ⟨rfl, rfl⟩⟩

/-- Eight words, one byte of which was hit five times. -/
def oneHit : CoverageMaps where
  mapSize := 64
  realMapSize := 64
  traceBits := [0, 0, 0, 0, 0, 0x500, 0, 0]
  virginMap := List.replicate 8 0xffffffffffffffff
  isVirginBits := true
  bitmapChanged := false

/-- Both paths see a byte that was never hit before. -/
theorem hasNewBitsUnclassified_oneHit :
    (hasNewBitsUnclassified .avx512 false oneHit).1.1 = (hasNewBits (classifyCounts oneHit)).1 ∧
      (hasNewBits (classifyCounts oneHit)).1 = 2 :=
  ⟨(hasNewBitsUnclassified_eq .avx512 false oneHit rfl rfl).1.1, by decide⟩

end Coverage

end AflNv
