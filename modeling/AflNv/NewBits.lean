import AflNv.TraceBytes

/-!
# What `has_new_bits` reports

`has_new_bits` of `src/afl-fuzz-bitmap.c` goes through the maps word by word, and
`discover_word` stops to look at bytes once the result is 2.  This module says what
comes out byte by byte.

* `newBitsLoop_eq` reads the loop as one question about all words and one new map.
* `exists_byte_iff` turns a question about bytes of words into one about bytes of the
  map.
* `hasNewBits_spec` is the result of one call and of the calls behind it.
-/

namespace AflNv

namespace Coverage

/-! ## New bytes of a word -/

theorem pristineHit_iff {c v : UInt64} :
    pristineHit c v = true ↔ ∃ k < 8, byteAt c k ≠ 0 ∧ byteAt v k = 255 := by
  simp [pristineHit]

/-- A byte that is hit for the first time is news. -/
theorem news_of_pristineHit {c v : UInt64} (h : pristineHit c v = true) : c &&& v ≠ 0 := by
  obtain ⟨k, hk, hc, hv⟩ := pristineHit_iff.mp h
  refine word_ne_zero_iff.mpr ⟨k, hk, ?_⟩
  rw [byteAt_and, hv, byte_and_ff]
  exact hc

/-! ## The loop -/

/-- The result behind some words, from the result in front of them. -/
def verdict (ret : UInt8) (pristine news : Bool) : UInt8 :=
  if ret = 2 || pristine then 2 else if ret = 1 || news then 1 else 0

theorem verdict_verdict (ret : UInt8) (p n p' n' : Bool) :
    verdict (verdict ret p n) p' n' = verdict ret (p || p') (n || n') := by
  by_cases h2 : ret = 2
  · simp [verdict, h2]
  · by_cases h1 : ret = 1
    · cases p <;> cases p' <;> simp [verdict, h1]
    · cases p <;> cases n <;> cases p' <;> cases n' <;> simp [verdict, h1, h2]

theorem verdict_self {ret : UInt8} (h : ret < 3) : verdict ret false false = ret := by
  have hlt : ret.toNat < 3 := UInt8.lt_iff_toNat_lt.mp h
  have hcases : ret = 0 ∨ ret = 1 ∨ ret = 2 := by
    simp only [← UInt8.toNat_inj, UInt8.reduceToNat]
    omega
  rcases hcases with h | h | h <;> subst h <;> decide

theorem verdict_lt (ret : UInt8) (p n : Bool) : verdict ret p n < 3 := by
  rw [verdict]
  split_ifs <;> decide

/-- What `discover_word` makes of a word, with the test in front of it. -/
theorem discover_eq {ret : UInt8} (hret : ret < 3) (c v : UInt64) :
    (if c ≠ 0 then discoverWord ret c v else (ret, v)) =
      (verdict ret (pristineHit c v) (c &&& v ≠ 0), v &&& ~~~c) := by
  by_cases hnews : c &&& v = 0
  · have hp : pristineHit c v = false := by
      by_contra hp
      exact news_of_pristineHit (Bool.not_eq_false _ ▸ hp) hnews
    have hskip : (if c ≠ 0 then discoverWord ret c v else (ret, v)) = (ret, v) := by
      rw [discoverWord, if_neg (not_not.mpr hnews)]
      split_ifs <;> rfl
    rw [hskip, hp, and_not_of_and_eq_zero hnews, decide_eq_false (not_not.mpr hnews),
      verdict_self hret]
  · have hc : c ≠ 0 := by
      rintro rfl
      exact hnews UInt64.zero_and
    rw [if_pos hc, discoverWord, if_pos hnews, decide_eq_true hnews]
    congr 1
    have hlt : ret.toNat < 3 := UInt8.lt_iff_toNat_lt.mp hret
    have h2 : ret < 2 ↔ ret ≠ 2 := by
      simp only [UInt8.lt_iff_toNat_lt, ne_eq, ← UInt8.toNat_inj, UInt8.reduceToNat]
      omega
    by_cases h : ret = 2
    · rw [if_neg (by simp [h]), verdict, if_pos (by simp [h]), h]
    · rw [if_pos (h2.mpr h), verdict]
      simp [h]

/-- The loop answers one question about all words, and takes the trace out of the map. -/
theorem newBitsLoop_eq {ret : UInt8} (hret : ret < 3) {cs vs : List UInt64}
    (hlen : vs.length = cs.length) :
    newBitsLoop cs.length ret cs vs =
      (verdict ret ((cs.zip vs).any fun p => pristineHit p.1 p.2)
          ((cs.zip vs).any fun p => p.1 &&& p.2 ≠ 0),
        List.zipWith (fun c v => v &&& ~~~c) cs vs) := by
  induction cs generalizing ret vs with
  | nil =>
    obtain rfl := List.length_eq_zero_iff.mp hlen
    show (ret, []) = (verdict ret false false, [])
    rw [verdict_self hret]
  | cons c cs ih =>
    cases vs with
    | nil => exact absurd hlen (by simp)
    | cons v vs =>
      have hlen' : vs.length = cs.length := Nat.succ.inj hlen
      rw [List.length_cons, newBitsLoop, discover_eq hret, ih (verdict_lt _ _ _) hlen',
        verdict_verdict]
      rfl

/-! ## The bytes of a map -/

/-- A byte of a map. -/
def byteOf (map : List UInt64) (i : ℕ) : UInt8 := byteAt (map.getD (i / 8) 0) (i % 8)

/-- A question about two bytes, asked of all words or of all bytes. -/
theorem exists_byte_iff {cs vs : List UInt64} (hlen : vs.length = cs.length)
    {w : UInt64 → UInt64 → Bool} {b : UInt8 → UInt8 → Prop}
    (h : ∀ c v, w c v = true ↔ ∃ k < 8, b (byteAt c k) (byteAt v k)) :
    ((cs.zip vs).any fun p => w p.1 p.2) = true ↔
      ∃ i < 8 * cs.length, b (byteOf cs i) (byteOf vs i) := by
  rw [List.any_eq_true]
  constructor
  · rintro ⟨p, hp, hword⟩
    obtain ⟨x, hx, rfl⟩ := List.mem_iff_getElem.mp hp
    obtain ⟨k, hk, hbyte⟩ := (h _ _).mp hword
    rw [List.length_zip, hlen, Nat.min_self] at hx
    refine ⟨8 * x + k, by omega, ?_⟩
    have hdiv : (8 * x + k) / 8 = x := by omega
    have hmod : (8 * x + k) % 8 = k := by omega
    rw [byteOf, byteOf, hdiv, hmod, List.getD_eq_getElem cs 0 hx,
      List.getD_eq_getElem vs 0 (hlen ▸ hx)]
    rwa [List.getElem_zip] at hbyte
  · rintro ⟨i, hi, hbyte⟩
    have hx : i / 8 < cs.length := by omega
    rw [byteOf, byteOf, List.getD_eq_getElem cs 0 hx, List.getD_eq_getElem vs 0 (hlen ▸ hx)] at hbyte
    have hzip : i / 8 < (cs.zip vs).length := by rwa [List.length_zip, hlen, Nat.min_self]
    refine ⟨(cs.zip vs)[i / 8], List.getElem_mem hzip, ?_⟩
    rw [List.getElem_zip]
    exact (h _ _).mpr ⟨i % 8, Nat.mod_lt i (by decide), hbyte⟩

theorem byteOf_zipWith {cs vs : List UInt64} (hlen : vs.length = cs.length) {i : ℕ}
    (hi : i < 8 * cs.length) :
    byteOf (List.zipWith (fun c v => v &&& ~~~c) cs vs) i = byteOf vs i &&& ~~~byteOf cs i := by
  have hx : i / 8 < cs.length := by omega
  have hzip : i / 8 < (List.zipWith (fun c v => v &&& ~~~c) cs vs).length := by
    rwa [List.length_zipWith, hlen, Nat.min_self]
  rw [byteOf, byteOf, byteOf, List.getD_eq_getElem _ 0 hzip, List.getD_eq_getElem cs 0 hx,
    List.getD_eq_getElem vs 0 (hlen ▸ hx), List.getElem_zipWith, byteAt_and, byteAt_not]

/-! ## One call -/

namespace CoverageMaps

/-- The maps have as many bytes as `real_map_size` says. -/
structure Sized (m : CoverageMaps) : Prop where
  trace : m.realMapSize = 8 * m.traceBits.length
  virgin : m.virginMap.length = m.traceBits.length

/-- The byte is hit, and was never hit before. -/
def Pristine (m : CoverageMaps) (i : ℕ) : Prop :=
  i < m.realMapSize ∧ byteOf m.traceBits i ≠ 0 ∧ byteOf m.virginMap i = 0xff

/-- The byte has a bit that was never seen before. -/
def News (m : CoverageMaps) (i : ℕ) : Prop :=
  i < m.realMapSize ∧ byteOf m.traceBits i &&& byteOf m.virginMap i ≠ 0

instance (m : CoverageMaps) (i : ℕ) : Decidable (m.Pristine i) :=
  inferInstanceAs (Decidable (_ ∧ _))

variable {m : CoverageMaps}

theorem hasNewBits_eq (h : m.Sized) :
    hasNewBits m =
      (verdict 0 ((m.traceBits.zip m.virginMap).any fun p => pristineHit p.1 p.2)
          ((m.traceBits.zip m.virginMap).any fun p => p.1 &&& p.2 ≠ 0),
        { m with
          virginMap := List.zipWith (fun c v => v &&& ~~~c) m.traceBits m.virginMap
          bitmapChanged := (hasNewBits m).2.bitmapChanged }) := by
  have hwords : (m.realMapSize + 7) / 8 = m.traceBits.length := by
    rw [h.trace]
    omega
  have hloop := newBitsLoop_eq (show (0 : UInt8) < 3 by decide) h.virgin
  rw [hasNewBits, hwords]
  dsimp only
  rw [hloop]

theorem sized_hasNewBits (h : m.Sized) : (hasNewBits m).2.Sized := by
  rw [hasNewBits_eq h]
  refine ⟨h.trace, ?_⟩
  show (List.zipWith _ m.traceBits m.virginMap).length = m.traceBits.length
  rw [List.length_zipWith, h.virgin, Nat.min_self]

theorem virgin_hasNewBits (h : m.Sized) {i : ℕ} (hi : i < m.realMapSize) :
    byteOf (hasNewBits m).2.virginMap i =
      byteOf m.virginMap i &&& ~~~byteOf m.traceBits i := by
  rw [hasNewBits_eq h]
  exact byteOf_zipWith h.virgin (h.trace ▸ hi)

theorem trace_hasNewBits (m : CoverageMaps) : (hasNewBits m).2.traceBits = m.traceBits := rfl

theorem any_pristine_iff (h : m.Sized) :
    ((m.traceBits.zip m.virginMap).any fun p => pristineHit p.1 p.2) = true ↔
      ∃ i, m.Pristine i := by
  have hbytes := exists_byte_iff (w := pristineHit)
    (b := fun c v => c ≠ 0 ∧ v = 255) h.virgin fun c v => pristineHit_iff
  rw [← h.trace] at hbytes
  exact hbytes

theorem any_news_iff (h : m.Sized) :
    ((m.traceBits.zip m.virginMap).any fun p => decide (p.1 &&& p.2 ≠ 0)) = true ↔
      ∃ i, m.News i := by
  have hword : ∀ c v : UInt64, decide (c &&& v ≠ 0) = true ↔
      ∃ k < 8, byteAt c k &&& byteAt v k ≠ 0 := by
    intro c v
    rw [decide_eq_true_iff, word_ne_zero_iff]
    simp only [byteAt_and]
  have hbytes := exists_byte_iff (b := fun c v => c &&& v ≠ 0) h.virgin hword
  rw [← h.trace] at hbytes
  exact hbytes

theorem news_of_pristine {i : ℕ} (h : m.Pristine i) : m.News i := by
  obtain ⟨hi, hc, hv⟩ := h
  refine ⟨hi, ?_⟩
  rw [hv, byte_and_ff]
  exact hc

/-- The three results of a call. -/
theorem hasNewBits_result (h : m.Sized) :
    ((hasNewBits m).1 = 2 ↔ ∃ i, m.Pristine i) ∧
    ((hasNewBits m).1 = 1 ↔ (¬ ∃ i, m.Pristine i) ∧ ∃ i, m.News i) ∧
    ((hasNewBits m).1 = 0 ↔ ¬ ∃ i, m.News i) := by
  have hpn : (∃ i, m.Pristine i) → ∃ i, m.News i := fun ⟨i, hi⟩ => ⟨i, news_of_pristine hi⟩
  rw [hasNewBits_eq h]
  dsimp only
  rw [← any_pristine_iff h, ← any_news_iff h] at *
  generalize ((m.traceBits.zip m.virginMap).any fun p => pristineHit p.1 p.2) = p at *
  generalize ((m.traceBits.zip m.virginMap).any fun p => decide (p.1 &&& p.2 ≠ 0)) = n at *
  cases p with
  | true =>
    obtain rfl : n = true := hpn rfl
    decide
  | false => cases n <;> decide

/-! ## Call after call -/

/-- How many calls return 2 because of byte `i`, when the target leaves these traces one
after the other. -/
def reports (i : ℕ) : CoverageMaps → List (List UInt64) → ℕ
  | _, [] => 0
  | m, trace :: traces =>
    let m := { m with traceBits := trace }
    let r := hasNewBits m
    (if r.1 = 2 ∧ m.Pristine i then 1 else 0) + reports i r.2 traces

theorem sized_trace (h : m.Sized) {trace : List UInt64}
    (htrace : trace.length = m.traceBits.length) : { m with traceBits := trace }.Sized :=
  ⟨by rw [h.trace, htrace], by rw [h.virgin, htrace]⟩

/-- A byte that is not pristine any more stays so. -/
theorem reports_eq_zero {i : ℕ} {n : ℕ} : ∀ {m : CoverageMaps} {traces : List (List UInt64)},
    m.Sized → m.traceBits.length = n → (∀ trace ∈ traces, trace.length = n) →
    byteOf m.virginMap i ≠ 0xff → reports i m traces = 0
  | _, [], _, _, _, _ => rfl
  | m, trace :: traces, h, hn, hall, hi => by
    obtain ⟨htrace, hall⟩ := List.forall_mem_cons.mp hall
    have hsized := sized_trace h (htrace.trans hn.symm)
    have hnot : ¬ { m with traceBits := trace }.Pristine i := fun hp => hi hp.2.2
    have hstay : byteOf (hasNewBits { m with traceBits := trace }).2.virginMap i ≠ 0xff := by
      by_cases hlt : i < m.realMapSize
      · rw [virgin_hasNewBits hsized hlt]
        intro hff
        apply hi
        have hand : byteOf m.virginMap i &&& 0xff = 0xff := by
          rw [← hff, ← UInt8.and_assoc, UInt8.and_self]
        rwa [byte_and_ff] at hand
      · have hout : (hasNewBits { m with traceBits := trace }).2.virginMap.length ≤ i / 8 := by
          have hlen := (sized_hasNewBits hsized).virgin
          have hreal := h.trace
          rw [hlen, trace_hasNewBits]
          show trace.length ≤ i / 8
          omega
        rw [byteOf, List.getD_eq_default _ _ hout, byteAt_zero]
        decide
    rw [reports, if_neg fun h => hnot h.2,
      reports_eq_zero (sized_hasNewBits hsized) (by rw [trace_hasNewBits]; exact htrace) hall hstay]

/-- A byte is reported at most once. -/
theorem reports_le_one {i : ℕ} {n : ℕ} : ∀ {m : CoverageMaps} {traces : List (List UInt64)},
    m.Sized → m.traceBits.length = n → (∀ trace ∈ traces, trace.length = n) →
    reports i m traces ≤ 1
  | _, [], _, _, _ => Nat.zero_le 1
  | m, trace :: traces, h, hn, hall => by
    obtain ⟨htrace, hall⟩ := List.forall_mem_cons.mp hall
    have hsized := sized_trace h (htrace.trans hn.symm)
    have hnext := sized_hasNewBits hsized
    have hlen : (hasNewBits { m with traceBits := trace }).2.traceBits.length = n := by
      rw [trace_hasNewBits]
      exact htrace
    rw [reports]
    by_cases hp : { m with traceBits := trace }.Pristine i
    · have hgone : byteOf (hasNewBits { m with traceBits := trace }).2.virginMap i ≠ 0xff := by
        rw [virgin_hasNewBits hsized hp.1, hp.2.2]
        intro hff
        apply hp.2.1
        have hnot : ~~~byteOf trace i = 0xff := by
          rw [UInt8.and_comm, byte_and_ff] at hff
          exact hff
        have hzero := congrArg (fun b => ~~~b) hnot
        rwa [UInt8.not_not] at hzero
      rw [reports_eq_zero hnext hlen hall hgone]
      split_ifs <;> decide
    · rw [if_neg fun h => hp h.2, Nat.zero_add]
      exact reports_le_one hnext hlen hall

end CoverageMaps

open CoverageMaps

/-- The specification of `has_new_bits` in bytes: the result of a call, the maps behind it,
the result of the same call once more, and how often a byte is reported. -/
theorem hasNewBits_spec (m : CoverageMaps) (h : m.Sized) :
    (((hasNewBits m).1 = 2 ↔ ∃ i, m.Pristine i) ∧
      ((hasNewBits m).1 = 1 ↔ (¬ ∃ i, m.Pristine i) ∧ ∃ i, m.News i) ∧
      ((hasNewBits m).1 = 0 ↔ ¬ ∃ i, m.News i)) ∧
    ((∀ i < m.realMapSize, byteOf (hasNewBits m).2.virginMap i =
        byteOf m.virginMap i &&& ~~~byteOf m.traceBits i) ∧
      (hasNewBits m).2.Sized ∧ (hasNewBits m).2.traceBits = m.traceBits) ∧
    (hasNewBits (hasNewBits m).2).1 = 0 ∧
    ∀ traces : List (List UInt64), (∀ trace ∈ traces, trace.length = m.traceBits.length) →
      ∀ i, reports i m traces ≤ 1 := by
  refine ⟨hasNewBits_result h, ⟨fun i hi => virgin_hasNewBits h hi, sized_hasNewBits h, rfl⟩, ?_,
    fun traces htraces i => reports_le_one h rfl htraces⟩
  rw [(hasNewBits_result (sized_hasNewBits h)).2.2]
  rintro ⟨i, hi, hnews⟩
  apply hnews
  have hi' : i < m.realMapSize := hi
  rw [virgin_hasNewBits h hi', trace_hasNewBits, UInt8.and_comm, UInt8.and_assoc,
    UInt8.and_comm (~~~_), UInt8.and_not_self, UInt8.and_zero]

/-- The maps of `oneHit` after their words were classified. -/
theorem hasNewBits_spec_oneHit :
    (hasNewBits oneHit).1 = 2 ∧ (hasNewBits (hasNewBits oneHit).2).1 = 0 := by
  have hsized : oneHit.Sized := ⟨rfl, rfl⟩
  have hspec := hasNewBits_spec oneHit hsized
  exact ⟨hspec.1.1.mpr ⟨41, by decide, by decide, by decide⟩, hspec.2.2.1⟩

end Coverage

end AflNv
