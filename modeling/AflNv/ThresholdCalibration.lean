import AflNv.Lib.Threshold
import AflNv.Python
import Mathlib.Algebra.Order.Field.Basic
import Mathlib.Data.Finset.Sort
import Mathlib.Tactic.Linarith

/-!
# The calibration of the SE threshold

`calibrate_threshold` (calibrate_se_realrun_threshold.py) looks for the threshold whose share of
rejected SE scores comes closest to the share of AE scores that the AE threshold rejects.  The
arithmetic is exact: the finite floats are an ordered field.

* `calibrated` says what an accepted population gives: the best of the candidates, and no threshold
  at all comes closer.
* Of two shares at the same distance the lower one is selected, since the tie-break takes the higher
  threshold; `Tied` says when there are two.
-/

namespace AflNv.ThresholdCalibration

open AflNv.Lib AflNv.Lib.Threshold

variable {K : Type} {ι : Type*}

/-! ## The calibration -/

/-- The value of a finite float. -/
def value? : PyFloat K → Option K
  | .finite x => some x
  | _ => none

def values (scores : List (PyFloat K)) : List K := scores.filterMap value?

/-- `score >= threshold`, of a finite score. -/
def reaches [LinearOrder K] (threshold : PyFloat K) (score : K) : Bool :=
  match threshold with
  | .finite t => t ≤ score
  | .inf neg => neg
  | .nan => false

/-- The errors: an empty population, lists of different lengths, a repeated id, a score that is not
finite. -/
inductive CalibrationError where
  | empty
  | countMismatch (ae se ids : ℕ)
  | duplicateIds
  | nonFiniteAe
  | nonFiniteSe
  deriving DecidableEq

structure Calibration (K : Type) where
  aeThreshold : PyFloat K
  aeFrr : K
  seThreshold : K
  seFrr : K
  frrAbsoluteMismatch : K
  calibrationSampleCount : ℕ

/-- `best_threshold`, `best_frr` and `best_mismatch`. -/
structure BestSoFar (K : Type) where
  threshold : K
  frr : K
  mismatch : K

section Calibrate

variable [Field K] [LinearOrder K]

/-- The share of the scores that a threshold rejects. -/
def frr (scores : List K) (threshold : K) : K := rejects scores threshold / scores.length

def aeRejects (ae : List (PyFloat K)) (aeThreshold : PyFloat K) : ℕ :=
  (values ae).countP (reaches aeThreshold)

def mismatch (scores : List K) (aeFrr threshold : K) : K := |frr scores threshold - aeFrr|

/-- One candidate of the search; `none` before the first, whose `best_mismatch` is infinite. -/
def consider (scores : List K) (aeFrr : K) (best : Option (BestSoFar K)) (candidate : K) :
    Option (BestSoFar K) :=
  let seFrr := frr scores candidate
  let mismatch := |seFrr - aeFrr|
  match best with
  | none => some ⟨candidate, seFrr, mismatch⟩
  | some b =>
    if mismatch < b.mismatch then some ⟨candidate, seFrr, mismatch⟩
    else if mismatch = b.mismatch then
      -- Tie-break: prefer MORE CONSERVATIVE threshold (higher = more restrictive)
      if b.threshold < candidate then some { b with threshold := candidate, frr := seFrr }
      else some b
    else some b

/-- All scores, one threshold below them and one above. -/
def candidates (scores : List K) (lo hi : K) : List K :=
  [lo - 1 / (1000 : ℕ)] ++ scores.toFinset.sort (· ≤ ·) ++ [hi + 1 / (1000 : ℕ)]

variable [DecidableEq ι]

def calibrateThreshold (aeScores seScores : List (PyFloat K)) (sampleIds : List ι)
    (aeThreshold : PyFloat K) : Except CalibrationError (Calibration K) :=
  if aeScores = [] ∨ seScores = [] ∨ sampleIds = [] then .error .empty
  else if ¬ (aeScores.length = seScores.length ∧ seScores.length = sampleIds.length) then
    .error (.countMismatch aeScores.length seScores.length sampleIds.length)
  else if sampleIds.length ≠ sampleIds.toFinset.card then .error .duplicateIds
  else if ¬ aeScores.all PyFloat.isfinite then .error .nonFiniteAe
  else if ¬ seScores.all PyFloat.isfinite then .error .nonFiniteSe
  else
    let aeFrr : K := aeRejects aeScores aeThreshold / aeScores.length
    let scores := values seScores
    match scores.min?, scores.max? with
    | some lo, some hi =>
      match (candidates scores lo hi).foldl (consider scores aeFrr) none with
      | some best =>
        .ok ⟨aeThreshold, aeFrr, best.threshold, best.frr, best.mismatch, sampleIds.length⟩
      | none => .error .empty
    | _, _ => .error .empty

end Calibrate

/-! ## The search -/

section Search

variable [Field K] [LinearOrder K]

/-- What is kept of a candidate. -/
def scored (scores : List K) (aeFrr threshold : K) : BestSoFar K :=
  ⟨threshold, frr scores threshold, mismatch scores aeFrr threshold⟩

theorem consider_scored (scores : List K) (aeFrr : K) (best : Option K) (candidate : K) :
    consider scores aeFrr (best.map (scored scores aeFrr)) candidate =
      (prefer (mismatch scores aeFrr) best candidate).map (scored scores aeFrr) := by
  cases best with
  | none => rfl
  | some b =>
    show (if mismatch scores aeFrr candidate < mismatch scores aeFrr b then _
      else if mismatch scores aeFrr candidate = mismatch scores aeFrr b then _ else _) =
        (if mismatch scores aeFrr candidate < mismatch scores aeFrr b then some candidate
          else if mismatch scores aeFrr candidate = mismatch scores aeFrr b ∧ b < candidate
            then some candidate else some b).map (scored scores aeFrr)
    by_cases hlt : mismatch scores aeFrr candidate < mismatch scores aeFrr b
    · rw [if_pos hlt, if_pos hlt]
      rfl
    rw [if_neg hlt, if_neg hlt]
    by_cases heq : mismatch scores aeFrr candidate = mismatch scores aeFrr b
    · by_cases hgt : b < candidate
      · simp only [heq, hgt, and_self, if_true]
        show (if b < candidate then _ else _) = some (scored scores aeFrr candidate)
        rw [if_pos hgt]
        exact congrArg (fun m => some (BestSoFar.mk candidate (frr scores candidate) m)) heq.symm
      · simp only [heq, hgt, and_false, if_true, if_false]
        exact if_neg hgt
    · simp only [heq, false_and, if_false]
      rfl

/-- The search is the selection by the mismatch. -/
theorem foldl_consider (scores : List K) (aeFrr : K) (l : List K) (best : Option K) :
    l.foldl (consider scores aeFrr) (best.map (scored scores aeFrr)) =
      (l.foldl (prefer (mismatch scores aeFrr)) best).map (scored scores aeFrr) := by
  induction l generalizing best with
  | nil => rfl
  | cons c l ih => rw [List.foldl_cons, List.foldl_cons, consider_scored, ih]

theorem mem_candidates {scores : List K} {lo hi c : K} :
    c ∈ candidates scores lo hi ↔ c = lo - 1 / 1000 ∨ c ∈ scores ∨ c = hi + 1 / 1000 := by
  simp [candidates]

variable [IsStrictOrderedRing K]

theorem frr_anti (scores : List K) {s t : K} (h : s ≤ t) : frr scores t ≤ frr scores s :=
  div_le_div_of_nonneg_right (Nat.cast_le.mpr (rejects_anti scores h)) (Nat.cast_nonneg _)

/-- The threshold that is found: no other one comes closer, and one that comes as close does not
reject less. -/
structure Nearest (scores : List K) (aeFrr threshold : K) : Prop where
  le : ∀ t, mismatch scores aeFrr threshold ≤ mismatch scores aeFrr t
  least : ∀ t, mismatch scores aeFrr t = mismatch scores aeFrr threshold →
    frr scores threshold ≤ frr scores t

theorem search_spec {scores : List K} (hne : scores ≠ []) (aeFrr : K) :
    ∃ lo hi b, scores.min? = some lo ∧ scores.max? = some hi ∧
      (candidates scores lo hi).foldl (consider scores aeFrr) none =
        some (scored scores aeFrr b) ∧ Nearest scores aeFrr b := by
  obtain ⟨lo, hlo⟩ := Option.isSome_iff_exists.mp (List.isSome_min?_of_ne_nil hne)
  obtain ⟨hi, hhi⟩ := Option.isSome_iff_exists.mp (List.isSome_max?_of_ne_nil hne)
  have htop : ∀ x ∈ scores, x < hi + 1 / 1000 := fun x hx => by
    have hle : x ≤ hi := (List.max?_eq_some_iff.mp hhi).2 x hx
    have hpos : (0 : K) < 1 / 1000 := by positivity
    linarith
  have hcandidates : candidates scores lo hi ≠ [] := by simp [candidates]
  obtain ⟨b, hselect, hbest⟩ := select_spec (f := mismatch scores aeFrr) hcandidates
  -- a candidate that rejects the same
  have hcover (t : K) : ∃ c ∈ candidates scores lo hi, frr scores c = frr scores t := by
    obtain ⟨c, hc, hrejects⟩ := exists_candidate htop t
    exact ⟨c, mem_candidates.mpr (Or.inr hc), by rw [frr, frr, hrejects]⟩
  refine ⟨lo, hi, b, hlo, hhi, ?_, fun t => ?_, fun t ht => ?_⟩
  · have hfold := foldl_consider scores aeFrr (candidates scores lo hi) none
    rw [Option.map_none] at hfold
    rw [hfold]
    show (select (mismatch scores aeFrr) (candidates scores lo hi)).map _ = _
    rw [hselect, Option.map_some]
  · obtain ⟨c, hc, hfrr⟩ := hcover t
    have hle := hbest.le c hc
    unfold mismatch at hle ⊢
    rwa [hfrr] at hle
  · obtain ⟨c, hc, hfrr⟩ := hcover t
    have hsame : mismatch scores aeFrr c = mismatch scores aeFrr b := by
      rw [← ht, mismatch, hfrr, mismatch]
    calc frr scores b ≤ frr scores c := frr_anti scores (hbest.largest c hc hsame)
      _ = frr scores t := hfrr

end Search

/-! ## Shares as counts -/

section Counts

variable [Field K] [LinearOrder K] [IsStrictOrderedRing K]

theorem mismatch_eq (scores : List K) (a : ℕ) (t : K) :
    mismatch scores (a / scores.length) t =
      (((rejects scores t : ℤ) - a).natAbs : K) / scores.length := by
  rw [mismatch, frr, ← sub_div, abs_div, Nat.abs_cast, Nat.cast_natAbs]
  push_cast
  rfl

theorem mismatch_le_iff {scores : List K} (hne : scores ≠ []) (a : ℕ) (s t : K) :
    mismatch scores (a / scores.length) s ≤ mismatch scores (a / scores.length) t ↔
      ((rejects scores s : ℤ) - a).natAbs ≤ ((rejects scores t : ℤ) - a).natAbs := by
  have hpos : (0 : K) < scores.length := Nat.cast_pos.mpr (List.length_pos_iff.mpr hne)
  rw [mismatch_eq, mismatch_eq, div_le_div_iff_of_pos_right hpos, Nat.cast_le]

theorem frr_le_iff {scores : List K} (hne : scores ≠ []) (s t : K) :
    frr scores s ≤ frr scores t ↔ rejects scores s ≤ rejects scores t := by
  have hpos : (0 : K) < scores.length := Nat.cast_pos.mpr (List.length_pos_iff.mpr hne)
  rw [frr, frr, div_le_div_iff_of_pos_right hpos, Nat.cast_le]

end Counts

/-! ## What is accepted -/

section Accepted

theorem length_values {scores : List (PyFloat K)} (h : scores.all PyFloat.isfinite = true) :
    (values scores).length = scores.length := by
  induction scores with
  | nil => rfl
  | cons x scores ih =>
    rw [List.all_cons, Bool.and_eq_true] at h
    cases x with
    | finite x => exact congrArg Nat.succ (ih h.2)
    | inf neg => cases h.1
    | nan => cases h.1

variable [DecidableEq ι]

/-- A population without a reason to refuse it. -/
structure Accepted (aeScores seScores : List (PyFloat K)) (sampleIds : List ι) : Prop where
  nonempty : seScores ≠ []
  lengths : aeScores.length = seScores.length ∧ seScores.length = sampleIds.length
  distinct : sampleIds.length = sampleIds.toFinset.card
  finiteAe : aeScores.all PyFloat.isfinite = true
  finiteSe : seScores.all PyFloat.isfinite = true

variable {aeScores seScores : List (PyFloat K)} {sampleIds : List ι} {aeThreshold : PyFloat K}

theorem Accepted.values_ne_nil (h : Accepted aeScores seScores sampleIds) :
    values seScores ≠ [] := fun hnil => h.nonempty (List.length_eq_zero_iff.mp (by
  rw [← length_values h.finiteSe, hnil, List.length_nil]))

section Result

variable [Field K] [LinearOrder K]

theorem accepted_of_ok {r : Calibration K}
    (h : calibrateThreshold aeScores seScores sampleIds aeThreshold = .ok r) :
    Accepted aeScores seScores sampleIds := by
  unfold calibrateThreshold at h
  split at h
  · cases h
  rename_i hempty
  split at h
  · cases h
  rename_i hlengths
  split at h
  · cases h
  rename_i hdistinct
  split at h
  · cases h
  rename_i hae
  split at h
  · cases h
  rename_i hse
  exact ⟨fun hnil => hempty (Or.inr (Or.inl hnil)), not_not.mp hlengths, not_not.mp hdistinct,
    not_not.mp hae, not_not.mp hse⟩

/-- The order of the samples does not matter. -/
theorem calibrateThreshold_perm {aeScores' seScores' : List (PyFloat K)} {sampleIds' : List ι}
    (hae : aeScores'.Perm aeScores) (hse : seScores'.Perm seScores)
    (hids : sampleIds'.Perm sampleIds) (aeThreshold : PyFloat K) :
    calibrateThreshold aeScores' seScores' sampleIds' aeThreshold =
      calibrateThreshold aeScores seScores sampleIds aeThreshold := by
  have hvalues : (values seScores').Perm (values seScores) := hse.filterMap _
  have hnil : (aeScores' = [] ∨ seScores' = [] ∨ sampleIds' = []) ↔
      (aeScores = [] ∨ seScores = [] ∨ sampleIds = []) := by
    simp only [← List.length_eq_zero_iff, hae.length_eq, hse.length_eq, hids.length_eq]
  have hmin : (values seScores').min? = (values seScores).min? := Option.ext fun lo => by
    simp only [List.min?_eq_some_iff, hvalues.mem_iff]
  have hmax : (values seScores').max? = (values seScores).max? := Option.ext fun hi => by
    simp only [List.max?_eq_some_iff, hvalues.mem_iff]
  have hfrr : frr (values seScores') = frr (values seScores) := funext fun t => by
    rw [frr, frr, rejects_perm hvalues, hvalues.length_eq]
  have hconsider : consider (values seScores') = consider (values seScores) := by
    funext aeFrr best candidate
    unfold consider
    rw [hfrr]
  have hcandidates : candidates (values seScores') = candidates (values seScores) := by
    funext lo hi
    rw [candidates, candidates, List.toFinset_eq_of_perm _ _ hvalues]
  have hrejects : aeRejects aeScores' aeThreshold = aeRejects aeScores aeThreshold :=
    (hae.filterMap value?).countP_eq _
  unfold calibrateThreshold
  simp only [hnil, hae.length_eq, hse.length_eq, hids.length_eq,
    List.toFinset_eq_of_perm _ _ hids, hae.all_eq, hse.all_eq, hmin, hmax, hconsider, hcandidates,
    hrejects]

variable [IsStrictOrderedRing K]

/-- What an accepted population gives. -/
theorem calibrated (h : Accepted aeScores seScores sampleIds) (aeThreshold : PyFloat K) :
    let aeFrr : K := aeRejects aeScores aeThreshold / (values seScores).length
    ∃ b, calibrateThreshold aeScores seScores sampleIds aeThreshold =
        .ok ⟨aeThreshold, aeFrr, b, frr (values seScores) b, mismatch (values seScores) aeFrr b,
          sampleIds.length⟩ ∧
      Nearest (values seScores) aeFrr b := by
  intro aeFrr
  obtain ⟨lo, hi, b, hlo, hhi, hfold, hnearest⟩ := search_spec h.values_ne_nil aeFrr
  refine ⟨b, ?_, hnearest⟩
  have hnonempty : ¬ (aeScores = [] ∨ seScores = [] ∨ sampleIds = []) := by
    have hpos := List.length_pos_iff.mpr h.nonempty
    obtain ⟨hae, hids⟩ := h.lengths
    rintro (rfl | rfl | rfl)
    · rw [List.length_nil] at hae; omega
    · exact h.nonempty rfl
    · rw [List.length_nil] at hids; omega
  have hlength : aeScores.length = (values seScores).length := by
    rw [length_values h.finiteSe, h.lengths.1]
  unfold calibrateThreshold
  rw [if_neg hnonempty, if_neg (not_not.mpr h.lengths), if_neg (not_not.mpr h.distinct),
    if_neg (not_not.mpr h.finiteAe), if_neg (not_not.mpr h.finiteSe)]
  simp only [hlo, hhi, hlength]
  show (match List.foldl (consider (values seScores) aeFrr) none _ with
    | some best => _
    | none => _) = _
  rw [hfold]
  rfl

end Result

end Accepted

/-! ## Two shares at the same distance -/

section Tie

variable [Field K] [LinearOrder K] [IsStrictOrderedRing K] {scores : List K} {a : ℕ} {b : K}

/-- Some threshold rejects `k` scores. -/
def Attained (scores : List K) (k : ℕ) : Prop := ∃ t, rejects scores t = k

/-- Of the numbers of scores that a threshold can reject, two are nearest to `a`: one below and one
above. -/
def Tied (scores : List K) (a : ℕ) : Prop :=
  ∃ d, 0 < d ∧ d ≤ a ∧ Attained scores (a - d) ∧ Attained scores (a + d) ∧
    ∀ k, a - d < k → k < a + d → ¬ Attained scores k

/-- The threshold that is found rejects as many as any other that comes as close, except in a
tie. -/
theorem Nearest.conservative_iff (hne : scores ≠ []) (h : Nearest scores (a / scores.length) b) :
    (∀ t, mismatch scores (a / scores.length) t = mismatch scores (a / scores.length) b →
      frr scores t ≤ frr scores b) ↔ ¬ Tied scores a := by
  have hnearest (t : K) :
      ((rejects scores b : ℤ) - a).natAbs ≤ ((rejects scores t : ℤ) - a).natAbs :=
    (mismatch_le_iff hne a b t).mp (h.le t)
  have hsame {t : K}
      (ht : ((rejects scores t : ℤ) - a).natAbs ≤ ((rejects scores b : ℤ) - a).natAbs) :
      mismatch scores (a / scores.length) t = mismatch scores (a / scores.length) b :=
    le_antisymm ((mismatch_le_iff hne a t b).mpr ht) (h.le t)
  constructor
  · rintro hmost ⟨d, hpos, hle, ⟨s, hs⟩, ⟨t, ht⟩, hbetween⟩
    have hsmall := hnearest s
    rw [hs] at hsmall
    -- nothing nearer is attained
    have houtside : ¬ (a - d < rejects scores b ∧ rejects scores b < a + d) :=
      fun hin => hbetween _ hin.1 hin.2 ⟨b, rfl⟩
    have hmore : rejects scores t ≤ rejects scores b :=
      (frr_le_iff hne t b).mp (hmost t (hsame (by rw [ht]; omega)))
    have hfewer : rejects scores b ≤ rejects scores s :=
      (frr_le_iff hne b s).mp (h.least s (hsame (by rw [hs]; omega)))
    omega
  · intro hfree t ht
    rw [frr_le_iff hne]
    by_contra hmore
    have hdist : ((rejects scores t : ℤ) - a).natAbs ≤ ((rejects scores b : ℤ) - a).natAbs :=
      (mismatch_le_iff hne a t b).mp ht.le
    have hdist' := hnearest t
    refine hfree ⟨rejects scores t - a, by omega, by omega, ⟨b, by omega⟩, ⟨t, by omega⟩, ?_⟩
    rintro k hlow hhigh ⟨u, rfl⟩
    have hu := hnearest u
    omega

end Tie

/-! ## The promises -/

section Promises

variable [Field K] [LinearOrder K] [DecidableEq ι]

/-- What is promised of a calibration: it is nearest to the AE share among all thresholds, of those
that are as near it rejects the most, it reports its own share and distance, and the order of the
samples does not matter. -/
structure Promise (aeScores seScores : List (PyFloat K)) (sampleIds : List ι)
    (aeThreshold : PyFloat K) (r : Calibration K) : Prop where
  aeFrr : r.aeFrr = aeRejects aeScores aeThreshold / aeScores.length
  optimal : ∀ t, |frr (values seScores) r.seThreshold - r.aeFrr| ≤
    |frr (values seScores) t - r.aeFrr|
  conservative : ∀ t, |frr (values seScores) t - r.aeFrr| =
    |frr (values seScores) r.seThreshold - r.aeFrr| →
    frr (values seScores) t ≤ frr (values seScores) r.seThreshold
  seFrr : r.seFrr = frr (values seScores) r.seThreshold
  mismatch : r.frrAbsoluteMismatch = |r.seFrr - r.aeFrr|
  order : ∀ (aeScores' seScores' : List (PyFloat K)) (sampleIds' : List ι),
    aeScores'.Perm aeScores → seScores'.Perm seScores → sampleIds'.Perm sampleIds →
    calibrateThreshold aeScores' seScores' sampleIds' aeThreshold = .ok r

variable [IsStrictOrderedRing K]

/-- A calibration keeps its promises exactly when no two shares are nearest to the AE share.  All
but one of them it keeps always. -/
theorem calibrateThreshold_promise {aeScores seScores : List (PyFloat K)} {sampleIds : List ι}
    {aeThreshold : PyFloat K} {r : Calibration K}
    (h : calibrateThreshold aeScores seScores sampleIds aeThreshold = .ok r) :
    Promise aeScores seScores sampleIds aeThreshold r ↔
      ¬ Tied (values seScores) (aeRejects aeScores aeThreshold) := by
  have haccepted := accepted_of_ok h
  obtain ⟨b, hok, hnearest⟩ := calibrated haccepted aeThreshold
  rw [hok] at h
  cases h
  rw [← hnearest.conservative_iff haccepted.values_ne_nil]
  constructor
  · intro hpromise
    exact hpromise.conservative
  · intro hmost
    refine ⟨?_, hnearest.le, hmost, rfl, rfl, fun _ _ _ hae hse hids => ?_⟩
    · rw [length_values haccepted.finiteSe, haccepted.lengths.1]
    · rw [calibrateThreshold_perm hae hse hids]
      exact hok

end Promises

/-- Two equal SE scores of 3, two AE scores of 0 and 1, and the AE threshold 0. -/
theorem calibrateThreshold_promise_all :
    Promise [.finite 0, .finite 1] [.finite 3, .finite 3] ["a", "b"] (.finite 0)
        ⟨.finite (0 : ℚ), 1, 3, 1, 0, 2⟩ ↔
      ¬ Tied (values [.finite (3 : ℚ), .finite 3])
        (aeRejects [.finite 0, .finite 1] (.finite 0)) := by
  have hok : calibrateThreshold [.finite 0, .finite 1] [.finite 3, .finite 3] ["a", "b"]
      (.finite 0) = .ok ⟨.finite (0 : ℚ), 1, 3, 1, 0, 2⟩ := by
    simp [calibrateThreshold, candidates, consider, frr, rejects, values, value?, aeRejects,
      reaches, PyFloat.isfinite]
    norm_num
  exact calibrateThreshold_promise hok

/-- With the AE threshold 1 one of two AE scores is rejected.  The threshold 3 rejects both SE
scores and the one above them none, which is as near; the calibration takes the latter. -/
theorem tie_accepts_all :
    ∃ r : Calibration ℚ,
      calibrateThreshold [.finite 0, .finite 1] [.finite 3, .finite 3] ["a", "b"] (.finite 1) =
        .ok r ∧
      |frr [3, 3] 3 - r.aeFrr| = |frr [3, 3] r.seThreshold - r.aeFrr| ∧
      frr [3, 3] r.seThreshold < frr [3, 3] 3 := by
  refine ⟨⟨.finite 1, 1 / 2, 3 + 1 / 1000, 0, 1 / 2, 2⟩, ?_, ?_, ?_⟩
  · simp [calibrateThreshold, candidates, consider, frr, rejects, values, value?, aeRejects,
      reaches, PyFloat.isfinite]
    norm_num
  · norm_num [frr, rejects]
  · norm_num [frr, rejects]

end AflNv.ThresholdCalibration
