import Mathlib.Algebra.Order.BigOperators.Group.List
import Mathlib.Algebra.Order.Group.Defs

/-!
# Choosing by cumulative weight

A list of weights, some of them missing, and a point `r`: `spin` walks along the list,
adds up the weights and stops where the sum reaches the point.  A missing weight is
passed over.

* `upTo ws i` is the sum of the first `i` weights.
* `spin_eq_some_iff`: the place where it stops is the least one that is not missing and
  where the sum reaches `r`.
* `spin_isSome`: it stops if the sum of all weights reaches `r`.
* `hit_iff`: with positive weights the point lies in the interval of that place.
-/

namespace AflNv.Lib.Roulette

variable {R : Type*} [AddCommGroup R]

/-! ## Sums -/

/-- The sum of the first `i` weights. -/
def upTo (ws : List (Option R)) (i : ℕ) : R := ((ws.take i).map fun w => w.getD 0).sum

@[simp] theorem upTo_zero (ws : List (Option R)) : upTo ws 0 = 0 := rfl

@[simp] theorem upTo_cons (w : Option R) (ws : List (Option R)) (i : ℕ) :
    upTo (w :: ws) (i + 1) = w.getD 0 + upTo ws i := rfl

theorem upTo_succ {ws : List (Option R)} {i : ℕ} {w : R} (h : ws[i]? = some (some w)) :
    upTo ws (i + 1) = upTo ws i + w := by
  induction ws generalizing i with
  | nil => exact absurd h (by simp)
  | cons v ws ih =>
    cases i with
    | zero =>
      obtain rfl : v = some w := by simpa using h
      simp
    | succ i =>
      rw [upTo_cons, upTo_cons, ih (by simpa using h), add_assoc]

theorem upTo_succ_none {ws : List (Option R)} {i : ℕ} (h : ∀ w, ws[i]? ≠ some (some w)) :
    upTo ws (i + 1) = upTo ws i := by
  induction ws generalizing i with
  | nil => simp [upTo]
  | cons v ws ih =>
    cases i with
    | zero =>
      cases v with
      | none => simp
      | some v => exact absurd rfl (h v)
    | succ i => rw [upTo_cons, upTo_cons, ih fun w hw => h w (by simpa using hw)]

/-- A sum is 0, or it is the sum up to the last of its weights. -/
theorem upTo_eq_last (ws : List (Option R)) (i : ℕ) :
    (upTo ws i = 0 ∧ ∀ j < i, ∀ w, ws[j]? ≠ some (some w)) ∨
      ∃ j < i, ∃ w, ws[j]? = some (some w) ∧ upTo ws i = upTo ws (j + 1) := by
  induction i with
  | zero => exact .inl ⟨rfl, fun j hj => absurd hj (Nat.not_lt_zero j)⟩
  | succ i ih =>
    by_cases hi : ∃ w, ws[i]? = some (some w)
    · obtain ⟨w, hw⟩ := hi
      exact .inr ⟨i, Nat.lt_succ_self i, w, hw, rfl⟩
    · have hnone : ∀ w, ws[i]? ≠ some (some w) := fun w hw => hi ⟨w, hw⟩
      rw [upTo_succ_none hnone]
      rcases ih with ⟨hzero, hbefore⟩ | ⟨j, hj, w, hw, hsum⟩
      · refine .inl ⟨hzero, fun j hj => ?_⟩
        rcases Nat.lt_succ_iff_lt_or_eq.mp hj with hj | rfl
        · exact hbefore j hj
        · exact hnone
      · exact .inr ⟨j, Nat.lt_succ_of_lt hj, w, hw, hsum⟩

/-! ## The choice -/

variable [LinearOrder R]

/-- The place where the sum of the weights reaches `r`, from `acc` on. -/
def spin (r : R) : R → List (Option R) → Option ℕ
  | _, [] => none
  | acc, none :: ws => (spin r acc ws).map (· + 1)
  | acc, some w :: ws => if r ≤ acc + w then some 0 else (spin r (acc + w) ws).map (· + 1)

/-- The place is the one of a weight, and the sum reaches the point there for the first
time. -/
structure Stops (r acc : R) (ws : List (Option R)) (i : ℕ) : Prop where
  present : ∃ w, ws[i]? = some (some w)
  reached : r ≤ acc + upTo ws (i + 1)
  before : ∀ j < i, ∀ w, ws[j]? = some (some w) → acc + upTo ws (j + 1) < r

theorem stops_cons_none {r acc : R} {ws : List (Option R)} {i : ℕ} :
    Stops r acc (none :: ws) (i + 1) ↔ Stops r acc ws i := by
  constructor
  · rintro ⟨hp, hr, hb⟩
    refine ⟨by simpa using hp, by simpa using hr, fun j hj w hw => ?_⟩
    have hlt := hb (j + 1) (Nat.succ_lt_succ hj) w (by simpa using hw)
    simpa using hlt
  · rintro ⟨hp, hr, hb⟩
    refine ⟨by simpa using hp, by simpa using hr, fun j hj w hw => ?_⟩
    cases j with
    | zero => exact absurd hw (by simp)
    | succ j => simpa using hb j (Nat.lt_of_succ_lt_succ hj) w (by simpa using hw)

theorem stops_cons_some {r acc v : R} {ws : List (Option R)} {i : ℕ} (hv : ¬ r ≤ acc + v) :
    Stops r acc (some v :: ws) (i + 1) ↔ Stops r (acc + v) ws i := by
  have hsum : ∀ j, acc + upTo (some v :: ws) (j + 1) = acc + v + upTo ws j := by
    intro j
    rw [upTo_cons, Option.getD_some, add_assoc]
  constructor
  · rintro ⟨hp, hr, hb⟩
    refine ⟨by simpa using hp, by rwa [hsum] at hr, fun j hj w hw => ?_⟩
    rw [← hsum]
    exact hb (j + 1) (Nat.succ_lt_succ hj) w (by simpa using hw)
  · rintro ⟨hp, hr, hb⟩
    refine ⟨by simpa using hp, by rwa [hsum], fun j hj w hw => ?_⟩
    rw [hsum]
    cases j with
    | zero =>
      rw [upTo_zero, add_zero]
      exact not_le.mp hv
    | succ j => exact hb j (Nat.lt_of_succ_lt_succ hj) w (by simpa using hw)

/-- `spin` finds the place where the sum reaches the point for the first time. -/
theorem spin_eq_some_iff {r acc : R} {ws : List (Option R)} {i : ℕ} :
    spin r acc ws = some i ↔ Stops r acc ws i := by
  induction ws generalizing acc i with
  | nil => exact iff_of_false nofun fun h => by simpa using h.present
  | cons v ws ih =>
    cases v with
    | none =>
      rw [spin]
      cases i with
      | zero =>
        refine iff_of_false (by simp) fun h => ?_
        obtain ⟨w, hw⟩ := h.present
        exact absurd hw (by simp)
      | succ i => rw [stops_cons_none, ← ih, Option.map_eq_some_iff]; simp
    | some v =>
      rw [spin]
      split_ifs with hv
      · cases i with
        | zero =>
          refine iff_of_true rfl ⟨⟨v, rfl⟩, ?_, fun j hj => absurd hj (Nat.not_lt_zero j)⟩
          rwa [upTo_cons, upTo_zero, add_zero]
        | succ i =>
          refine iff_of_false (by simp) fun h => ?_
          have hlt := h.before 0 (Nat.succ_pos i) v rfl
          rw [upTo_cons, upTo_zero, add_zero] at hlt
          exact absurd hv (not_le.mpr hlt)
      · cases i with
        | zero =>
          refine iff_of_false (by simp) fun h => ?_
          have hr := h.reached
          rw [upTo_cons, upTo_zero, add_zero] at hr
          exact hv hr
        | succ i => rw [stops_cons_some hv, ← ih, Option.map_eq_some_iff]; simp

/-- It stops, if there is a weight at all and the sum reaches the point. -/
theorem spin_isSome {r acc : R} {ws : List (Option R)} (hsome : ∃ w, some w ∈ ws)
    (hr : r ≤ acc + upTo ws ws.length) : ∃ i, spin r acc ws = some i := by
  induction ws generalizing acc with
  | nil => exact absurd hsome (by simp)
  | cons v ws ih =>
    rw [List.length_cons, upTo_cons] at hr
    cases v with
    | none =>
      rw [Option.getD_none, zero_add] at hr
      obtain ⟨i, hi⟩ := ih (by simpa using hsome) hr
      exact ⟨i + 1, by rw [spin, hi]; rfl⟩
    | some v =>
      rw [spin]
      split_ifs with hv
      · exact ⟨0, rfl⟩
      · rw [Option.getD_some, ← add_assoc] at hr
        have hrest : ∃ w, some w ∈ ws := by
          by_contra hnone
          have hzero : upTo ws ws.length = 0 := by
            rw [upTo, List.take_length]
            refine List.sum_eq_zero fun x hx => ?_
            obtain ⟨w, hw, rfl⟩ := List.mem_map.mp hx
            cases w with
            | none => rfl
            | some w => exact absurd ⟨w, hw⟩ hnone
          rw [hzero, add_zero] at hr
          exact hv hr
        obtain ⟨i, hi⟩ := ih hrest hr
        exact ⟨i + 1, by rw [hi]; rfl⟩

/-! ## Positive weights -/

variable [IsOrderedAddMonoid R]

/-- The weights are positive. -/
def Positive (ws : List (Option R)) : Prop := ∀ w, some w ∈ ws → 0 < w

theorem upTo_mono {ws : List (Option R)} (h : Positive ws) {i j : ℕ} (hij : i ≤ j) :
    upTo ws i ≤ upTo ws j := by
  induction ws generalizing i j with
  | nil => simp [upTo]
  | cons v ws ih =>
    have htail : Positive ws := fun w hw => h w (List.mem_cons_of_mem v hw)
    have hv : 0 ≤ v.getD 0 := by
      cases v with
      | none => exact le_rfl
      | some w => exact (h w (List.mem_cons_self ..)).le
    cases i with
    | zero =>
      cases j with
      | zero => exact le_rfl
      | succ j =>
        rw [upTo_zero, upTo_cons]
        have hj := ih htail (Nat.zero_le j)
        rw [upTo_zero] at hj
        exact add_nonneg hv hj
    | succ i =>
      cases j with
      | zero => exact absurd hij (by omega)
      | succ j =>
        rw [upTo_cons, upTo_cons]
        exact add_le_add_right (ih htail (Nat.le_of_succ_le_succ hij)) _

/-- The point lies in the interval of a weight; 0 belongs to the first one. -/
structure Hit (r : R) (ws : List (Option R)) (i : ℕ) : Prop where
  lower : upTo ws i < r ∨ r = 0 ∧ ∀ j < i, ws[j]? = some none
  upper : r ≤ upTo ws (i + 1)

/-- With positive weights `spin` stops where the point lies. -/
theorem hit_iff {r : R} {ws : List (Option R)} (h : Positive ws) (hr : 0 ≤ r) {i : ℕ} {w : R}
    (hw : ws[i]? = some (some w)) : Hit r ws i ↔ spin r 0 ws = some i := by
  rw [spin_eq_some_iff]
  constructor
  · rintro ⟨hlow, hup⟩
    refine ⟨⟨w, hw⟩, by rwa [zero_add], fun j hj v hv => ?_⟩
    rw [zero_add]
    rcases hlow with hlow | ⟨-, hnone⟩
    · exact (upTo_mono h hj).trans_lt hlow
    · rw [hnone j hj] at hv
      exact absurd hv (by simp)
  · rintro ⟨-, hup, hbefore⟩
    refine ⟨?_, by rwa [zero_add] at hup⟩
    -- The sum up to `i` is the one behind the last weight before, if there is one.
    rcases upTo_eq_last ws i with ⟨hzero, hnone⟩ | ⟨j, hj, v, hv, hsum⟩
    · rcases hr.lt_or_eq with hpos | rfl
      · left
        rwa [hzero]
      · right
        refine ⟨rfl, fun j hj => ?_⟩
        have hlen : j < ws.length := hj.trans (List.getElem?_eq_some_iff.mp hw).1
        cases hget : ws[j] with
        | none => rw [List.getElem?_eq_getElem hlen, hget]
        | some v => exact absurd (by rw [List.getElem?_eq_getElem hlen, hget]) (hnone j hj v)
    · left
      have hlt := hbefore j hj v hv
      rwa [zero_add, ← hsum] at hlt

end AflNv.Lib.Roulette
