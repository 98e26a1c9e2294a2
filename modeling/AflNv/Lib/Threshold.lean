import Mathlib.Data.Finset.Max
import Mathlib.Data.List.MinMax

/-!
# Threshold rules on finitely many scores

A threshold rejects the scores that are at least as large.  Among all thresholds of an order there
are no more cases than scores and one: `exists_candidate`.

`select` goes through candidates and keeps the one with the smallest value, the larger one when two
values are equal; `select_spec` says so of a whole list.
-/

namespace AflNv.Lib.Threshold

variable {α δ : Type*} [LinearOrder α]

/-! ## What a threshold rejects -/

def rejects (scores : List α) (threshold : α) : ℕ := scores.countP fun x => threshold ≤ x

/-- A higher threshold rejects no more. -/
theorem rejects_anti (scores : List α) {s t : α} (h : s ≤ t) :
    rejects scores t ≤ rejects scores s :=
  List.countP_mono_left fun _ _ hx => decide_eq_true (h.trans (of_decide_eq_true hx))

theorem rejects_perm {scores scores' : List α} (h : scores.Perm scores') (threshold : α) :
    rejects scores threshold = rejects scores' threshold := h.countP_eq _

theorem rejects_eq_zero {scores : List α} {t : α} (h : ∀ x ∈ scores, x < t) :
    rejects scores t = 0 :=
  List.countP_eq_zero.mpr fun x hx ht => not_lt.mpr (of_decide_eq_true ht) (h x hx)

/-- What any threshold rejects, a score rejects, or a threshold above all of them. -/
theorem exists_candidate {scores : List α} {top : α} (htop : ∀ x ∈ scores, x < top) (t : α) :
    ∃ c, (c ∈ scores ∨ c = top) ∧ rejects scores c = rejects scores t := by
  by_cases hsome : ∃ x ∈ scores, t ≤ x
  · obtain ⟨x, hx, hle⟩ := hsome
    have hne : (scores.toFinset.filter (t ≤ ·)).Nonempty :=
      ⟨x, Finset.mem_filter.mpr ⟨List.mem_toFinset.mpr hx, hle⟩⟩
    -- the least score that `t` rejects
    obtain ⟨c, hc, hleast⟩ := (scores.toFinset.filter (t ≤ ·)).exists_min_image id hne
    obtain ⟨hmem, htc⟩ := Finset.mem_filter.mp hc
    refine ⟨c, Or.inl (List.mem_toFinset.mp hmem), List.countP_congr fun y hy => ?_⟩
    have hiff : c ≤ y ↔ t ≤ y :=
      ⟨htc.trans, fun hty => hleast y (Finset.mem_filter.mpr ⟨List.mem_toFinset.mpr hy, hty⟩)⟩
    simp only [hiff]
  · have hnone : ∀ x ∈ scores, x < t := fun x hx => not_le.mp fun hle => hsome ⟨x, hx, hle⟩
    exact ⟨top, Or.inr rfl, by rw [rejects_eq_zero htop, rejects_eq_zero hnone]⟩

/-! ## The selection -/

section Selection

variable [LinearOrder δ] (f : α → δ)

/-- One candidate. -/
def prefer (best : Option α) (c : α) : Option α :=
  match best with
  | none => some c
  | some b => if f c < f b then some c else if f c = f b ∧ b < c then some c else some b

def select (candidates : List α) : Option α := candidates.foldl (prefer f) none

/-- The best of the candidates: none has a smaller value, none with the same value is larger. -/
structure Best (candidates : List α) (b : α) : Prop where
  mem : b ∈ candidates
  le : ∀ c ∈ candidates, f b ≤ f c
  largest : ∀ c ∈ candidates, f c = f b → c ≤ b

variable {f}

theorem prefer_best {seen : List α} {b : α} (h : Best f seen b) (c : α) :
    ∃ b', prefer f (some b) c = some b' ∧ Best f (seen ++ [c]) b' := by
  have hmem {x : α} (hx : x ∈ seen ++ [c]) : x ∈ seen ∨ x = c := by
    simpa using hx
  unfold prefer
  by_cases hlt : f c < f b
  · refine ⟨c, if_pos hlt, ⟨by simp, fun x hx => ?_, fun x hx heq => ?_⟩⟩
    · rcases hmem hx with hx | rfl
      · exact hlt.le.trans (h.le x hx)
      · exact le_rfl
    · rcases hmem hx with hx | rfl
      · exact absurd (heq ▸ h.le x hx) (not_le.mpr hlt)
      · exact le_rfl
  by_cases htie : f c = f b ∧ b < c
  · refine ⟨c, by simp only [htie, and_self, if_true, if_false, lt_irrefl],
      ⟨by simp, fun x hx => ?_, fun x hx heq => ?_⟩⟩
    · rcases hmem hx with hx | rfl
      · exact htie.1.le.trans (h.le x hx)
      · exact le_rfl
    · rcases hmem hx with hx | rfl
      · exact (h.largest x hx (heq.trans htie.1)).trans htie.2.le
      · exact le_rfl
  · refine ⟨b, by simp only [hlt, htie, if_false],
      ⟨List.mem_append_left _ h.mem, fun x hx => ?_, fun x hx heq => ?_⟩⟩
    · rcases hmem hx with hx | rfl
      · exact h.le x hx
      · exact not_lt.mp hlt
    · rcases hmem hx with hx | rfl
      · exact h.largest x hx heq
      · exact not_lt.mp fun hbc => htie ⟨heq, hbc⟩

theorem foldl_prefer {seen : List α} {b : α} (h : Best f seen b) (candidates : List α) :
    ∃ b', candidates.foldl (prefer f) (some b) = some b' ∧ Best f (seen ++ candidates) b' := by
  induction candidates generalizing seen b with
  | nil => exact ⟨b, rfl, by rwa [List.append_nil]⟩
  | cons c candidates ih =>
    obtain ⟨b', hb', hbest⟩ := prefer_best h c
    obtain ⟨out, hout, houtBest⟩ := ih hbest
    refine ⟨out, ?_, ?_⟩
    · rw [List.foldl_cons, hb', hout]
    · rwa [List.append_assoc] at houtBest

/-- Of at least one candidate the best is selected. -/
theorem select_spec {candidates : List α} (h : candidates ≠ []) :
    ∃ b, select f candidates = some b ∧ Best f candidates b := by
  cases candidates with
  | nil => exact absurd rfl h
  | cons c candidates =>
    have hfirst : Best f [c] c :=
      ⟨List.mem_singleton_self c, fun x hx => by rw [List.mem_singleton.mp hx],
        fun x hx _ => (List.mem_singleton.mp hx).le⟩
    exact foldl_prefer hfirst candidates

end Selection

end AflNv.Lib.Threshold
