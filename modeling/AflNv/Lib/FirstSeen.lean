import Mathlib.Data.List.Find
import Mathlib.Data.List.Nodup

/-!
# First occurrences

The list that keeps of every group of elements with one key the first.  `List.eraseDupsBy` computes
it; this module says what the result is.

* `firsts_sublist`, `find?_of_mem_firsts` and `map_firsts` relate it to the list and to its keys.
* `nodup_eraseDups` says that no key comes twice.
-/

namespace AflNv.Lib.FirstSeen

variable {α κ : Type*} [DecidableEq κ]

/-- The elements whose key no earlier element has. -/
def firsts (key : α → κ) (l : List α) : List α := l.eraseDupsBy fun a b => key a == key b

/-- Induction along the lists that `firsts` goes through. -/
theorem filter_induction {motive : List α → Prop} (nil : motive [])
    (cons : ∀ a rest, (∀ p : α → Bool, motive (rest.filter p)) → motive (a :: rest))
    (l : List α) : motive l := by
  induction hn : l.length using Nat.strongRecOn generalizing l with
  | _ n ih =>
    cases l with
    | nil => exact nil
    | cons a rest =>
      apply cons
      intro p
      have hle : (rest.filter p).length ≤ rest.length := List.length_filter_le p rest
      rw [List.length_cons] at hn
      exact ih _ (by omega) _ rfl

@[simp] theorem firsts_nil (key : α → κ) : firsts key [] = [] := rfl

theorem firsts_cons (key : α → κ) (a : α) (rest : List α) :
    firsts key (a :: rest) = a :: firsts key (rest.filter fun b => decide (key b ≠ key a)) := by
  unfold firsts
  rw [List.eraseDupsBy_cons]
  congr 2
  apply List.filter_congr
  intro b _
  by_cases h : key b = key a <;> simp [h]

theorem firsts_of_length_le_one (key : α → κ) {l : List α} (h : l.length ≤ 1) :
    firsts key l = l := by
  match l with
  | [] => rfl
  | [a] => rfl
  | a :: b :: rest =>
    simp only [List.length_cons] at h
    omega

theorem firsts_sublist (key : α → κ) (l : List α) : (firsts key l).Sublist l := by
  induction l using filter_induction with
  | nil => exact List.Sublist.refl _
  | cons a rest ih =>
    rw [firsts_cons]
    exact ((ih _).trans List.filter_sublist).cons_cons a

/-- An element stays exactly when it is the first of its key. -/
theorem find?_of_mem_firsts {key : α → κ} {l : List α} {a : α} (h : a ∈ firsts key l) :
    l.find? (fun b => decide (key b = key a)) = some a := by
  induction l using filter_induction with
  | nil => simp at h
  | cons b rest ih =>
    rw [firsts_cons, List.mem_cons] at h
    rcases h with rfl | h
    · simp
    · have hmem := (firsts_sublist key _).subset h
      have hne : key a ≠ key b := by
        have := (List.mem_filter.mp hmem).2
        simpa using this
      have hfound := ih _ h
      rw [List.find?_filter] at hfound
      rw [List.find?_cons_of_neg (by simpa using fun he => hne he.symm)]
      rw [← hfound]
      apply List.find?_congr
      intro c _
      by_cases hc : key c = key a <;> simp [hc, hne]

theorem map_firsts [BEq κ] [LawfulBEq κ] (key : α → κ) (l : List α) :
    (firsts key l).map key = (l.map key).eraseDups := by
  induction l using filter_induction with
  | nil => rfl
  | cons a rest ih =>
    rw [firsts_cons, List.map_cons, ih, List.map_cons, List.eraseDups_cons, List.filter_map]
    congr 3
    apply List.filter_congr
    intro b _
    by_cases h : key b = key a <;> simp [h]

theorem nodup_eraseDups {α : Type*} [BEq α] [LawfulBEq α] (l : List α) : l.eraseDups.Nodup := by
  induction l using filter_induction with
  | nil => exact List.nodup_nil
  | cons a rest ih =>
    rw [List.eraseDups_cons, List.nodup_cons, List.mem_eraseDups]
    refine ⟨?_, ih _⟩
    intro h
    have := (List.mem_filter.mp h).2
    simp at this

end AflNv.Lib.FirstSeen
