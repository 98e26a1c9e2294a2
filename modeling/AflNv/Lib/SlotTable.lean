import Mathlib.Algebra.BigOperators.Group.List.Basic
import Mathlib.Algebra.GroupWithZero.Nat

/-!
# Tables of slots

A table is a list of slots, each empty or with a value.  Positions behind the
end read as empty.

* `slot` reads a position, `firstFree` is the first empty one from a position on,
  and `resize` changes the number of slots.
* `countP_set_add`, `count_set_add` and `sum_map_set_add` follow counts and sums
  when one position is overwritten.
-/

namespace AflNv.Lib.SlotTable

variable {α β : Type*}

section Lists

theorem countP_set_add (p : α → Bool) {l : List α} {i : ℕ} {x : α} (hx : l[i]? = some x)
    (a : α) : (l.set i a).countP p + (p x).toNat = l.countP p + (p a).toNat := by
  induction l generalizing i with
  | nil => simp at hx
  | cons y l ih =>
    cases i with
    | zero =>
      obtain rfl : y = x := by simpa using hx
      rw [List.set_cons_zero, List.countP_cons, List.countP_cons]
      cases p y <;> cases p a <;> simp
    | succ i =>
      have hrest := ih (i := i) (by simpa using hx)
      rw [List.set_cons_succ, List.countP_cons, List.countP_cons]
      omega

theorem count_set_add [BEq α] [LawfulBEq α] [DecidableEq α] {l : List α} {i : ℕ} {x : α}
    (hx : l[i]? = some x) (a b : α) :
    (l.set i a).count b + (if x = b then 1 else 0) = l.count b + if a = b then 1 else 0 := by
  have h := countP_set_add (fun y => y == b) hx a
  have hbit (c : α) : (c == b).toNat = if c = b then 1 else 0 := by
    by_cases hc : c = b <;> simp [hc]
  rwa [hbit, hbit] at h

theorem sum_map_set_add (f : α → ℕ) {l : List α} {i : ℕ} {x : α} (hx : l[i]? = some x)
    (a : α) : ((l.set i a).map f).sum + f x = (l.map f).sum + f a := by
  induction l generalizing i with
  | nil => simp at hx
  | cons y l ih =>
    cases i with
    | zero =>
      obtain rfl : y = x := by simpa using hx
      rw [List.set_cons_zero, List.map_cons, List.map_cons, List.sum_cons, List.sum_cons]
      omega
    | succ i =>
      have hrest := ih (i := i) (by simpa using hx)
      rw [List.set_cons_succ, List.map_cons, List.map_cons, List.sum_cons, List.sum_cons]
      omega

end Lists

/-- The value at a position. -/
def slot (t : List (Option α)) (i : ℕ) : Option α := t.getD i none

/-- The first empty position from `i` on. -/
def firstFree (t : List (Option α)) (i : ℕ) : ℕ := i + (t.drop i).findIdx Option.isNone

/-- Change the number of slots. -/
def resize (t : List (Option α)) (n : ℕ) : List (Option α) :=
  t.take n ++ List.replicate (n - t.length) none

theorem slot_eq_some {t : List (Option α)} {i : ℕ} {a : α} :
    slot t i = some a ↔ t[i]? = some (some a) := by
  rw [slot, List.getD_eq_getElem?_getD]
  cases t[i]? <;> simp

theorem slot_of_lt {t : List (Option α)} {i : ℕ} (hi : i < t.length) :
    t[i]? = some (slot t i) := by
  rw [slot, List.getD_eq_getElem?_getD, List.getElem?_eq_getElem hi, Option.getD_some]

theorem lt_length_of_slot {t : List (Option α)} {i : ℕ} (h : (slot t i).isSome = true) :
    i < t.length := by
  by_contra hle
  rw [slot, List.getD_eq_getElem?_getD, List.getElem?_eq_none (Nat.le_of_not_lt hle)] at h
  simp at h

theorem slot_set {t : List (Option α)} {i : ℕ} (hi : i < t.length) (x : Option α) (j : ℕ) :
    slot (t.set i x) j = if i = j then x else slot t j := by
  rw [slot, slot, List.getD_eq_getElem?_getD, List.getD_eq_getElem?_getD, List.getElem?_set]
  split_ifs with hij
  · rfl
  · rfl

/-- The search finds an empty slot in front of any other. -/
theorem firstFree_spec {t : List (Option α)} {i j : ℕ} (hij : i ≤ j) (hj : j < t.length)
    (hfree : slot t j = none) :
    i ≤ firstFree t i ∧ firstFree t i ≤ j ∧ slot t (firstFree t i) = none := by
  have hlt : (t.drop i).findIdx Option.isNone < (t.drop i).length := by
    refine List.findIdx_lt_length_of_exists ⟨slot t j, ?_, by rw [hfree]; rfl⟩
    rw [List.mem_iff_getElem?]
    refine ⟨j - i, ?_⟩
    rw [List.getElem?_drop, show i + (j - i) = j by omega]
    exact slot_of_lt hj
  have hle : (t.drop i).findIdx Option.isNone ≤ j - i := by
    by_contra hgt
    have hnot := List.not_of_lt_findIdx
      (show j - i < (t.drop i).findIdx Option.isNone by omega)
    rw [List.getElem_drop] at hnot
    have hsome := slot_of_lt hj
    rw [List.getElem?_eq_getElem hj, hfree] at hsome
    simp only [show i + (j - i) = j by omega, Option.some.inj hsome] at hnot
    exact Bool.noConfusion hnot
  refine ⟨Nat.le_add_right _ _, by rw [firstFree]; omega, ?_⟩
  have hnone := List.findIdx_getElem (p := Option.isNone) (w := hlt)
  rw [List.getElem_drop, Option.isNone_iff_eq_none] at hnone
  rw [slot, List.getD_eq_getElem?_getD, firstFree,
    List.getElem?_eq_getElem (by rw [List.length_drop] at hlt; omega), hnone]
  rfl

/-- Fewer values than positions leave an empty one. -/
theorem exists_slot_none {t : List (Option α)} {n : ℕ} (hn : n ≤ t.length)
    (h : t.countP Option.isSome < n) : ∃ j < n, slot t j = none := by
  by_contra hall
  have hsome : ∀ x ∈ t.take n, Option.isSome x = true := by
    intro x hx
    obtain ⟨j, hj, rfl⟩ := List.mem_iff_getElem.mp hx
    rw [List.length_take] at hj
    have hne : slot t j ≠ none := fun h => hall ⟨j, by omega, h⟩
    have hget := slot_of_lt (t := t) (i := j) (by omega)
    rw [List.getElem?_eq_getElem (by omega), Option.some.injEq] at hget
    rw [List.getElem_take, hget]
    exact Option.isSome_iff_ne_none.mpr hne
  have hcount : (t.take n).countP Option.isSome = n := by
    rw [List.countP_eq_length.mpr hsome, List.length_take]
    omega
  have hle := (List.take_sublist n t).countP_le (p := Option.isSome)
  omega

section Resize

variable {t : List (Option α)} {n : ℕ} (h : ∀ j ≥ n, slot t j = none)
include h

/-- Positions that are cut off or added are empty. -/
theorem slot_resize (j : ℕ) : slot (resize t n) j = slot t j := by
  by_cases hj : j < n
  · by_cases hlen : j < t.length
    · have htake : j < (t.take n).length := by
        rw [List.length_take]
        omega
      rw [slot, slot, List.getD_eq_getElem?_getD, List.getD_eq_getElem?_getD, resize,
        List.getElem?_append_left htake, List.getElem?_take_of_lt hj]
    · have hnone : slot t j = none := by
        rw [slot, List.getD_eq_getElem?_getD, List.getElem?_eq_none (by omega)]
        rfl
      rw [hnone, slot, List.getD_eq_getElem?_getD, resize,
        List.getElem?_append_right (by rw [List.length_take]; omega), List.getElem?_replicate]
      split_ifs <;> rfl
  · rw [h j (by omega), slot, List.getD_eq_getElem?_getD, List.getElem?_eq_none]
    · rfl
    · rw [resize, List.length_append, List.length_take, List.length_replicate]
      omega

theorem countP_resize (p : Option α → Bool) (hp : p none = false) :
    (resize t n).countP p = t.countP p := by
  have hdrop : (t.drop n).countP p = 0 := by
    refine List.countP_eq_zero.mpr fun x hx => ?_
    obtain ⟨j, hj, rfl⟩ := List.mem_iff_getElem.mp hx
    rw [List.length_drop] at hj
    have hnone := h (n + j) (by omega)
    have hget := slot_of_lt (t := t) (i := n + j) (by omega)
    rw [List.getElem?_eq_getElem (by omega), Option.some.injEq, hnone] at hget
    rw [List.getElem_drop, hget, hp]
    exact Bool.false_ne_true
  have hreplicate : (List.replicate (n - t.length) (none : Option α)).countP p = 0 :=
    List.countP_eq_zero.mpr fun x hx => by
      rw [(List.mem_replicate.mp hx).2, hp]
      exact Bool.false_ne_true
  conv_rhs => rw [← List.take_append_drop n t, List.countP_append, hdrop]
  rw [resize, List.countP_append, hreplicate]

end Resize

end AflNv.Lib.SlotTable
