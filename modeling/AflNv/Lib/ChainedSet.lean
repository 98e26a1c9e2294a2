import Mathlib.Data.List.Basic

/-!
# A set in chained buckets

A table of chains and a hash function, with one operation: look an element up in the chain of its
bucket and, where it is missing, put it in front of that chain.

* `mem_searchAndAdd` says what an operation does to the set that the table stands for.
* `answers_getElem?` says what a sequence of operations answers: an operation finds its element
  exactly when the table held it at first or an earlier operation brought it.
-/

namespace AflNv.Lib.ChainedSet

variable {α : Type*} {n : ℕ} (hash : α → Fin n)

/-- The chains of the buckets. -/
abbrev Table (α : Type*) (n : ℕ) := Vector (List α) n

/-- All chains are empty. -/
def Table.empty (α : Type*) (n : ℕ) : Table α n := Vector.replicate n []

/-- The table holds `a`: its own chain does. -/
def Mem (t : Table α n) (a : α) : Prop := a ∈ t[hash a]

theorem not_mem_empty (a : α) : ¬ Mem hash (Table.empty α n) a := by
  unfold Mem Table.empty
  simp

variable [DecidableEq α]

instance (t : Table α n) (a : α) : Decidable (Mem hash t a) :=
  inferInstanceAs (Decidable (a ∈ t[hash a]))

/-- Look `a` up, and put it in front of its chain where it is missing. -/
def searchAndAdd (t : Table α n) (a : α) : Bool × Table α n :=
  if a ∈ t[hash a] then (true, t) else (false, t.set (hash a) (a :: t[hash a]))

theorem searchAndAdd_fst (t : Table α n) (a : α) :
    (searchAndAdd hash t a).1 = decide (Mem hash t a) := by
  unfold searchAndAdd
  split_ifs with h
  · exact (decide_eq_true h).symm
  · exact (decide_eq_false h).symm

theorem mem_searchAndAdd (t : Table α n) (a b : α) :
    Mem hash (searchAndAdd hash t a).2 b ↔ b = a ∨ Mem hash t b := by
  unfold searchAndAdd
  split_ifs with h
  · constructor
    · exact .inr
    · rintro (rfl | hb)
      · exact h
      · exact hb
  · unfold Mem
    by_cases hab : hash a = hash b
    · simp only [hab, Fin.getElem_fin, Vector.getElem_set_self, List.mem_cons]
    · have hne : (hash a).val ≠ (hash b).val := fun he => hab (Fin.ext he)
      have hba : b ≠ a := fun he => hab (by rw [he])
      simp only [Fin.getElem_fin, Vector.getElem_set_ne _ _ hne, hba, false_or]

/-- What the operations on the elements of `l`, one after the other, answer. -/
def answers : Table α n → List α → List Bool
  | _, [] => []
  | t, a :: l => (searchAndAdd hash t a).1 :: answers (searchAndAdd hash t a).2 l

theorem answers_getElem? (t : Table α n) (l : List α) (i : ℕ) :
    (answers hash t l)[i]? = l[i]?.map fun a => decide (a ∈ l.take i ∨ Mem hash t a) := by
  induction l generalizing t i with
  | nil => rfl
  | cons a l ih =>
    cases i with
    | zero => simp [answers, searchAndAdd_fst]
    | succ i =>
      rw [answers, List.getElem?_cons_succ, List.getElem?_cons_succ, ih]
      congr 1
      funext b
      rw [decide_eq_decide, mem_searchAndAdd, List.take_succ_cons, List.mem_cons]
      tauto

end AflNv.Lib.ChainedSet
