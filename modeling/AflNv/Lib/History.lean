import Mathlib.Data.List.Nodup

/-!
# The order of past events

A concurrent system keeps the order in which its parties passed a point as a list
without repetitions.  `behind l a` are those that passed it after `a`.  What one
party does next is compared with the parties on both sides of it
(`mem_behind_or_before`).
-/

namespace AflNv.Lib.History

variable {α : Type*} [DecidableEq α]

/-- The members behind the first `a`. -/
def behind (l : List α) (a : α) : List α := (l.dropWhile (· ≠ a)).tail

/-- Of two members one is behind the other. -/
theorem mem_behind_or_before {l : List α} {a b : α} (ha : a ∈ l) (hb : b ∈ l) (hne : b ≠ a) :
    b ∈ behind l a ∨ [b, a].Sublist l := by
  induction l with
  | nil => exact absurd ha List.not_mem_nil
  | cons c l ih =>
    rw [behind]
    by_cases hc : c = a
    · subst hc
      rw [List.dropWhile_cons, if_neg (by simp)]
      exact .inl ((List.mem_cons.mp hb).resolve_left hne)
    · rw [List.dropWhile_cons, if_pos (by simpa using hc)]
      have hal := (List.mem_cons.mp ha).resolve_left fun h => hc h.symm
      rcases List.mem_cons.mp hb with rfl | hbl
      · exact .inr (List.Sublist.cons_cons b (List.singleton_sublist.mpr hal))
      · rcases ih hal hbl with h | h
        · exact .inl h
        · exact .inr (h.cons c)

end AflNv.Lib.History
