import Mathlib.Tactic.Common

/-!
# Append-only logs of delimited lines

A log is a list of symbols that only grows.  A line is a run of symbols that
ends with the delimiter and holds no other one; a writer that stops early
leaves a tail without a delimiter.

* `firstLine` is what `getline` returns at the current position: the symbols
  up to and including the first delimiter, or the tail when there is none.
* `splitLines` cuts a log into its lines.  `splitLines_flatten` reads back the
  lines that were appended.
-/

namespace AflNv.Lib.ByteLog

variable {α : Type*}

/-- One complete line: its only delimiter is its last symbol. -/
def IsLine (delim : α) (l : List α) : Prop :=
  ∃ body, l = body ++ [delim] ∧ delim ∉ body

theorem IsLine.ne_nil {delim : α} {l : List α} (h : IsLine delim l) : l ≠ [] := by
  obtain ⟨body, rfl, _⟩ := h
  simp

theorem IsLine.length_pos {delim : α} {l : List α} (h : IsLine delim l) : 0 < l.length :=
  List.length_pos_iff.mpr h.ne_nil

theorem IsLine.getLast? {delim : α} {l : List α} (h : IsLine delim l) :
    l.getLast? = some delim := by
  obtain ⟨body, rfl, _⟩ := h
  simp

/-- A line that is cut short has no delimiter. -/
theorem IsLine.notMem_take {delim : α} {l : List α} (h : IsLine delim l) {n : ℕ}
    (hn : n < l.length) : delim ∉ l.take n := by
  obtain ⟨body, rfl, hbody⟩ := h
  rw [List.length_append, List.length_singleton] at hn
  rw [List.take_append_of_le_length (by omega)]
  exact fun hmem => hbody (List.mem_of_mem_take hmem)

/-- A line starts with its delimiter, or goes on with a shorter line. -/
theorem IsLine.cases {delim a : α} {l : List α} (h : IsLine delim (a :: l)) :
    a = delim ∧ l = [] ∨ a ≠ delim ∧ IsLine delim l := by
  obtain ⟨body, heq, hbody⟩ := h
  cases body with
  | nil => simp_all
  | cons b body =>
    rw [List.cons_append, List.cons.injEq] at heq
    rw [List.mem_cons, not_or] at hbody
    obtain ⟨rfl, rfl⟩ := heq
    exact .inr ⟨Ne.symm hbody.1, body, rfl, hbody.2⟩

section Reading

variable [DecidableEq α] (delim : α)

/-- The symbols up to and including the first delimiter. -/
def firstLine : List α → List α
  | [] => []
  | a :: as => if a = delim then [a] else a :: firstLine as

/-- The lines of a log; the last one may lack its delimiter. -/
def splitLines : List α → List (List α)
  | [] => []
  | a :: as =>
    if a = delim then [a] :: splitLines as
    else match splitLines as with
      | [] => [[a]]
      | l :: ls => (a :: l) :: ls

variable {delim}

theorem firstLine_append {l : List α} (h : IsLine delim l) (rest : List α) :
    firstLine delim (l ++ rest) = l := by
  induction l with
  | nil => exact absurd rfl h.ne_nil
  | cons a l ih =>
    rcases h.cases with ⟨rfl, rfl⟩ | ⟨hne, hl⟩
    · simp [firstLine]
    · rw [List.cons_append, firstLine, if_neg hne, ih hl]

theorem firstLine_of_notMem {l : List α} (h : delim ∉ l) : firstLine delim l = l := by
  induction l with
  | nil => rfl
  | cons a l ih =>
    rw [List.mem_cons, not_or] at h
    rw [firstLine, if_neg (Ne.symm h.1), ih h.2]

theorem splitLines_append {l : List α} (h : IsLine delim l) (rest : List α) :
    splitLines delim (l ++ rest) = l :: splitLines delim rest := by
  induction l with
  | nil => exact absurd rfl h.ne_nil
  | cons a l ih =>
    rcases h.cases with ⟨rfl, rfl⟩ | ⟨hne, hl⟩
    · simp [splitLines]
    · rw [List.cons_append, splitLines, if_neg hne, ih hl]

/-- Reading back a log that was written line by line. -/
theorem splitLines_flatten {ls : List (List α)} (h : ∀ l ∈ ls, IsLine delim l) :
    splitLines delim ls.flatten = ls := by
  induction ls with
  | nil => rfl
  | cons l ls ih =>
    rw [List.forall_mem_cons] at h
    rw [List.flatten_cons, splitLines_append h.1, ih h.2]

end Reading

end AflNv.Lib.ByteLog
