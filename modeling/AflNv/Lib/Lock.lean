import Mathlib.Tactic.Common

/-!
# A lock that its owner cannot take twice

What one thread does to such a lock is a list of operations.  A thread that asks for
the lock while it holds it waits for itself, and that is the only way in which it
never gets the lock when the other threads give it back.  `exec` runs the operations
of a thread; `exec_guarded_eq_none` says when a block under the lock waits for itself.
-/

namespace AflNv.Lib.Lock

inductive Op where
  | acquire
  | release
  deriving DecidableEq

/-- Run the operations of a thread that holds the lock or not; `none` when it waits
for itself. -/
def exec : Bool → List Op → Option Bool
  | held, [] => some held
  | true, .acquire :: _ => none
  | false, .acquire :: ops => exec true ops
  | _, .release :: ops => exec false ops

/-- A block under the lock. -/
def guarded (ops : List Op) : List Op := .acquire :: (ops ++ [.release])

theorem exec_append (held : Bool) (ops more : List Op) :
    exec held (ops ++ more) = (exec held ops).bind fun held => exec held more := by
  induction ops generalizing held with
  | nil => rfl
  | cons op ops ih =>
    cases op with
    | acquire =>
      cases held with
      | true => rfl
      | false => exact ih true
    | release => cases held <;> exact ih false

/-- A block under the lock waits for itself exactly when what is inside does. -/
theorem exec_guarded_eq_none (ops : List Op) : exec false (guarded ops) = none ↔ exec true ops = none := by
  show exec true (ops ++ [.release]) = none ↔ _
  rw [exec_append]
  cases exec true ops with
  | none => exact iff_of_true rfl rfl
  | some held => cases held <;> exact iff_of_false (by simp [exec]) (by simp)

/-- A block under the lock that does without it inside. -/
theorem exec_guarded_nil : exec false (guarded []) = some false := rfl

/-- A loop that takes the lock in its body, under the lock, waits for itself unless the
body never runs. -/
theorem exec_guarded_loop {α : Type*} (l : List α) :
    exec false (guarded (l.flatMap fun _ => guarded [])) = none ↔ l ≠ [] := by
  rw [exec_guarded_eq_none]
  cases l with
  | nil => exact iff_of_false (by simp [exec]) (by simp)
  | cons a l => exact iff_of_true rfl (by simp)

end AflNv.Lib.Lock
