import Mathlib.Tactic.Common

/-!
# Runs of a deterministic machine with outputs

A machine is a function `step : σ → ε → ο × σ`: it takes a state and an
event, and returns an output and the next state.  The result comes first,
as it does for a C function that returns a value and changes the state its
arguments point to.  Everything the environment decides (the answer of a
call, the content of a file) is part of the event.

* `run` is the state after a list of events, `outs` the list of outputs.
* `run_inv` packages the induction over a run, and `run_inv_of_meets` the
  induction over a run whose steps all meet a condition.
* `stateAt` follows an infinite stream of events.
-/

namespace AflNv.Lib.Machine

variable {σ ε ο : Type*}

section Runs

variable (step : σ → ε → ο × σ)

/-- The state after a list of events. -/
def run (s : σ) (es : List ε) : σ :=
  es.foldl (fun s e => (step s e).2) s

/-- The outputs of a list of events, in order. -/
def outs (s : σ) : List ε → List ο
  | [] => []
  | e :: es => (step s e).1 :: outs (step s e).2 es

@[simp] theorem run_nil (s : σ) : run step s [] = s := rfl

@[simp] theorem run_cons (s : σ) (e : ε) (es : List ε) :
    run step s (e :: es) = run step (step s e).2 es := rfl

theorem run_append (s : σ) (es fs : List ε) :
    run step s (es ++ fs) = run step (run step s es) fs := by
  rw [run, List.foldl_append]
  rfl

theorem run_concat (s : σ) (es : List ε) (e : ε) :
    run step s (es ++ [e]) = (step (run step s es) e).2 := by
  rw [run_append]
  rfl

@[simp] theorem outs_nil (s : σ) : outs step s [] = [] := rfl

@[simp] theorem outs_cons (s : σ) (e : ε) (es : List ε) :
    outs step s (e :: es) = (step s e).1 :: outs step (step s e).2 es := rfl

theorem outs_append (s : σ) (es fs : List ε) :
    outs step s (es ++ fs) = outs step s es ++ outs step (run step s es) fs := by
  induction es generalizing s with
  | nil => rfl
  | cons e es ih => rw [List.cons_append, outs_cons, outs_cons, ih, run_cons, List.cons_append]

theorem outs_concat (s : σ) (es : List ε) (e : ε) :
    outs step s (es ++ [e]) = outs step s es ++ [(step (run step s es) e).1] := by
  rw [outs_append]
  rfl

theorem length_outs (s : σ) (es : List ε) : (outs step s es).length = es.length := by
  induction es generalizing s with
  | nil => rfl
  | cons e es ih => rw [outs_cons, List.length_cons, ih, List.length_cons]

/-- An invariant of the step is an invariant of the run. -/
theorem run_inv (Inv : σ → Prop) (hstep : ∀ s e, Inv s → Inv (step s e).2)
    {s : σ} (h0 : Inv s) (es : List ε) : Inv (run step s es) := by
  induction es generalizing s with
  | nil => exact h0
  | cons e es ih => exact ih (hstep s e h0)

/-- Every step of the run meets `G`, a condition on the state before the
step and on the event. -/
def Meets (G : σ → ε → Prop) (s : σ) : List ε → Prop
  | [] => True
  | e :: es => G s e ∧ Meets G (step s e).2 es

instance decMeets (G : σ → ε → Prop) [∀ s e, Decidable (G s e)] (s : σ) :
    (es : List ε) → Decidable (Meets step G s es)
  | [] => inferInstanceAs (Decidable True)
  | e :: es => @instDecidableAnd _ _ _ (decMeets G (step s e).2 es)

theorem meets_concat (G : σ → ε → Prop) (s : σ) (es : List ε) (e : ε) :
    Meets step G s (es ++ [e]) ↔ Meets step G s es ∧ G (run step s es) e := by
  induction es generalizing s with
  | nil => simp [Meets]
  | cons f es ih =>
    rw [List.cons_append, Meets, Meets, ih, run_cons, and_assoc]

theorem meets_append {step : σ → ε → ο × σ} {G : σ → ε → Prop} {s : σ} {es fs : List ε} :
    Meets step G s (es ++ fs) ↔ Meets step G s es ∧ Meets step G (run step s es) fs := by
  induction es generalizing s with
  | nil => simp [Meets]
  | cons e es ih => rw [List.cons_append, Meets, Meets, ih, run_cons, and_assoc]

/-- A condition on the steps with one on the events. -/
theorem meets_and_forall {step : σ → ε → ο × σ} {G : σ → ε → Prop} {H : ε → Prop} {s : σ}
    {es : List ε} :
    Meets step (fun s e => G s e ∧ H e) s es ↔ Meets step G s es ∧ ∀ e ∈ es, H e := by
  induction es generalizing s with
  | nil => simp [Meets]
  | cons e es ih =>
    rw [Meets, Meets, ih, List.forall_mem_cons]
    exact and_and_and_comm

/-- An invariant that every step meeting `G` keeps holds at the end of every
run whose steps all meet `G`. -/
theorem run_inv_of_meets (G : σ → ε → Prop) (Inv : σ → Prop)
    (hstep : ∀ s e, Inv s → G s e → Inv (step s e).2) {s : σ} (h0 : Inv s)
    {es : List ε} (hG : Meets step G s es) : Inv (run step s es) := by
  induction es generalizing s with
  | nil => exact h0
  | cons e es ih => exact ih (hstep s e h0 hG.1) hG.2

/-- What every step meeting `G` puts out, along with the invariant. -/
theorem outs_of_meets (G : σ → ε → Prop) (Inv : σ → Prop) {P : ο → Prop}
    (hstep : ∀ s e, Inv s → G s e → Inv (step s e).2 ∧ P (step s e).1) {s : σ} (h0 : Inv s)
    {es : List ε} (hG : Meets step G s es) : ∀ o ∈ outs step s es, P o := by
  induction es generalizing s with
  | nil => exact fun o ho => absurd ho List.not_mem_nil
  | cons e es ih =>
    obtain ⟨hnext, hout⟩ := hstep s e h0 hG.1
    rw [outs_cons, List.forall_mem_cons]
    exact ⟨hout, ih hnext hG.2⟩

/-- A condition that every step meeting `G` meets, along with the invariant. -/
theorem meets_of_meets (G H : σ → ε → Prop) (Inv : σ → Prop)
    (hstep : ∀ s e, Inv s → G s e → H s e ∧ Inv (step s e).2) {s : σ} (h0 : Inv s)
    {es : List ε} (hG : Meets step G s es) : Meets step H s es := by
  induction es generalizing s with
  | nil => trivial
  | cons e es ih =>
    obtain ⟨hhere, hnext⟩ := hstep s e h0 hG.1
    exact ⟨hhere, ih hnext hG.2⟩

/-- Along an invariant, two conditions on the steps may be exchanged. -/
theorem meets_congr (G H : σ → ε → Prop) (Inv : σ → Prop)
    (hGH : ∀ s e, Inv s → (H s e ↔ G s e))
    (hstep : ∀ s e, Inv s → G s e → Inv (step s e).2) {s : σ} (h0 : Inv s) (es : List ε) :
    Meets step H s es ↔ Meets step G s es := by
  induction es generalizing s with
  | nil => exact Iff.rfl
  | cons e es ih =>
    rw [Meets, Meets, hGH s e h0]
    exact and_congr_right fun hG => ih (hstep s e h0 hG)

/-- When `G` says exactly which steps keep a property, the property holds all along
the runs whose steps meet `G`, and along no others. -/
theorem forall_prefix_iff_meets (G : σ → ε → Prop) {Inv A : σ → Prop} (hA : ∀ s, Inv s → A s)
    (hstep : ∀ s e, Inv s → G s e → Inv (step s e).2)
    (hback : ∀ s e, Inv s → A (step s e).2 → G s e) {s : σ} (h0 : Inv s) (es : List ε) :
    (∀ p, p <+: es → A (run step s p)) ↔ Meets step G s es := by
  induction es generalizing s with
  | nil =>
    refine iff_of_true (fun p hp => ?_) trivial
    rw [List.prefix_nil.mp hp]
    exact hA s h0
  | cons e es ih =>
    constructor
    · intro h
      have hG : G s e := hback s e h0 (h [e] (by simp))
      refine ⟨hG, (ih (hstep s e h0 hG)).mp fun p hp => ?_⟩
      exact h (e :: p) (List.cons_prefix_cons.mpr ⟨rfl, hp⟩)
    · rintro ⟨hG, hmeets⟩ p hp
      cases p with
      | nil => exact hA s h0
      | cons f p =>
        obtain ⟨rfl, hrest⟩ := List.cons_prefix_cons.mp hp
        exact (ih (hstep s f h0 hG)).mpr hmeets p hrest

/-- An invariant that every event meeting `G` keeps holds at the end of every
run whose events all meet `G`. -/
theorem run_inv_of_forall (G : ε → Prop) (Inv : σ → Prop)
    (hstep : ∀ s e, Inv s → G e → Inv (step s e).2) {s : σ} (h0 : Inv s)
    {es : List ε} (hG : ∀ e ∈ es, G e) : Inv (run step s es) := by
  induction es generalizing s with
  | nil => exact h0
  | cons e es ih =>
    rw [List.forall_mem_cons] at hG
    exact ih (hstep s e h0 hG.1) hG.2

end Runs

section Streams

variable (step : σ → ε → ο × σ)

/-- The state before event `n` of an infinite stream. -/
def stateAt (s : σ) (f : ℕ → ε) : ℕ → σ
  | 0 => s
  | n + 1 => (step (stateAt s f n) (f n)).2

@[simp] theorem stateAt_zero (s : σ) (f : ℕ → ε) : stateAt step s f 0 = s := rfl

theorem stateAt_succ (s : σ) (f : ℕ → ε) (n : ℕ) :
    stateAt step s f (n + 1) = (step (stateAt step s f n) (f n)).2 := rfl

end Streams

end AflNv.Lib.Machine
