import Mathlib.Data.List.Basic

/-!
# Parsers that go through lines

A parser folds a step over the numbered lines of a file.  Its state holds a
verdict, a list of diagnostics and a *core*: what it has collected, and all that
a later line depends on.

`Rules` is the specification of such a parser on a file that may hold anything.
A well-formed line acts on the core; any other line leaves the core as it is and
leaves a diagnostic that names it; a *hostile* line breaks this, because the step
fails on it or counts it.  `fold_wf` and `fold_diagnosed` are what a file without
hostile lines gives, and `records_fold` shows that a hostile line is never
harmless.
-/

namespace AflNv.Lib.LineParser

variable {ε σ α κ δ : Type*}

/-- What an observer sees of the state. -/
structure View (σ κ δ : Type*) where
  valid : σ → Bool
  diagnostics : σ → List δ
  core : σ → κ
  /-- The number of lines that were counted. -/
  records : κ → ℕ

/-- A bad verdict and the diagnostics stay. -/
def View.Extends (view : View σ κ δ) (st st' : σ) : Prop :=
  (view.valid st = false → view.valid st' = false) ∧ view.diagnostics st ⊆ view.diagnostics st'

theorem View.Extends.trans {view : View σ κ δ} {r s t : σ} (h : view.Extends r s)
    (h' : view.Extends s t) : view.Extends r t :=
  ⟨fun hr => h'.1 (h.1 hr), fun _ hd => h'.2 (h.2 hd)⟩

/-- The behaviour of a step on each kind of line; `names d n` holds when the diagnostic
`d` is about line `n`. -/
structure Rules (step : σ → α × ℕ → Except ε σ) (view : View σ κ δ) (names : δ → ℕ → Prop)
    (wf hostile : α → Prop) : Prop where
  accepts : ∀ {a}, wf a → ∃ g : κ → κ, ∀ st n, ∃ st', step st (a, n) = .ok st' ∧
    view.Extends st st' ∧ view.core st' = g (view.core st) ∧
      view.records (view.core st') = view.records (view.core st) + 1
  skips : ∀ {a}, ¬ wf a → ¬ hostile a → ∀ st n, ∃ st', step st (a, n) = .ok st' ∧
    view.Extends st st' ∧ view.core st' = view.core st ∧ view.valid st' = false ∧
      ∃ d ∈ view.diagnostics st', names d n
  disrupts : ∀ {a}, hostile a → ¬ wf a ∧ ((∀ st n, ∃ e, step st (a, n) = .error e) ∨
    ∀ st n, ∃ st', step st (a, n) = .ok st' ∧ view.Extends st st' ∧
      view.records (view.core st') = view.records (view.core st) + 1)

/-- The step over the numbered lines, from the number `n` on. -/
def fold (step : σ → α × ℕ → Except ε σ) (n : ℕ) (lines : List α) (st : σ) : Except ε σ :=
  (lines.zipIdx n).foldlM step st

section Fold

variable {step : σ → α × ℕ → Except ε σ}

@[simp] theorem fold_nil (n : ℕ) (st : σ) : fold step n [] st = .ok st := rfl

theorem fold_cons (n : ℕ) (a : α) (lines : List α) (st : σ) :
    fold step n (a :: lines) st = step st (a, n) >>= fold step (n + 1) lines := rfl

/-- A fold that returns: its first step returned, and the rest from there. -/
theorem fold_cons_ok {n : ℕ} {a : α} {lines : List α} {st final : σ}
    (h : fold step n (a :: lines) st = .ok final) :
    ∃ st', step st (a, n) = .ok st' ∧ fold step (n + 1) lines st' = .ok final := by
  rw [fold_cons] at h
  cases hs : step st (a, n) with
  | error e =>
    rw [hs] at h
    exact absurd h (by simp [bind, Except.bind])
  | ok st' =>
    rw [hs] at h
    exact ⟨st', rfl, h⟩

theorem fold_cons_of_ok {n : ℕ} {a : α} {lines : List α} {st st' : σ}
    (h : step st (a, n) = .ok st') :
    fold step n (a :: lines) st = fold step (n + 1) lines st' := by
  rw [fold_cons, h]
  rfl

end Fold

section Rules

variable {step : σ → α × ℕ → Except ε σ} {view : View σ κ δ} {names : δ → ℕ → Prop}
  {wf hostile : α → Prop} (R : Rules step view names wf hostile)

include R

/-- A step that returns from a hostile line counted it. -/
theorem Rules.disrupts_ok {a : α} (h : hostile a) {st st' : σ} {n : ℕ}
    (hstep : step st (a, n) = .ok st') :
    view.Extends st st' ∧ view.records (view.core st') = view.records (view.core st) + 1 := by
  rcases (R.disrupts h).2 with herr | hok
  · obtain ⟨e, he⟩ := herr st n
    rw [hstep] at he
    exact absurd he (by simp)
  · obtain ⟨st'', hstep', hrest⟩ := hok st n
    rw [hstep] at hstep'
    obtain rfl := Except.ok.inj hstep'
    exact hrest

theorem Rules.step_extends {a : α} {st st' : σ} {n : ℕ} (hstep : step st (a, n) = .ok st') :
    view.Extends st st' := by
  by_cases hhostile : hostile a
  · exact (R.disrupts_ok hhostile hstep).1
  by_cases hwf : wf a
  · obtain ⟨g, hg⟩ := R.accepts hwf
    obtain ⟨st'', hstep', hext, -⟩ := hg st n
    rw [hstep] at hstep'
    obtain rfl := Except.ok.inj hstep'
    exact hext
  · obtain ⟨st'', hstep', hext, -⟩ := R.skips hwf hhostile st n
    rw [hstep] at hstep'
    obtain rfl := Except.ok.inj hstep'
    exact hext

/-- A fold keeps a bad verdict and every diagnostic. -/
theorem Rules.fold_extends {n : ℕ} {lines : List α} {st final : σ}
    (h : fold step n lines st = .ok final) : view.Extends st final := by
  induction lines generalizing n st with
  | nil =>
    cases h
    exact ⟨id, List.Subset.refl _⟩
  | cons a lines ih =>
    obtain ⟨st', hstep, hrest⟩ := fold_cons_ok h
    exact (R.step_extends hstep).trans (ih hrest)

/-- Without hostile lines, the fold returns, and its core is that of the well-formed
lines alone. -/
theorem Rules.fold_wf [DecidablePred wf] {lines : List α} (h : ∀ a ∈ lines, ¬ hostile a)
    (n m : ℕ) {st other : σ} (hcore : view.core st = view.core other) :
    ∃ final kept, fold step n lines st = .ok final ∧
      fold step m (lines.filter wf) other = .ok kept ∧ view.core final = view.core kept := by
  induction lines generalizing n m st other with
  | nil => exact ⟨st, other, rfl, rfl, hcore⟩
  | cons a lines ih =>
    rw [List.forall_mem_cons] at h
    by_cases hwf : wf a
    · obtain ⟨g, hg⟩ := R.accepts hwf
      obtain ⟨st', hstep, -, hst', -⟩ := hg st n
      obtain ⟨other', hstep', -, hother', -⟩ := hg other m
      have hnext : view.core st' = view.core other' := by rw [hst', hother', hcore]
      rw [List.filter_cons_of_pos (by simpa using hwf), fold_cons_of_ok hstep,
        fold_cons_of_ok hstep']
      exact ih h.2 (n + 1) (m + 1) hnext
    · obtain ⟨st', hstep, -, hst', -⟩ := R.skips hwf h.1 st n
      rw [List.filter_cons_of_neg (by simpa using hwf), fold_cons_of_ok hstep]
      exact ih h.2 (n + 1) m (hst'.trans hcore)

/-- Without hostile lines, every line that is not well formed leaves a diagnostic. -/
theorem Rules.fold_diagnosed {lines : List α} (h : ∀ a ∈ lines, ¬ hostile a) {n : ℕ} {st final : σ}
    (hfold : fold step n lines st = .ok final) {i : ℕ} {a : α} (hget : lines[i]? = some a)
    (hwf : ¬ wf a) :
    view.valid final = false ∧ ∃ d ∈ view.diagnostics final, names d (n + i) := by
  induction lines generalizing n st i with
  | nil => simp at hget
  | cons b lines ih =>
    rw [List.forall_mem_cons] at h
    obtain ⟨st', hstep, hrest⟩ := fold_cons_ok hfold
    cases i with
    | zero =>
      obtain rfl : b = a := by simpa using hget
      obtain ⟨st'', hstep', -, -, hvalid, d, hd, hname⟩ := R.skips hwf h.1 st n
      obtain rfl : st' = st'' := by
        rw [hstep] at hstep'
        exact Except.ok.inj hstep'
      obtain ⟨hkeep, hsub⟩ := R.fold_extends hrest
      exact ⟨hkeep hvalid, d, hsub hd, hname⟩
    | succ i =>
      rw [List.getElem?_cons_succ] at hget
      have hi := ih h.2 hrest hget
      rwa [show n + 1 + i = n + (i + 1) by omega] at hi

/-- A fold that returns counted the well-formed and the hostile lines. -/
theorem Rules.records_fold [DecidablePred wf] [DecidablePred hostile] {lines : List α} {n : ℕ}
    {st final : σ} (h : fold step n lines st = .ok final) :
    view.records (view.core final) =
      view.records (view.core st) + lines.countP (fun a => wf a) +
        lines.countP fun a => hostile a := by
  induction lines generalizing n st with
  | nil =>
    cases h
    simp
  | cons a lines ih =>
    obtain ⟨st', hstep, hrest⟩ := fold_cons_ok h
    have hlines := ih hrest
    rw [List.countP_cons, List.countP_cons]
    by_cases hhostile : hostile a
    · have hwf := (R.disrupts hhostile).1
      have hrec := (R.disrupts_ok hhostile hstep).2
      simp only [hhostile, hwf, decide_true, decide_false, Bool.false_eq_true, if_true, if_false]
      omega
    · by_cases hwf : wf a
      · obtain ⟨g, hg⟩ := R.accepts hwf
        obtain ⟨st'', hstep', -, -, hrec⟩ := hg st n
        rw [hstep] at hstep'
        obtain rfl := Except.ok.inj hstep'
        simp only [hhostile, hwf, decide_true, decide_false, Bool.false_eq_true, if_true, if_false]
        omega
      · obtain ⟨st'', hstep', -, hcore, -⟩ := R.skips hwf hhostile st n
        rw [hstep] at hstep'
        obtain rfl := Except.ok.inj hstep'
        rw [hcore] at hlines
        simp only [hhostile, hwf, decide_false, Bool.false_eq_true, if_false]
        omega

/-- When the core of a file is the core of its well-formed lines, no line was
hostile. -/
theorem Rules.not_hostile [DecidablePred wf] {lines : List α} {n m : ℕ} {st other final kept : σ}
    (hfold : fold step n lines st = .ok final)
    (hkept : fold step m (lines.filter wf) other = .ok kept)
    (hstart : view.records (view.core st) = view.records (view.core other))
    (hcore : view.records (view.core final) = view.records (view.core kept)) :
    ∀ a ∈ lines, ¬ hostile a := by
  classical
  have hall := R.records_fold hfold
  have hwf := R.records_fold hkept
  have hle : (lines.filter wf).countP (fun a => wf a) = lines.countP fun a => wf a := by
    rw [List.countP_eq_length_filter, List.filter_filter, List.countP_eq_length_filter]
    simp
  have hkeptHostile : (lines.filter wf).countP (fun a => hostile a) = 0 := by
    rw [List.countP_eq_zero]
    intro a ha
    have hwf : wf a := by simpa using (List.mem_filter.mp ha).2
    simpa using fun h => (R.disrupts h).1 hwf
  have hzero : lines.countP (fun a => hostile a) = 0 := by omega
  intro a ha hhostile
  exact absurd (List.countP_eq_zero.mp hzero a ha) (by simpa using hhostile)

end Rules

end AflNv.Lib.LineParser
