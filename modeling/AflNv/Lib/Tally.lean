import AflNv.Lib.Machine
import Mathlib.Algebra.BigOperators.Group.List.Basic
import Mathlib.Tactic.Abel

/-!
# Tallies in a shared cell

Processes add amounts to a total that is kept in a shared cell, each amount in three steps: the
total is loaded from the cell, the cell is cleared, and the new total is put into it.  There is no
lock.  A process may start in the middle of an update of another one, and each of the steps may
fail.

* `step` is the machine, `Exclusive` the condition under which a step does no harm: nothing is
  loaded while another process is between its load and its put, and the step does not fail.
* `Inv` says what the cell and the processes hold in a run of such steps, and `run_inv` that they
  do.
* `Inv.load_cell`: where nobody is in the middle of an update, the cell holds the total that it held
  at first and all amounts.
-/

namespace AflNv.Lib.Tally

open AflNv.Lib.Machine

variable {ι α κ ν : Type*}

/-- Where a process is in an update, with the total that it is about to store. -/
inductive Point (ν : Type*) where
  | between
  | loaded (v : ν)
  | cleared (v : ν)

/-- A process, with the amounts that it has added and those that it has still to add. -/
structure Proc (ι α ν : Type*) where
  tag : ι
  done : List α
  todo : List α
  point : Point ν

/-- The process has begun an update and not ended it. -/
def Proc.Busy (p : Proc ι α ν) : Prop := p.point ≠ .between

/-- The process at another point. -/
def Proc.moved (p : Proc ι α ν) (point : Point ν) : Proc ι α ν := { p with point := point }

/-- The process behind its update. -/
def Proc.next (p : Proc ι α ν) : Proc ι α ν :=
  { p with done := p.done ++ p.todo.take 1, todo := p.todo.tail, point := .between }

structure World (ι α κ ν : Type*) where
  cell : κ
  procs : List (Proc ι α ν)

/-- Nobody is in the middle of an update. -/
def World.Quiet (w : World ι α κ ν) : Prop := ∀ p ∈ w.procs, ¬ p.Busy

/-- What is loaded from a cell, a cell without content, and a cell after `put v n`, where `n` says
how much of the total `v` reaches it. -/
structure Cell (α κ ν : Type*) where
  load : κ → ν
  clear : κ
  put : ν → ℕ → κ → κ
  amount : α → ν

inductive Event (ι : Type*) where
  | start (tag : ι)
  | load (i : ℕ) (ok : Bool)
  | clear (i : ℕ) (ok : Bool)
  | put (i : ℕ) (n : ℕ)

/-- What process `i` does, if it can do it. -/
def World.act (w : World ι α κ ν) (i : ℕ) (f : κ → Proc ι α ν → Option (κ × Proc ι α ν)) :
    World ι α κ ν :=
  match (w.procs[i]?).bind (f w.cell) with
  | none => w
  | some (cell, p) => ⟨cell, w.procs.set i p⟩

/-- A cell that cannot be cleared is left alone. -/
def Cell.clearStep (c : Cell α κ ν) (ok : Bool) (cell : κ) (p : Proc ι α ν) :
    Option (κ × Proc ι α ν) :=
  match p.point with
  | .loaded v => some (if ok then (c.clear, p.moved (.cleared v)) else (cell, p.next))
  | _ => none

def Cell.putStep (c : Cell α κ ν) (n : ℕ) (cell : κ) (p : Proc ι α ν) : Option (κ × Proc ι α ν) :=
  match p.point with
  | .cleared v => some (c.put v n cell, p.next)
  | _ => none

/-! ## One process -/

theorem act_of_none {w : World ι α κ ν} {i : ℕ} {f : κ → Proc ι α ν → Option (κ × Proc ι α ν)}
    (h : ∀ p, w.procs[i]? = some p → f w.cell p = none) : w.act i f = w := by
  have hnone : (w.procs[i]?).bind (f w.cell) = none := Option.bind_eq_none_iff.mpr h
  rw [World.act, hnone]

theorem act_of_some {w : World ι α κ ν} {i : ℕ} {f : κ → Proc ι α ν → Option (κ × Proc ι α ν)}
    {p q : Proc ι α ν} {cell : κ} (hp : w.procs[i]? = some p) (hf : f w.cell p = some (cell, q)) :
    w.act i f = ⟨cell, w.procs.set i q⟩ := by
  rw [World.act, hp, Option.bind_some, hf]

/-- The processes around one of them. -/
theorem split_at {l : List α} {i : ℕ} {p : α} (h : l[i]? = some p) :
    ∃ before behind, l = before ++ p :: behind ∧ ∀ q, l.set i q = before ++ q :: behind := by
  obtain ⟨hi, hp⟩ := List.getElem?_eq_some_iff.mp h
  refine ⟨l.take i, l.drop (i + 1), ?_, fun q => ?_⟩
  · rw [← hp, List.getElem_cons_drop, List.take_append_drop]
  · rw [List.set_eq_take_append_cons_drop, if_pos hi]

theorem next_done {p : Proc ι α ν} {a : α} {rest : List α} (h : p.todo = a :: rest) :
    p.next.done = p.done ++ [a] := by
  rw [Proc.next, h]
  rfl

theorem done_append_todo_next (p : Proc ι α ν) : p.next.done ++ p.next.todo = p.done ++ p.todo := by
  show p.done ++ p.todo.take 1 ++ p.todo.tail = _
  rw [List.append_assoc, ← List.drop_one, List.take_append_drop]

/-- The process `p` at index `i` is the only one in the middle of an update, and it is about to
store `v`. -/
structure Updating (c : Cell α κ ν) (w : World ι α κ ν) (i : ℕ) (p : Proc ι α ν) (v : ν) :
    Prop where
  at_index : w.procs[i]? = some p
  others : ∀ j q, w.procs[j]? = some q → j ≠ i → ¬ q.Busy
  point : p.point = .loaded v ∨ (p.point = .cleared v ∧ w.cell = c.clear)

section Update

variable {c : Cell α κ ν} {amounts : ι → List α}

theorem quiet_set {w : World ι α κ ν} {i : ℕ} {q : Proc ι α ν} (hq : ¬ q.Busy)
    (hothers : ∀ j r, w.procs[j]? = some r → j ≠ i → ¬ r.Busy) (cell : κ) :
    (⟨cell, w.procs.set i q⟩ : World ι α κ ν).Quiet := by
  intro p hp
  obtain ⟨j, hj⟩ := List.mem_iff_getElem?.mp hp
  by_cases hji : j = i
  · rw [hji, List.getElem?_set_self'] at hj
    obtain ⟨-, -, rfl⟩ := Option.map_eq_some_iff.mp hj
    exact hq
  · rw [List.getElem?_set_ne (Ne.symm hji)] at hj
    exact hothers j p hj hji

theorem ledger_set {w : World ι α κ ν} {i : ℕ} {p q : Proc ι α ν}
    (h : ∀ p ∈ w.procs, p.done ++ p.todo = amounts p.tag) (hp : w.procs[i]? = some p)
    (htag : q.tag = p.tag) (hq : q.done ++ q.todo = p.done ++ p.todo) :
    ∀ r ∈ w.procs.set i q, r.done ++ r.todo = amounts r.tag := by
  intro r hr
  rcases List.mem_or_eq_of_mem_set hr with hr | rfl
  · exact h r hr
  · rw [hq, htag]
    exact h p (List.mem_of_getElem? hp)

/-- A process that is given a new point is the one that updates. -/
theorem updating_set {w : World ι α κ ν} {i : ℕ} {p : Proc ι α ν} {v : ν} {cell : κ}
    {point : Point ν} (hp : w.procs[i]? = some p)
    (hothers : ∀ j r, w.procs[j]? = some r → j ≠ i → ¬ r.Busy)
    (hpoint : point = .loaded v ∨ (point = .cleared v ∧ cell = c.clear)) :
    Updating c ⟨cell, w.procs.set i (p.moved point)⟩ i (p.moved point) v where
  at_index := by
    rw [List.getElem?_set_self', hp]
    rfl
  others j r hr hji := by
    rw [List.getElem?_set_ne (Ne.symm hji)] at hr
    exact hothers j r hr hji
  point := hpoint

/-- A step that only the process in the middle of an update can take. -/
theorem act_updating {w : World ι α κ ν} {i : ℕ} {p : Proc ι α ν} {v : ν}
    (h : Updating c w i p v) (j : ℕ) (f : κ → Proc ι α ν → Option (κ × Proc ι α ν))
    (hf : ∀ q, ¬ q.Busy → f w.cell q = none) :
    w.act j f = w ∨ (j = i ∧ ∃ cell q, f w.cell p = some (cell, q) ∧
      w.act j f = ⟨cell, w.procs.set i q⟩) := by
  by_cases hji : j = i
  · subst hji
    cases hfp : f w.cell p with
    | none =>
      refine .inl (act_of_none fun q hq => ?_)
      obtain rfl := Option.some.inj (h.at_index.symm.trans hq)
      exact hfp
    | some r => exact .inr ⟨rfl, r.1, r.2, rfl, act_of_some h.at_index hfp⟩
  · exact .inl (act_of_none fun q hq => hf q (h.others j q hq hji))

theorem act_quiet {w : World ι α κ ν} {j : ℕ} {f : κ → Proc ι α ν → Option (κ × Proc ι α ν)}
    (h : w.Quiet) (hf : ∀ q, ¬ q.Busy → f w.cell q = none) : w.act j f = w :=
  act_of_none fun q hq => hf q (h q (List.mem_of_getElem? hq))

theorem clearStep_idle {ok : Bool} {cell : κ} {p : Proc ι α ν} (h : ¬ p.Busy) :
    c.clearStep ok cell p = none := by
  rw [Cell.clearStep, not_not.mp h]

theorem putStep_idle {n : ℕ} {cell : κ} {p : Proc ι α ν} (h : ¬ p.Busy) :
    c.putStep n cell p = none := by
  rw [Cell.putStep, not_not.mp h]

theorem tag_clearStep {ok : Bool} {cell cell' : κ} {p q : Proc ι α ν}
    (h : c.clearStep ok cell p = some (cell', q)) : q.tag = p.tag := by
  unfold Cell.clearStep at h
  split at h
  · split_ifs at h
    · obtain ⟨-, rfl⟩ := Prod.mk.inj (Option.some.inj h)
      rfl
    · obtain ⟨-, rfl⟩ := Prod.mk.inj (Option.some.inj h)
      rfl
  · exact nomatch h

theorem tag_putStep {n : ℕ} {cell cell' : κ} {p q : Proc ι α ν}
    (h : c.putStep n cell p = some (cell', q)) : q.tag = p.tag := by
  unfold Cell.putStep at h
  split at h
  · obtain ⟨-, rfl⟩ := Prod.mk.inj (Option.some.inj h)
    rfl
  · exact nomatch h

theorem forall_tag_act {P : ι → Prop} {w : World ι α κ ν} {i : ℕ}
    {f : κ → Proc ι α ν → Option (κ × Proc ι α ν)} (h : ∀ p ∈ w.procs, P p.tag)
    (hf : ∀ p cell q, f w.cell p = some (cell, q) → q.tag = p.tag) :
    ∀ p ∈ (w.act i f).procs, P p.tag := by
  unfold World.act
  split
  · exact h
  · rename_i cell q hact
    obtain ⟨p, hp, hq⟩ := Option.bind_eq_some_iff.mp hact
    intro r hr
    rcases List.mem_or_eq_of_mem_set hr with hr | rfl
    · exact h r hr
    · exact hf p cell r hq ▸ h p (List.mem_of_getElem? hp)

theorem Updating.busy {w : World ι α κ ν} {i : ℕ} {p : Proc ι α ν} {v : ν}
    (h : Updating c w i p v) : p.Busy := by
  intro hidle
  rcases h.point with hpoint | ⟨hpoint, -⟩ <;> exact nomatch hidle.symm.trans hpoint

end Update

section Steps

variable [AddCommMonoid ν] (c : Cell α κ ν)

/-- A load that fails finds nothing. -/
def Cell.loadStep (ok : Bool) (cell : κ) (p : Proc ι α ν) : Option (κ × Proc ι α ν) :=
  match p.point, p.todo with
  | .between, a :: _ =>
    some (cell, p.moved (.loaded ((if ok then c.load cell else 0) + c.amount a)))
  | _, _ => none

/-- The machine; `amounts tag` is what a process with this tag adds. -/
def step (amounts : ι → List α) (w : World ι α κ ν) : Event ι → Unit × World ι α κ ν
  | .start tag => ((), { w with procs := w.procs ++ [⟨tag, [], amounts tag, .between⟩] })
  | .load i ok => ((), w.act i (c.loadStep ok))
  | .clear i ok => ((), w.act i (c.clearStep ok))
  | .put i n => ((), w.act i (c.putStep n))

/-- Nothing is loaded in the middle of an update, and the steps do not fail.  `Stored v n` says that
`v` can be loaded when it was put into an empty cell. -/
def Exclusive (Stored : ν → ℕ → Prop) (w : World ι α κ ν) : Event ι → Prop
  | .start _ => True
  | .load _ ok => ok = true ∧ w.Quiet
  | .clear _ ok => ok = true
  | .put i n => ∀ p, w.procs[i]? = some p → ∀ v, p.point = .cleared v → Stored v n

/-- What a process has added. -/
def Proc.total (p : Proc ι α ν) : ν := (p.done.map c.amount).sum

/-- What all processes have added. -/
def World.total (w : World ι α κ ν) : ν := (w.procs.map (Proc.total c)).sum

/-! ## Totals -/

theorem total_next {p : Proc ι α ν} {a : α} {rest : List α} (h : p.todo = a :: rest) :
    p.next.total c = p.total c + c.amount a := by
  rw [Proc.total, next_done h, List.map_append, List.sum_append, List.map_singleton,
    List.sum_singleton]
  rfl

theorem total_set {w : World ι α κ ν} {i : ℕ} {p q : Proc ι α ν} {v : ν} {cell : κ}
    (hp : w.procs[i]? = some p) (hq : q.total c = p.total c + v) :
    (⟨cell, w.procs.set i q⟩ : World ι α κ ν).total c = w.total c + v := by
  obtain ⟨before, behind, hprocs, hset⟩ := split_at hp
  rw [World.total, World.total, hset, hprocs]
  simp only [List.map_append, List.map_cons, List.sum_append, List.sum_cons, hq]
  abel

theorem total_append_idle (w : World ι α κ ν) (tag : ι) (todo : List α) :
    ({ w with procs := w.procs ++ [⟨tag, [], todo, .between⟩] } : World ι α κ ν).total c =
      w.total c := by
  rw [World.total, List.map_append, List.sum_append, List.map_singleton, List.sum_singleton]
  exact add_zero _

/-! ## The invariant -/

/-- What holds between two steps of a run that began with the total `base`. -/
structure Inv (amounts : ι → List α) (base : ν) (w : World ι α κ ν) : Prop where
  ledger : ∀ p ∈ w.procs, p.done ++ p.todo = amounts p.tag
  cell : (w.Quiet ∧ c.load w.cell = base + w.total c) ∨
    ∃ i p a rest, p.todo = a :: rest ∧ Updating c w i p (base + w.total c + c.amount a)

/-! ## One step -/

variable {c} {amounts : ι → List α} {base : ν} {Stored : ν → ℕ → Prop}


/-- Whenever nobody is in the middle of an update, the cell holds every amount that was added. -/
theorem Inv.load_cell {w : World ι α κ ν} (h : Inv c amounts base w) (hquiet : w.Quiet) :
    c.load w.cell = base + w.total c := by
  rcases h.cell with ⟨-, hcell⟩ | ⟨j, p, a, rest, -, hp⟩
  · exact hcell
  · exact absurd hp.busy (hquiet p (List.mem_of_getElem? hp.at_index))

theorem total_set_point {w : World ι α κ ν} {i : ℕ} {p : Proc ι α ν}
    (hp : w.procs[i]? = some p) (cell : κ) (point : Point ν) :
    (⟨cell, w.procs.set i (p.moved point)⟩ : World ι α κ ν).total c = w.total c :=
  (total_set c (q := p.moved point) hp (add_zero (p.total c)).symm).trans (add_zero _)

theorem inv_start {w : World ι α κ ν} (h : Inv c amounts base w) (tag : ι) :
    Inv c amounts base (step c amounts w (.start tag)).2 := by
  have hidle : ¬ (⟨tag, [], amounts tag, .between⟩ : Proc ι α ν).Busy := fun hbusy => hbusy rfl
  refine ⟨fun p hp => ?_, ?_⟩
  · rcases List.mem_append.mp hp with hp | hp
    · exact h.ledger p hp
    · rw [List.mem_singleton.mp hp]
      rfl
  · have htotal := total_append_idle c w tag (amounts tag)
    show (World.Quiet _ ∧ c.load w.cell = base + World.total c _) ∨ _
    rw [step, htotal]
    rcases h.cell with ⟨hquiet, hcell⟩ | ⟨i, p, a, rest, htodo, hp⟩
    · refine .inl ⟨fun q hq => ?_, hcell⟩
      rcases List.mem_append.mp hq with hq | hq
      · exact hquiet q hq
      · rw [List.mem_singleton.mp hq]
        exact hidle
    · refine .inr ⟨i, p, a, rest, htodo, ?_, fun j q hq hji => ?_, hp.point⟩
      · exact List.getElem?_append_left (List.getElem?_eq_some_iff.mp hp.at_index).1 ▸ hp.at_index
      · rw [List.getElem?_append] at hq
        split_ifs at hq
        · exact hp.others j q hq hji
        · rw [List.mem_singleton.mp (List.mem_of_getElem? hq)]
          exact hidle

theorem inv_load {w : World ι α κ ν} (h : Inv c amounts base w) {i : ℕ} (hquiet : w.Quiet) :
    Inv c amounts base (step c amounts w (.load i true)).2 := by
  show Inv c amounts base (w.act i (c.loadStep true))
  have hcell := h.load_cell hquiet
  cases hp : w.procs[i]? with
  | none =>
    rw [act_of_none fun p hp' => nomatch hp.symm.trans hp']
    exact h
  | some p =>
    have hpoint : p.point = .between := not_not.mp (hquiet p (List.mem_of_getElem? hp))
    cases htodo : p.todo with
    | nil =>
      have hnone : c.loadStep true w.cell p = none := by rw [Cell.loadStep, hpoint, htodo]
      rw [act_of_none fun q hq => Option.some.inj (hp.symm.trans hq) ▸ hnone]
      exact h
    | cons a rest =>
      have hsome : c.loadStep true w.cell p =
          some (w.cell, p.moved (.loaded (base + w.total c + c.amount a))) := by
        rw [Cell.loadStep, hpoint, htodo, if_pos rfl, hcell]
      have hothers : ∀ j r, w.procs[j]? = some r → j ≠ i → ¬ r.Busy := fun j r hr _ =>
        hquiet r (List.mem_of_getElem? hr)
      rw [act_of_some hp hsome]
      refine ⟨ledger_set h.ledger hp rfl rfl,
        .inr ⟨i, p.moved (.loaded (base + w.total c + c.amount a)), a, rest, htodo, ?_⟩⟩
      rw [total_set_point hp]
      exact updating_set hp hothers (.inl rfl)

theorem inv_clear {w : World ι α κ ν} (h : Inv c amounts base w) (i : ℕ) :
    Inv c amounts base (step c amounts w (.clear i true)).2 := by
  show Inv c amounts base (w.act i (c.clearStep true))
  rcases h.cell with ⟨hquiet, hcell⟩ | ⟨j, p, a, rest, htodo, hp⟩
  · rw [act_quiet hquiet fun q hq => clearStep_idle hq]
    exact h
  · rcases act_updating hp i (c.clearStep true) fun q hq => clearStep_idle hq with
      hsame | ⟨rfl, cell, q, hq, hact⟩
    · rw [hsame]
      exact h
    · rw [hact]
      rcases hp.point with hpoint | ⟨hpoint, -⟩
      · rw [Cell.clearStep, hpoint] at hq
        obtain ⟨rfl, rfl⟩ := Prod.mk.inj (Option.some.inj hq)
        refine ⟨ledger_set h.ledger hp.at_index rfl rfl,
          .inr ⟨i, p.moved (.cleared (base + w.total c + c.amount a)), a, rest, htodo, ?_⟩⟩
        rw [total_set_point hp.at_index]
        exact updating_set hp.at_index hp.others (.inr ⟨rfl, rfl⟩)
      · rw [Cell.clearStep, hpoint] at hq
        exact nomatch hq

theorem inv_put {w : World ι α κ ν} (h : Inv c amounts base w) {i n : ℕ}
    (hstored : ∀ v n, Stored v n → c.load (c.put v n c.clear) = v)
    (hput : ∀ p, w.procs[i]? = some p → ∀ v, p.point = .cleared v → Stored v n) :
    Inv c amounts base (step c amounts w (.put i n)).2 := by
  show Inv c amounts base (w.act i (c.putStep n))
  rcases h.cell with ⟨hquiet, hcell⟩ | ⟨j, p, a, rest, htodo, hp⟩
  · rw [act_quiet hquiet fun q hq => putStep_idle hq]
    exact h
  · rcases act_updating hp i (c.putStep n) fun q hq => putStep_idle hq with
      hsame | ⟨rfl, cell, q, hq, hact⟩
    · rw [hsame]
      exact h
    · rw [hact]
      rcases hp.point with hpoint | ⟨hpoint, hclear⟩
      · rw [Cell.putStep, hpoint] at hq
        exact nomatch hq
      · have hload := hstored _ _ (hput p hp.at_index _ hpoint)
        rw [Cell.putStep, hpoint, hclear] at hq
        obtain ⟨rfl, rfl⟩ := Prod.mk.inj (Option.some.inj hq)
        refine ⟨ledger_set h.ledger hp.at_index rfl (done_append_todo_next p), .inl ⟨?_, ?_⟩⟩
        · exact quiet_set (fun hbusy => hbusy rfl) hp.others _
        · rw [total_set c hp.at_index (total_next c htodo), hload, add_assoc]

/-! ## Runs -/

theorem inv_step (hstored : ∀ v n, Stored v n → c.load (c.put v n c.clear) = v)
    {w : World ι α κ ν} {e : Event ι} (h : Inv c amounts base w) (he : Exclusive Stored w e) :
    Inv c amounts base (step c amounts w e).2 := by
  cases e with
  | start tag => exact inv_start h tag
  | load i ok =>
    obtain ⟨rfl, hquiet⟩ := he
    exact inv_load h hquiet
  | clear i ok =>
    obtain rfl := he
    exact inv_clear h i
  | put i n => exact inv_put h hstored he

theorem tag_loadStep {ok : Bool} {cell cell' : κ} {p q : Proc ι α ν}
    (h : c.loadStep ok cell p = some (cell', q)) : q.tag = p.tag := by
  unfold Cell.loadStep at h
  split at h
  · obtain ⟨-, rfl⟩ := Prod.mk.inj (Option.some.inj h)
    rfl
  · exact nomatch h

/-- The tags of the processes are those they were started with. -/
theorem forall_tag_step {P : ι → Prop} {w : World ι α κ ν} {e : Event ι}
    (h : ∀ p ∈ w.procs, P p.tag) (he : ∀ tag, e = .start tag → P tag) :
    ∀ p ∈ (step c amounts w e).2.procs, P p.tag := by
  cases e with
  | start tag =>
    intro p hp
    rcases List.mem_append.mp hp with hp | hp
    · exact h p hp
    · exact List.mem_singleton.mp hp ▸ he tag rfl
  | load i ok => exact forall_tag_act h fun _ _ _ hf => tag_loadStep hf
  | clear i ok => exact forall_tag_act h fun _ _ _ hf => tag_clearStep hf
  | put i n => exact forall_tag_act h fun _ _ _ hf => tag_putStep hf

/-- The invariant holds all along a run of exclusive updates. -/
theorem run_inv (hstored : ∀ v n, Stored v n → c.load (c.put v n c.clear) = v) (cell : κ)
    {es : List (Event ι)} (h : Meets (step c amounts) (Exclusive Stored) ⟨cell, []⟩ es) :
    Inv c amounts (c.load cell) (run (step c amounts) ⟨cell, []⟩ es) := by
  have hinit : Inv c amounts (c.load cell) (⟨cell, []⟩ : World ι α κ ν) :=
    ⟨fun p hp => absurd hp List.not_mem_nil,
      .inl ⟨fun p hp => absurd hp List.not_mem_nil, (add_zero _).symm⟩⟩
  exact run_inv_of_meets _ _ _ (fun w e h he => inv_step hstored h he) hinit h

/-! ## Updates one after the other -/

/-- A turn of a schedule in which no update begins before the end of another one: a process starts,
or process `i` makes its next update, for which `len` says how much of the total is put. -/
def turn (c : Cell α κ ν) (len : ν → ℕ) (w : World ι α κ ν) : ι ⊕ ℕ → List (Event ι)
  | .inl tag => [.start tag]
  | .inr i =>
    match (w.procs[i]?).bind fun p => p.todo.head? with
    | none => []
    | some a => [.load i true, .clear i true, .put i (len (c.load w.cell + c.amount a))]

/-- The steps of such a schedule. -/
def serial (c : Cell α κ ν) (amounts : ι → List α) (len : ν → ℕ) (w : World ι α κ ν) :
    List (ι ⊕ ℕ) → List (Event ι)
  | [] => []
  | t :: turns => turn c len w t ++
      serial c amounts len (run (step c amounts) w (turn c len w t)) turns

theorem meets_turn {len : ν → ℕ} (hlen : ∀ v, Stored v (len v)) {w : World ι α κ ν}
    (hquiet : w.Quiet) (t : ι ⊕ ℕ) :
    Meets (step c amounts) (Exclusive Stored) w (turn c len w t) ∧
      (run (step c amounts) w (turn c len w t)).Quiet := by
  cases t with
  | inl tag =>
    refine ⟨⟨trivial, trivial⟩, fun p hp => ?_⟩
    obtain hp | hp := List.mem_append.mp hp
    · exact hquiet p hp
    · rw [List.mem_singleton.mp hp]
      exact fun hbusy => hbusy rfl
  | inr i =>
    unfold turn
    dsimp only
    cases hturn : (w.procs[i]?).bind fun p => p.todo.head? with
    | none => exact ⟨trivial, hquiet⟩
    | some a =>
      obtain ⟨p, hp, hhead⟩ := Option.bind_eq_some_iff.mp hturn
      obtain ⟨rest, htodo⟩ := List.head?_eq_some_iff.mp hhead
      have hidle : p.point = .between := not_not.mp (hquiet p (List.mem_of_getElem? hp))
      obtain ⟨hi, -⟩ := List.getElem?_eq_some_iff.mp hp
      let v := c.load w.cell + c.amount a
      have hload : (step c amounts w (.load i true)).2 =
          ⟨w.cell, w.procs.set i (p.moved (.loaded v))⟩ :=
        act_of_some hp (by rw [Cell.loadStep, hidle, htodo]; rfl)
      have hclear : (step c amounts ⟨w.cell, w.procs.set i (p.moved (.loaded v))⟩
          (.clear i true)).2 = ⟨c.clear, w.procs.set i (p.moved (.cleared v))⟩ :=
        (act_of_some (List.getElem?_set_self hi) rfl).trans (by rw [List.set_set]; rfl)
      have hput : (step c amounts ⟨c.clear, w.procs.set i (p.moved (.cleared v))⟩
          (.put i (len v))).2 = ⟨c.put v (len v) c.clear, w.procs.set i p.next⟩ :=
        (act_of_some (List.getElem?_set_self hi) rfl).trans (by rw [List.set_set]; rfl)
      constructor
      · refine ⟨⟨rfl, hquiet⟩, rfl, ?_⟩
        rw [hload, hclear]
        refine ⟨fun q hq v' hv => ?_, trivial⟩
        obtain rfl := Option.some.inj ((List.getElem?_set_self hi).symm.trans hq)
        exact Point.cleared.inj hv ▸ hlen v
      · rw [run_cons, hload, run_cons, hclear, run_cons, hput]
        intro q hq
        obtain hq | rfl := List.mem_or_eq_of_mem_set hq
        · exact hquiet q hq
        · exact fun hbusy => hbusy rfl

/-- Such a schedule is careful, whatever its order. -/
theorem meets_serial {len : ν → ℕ} (hlen : ∀ v, Stored v (len v)) (turns : List (ι ⊕ ℕ))
    {w : World ι α κ ν} (hquiet : w.Quiet) :
    Meets (step c amounts) (Exclusive Stored) w (serial c amounts len w turns) := by
  induction turns generalizing w with
  | nil => trivial
  | cons t turns ih =>
    obtain ⟨hmeets, hquiet'⟩ : Meets (step c amounts) (Exclusive Stored) w (turn c len w t) ∧
        (run (step c amounts) w (turn c len w t)).Quiet := meets_turn hlen hquiet t
    exact meets_append.mpr ⟨hmeets, ih hquiet'⟩

theorem start_mem_serial {len : ν → ℕ} {tag : ι} {turns : List (ι ⊕ ℕ)} {w : World ι α κ ν}
    (h : .start tag ∈ serial c amounts len w turns) : .inl tag ∈ turns := by
  induction turns generalizing w with
  | nil => cases h
  | cons t turns ih =>
    obtain h | h := List.mem_append.mp h
    · cases t with
      | inl tag' =>
        rw [Event.start.inj (List.mem_singleton.mp h)]
        exact List.mem_cons_self
      | inr i =>
        unfold turn at h
        dsimp only at h
        split at h
        · cases h
        · simp at h
    · exact List.mem_cons_of_mem t (ih h)

/-! ## Two processes at the same time -/

/-- Two processes that make one update each, and load the total before either has stored it. -/
def overlapping (tag : ι) (n : ℕ) : List (Event ι) :=
  [.start tag, .start tag, .load 0 true, .load 1 true, .clear 0 true, .put 0 n, .clear 1 true,
    .put 1 n]

/-- One of the two updates is lost. -/
theorem run_overlapping {tag : ι} {a : α} (hamounts : amounts tag = [a]) (n : ℕ) (cell : κ) :
    run (step c amounts) (⟨cell, []⟩ : World ι α κ ν) (overlapping tag n) =
      ⟨c.put (c.load cell + c.amount a) n c.clear,
        [⟨tag, [a], [], .between⟩, ⟨tag, [a], [], .between⟩]⟩ := by
  have hstart (w : World ι α κ ν) : (step c amounts w (.start tag)).2 =
      { w with procs := w.procs ++ [⟨tag, [], [a], .between⟩] } := by
    rw [step, hamounts]
  rw [overlapping, run_cons, hstart, run_cons, hstart]
  rfl

end Steps

end AflNv.Lib.Tally
