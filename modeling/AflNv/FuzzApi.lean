import AflNv.CBase
import AflNv.Lib.Lock
import AflNv.Lib.Machine

/-!
# The jobs of the fuzz API

`integration/fuzz_api.py` starts a thread for each task that is submitted.  The thread
of `run_task` marks the task as running, starts the process, records it in the task,
waits for it and writes the final status.  `fuzz_test_stop` ends the process that the
task records.  Both work on `TASKS` under `TASK_LOCK`, a lock that its owner cannot
take twice.

A task never goes back (`jobs_forward`).  A stop request that finds no recorded process
is answered with success and does nothing, and the queries by name and by time range
take the lock a second time inside.  `job_lifecycle` says what holds in the runs where
neither happens.
-/

namespace AflNv

open AflNv.Lib

/-! ## The task and its thread -/

inductive TaskStatus where
  | created
  | running
  | completed
  | failed
  | stopped
  deriving DecidableEq

/-- `task["status"] in ("completed", "stopped", "failed")`. -/
def TaskStatus.isTerminal : TaskStatus → Bool
  | .completed | .failed | .stopped => true
  | .created | .running => false

/-- The record in `TASKS`; times are what `utc_now` returns. -/
structure ApiTask where
  taskName : Bytes
  status : TaskStatus
  createdAt : ℕ
  startedAt : Option ℕ
  finishedAt : Option ℕ
  returncode : Option ℤ
  /-- `_error`. -/
  error : Option Bytes
  /-- `_process` is in the record. -/
  hasProcess : Bool
  deriving DecidableEq

/-- Where the thread of `run_task` is. -/
inductive RunnerPc where
  | start
  /-- Behind the first block under the lock. -/
  | launching
  /-- `Popen` has returned. -/
  | launched
  | waiting
  /-- An exception has left the `try` block. -/
  | raised (exc : Bytes)
  | ending (returncode : ℤ)
  | done
  /-- An exception outside the `try` block has ended the thread. -/
  | died
  deriving DecidableEq

/-- The process of a task. -/
inductive ApiProcess where
  | absent
  | alive
  | exited (returncode : ℤ)
  deriving DecidableEq

structure Job where
  task : ApiTask
  runner : RunnerPc
  process : ApiProcess
  deriving DecidableEq

/-- What `open` and `Popen` do. -/
inductive Launch where
  /-- `mkdir` raises, which is not caught. -/
  | noDirectory
  | raises (exc : Bytes)
  | process

/-- A step of the thread, or the end of the process. -/
inductive JobEvent where
  | begin (now : ℕ)
  | launch (result : Launch)
  | record
  | exit (returncode : ℤ)
  | waited
  | raise (exc : Bytes)
  | note
  | finish (now : ℕ)

/-- The steps under `TASK_LOCK`. -/
def JobEvent.locks : JobEvent → Bool
  | .begin _ | .record | .note | .finish _ => true
  | .launch _ | .exit _ | .waited | .raise _ => false

/-- The final status of `run_task`; the exit code of `timeout` counts as completed. -/
def finalStatus (status : TaskStatus) (returncode : ℤ) : TaskStatus :=
  if status = .stopped then .stopped
  else if returncode = 0 then .completed
  else if returncode = 124 then .completed
  else .failed

/-- One step of `run_task` or of its process; `none` where it is not at that step. -/
def Job.advance (j : Job) : JobEvent → Option Job
  | .begin now =>
    match j.runner with
    | .start => some { j with
        task := { j.task with status := .running, startedAt := some now }, runner := .launching }
    | _ => none
  | .launch result =>
    match j.runner with
    | .launching =>
      match result with
      | .noDirectory => some { j with runner := .died }
      | .raises exc => some { j with runner := .raised exc }
      | .process => some { j with process := .alive, runner := .launched }
    | _ => none
  | .record =>
    match j.runner with
    | .launched => some { j with task := { j.task with hasProcess := true }, runner := .waiting }
    | _ => none
  | .exit returncode =>
    match j.process with
    | .alive => some { j with process := .exited returncode }
    | _ => none
  | .waited =>
    match j.runner, j.process with
    | .waiting, .exited returncode => some { j with runner := .ending returncode }
    | _, _ => none
  | .raise exc =>
    match j.runner with
    | .waiting => some { j with runner := .raised exc }
    | _ => none
  | .note =>
    match j.runner with
    | .raised exc =>
      some { j with task := { j.task with error := some exc }, runner := .ending (-1) }
    | _ => none
  | .finish now =>
    match j.runner with
    | .ending returncode => some { j with
        task := { j.task with
          status := finalStatus j.task.status returncode
          returncode := some returncode
          finishedAt := some now
          hasProcess := false }
        runner := .done }
    | _ => none

/-- What `terminate`, `wait` and `kill` do to a process that is alive. -/
inductive StopOutcome where
  | exits (returncode : ℤ)
  /-- An exception; the process has ended all the same or not. -/
  | raises (exc : Bytes) (ended : Option ℤ)

/-- What `fuzz_test_stop` answers. -/
inductive StopAnswer where
  | error
  | success (status : TaskStatus)
  deriving DecidableEq

/-- `fuzz_test_stop` on a task that exists. -/
def Job.stop (j : Job) (outcome : StopOutcome) (now : ℕ) : StopAnswer × Job :=
  if j.task.status.isTerminal then (.success j.task.status, j)
  else if j.task.hasProcess ∧ j.process = .alive then
    match outcome with
    | .exits returncode =>
      (.success .stopped, { j with
        task := { j.task with status := .stopped, finishedAt := some now }
        process := .exited returncode })
    | .raises _ ended =>
      (.error, { j with process := ended.elim .alive fun returncode => .exited returncode })
  else (.success j.task.status, j)

/-! ## The reports -/

/-- The filter of `fuzz_test_report_query`. -/
inductive ReportFilter where
  | taskId (id : Bytes)
  | taskName (name : Bytes)
  | timeRange (first last : ℕ)

/-- The test inside the loop over `TASKS`. -/
def ReportFilter.accepts (t : ApiTask) : ReportFilter → Bool
  | .taskId _ => false
  | .taskName name => t.taskName = name
  | .timeRange first last => first ≤ t.createdAt && t.createdAt ≤ last

/-! ## The system -/

structure ApiState where
  /-- `TASKS`, with the threads and the processes. -/
  jobs : Bytes → Option Job
  /-- The keys of `TASKS` in the order of insertion. -/
  order : List Bytes
  /-- A thread holds `TASK_LOCK` and waits for it. -/
  stuck : Bool
  /-- The tasks whose stop requests were answered with success. -/
  stopAcked : List Bytes

def ApiState.init : ApiState := ⟨fun _ => none, [], false, []⟩

inductive ApiEvent where
  /-- A request that passes the checks; `uuid4` gives it an id that is not in use. -/
  | submit (id name : Bytes) (now : ℕ)
  | job (id : Bytes) (e : JobEvent)
  | stop (id : Bytes) (outcome : StopOutcome) (now : ℕ)
  /-- A query; the files are those in the output directories of the tasks. -/
  | report (filter : ReportFilter) (files : Bytes → List Bytes)

inductive ApiAnswer where
  /-- A step that is not possible in this state. -/
  | disabled
  | stepped
  | stop (answer : StopAnswer)
  | reports (items : List (Bytes × Bytes))
  /-- The caller waits for `TASK_LOCK` and never gets it. -/
  | blocked
  deriving DecidableEq

namespace ApiState

variable (s : ApiState)

def setJob (id : Bytes) (j : Job) : ApiState := { s with jobs := Function.update s.jobs id (some j) }

/-- The ids that the loop of a filter finds. -/
def matching (filter : ReportFilter) : List Bytes :=
  s.order.filter fun id => (s.jobs id).any fun j => filter.accepts j.task

/-- `filter_reports_by_task_id`. -/
def reportsOf (files : Bytes → List Bytes) (id : Bytes) : List (Bytes × Bytes) :=
  if (s.jobs id).isSome then (files id).map fun name => (id, name) else []

/-- What a query does to `TASK_LOCK`: the two loops call `filter_reports_by_task_id`
for each match, under the lock. -/
def reportLock : ReportFilter → List Lock.Op
  | .taskId _ => Lock.guarded []
  | filter => Lock.guarded ((s.matching filter).flatMap fun _ => Lock.guarded [])

/-- The answer of a query that gets the lock each time. -/
def reportItems (files : Bytes → List Bytes) : ReportFilter → List (Bytes × Bytes)
  | .taskId id => s.reportsOf files id
  | filter => (s.matching filter).flatMap (s.reportsOf files)

/-- One step of a thread, of a process or of a client. -/
def step : ApiEvent → ApiAnswer × ApiState
  | .submit id name now =>
    if s.stuck then (.blocked, s)
    else
      match s.jobs id with
      | some _ => (.disabled, s)
      | none =>
        let task : ApiTask := ⟨name, .created, now, none, none, none, none, false⟩
        (.stepped, { s.setJob id ⟨task, .start, .absent⟩ with order := s.order ++ [id] })
  | .job id e =>
    match (s.jobs id).bind fun j => j.advance e with
    | none => (.disabled, s)
    | some j => if e.locks && s.stuck then (.blocked, s) else (.stepped, s.setJob id j)
  | .stop id outcome now =>
    if s.stuck then (.blocked, s)
    else
      match s.jobs id with
      | none => (.stop .error, s)
      | some j =>
        match j.stop outcome now with
        | (.error, j) => (.stop .error, s.setJob id j)
        | (.success status, j) =>
          (.stop (.success status), { s.setJob id j with stopAcked := id :: s.stopAcked })
  | .report filter files =>
    if s.stuck then (.blocked, s)
    else
      match Lock.exec false (s.reportLock filter) with
      | none => (.blocked, { s with stuck := true })
      | some _ => (.reports (s.reportItems files filter), s)

end ApiState

/-! ## What one step does to a task -/

/-- A status a task may move to: itself, or a later one. -/
def TaskStatus.Forward (a b : TaskStatus) : Prop :=
  a = b ∨ (a = .created ∧ b = .running) ∨ (a.isTerminal = false ∧ b.isTerminal = true)

theorem TaskStatus.Forward.trans {a b c : TaskStatus} (hab : a.Forward b) (hbc : b.Forward c) :
    a.Forward c := by
  rcases hab with rfl | ⟨rfl, rfl⟩ | ⟨ha, hb⟩
  · exact hbc
  · rcases hbc with rfl | ⟨h, -⟩ | ⟨-, hc⟩
    · exact .inr (.inl ⟨rfl, rfl⟩)
    · exact absurd h (by decide)
    · exact .inr (.inr ⟨rfl, hc⟩)
  · rcases hbc with rfl | ⟨rfl, -⟩ | ⟨hb', -⟩
    · exact .inr (.inr ⟨ha, hb⟩)
    · exact absurd hb (by decide)
    · exact absurd (hb.symm.trans hb') (by decide)

/-- A task that has ended does not change its status. -/
theorem TaskStatus.Forward.eq_of_terminal {a b : TaskStatus} (h : a.Forward b)
    (ha : a.isTerminal = true) : b = a := by
  rcases h with rfl | ⟨rfl, -⟩ | ⟨ha', -⟩
  · rfl
  · exact absurd ha (by decide)
  · exact absurd (ha.symm.trans ha') (by decide)

/-- The status, the recorded process and the place of the thread belong together. -/
def Job.AtPlace (j : Job) : Prop :=
  match j.runner with
  | .start => j.task.status = .created ∧ j.task.hasProcess = false
  | .launching | .launched | .died => j.task.status = .running ∧ j.task.hasProcess = false
  | .waiting | .raised _ | .ending _ => j.task.status = .running ∨ j.task.status = .stopped
  | .done => j.task.status.isTerminal = true ∧ j.task.hasProcess = false

/-- A task that was stopped has no running process. -/
structure Job.Consistent (j : Job) : Prop where
  atPlace : j.AtPlace
  stopped : j.task.status = .stopped → j.process ≠ .alive

theorem finalStatus_terminal (status : TaskStatus) (returncode : ℤ) :
    (finalStatus status returncode).isTerminal = true := by
  rw [finalStatus]
  split_ifs <;> rfl

/-- Only a task that was stopped is left as stopped. -/
theorem finalStatus_eq_stopped {status : TaskStatus} {returncode : ℤ} :
    finalStatus status returncode = .stopped ↔ status = .stopped := by
  rw [finalStatus]
  split_ifs with h <;> simp [h]

/-- What a step of the thread or of the process keeps. -/
structure Job.Follows (j j' : Job) : Prop where
  consistent : j'.Consistent
  forward : j.task.status.Forward j'.task.status

theorem Job.advance_follows {j j' : Job} {e : JobEvent} (h : j.Consistent)
    (hstep : j.advance e = some j') : j.Follows j' := by
  obtain ⟨hplace, hstopped⟩ := h
  cases e with
  | begin now =>
    cases hr : j.runner <;> simp only [advance, hr, reduceCtorEq, Option.some.injEq] at hstep
    subst hstep
    simp only [AtPlace, hr] at hplace
    exact ⟨⟨⟨rfl, hplace.2⟩, by simp⟩, .inr (.inl ⟨hplace.1, rfl⟩)⟩
  | launch result =>
    cases hr : j.runner <;> simp only [advance, hr, reduceCtorEq] at hstep
    simp only [AtPlace, hr] at hplace
    cases result <;> obtain rfl := Option.some.inj hstep
    · exact ⟨⟨hplace, hstopped⟩, .inl rfl⟩
    · exact ⟨⟨.inl hplace.1, hstopped⟩, .inl rfl⟩
    · exact ⟨⟨hplace, by simp [hplace.1]⟩, .inl rfl⟩
  | record =>
    cases hr : j.runner <;> simp only [advance, hr, reduceCtorEq, Option.some.injEq] at hstep
    subst hstep
    simp only [AtPlace, hr] at hplace
    exact ⟨⟨.inl hplace.1, hstopped⟩, .inl rfl⟩
  | exit returncode =>
    cases hp : j.process <;> simp only [advance, hp, reduceCtorEq, Option.some.injEq] at hstep
    subst hstep
    exact ⟨⟨hplace, by simp⟩, .inl rfl⟩
  | waited =>
    cases hr : j.runner <;> cases hp : j.process <;>
      simp only [advance, hr, hp, reduceCtorEq, Option.some.injEq] at hstep
    subst hstep
    simp only [AtPlace, hr] at hplace
    exact ⟨⟨hplace, by simp⟩, .inl rfl⟩
  | raise exc =>
    cases hr : j.runner <;> simp only [advance, hr, reduceCtorEq, Option.some.injEq] at hstep
    subst hstep
    simp only [AtPlace, hr] at hplace
    exact ⟨⟨hplace, hstopped⟩, .inl rfl⟩
  | note =>
    cases hr : j.runner <;> simp only [advance, hr, reduceCtorEq, Option.some.injEq] at hstep
    subst hstep
    simp only [AtPlace, hr] at hplace
    exact ⟨⟨hplace, hstopped⟩, .inl rfl⟩
  | finish now =>
    cases hr : j.runner <;> simp only [advance, hr, reduceCtorEq, Option.some.injEq] at hstep
    rename_i returncode
    subst hstep
    simp only [AtPlace, hr] at hplace
    refine ⟨⟨⟨finalStatus_terminal _ _, rfl⟩, fun h => hstopped (finalStatus_eq_stopped.mp h)⟩, ?_⟩
    rcases hplace with hrun | hstop
    · exact .inr (.inr ⟨by rw [hrun]; rfl, finalStatus_terminal _ _⟩)
    · exact .inl (by rw [hstop, finalStatus_eq_stopped.mpr rfl])

/-- A stop request, answered either way. -/
theorem Job.stop_follows {j : Job} (h : j.Consistent) (outcome : StopOutcome) (now : ℕ) :
    j.Follows (j.stop outcome now).2 := by
  unfold stop
  split_ifs with hend hproc
  · exact ⟨h, .inl rfl⟩
  · have hplace := h.atPlace
    have hrunning : j.task.status ≠ .stopped := by
      intro hs
      exact hend (by rw [hs]; rfl)
    cases outcome with
    | exits returncode =>
      refine ⟨⟨?_, by simp⟩, .inr (.inr ⟨Bool.eq_false_iff.mpr hend, rfl⟩)⟩
      rw [AtPlace] at hplace ⊢
      cases hr : j.runner with
      | waiting | raised _ | ending _ => exact .inr rfl
      | start | launching | launched | died | done =>
        rw [hr] at hplace
        exact absurd hproc.1 (by simp [hplace.2])
    | raises exc ended => exact ⟨⟨hplace, fun hs => absurd hs hrunning⟩, .inl rfl⟩
  · exact ⟨h, .inl rfl⟩

/-- The request is answered with success: the task is stopped now, or nothing was
done. -/
theorem Job.stop_success {j : Job} {outcome : StopOutcome} {now : ℕ} {status : TaskStatus}
    (h : (j.stop outcome now).1 = .success status)
    (hj : j.task.status = .stopped ∨ (j.task.hasProcess = true ∧ j.process = .alive ∧
      j.task.status.isTerminal = false)) :
    (j.stop outcome now).2.task.status = .stopped := by
  rcases hj with hs | ⟨hrec, halive, hrun⟩
  · unfold stop
    rw [if_pos (by rw [hs]; rfl)]
    exact hs
  · unfold stop at h ⊢
    rw [if_neg (by simp [hrun]), if_pos ⟨hrec, halive⟩] at h ⊢
    cases outcome with
    | exits returncode => rfl
    | raises exc ended => exact absurd h (by simp)

/-- A task whose recorded process is alive has not ended. -/
theorem Job.Consistent.running_of_recorded {j : Job} (h : j.Consistent)
    (hrec : j.task.hasProcess = true) (halive : j.process = .alive) :
    j.task.status.isTerminal = false := by
  have hplace := h.atPlace
  have hne := fun hs => h.stopped hs halive
  rw [AtPlace] at hplace
  cases hr : j.runner with
  | start | launching | launched | died =>
    rw [hr] at hplace
    rw [hplace.1]
    rfl
  | waiting | raised _ | ending _ =>
    rw [hr] at hplace
    rw [hplace.resolve_right hne]
    rfl
  | done =>
    rw [hr] at hplace
    exact absurd hrec (by simp [hplace.2])

/-! ## What one step does to the system -/

namespace ApiState

/-- How the record of one task changes in one step. -/
inductive JobStep : Option Job → Option Job → Prop
  | same (j : Option Job) : JobStep j j
  | submitted (name : Bytes) (now : ℕ) :
      JobStep none (some ⟨⟨name, .created, now, none, none, none, none, false⟩, .start, .absent⟩)
  | advanced (j j' : Job) (e : JobEvent) (h : j.advance e = some j') : JobStep (some j) (some j')
  | stopped (j : Job) (outcome : StopOutcome) (now : ℕ) :
      JobStep (some j) (some (j.stop outcome now).2)

@[simp] theorem setJob_jobs (s : ApiState) (id : Bytes) (j : Job) :
    (s.setJob id j).jobs = Function.update s.jobs id (some j) := rfl

theorem JobStep.update {s : ApiState} {id : Bytes} {j : Job} (h : JobStep (s.jobs id) (some j))
    (other : Bytes) : JobStep (s.jobs other) (Function.update s.jobs id (some j) other) := by
  by_cases hid : other = id
  · subst hid
    rwa [Function.update_self]
  · rw [Function.update_of_ne hid]
    exact .same _

theorem step_jobs (s : ApiState) (e : ApiEvent) (id : Bytes) :
    JobStep (s.jobs id) ((s.step e).2.jobs id) := by
  cases e with
  | submit new name now =>
    rw [step]
    split_ifs
    · exact .same _
    · cases hnew : s.jobs new with
      | some j => exact .same _
      | none => exact JobStep.update (by rw [hnew]; exact .submitted name now) id
  | job who e =>
    rw [step]
    cases hwho : s.jobs who with
    | none => exact .same _
    | some j =>
      rw [Option.bind_some]
      cases hstep : j.advance e with
      | none => exact .same _
      | some j' =>
        dsimp only
        split_ifs
        · exact .same _
        · exact JobStep.update (by rw [hwho]; exact .advanced j j' e hstep) id
  | stop who outcome now =>
    rw [step]
    split_ifs
    · exact .same _
    · cases hwho : s.jobs who with
      | none => exact .same _
      | some j =>
        have hstop := JobStep.update (s := s) (by rw [hwho]; exact .stopped j outcome now) id
        cases hans : j.stop outcome now with
        | mk answer j' =>
          rw [hans] at hstop
          dsimp only
          rw [hans]
          cases answer <;> exact hstop
  | report filter files =>
    rw [step]
    split_ifs
    · exact .same _
    · cases Lock.exec false (s.reportLock filter) <;> exact .same _

/-- Every task of the table is consistent. -/
def Inv (s : ApiState) : Prop := ∀ id j, s.jobs id = some j → j.Consistent

theorem inv_init : init.Inv := by
  intro id j h
  exact absurd h (by simp [init])

theorem JobStep.follows {a b : Option Job} (h : JobStep a b) (ha : ∀ j ∈ a, j.Consistent) :
    (∀ j ∈ a, ∃ j' ∈ b, j.Follows j') ∧ ∀ j' ∈ b, j'.Consistent := by
  cases h with
  | same =>
    exact ⟨fun j hj => ⟨j, hj, ha j hj, .inl rfl⟩, ha⟩
  | submitted name now =>
    refine ⟨fun j hj => absurd hj (by simp), fun j' hj' => ?_⟩
    obtain rfl := Option.some.inj hj'
    exact ⟨⟨rfl, rfl⟩, by simp⟩
  | advanced j j' e hstep =>
    have hfollows := j.advance_follows (ha j rfl) hstep
    refine ⟨fun i hi => ?_, fun i hi => ?_⟩
    · obtain rfl := Option.some.inj hi
      exact ⟨j', rfl, hfollows⟩
    · obtain rfl := Option.some.inj hi
      exact hfollows.consistent
  | stopped j outcome now =>
    have hfollows := j.stop_follows (ha j rfl) outcome now
    refine ⟨fun i hi => ?_, fun i hi => ?_⟩
    · obtain rfl := Option.some.inj hi
      exact ⟨_, rfl, hfollows⟩
    · obtain rfl := Option.some.inj hi
      exact hfollows.consistent

theorem Inv.step {s : ApiState} (h : s.Inv) (e : ApiEvent) : (s.step e).2.Inv := by
  intro id
  exact ((s.step_jobs e id).follows (h id)).2

theorem Inv.run {s : ApiState} (h : s.Inv) (es : List ApiEvent) :
    (Machine.run ApiState.step s es).Inv :=
  Machine.run_inv ApiState.step Inv (fun _ e h => h.step e) h es

/-- A task is never forgotten, and its status moves forward. -/
theorem jobs_forward {s : ApiState} (h : s.Inv) (es : List ApiEvent) {id : Bytes} {j : Job}
    (hj : s.jobs id = some j) :
    ∃ j', (Machine.run step s es).jobs id = some j' ∧ j.task.status.Forward j'.task.status := by
  induction es generalizing s j with
  | nil => exact ⟨j, hj, .inl rfl⟩
  | cons e es ih =>
    obtain ⟨j₁, hj₁, hfollows⟩ := ((s.step_jobs e id).follows (h id)).1 j hj
    obtain ⟨j₂, hj₂, hforward⟩ := ih (h.step e) hj₁
    exact ⟨j₂, hj₂, hfollows.forward.trans hforward⟩

/-! ## Runs without the two faults -/

/-- What a step must not run into.  A stop request finds the task stopped, or its
process recorded and alive; a query by name or by time range finds nothing. -/
def Safe (s : ApiState) : ApiEvent → Prop
  | .stop id _ _ => ∀ j, s.jobs id = some j →
      j.task.status = .stopped ∨ (j.task.hasProcess = true ∧ j.process = .alive)
  | .report filter _ => s.matching filter = []
  | .submit _ _ _ | .job _ _ => True

/-- Each task with an acknowledged stop request is stopped, and its process is not
running. -/
def StopsHonoured (s : ApiState) : Prop :=
  ∀ id ∈ s.stopAcked, ∃ j, s.jobs id = some j ∧ j.task.status = .stopped ∧ j.process ≠ .alive

/-- The invariant of the safe runs. -/
structure SafeInv (s : ApiState) : Prop where
  inv : s.Inv
  honoured : s.StopsHonoured
  free : s.stuck = false

theorem SafeInv.init : ApiState.init.SafeInv := ⟨inv_init, fun _ h => absurd h (by simp [ApiState.init]), rfl⟩

/-- A stopped task stays stopped. -/
theorem StopsHonoured.follows {s s' : ApiState} (h : s.StopsHonoured) (hacked : s'.stopAcked = s.stopAcked)
    (hjobs : ∀ id, ∀ j ∈ s.jobs id, ∃ j' ∈ s'.jobs id, j.Follows j') : s'.StopsHonoured := by
  intro id hid
  rw [hacked] at hid
  obtain ⟨j, hj, hstopped, -⟩ := h id hid
  obtain ⟨j', hj', hfollows⟩ := hjobs id j hj
  have hstopped' : j'.task.status = .stopped := by
    rw [← hstopped]
    exact hfollows.forward.eq_of_terminal (by rw [hstopped]; rfl)
  exact ⟨j', hj', hstopped', hfollows.consistent.stopped hstopped'⟩

theorem matching_taskId (s : ApiState) (id : Bytes) : s.matching (.taskId id) = [] := by
  rw [matching, List.filter_eq_nil_iff]
  intro other _
  cases s.jobs other <;> simp [ReportFilter.accepts]

/-- A query waits for itself exactly when its loop finds a task. -/
theorem reportLock_eq_none (s : ApiState) (filter : ReportFilter) :
    Lock.exec false (s.reportLock filter) = none ↔ s.matching filter ≠ [] := by
  cases filter with
  | taskId id => exact iff_of_false (by simp [reportLock, Lock.exec_guarded_nil]) (by simp [matching_taskId])
  | taskName name => exact Lock.exec_guarded_loop _
  | timeRange first last => exact Lock.exec_guarded_loop _

theorem SafeInv.step {s : ApiState} (h : s.SafeInv) {e : ApiEvent} (he : s.Safe e) :
    (s.step e).2.SafeInv ∧ (s.step e).1 ≠ .blocked := by
  have hjobs := fun id => ((s.step_jobs e id).follows (h.inv id)).1
  have hinv := h.inv.step e
  have hfree := h.free
  suffices hrest : ((s.step e).2.stopAcked = s.stopAcked ∨ (s.step e).2.StopsHonoured) ∧
      (s.step e).2.stuck = false ∧ (s.step e).1 ≠ .blocked by
    obtain ⟨hacked, hstuck, hblocked⟩ := hrest
    refine ⟨⟨hinv, ?_, hstuck⟩, hblocked⟩
    rcases hacked with hacked | hhonoured
    · exact h.honoured.follows hacked hjobs
    · exact hhonoured
  cases e with
  | submit id name now =>
    simp only [ApiState.step, hfree, Bool.false_eq_true, if_false]
    cases s.jobs id with
    | some j => exact ⟨.inl rfl, hfree, by simp⟩
    | none => exact ⟨.inl rfl, hfree, by simp⟩
  | job id e =>
    simp only [ApiState.step, hfree, Bool.and_false, Bool.false_eq_true, if_false]
    cases (s.jobs id).bind fun j => j.advance e with
    | none => exact ⟨.inl rfl, hfree, by simp⟩
    | some j => exact ⟨.inl rfl, hfree, by simp⟩
  | report filter files =>
    have hlock : Lock.exec false (s.reportLock filter) ≠ none := fun hnone =>
      (s.reportLock_eq_none filter).mp hnone he
    simp only [ApiState.step, hfree, Bool.false_eq_true, if_false]
    cases hexec : Lock.exec false (s.reportLock filter) with
    | none => exact absurd hexec hlock
    | some held => exact ⟨.inl rfl, hfree, by simp⟩
  | stop id outcome now =>
    simp only [ApiState.step, hfree, Bool.false_eq_true, if_false] at hinv hjobs ⊢
    cases hid : s.jobs id with
    | none => exact ⟨.inl rfl, hfree, by simp⟩
    | some j =>
      rw [hid] at hinv hjobs
      dsimp only at hinv hjobs ⊢
      cases hans : j.stop outcome now with
      | mk answer j' =>
        rw [hans] at hinv hjobs
        cases answer with
        | error => exact ⟨.inl rfl, hfree, by simp⟩
        | success status =>
          refine ⟨.inr ?_, hfree, by simp⟩
          have hstopped : j'.task.status = .stopped := by
            have hsuccess := Job.stop_success (by rw [hans]) ((he j hid).imp_right fun hp =>
              ⟨hp.1, hp.2, (h.inv id j hid).running_of_recorded hp.1 hp.2⟩)
            rwa [hans] at hsuccess
          intro other hother
          dsimp only at hinv hjobs hother ⊢
          rcases List.mem_cons.mp hother with rfl | hother
          · have hj' : (s.setJob other j').jobs other = some j' := by
              rw [setJob_jobs, Function.update_self]
            exact ⟨j', hj', hstopped, (hinv other j' hj').stopped hstopped⟩
          · have hold : (s.setJob id j').StopsHonoured := h.honoured.follows rfl hjobs
            exact hold other hother

/-- **The life of a job.**  In every run the status of a task moves forward, and stays
once it is terminal.  In the runs whose stop requests find the task stopped or its
process alive, and whose queries by name and by time range find nothing, a task with an
acknowledged stop request is stopped from then on, its process does not run, and no
caller waits for the lock forever. -/
theorem job_lifecycle (es : List ApiEvent) :
    (∀ p, p <+: es → ∀ id j, (Machine.run step init p).jobs id = some j →
      ∃ j', (Machine.run step init es).jobs id = some j' ∧
        j.task.status.Forward j'.task.status ∧
        (j.task.status.isTerminal = true → j'.task.status = j.task.status)) ∧
    (Machine.Meets step Safe init es →
      (∀ p, p <+: es → (Machine.run step init p).StopsHonoured) ∧
        ∀ answer ∈ Machine.outs step init es, answer ≠ .blocked) := by
  constructor
  · intro p hp id j hj
    obtain ⟨rest, rfl⟩ := hp
    obtain ⟨j', hj', hforward⟩ := jobs_forward (inv_init.run p) rest hj
    rw [Machine.run_append]
    exact ⟨j', hj', hforward, hforward.eq_of_terminal⟩
  · intro hmeets
    constructor
    · intro p hp
      obtain ⟨rest, rfl⟩ := hp
      exact (Machine.run_inv_of_meets step Safe SafeInv (fun _ _ h he => (h.step he).1) .init
        (Machine.meets_append.mp hmeets).1).honoured
    · exact Machine.outs_of_meets step Safe SafeInv (fun _ _ h he => h.step he) .init hmeets

/-- A task that is stopped while its process runs, and asked for by its id. -/
def stoppedRun : List ApiEvent :=
  [.submit [97] [98] 0, .job [97] (.begin 1), .job [97] (.launch .process), .job [97] .record,
    .stop [97] (.exits (-15)) 2, .job [97] .waited, .job [97] (.finish 3),
    .report (.taskId [97]) fun _ => []]

theorem job_lifecycle_stoppedRun :
    (Machine.run step init stoppedRun).StopsHonoured ∧
      ∀ answer ∈ Machine.outs step init stoppedRun, answer ≠ .blocked := by
  have hmeets : Machine.Meets step Safe init stoppedRun := by
    refine ⟨trivial, trivial, trivial, trivial, ?_, trivial, trivial, rfl, trivial⟩
    intro j hj
    obtain rfl := Option.some.inj hj
    exact .inr ⟨rfl, rfl⟩
  obtain ⟨hhonoured, hanswers⟩ := (job_lifecycle stoppedRun).2 hmeets
  exact ⟨hhonoured _ (List.prefix_refl _), hanswers⟩

/-- The stop request comes before the thread has started its process. -/
def earlyStop : List ApiEvent :=
  [.submit [97] [98] 0, .stop [97] (.exits 0) 1, .job [97] (.begin 2), .job [97] (.launch .process),
    .job [97] .record, .job [97] (.exit 0), .job [97] .waited, .job [97] (.finish 3)]

/-- A task is submitted and its reports are asked for by name. -/
def queryByName : List ApiEvent := [.submit [97] [98] 0, .report (.taskName [98]) fun _ => []]

/-- The request is answered with success and the task ends as completed; a query by the
name of a task waits for itself. -/
theorem early_stop_is_lost :
    (Machine.outs step init earlyStop)[1]? = some (.stop (.success .created)) ∧
      (∃ j, (Machine.run step init earlyStop).jobs [97] = some j ∧ j.task.status = .completed ∧
        j.runner = .done) ∧
      ¬ (Machine.run step init earlyStop).StopsHonoured ∧
      .blocked ∈ Machine.outs step init queryByName := by
  have hjob : ∃ j, (Machine.run step init earlyStop).jobs [97] = some j ∧
      j.task.status = .completed ∧ j.runner = .done := ⟨_, rfl, rfl, rfl⟩
  refine ⟨rfl, hjob, ?_, by decide⟩
  intro h
  obtain ⟨j, hj, hcompleted, -⟩ := hjob
  obtain ⟨j', hj', hstopped, -⟩ := h [97] (by decide)
  obtain rfl := Option.some.inj (hj.symm.trans hj')
  exact absurd (hcompleted.symm.trans hstopped) (by decide)

end ApiState

end AflNv
