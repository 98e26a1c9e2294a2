import AflNv.CBase
import AflNv.Lib.Machine

/-!
# The tasks of the local API server

`integration/api_server.py` starts a thread for each task that is submitted.  `run_task` marks the
task as running, makes its directory, opens its log and starts its process; it records the process
in the task, waits for it and writes the final status.  A stop request ends the process that the
task records.  Each block under `TASK_LOCK` is one step, and so is each call between two blocks.

None of the calls stands in a `try`, so one that raises ends the thread and leaves the task as
running; `run_task` of `fuzz_api.py` writes `failed` there.

* `Job.AtPlace` says which status belongs to which place of the thread.
* `Job.Follows` is what every step keeps: a final status is not left.
* `task_lifecycle` says that a run is truthful exactly when none of the calls raises.
-/

namespace AflNv.ApiServer

open AflNv.Lib

/-! ## The task and its thread -/

inductive Status where
  | created
  | running
  | completed
  | failed
  | stopped
  | dryRun
  | unsupportedRuntime
  deriving DecidableEq

/-- Completed, failed or stopped. -/
def Status.isFinal : Status → Bool
  | .completed | .failed | .stopped => true
  | .created | .running | .dryRun | .unsupportedRuntime => false

/-- The record in `TASKS`; times are what `utc_now` returns. -/
structure Task where
  status : Status
  createdAt : ℕ
  startedAt : Option ℕ
  finishedAt : Option ℕ
  returncode : Option ℤ
  /-- `_process` is in the record. -/
  hasProcess : Bool
  deriving DecidableEq

/-- The next call of `run_task`. -/
inductive Thread where
  /-- The thread has not been started. -/
  | unstarted
  /-- The first block under the lock. -/
  | begin
  | mkdir
  | openLog
  | popen
  /-- The second block under the lock. -/
  | record
  | wait
  /-- The last block under the lock. -/
  | finish (returncode : ℤ)
  | done
  /-- An exception has ended the thread. -/
  | died
  deriving DecidableEq

def Thread.ended : Thread → Bool
  | .done | .died => true
  | _ => false

/-- The process of a task. -/
inductive Process where
  | absent
  | alive
  | exited (returncode : ℤ)
  deriving DecidableEq

structure Job where
  task : Task
  thread : Thread
  process : Process
  deriving DecidableEq

/-- A step of the thread, or the end of the process. -/
inductive JobEvent where
  /-- `thread.start()` returns. -/
  | start
  | begin (now : ℕ)
  /-- `out_dir.mkdir`, `log_path.open` and `Popen`, each of which may raise. -/
  | mkdir (raises : Bool)
  | openLog (raises : Bool)
  | popen (raises : Bool)
  | record
  | exit (returncode : ℤ)
  | wait
  | finish (now : ℕ)
  deriving DecidableEq

/-- The status at the end of `run_task`. -/
def finalStatus (status : Status) (returncode : ℤ) : Status :=
  if status = .stopped then .stopped
  else if returncode = 0 then .completed
  else .failed

/-- One step of `run_task` or of its process; `none` where it is not at that step. -/
def Job.advance (j : Job) (e : JobEvent) : Option Job :=
  match e, j.thread, j.process with
  | .start, .unstarted, _ =>
    if j.task.status = .created then some { j with thread := .begin } else none
  | .begin now, .begin, _ => some { j with
      task := { j.task with status := .running, startedAt := some now }, thread := .mkdir }
  | .mkdir raises, .mkdir, _ =>
    if raises then some { j with thread := .died } else some { j with thread := .openLog }
  | .openLog raises, .openLog, _ =>
    if raises then some { j with thread := .died } else some { j with thread := .popen }
  | .popen raises, .popen, _ =>
    if raises then some { j with thread := .died }
    else some { j with thread := .record, process := .alive }
  | .record, .record, _ => some { j with
      task := { j.task with hasProcess := true }, thread := .wait }
  | .exit returncode, _, .alive => some { j with process := .exited returncode }
  | .wait, .wait, .exited returncode => some { j with thread := .finish returncode }
  | .finish now, .finish returncode, _ => some { j with
      task := { j.task with
        status := finalStatus j.task.status returncode
        returncode := some returncode
        finishedAt := some now
        hasProcess := false }
      thread := .done }
  | _, _, _ => none

/-- `proc is not None and proc.poll() is None` -/
def Job.stoppable (j : Job) : Bool := j.task.hasProcess && j.process = .alive

/-- The stop request on a task that exists; `terminate` only sends a signal. -/
def Job.stop (j : Job) (now : ℕ) : Job :=
  if j.stoppable then { j with task := { j.task with status := .stopped, finishedAt := some now } }
  else j

/-! ## The server -/

/-- `SCENARIOS` -/
def scenarios : List String :=
  ["nv_mab_smoke", "nv_mab_stability", "nv_mab_ablation", "alfresco_metadata_update",
    "flowable_doc_create", "flowable_doc_update", "alfresco_ae_v1_score_service",
    "o2oa_smoke_optional"]

/-- The keys of `LOCAL_SUMMARIES`. -/
def localSummaries : List String :=
  ["nv_mab_smoke", "nv_mab_stability", "nv_mab_ablation", "alfresco_ae_v1_score_service"]

/-- The task that `create_task` puts into `TASKS`; `none` when it raises. -/
def createTask (scenario : String) (outDirAccepted dryRun : Bool) (now : ℕ) : Option Task :=
  if !outDirAccepted then none
  else if scenario ∉ scenarios then none
  else if scenario ∉ localSummaries then some ⟨.unsupportedRuntime, now, none, none, none, false⟩
  else some ⟨if dryRun then .dryRun else .created, now, none, none, none, false⟩

inductive Event (ι : Type) where
  /-- A submit request; `uuid4` gives an id that is not in use. -/
  | submit (id : ι) (scenario : String) (outDirAccepted dryRun : Bool) (now : ℕ)
  | job (id : ι) (e : JobEvent)
  /-- A stop request; `terminate` may raise. -/
  | stop (id : ι) (raises : Bool) (now : ℕ)
  | query (id : ι)
  deriving DecidableEq

inductive Answer where
  /-- A step that is not possible in this state. -/
  | disabled
  | stepped
  | badRequest
  | notFound
  | internalError
  | status (status : Status)
  deriving DecidableEq

variable {ι : Type} [DecidableEq ι]

/-- `TASKS`, with the threads and the processes. -/
abbrev State (ι : Type) := ι → Option Job

def init : State ι := fun _ => none

def step (s : State ι) : Event ι → Answer × State ι
  | .submit id scenario outDirAccepted dryRun now =>
    match s id, createTask scenario outDirAccepted dryRun now with
    | some _, _ => (.disabled, s)
    | none, none => (.badRequest, s)
    | none, some task =>
      (.stepped, Function.update s id (some ⟨task, .unstarted, .absent⟩))
  | .job id e =>
    match (s id).bind fun j => j.advance e with
    | none => (.disabled, s)
    | some j => (.stepped, Function.update s id (some j))
  | .stop id raises now =>
    match s id with
    | none => (.notFound, s)
    | some j =>
      if j.stoppable && raises then (.internalError, s)
      else (.status (j.stop now).task.status, Function.update s id (some (j.stop now)))
  | .query id =>
    match s id with
    | none => (.notFound, s)
    | some j => (.status j.task.status, s)

/-! ## What one step does to a task -/

/-- The status and the recorded process belong to the place of the thread. -/
def Job.AtPlace (j : Job) : Prop :=
  match j.thread with
  | .unstarted => j.task.status.isFinal = false ∧ j.task.hasProcess = false
  | .begin => j.task.status = .created ∧ j.task.hasProcess = false
  | .mkdir | .openLog | .popen | .record | .died =>
    j.task.status = .running ∧ j.task.hasProcess = false
  | .wait | .finish _ => j.task.status = .running ∨ j.task.status = .stopped
  | .done => j.task.status.isFinal = true ∧ j.task.hasProcess = false

/-- What a step keeps: the status belongs to its place, and a final one is the same afterwards. -/
structure Job.Follows (j j' : Job) : Prop where
  atPlace : j'.AtPlace
  final : j.task.status.isFinal = true → j'.task.status = j.task.status

theorem Job.Follows.refl {j : Job} (h : j.AtPlace) : j.Follows j := ⟨h, fun _ => rfl⟩

theorem finalStatus_isFinal (status : Status) (returncode : ℤ) :
    (finalStatus status returncode).isFinal = true := by
  unfold finalStatus
  split_ifs <;> rfl

theorem finalStatus_stopped (returncode : ℤ) : finalStatus .stopped returncode = .stopped := rfl

/-- A step of the thread or of the process. -/
theorem Job.advance_follows {j j' : Job} {e : JobEvent} (h : j.AtPlace)
    (hstep : j.advance e = some j') : j.Follows j' := by
  unfold Job.advance at hstep
  split at hstep <;> rename_i hthread
  · -- the thread starts
    rw [AtPlace, hthread] at h
    split at hstep
    · rename_i hcreated
      cases hstep
      exact ⟨⟨hcreated, h.2⟩, fun _ => rfl⟩
    · cases hstep
  · -- created becomes running
    rw [AtPlace, hthread] at h
    cases hstep
    refine ⟨⟨rfl, h.2⟩, fun hfinal => ?_⟩
    rw [h.1] at hfinal
    cases hfinal
  · rw [AtPlace, hthread] at h
    split at hstep <;> cases hstep <;> exact ⟨h, fun _ => rfl⟩
  · rw [AtPlace, hthread] at h
    split at hstep <;> cases hstep <;> exact ⟨h, fun _ => rfl⟩
  · rw [AtPlace, hthread] at h
    split at hstep <;> cases hstep <;> exact ⟨h, fun _ => rfl⟩
  · rw [AtPlace, hthread] at h
    cases hstep
    exact ⟨Or.inl h.1, fun _ => rfl⟩
  · -- the process ends by itself
    cases hstep
    exact ⟨h, fun _ => rfl⟩
  · rename_i hprocess
    rw [AtPlace, hprocess] at h
    cases hstep
    exact ⟨h, fun _ => rfl⟩
  · -- running becomes completed or failed, stopped stays
    rw [AtPlace, hthread] at h
    cases hstep
    refine ⟨⟨finalStatus_isFinal _ _, rfl⟩, fun hfinal => ?_⟩
    rcases h with hrunning | hstopped
    · rw [hrunning] at hfinal
      cases hfinal
    · show finalStatus j.task.status _ = j.task.status
      rw [hstopped]
      exact finalStatus_stopped _
  · cases hstep

/-- A stop request. -/
theorem Job.stop_follows {j : Job} (h : j.AtPlace) (now : ℕ) : j.Follows (j.stop now) := by
  unfold Job.stop
  by_cases hstop : j.stoppable = true
  · rw [if_pos hstop]
    have hrecorded : j.task.hasProcess = true := (Bool.and_eq_true_iff.mp hstop).1
    -- only a thread that waits or is about to finish has recorded a process
    have hplace : (j.task.status = .running ∨ j.task.status = .stopped) ∧
        Job.AtPlace
          { j with task := { j.task with status := .stopped, finishedAt := some now } } := by
      unfold AtPlace at h ⊢
      cases hthread : j.thread <;> simp only [hthread, hrecorded] at h ⊢ <;> simp_all
    refine ⟨hplace.2, fun hfinal => ?_⟩
    rcases hplace.1 with hrunning | hstopped
    · rw [hrunning] at hfinal
      cases hfinal
    · exact hstopped.symm
  · rw [if_neg hstop]
    exact Job.Follows.refl h

/-! ## Runs -/

/-- The status of a task. -/
def statusOf (s : State ι) (id : ι) : Option Status := (s id).map fun j => j.task.status

def Placed (s : State ι) : Prop := ∀ id j, s id = some j → j.AtPlace

theorem forall_update {P : Job → Prop} {s : State ι} (h : ∀ id j, s id = some j → P j) {id : ι}
    {j : Job} (hj : P j) : ∀ id' j', Function.update s id (some j) id' = some j' → P j' := by
  intro id' j' hj'
  by_cases hid : id' = id
  · subst hid
    rw [Function.update_self] at hj'
    cases hj'
    exact hj
  · rw [Function.update_of_ne hid] at hj'
    exact h id' j' hj'

theorem createTask_spec {scenario : String} {outDirAccepted dryRun : Bool} {now : ℕ} {task : Task}
    (h : createTask scenario outDirAccepted dryRun now = some task) :
    task.status.isFinal = false ∧ task.hasProcess = false := by
  unfold createTask at h
  split at h
  · cases h
  split at h
  · cases h
  split at h
  · cases h
    exact ⟨rfl, rfl⟩
  · cases h
    cases dryRun <;> exact ⟨rfl, rfl⟩

/-- What a step does to the table: nothing, a new task, or a step of one task. -/
theorem step_cases {s : State ι} (h : Placed s) (e : Event ι) :
    (step s e).2 = s ∨
    ∃ id j', (step s e).2 = Function.update s id (some j') ∧ j'.AtPlace ∧
      ∀ j, s id = some j → j.Follows j' := by
  cases e with
  | submit id scenario outDirAccepted dryRun now =>
    simp only [step]
    split
    · exact Or.inl rfl
    · exact Or.inl rfl
    · rename_i hnew hcreate
      refine Or.inr ⟨id, _, rfl, createTask_spec hcreate, fun j hj => ?_⟩
      rw [hnew] at hj
      cases hj
  | job id e =>
    simp only [step]
    cases hj : s id with
    | none => exact Or.inl rfl
    | some j =>
      simp only [Option.bind_some]
      cases hadvance : j.advance e with
      | none => exact Or.inl rfl
      | some j' =>
        have hfollows := Job.advance_follows (h id j hj) hadvance
        refine Or.inr ⟨id, j', rfl, hfollows.atPlace, fun i hi => ?_⟩
        rw [hj] at hi
        cases hi
        exact hfollows
  | stop id raises now =>
    simp only [step]
    cases hj : s id with
    | none => exact Or.inl rfl
    | some j =>
      simp only
      split
      · exact Or.inl rfl
      · have hfollows := Job.stop_follows (h id j hj) now
        refine Or.inr ⟨id, _, rfl, hfollows.atPlace, fun i hi => ?_⟩
        rw [hj] at hi
        cases hi
        exact hfollows
  | query id =>
    simp only [step]
    split <;> exact Or.inl rfl

theorem step_placed {s : State ι} (h : Placed s) (e : Event ι) : Placed (step s e).2 := by
  rcases step_cases h e with hsame | ⟨id, j', hupdate, hplace, -⟩
  · rwa [hsame]
  · rw [hupdate]
    exact forall_update h hplace

/-- A final status is not left by a step. -/
theorem step_final {s : State ι} (h : Placed s) (e : Event ι) {id : ι} {status : Status}
    (hstatus : statusOf s id = some status) (hfinal : status.isFinal = true) :
    statusOf (step s e).2 id = some status := by
  rcases step_cases h e with hsame | ⟨id', j', hupdate, -, hfollows⟩
  · rwa [hsame]
  · rw [hupdate, statusOf]
    by_cases hid : id = id'
    · subst hid
      rw [Function.update_self]
      obtain ⟨j, hj, hstatus⟩ := Option.map_eq_some_iff.mp hstatus
      rw [Option.map_some, (hfollows j hj).final (hstatus ▸ hfinal), hstatus]
    · rw [Function.update_of_ne hid]
      exact hstatus

theorem run_placed (es : List (Event ι)) : Placed (Machine.run step init es) :=
  Machine.run_inv step Placed (fun _ e h => step_placed h e) (fun _ _ h => by cases h) es

/-- A final status is not left by a run. -/
theorem run_final {s : State ι} (h : Placed s) (es : List (Event ι)) {id : ι} {status : Status}
    (hstatus : statusOf s id = some status) (hfinal : status.isFinal = true) :
    statusOf (Machine.run step s es) id = some status :=
  (Machine.run_inv step (fun s => Placed s ∧ statusOf s id = some status)
    (fun _ e h => ⟨step_placed h.1 e, step_final h.1 e h.2 hfinal⟩) ⟨h, hstatus⟩ es).2

/-! ## Threads that die -/

/-- The next call of the thread raises. -/
def Job.dies (j : Job) (e : JobEvent) : Bool :=
  match e, j.thread with
  | .mkdir raises, .mkdir => raises
  | .openLog raises, .openLog => raises
  | .popen raises, .popen => raises
  | _, _ => false

/-- The step is not a call of `mkdir`, `open` or `Popen` that raises. -/
def returns (s : State ι) : Event ι → Bool
  | .job id e => (s id).all fun j => !j.dies e
  | _ => true

/-- No thread has died. -/
def Alive (s : State ι) : Prop := ∀ id j, s id = some j → j.thread ≠ .died

/-- Whenever the thread of a task has ended the status is a final one. -/
def Truthful (s : State ι) : Prop :=
  ∀ id j, s id = some j → j.thread.ended = true → j.task.status.isFinal = true

theorem Job.advance_alive {j j' : Job} {e : JobEvent} (h : j.thread ≠ .died)
    (hdies : j.dies e = false) (hstep : j.advance e = some j') : j'.thread ≠ .died := by
  unfold Job.advance at hstep
  unfold Job.dies at hdies
  split at hstep <;> grind

theorem Job.advance_died {j : Job} {e : JobEvent} (hdies : j.dies e = true) :
    j.advance e = some { j with thread := .died } := by
  unfold Job.dies at hdies
  split at hdies <;> simp_all [Job.advance]

theorem Job.stop_thread (j : Job) (now : ℕ) : (j.stop now).thread = j.thread := by
  unfold Job.stop
  split <;> rfl

theorem step_alive {s : State ι} (h : Alive s) {e : Event ι} (hreturns : returns s e = true) :
    Alive (step s e).2 := by
  cases e with
  | submit id scenario outDirAccepted dryRun now =>
    simp only [step]
    split
    · exact h
    · exact h
    · exact forall_update (P := fun j => j.thread ≠ .died) h (by simp)
  | job id e =>
    simp only [step]
    cases hj : s id with
    | none => exact h
    | some j =>
      simp only [Option.bind_some]
      cases hadvance : j.advance e with
      | none => exact h
      | some j' =>
        have hdies : j.dies e = false := by simpa [returns, hj] using hreturns
        exact forall_update (P := fun j => j.thread ≠ .died) h
          (Job.advance_alive (h id j hj) hdies hadvance)
  | stop id raises now =>
    simp only [step]
    cases hj : s id with
    | none => exact h
    | some j =>
      simp only
      split
      · exact h
      · refine forall_update (P := fun j => j.thread ≠ .died) h ?_
        rw [Job.stop_thread]
        exact h id j hj
  | query id =>
    simp only [step]
    split <;> exact h

omit [DecidableEq ι] in
theorem Alive.truthful {s : State ι} (h : Alive s) (hplaced : Placed s) : Truthful s := by
  intro id j hj hended
  have hplace := hplaced id j hj
  cases hthread : j.thread with
  | done =>
    rw [Job.AtPlace, hthread] at hplace
    exact hplace.1
  | died => exact absurd hthread (h id j hj)
  | _ =>
    rw [hthread] at hended
    cases hended

/-- A thread that dies leaves its task as running. -/
theorem returns_of_truthful {s : State ι} (h : Placed s) {e : Event ι}
    (htruthful : Truthful (step s e).2) : returns s e = true := by
  by_contra hraises
  cases e with
  | submit id scenario outDirAccepted dryRun now => exact hraises rfl
  | stop id raises now => exact hraises rfl
  | query id => exact hraises rfl
  | job id e =>
    cases hj : s id with
    | none => simp [returns, hj] at hraises
    | some j =>
      have hdies : j.dies e = true := by simpa [returns, hj] using hraises
      have hadvance := Job.advance_died hdies
      have hrunning : j.task.status = .running :=
        (Job.advance_follows (h id j hj) hadvance).atPlace.1
      have hstep : (step s (.job id e)).2 id = some { j with thread := .died } := by
        simp only [step, hj, Option.bind_some, hadvance, Function.update_self]
      have hfinal := htruthful id _ hstep rfl
      rw [hrunning] at hfinal
      cases hfinal

/-! ## The lifecycle -/

/-- What is promised of a run.  A final status is not left; whenever the thread of a task has ended
the status is final; a stop request that is answered with `stopped` is followed by no other
status. -/
structure Lifecycle (es : List (Event ι)) : Prop where
  keeps : ∀ p q, p ++ q <+: es → ∀ id status, statusOf (Machine.run step init p) id = some status →
    status.isFinal = true → statusOf (Machine.run step init (p ++ q)) id = some status
  ended : ∀ p, p <+: es → Truthful (Machine.run step init p)
  stopped : ∀ p id raises now q, p ++ [.stop id raises now] ++ q <+: es →
    (step (Machine.run step init p) (.stop id raises now)).1 = .status .stopped →
    statusOf (Machine.run step init (p ++ [.stop id raises now] ++ q)) id = some .stopped

theorem run_keeps (p q : List (Event ι)) {id : ι} {status : Status}
    (hstatus : statusOf (Machine.run step init p) id = some status)
    (hfinal : status.isFinal = true) :
    statusOf (Machine.run step init (p ++ q)) id = some status := by
  rw [Machine.run_append]
  exact run_final (run_placed p) q hstatus hfinal

/-- The answer of a stop request is the status after it. -/
theorem stop_answer {s : State ι} {id : ι} {raises : Bool} {now : ℕ} {status : Status}
    (h : (step s (.stop id raises now)).1 = .status status) :
    statusOf (step s (.stop id raises now)).2 id = some status := by
  simp only [step] at h ⊢
  cases hj : s id with
  | none =>
    rw [hj] at h
    cases h
  | some j =>
    simp only [hj] at h ⊢
    split at h
    · cases h
    · rename_i hcalm
      cases h
      rw [if_neg hcalm]
      show (Function.update s id (some (j.stop now)) id).map _ = _
      rw [Function.update_self]
      rfl

/-- A run is truthful all along exactly when no call of `mkdir`, `open` or `Popen` in it raises; the
other two promises are kept by every run. -/
theorem task_lifecycle (es : List (Event ι)) :
    Lifecycle es ↔ Machine.Meets step (fun s e => returns s e = true) init es := by
  have hplaced : Placed (init : State ι) := fun _ _ h => by cases h
  have halive : Alive (init : State ι) := fun _ _ h => by cases h
  have htruthful (s : State ι) (h : Placed s ∧ Alive s) : Truthful s := h.2.truthful h.1
  have hended : (∀ p, p <+: es → Truthful (Machine.run step init p)) ↔
      Machine.Meets step (fun s e => returns s e = true) init es :=
    Machine.forall_prefix_iff_meets step (fun s e => returns s e = true) htruthful
      (fun s e h hreturns => ⟨step_placed h.1 e, step_alive h.2 hreturns⟩)
      (fun s e h htruthful => returns_of_truthful h.1 htruthful)
      ⟨hplaced, halive⟩ es
  constructor
  · intro hlifecycle
    exact hended.mp hlifecycle.ended
  · intro hmeets
    refine ⟨fun p q _ id status hstatus hfinal => run_keeps p q hstatus hfinal,
      hended.mpr hmeets, fun p id raises now q _ hanswer => ?_⟩
    apply run_keeps
    · rw [Machine.run_concat]
      exact stop_answer hanswer
    · rfl

/-- The output directory is an existing file: `mkdir` raises, and the task stays as running. -/
theorem mkdir_raises_leaves_running :
    let s := Machine.run step (init : State ℕ) [.submit 0 "nv_mab_smoke" true false 0,
      .job 0 .start, .job 0 (.begin 1), .job 0 (.mkdir true)]
    ∃ j, s 0 = some j ∧ j.thread.ended = true ∧ j.task.status = .running ∧ ¬ Truthful s := by
  intro s
  have hjob : s 0 = some ⟨⟨.running, 0, some 1, none, none, false⟩, .died, .absent⟩ := by decide
  refine ⟨_, hjob, rfl, rfl, fun htruthful => ?_⟩
  have hfinal := htruthful 0 _ hjob rfl
  cases hfinal

end AflNv.ApiServer
