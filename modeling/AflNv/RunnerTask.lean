import AflNv.CBase
import AflNv.Lib.Machine

/-!
# The status file of a runner task

`submit` of `runner/fuzz_test_runner.py` writes `status.json` and starts a supervisor, which starts
the child and waits for it.  `query` and `stop` are calls of their own.  All of them load the
document, change their copy and replace the file; there is no lock, and the supervisor keeps one
copy while the child runs.  A step is one load, one replacement, one signal or one look at a
process.  Every replacement succeeds.

* `Sound` is what is promised of a state, with the statuses that have been stored so far.
* `Clean` says of a step that it loses no update and gives no verdict too early.
* `status_lifecycle` says that a run is sound all along exactly when its steps are clean.
-/

namespace AflNv.RunnerTask

open AflNv.Lib

/-! ## The document -/

inductive Status where
  | running
  | stopping
  | exited
  | failed
  | timedOut
  | stopped
  deriving DecidableEq

/-- `TERMINAL_STATUSES` -/
def Status.isTerminal : Status → Bool
  | .running | .stopping => false
  | .exited | .failed | .timedOut | .stopped => true

/-- What `_sanitize_failure_reason` leaves of the reasons. -/
inductive Reason where
  | runnerStopped
  | supervisorLost
  | supervisorFailed
  | childPopenFailed
  | runnerTimeout
  | missingFuzzerStats
  | noUsableTestCases
  | runnerExitCode (returncode : ℤ)
  | runnerFailed
  deriving DecidableEq

/-- `status.json`, without the fields that no step reads or changes. -/
structure Doc where
  status : Status
  pid : Option ℕ
  submitProcessResult : Option ℤ
  runnerExitCode : Option ℤ
  launchReturncode : Option ℤ
  childLaunchReturncode : Option ℤ
  failureReason : Option Reason
  recorded : Bool
  deriving DecidableEq

/-- The document of a new task. -/
def submitted : Doc := ⟨.running, none, none, none, none, none, none, false⟩

/-- `_terminal_status` -/
def Doc.terminal (d : Doc) (final : Status) (runnerExitCode childLaunchReturncode : Option ℤ)
    (failureReason : Option Reason) : Doc :=
  { d with
    status := final
    runnerExitCode := runnerExitCode
    launchReturncode := runnerExitCode
    childLaunchReturncode := childLaunchReturncode
    failureReason := failureReason
    recorded := true }

/-- What `_refresh_terminal_status` makes of a task whose supervisor is gone. -/
def Doc.refreshed (d : Doc) : Doc :=
  if d.status = .stopping then
    d.terminal .stopped d.runnerExitCode d.childLaunchReturncode (some .runnerStopped)
  else d.terminal .failed d.runnerExitCode d.childLaunchReturncode (some .supervisorLost)

/-- The verdict of the supervisor on a child that has ended; `hasStats` and `reason` are what it
finds in the files of the child. -/
def Doc.classified (d : Doc) (stopRequested : Bool) (returncode : ℤ) (hasStats : Bool)
    (reason : Reason) : Doc :=
  if stopRequested then d.terminal .stopped (some returncode) (some 0) (some .runnerStopped)
  else if returncode = 124 then d.terminal .timedOut (some 124) (some 0) (some .runnerTimeout)
  else if returncode = 0 then
    if hasStats then d.terminal .exited (some 0) (some 0) none
    else d.terminal .failed (some 0) (some 0) (some .missingFuzzerStats)
  else d.terminal .failed (some returncode) (some 0) (some reason)

/-! ## The processes -/

inductive Child where
  | notStarted
  | failedToStart
  | running
  | ended (returncode : ℤ)
  deriving DecidableEq

/-- The child has not ended, and has not failed to start. -/
def Child.mayEnd (c : Child) : Bool := c = .notStarted || c = .running

/-- `submit`, behind the first time that it stores the document. -/
inductive Submit where
  /-- The supervisor is started. -/
  | spawning
  /-- `posix_spawn` has failed. -/
  | failing
  /-- The document is stored with the process id. -/
  | recording (pid : ℕ)
  /-- The start marker is made. -/
  | marking
  | returned
  | raised
  deriving DecidableEq

/-- The next action of the supervisor, with its copy of the document. -/
inductive Supervisor where
  | unspawned
  | loading
  /-- The signal handlers are not installed yet. -/
  | loaded (copy : Doc)
  /-- For the start marker. -/
  | waiting (copy : Doc)
  /-- The logs are opened and the child is started. -/
  | spawning (copy : Doc)
  | reloading
  | launched (copy : Doc)
  /-- `float(timeout)` -/
  | readingTimeout (copy : Doc)
  | polling (copy : Doc)
  | waitingChild (copy : Doc)
  /-- The time is over, and the child has been sent `SIGTERM`. -/
  | terminating (copy : Doc)
  | collected (copy : Doc) (returncode : ℤ)
  /-- The `except` around it all. -/
  | handling
  | storing (final : Doc)
  /-- Its last document is stored; the process may be there for a while. -/
  | done
  /-- A signal came before the handlers were there. -/
  | killed
  deriving DecidableEq

/-- It may still store a document. -/
def Supervisor.atWork : Supervisor → Bool
  | .unspawned | .done | .killed => false
  | _ => true

inductive Kind where
  | query
  | stop
  deriving DecidableEq

/-- The next action of a request. -/
inductive Request where
  | idle
  | loaded (kind : Kind) (copy : Doc)
  /-- The supervisor was gone. -/
  | storing (kind : Kind) (final : Doc)
  | aiming (pid : Option ℕ)
  | touching
  | killing
  | reloading (sent : Bool)
  | marking (latest : Doc)
  | polling (latest : Doc)
  | checking (latest : Doc)
  | givingUp (latest : Doc)
  | done
  deriving DecidableEq

/-- Behind the refresh only a stop request goes on. -/
def Kind.next (kind : Kind) (pid : Option ℕ) : Request :=
  match kind with
  | .query => .done
  | .stop => .aiming pid

/-- A task; the requests are told apart by `ι`. -/
structure World (ι : Type) where
  doc : Doc
  /-- The statuses that have been stored, the last one first. -/
  stored : List Status
  submit : Submit
  startMarker : Bool
  stopMarker : Bool
  supervisor : Supervisor
  /-- `stop_requested` of the supervisor. -/
  stopRequested : Bool
  child : Child
  /-- The signal of a stop request came to the supervisor before the child had ended. -/
  signalled : Bool
  requests : ι → Request

variable {ι : Type}

def init : World ι :=
  ⟨submitted, [.running], .spawning, false, false, .unspawned, false, .notStarted, false,
    fun _ => .idle⟩

/-- `save_json` -/
def World.save (w : World ι) (d : Doc) : World ι :=
  { w with doc := d, stored := d.status :: w.stored }

/-- `is_pid_alive`; where the supervisor is gone its number may be in use again. -/
def World.alive (w : World ι) (reused : Bool) : Bool := w.supervisor.atWork || reused

/-! ## The steps -/

inductive SubmitEvent where
  /-- `posix_spawn` returns a process id, or fails. -/
  | spawn (pid : Option ℕ)
  | save
  | touch
  deriving DecidableEq

def World.submitStep (w : World ι) (e : SubmitEvent) : Option (World ι) :=
  match e, w.submit with
  | .spawn (some pid), .spawning =>
    some { w with submit := .recording pid, supervisor := .loading }
  | .spawn none, .spawning => some { w with submit := .failing }
  | .save, .failing =>
    let d := submitted.terminal .failed none none (some .childPopenFailed)
    some { w.save { d with submitProcessResult := some 1 } with submit := .raised }
  | .save, .recording pid =>
    let d := { submitted with
      pid := some pid, submitProcessResult := some 0, launchReturncode := some 0 }
    some { w.save d with submit := .marking }
  | .touch, .marking => some { w with submit := .returned, startMarker := true }
  | _, _ => none

inductive PopenResult where
  | started
  | osError
  deriving DecidableEq

inductive SupervisorEvent where
  | load
  | installHandlers
  /-- The start marker is there. -/
  | begin
  | popen (result : PopenResult)
  | save
  | readTimeout
  /-- The top of the loop. -/
  | poll (expired : Bool)
  /-- `proc.wait` is over without an answer. -/
  | expire
  /-- `proc.wait` returns. -/
  | reap
  | classify (hasStats : Bool) (reason : Reason)
  /-- A call raises; `float(timeout)` does so for a huge integer. -/
  | raises
  | handle
  deriving DecidableEq

def World.supervisorStep (w : World ι) (e : SupervisorEvent) : Option (World ι) :=
  match e, w.supervisor with
  | .load, .loading => some { w with supervisor := .loaded w.doc }
  | .installHandlers, .loaded copy => some { w with supervisor := .waiting copy }
  | .begin, .waiting copy =>
    if !w.startMarker then none
    else if w.stopRequested then
      some { w with
        supervisor := .storing (copy.terminal .stopped none none (some .runnerStopped)) }
    else some { w with supervisor := .spawning copy }
  | .popen .started, .spawning _ => some { w with supervisor := .reloading, child := .running }
  | .popen .osError, .spawning copy =>
    some { w with
      supervisor := .storing (copy.terminal .failed none none (some .childPopenFailed))
      child := .failedToStart }
  | .load, .reloading =>
    some { w with
      supervisor := .launched w.doc
      stopRequested := w.stopRequested || w.doc.status = .stopping || w.stopMarker }
  | .save, .launched copy =>
    let d := { copy with childLaunchReturncode := some 0 }
    some { w.save d with supervisor := .readingTimeout d }
  | .readTimeout, .readingTimeout copy => some { w with supervisor := .polling copy }
  | .poll expired, .polling copy =>
    some { w with
      supervisor := if expired then .terminating copy else .waitingChild copy
      stopRequested := w.stopRequested || w.stopMarker }
  | .expire, .waitingChild copy => some { w with supervisor := .polling copy }
  | .reap, .waitingChild copy =>
    match w.child with
    | .ended returncode => some { w with supervisor := .collected copy returncode }
    | _ => none
  | .reap, .terminating copy =>
    match w.child with
    | .ended returncode =>
      let d := copy.terminal .timedOut (some returncode) (some 0) (some .runnerTimeout)
      some { w with supervisor := .storing { d with launchReturncode := some 124 } }
    | _ => none
  | .classify hasStats reason, .collected copy returncode =>
    some { w with
      supervisor := .storing (copy.classified w.stopRequested returncode hasStats reason) }
  | .raises, .spawning _ | .raises, .reloading | .raises, .readingTimeout _
  | .raises, .collected _ _ => some { w with supervisor := .handling }
  | .handle, .handling =>
    some { w with
      supervisor := .storing (w.doc.terminal .failed w.doc.runnerExitCode
        w.doc.childLaunchReturncode (some .supervisorFailed)) }
  | .save, .storing final => some { w.save final with supervisor := .done }
  | _, _ => none

/-- `SIGINT` for the supervisor; its handler runs before its next step.  What the handler sends to
the child is left to the child. -/
def World.interrupt (w : World ι) : World ι :=
  match w.supervisor with
  | .loading | .loaded _ =>
    { w with supervisor := .killed, signalled := w.signalled || w.child.mayEnd }
  | _ => { w with stopRequested := true, signalled := w.signalled || w.child.mayEnd }

inductive RequestEvent where
  | load (kind : Kind)
  | refresh (reused : Bool)
  | aim (reused : Bool)
  | touch
  | kill (reused : Bool)
  | reload
  | poll
  | check (reused : Bool)
  /-- The two seconds are over. -/
  | expire
  | save
  deriving DecidableEq

section

variable [DecidableEq ι]

def World.become (w : World ι) (i : ι) (r : Request) : World ι :=
  { w with requests := Function.update w.requests i r }

def World.requestStep (w : World ι) (i : ι) (e : RequestEvent) : Option (World ι) :=
  match e, w.requests i with
  | .load kind, .idle => some (w.become i (.loaded kind w.doc))
  | .refresh reused, .loaded kind copy =>
    if copy.status.isTerminal || copy.pid = none || w.alive reused then
      some (w.become i (kind.next copy.pid))
    else some (w.become i (.storing kind copy.refreshed))
  | .save, .storing kind final => some ((w.save final).become i (kind.next final.pid))
  | .aim reused, .aiming pid =>
    some (w.become i (if pid ≠ none && w.alive reused then .touching else .reloading false))
  | .touch, .touching => some ({ w with stopMarker := true }.become i .killing)
  | .kill reused, .killing =>
    if w.supervisor.atWork then some (w.interrupt.become i (.reloading true))
    else some (w.become i (.reloading reused))
  | .reload, .reloading sent =>
    some (w.become i (if sent && !w.doc.status.isTerminal then .marking w.doc else .done))
  | .save, .marking latest =>
    let d := { latest with status := .stopping }
    some ((w.save d).become i (.polling d))
  | .poll, .polling _ =>
    some (w.become i (if w.doc.status.isTerminal then .done else .checking w.doc))
  | .check reused, .checking latest =>
    some (w.become i (if w.alive reused then .polling latest else .givingUp latest))
  | .expire, .polling latest => some (w.become i (.givingUp latest))
  | .save, .givingUp latest =>
    -- the document has no `child_pid`, so nothing is sent to the child
    let d := latest.terminal .stopped latest.runnerExitCode latest.childLaunchReturncode
      (some .runnerStopped)
    some ((w.save d).become i .done)
  | _, _ => none

inductive Event (ι : Type) where
  | submit (e : SubmitEvent)
  | supervisor (e : SupervisorEvent)
  /-- The child ends by itself or by a signal. -/
  | exit (returncode : ℤ)
  | request (i : ι) (e : RequestEvent)
  deriving DecidableEq

/-- One step of the task; one that is not possible changes nothing. -/
def advance (w : World ι) : Event ι → Option (World ι)
  | .submit e => w.submitStep e
  | .supervisor e => w.supervisorStep e
  | .exit returncode =>
    if w.child = .running then some { w with child := .ended returncode } else none
  | .request i e => w.requestStep i e

def step (w : World ι) (e : Event ι) : Bool × World ι :=
  match advance w e with
  | some w' => (true, w')
  | none => (false, w)

end

/-! ## What is promised -/

/-- What is promised of a task.  A terminal status has not become another one; under a terminal
status the child does not run; where a signal came before the child had ended a terminal status is
stopped or timed out. -/
structure Sound (w : World ι) : Prop where
  kept : w.stored.Pairwise fun later earlier => earlier.isTerminal = true → later = earlier
  childEnded : w.doc.status.isTerminal = true → w.child ≠ .running
  obeyed : w.signalled = true → w.doc.status.isTerminal = true →
    w.doc.status = .stopped ∨ w.doc.status = .timedOut

/-- The stored status is not a verdict, or it is this one. -/
def Agrees (w : World ι) (new : Status) : Prop :=
  w.doc.status.isTerminal = true → new = w.doc.status

/-- What a step of the supervisor must not meet: a stop request has given its verdict meanwhile, or
a failure comes behind a signal or while the child runs. -/
def SupervisorClean (w : World ι) (e : SupervisorEvent) : Prop :=
  match e, w.supervisor with
  | .popen .started, .spawning _ => w.doc.status.isTerminal = false
  | .save, .launched copy => Agrees w copy.status
  | .save, .storing final => Agrees w final.status ∧
      (final.status = .failed → w.child ≠ .running ∧ w.signalled = false)
  | _, _ => True

/-- What a step of a request must not meet: a verdict that was stored behind the load, a child that
outlasts the two seconds, or a supervisor that is taken for lost behind a signal. -/
def RequestClean (w : World ι) (i : ι) (e : RequestEvent) : Prop :=
  match e, w.requests i with
  | .save, .storing _ final =>
    Agrees w final.status ∧ (final.status = .failed → w.signalled = false)
  | .save, .marking _ => w.doc.status.isTerminal = false
  | .save, .givingUp _ => Agrees w .stopped ∧ w.child ≠ .running
  | _, _ => True

def Clean (w : World ι) : Event ι → Prop
  | .supervisor e => SupervisorClean w e
  | .request i e => RequestClean w i e
  | .submit _ | .exit _ => True

/-! ## What belongs to the places of the processes -/

/-- The child and the stored status belong to the place of the supervisor. -/
def AtPlace (w : World ι) : Prop :=
  match w.supervisor with
  | .unspawned => w.child = .notStarted
  | .loading | .loaded _ => w.child = .notStarted ∧ w.signalled = false
  | .waiting _ | .spawning _ =>
    w.child = .notStarted ∧ (w.signalled = true → w.stopRequested = true)
  | .reloading | .readingTimeout _ | .polling _ | .waitingChild _ | .terminating _ =>
    w.child ≠ .notStarted ∧ (w.signalled = true → w.stopRequested = true)
  | .launched copy =>
    w.child ≠ .notStarted ∧ (w.signalled = true → w.stopRequested = true) ∧
      (copy.status.isTerminal = true → w.doc.status = copy.status)
  | .collected _ _ =>
    w.child.mayEnd = false ∧ (w.signalled = true → w.stopRequested = true)
  | .handling => True
  | .storing final => final.status.isTerminal = true ∧
      (final.status ≠ .failed → w.child ≠ .running) ∧
      (final.status = .exited → w.child.mayEnd = false ∧ w.signalled = false)
  | .done => w.doc.status.isTerminal = true
  | .killed => w.child = .notStarted

/-- No process id is in the document yet, so no request has found one. -/
def Request.blind : Request → Bool
  | .idle | .done | .reloading false | .aiming none => true
  | .loaded _ copy => copy.pid = none
  | _ => false

/-- The document is as `submit` has written it first, and no request has found a process id. -/
structure Unseen (w : World ι) : Prop where
  running : w.doc.status = .running
  pid : w.doc.pid = none
  signalled : w.signalled = false
  unmarked : w.startMarker = false
  blind : ∀ i, (w.requests i).blind = true

/-- What belongs to the place of `submit`. -/
def AtSubmit (w : World ι) : Prop :=
  match w.submit with
  | .spawning | .failing => w.supervisor = .unspawned ∧ Unseen w
  | .recording _ => w.supervisor ≠ .unspawned ∧ Unseen w
  | .raised => w.supervisor = .unspawned ∧ w.doc.pid = none ∧ ∀ i, (w.requests i).blind = true
  | .marking | .returned => w.supervisor ≠ .unspawned

/-- Up to the start marker the supervisor stores nothing. -/
def Supervisor.early : Supervisor → Bool
  | .unspawned | .loading | .loaded _ | .waiting _ | .killed => true
  | _ => false

structure Inv (w : World ι) : Prop where
  sound : Sound w
  head : w.stored.head? = some w.doc.status
  submit : AtSubmit w
  place : AtPlace w
  unmarked : w.startMarker = false → w.supervisor.early = true
  /-- While the supervisor is at work only a stop request has given a verdict. -/
  verdict : w.supervisor.atWork = true → w.doc.status.isTerminal = true → w.doc.status = .stopped
  gone : ∀ i kind final, w.requests i = .storing kind final →
    (w.supervisor = .done ∨ w.supervisor = .killed) ∧
      (final.status = .failed ∨ final.status = .stopped)

theorem init_inv : Inv (init : World ι) where
  sound := ⟨List.pairwise_singleton .., fun h => (Bool.false_ne_true h).elim,
    fun h => (Bool.false_ne_true h).elim⟩
  head := rfl
  submit := ⟨rfl, rfl, rfl, rfl, rfl, fun _ => rfl⟩
  place := rfl
  unmarked _ := rfl
  verdict h := (Bool.false_ne_true h).elim
  gone i kind final h := by cases h

/-! ## What the replacements keep -/

theorem mem_stored {w : World ι} (h : Inv w) : w.doc.status ∈ w.stored :=
  List.mem_of_mem_head? (Option.mem_def.mpr h.head)

/-- A document that agrees with the stored one may be stored. -/
theorem Inv.sound_save {w : World ι} (h : Inv w) {d : Doc} (hagrees : Agrees w d.status)
    (hchild : d.status.isTerminal = true → w.child ≠ .running)
    (hobeyed : w.signalled = true → d.status.isTerminal = true →
      d.status = .stopped ∨ d.status = .timedOut) : Sound (w.save d) where
  kept := by
    refine List.pairwise_cons.mpr ⟨fun earlier hmem hterminal => ?_, h.sound.kept⟩
    -- the last status that was stored is the earlier one, if that is a verdict
    have hcurrent : w.doc.status = earlier := by
      obtain ⟨older, hstored⟩ := List.head?_eq_some_iff.mp h.head
      have hkept := h.sound.kept
      rw [hstored] at hmem hkept
      rcases List.mem_cons.mp hmem with hfirst | hrest
      · exact hfirst.symm
      · exact (List.pairwise_cons.mp hkept).1 _ hrest hterminal
    exact (hagrees (hcurrent ▸ hterminal)).trans hcurrent
  childEnded := hchild
  obeyed := hobeyed

/-- A sound state does not come from a replacement that disagrees. -/
theorem Inv.agrees_of_sound {w w' : World ι} (h : Inv w) {d : Doc} (hsound : Sound w')
    (hstored : w'.stored = d.status :: w.stored) : Agrees w d.status := by
  intro hterminal
  have hkept := hsound.kept
  rw [hstored] at hkept
  exact (List.pairwise_cons.mp hkept).1 _ (mem_stored h) hterminal

/-! ## The steps of the supervisor -/

theorem Unseen.of_eq {w w' : World ι} (h : Unseen w) (hdoc : w'.doc = w.doc)
    (hsignalled : w'.signalled = w.signalled) (hmarker : w'.startMarker = w.startMarker)
    (hrequests : w'.requests = w.requests) : Unseen w' where
  running := hdoc ▸ h.running
  pid := hdoc ▸ h.pid
  signalled := hsignalled.trans h.signalled
  unmarked := hmarker.trans h.unmarked
  blind := hrequests ▸ h.blind

theorem AtSubmit.of_supervised {w w' : World ι} (h : AtSubmit w)
    (hspawned : w.supervisor ≠ .unspawned) (hspawned' : w'.supervisor ≠ .unspawned)
    (hsubmit : w'.submit = w.submit) (hmarker : w'.startMarker = w.startMarker)
    (hdoc : w.startMarker = false → w'.doc = w.doc ∧ w'.signalled = w.signalled)
    (hrequests : w'.requests = w.requests) : AtSubmit w' := by
  unfold AtSubmit at h ⊢
  rw [hsubmit]
  cases hplace : w.submit with
  | recording pid =>
    rw [hplace] at h
    obtain ⟨hdoc, hsignalled⟩ := hdoc h.2.unmarked
    exact ⟨hspawned', h.2.of_eq hdoc hsignalled hmarker hrequests⟩
  | marking => exact hspawned'
  | returned => exact hspawned'
  | spawning | failing | raised =>
    rw [hplace] at h
    exact absurd h.1 hspawned

theorem spawned_of_atWork {p : Supervisor} (h : p.atWork = true) : p ≠ .unspawned := by
  rintro rfl
  exact Bool.false_ne_true h

/-- While the supervisor is at work no request has found it gone. -/
theorem Inv.not_gone {w : World ι} (h : Inv w) (hwork : w.supervisor.atWork = true) {i : ι}
    {kind : Kind} {final : Doc} : w.requests i ≠ .storing kind final := by
  intro hrequest
  obtain ⟨hdone | hkilled, -⟩ := h.gone i kind final hrequest
  · rw [hdone] at hwork
    exact Bool.false_ne_true hwork
  · rw [hkilled] at hwork
    exact Bool.false_ne_true hwork

/-- A step of the supervisor that stores nothing. -/
theorem Inv.move {w : World ι} (h : Inv w) (hwork : w.supervisor.atWork = true) {p : Supervisor}
    (hp : p.atWork = true) (stopRequested : Bool) (child : Child)
    (hchild : w.doc.status.isTerminal = true → child ≠ .running)
    (hearly : w.startMarker = false → p.early = true)
    (hplace : AtPlace { w with supervisor := p, stopRequested := stopRequested, child := child }) :
    Inv { w with supervisor := p, stopRequested := stopRequested, child := child } where
  sound := ⟨h.sound.kept, hchild, h.sound.obeyed⟩
  head := h.head
  submit := h.submit.of_supervised (spawned_of_atWork hwork) (spawned_of_atWork hp) rfl rfl
    (fun _ => ⟨rfl, rfl⟩) rfl
  place := hplace
  unmarked := hearly
  verdict _ := h.verdict hwork
  gone _ _ _ hrequest := absurd hrequest (h.not_gone hwork)

/-- A step of the supervisor that stores its copy. -/
theorem Inv.store {w : World ι} (h : Inv w) (hwork : w.supervisor.atWork = true)
    (hlate : w.supervisor.early = false) {d : Doc} {p : Supervisor} (hp : p ≠ .unspawned)
    (hsound : Sound (w.save d))
    (hverdict : p.atWork = true → d.status.isTerminal = true → d.status = .stopped)
    (hplace : AtPlace { w.save d with supervisor := p }) :
    Inv { w.save d with supervisor := p } where
  sound := ⟨hsound.kept, hsound.childEnded, hsound.obeyed⟩
  head := rfl
  submit := h.submit.of_supervised (spawned_of_atWork hwork) hp rfl rfl
    (fun hmarker => absurd (h.unmarked hmarker) (Bool.eq_false_iff.mp hlate)) rfl
  place := hplace
  unmarked hmarker := absurd (h.unmarked hmarker) (Bool.eq_false_iff.mp hlate)
  verdict := hverdict
  gone _ _ _ hrequest := absurd hrequest (h.not_gone hwork)

theorem classified_terminal (d : Doc) (stopRequested : Bool) (returncode : ℤ) (hasStats : Bool)
    (reason : Reason) :
    (d.classified stopRequested returncode hasStats reason).status.isTerminal = true := by
  unfold Doc.classified
  split_ifs <;> rfl

/-- A child that was asked to stop has not exited. -/
theorem classified_stopped (d : Doc) (returncode : ℤ) (hasStats : Bool) (reason : Reason) :
    (d.classified true returncode hasStats reason).status = .stopped := rfl

theorem supervisorStep_inv {w w' : World ι} {e : SupervisorEvent} (h : Inv w)
    (hclean : SupervisorClean w e) (hstep : w.supervisorStep e = some w') : Inv w' := by
  have hplace := h.place
  have hwork {p : Supervisor} (heq : w.supervisor = p) (hp : p.atWork = true) :
      w.supervisor.atWork = true := by rwa [heq]
  have hearly {p : Supervisor} (heq : w.supervisor = p) (hp : p.early = false) :
      w.supervisor.early = false := by rwa [heq]
  have hlate {p q : Supervisor} (heq : w.supervisor = p) (hp : p.early = false) :
      w.startMarker = false → q.early = true := fun hmarker =>
    absurd (h.unmarked hmarker) (Bool.eq_false_iff.mp (hearly heq hp))
  unfold World.supervisorStep at hstep
  split at hstep <;> rename_i hsupervisor
  · -- the first copy
    rw [AtPlace, hsupervisor] at hplace
    cases hstep
    exact h.move (hwork hsupervisor rfl) rfl _ _ h.sound.childEnded (fun _ => rfl) hplace
  · rw [AtPlace, hsupervisor] at hplace
    cases hstep
    exact h.move (hwork hsupervisor rfl) rfl _ _ h.sound.childEnded (fun _ => rfl)
      ⟨hplace.1, fun hsignalled => absurd hsignalled (Bool.eq_false_iff.mp hplace.2)⟩
  · -- the start marker is there
    rename_i copy
    rw [AtPlace, hsupervisor] at hplace
    split at hstep
    · cases hstep
    rename_i hmarker
    have hmarked {q : Supervisor} : w.startMarker = false → q.early = true := fun hunmarked =>
      absurd (by rw [hunmarked]; rfl) hmarker
    have hnotRunning : w.child ≠ .running := by
      rw [hplace.1]
      exact Child.noConfusion
    split at hstep
    · cases hstep
      exact h.move (hwork hsupervisor rfl) rfl _ _ h.sound.childEnded hmarked
        ⟨rfl, fun _ => hnotRunning, Status.noConfusion⟩
    · cases hstep
      exact h.move (hwork hsupervisor rfl) rfl _ _ h.sound.childEnded hmarked hplace
  · -- the child starts
    rw [AtPlace, hsupervisor] at hplace
    simp only [SupervisorClean, hsupervisor] at hclean
    cases hstep
    exact h.move (hwork hsupervisor rfl) rfl _ _
      (fun hterminal => absurd hterminal (Bool.eq_false_iff.mp hclean)) (hlate hsupervisor rfl)
      ⟨Child.noConfusion, hplace.2⟩
  · cases hstep
    exact h.move (hwork hsupervisor rfl) rfl _ _ (fun _ => Child.noConfusion)
      (hlate hsupervisor rfl) ⟨rfl, fun _ => Child.noConfusion, Status.noConfusion⟩
  · -- the copy that is kept while the child runs
    rw [AtPlace, hsupervisor] at hplace
    cases hstep
    refine h.move (hwork hsupervisor rfl) rfl _ _ h.sound.childEnded (hlate hsupervisor rfl)
      ⟨hplace.1, fun hsignalled => ?_, fun _ => rfl⟩
    dsimp only
    rw [hplace.2 hsignalled]
    rfl
  · rename_i copy
    rw [AtPlace, hsupervisor] at hplace
    simp only [SupervisorClean, hsupervisor] at hclean
    cases hstep
    refine h.store (hwork hsupervisor rfl) (hearly hsupervisor rfl) Supervisor.noConfusion
      (h.sound_save hclean (fun hterminal => ?_) fun hsignalled hterminal => ?_)
      (fun _ hterminal => ?_) ⟨hplace.1, hplace.2.1⟩
    all_goals
      have hsame : w.doc.status = copy.status := hplace.2.2 hterminal
      rw [← hsame] at hterminal
    · exact h.sound.childEnded hterminal
    · exact hsame ▸ h.sound.obeyed hsignalled hterminal
    · exact hsame ▸ h.verdict (hwork hsupervisor rfl) hterminal
  · rw [AtPlace, hsupervisor] at hplace
    cases hstep
    exact h.move (hwork hsupervisor rfl) rfl _ _ h.sound.childEnded (hlate hsupervisor rfl) hplace
  · -- the top of the loop
    rename_i expired copy
    rw [AtPlace, hsupervisor] at hplace
    have hrequested : w.signalled = true → (w.stopRequested || w.stopMarker) = true := by
      intro hsignalled
      rw [hplace.2 hsignalled]
      rfl
    cases hstep
    cases expired with
    | true =>
      exact h.move (hwork hsupervisor rfl) rfl _ _ h.sound.childEnded (hlate hsupervisor rfl)
        ⟨hplace.1, hrequested⟩
    | false =>
      exact h.move (hwork hsupervisor rfl) rfl _ _ h.sound.childEnded (hlate hsupervisor rfl)
        ⟨hplace.1, hrequested⟩
  · rw [AtPlace, hsupervisor] at hplace
    cases hstep
    exact h.move (hwork hsupervisor rfl) rfl _ _ h.sound.childEnded (hlate hsupervisor rfl) hplace
  · -- the child has ended
    rw [AtPlace, hsupervisor] at hplace
    split at hstep
    · rename_i hchild
      cases hstep
      refine h.move (hwork hsupervisor rfl) rfl _ _ h.sound.childEnded (hlate hsupervisor rfl)
        ⟨?_, hplace.2⟩
      dsimp only
      rw [hchild]
      rfl
    · cases hstep
  · split at hstep
    · rename_i hchild
      cases hstep
      refine h.move (hwork hsupervisor rfl) rfl _ _ h.sound.childEnded (hlate hsupervisor rfl)
        ⟨rfl, fun _ => ?_, Status.noConfusion⟩
      dsimp only
      rw [hchild]
      exact Child.noConfusion
    · cases hstep
  · -- the verdict on the child
    rename_i hasStats reason copy returncode
    rw [AtPlace, hsupervisor] at hplace
    have hnotRunning : w.child ≠ .running := by
      intro hchild
      rw [hchild] at hplace
      exact Bool.false_ne_true hplace.1.symm
    cases hstep
    refine h.move (hwork hsupervisor rfl) rfl _ _ h.sound.childEnded (hlate hsupervisor rfl)
      ⟨classified_terminal .., fun _ => hnotRunning, fun hexited => ⟨hplace.1, ?_⟩⟩
    rw [Bool.eq_false_iff]
    intro hsignalled
    rw [hplace.2 hsignalled, classified_stopped] at hexited
    cases hexited
  · cases hstep
    exact h.move (hwork hsupervisor rfl) rfl _ _ h.sound.childEnded (hlate hsupervisor rfl) trivial
  · cases hstep
    exact h.move (hwork hsupervisor rfl) rfl _ _ h.sound.childEnded (hlate hsupervisor rfl) trivial
  · cases hstep
    exact h.move (hwork hsupervisor rfl) rfl _ _ h.sound.childEnded (hlate hsupervisor rfl) trivial
  · cases hstep
    exact h.move (hwork hsupervisor rfl) rfl _ _ h.sound.childEnded (hlate hsupervisor rfl) trivial
  · cases hstep
    exact h.move (hwork hsupervisor rfl) rfl _ _ h.sound.childEnded (hlate hsupervisor rfl)
      ⟨rfl, fun hfailed => absurd rfl hfailed, Status.noConfusion⟩
  · -- the last document
    rename_i final
    rw [AtPlace, hsupervisor] at hplace
    simp only [SupervisorClean, hsupervisor] at hclean
    obtain ⟨hterminal, hended, hexited⟩ := hplace
    obtain ⟨hagrees, hfailed⟩ := hclean
    cases hstep
    refine h.store (hwork hsupervisor rfl) (hearly hsupervisor rfl) Supervisor.noConfusion
      (h.sound_save hagrees (fun _ => ?_) fun hsignalled _ => ?_)
      (fun hatWork => absurd hatWork Bool.false_ne_true) hterminal
    · by_cases hstatus : final.status = .failed
      · exact (hfailed hstatus).1
      · exact hended hstatus
    · cases hstatus : final.status with
      | stopped => exact .inl rfl
      | timedOut => exact .inr rfl
      | failed => exact absurd hsignalled (Bool.eq_false_iff.mp (hfailed hstatus).2)
      | exited => exact absurd hsignalled (Bool.eq_false_iff.mp (hexited hstatus).2)
      | running | stopping =>
        rw [hstatus] at hterminal
        exact absurd hterminal Bool.false_ne_true
  · cases hstep

/-- A document that agrees leaves the supervisor at its place. -/
theorem AtPlace.save {w : World ι} (h : AtPlace w) {d : Doc} (hagrees : Agrees w d.status) :
    AtPlace (w.save d) := by
  unfold AtPlace at h ⊢
  dsimp only [World.save]
  cases hplace : w.supervisor <;> rw [hplace] at h
  case launched copy =>
    refine ⟨h.1, h.2.1, fun hterminal => ?_⟩
    have hsame := h.2.2 hterminal
    exact (hagrees (hsame ▸ hterminal)).trans hsame
  case done => exact (hagrees h).symm ▸ h
  all_goals exact h

/-! ## The steps of `submit` -/

theorem Unseen.not_terminal {w : World ι} (h : Unseen w) : ¬ w.doc.status.isTerminal = true := by
  rw [h.running]
  exact Bool.false_ne_true

theorem submitStep_inv {w w' : World ι} {e : SubmitEvent} (h : Inv w)
    (hstep : w.submitStep e = some w') : Inv w' := by
  have hsubmit := h.submit
  have hplace := h.place
  unfold World.submitStep at hstep
  split at hstep <;> rename_i hat
  · -- the supervisor is there
    rw [AtSubmit, hat] at hsubmit
    obtain ⟨hunspawned, hunseen⟩ := hsubmit
    rw [AtPlace, hunspawned] at hplace
    cases hstep
    refine ⟨⟨h.sound.kept, h.sound.childEnded, h.sound.obeyed⟩, h.head,
      ⟨Supervisor.noConfusion, hunseen.of_eq rfl rfl rfl rfl⟩, ⟨hplace, hunseen.signalled⟩,
      fun _ => rfl,
      fun _ hterminal => absurd hterminal hunseen.not_terminal, fun i kind final hrequest => ?_⟩
    have hblind := hunseen.blind i
    rw [show w.requests i = _ from hrequest] at hblind
    exact absurd hblind Bool.false_ne_true
  · rw [AtSubmit, hat] at hsubmit
    obtain ⟨hunspawned, hunseen⟩ := hsubmit
    cases hstep
    exact ⟨⟨h.sound.kept, h.sound.childEnded, h.sound.obeyed⟩, h.head,
      ⟨hunspawned, hunseen.of_eq rfl rfl rfl rfl⟩, h.place, h.unmarked, h.verdict, h.gone⟩
  · -- a task without a supervisor has failed
    rw [AtSubmit, hat] at hsubmit
    obtain ⟨hunspawned, hunseen⟩ := hsubmit
    rw [AtPlace, hunspawned] at hplace
    cases hstep
    have hsound := h.sound_save (d := { submitted.terminal .failed none none
        (some .childPopenFailed) with submitProcessResult := some 1 })
      (fun hterminal => absurd hterminal hunseen.not_terminal)
      (fun _ => by rw [hplace]; exact Child.noConfusion)
      (fun hsignalled => absurd hsignalled (Bool.eq_false_iff.mp hunseen.signalled))
    exact ⟨⟨hsound.kept, hsound.childEnded, hsound.obeyed⟩, rfl,
      ⟨hunspawned, rfl, hunseen.blind⟩,
      h.place.save (fun hterminal => absurd hterminal hunseen.not_terminal), h.unmarked,
      fun hwork => absurd hunspawned (spawned_of_atWork hwork), h.gone⟩
  · -- the process id is in the document
    rename_i pid
    rw [AtSubmit, hat] at hsubmit
    obtain ⟨hspawned, hunseen⟩ := hsubmit
    cases hstep
    have hsound := h.sound_save (d := { submitted with
        pid := some pid, submitProcessResult := some 0, launchReturncode := some 0 })
      (fun hterminal => absurd hterminal hunseen.not_terminal)
      (fun hterminal => absurd hterminal Bool.false_ne_true)
      (fun _ hterminal => absurd hterminal Bool.false_ne_true)
    exact ⟨⟨hsound.kept, hsound.childEnded, hsound.obeyed⟩, rfl, hspawned,
      h.place.save (fun hterminal => absurd hterminal hunseen.not_terminal), h.unmarked,
      fun _ hterminal => absurd hterminal Bool.false_ne_true, h.gone⟩
  · rw [AtSubmit, hat] at hsubmit
    cases hstep
    exact ⟨⟨h.sound.kept, h.sound.childEnded, h.sound.obeyed⟩, h.head, hsubmit, h.place,
      fun hunmarked => absurd hunmarked.symm Bool.false_ne_true, h.verdict, h.gone⟩
  · cases hstep

/-- The end of the child. -/
theorem exit_inv {w : World ι} (h : Inv w) (hchild : w.child = .running) (returncode : ℤ) :
    Inv { w with child := .ended returncode } where
  sound := ⟨h.sound.kept, fun _ => Child.noConfusion, h.sound.obeyed⟩
  head := h.head
  submit := by
    have hsubmit := h.submit
    have hplace := h.place
    unfold AtPlace at hplace
    refine hsubmit.of_supervised ?_ ?_ rfl rfl (fun _ => ⟨rfl, rfl⟩) rfl <;>
    · intro hunspawned
      rw [show w.supervisor = _ from hunspawned, hchild] at hplace
      cases hplace
  place := by
    have hplace := h.place
    unfold AtPlace at hplace ⊢
    dsimp only
    cases hsupervisor : w.supervisor <;> rw [hsupervisor, hchild] at hplace
    case handling => trivial
    case done => exact hplace
    case collected => exact absurd hplace.1.symm Bool.false_ne_true
    case storing final =>
      refine ⟨hplace.1, fun _ => Child.noConfusion, fun hexited => ?_⟩
      exact absurd (hplace.2.2 hexited).1.symm Bool.false_ne_true
    case unspawned | killed => cases hplace
    case loading | loaded | waiting | spawning => cases hplace.1
    all_goals exact ⟨Child.noConfusion, hplace.2⟩
  unmarked := h.unmarked
  verdict := h.verdict
  gone := h.gone

/-! ## The steps of the requests -/

/-- A request that knows a process id comes behind `submit`. -/
theorem Inv.late {w : World ι} (h : Inv w) {i : ι} (hi : (w.requests i).blind = false) :
    w.submit = .marking ∨ w.submit = .returned := by
  have hsubmit := h.submit
  have hnot (hall : ∀ i, (w.requests i).blind = true) : False :=
    absurd (hall i) (Bool.eq_false_iff.mp hi)
  unfold AtSubmit at hsubmit
  cases hplace : w.submit with
  | marking => exact .inl rfl
  | returned => exact .inr rfl
  | spawning | failing | recording _ =>
    rw [hplace] at hsubmit
    exact (hnot hsubmit.2.blind).elim
  | raised =>
    rw [hplace] at hsubmit
    exact (hnot hsubmit.2.2).elim

theorem Inv.spawned {w : World ι} (h : Inv w) {i : ι} (hi : (w.requests i).blind = false) :
    w.supervisor ≠ .unspawned := by
  have hsubmit := h.submit
  rcases h.late hi with hplace | hplace <;> rw [AtSubmit, hplace] at hsubmit <;> exact hsubmit

/-- Behind `submit` only the start of the supervisor matters. -/
theorem Inv.atSubmit {w w' : World ι} (h : Inv w) {i : ι} (hi : (w.requests i).blind = false)
    (hsubmit : w'.submit = w.submit) (hsupervisor : w'.supervisor ≠ .unspawned) : AtSubmit w' := by
  unfold AtSubmit
  rcases h.late hi with hplace | hplace <;> rw [hsubmit, hplace] <;> exact hsupervisor

theorem Inv.interrupt {w : World ι} (h : Inv w) (hwork : w.supervisor.atWork = true) {i : ι}
    (hi : (w.requests i).blind = false) : Inv w.interrupt := by
  have hplace := h.place
  have hobeyed : w.doc.status.isTerminal = true →
      w.doc.status = .stopped ∨ w.doc.status = .timedOut :=
    fun hterminal => .inl (h.verdict hwork hterminal)
  have hkilled (hchild : w.child = .notStarted) :
      Inv { w with supervisor := .killed, signalled := w.signalled || w.child.mayEnd } :=
    ⟨⟨h.sound.kept, h.sound.childEnded, fun _ => hobeyed⟩, h.head,
      h.atSubmit hi rfl Supervisor.noConfusion, hchild, fun _ => rfl,
      fun hatWork => absurd hatWork Bool.false_ne_true,
      fun _ _ _ hrequest => absurd hrequest (h.not_gone hwork)⟩
  unfold World.interrupt
  unfold AtPlace at hplace
  split
  · rename_i hsupervisor
    rw [hsupervisor] at hplace
    exact hkilled hplace.1
  · rename_i hsupervisor
    rw [hsupervisor] at hplace
    exact hkilled hplace.1
  · rename_i hloading hloaded
    refine ⟨⟨h.sound.kept, h.sound.childEnded, fun _ => hobeyed⟩, h.head,
      h.atSubmit hi rfl (h.spawned hi), ?_, h.unmarked, h.verdict, h.gone⟩
    unfold AtPlace
    dsimp only
    cases hsupervisor : w.supervisor <;> rw [hsupervisor] at hplace
    case unspawned => exact absurd hsupervisor (h.spawned hi)
    case loading => exact absurd hsupervisor hloading
    case loaded copy => exact absurd hsupervisor (hloaded copy)
    case launched copy => exact ⟨hplace.1, fun _ => rfl, hplace.2.2⟩
    case handling => trivial
    case storing final =>
      refine ⟨hplace.1, hplace.2.1, fun hexited => ?_⟩
      obtain ⟨hended, hsignalled⟩ := hplace.2.2 hexited
      rw [hended, hsignalled]
      exact ⟨rfl, rfl⟩
    case done | killed => exact hplace
    all_goals exact ⟨hplace.1, fun _ => rfl⟩

theorem not_storing_next (kind : Kind) (pid : Option ℕ) (kind' : Kind) (final : Doc) :
    kind.next pid ≠ .storing kind' final := by
  cases kind <;> exact Request.noConfusion

theorem refreshed_status (d : Doc) :
    d.refreshed.status = .failed ∨ d.refreshed.status = .stopped := by
  unfold Doc.refreshed
  split_ifs
  · exact .inr rfl
  · exact .inl rfl

theorem gone_of_not_atWork {p : Supervisor} (h : p.atWork = false) (hspawned : p ≠ .unspawned) :
    p = .done ∨ p = .killed := by
  cases p
  case unspawned => exact absurd rfl hspawned
  case done => exact .inl rfl
  case killed => exact .inr rfl
  all_goals exact absurd h.symm Bool.false_ne_true

/-- Under a supervisor that is gone the child does not run. -/
theorem Inv.not_running {w : World ι} (h : Inv w)
    (hgone : w.supervisor = .done ∨ w.supervisor = .killed) : w.child ≠ .running := by
  have hplace := h.place
  rcases hgone with hdone | hkilled
  · rw [AtPlace, hdone] at hplace
    exact h.sound.childEnded hplace
  · rw [AtPlace, hkilled] at hplace
    rw [hplace]
    exact Child.noConfusion

theorem interrupt_requests (w : World ι) : w.interrupt.requests = w.requests := by
  unfold World.interrupt
  split <;> rfl

section

variable [DecidableEq ι]

theorem blind_become {w : World ι} {i : ι} {r : Request} (h : ∀ j, (w.requests j).blind = true)
    (hr : r.blind = true) : ∀ j, ((w.become i r).requests j).blind = true :=
  Function.forall_update_iff w.requests (fun _ r => r.blind = true) |>.mpr
    ⟨hr, fun j _ => h j⟩

/-- A step of a request that only changes its place. -/
theorem Inv.become {w : World ι} (h : Inv w) (i : ι) {r : Request}
    (hblind : (w.requests i).blind = true → w.doc.pid = none → r.blind = true)
    (hgone : ∀ kind final, r = .storing kind final →
      (w.supervisor = .done ∨ w.supervisor = .killed) ∧
        (final.status = .failed ∨ final.status = .stopped)) : Inv (w.become i r) where
  sound := ⟨h.sound.kept, h.sound.childEnded, h.sound.obeyed⟩
  head := h.head
  submit := by
    have hsubmit := h.submit
    unfold AtSubmit at hsubmit ⊢
    dsimp only [World.become]
    cases hplace : w.submit <;> rw [hplace] at hsubmit
    case spawning | failing | recording =>
      obtain ⟨hsupervisor, hunseen⟩ := hsubmit
      exact ⟨hsupervisor, hunseen.running, hunseen.pid, hunseen.signalled, hunseen.unmarked,
        blind_become hunseen.blind (hblind (hunseen.blind i) hunseen.pid)⟩
    case raised =>
      obtain ⟨hsupervisor, hpid, hall⟩ := hsubmit
      exact ⟨hsupervisor, hpid, blind_become hall (hblind (hall i) hpid)⟩
    case marking | returned => exact hsubmit
  place := h.place
  unmarked := h.unmarked
  verdict := h.verdict
  gone := by
    intro j kind final hj
    by_cases hij : j = i
    · subst hij
      exact hgone kind final ((Function.update_self ..).symm.trans hj)
    · exact h.gone j kind final ((Function.update_of_ne hij ..).symm.trans hj)

/-- A step of a request that stores its copy. -/
theorem Inv.answer {w : World ι} (h : Inv w) {i : ι} (hi : (w.requests i).blind = false) {d : Doc}
    (hsound : Sound (w.save d)) (hagrees : Agrees w d.status)
    (hverdict : w.supervisor.atWork = true → d.status.isTerminal = true → d.status = .stopped)
    {r : Request} (hr : ∀ kind final, r ≠ .storing kind final) :
    Inv ((w.save d).become i r) where
  sound := ⟨hsound.kept, hsound.childEnded, hsound.obeyed⟩
  head := rfl
  submit := h.atSubmit hi rfl (h.spawned hi)
  place := h.place.save hagrees
  unmarked := h.unmarked
  verdict := hverdict
  gone := by
    intro j kind final hj
    by_cases hij : j = i
    · subst hij
      exact absurd ((Function.update_self ..).symm.trans hj) (hr kind final)
    · exact h.gone j kind final ((Function.update_of_ne hij ..).symm.trans hj)

theorem requestStep_inv {w w' : World ι} {i : ι} {e : RequestEvent} (h : Inv w)
    (hclean : RequestClean w i e) (hstep : w.requestStep i e = some w') : Inv w' := by
  have hseeing {r r' : Request} (heq : w.requests i = r) (hr : r.blind = false) :
      (w.requests i).blind = true → w.doc.pid = none → r'.blind = true := fun hblind =>
    absurd hblind (Bool.eq_false_iff.mp (heq ▸ hr))
  unfold World.requestStep at hstep
  split at hstep <;> rename_i hrequest
  · cases hstep
    exact h.become i (fun _ hpid => decide_eq_true hpid) (fun _ _ hr => by cases hr)
  · -- the supervisor is looked for
    rename_i reused kind copy
    split at hstep <;> rename_i hcond <;> cases hstep
    · refine h.become i (fun hblind _ => ?_) fun _ _ hr => absurd hr (not_storing_next _ _ _ _)
      rw [hrequest] at hblind
      rw [of_decide_eq_true hblind]
      cases kind <;> rfl
    · simp only [Bool.not_eq_true, Bool.or_eq_false_iff, decide_eq_false_iff_not] at hcond
      obtain ⟨⟨-, hpid⟩, halive⟩ := hcond
      have hi : (w.requests i).blind = false := by
        rw [hrequest]
        exact decide_eq_false hpid
      have hgone := gone_of_not_atWork (Bool.or_eq_false_iff.mp halive).1 (h.spawned hi)
      refine h.become i (fun hblind => absurd hblind (Bool.eq_false_iff.mp hi)) fun _ _ hr => ?_
      cases hr
      exact ⟨hgone, refreshed_status copy⟩
  · -- a task whose supervisor was gone
    rename_i kind final
    simp only [RequestClean, hrequest] at hclean
    obtain ⟨hgone, hstatus⟩ := h.gone i kind final hrequest
    have hwork : w.supervisor.atWork = false := by
      rcases hgone with hdone | hkilled
      · rw [hdone]
        rfl
      · rw [hkilled]
        rfl
    cases hstep
    refine h.answer (by rw [hrequest]; rfl)
      (h.sound_save hclean.1 (fun _ => h.not_running hgone) fun hsignalled _ => ?_) hclean.1
      (fun hatWork => absurd hatWork (Bool.eq_false_iff.mp hwork)) (not_storing_next kind final.pid)
    rcases hstatus with hfailed | hstopped
    · exact absurd hsignalled (Bool.eq_false_iff.mp (hclean.2 hfailed))
    · exact .inl hstopped
  · rename_i reused pid
    cases hstep
    refine h.become i (fun hblind _ => ?_) fun _ _ hr => ?_
    · rw [hrequest] at hblind
      cases pid with
      | none => rfl
      | some pid => exact absurd hblind Bool.false_ne_true
    · split_ifs at hr
  · cases hstep
    have hmarked : Inv { w with stopMarker := true } :=
      ⟨⟨h.sound.kept, h.sound.childEnded, h.sound.obeyed⟩, h.head,
        h.atSubmit (by rw [hrequest]; rfl) rfl (h.spawned (by rw [hrequest]; rfl)), h.place,
        h.unmarked, h.verdict, h.gone⟩
    exact hmarked.become i (hseeing hrequest rfl) (fun _ _ hr => by cases hr)
  · -- the signal
    split at hstep <;> rename_i hwork <;> cases hstep
    · have hi : (w.requests i).blind = false := by
        rw [hrequest]
        rfl
      refine (h.interrupt hwork hi).become i (fun hblind => ?_) (fun _ _ hr => by cases hr)
      rw [interrupt_requests] at hblind
      exact absurd hblind (Bool.eq_false_iff.mp hi)
    · exact h.become i (hseeing hrequest rfl) (fun _ _ hr => by cases hr)
  · rename_i sent
    cases hstep
    refine h.become i (fun hblind _ => ?_) fun _ _ hr => ?_
    · rw [hrequest] at hblind
      cases sent with
      | false => rfl
      | true => exact absurd hblind Bool.false_ne_true
    · split_ifs at hr
  · -- the mark of a stop request
    rename_i latest
    simp only [RequestClean, hrequest] at hclean
    have hagrees : Agrees w .stopping := fun hterminal =>
      absurd hterminal (Bool.eq_false_iff.mp hclean)
    cases hstep
    exact h.answer (d := { latest with status := .stopping }) (by rw [hrequest]; rfl)
      (h.sound_save hagrees (fun hterminal => absurd hterminal Bool.false_ne_true)
        fun _ hterminal => absurd hterminal Bool.false_ne_true) hagrees
      (fun _ hterminal => absurd hterminal Bool.false_ne_true) (fun _ _ => Request.noConfusion)
  · cases hstep
    refine h.become i (hseeing hrequest rfl) fun _ _ hr => ?_
    split_ifs at hr
  · cases hstep
    refine h.become i (hseeing hrequest rfl) fun _ _ hr => ?_
    split_ifs at hr
  · cases hstep
    exact h.become i (hseeing hrequest rfl) (fun _ _ hr => by cases hr)
  · -- the verdict of a stop request
    simp only [RequestClean, hrequest] at hclean
    cases hstep
    exact h.answer (by rw [hrequest]; rfl)
      (h.sound_save hclean.1 (fun _ => hclean.2) fun _ _ => .inl rfl) hclean.1 (fun _ _ => rfl)
      (fun _ _ => Request.noConfusion)
  · cases hstep

/-! ## Runs -/

theorem step_inv {w : World ι} {e : Event ι} (h : Inv w) (hclean : Clean w e) :
    Inv (step w e).2 := by
  unfold step
  cases hadvance : advance w e with
  | none => exact h
  | some w' =>
    cases e with
    | submit e => exact submitStep_inv h hadvance
    | supervisor e => exact supervisorStep_inv h hclean hadvance
    | request i e => exact requestStep_inv h hclean hadvance
    | exit returncode =>
      rw [advance] at hadvance
      split_ifs at hadvance with hchild
      cases hadvance
      exact exit_inv h hchild returncode

/-- A step that is not clean leaves a state that is not sound. -/
theorem clean_of_sound {w : World ι} {e : Event ι} (h : Inv w) (hsound : Sound (step w e).2) :
    Clean w e := by
  cases e with
  | submit e => trivial
  | exit returncode => trivial
  | supervisor e =>
    show SupervisorClean w e
    unfold SupervisorClean
    split <;> rename_i hsupervisor
    · simp only [step, advance, World.supervisorStep, hsupervisor] at hsound
      rw [Bool.eq_false_iff]
      exact fun hterminal => hsound.childEnded hterminal rfl
    · rename_i copy
      simp only [step, advance, World.supervisorStep, hsupervisor] at hsound
      exact h.agrees_of_sound (d := { copy with childLaunchReturncode := some 0 }) hsound rfl
    · simp only [step, advance, World.supervisorStep, hsupervisor] at hsound
      refine ⟨h.agrees_of_sound hsound rfl, fun hfailed => ?_⟩
      have hterminal : (Status.failed).isTerminal = true := rfl
      rw [← hfailed] at hterminal
      refine ⟨hsound.childEnded hterminal, Bool.eq_false_iff.mpr fun hsignalled => ?_⟩
      have hobeyed := hsound.obeyed hsignalled hterminal
      dsimp only [World.save] at hobeyed
      rw [hfailed] at hobeyed
      rcases hobeyed with hstatus | hstatus <;> cases hstatus
    · trivial
  | request i e =>
    show RequestClean w i e
    unfold RequestClean
    split <;> rename_i hrequest
    · simp only [step, advance, World.requestStep, hrequest] at hsound
      refine ⟨h.agrees_of_sound hsound rfl, fun hfailed => ?_⟩
      have hterminal : (Status.failed).isTerminal = true := rfl
      rw [← hfailed] at hterminal
      refine Bool.eq_false_iff.mpr fun hsignalled => ?_
      have hobeyed := hsound.obeyed hsignalled hterminal
      dsimp only [World.save, World.become] at hobeyed
      rw [hfailed] at hobeyed
      rcases hobeyed with hstatus | hstatus <;> cases hstatus
    · rename_i latest
      simp only [step, advance, World.requestStep, hrequest] at hsound
      have hagrees := h.agrees_of_sound (d := { latest with status := .stopping }) hsound rfl
      rw [Bool.eq_false_iff]
      intro hterminal
      rw [← hagrees hterminal] at hterminal
      exact Bool.false_ne_true hterminal
    · rename_i latest
      simp only [step, advance, World.requestStep, hrequest] at hsound
      exact ⟨h.agrees_of_sound (d := latest.terminal .stopped latest.runnerExitCode
        latest.childLaunchReturncode (some .runnerStopped)) hsound rfl, hsound.childEnded rfl⟩
    · trivial

/-- A run is sound all along exactly when its steps are clean: no stored verdict is overwritten
from a copy that is older, no stop request gives its verdict while the child runs or is still to be
started, and the supervisor does not fail behind a signal or under a running child. -/
theorem status_lifecycle (es : List (Event ι)) :
    (∀ p, p <+: es → Sound (Machine.run step init p)) ↔ Machine.Meets step Clean init es :=
  Machine.forall_prefix_iff_meets step Clean (fun _ h => h.sound) (fun _ _ h => step_inv h)
    (fun _ _ h => clean_of_sound h) init_inv es

/-- The submission of a task, up to the wait for its child. -/
def started : List (Event Unit) :=
  [.submit (.spawn (some 7)), .submit .save, .submit .touch, .supervisor .load,
    .supervisor .installHandlers, .supervisor .begin, .supervisor (.popen .started),
    .supervisor .load, .supervisor .save, .supervisor .readTimeout, .supervisor (.poll false)]

/-- A stop request loads the document, the child exits, and its verdict is overwritten. -/
def overwritten : List (Event Unit) :=
  started ++ [.request () (.load .stop), .request () (.refresh false), .request () (.aim false),
    .exit 0, .supervisor .reap, .supervisor (.classify true .runnerFailed), .request () .touch,
    .request () (.kill false), .request () .reload, .supervisor .save, .request () .save]

/-- A child that outlasts the two seconds of a stop request. -/
def outlasting : List (Event Unit) :=
  started ++ [.request () (.load .stop), .request () (.refresh false), .request () (.aim false),
    .request () .touch, .request () (.kill false), .request () .reload, .request () .save,
    .request () .expire, .request () .save]

/-- The status is exited and then stopping; and it is stopped while the child runs. -/
theorem verdict_overwritten :
    (Machine.run step init overwritten).stored =
        [.stopping, .exited, .running, .running, .running] ∧
      ¬ Sound (Machine.run step init overwritten) ∧
      (Machine.run step init outlasting).doc.status = .stopped ∧
      (Machine.run step init outlasting).child = .running ∧
      ¬ Sound (Machine.run step init outlasting) := by
  have hstored : (Machine.run step init overwritten).stored =
      [.stopping, .exited, .running, .running, .running] := by decide
  have hstatus : (Machine.run step init outlasting).doc.status = .stopped := by decide
  have hchild : (Machine.run step init outlasting).child = .running := by decide
  refine ⟨hstored, fun hsound => ?_, hstatus, hchild, fun hsound => ?_⟩
  · have hkept := hsound.kept
    rw [hstored] at hkept
    have hsame := (List.pairwise_cons.mp hkept).1 .exited (by decide) rfl
    cases hsame
  · exact hsound.childEnded (by rw [hstatus]; rfl) hchild

end

end AflNv.RunnerTask
