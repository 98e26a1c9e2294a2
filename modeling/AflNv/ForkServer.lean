import AflNv.RunTarget

/-!
# The fuzzer and the fork server

`afl_fsrv_run_target` asks the fork server in the target (`__afl_start_forkserver`) for a process
over a control pipe, and reads a pid and a wait status from a status pipe.  In persistent mode the
process stops itself behind a test case (`__afl_persistent_loop`) and is continued for the next
one.  When the status takes too long the fuzzer kills the process, which may have stopped or ended
by then, with its status on the way.

* `Step` interleaves the fuzzer, the server, the process and the signals.
* `Inv` is what holds in every state; `AtServer` and `AtFuzzer` are the two sides of it in a run,
  and meet in `sent`, what the server has written in that run.
* `inv_step` keeps the invariant, with one lemma for each step that changes the phase.

The signal of the fuzzer is `SIGKILL`, as it is without `AFL_KILL_SIGNAL`.
-/

namespace AflNv.ForkServer

/-! ## The target -/

/-- How the target may end a test case. -/
inductive Outcome where
  | returned
  | exited (code : ℕ)
  | signaled (sig : ℕ)

/-- What `waitpid` tells. -/
inductive WaitStatus where
  | stopped
  | exited (code : ℕ)
  | signaled (sig : ℕ)

/-- What an end of a test case may look like to `waitpid`. -/
def Outcome.statuses : Outcome → List WaitStatus
  | .returned => [.stopped, .exited 0]
  | .exited code => [.exited code]
  | .signaled sig => [.signaled sig]

variable {T : Type}

structure Target (T : Type) where
  isPersistent : Bool
  maxCnt : UInt32
  ends : T → Outcome → Prop

def Target.StatusOf (tgt : Target T) (t : T) (w : WaitStatus) : Prop :=
  ∃ o, tgt.ends t o ∧ w ∈ o.statuses

/-- An entry of the process table. -/
inductive Proc (T : Type) where
  | free
  /-- `input` is the test case, if it has been read. -/
  | running (input : Option T) (cycleCnt : UInt32) (sigkill : Bool)
  /-- `reported` is whether `waitpid` has told of the stop. -/
  | stopped (cycleCnt : UInt32) (reported sigkill : Bool)
  | zombie (status : WaitStatus)

namespace Proc

def isRunning : Proc T → Bool
  | .running .. => true
  | _ => false

/-- `kill(pid, SIGKILL)`; the process dies later. -/
def kill : Proc T → Proc T
  | .running input cycleCnt _ => .running input cycleCnt true
  | .stopped cycleCnt reported _ => .stopped cycleCnt reported true
  | q => q

/-- `kill(pid, SIGCONT)` -/
def cont : Proc T → Proc T
  | .stopped cycleCnt _ sigkill => .running none cycleCnt sigkill
  | q => q

end Proc

/-- The process behind a test case; a returning one is at `__afl_persistent_loop`, if there is a
loop. -/
def Target.after (tgt : Target T) (cycleCnt : UInt32) (sigkill : Bool) : Outcome → Proc T
  | .returned =>
    if tgt.isPersistent ∧ cycleCnt - 1 ≠ 0 then .stopped (cycleCnt - 1) false sigkill
    else .zombie (.exited 0)
  | .exited code => .zombie (.exited code)
  | .signaled sig => .zombie (.signaled sig)

/-! ## The two programs -/

inductive FuzzerPc where
  | idle
  | loaded
  | cleared
  | awaitPid
  | awaitStatus
  /-- `read_s32_timed` has returned more than `timeout`. -/
  | expired
  | awaitKilled

structure Fuzzer where
  pc : FuzzerPc
  lastRunTimedOut : Bool
  /-- `none` is -1. -/
  childPid : Option ℕ

inductive ServerPc where
  | awaitCmd
  | decide
  | reap
  | spawn
  | sendPid
  | waiting
  | sendStatus (status : WaitStatus)

structure Server where
  pc : ServerPc
  wasKilled : Bool
  childPid : ℕ
  childStopped : Bool

inductive Msg where
  | pid (pid : ℕ)
  | status (status : WaitStatus)

/-- What `afl_fsrv_run_target` has returned for a test case, and what it found in the trace. -/
structure Entry (T : Type) where
  testcase : T
  result : FsrvRunResult
  trace : List T

structure State (T : Type) where
  fuzzer : Fuzzer
  server : Server
  /-- The control pipe: `last_run_timed_out`. -/
  ctl : List Bool
  st : List Msg
  proc : ℕ → Proc T
  testcase : Option T
  /-- `trace_bits`: the test cases that its bits come from. -/
  trace : List T
  log : List (Entry T)

/-- Behind the handshake. -/
def init : State T where
  fuzzer := ⟨.idle, false, none⟩
  server := ⟨.awaitCmd, false, 0, false⟩
  ctl := []
  st := []
  proc := fun _ => .free
  testcase := none
  trace := []
  log := []

/-- The outcome of the run, from the wait status. -/
def resultOf (lastRunTimedOut : Bool) (status : WaitStatus) : FsrvRunResult :=
  if lastRunTimedOut then .tmout
  else
    match status with
    | .signaled _ => .crash
    | _ => .ok

/-! ## The steps -/

inductive Kind (T : Type) where
  /-- The fuzzer begins a run. -/
  | start (t : T)
  /-- The fuzzer, the server or a signal. -/
  | system
  | target

/-- A step of a process. -/
inductive ProcStep (tgt : Target T) (testcase : Option T) : Kind T → Proc T → Proc T → Prop where
  | read {t : T} {cycleCnt : UInt32} {sigkill : Bool} (htestcase : testcase = some t) :
    ProcStep tgt testcase .target (.running none cycleCnt sigkill)
      (.running (some t) cycleCnt sigkill)
  | finish {t : T} {cycleCnt : UInt32} {sigkill : Bool} {o : Outcome} (hends : tgt.ends t o) :
    ProcStep tgt testcase .target (.running (some t) cycleCnt sigkill)
      (tgt.after cycleCnt sigkill o)
  | dieRunning {input : Option T} {cycleCnt : UInt32} :
    ProcStep tgt testcase .system (.running input cycleCnt true) (.zombie (.signaled 9))
  | dieStopped {cycleCnt : UInt32} {reported : Bool} :
    ProcStep tgt testcase .system (.stopped cycleCnt reported true) (.zombie (.signaled 9))

inductive Step (tgt : Target T) : Kind T → State T → State T → Prop where
  /-- `write_to_testcase` -/
  | load {s : State T} (t : T) (hpc : s.fuzzer.pc = .idle) :
    Step tgt (.start t) s { s with
      fuzzer := { s.fuzzer with pc := .loaded }
      testcase := some t }
  | clear {s : State T} (hpc : s.fuzzer.pc = .loaded) :
    Step tgt .system s { s with
      fuzzer := { s.fuzzer with pc := .cleared }
      trace := [] }
  | request {s : State T} (hpc : s.fuzzer.pc = .cleared) :
    Step tgt .system s { s with
      fuzzer := { s.fuzzer with pc := .awaitPid, lastRunTimedOut := false }
      ctl := s.ctl ++ [s.fuzzer.lastRunTimedOut] }
  | readPid {s : State T} {p : ℕ} {rest : List Msg} (hpc : s.fuzzer.pc = .awaitPid)
    (hst : s.st = .pid p :: rest) :
    Step tgt .system s { s with
      fuzzer := { s.fuzzer with pc := .awaitStatus, childPid := some p }
      st := rest }
  | expire {s : State T} (hpc : s.fuzzer.pc = .awaitStatus) (hst : s.st = []) :
    Step tgt .system s { s with fuzzer := { s.fuzzer with pc := .expired } }
  | kill {s : State T} {p : ℕ} (hpc : s.fuzzer.pc = .expired) (hpid : s.fuzzer.childPid = some p) :
    Step tgt .system s { s with
      fuzzer := ⟨.awaitKilled, true, none⟩
      proc := Function.update s.proc p (s.proc p).kill }
  | readStatus {s : State T} {t : T} {w : WaitStatus} {rest : List Msg} {childPid : Option ℕ}
    (hpc : s.fuzzer.pc = .awaitStatus ∨ s.fuzzer.pc = .awaitKilled)
    (hst : s.st = .status w :: rest) (htestcase : s.testcase = some t)
    (hpid : childPid = if w matches .stopped then s.fuzzer.childPid else none) :
    Step tgt .system s { s with
      fuzzer := { s.fuzzer with pc := .idle, childPid }
      st := rest
      log := s.log ++ [⟨t, resultOf s.fuzzer.lastRunTimedOut w, s.trace⟩] }
  | readCmd {s : State T} {v : Bool} {rest : List Bool} (hpc : s.server.pc = .awaitCmd)
    (hctl : s.ctl = v :: rest) :
    Step tgt .system s { s with
      server := { s.server with pc := .decide, wasKilled := v }
      ctl := rest }
  | decideReap {s : State T} (hpc : s.server.pc = .decide)
    (hold : s.server.childStopped = true ∧ s.server.wasKilled = true) :
    Step tgt .system s { s with
      server := { s.server with pc := .reap, childStopped := false } }
  | decideSpawn {s : State T} (hpc : s.server.pc = .decide)
    (hold : ¬ (s.server.childStopped = true ∧ s.server.wasKilled = true)) :
    Step tgt .system s { s with server := { s.server with pc := .spawn } }
  | reap {s : State T} {w : WaitStatus} (hpc : s.server.pc = .reap)
    (hproc : s.proc s.server.childPid = .zombie w) :
    Step tgt .system s { s with
      server := { s.server with pc := .spawn }
      proc := Function.update s.proc s.server.childPid .free }
  | fork {s : State T} {p : ℕ} (hpc : s.server.pc = .spawn)
    (hstopped : s.server.childStopped = false) (hproc : s.proc p = .free) :
    Step tgt .system s { s with
      server := { s.server with pc := .sendPid, childPid := p }
      proc := Function.update s.proc p (.running none tgt.maxCnt false) }
  | cont {s : State T} (hpc : s.server.pc = .spawn) (hstopped : s.server.childStopped = true) :
    Step tgt .system s { s with
      server := { s.server with pc := .sendPid, childStopped := false }
      proc := Function.update s.proc s.server.childPid (s.proc s.server.childPid).cont }
  | sendPid {s : State T} (hpc : s.server.pc = .sendPid) :
    Step tgt .system s { s with
      server := { s.server with pc := .waiting }
      st := s.st ++ [.pid s.server.childPid] }
  | waitDead {s : State T} {w : WaitStatus} (hpc : s.server.pc = .waiting)
    (hproc : s.proc s.server.childPid = .zombie w) :
    Step tgt .system s { s with
      server := { s.server with pc := .sendStatus w }
      proc := Function.update s.proc s.server.childPid .free }
  /-- `WUNTRACED` -/
  | waitStopped {s : State T} {cycleCnt : UInt32} {sigkill : Bool} (hpc : s.server.pc = .waiting)
    (hpersistent : tgt.isPersistent = true)
    (hproc : s.proc s.server.childPid = .stopped cycleCnt false sigkill) :
    Step tgt .system s { s with
      server := { s.server with pc := .sendStatus .stopped, childStopped := true }
      proc := Function.update s.proc s.server.childPid (.stopped cycleCnt true sigkill) }
  | sendStatus {s : State T} {w : WaitStatus} (hpc : s.server.pc = .sendStatus w) :
    Step tgt .system s { s with
      server := { s.server with pc := .awaitCmd }
      st := s.st ++ [.status w] }
  | proc {s : State T} {kind : Kind T} {p : ℕ} {q : Proc T}
    (hproc : ProcStep tgt s.testcase kind (s.proc p) q) :
    Step tgt kind s { s with proc := Function.update s.proc p q }
  /-- An instrumented edge. -/
  | hit {s : State T} {p : ℕ} {t : T} {cycleCnt : UInt32} {sigkill : Bool}
    (hproc : s.proc p = .running (some t) cycleCnt sigkill) :
    Step tgt .target s { s with trace := t :: s.trace }

def Kind.started : Kind T → List T
  | .start t => [t]
  | _ => []

/-- The states of any interleaving in which the runs of the test cases `ts` have begun. -/
inductive Reached (tgt : Target T) : List T → State T → Prop where
  | init : Reached tgt [] init
  | step {ts : List T} {kind : Kind T} {s s' : State T} (h : Reached tgt ts s)
    (hstep : Step tgt kind s s') : Reached tgt (ts ++ kind.started) s'

/-! ## The invariant -/

/-- The process between two runs; `killed` is whether the fuzzer has killed it. -/
inductive Parked : Bool → Bool → Proc T → Prop where
  | free {killed : Bool} : Parked false killed .free
  | stopped {killed : Bool} {cycleCnt : UInt32} :
    Parked true killed (.stopped cycleCnt true killed)
  | zombie {w : WaitStatus} : Parked true true (.zombie w)

/-- A process that the server waits for before it forks. -/
inductive Dying : Proc T → Prop where
  | stopped {cycleCnt : UInt32} {reported : Bool} : Dying (.stopped cycleCnt reported true)
  | zombie {w : WaitStatus} : Dying (.zombie w)

/-- The process in the current run, before `waitpid` tells of it. -/
inductive Busy (tgt : Target T) (testcase : Option T) (killed : Bool) : Proc T → Prop where
  | started {cycleCnt : UInt32} : Busy tgt testcase killed (.running none cycleCnt killed)
  | reading {t : T} {cycleCnt : UInt32} (htestcase : testcase = some t) :
    Busy tgt testcase killed (.running (some t) cycleCnt killed)
  | stopped {t : T} {cycleCnt : UInt32} (hpersistent : tgt.isPersistent = true)
    (htestcase : testcase = some t) (hends : tgt.ends t .returned) :
    Busy tgt testcase killed (.stopped cycleCnt false killed)
  | zombie {w : WaitStatus} (hdead : w ≠ .stopped)
    (hstatus : killed = false → ∃ t, testcase = some t ∧ tgt.StatusOf t w) :
    Busy tgt testcase killed (.zombie w)

/-- `w` is what `waitpid` has told in the current run. -/
def Reported (tgt : Target T) (s : State T) (w : WaitStatus) : Prop :=
  Parked s.server.childStopped s.fuzzer.lastRunTimedOut (s.proc s.server.childPid) ∧
    (s.fuzzer.lastRunTimedOut = false → ∃ t, s.testcase = some t ∧ tgt.StatusOf t w)

/-- The server in a run in which it has written `sent`. -/
def AtServer (tgt : Target T) (s : State T) (sent : List Msg) : Prop :=
  let q := s.proc s.server.childPid
  match s.server.pc with
  | .awaitCmd =>
    (∃ v, s.ctl = [v] ∧ sent = [] ∧ Parked s.server.childStopped v q) ∨
      ∃ w, s.ctl = [] ∧ sent = [.pid s.server.childPid, .status w] ∧ Reported tgt s w
  | .decide => s.ctl = [] ∧ sent = [] ∧ Parked s.server.childStopped s.server.wasKilled q
  | .reap => s.ctl = [] ∧ sent = [] ∧ s.server.childStopped = false ∧ Dying q
  | .spawn => s.ctl = [] ∧ sent = [] ∧ Parked s.server.childStopped false q
  | .sendPid =>
    s.ctl = [] ∧ sent = [] ∧ s.server.childStopped = false ∧
      Busy tgt s.testcase s.fuzzer.lastRunTimedOut q
  | .waiting =>
    s.ctl = [] ∧ sent = [.pid s.server.childPid] ∧ s.server.childStopped = false ∧
      Busy tgt s.testcase s.fuzzer.lastRunTimedOut q
  | .sendStatus w => s.ctl = [] ∧ sent = [.pid s.server.childPid] ∧ Reported tgt s w

/-- The fuzzer in a run in which the server has written `sent`. -/
def AtFuzzer (s : State T) (sent : List Msg) : Prop :=
  match s.fuzzer.pc with
  | .awaitPid => s.fuzzer.lastRunTimedOut = false ∧ sent = s.st
  | .awaitStatus | .expired =>
    s.fuzzer.lastRunTimedOut = false ∧ s.fuzzer.childPid = some s.server.childPid ∧
      sent = .pid s.server.childPid :: s.st
  | .awaitKilled => s.fuzzer.lastRunTimedOut = true ∧ sent = .pid s.server.childPid :: s.st
  | _ => False

/-- The fuzzer between two runs: it may write the test case and read the trace. -/
def FuzzerPc.isBetween : FuzzerPc → Bool
  | .idle | .loaded | .cleared => true
  | _ => false

structure Between (s : State T) : Prop where
  pc : s.fuzzer.pc.isBetween = true
  ctl : s.ctl = []
  st : s.st = []
  server : s.server.pc = .awaitCmd
  parked : Parked s.server.childStopped s.fuzzer.lastRunTimedOut (s.proc s.server.childPid)

/-- What a run may report. -/
structure Entry.Ok (tgt : Target T) (e : Entry T) : Prop where
  result : e.result = .tmout ∨ ∃ w, tgt.StatusOf e.testcase w ∧ e.result = resultOf false w
  trace : ∀ t ∈ e.trace, t = e.testcase

structure Inv (tgt : Target T) (s : State T) : Prop where
  phase : Between s ∨ ∃ sent, AtServer tgt s sent ∧ AtFuzzer s sent
  alone : ∀ p, p ≠ s.server.childPid → s.proc p = .free
  testcase : s.fuzzer.pc = .idle ∨ ∃ t, s.testcase = some t
  trace : s.fuzzer.pc = .loaded ∨ ∀ t ∈ s.trace, s.testcase = some t
  log : ∀ e ∈ s.log, e.Ok tgt

theorem inv_init (tgt : Target T) : Inv tgt init where
  phase := .inl ⟨rfl, rfl, rfl, rfl, .free⟩
  alone := fun _ _ => rfl
  testcase := .inl rfl
  trace := .inr fun _ ht => by cases ht
  log := fun _ he => by cases he

/-! ### The process -/

section

variable {tgt : Target T} {testcase : Option T} {kind : Kind T} {childStopped killed : Bool}
  {q q' : Proc T}

theorem ProcStep.ne_free (h : ProcStep tgt testcase kind q q') : q ≠ .free := by
  cases h <;> intro hfree <;> cases hfree

theorem ProcStep.started (h : ProcStep tgt testcase kind q q') : kind.started = [] := by
  cases h <;> rfl

theorem Parked.step (h : Parked childStopped killed q) (hstep : ProcStep tgt testcase kind q q') :
    Parked childStopped killed q' := by
  cases h <;> cases hstep
  exact .zombie

theorem Parked.kill (h : Parked childStopped false q) : Parked childStopped true q.kill := by
  cases h
  · exact .free
  · exact .stopped

theorem Parked.not_running (h : Parked childStopped killed q) : q.isRunning = false := by
  cases h <;> rfl

theorem Dying.step (h : Dying q) (hstep : ProcStep tgt testcase kind q q') : Dying q' := by
  cases h <;> cases hstep
  exact .zombie

theorem Busy.after {t : T} {cycleCnt : UInt32} {o : Outcome} (htestcase : testcase = some t)
    (hends : tgt.ends t o) : Busy tgt testcase killed (tgt.after cycleCnt killed o) := by
  have hzombie {w : WaitStatus} (hdead : w ≠ .stopped) (hw : w ∈ o.statuses) :
      Busy tgt testcase killed (.zombie w) :=
    .zombie hdead fun _ => ⟨t, htestcase, o, hends, hw⟩
  cases o with
  | returned =>
    unfold Target.after
    split_ifs with hloop
    · exact .stopped hloop.1 htestcase hends
    · exact hzombie WaitStatus.noConfusion (by simp [Outcome.statuses])
  | exited code => exact hzombie WaitStatus.noConfusion (by simp [Outcome.statuses])
  | signaled sig => exact hzombie WaitStatus.noConfusion (by simp [Outcome.statuses])

theorem Busy.step (h : Busy tgt testcase killed q) (hstep : ProcStep tgt testcase kind q q') :
    Busy tgt testcase killed q' := by
  have hdied : Busy tgt testcase true (.zombie (.signaled 9)) :=
    .zombie WaitStatus.noConfusion Bool.noConfusion
  cases h with
  | started =>
    cases hstep with
    | read htestcase => exact .reading htestcase
    | dieRunning => exact hdied
  | reading htestcase =>
    cases hstep with
    | finish hends => exact .after htestcase hends
    | dieRunning => exact hdied
  | stopped hpersistent htestcase hends =>
    cases hstep
    exact hdied
  | zombie hdead hstatus => cases hstep

theorem Busy.kill (h : Busy tgt testcase false q) : Busy tgt testcase true q.kill := by
  cases h with
  | started => exact .started
  | reading htestcase => exact .reading htestcase
  | stopped hpersistent htestcase hends => exact .stopped hpersistent htestcase hends
  | zombie hdead hstatus => exact .zombie hdead Bool.noConfusion

end

/-! ### The pipes -/

section

variable {tgt : Target T} {s : State T} {sent : List Msg}

/-- What the server has written begins with the pid of its process. -/
theorem AtServer.head {p : ℕ} {rest : List Msg} (h : AtServer tgt s (.pid p :: rest)) :
    p = s.server.childPid := by
  unfold AtServer at h
  dsimp only at h
  split at h
  · obtain ⟨v, -, hsent, -⟩ | ⟨w, -, hsent, -⟩ := h
    · cases hsent
    · cases hsent
      rfl
  all_goals simp_all

/-- Both messages have been written. -/
theorem AtServer.both {m m' : Msg} {rest : List Msg} (h : AtServer tgt s (m :: m' :: rest)) :
    s.server.pc = .awaitCmd ∧ s.ctl = [] ∧ rest = [] ∧ ∃ w, m' = .status w ∧ Reported tgt s w := by
  unfold AtServer at h
  dsimp only at h
  split at h
  · obtain ⟨v, -, hsent, -⟩ | ⟨w, hctl, hsent, hreported⟩ := h
    · cases hsent
    · cases hsent
      exact ⟨‹_›, hctl, rfl, w, rfl, hreported⟩
  all_goals simp at h

theorem AtServer.kill (h : AtServer tgt s sent) (hsent : sent ≠ [])
    (hlast : s.fuzzer.lastRunTimedOut = false) (fuzzer : Fuzzer)
    (hfuzzer : fuzzer.lastRunTimedOut = true) :
    AtServer tgt { s with
      fuzzer
      proc := Function.update s.proc s.server.childPid (s.proc s.server.childPid).kill } sent := by
  have hreported {w : WaitStatus} (hw : Reported tgt s w) : Reported tgt { s with
      fuzzer
      proc := Function.update s.proc s.server.childPid (s.proc s.server.childPid).kill } w := by
    refine ⟨?_, fun hfalse => ?_⟩
    · have hparked := hw.1
      rw [hlast] at hparked
      simpa only [hfuzzer, Function.update_self] using hparked.kill
    · rw [hfuzzer] at hfalse
      cases hfalse
  unfold AtServer at h ⊢
  simp only [Function.update_self, hfuzzer] at h ⊢
  split at h
  · obtain ⟨v, -, hempty, -⟩ | ⟨w, hctl, hsent, hw⟩ := h
    · exact absurd hempty hsent
    · exact .inr ⟨w, hctl, hsent, hreported hw⟩
  · exact absurd h.2.1 hsent
  · exact absurd h.2.1 hsent
  · exact absurd h.2.1 hsent
  · exact absurd h.2.1 hsent
  · obtain ⟨hctl, hsent, hstopped, hbusy⟩ := h
    rw [hlast] at hbusy
    exact ⟨hctl, hsent, hstopped, hbusy.kill⟩
  · exact ⟨h.1, h.2.1, hreported h.2.2⟩

theorem AtServer.proc {kind : Kind T} {q : Proc T} (h : AtServer tgt s sent)
    (hstep : ProcStep tgt s.testcase kind (s.proc s.server.childPid) q) :
    AtServer tgt { s with proc := Function.update s.proc s.server.childPid q } sent := by
  have hreported {w : WaitStatus} (hw : Reported tgt s w) :
      Reported tgt { s with proc := Function.update s.proc s.server.childPid q } w := by
    refine ⟨?_, hw.2⟩
    simpa only [Function.update_self] using hw.1.step hstep
  unfold AtServer at h ⊢
  simp only [Function.update_self] at h ⊢
  split at h
  · obtain ⟨v, hctl, hsent, hparked⟩ | ⟨w, hctl, hsent, hw⟩ := h
    · exact .inl ⟨v, hctl, hsent, hparked.step hstep⟩
    · exact .inr ⟨w, hctl, hsent, hreported hw⟩
  · exact ⟨h.1, h.2.1, h.2.2.step hstep⟩
  · exact ⟨h.1, h.2.1, h.2.2.1, h.2.2.2.step hstep⟩
  · exact ⟨h.1, h.2.1, h.2.2.step hstep⟩
  · exact ⟨h.1, h.2.1, h.2.2.1, h.2.2.2.step hstep⟩
  · exact ⟨h.1, h.2.1, h.2.2.1, h.2.2.2.step hstep⟩
  · exact ⟨h.1, h.2.1, hreported h.2.2⟩

/-- A process that has read a test case has read the one of the run. -/
theorem AtServer.reading {t : T} {cycleCnt : UInt32} {sigkill : Bool} (h : AtServer tgt s sent)
    (hproc : s.proc s.server.childPid = .running (some t) cycleCnt sigkill) :
    s.testcase = some t := by
  have hparked {childStopped killed : Bool}
      (hparked : Parked childStopped killed (s.proc s.server.childPid)) : s.testcase = some t := by
    have hnot := hparked.not_running
    rw [hproc] at hnot
    cases hnot
  have hbusy {killed : Bool} (hbusy : Busy tgt s.testcase killed (s.proc s.server.childPid)) :
      s.testcase = some t := by
    rw [hproc] at hbusy
    cases hbusy with
    | reading htestcase => exact htestcase
  unfold AtServer at h
  dsimp only at h
  split at h
  · obtain ⟨v, -, -, h⟩ | ⟨w, -, -, h⟩ := h
    · exact hparked h
    · exact hparked h.1
  · exact hparked h.2.2
  · have hdying := h.2.2.2
    rw [hproc] at hdying
    cases hdying
  · exact hparked h.2.2
  · exact hbusy h.2.2.2
  · exact hbusy h.2.2.2
  · exact hparked h.2.2.1

theorem AtFuzzer.send (h : AtFuzzer s sent) (m : Msg) (server : Server)
    (hpid : server.childPid = s.server.childPid) :
    AtFuzzer { s with
      server
      st := s.st ++ [m] } (sent ++ [m]) := by
  unfold AtFuzzer at h ⊢
  simp only [hpid]
  split at h
  · exact ⟨h.1, by rw [h.2]⟩
  · exact ⟨h.1, h.2.1, by rw [h.2.2, List.cons_append]⟩
  · exact ⟨h.1, h.2.1, by rw [h.2.2, List.cons_append]⟩
  · exact ⟨h.1, by rw [h.2, List.cons_append]⟩
  · exact h

/-- Before the server has written anything the fuzzer waits for the pid. -/
theorem AtFuzzer.nil (h : AtFuzzer s []) :
    s.fuzzer.pc = .awaitPid ∧ s.fuzzer.lastRunTimedOut = false ∧ s.st = [] := by
  unfold AtFuzzer at h
  split at h
  · exact ⟨‹_›, h.1, h.2.symm⟩
  · cases h.2.2
  · cases h.2.2
  · cases h.2
  · cases h

end

/-! ### The steps -/

section

variable {tgt : Target T} {s s' : State T} {kind : Kind T}

theorem Inv.between (h : Inv tgt s) (hpc : s.fuzzer.pc.isBetween = true) : Between s := by
  obtain hbetween | ⟨sent, -, hfuzzer⟩ := h.phase
  · exact hbetween
  · unfold AtFuzzer at hfuzzer
    split at hfuzzer <;> simp_all [FuzzerPc.isBetween]

theorem Inv.run (h : Inv tgt s) (hpc : s.fuzzer.pc.isBetween = false) :
    ∃ sent, AtServer tgt s sent ∧ AtFuzzer s sent := by
  obtain hbetween | hrun := h.phase
  · exact absurd (hbetween.pc.symm.trans hpc) Bool.true_eq_false.mp
  · exact hrun

theorem Inv.run_of_server (h : Inv tgt s) (hpc : s.server.pc ≠ .awaitCmd) :
    ∃ sent, AtServer tgt s sent ∧ AtFuzzer s sent := by
  obtain hbetween | hrun := h.phase
  · exact absurd hbetween.server hpc
  · exact hrun

theorem alone_update {proc : ℕ → Proc T} {c : ℕ} (h : ∀ p, p ≠ c → proc p = .free) (q : Proc T) :
    ∀ p, p ≠ c → Function.update proc c q p = .free := by
  intro p hp
  rw [Function.update_of_ne hp]
  exact h p hp

theorem Inv.eq_childPid (h : Inv tgt s) {p : ℕ} (hp : s.proc p ≠ .free) : p = s.server.childPid :=
  not_not.mp fun hne => hp (h.alone p hne)

/-- The fuzzer asks for a process. -/
theorem Inv.request (h : Inv tgt s) (hpc : s.fuzzer.pc = .cleared) :
    Inv tgt { s with
      fuzzer := { s.fuzzer with pc := .awaitPid, lastRunTimedOut := false }
      ctl := s.ctl ++ [s.fuzzer.lastRunTimedOut] } := by
  have hbetween := h.between (by rw [hpc]; rfl)
  refine ⟨.inr ⟨[], ?_, rfl, hbetween.st.symm⟩, h.alone, .inr ?_, .inr ?_, h.log⟩
  · unfold AtServer
    dsimp only
    rw [hbetween.server, hbetween.ctl]
    exact .inl ⟨_, rfl, rfl, hbetween.parked⟩
  · exact h.testcase.resolve_left (by rw [hpc]; exact FuzzerPc.noConfusion)
  · exact h.trace.resolve_left (by rw [hpc]; exact FuzzerPc.noConfusion)

/-- The fuzzer kills the process of the run, if there is still one. -/
theorem Inv.kill (h : Inv tgt s) {p : ℕ} (hpc : s.fuzzer.pc = .expired)
    (hpid : s.fuzzer.childPid = some p) :
    Inv tgt { s with
      fuzzer := ⟨.awaitKilled, true, none⟩
      proc := Function.update s.proc p (s.proc p).kill } := by
  obtain ⟨sent, hserver, hfuzzer⟩ := h.run (by rw [hpc]; rfl)
  unfold AtFuzzer at hfuzzer
  rw [hpc] at hfuzzer
  obtain ⟨hlast, hchild, hsent⟩ := hfuzzer
  obtain rfl : p = s.server.childPid := Option.some.inj (hpid.symm.trans hchild)
  refine ⟨.inr ⟨sent, hserver.kill ?_ hlast _ rfl, rfl, hsent⟩, alone_update h.alone _, .inr ?_,
    .inr ?_, h.log⟩
  · rw [hsent]
    exact List.cons_ne_nil _ _
  · exact h.testcase.resolve_left (by rw [hpc]; exact FuzzerPc.noConfusion)
  · exact h.trace.resolve_left (by rw [hpc]; exact FuzzerPc.noConfusion)

/-- The fuzzer reads the status, and returns. -/
theorem Inv.readStatus (h : Inv tgt s) {t : T} {w : WaitStatus} {rest : List Msg}
    {childPid : Option ℕ} (hpc : s.fuzzer.pc = .awaitStatus ∨ s.fuzzer.pc = .awaitKilled)
    (hst : s.st = .status w :: rest) (htestcase : s.testcase = some t) :
    Inv tgt { s with
      fuzzer := { s.fuzzer with pc := .idle, childPid }
      st := rest
      log := s.log ++ [⟨t, resultOf s.fuzzer.lastRunTimedOut w, s.trace⟩] } := by
  obtain ⟨sent, hserver, hfuzzer⟩ := h.run (by obtain hpc | hpc := hpc <;> rw [hpc] <;> rfl)
  have hsent : sent = .pid s.server.childPid :: .status w :: rest := by
    unfold AtFuzzer at hfuzzer
    rw [← hst]
    obtain hpc | hpc := hpc <;> rw [hpc] at hfuzzer
    · exact hfuzzer.2.2
    · exact hfuzzer.2
  rw [hsent] at hserver
  obtain ⟨hawait, hctl, hrest, w', hw, hreported⟩ := hserver.both
  cases hw
  have htrace := h.trace.resolve_left
    (by obtain hpc | hpc := hpc <;> rw [hpc] <;> exact FuzzerPc.noConfusion)
  refine ⟨.inl ⟨rfl, hctl, hrest, hawait, hreported.1⟩, h.alone, .inl rfl, .inr htrace, ?_⟩
  intro e he
  obtain he | he := List.mem_append.mp he
  · exact h.log e he
  obtain rfl := List.mem_singleton.mp he
  refine ⟨?_, fun t' ht' => ?_⟩
  · cases hlast : s.fuzzer.lastRunTimedOut with
    | true => exact .inl rfl
    | false =>
      obtain ⟨t', ht', hstatus⟩ := hreported.2 hlast
      obtain rfl : t' = t := Option.some.inj (ht'.symm.trans htestcase)
      exact .inr ⟨w, hstatus, rfl⟩
  · exact Option.some.inj ((htrace t' ht').symm.trans htestcase)

/-- A step of the server that writes nothing and leaves its process alone. -/
theorem Inv.server (h : Inv tgt s) (hpc : s.server.pc ≠ .awaitCmd) {server : Server}
    {proc : ℕ → Proc T} (hpid : server.childPid = s.server.childPid)
    (halone : ∀ p, p ≠ s.server.childPid → proc p = .free)
    (hstep : ∀ sent, AtServer tgt s sent → AtServer tgt { s with server, proc } sent) :
    Inv tgt { s with server, proc } := by
  obtain ⟨sent, hserver, hfuzzer⟩ := h.run_of_server hpc
  refine ⟨.inr ⟨sent, hstep sent hserver, ?_⟩, fun p hp => halone p (hpid ▸ hp), h.testcase,
    h.trace, h.log⟩
  unfold AtFuzzer at hfuzzer ⊢
  rw [← hpid] at hfuzzer
  exact hfuzzer

/-- The server writes to the status pipe. -/
theorem Inv.send (h : Inv tgt s) (hpc : s.server.pc ≠ .awaitCmd) {server : Server} (m : Msg)
    (hpid : server.childPid = s.server.childPid)
    (hstep : ∀ sent, AtServer tgt s sent →
      AtServer tgt { s with server, st := s.st ++ [m] } (sent ++ [m])) :
    Inv tgt { s with server, st := s.st ++ [m] } := by
  obtain ⟨sent, hserver, hfuzzer⟩ := h.run_of_server hpc
  exact ⟨.inr ⟨sent ++ [m], hstep sent hserver, hfuzzer.send m server hpid⟩,
    fun p hp => h.alone p (hpid ▸ hp), h.testcase, h.trace, h.log⟩

theorem Inv.readCmd (h : Inv tgt s) {v : Bool} {rest : List Bool} (hpc : s.server.pc = .awaitCmd)
    (hctl : s.ctl = v :: rest) :
    Inv tgt { s with
      server := { s.server with pc := .decide, wasKilled := v }
      ctl := rest } := by
  obtain hbetween | ⟨sent, hserver, hfuzzer⟩ := h.phase
  · have hempty := hctl.symm.trans hbetween.ctl
    cases hempty
  refine ⟨.inr ⟨sent, ?_, hfuzzer⟩, h.alone, h.testcase, h.trace, h.log⟩
  unfold AtServer at hserver
  dsimp only at hserver
  rw [hpc, hctl] at hserver
  obtain ⟨v', hv, hsent, hparked⟩ | ⟨w, hempty, -⟩ := hserver
  · cases hv
    exact ⟨rfl, hsent, hparked⟩
  · cases hempty

theorem Inv.decideReap (h : Inv tgt s) (hpc : s.server.pc = .decide)
    (hold : s.server.childStopped = true ∧ s.server.wasKilled = true) :
    Inv tgt { s with server := { s.server with pc := .reap, childStopped := false } } := by
  refine h.server (by rw [hpc]; exact ServerPc.noConfusion) rfl h.alone fun sent hserver => ?_
  unfold AtServer at hserver ⊢
  dsimp only at hserver
  rw [hpc] at hserver
  obtain ⟨hctl, hsent, hparked⟩ := hserver
  rw [hold.1, hold.2] at hparked
  refine ⟨hctl, hsent, rfl, ?_⟩
  generalize s.proc s.server.childPid = q at hparked ⊢
  cases hparked with
  | stopped => exact .stopped
  | zombie => exact .zombie

theorem Inv.decideSpawn (h : Inv tgt s) (hpc : s.server.pc = .decide)
    (hold : ¬ (s.server.childStopped = true ∧ s.server.wasKilled = true)) :
    Inv tgt { s with server := { s.server with pc := .spawn } } := by
  refine h.server (by rw [hpc]; exact ServerPc.noConfusion) rfl h.alone fun sent hserver => ?_
  unfold AtServer at hserver ⊢
  dsimp only at hserver
  rw [hpc] at hserver
  obtain ⟨hctl, hsent, hparked⟩ := hserver
  refine ⟨hctl, hsent, ?_⟩
  dsimp only
  cases hstopped : s.server.childStopped with
  | false =>
    rw [hstopped] at hparked
    generalize s.proc s.server.childPid = q at hparked ⊢
    cases hparked
    exact .free
  | true =>
    have halive : s.server.wasKilled = false := by simpa [hstopped] using hold
    rwa [hstopped, halive] at hparked

theorem Inv.reap (h : Inv tgt s) (hpc : s.server.pc = .reap) :
    Inv tgt { s with
      server := { s.server with pc := .spawn }
      proc := Function.update s.proc s.server.childPid .free } := by
  refine h.server (by rw [hpc]; exact ServerPc.noConfusion) rfl (alone_update h.alone _)
    fun sent hserver => ?_
  unfold AtServer at hserver ⊢
  dsimp only at hserver ⊢
  rw [hpc] at hserver
  obtain ⟨hctl, hsent, hstopped, -⟩ := hserver
  rw [hstopped, Function.update_self]
  exact ⟨hctl, hsent, .free⟩

theorem Inv.fork (h : Inv tgt s) {p : ℕ} (hpc : s.server.pc = .spawn)
    (hstopped : s.server.childStopped = false) :
    Inv tgt { s with
      server := { s.server with pc := .sendPid, childPid := p }
      proc := Function.update s.proc p (.running none tgt.maxCnt false) } := by
  obtain ⟨sent, hserver, hfuzzer⟩ := h.run_of_server (by rw [hpc]; exact ServerPc.noConfusion)
  unfold AtServer at hserver
  dsimp only at hserver
  rw [hpc, hstopped] at hserver
  obtain ⟨hctl, rfl, hparked⟩ := hserver
  obtain ⟨hawait, hlast, hst⟩ := hfuzzer.nil
  have hfree (p' : ℕ) : s.proc p' = .free := by
    by_cases hp' : p' = s.server.childPid
    · rw [hp']
      generalize s.proc s.server.childPid = q at hparked ⊢
      cases hparked
      rfl
    · exact h.alone p' hp'
  refine ⟨.inr ⟨[], ⟨hctl, rfl, hstopped, ?_⟩, ?_⟩, alone_update (fun p' _ => hfree p') _,
    h.testcase, h.trace, h.log⟩
  · dsimp only
    rw [Function.update_self, hlast]
    exact .started
  · unfold AtFuzzer
    dsimp only
    rw [hawait]
    exact ⟨hlast, hst.symm⟩

theorem Inv.cont (h : Inv tgt s) (hpc : s.server.pc = .spawn)
    (hstopped : s.server.childStopped = true) :
    Inv tgt { s with
      server := { s.server with pc := .sendPid, childStopped := false }
      proc := Function.update s.proc s.server.childPid (s.proc s.server.childPid).cont } := by
  obtain ⟨sent, hserver, hfuzzer⟩ := h.run_of_server (by rw [hpc]; exact ServerPc.noConfusion)
  unfold AtServer at hserver
  dsimp only at hserver
  rw [hpc, hstopped] at hserver
  obtain ⟨hctl, rfl, hparked⟩ := hserver
  obtain ⟨hawait, hlast, hst⟩ := hfuzzer.nil
  refine ⟨.inr ⟨[], ⟨hctl, rfl, rfl, ?_⟩, hfuzzer⟩, alone_update h.alone _, h.testcase, h.trace,
    h.log⟩
  dsimp only
  rw [Function.update_self, hlast]
  generalize s.proc s.server.childPid = q at hparked ⊢
  cases hparked
  exact .started

theorem Inv.waitDead (h : Inv tgt s) {w : WaitStatus} (hpc : s.server.pc = .waiting)
    (hproc : s.proc s.server.childPid = .zombie w) :
    Inv tgt { s with
      server := { s.server with pc := .sendStatus w }
      proc := Function.update s.proc s.server.childPid .free } := by
  refine h.server (by rw [hpc]; exact ServerPc.noConfusion) rfl (alone_update h.alone _)
    fun sent hserver => ?_
  unfold AtServer at hserver ⊢
  dsimp only at hserver ⊢
  rw [hpc, hproc] at hserver
  obtain ⟨hctl, hsent, hstopped, hbusy⟩ := hserver
  refine ⟨hctl, hsent, ?_, ?_⟩
  · dsimp only
    rw [hstopped, Function.update_self]
    exact .free
  · cases hbusy with
    | zombie hdead hstatus => exact hstatus

theorem Inv.waitStopped (h : Inv tgt s) {cycleCnt : UInt32} {sigkill : Bool}
    (hpc : s.server.pc = .waiting)
    (hproc : s.proc s.server.childPid = .stopped cycleCnt false sigkill) :
    Inv tgt { s with
      server := { s.server with pc := .sendStatus .stopped, childStopped := true }
      proc := Function.update s.proc s.server.childPid (.stopped cycleCnt true sigkill) } := by
  refine h.server (by rw [hpc]; exact ServerPc.noConfusion) rfl (alone_update h.alone _)
    fun sent hserver => ?_
  unfold AtServer at hserver ⊢
  dsimp only at hserver ⊢
  rw [hpc, hproc] at hserver
  obtain ⟨hctl, hsent, -, hbusy⟩ := hserver
  generalize hlast : s.fuzzer.lastRunTimedOut = killed at hbusy
  cases hbusy with
  | @stopped t _ hpersistent htestcase hends =>
    refine ⟨hctl, hsent, ?_, fun _ => ⟨t, htestcase, .returned, hends, List.mem_cons_self⟩⟩
    dsimp only
    rw [Function.update_self, hlast]
    exact .stopped

/-- A step of the process of the run, or of one that is stopped. -/
theorem Inv.proc (h : Inv tgt s) {p : ℕ} {q : Proc T}
    (hstep : ProcStep tgt s.testcase kind (s.proc p) q) :
    Inv tgt { s with proc := Function.update s.proc p q } := by
  obtain rfl := h.eq_childPid hstep.ne_free
  refine ⟨?_, alone_update h.alone q, h.testcase, h.trace, h.log⟩
  obtain hbetween | ⟨sent, hserver, hfuzzer⟩ := h.phase
  · refine .inl ⟨hbetween.pc, hbetween.ctl, hbetween.st, hbetween.server, ?_⟩
    dsimp only
    rw [Function.update_self]
    exact hbetween.parked.step hstep
  · exact .inr ⟨sent, hserver.proc hstep, hfuzzer⟩

theorem Inv.hit (h : Inv tgt s) {p : ℕ} {t : T} {cycleCnt : UInt32} {sigkill : Bool}
    (hproc : s.proc p = .running (some t) cycleCnt sigkill) :
    Inv tgt { s with trace := t :: s.trace } := by
  obtain rfl := h.eq_childPid (p := p) (by rw [hproc]; intro hfree; cases hfree)
  have hphase := h.phase.imp_left fun hbetween =>
    Between.mk (s := { s with trace := t :: s.trace }) hbetween.pc hbetween.ctl hbetween.st
      hbetween.server hbetween.parked
  refine ⟨hphase, h.alone, h.testcase, h.trace.imp_right fun htrace t' ht' => ?_, h.log⟩
  obtain rfl | ht' := List.mem_cons.mp ht'
  · obtain hbetween | ⟨sent, hserver, -⟩ := h.phase
    · have hnot := hbetween.parked.not_running
      rw [hproc] at hnot
      cases hnot
    · exact hserver.reading hproc
  · exact htrace t' ht'

theorem inv_step (h : Inv tgt s) (hstep : Step tgt kind s s') : Inv tgt s' := by
  cases hstep with
  | load t hpc =>
    have hbetween := h.between (by rw [hpc]; rfl)
    exact ⟨.inl ⟨rfl, hbetween.ctl, hbetween.st, hbetween.server, hbetween.parked⟩, h.alone,
      .inr ⟨t, rfl⟩, .inl rfl, h.log⟩
  | clear hpc =>
    have hbetween := h.between (by rw [hpc]; rfl)
    exact ⟨.inl ⟨rfl, hbetween.ctl, hbetween.st, hbetween.server, hbetween.parked⟩, h.alone,
      .inr (h.testcase.resolve_left (by rw [hpc]; exact FuzzerPc.noConfusion)),
      .inr (fun t ht => by cases ht), h.log⟩
  | request hpc => exact h.request hpc
  | @readPid _ p rest hpc hst =>
    obtain ⟨sent, hserver, hfuzzer⟩ := h.run (by rw [hpc]; rfl)
    unfold AtFuzzer at hfuzzer
    rw [hpc] at hfuzzer
    obtain ⟨hlast, hsent⟩ := hfuzzer
    rw [hst] at hsent
    rw [hsent] at hserver
    obtain rfl := hserver.head
    exact ⟨.inr ⟨_, hserver, hlast, rfl, rfl⟩, h.alone,
      .inr (h.testcase.resolve_left (by rw [hpc]; exact FuzzerPc.noConfusion)),
      .inr (h.trace.resolve_left (by rw [hpc]; exact FuzzerPc.noConfusion)), h.log⟩
  | expire hpc hst =>
    obtain ⟨sent, hserver, hfuzzer⟩ := h.run (by rw [hpc]; rfl)
    unfold AtFuzzer at hfuzzer
    rw [hpc] at hfuzzer
    exact ⟨.inr ⟨sent, hserver, hfuzzer⟩, h.alone,
      .inr (h.testcase.resolve_left (by rw [hpc]; exact FuzzerPc.noConfusion)),
      .inr (h.trace.resolve_left (by rw [hpc]; exact FuzzerPc.noConfusion)), h.log⟩
  | kill hpc hpid => exact h.kill hpc hpid
  | readStatus hpc hst htestcase hpid => exact h.readStatus hpc hst htestcase
  | readCmd hpc hctl => exact h.readCmd hpc hctl
  | decideReap hpc hold => exact h.decideReap hpc hold
  | decideSpawn hpc hold => exact h.decideSpawn hpc hold
  | reap hpc hproc => exact h.reap hpc
  | fork hpc hstopped hproc => exact h.fork hpc hstopped
  | cont hpc hstopped => exact h.cont hpc hstopped
  | sendPid hpc =>
    refine h.send (by rw [hpc]; exact ServerPc.noConfusion) _ rfl fun sent hserver => ?_
    unfold AtServer at hserver ⊢
    dsimp only at hserver
    rw [hpc] at hserver
    obtain ⟨hctl, rfl, hstopped, hbusy⟩ := hserver
    exact ⟨hctl, rfl, hstopped, hbusy⟩
  | waitDead hpc hproc => exact h.waitDead hpc hproc
  | waitStopped hpc hpersistent hproc => exact h.waitStopped hpc hproc
  | sendStatus hpc =>
    refine h.send (by rw [hpc]; exact ServerPc.noConfusion) _ rfl fun sent hserver => ?_
    unfold AtServer at hserver ⊢
    dsimp only at hserver
    rw [hpc] at hserver
    obtain ⟨hctl, rfl, hparked, hstatus⟩ := hserver
    exact .inr ⟨_, hctl, rfl, hparked, hstatus⟩
  | proc hproc => exact h.proc hproc
  | hit hproc => exact h.hit hproc

theorem inv_of_reached {ts : List T} (h : Reached tgt ts s) : Inv tgt s := by
  induction h with
  | init => exact inv_init tgt
  | step _ hstep ih => exact inv_step ih hstep

end

end AflNv.ForkServer
