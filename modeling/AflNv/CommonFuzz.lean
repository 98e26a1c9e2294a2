import AflNv.RunTarget

/-!
# One iteration of the fuzzing loop

`common_fuzz_stuff` of `src/afl-fuzz-run.c`: it hands a mutated input over,
filters it, executes it, observes the security state, writes the terminal record
of the iteration and disposes of the pending slot of the bandit.

The function is cut where the source reads a new condition, each part calling
the next: `commonFuzzStuff`, `fuzzExecuted`, `fuzzTerminal`, `fuzzAlive`,
`fuzzKept`, `fuzzReward`, `fuzzCommitted`.  A part that returns builds the `FuzzResult`.

`save_if_interesting` is the list of the things it does that the model sees, in
any number and order.
-/

namespace AflNv

section

variable {R : Type} [Field R] [LinearOrder R]

/-! ## The observation after an execution -/

/-- The loop of `nv_observe_security_state_after_execution`, with the attempts
that are left and the number of the next one. -/
def nvObserveAttempts (cfg : AflCfg R) (worlds : ℕ → World) (path : Bytes) (baseline : ℕ) :
    ℕ → ℕ → SecState → Option NvStateObs × SecState
  | 0, _, s => (none, s)
  | left + 1, attempt, s =>
    let o := nvObserveSecurityStateOnce cfg.lib cfg.target (worlds attempt) path baseline s
    if o.1.has && (baseline = 0 || baseline < o.1.execSeq) then (some o.1, o.2)
    else nvObserveAttempts cfg worlds path baseline left (attempt + 1) o.2

/-- `nv_observe_security_state_after_execution`: 1000 attempts. -/
def nvObserveSecurityStateAfterExecution (cfg : AflCfg R) (worlds : ℕ → World) (path : Bytes)
    (s : SecState) : NvStateObs × SecState :=
  match nvObserveAttempts cfg worlds path s.nvLastExecSeq 1000 0 s with
  | (some obs, s) => (obs, s)
  | (none, s) => (.zero, { s with nvHttpStatusFail := s.nvHttpStatusFail + 1 })

/-- The static `sp`: the status path, resolved once. -/
def AflCfg.sp (cfg : AflCfg R) : Bytes :=
  cfg.nvStatusPath.getD (ascii "/tmp/nv_http_status.json")

/-! ## The reward -/

/-- `NV_REWARD_HARNESS_NCOV`. -/
def nvRewardHarnessNcov : R := 1000
/-- `NV_REWARD_NEW_SECURITY_STATE`. -/
def nvRewardNewSecurityState : R := 10
/-- `NV_REWARD_EXCEPTION`. -/
def nvRewardException : R := 5
/-- `NV_REWARD_RECOVERED`. -/
def nvRewardRecovered : R := 2
/-- `NV_REWARD_4XX_PENALTY`. -/
def nvReward4xxPenalty : R := 1 / 10

/-- `nv_reward_from_obs`. -/
def nvRewardFromObs (obs : NvStateObs) : R :=
  if !obs.has then 0
  else
    nvRewardHarnessNcov * (obs.ncovDelta : R) + nvRewardNewSecurityState * (obs.newStates : R) +
      (if obs.isException then nvRewardException else 0) +
      (if obs.recovered then nvRewardRecovered else 0) -
      (if obs.is4xx then nvReward4xxPenalty else 0)

/-! ## The environment -/

/-- A thing `save_if_interesting` does that the model sees. -/
inductive SaveStep where
  /-- A run under the current stage, such as the one of a hang with the long
  time limit. -/
  | rerun (env : RunEnv)
  /-- A run of `calibrate_case`. -/
  | calibration (env : RunEnv)
  /-- `add_to_queue`. -/
  | addToQueue

/-- What the environment decides in one call of `common_fuzz_stuff`. -/
structure FuzzEnv where
  /-- The answer of the external scorer. -/
  reply : RpcReply
  run : RunEnv
  /-- The files at every attempt to observe. -/
  worlds : ℕ → World
  /-- Signals that arrive during the observation. -/
  signals : Signals
  /-- The append of the terminal record before the stop request is read. -/
  ledger : AppendIo
  /-- Signals that arrive after the terminal record. -/
  lateSignals : Signals
  clear : ClearIo
  save : List SaveStep
  /-- Whether `save_if_interesting` keeps the input. -/
  saved : Bool
  journal : AppendIo
  /-- The append of the terminal record behind the commit. -/
  commitLedger : AppendIo

/-- How one call ended. -/
structure FuzzResult (R : Type) where
  /-- The return value: it is time to bail out. -/
  bail : Bool
  afl : Afl R
  /-- The observation of the call, if it got that far. -/
  obs : Option NvStateObs
  /-- The reason of the pending-cleared event that the call attempted. -/
  cleared : Option Bytes

/-! ## The outcome of an iteration -/

/-- `terminal_outcome`, and the two outcomes of a commit. -/
inductive MabOutcome where
  | targetExecutionNoMab
  | bodyValidationReject
  | pendingCleanup
  | armMismatch
  | invalidExecIdentity
  | committedUpdate
  | mabCommitFailed
  deriving DecidableEq

/-- The name of an outcome in the execution ledger. -/
def MabOutcome.text : MabOutcome → Bytes
  | .targetExecutionNoMab => ascii "target_execution_no_mab"
  | .bodyValidationReject => ascii "body_validation_reject"
  | .pendingCleanup => ascii "pending_cleanup"
  | .armMismatch => ascii "arm_mismatch"
  | .invalidExecIdentity => ascii "invalid_exec_identity"
  | .committedUpdate => ascii "committed_update"
  | .mabCommitFailed => ascii "mab_commit_failed"

/-- `nv_mab_terminal_ledger_suppresses_cleanup`. -/
def MabOutcome.suppressesCleanup (o : MabOutcome) : Bool := o = .armMismatch

/-- The arm that was selected for this iteration. -/
def NvMab.selectedArm (mab : NvMab R) : NvArmId :=
  if mab.pendingUpdate then
    if mab.pendingSelectedValid then mab.pendingSelectedArm else mab.pendingArm
  else 0

/-- The arm that was used. -/
def NvMab.actualArm (mab : NvMab R) (selectedArm : NvArmId) : NvArmId :=
  if mab.pendingUpdate then mab.pendingArm else selectedArm

/-- The choice of `terminal_outcome`. -/
def terminalOutcome (obs : NvStateObs) (s : Afl R) (selectedArm : NvArmId) : MabOutcome :=
  if obs.validationReject then .bodyValidationReject
  else if s.stopSoon ≠ 0 ∧ s.nvMab.pendingUpdate then .pendingCleanup
  else if s.nvMab.pendingUpdate ∧ s.nvMab.actualArm selectedArm ≠ selectedArm then .armMismatch
  else if s.nvMab.pendingUpdate ∧ obs.execSeq = 0 then .invalidExecIdentity
  else if s.nvMab.pendingUpdate then .committedUpdate
  else .targetExecutionNoMab

/-- The terminal record of an observed execution. -/
def terminalRecord (s : Afl R) (obs : NvStateObs) (selectedArm : NvArmId) (o : MabOutcome) :
    ExecutionRecord where
  iterationId := s.nvExecutionIteration
  selectedArm := selectedArm
  actualUsedArm := s.nvMab.actualArm selectedArm
  countedExecution := !obs.validationReject
  harnessInvoked := true
  targetInvoked := !obs.validationReject && obs.has
  bodyValidated := !obs.validationReject && obs.has
  statusObserved := !obs.validationReject && 0 < obs.execSeq
  execSeq := if obs.validationReject then 0 else obs.execSeq
  httpStatus := if obs.validationReject then 0 else obs.httpStatus
  outcome := o.text
  cleanupReason := none

/-- The record of an input that the validity filter rejects. -/
def rejectRecord (s : Afl R) (selectedArm : NvArmId) : ExecutionRecord where
  iterationId := s.nvExecutionIteration
  selectedArm := selectedArm
  actualUsedArm := selectedArm
  countedExecution := false
  harnessInvoked := true
  targetInvoked := false
  bodyValidated := false
  statusObserved := false
  execSeq := 0
  httpStatus := 0
  outcome := MabOutcome.bodyValidationReject.text
  cleanupReason := some (ascii "invalid_input")

/-- The record behind a commit. -/
def commitRecord (s : Afl R) (obs : NvStateObs) (selectedArm rewardArm : NvArmId)
    (o : MabOutcome) : ExecutionRecord where
  iterationId := s.nvExecutionIteration
  selectedArm := selectedArm
  actualUsedArm := rewardArm
  countedExecution := true
  harnessInvoked := true
  targetInvoked := true
  bodyValidated := true
  statusObserved := true
  execSeq := obs.execSeq
  httpStatus := obs.httpStatus
  outcome := o.text
  cleanupReason := none

/-- `journal_update`. -/
def journalUpdate (obs : NvStateObs) (rewardArm : NvArmId) : NvMabJournalUpdate R where
  execSeq := obs.execSeq
  selectedArm := rewardArm
  actualUsedArm := rewardArm
  armMatch := true
  reward := nvRewardFromObs obs
  harnessNativeCoverage := nvRewardHarnessNcov * (obs.ncovDelta : R)
  securityState := nvRewardNewSecurityState * (obs.newStates : R)
  exception := if obs.isException then nvRewardException else 0
  recovery := if obs.recovered then nvRewardRecovered else 0
  http4xxPenalty := if obs.is4xx then nvReward4xxPenalty else 0
  securityStateNew := if obs.newStates ≠ 0 then 1 else 0
  updateSource := 1

/-! ## The function -/

/-- The mark that the ledger holds a terminal record of the pending slot. -/
def Afl.recordTerminal (s : Afl R) : Afl R :=
  { s with audit := { s.audit with
      nvMab := { s.audit.nvMab with pendingLedgerTerminalRecorded := true } } }

/-- Return through `nv_mab_journal_clear_pending`. -/
def fuzzCleared (cfg : AflCfg R) (env : FuzzEnv) (reason : String) (bail : Bool)
    (obs : Option NvStateObs) (s : Afl R) : FuzzResult R where
  bail := bail
  afl := { s with
    audit := (nvMabJournalClearPending cfg.audit env.clear (ascii reason) s.audit).2 }
  obs := obs
  cleared := if s.nvMab.pendingUpdate then some (ascii reason) else none

/-- Take the decision out of the pending slot, for the execution `execSeq`. -/
def Afl.takePending (execSeq : ℕ) (s : Afl R) : Afl R :=
  { s with
    nvSecStateRewardSrcSeq := execSeq
    audit := { s.audit with
      nvMab := { s.audit.nvMab with pendingUpdate := false, updateSource := 0 } } }

/-- After the commit: its terminal record. -/
def fuzzCommitted (cfg : AflCfg R) (env : FuzzEnv) (record : ExecutionRecord) (obs : NvStateObs)
    (committed : Bool) (s : Afl R) : FuzzResult R :=
  let ledger := nvExecutionLedgerAppend cfg.audit env.commitLedger record s.audit
  let s := { s with audit := ledger.2 }
  if committed && ledger.1 then ⟨false, s.recordTerminal, some obs, none⟩
  else ⟨true, s, some obs, none⟩

/-- Commit the reward of the pending arm. -/
def fuzzReward (cfg : AflCfg R) (env : FuzzEnv) (selectedArm : NvArmId) (obs : NvStateObs)
    (s : Afl R) : FuzzResult R :=
  let rewardArm := s.nvMab.pendingArm
  let s := s.takePending obs.execSeq
  let commit :=
    nvMabJournalCommitUpdate cfg.fmt cfg.audit env.journal (journalUpdate obs rewardArm) s.audit
  let outcome := if commit.1 then MabOutcome.committedUpdate else .mabCommitFailed
  fuzzCommitted cfg env (commitRecord s obs selectedArm rewardArm outcome) obs commit.1
    { s with audit := commit.2 }

/-- After `save_if_interesting`: hand the observation to the bandit. -/
def fuzzKept (cfg : AflCfg R) (env : FuzzEnv) (selectedArm : NvArmId) (obs : NvStateObs)
    (s : Afl R) : FuzzResult R :=
  if s.nvMab.pendingUpdate then
    if s.nvMab.pendingSelectedValid ∧ s.nvMab.pendingArm ≠ s.nvMab.pendingSelectedArm then
      fuzzCleared cfg env "arm_mismatch" false (some obs) s
    else if obs.validationReject then fuzzCleared cfg env "invalid_input" false (some obs) s
    else if obs.execSeq = 0 then
      fuzzCleared cfg env "invalid_exec_identity" false (some obs) s
    else fuzzReward cfg env selectedArm obs s
  else ⟨false, s, some obs, none⟩

/-- One step of `save_if_interesting`. -/
def saveStep (cfg : AflCfg R) (s : Afl R) : SaveStep → Afl R
  | .rerun env => (fuzzRunTarget cfg env s).2
  | .calibration env =>
    { (fuzzRunTarget cfg env { s with stageName := some (ascii "calibration") }).2 with
      stageName := s.stageName }
  | .addToQueue => { s with sec := { s.sec with ssCovCnt := s.sec.ssCovCnt ++ [0] } }

/-- `afl->queued_discovered += save_if_interesting(...)`. -/
def saveIfInteresting (cfg : AflCfg R) (env : FuzzEnv) (s : Afl R) : Afl R :=
  let s := env.save.foldl (saveStep cfg) s
  if env.saved then { s with queuedDiscovered := s.queuedDiscovered + 1 } else s

/-- The subsequent timeouts after an execution. -/
def Afl.countTmout (fault : FsrvRunResult) (s : Afl R) : Afl R :=
  { s with subseqTmouts := if fault = .tmout then s.subseqTmouts + 1 else 0 }

/-- After the terminal record: stop, timeout and skip requests. -/
def fuzzAlive (cfg : AflCfg R) (env : FuzzEnv) (selectedArm : NvArmId) (fault : FsrvRunResult)
    (obs : NvStateObs) (s : Afl R) : FuzzResult R :=
  let s := s.receive env.lateSignals
  if s.stopSoon ≠ 0 then
    if s.stopSoon = 2 ∧ cfg.nvTask.maxTestCases ≠ 0 ∧
        cfg.nvTask.maxTestCases ≤ s.nvTotalValidExec then
      fuzzCleared cfg env "budget_boundary" true (some obs) s
    else fuzzCleared cfg env "stop_soon" true (some obs) s
  else if fault = .tmout ∧ s.subseqTmouts > 250 then
    fuzzCleared cfg env "timeout" true (some obs)
      { s with subseqTmouts := s.subseqTmouts + 1, curSkippedItems := s.curSkippedItems + 1 }
  else
    let s := s.countTmout fault
    if s.skipRequested then
      fuzzCleared cfg env "skip" true (some obs)
        { s with skipRequested := false, curSkippedItems := s.curSkippedItems + 1 }
    else fuzzKept cfg env selectedArm obs (saveIfInteresting cfg env s)

/-- After the observation: the terminal record of the iteration.  A commit and
a cleanup write theirs later. -/
def fuzzTerminal (cfg : AflCfg R) (env : FuzzEnv) (selectedArm : NvArmId)
    (fault : FsrvRunResult) (obs : NvStateObs) (s : Afl R) : FuzzResult R :=
  let outcome := terminalOutcome obs s selectedArm
  if outcome ≠ .committedUpdate ∧ outcome ≠ .pendingCleanup then
    let ledger := nvExecutionLedgerAppend cfg.audit env.ledger
      (terminalRecord s obs selectedArm outcome) s.audit
    let s := { s with audit := ledger.2 }
    if !ledger.1 then ⟨true, s, some obs, none⟩
    else if s.nvMab.pendingUpdate && outcome.suppressesCleanup then
      fuzzAlive cfg env selectedArm fault obs s.recordTerminal
    else fuzzAlive cfg env selectedArm fault obs s
  else fuzzAlive cfg env selectedArm fault obs s

/-- Execute the input and take the snapshot of the security state. -/
def runAndObserve (cfg : AflCfg R) (env : FuzzEnv) (s : Afl R) : NvStateObs × Afl R :=
  let s := (fuzzRunTarget cfg env.run s).2
  let observed := nvObserveSecurityStateAfterExecution cfg env.worlds cfg.sp s.sec
  (observed.1, { s with sec := observed.2 }.receive env.signals)

/-- The part of `common_fuzz_stuff` from the execution on. -/
def fuzzExecuted (cfg : AflCfg R) (env : FuzzEnv) (selectedArm : NvArmId) (s : Afl R) :
    FuzzResult R :=
  let observed := runAndObserve cfg env s
  fuzzTerminal cfg env selectedArm env.run.res observed.1 observed.2

/-- `common_fuzz_stuff`. -/
def commonFuzzStuff (cfg : AflCfg R) (env : FuzzEnv) (outBuf : Bytes) (s : Afl R) :
    FuzzResult R :=
  let s := { s with nvExecutionIteration := s.nvExecutionIteration + 1 }
  let selectedArm := s.nvMab.selectedArm
  let written := writeToTestcase cfg.testcase outBuf false
  if written.len = 0 then fuzzCleared cfg env "invalid_input" false none s
  else if cfg.nvTask.enableValidity then
    let vr := nvValidityCheck cfg.target cfg.nvTask env.reply written.mem
    let s := { s with validity := nvAccount vr s.validity }
    if vr.isReject then
      let s := { s with
        audit := (nvExecutionLedgerAppend cfg.audit env.ledger (rejectRecord s selectedArm)
          s.audit).2 }
      fuzzCleared cfg env "invalid_input" false none s
    else fuzzExecuted cfg env selectedArm s
  else fuzzExecuted cfg env selectedArm s

/-- The state in which the target is executed, when the input passes the
filters. -/
def passesFilters (cfg : AflCfg R) (env : FuzzEnv) (outBuf : Bytes) (s : Afl R) :
    Option (Afl R) :=
  let s := { s with nvExecutionIteration := s.nvExecutionIteration + 1 }
  let written := writeToTestcase cfg.testcase outBuf false
  if written.len = 0 then none
  else if cfg.nvTask.enableValidity then
    let vr := nvValidityCheck cfg.target cfg.nvTask env.reply written.mem
    if vr.isReject then none else some { s with validity := nvAccount vr s.validity }
  else some s

/-- An input that does not pass is not executed. -/
theorem commonFuzzStuff_of_rejected {cfg : AflCfg R} {env : FuzzEnv} {outBuf : Bytes}
    {s : Afl R} (h : passesFilters cfg env outBuf s = none) :
    ∃ t : Afl R, commonFuzzStuff cfg env outBuf s =
        fuzzCleared cfg env "invalid_input" false none t ∧
      t.nvMab = s.nvMab ∧ t.sec = s.sec ∧ t.totalExecs = s.totalExecs := by
  simp only [passesFilters] at h
  simp only [commonFuzzStuff]
  split_ifs at h ⊢ with hlen hvalid hreject
  · exact ⟨_, rfl, rfl, rfl, rfl⟩
  · exact ⟨_, rfl, nvExecutionLedgerAppend_nvMab cfg.audit env.ledger _ s.audit, rfl, rfl⟩

/-- An input that passes is executed; the filters change only counters. -/
theorem commonFuzzStuff_of_passes {cfg : AflCfg R} {env : FuzzEnv} {outBuf : Bytes}
    {s t : Afl R} (h : passesFilters cfg env outBuf s = some t) :
    commonFuzzStuff cfg env outBuf s = fuzzExecuted cfg env s.nvMab.selectedArm t ∧
      t.nvMab = s.nvMab ∧ t.sec = s.sec ∧ t.totalExecs = s.totalExecs ∧
      t.counted = s.counted := by
  simp only [passesFilters] at h
  simp only [commonFuzzStuff]
  split_ifs at h ⊢ with hlen hvalid hreject
  · obtain rfl := Option.some.inj h
    exact ⟨rfl, rfl, rfl, rfl, rfl⟩
  · obtain rfl := Option.some.inj h
    exact ⟨rfl, rfl, rfl, rfl, rfl⟩

end

end AflNv
