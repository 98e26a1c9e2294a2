import AflNv.Bandit
import AflNv.CFormat
import AflNv.Lib.ByteLog
import AflNv.Lib.Template

/-!
# The audit files of the bandit

`src/afl-fuzz-nv-mab.c`: the journal of the bandit (`NV_MAB_JOURNAL_PATH`) and
the execution ledger (`NV_EXECUTION_LEDGER_PATH`).  Both are append-only files
of JSON lines, written with `open`, `write`, `fsync` and `close`, any of which
may fail.  The two paths name different files.

The lines are kept byte for byte: a line is its format string filled with the
printed values.  `readMabUpdate` reads an update line back.
-/

namespace AflNv

open AflNv.Lib

/-! ## Appending to a file -/

/-- What the system calls of one append answer. -/
structure AppendIo where
  opens : Bool
  /-- The results of `write`, in order; behind them one call takes the rest. -/
  writes : List ℤ
  fsyncs : Bool
  closes : Bool
  deriving DecidableEq

/-- An append that meets no error. -/
def AppendIo.ok : AppendIo where
  opens := true
  writes := []
  fsyncs := true
  closes := true

/-- The write loop: the bytes that reach the file, and whether all did. -/
def writeLoop : List ℤ → Bytes → Bytes × Bool
  | _, [] => ([], true)
  | [], line => (line, true)
  | n :: ns, line =>
    if n ≤ 0 then ([], false)
    else
      let (rest, ok) := writeLoop ns (line.drop n.toNat)
      (line.take n.toNat ++ rest, ok)

/-- One append: the new content of the file, and whether it succeeded. -/
def appendFile (io : AppendIo) (file line : Bytes) : Bytes × Bool :=
  if io.opens then
    let (written, ok) := writeLoop io.writes line
    (file ++ written, ok && io.fsyncs && io.closes)
  else (file, false)

theorem writeLoop_eq_of_ok (writes : List ℤ) (line : Bytes)
    (h : (writeLoop writes line).2 = true) : (writeLoop writes line).1 = line := by
  induction writes generalizing line with
  | nil => cases line <;> rfl
  | cons n ns ih =>
    cases line with
    | nil => rfl
    | cons b line =>
      rw [writeLoop] at h ⊢
      · by_cases hn : n ≤ 0
        · rw [if_pos hn] at h
          exact absurd h (by simp)
        · rw [if_neg hn] at h ⊢
          show List.take n.toNat (b :: line) ++ (writeLoop ns _).1 = b :: line
          rw [ih _ h, List.take_append_drop]
      · simp
      · simp

/-- A successful append adds exactly the line. -/
theorem appendFile_eq_of_ok {io : AppendIo} {file line : Bytes}
    (h : (appendFile io file line).2 = true) : (appendFile io file line).1 = file ++ line := by
  rw [appendFile] at h ⊢
  by_cases hopen : io.opens = true
  · rw [if_pos hopen] at h ⊢
    have hok : (writeLoop io.writes line).2 = true := by
      simp only [Bool.and_eq_true] at h
      exact h.1.1
    show file ++ (writeLoop io.writes line).1 = file ++ line
    rw [writeLoop_eq_of_ok _ _ hok]
  · rw [if_neg hopen] at h
    exact absurd h (by simp)

/-! ## The state -/

/-- The audit environment: the two paths as `getenv` returns them. -/
structure AuditEnv where
  journalPath : Option Bytes
  executionLedgerPath : Option Bytes
  deriving DecidableEq

/-- `path && *path`. -/
def isSetPath : Option Bytes → Bool
  | some (_ :: _) => true
  | _ => false

/-- The fields of `afl_state_t` that the audit functions use, and the content of
the two files. -/
structure AuditState (R : Type) where
  nvMab : NvMab R
  nvMabJournalEnabled : Bool
  nvMabJournalRecordCount : ℕ
  nvMabJournalErrorCount : ℕ
  nvMabJournalAuditInvalid : Bool
  nvMabJournalPendingClearedCount : ℕ
  nvMabJournalMismatchCount : ℕ
  nvExecutionLedgerEnabled : Bool
  nvExecutionLedgerRecordCount : ℕ
  nvExecutionLedgerErrorCount : ℕ
  nvExecutionLedgerAuditInvalid : Bool
  stopSoon : ℕ
  journalFile : Bytes
  executionLedgerFile : Bytes

/-- The state at the start of a run: nothing written, nothing counted. -/
def AuditState.zero {R : Type} [Field R] [LinearOrder R] : AuditState R where
  nvMab := .zero
  nvMabJournalEnabled := false
  nvMabJournalRecordCount := 0
  nvMabJournalErrorCount := 0
  nvMabJournalAuditInvalid := false
  nvMabJournalPendingClearedCount := 0
  nvMabJournalMismatchCount := 0
  nvExecutionLedgerEnabled := false
  nvExecutionLedgerRecordCount := 0
  nvExecutionLedgerErrorCount := 0
  nvExecutionLedgerAuditInvalid := false
  stopSoon := 0
  journalFile := []
  executionLedgerFile := []

section

variable {R : Type} [Field R] [LinearOrder R]

/-! ## The journal -/

/-- `nv_mab_journal_write`. -/
def nvMabJournalWrite (env : AuditEnv) (io : AppendIo) (line : Bytes) (s : AuditState R) :
    Bool × AuditState R :=
  if isSetPath env.journalPath then
    let (file, ok) := appendFile io s.journalFile line
    let s := { s with nvMabJournalEnabled := true, journalFile := file }
    if ok then (true, { s with nvMabJournalRecordCount := s.nvMabJournalRecordCount + 1 })
    else
      (false, { s with
        nvMabJournalErrorCount := s.nvMabJournalErrorCount + 1
        nvMabJournalAuditInvalid := true
        stopSoon := 1 })
  else (true, s)

/-- `nv_mab_journal_update_t`. -/
structure NvMabJournalUpdate (R : Type) where
  execSeq : ℕ
  selectedArm : NvArmId
  actualUsedArm : NvArmId
  armMatch : Bool
  reward : R
  harnessNativeCoverage : R
  securityState : R
  exception : R
  recovery : R
  http4xxPenalty : R
  securityStateNew : UInt8
  updateSource : UInt8

/-- The content of an update line. -/
structure MabUpdateRecord (R : Type) where
  update : NvMabJournalUpdate R
  pullsBefore : ℕ
  pullsAfter : ℕ
  sumBefore : R
  sumAfter : R
  meanAfter : R
  positiveAfter : ℕ

/-- The format string of an update line, cut at its conversions. -/
def mabUpdateTemplate : List Bytes :=
  ["\x7b\"schema_version\":1,\"event\":\"mab_update\",\"exec_seq\":",
    ",\"selected_arm\":", ",\"actual_used_arm\":", ",\"arm_match\":", ",\"reward\":",
    ",\"reward_components\":\x7b\"harness_native_coverage\":", ",\"security_state\":",
    ",\"exception\":", ",\"recovery\":", ",\"http_4xx_penalty\":",
    "\x7d,\"security_state_new\":", ",\"pulls_before\":", ",\"pulls_after\":",
    ",\"sum_before\":", ",\"sum_after\":", ",\"mean_after\":", ",\"positive_after\":",
    ",\"update_source\":", "\x7d\n"].map ascii

/-- The printed values of an update line. -/
def MabUpdateRecord.values (fmt : DoubleFmt R) (r : MabUpdateRecord R) : List Bytes :=
  [showNat r.update.execSeq, showInt r.update.selectedArm, showInt r.update.actualUsedArm,
    showBool r.update.armMatch, fmt.print r.update.reward,
    fmt.print r.update.harnessNativeCoverage, fmt.print r.update.securityState,
    fmt.print r.update.exception, fmt.print r.update.recovery,
    fmt.print r.update.http4xxPenalty, showNat r.update.securityStateNew.toNat,
    showNat r.pullsBefore, showNat r.pullsAfter, fmt.print r.sumBefore, fmt.print r.sumAfter,
    fmt.print r.meanAfter, showNat r.positiveAfter, showNat r.update.updateSource.toNat]

def MabUpdateRecord.line (fmt : DoubleFmt R) (r : MabUpdateRecord R) : Bytes :=
  Template.fill mabUpdateTemplate (r.values fmt)

/-- `nv_mab_journal_commit_update`. -/
def nvMabJournalCommitUpdate (fmt : DoubleFmt R) (env : AuditEnv) (io : AppendIo)
    (update : NvMabJournalUpdate R) (s : AuditState R) : Bool × AuditState R :=
  match update.selectedArm.idx, update.actualUsedArm.idx with
  | some _, some a =>
    if !update.armMatch || update.execSeq = 0 then (false, s)
    else
      let before := s.nvMab.arms a
      let mab := nvMabUpdate s.nvMab update.actualUsedArm update.reward
      let after := mab.arms a
      let s := { s with nvMab := mab }
      let line := MabUpdateRecord.line fmt
        { update := update
          pullsBefore := before.pulls
          pullsAfter := after.pulls
          sumBefore := before.sumReward
          sumAfter := after.sumReward
          meanAfter := after.meanReward
          positiveAfter := after.posCnt }
      if line.length ≥ 2048 then
        (false, { s with
          nvMabJournalErrorCount := s.nvMabJournalErrorCount + 1
          nvMabJournalAuditInvalid := true
          stopSoon := 1 })
      else nvMabJournalWrite env io line s
  | _, _ => (false, s)

/-- The format string of an event line, cut at its conversions. -/
def mabEventTemplate : List Bytes :=
  ["\x7b\"schema_version\":1,\"event\":\"", "\",\"reason\":\"", "\",\"selected_arm\":",
    ",\"actual_used_arm\":", "\x7d\n"].map ascii

def mabEventLine (event reason : Bytes) (selectedArm actualUsedArm : NvArmId) : Bytes :=
  Template.fill mabEventTemplate [event, reason, showInt selectedArm, showInt actualUsedArm]

/-- `nv_mab_journal_append_event`; a NULL event is the empty one here, and
`none` is a NULL reason. -/
def nvMabJournalAppendEvent (env : AuditEnv) (io : AppendIo) (event : Bytes)
    (reason : Option Bytes) (selectedArm actualUsedArm : NvArmId) (s : AuditState R) :
    Bool × AuditState R :=
  if event = [] then (false, s)
  else
    let line := mabEventLine event (reason.getD []) selectedArm actualUsedArm
    if line.length ≥ 512 then (false, s)
    else
      let (ok, s) := nvMabJournalWrite env io line s
      let s :=
        if ok && event = ascii "mab_pending_cleared" then
          { s with nvMabJournalPendingClearedCount := s.nvMabJournalPendingClearedCount + 1 }
        else s
      let s :=
        if ok && event = ascii "mab_update_mismatch" then
          { s with nvMabJournalMismatchCount := s.nvMabJournalMismatchCount + 1 }
        else s
      (ok, s)

/-! ## The execution ledger -/

/-- The arguments of `nv_execution_ledger_append`. -/
structure ExecutionRecord where
  iterationId : ℕ
  selectedArm : NvArmId
  actualUsedArm : NvArmId
  countedExecution : Bool
  harnessInvoked : Bool
  targetInvoked : Bool
  bodyValidated : Bool
  statusObserved : Bool
  execSeq : ℕ
  httpStatus : ℤ
  outcome : Bytes
  cleanupReason : Option Bytes

/-- The format string of an execution line, cut at its conversions. -/
def executionTemplate : List Bytes :=
  ["\x7b\"schema_version\":1,\"event\":\"execution\",\"iteration_id\":",
    ",\"input_id\":\"unavailable\",\"stage\":\"fuzz\",\"selected_arm\":",
    ",\"actual_used_arm\":", ",\"arm_match\":", ",\"counted_execution\":",
    ",\"harness_invoked\":", ",\"target_invoked\":", ",\"body_validated\":",
    ",\"status_observed\":", ",\"exec_seq\":", ",\"http_status\":", ",\"mab_outcome\":\"",
    "\",\"pending_cleanup_reason\":", "\x7d\n"].map ascii

/-- The cleanup reasons the ledger knows; any other one prints as the last. -/
def cleanupReasons : List Bytes :=
  ["budget_boundary", "invalid_input", "invalid_exec_identity", "pending_no_exec_id",
    "arm_mismatch", "timeout", "skip"].map ascii

def showCleanupReason : Option Bytes → Bytes
  | none => ascii "null"
  | some reason =>
    if reason ∈ cleanupReasons then ascii "\"" ++ reason ++ ascii "\""
    else ascii "\"stop_soon\""

/-- The line of an execution whose identity is serialized when it was observed. -/
def ExecutionRecord.line (r : ExecutionRecord) : Bytes :=
  Template.fill executionTemplate
    [showNat r.iterationId, showInt r.selectedArm, showInt r.actualUsedArm,
      showBool (r.actualUsedArm = r.selectedArm), showBool r.countedExecution,
      showBool r.harnessInvoked, showBool r.targetInvoked, showBool r.bodyValidated,
      showBool r.statusObserved,
      (if r.statusObserved && 0 < r.execSeq then showNat r.execSeq else ascii "null"),
      showInt r.httpStatus, r.outcome, showCleanupReason r.cleanupReason]

/-- The arguments that `nv_execution_ledger_append` refuses. -/
def ExecutionRecord.malformed (r : ExecutionRecord) : Bool :=
  r.outcome = [] || r.iterationId = 0 || r.selectedArm.idx.isNone ||
    (r.actualUsedArm.idx.isNone && r.actualUsedArm ≠ nvArmMax) ||
    (!r.statusObserved && r.execSeq ≠ 0) ||
    (r.statusObserved && r.execSeq = 0 && r.outcome ≠ ascii "invalid_exec_identity")

/-- `nv_execution_ledger_append`. -/
def nvExecutionLedgerAppend (env : AuditEnv) (io : AppendIo) (r : ExecutionRecord)
    (s : AuditState R) : Bool × AuditState R :=
  if isSetPath env.executionLedgerPath then
    if r.malformed then
      (false, { s with
        nvExecutionLedgerAuditInvalid := true
        nvExecutionLedgerErrorCount := s.nvExecutionLedgerErrorCount + 1 })
    else
      -- A status without an identity counts as not observed.
      let r := if r.statusObserved && r.execSeq = 0 then { r with statusObserved := false } else r
      let s := { s with nvExecutionLedgerEnabled := true }
      let (file, ok) :=
        if r.line.length ≥ 1024 then (s.executionLedgerFile, false)
        else appendFile io s.executionLedgerFile r.line
      let s := { s with executionLedgerFile := file }
      if ok then
        (true, { s with nvExecutionLedgerRecordCount := s.nvExecutionLedgerRecordCount + 1 })
      else
        (false, { s with
          nvExecutionLedgerAuditInvalid := true
          nvExecutionLedgerErrorCount := s.nvExecutionLedgerErrorCount + 1
          stopSoon := 1 })
  else (true, s)

/-! ## Clearing the pending slot -/

/-- The appends of one `nv_mab_journal_clear_pending`. -/
structure ClearIo where
  journal : AppendIo
  ledger : AppendIo

/-- The ledger record of a cleared pending slot. -/
def cleanupRecord (iteration : ℕ) (selectedArm arm : NvArmId) (reason : Bytes) :
    ExecutionRecord where
  iterationId := iteration
  selectedArm := selectedArm
  actualUsedArm := arm
  countedExecution := false
  harnessInvoked := true
  targetInvoked := false
  bodyValidated := false
  statusObserved := false
  execSeq := 0
  httpStatus := 0
  outcome := ascii "pending_cleanup"
  cleanupReason := some reason

/-- `nv_mab_journal_clear_pending`. -/
def nvMabJournalClearPending (env : AuditEnv) (io : ClearIo) (reason : Bytes)
    (s : AuditState R) : Bool × AuditState R :=
  if !s.nvMab.pendingUpdate then (true, s)
  else
    let arm := s.nvMab.pendingArm
    let selectedArm := if s.nvMab.pendingSelectedValid then s.nvMab.pendingSelectedArm else arm
    let iteration := s.nvMab.pendingIteration
    let (ok, s) := nvMabJournalAppendEvent env io.journal (ascii "mab_pending_cleared")
      (some reason) selectedArm arm s
    let (ok, s) :=
      if ok && iteration ≠ 0 && !s.nvMab.pendingLedgerTerminalRecorded &&
          env.executionLedgerPath.isSome then
        nvExecutionLedgerAppend env io.ledger (cleanupRecord iteration selectedArm arm reason) s
      else (ok, s)
    (ok, { s with
      nvMab := { s.nvMab with
        pendingUpdate := false
        pendingIteration := 0
        pendingSelectedArm := 0
        pendingSelectedValid := false
        pendingLedgerTerminalRecorded := false
        updateSource := 0 } })

/-! ## What the audit functions leave of the bandit -/

section Frame

variable (env : AuditEnv)

omit [Field R] [LinearOrder R] in
/-- The execution ledger is another file: an append to it changes nothing of the
journal. -/
theorem nvExecutionLedgerAppend_frame (io : AppendIo) (r : ExecutionRecord)
    (s : AuditState R) :
    ∃ enabled count errors invalid stop file,
      (nvExecutionLedgerAppend env io r s).2 =
        { s with
          nvExecutionLedgerEnabled := enabled
          nvExecutionLedgerRecordCount := count
          nvExecutionLedgerErrorCount := errors
          nvExecutionLedgerAuditInvalid := invalid
          stopSoon := stop
          executionLedgerFile := file } := by
  unfold nvExecutionLedgerAppend
  dsimp only
  split_ifs <;> exact ⟨_, _, _, _, _, _, rfl⟩

omit [Field R] [LinearOrder R] in
@[simp] theorem nvExecutionLedgerAppend_nvMab (io : AppendIo) (r : ExecutionRecord)
    (s : AuditState R) : (nvExecutionLedgerAppend env io r s).2.nvMab = s.nvMab := by
  obtain ⟨_, _, _, _, _, _, h⟩ := nvExecutionLedgerAppend_frame env io r s
  rw [h]

omit [Field R] [LinearOrder R] in
@[simp] theorem nvMabJournalWrite_nvMab (io : AppendIo) (line : Bytes) (s : AuditState R) :
    (nvMabJournalWrite env io line s).2.nvMab = s.nvMab := by
  rw [nvMabJournalWrite]
  dsimp only
  split_ifs <;> rfl

omit [Field R] [LinearOrder R] in
@[simp] theorem nvMabJournalAppendEvent_nvMab (io : AppendIo) (event : Bytes)
    (reason : Option Bytes) (selectedArm actualUsedArm : NvArmId) (s : AuditState R) :
    (nvMabJournalAppendEvent env io event reason selectedArm actualUsedArm s).2.nvMab =
      s.nvMab := by
  rw [nvMabJournalAppendEvent]
  dsimp only
  split_ifs <;> simp

/-- A cleared slot: the pending fields are reset, the statistics are not. -/
def NvMab.clearPending (mab : NvMab R) : NvMab R :=
  { mab with
    pendingUpdate := false
    pendingIteration := 0
    pendingSelectedArm := 0
    pendingSelectedValid := false
    pendingLedgerTerminalRecorded := false
    updateSource := 0 }

omit [Field R] [LinearOrder R] in
/-- Whatever its appends answer, a clear empties the slot and nothing else. -/
theorem nvMabJournalClearPending_nvMab (io : ClearIo) (reason : Bytes) {s : AuditState R}
    (h : s.nvMab.pendingUpdate = true) :
    (nvMabJournalClearPending env io reason s).2.nvMab = s.nvMab.clearPending := by
  rw [nvMabJournalClearPending, if_neg (by simp [h])]
  dsimp only
  split_ifs <;> simp [NvMab.clearPending]

/-- A commit updates the bandit once, whether its line is written or not, unless
an arm is out of range, the arms do not match or there is no identity. -/
theorem nvMabJournalCommitUpdate_nvMab (fmt : DoubleFmt R) (io : AppendIo)
    (update : NvMabJournalUpdate R) (s : AuditState R) :
    (nvMabJournalCommitUpdate fmt env io update s).2.nvMab =
      if update.selectedArm.idx.isSome && update.actualUsedArm.idx.isSome && update.armMatch &&
          update.execSeq ≠ 0 then
        nvMabUpdate s.nvMab update.actualUsedArm update.reward
      else s.nvMab := by
  rw [nvMabJournalCommitUpdate]
  cases update.selectedArm.idx with
  | none => simp
  | some _ =>
    cases hidx : update.actualUsedArm.idx with
    | none => simp
    | some a =>
      dsimp only
      split_ifs <;> simp_all

end Frame

end

end AflNv
