import AflNv.Bandit
import AflNv.SeedAudit

/-!
# Reading the journal and the execution ledger

`parse_mab_journal`, `reconcile_mab_journal`, `parse_execution_ledger` and
`reconcile_execution_ledger` of `scripts/run_alfresco_bounded_feedback.py`.  Both
parsers go through the lines of a file of JSON records and collect what they
count; a line they reject leaves a diagnostic and makes the file invalid.  The
reconciliations compare the counts with the statistics of the fuzzer.
-/

namespace AflNv

open AflNv.Lib

variable {R : Type} (L : PyLib R)

/-! ## The journal -/

/-- What `parse_mab_journal` returns. -/
structure ParsedJournal (R : Type) where
  valid : Bool
  recordCount : ℕ
  updateCount : ℕ
  pendingClearedCount : ℕ
  mismatchCount : ℕ
  lastUpdateExecSeq : ℤ
  perArmPulls : ArmIdx → ℕ
  perArmRewardSums : ArmIdx → PyFloat R
  perArmPositive : ArmIdx → ℕ
  diagnostics : List Bytes

def ParsedJournal.empty : ParsedJournal R where
  valid := true
  recordCount := 0
  updateCount := 0
  pendingClearedCount := 0
  mismatchCount := 0
  lastUpdateExecSeq := 0
  perArmPulls := fun _ => 0
  perArmRewardSums := fun _ => .finite L.zero
  perArmPositive := fun _ => 0
  diagnostics := []

def ParsedJournal.reject (diagnostic : Bytes) (p : ParsedJournal R) : ParsedJournal R :=
  { p with valid := false, diagnostics := p.diagnostics ++ [diagnostic] }

def validClearReasons : List Bytes :=
  ["budget_boundary", "stop_soon", "timeout", "invalid_input", "skip", "invalid_exec_identity",
    "pending_no_exec_id"].map ascii

def journalEvents : List Bytes :=
  ["mab_update", "mab_pending_cleared", "mab_update_mismatch"].map ascii

def requiredUpdateKeys : List Bytes :=
  ["exec_seq", "selected_arm", "actual_used_arm", "arm_match", "reward", "reward_components",
    "pulls_before", "pulls_after", "sum_before", "sum_after", "mean_after", "positive_after",
    "update_source"].map ascii

/-- `reward > 0`. -/
def PyFloat.isPos (L : PyLib R) : PyFloat R → Bool
  | .finite x => L.isPos x
  | .inf neg => !neg
  | .nan => false

/-- Count an update of an arm. -/
def ParsedJournal.addUpdate (execSeq : ℤ) (arm : ArmIdx) (reward : PyFloat R)
    (p : ParsedJournal R) : ParsedJournal R :=
  { p with
    recordCount := p.recordCount + 1
    updateCount := p.updateCount + 1
    lastUpdateExecSeq := execSeq
    perArmPulls := Function.update p.perArmPulls arm (p.perArmPulls arm + 1)
    perArmRewardSums := Function.update p.perArmRewardSums arm (L.add (p.perArmRewardSums arm) reward)
    perArmPositive :=
      if reward.isPos L then Function.update p.perArmPositive arm (p.perArmPositive arm + 1)
      else p.perArmPositive }

/-- The numbers of an update; `none` when a conversion raises what is caught. -/
def updateValues (record : PyDict (PyJson R)) : Except PyError (Option (ℤ × ℤ × PyFloat R)) :=
  catchValue do
    let execSeq ← pyInt L (getItem record "exec_seq")
    let arm ← pyInt L (getItem record "actual_used_arm")
    let reward ← pyFloat L (getItem record "reward")
    return (execSeq, arm, reward)

/-- One line of the journal that was loaded; the state is the result so far and the
updates seen.  A record of a known event is counted before its fields are
checked, so a rejected update counts as a record. -/
def parseJournalRecord (record : PyJson R) (number : ℕ)
    (st : ParsedJournal R × List (ℤ × ℤ)) : Except PyError (ParsedJournal R × List (ℤ × ℤ)) :=
  let (p, seenUpdates) := st
  let reject (diagnostic : String) (p : ParsedJournal R) :=
    Except.ok (p.reject (ascii diagnostic ++ showNat number), seenUpdates)
  match record with
  | .dict record =>
    if !eqInt L (getItem record "schema_version") 1 then reject "unsupported_schema:" p
    else do
      let event := getItem record "event"
      let known ← inSet event journalEvents
      if !known then reject "unknown_event:" p
      else if eqStr event (ascii "mab_pending_cleared") then do
        let valid ← inSet (getItem record "reason") validClearReasons
        if !valid then reject "unknown_reason:" p
        else
          return ({ p with
            recordCount := p.recordCount + 1
            pendingClearedCount := p.pendingClearedCount + 1 }, seenUpdates)
      else if eqStr event (ascii "mab_update_mismatch") then
        return ({ p with
          recordCount := p.recordCount + 1
          mismatchCount := p.mismatchCount + 1 }, seenUpdates)
      else
        let counted := { p with recordCount := p.recordCount + 1 }
        let armMatch := match getItem record "arm_match" with
          | .bool true => true
          | _ => false
        if !hasKeys record requiredUpdateKeys || !armMatch then reject "invalid_update:" counted
        else do
          let values ← updateValues L record
          match values with
          | none => reject "invalid_update_values:" counted
          | some (execSeq, arm, reward) =>
            match NvArmId.idx arm with
            | none => reject "duplicate_or_invalid_update:" counted
            | some a =>
              if execSeq ≤ 0 || !reward.isfinite || (execSeq, arm) ∈ seenUpdates then
                reject "duplicate_or_invalid_update:" counted
              else return (p.addUpdate L execSeq a reward, (execSeq, arm) :: seenUpdates)
  | _ => reject "unsupported_schema:" p

/-- One line of the journal. -/
def parseJournalLine (st : ParsedJournal R × List (ℤ × ℤ)) (line : Bytes × ℕ) :
    Except PyError (ParsedJournal R × List (ℤ × ℤ)) :=
  let (raw, number) := line
  if raw = [] then .ok (st.1.reject (ascii "blank_line:" ++ showNat number), st.2)
  else
    match L.jsonLoads raw with
    | .error e =>
      if e.isDecodeError then
        .ok (st.1.reject (ascii "malformed_line:" ++ showNat number), st.2)
      else .error e
    | .ok record => parseJournalRecord L record number st

/-- `parse_mab_journal`. -/
def parseMabJournal (file : FileRead) : Except PyError (ParsedJournal R) :=
  match file with
  | .error cls => .ok ((ParsedJournal.empty L).reject (ascii "unreadable:" ++ cls))
  | .ok data =>
    let p := ParsedJournal.empty L
    let p := if hasPartialLine data then p.reject (ascii "partial_final_line") else p
    ((numbered (splitlines data)).foldlM (parseJournalLine L) (p, [])).map Prod.fst

/-- What a reconciliation returns, but for the counts it passes on. -/
structure Reconciliation where
  reconciled : Bool
  diagnostics : List Bytes
  deriving DecidableEq

def Reconciliation.of (diagnostics : List Bytes) : Reconciliation where
  reconciled := diagnostics = []
  diagnostics := diagnostics

/-- `int(stats.get(key, dflt))`; `none` is a `ValueError`. -/
def statIntOr (stats : PyDict Bytes) (key dflt : String) : Option ℤ :=
  L.intOfText ((stats.lookup (ascii key)).getD (ascii dflt))

/-- The name of a statistic of an arm. -/
def armStat (arm : ArmIdx) (field : String) : Bytes :=
  ascii "nv_mab_arm" ++ showNat arm.val ++ ascii field

/-- The comparison of one arm. -/
def armDiagnostics (p : ParsedJournal R) (stats : PyDict Bytes) (arm : ArmIdx) : List Bytes :=
  let pulls := (stats.lookup (armStat arm "_pulls")).bind L.intOfText
  let total := (stats.lookup (armStat arm "_sum")).bind L.floatOfText
  let positive := (stats.lookup (armStat arm "_pos")).bind L.intOfText
  let name := ascii "arm" ++ showNat arm.val
  match pulls, total, positive with
  | some pulls, some total, some positive =>
    (if (p.perArmPulls arm : ℤ) = pulls then [] else [name ++ ascii "_pulls_mismatch"]) ++
    (if L.isclose (p.perArmRewardSums arm) total then [] else [name ++ ascii "_sum_mismatch"]) ++
    (if (p.perArmPositive arm : ℤ) = positive then []
      else [name ++ ascii "_positive_mismatch"])
  | _, _, _ => [ascii "missing_arm" ++ showNat arm.val ++ ascii "_stats"]

/-- `reconcile_mab_journal`. -/
def reconcileMabJournal (p : ParsedJournal R) (stats : PyDict Bytes) : Reconciliation :=
  match statInt L stats "nv_mab_total_pulls", statInt L stats "security_state_reward_src_seq",
    statIntOr L stats "nv_mab_pending" "0", statIntOr L stats "nv_mab_journal_error_count" "0",
    statIntOr L stats "nv_mab_journal_audit_invalid" "0" with
  | some expectedTotal, some expectedLast, some expectedPending, some expectedErrors,
    some expectedInvalid =>
    .of (flag (!p.valid) "journal_invalid" ++
      flag ((p.updateCount : ℤ) ≠ expectedTotal) "total_pulls_mismatch" ++
      flag (expectedTotal ≠ 0 && p.lastUpdateExecSeq ≠ expectedLast) "last_exec_seq_mismatch" ++
      flag (expectedPending ≠ 0) "pending_update_not_cleared" ++
      (List.finRange nvArmMax).flatMap (armDiagnostics L p stats) ++
      flag (expectedErrors ≠ 0 || expectedInvalid ≠ 0) "journal_marked_invalid_by_fuzzer")
  | _, _, _, _, _ => { reconciled := false, diagnostics := [ascii "missing_journal_stats"] }

/-! ## The execution ledger -/

/-- What `parse_execution_ledger` returns without the identities. -/
structure ParsedLedger where
  valid : Bool
  recordCount : ℕ
  countedExecutionCount : ℕ
  harnessInvocationCount : ℕ
  targetInvocationCount : ℕ
  statusObservedCount : ℕ
  committedUpdateCount : ℕ
  pendingCleanupCount : ℕ
  mismatchCount : ℕ
  invalidExecutionIdentityCount : ℕ
  unobservedExecutionCount : ℕ
  validationRejectCount : ℕ
  diagnostics : List Bytes
  deriving DecidableEq

def ParsedLedger.empty : ParsedLedger where
  valid := true
  recordCount := 0
  countedExecutionCount := 0
  harnessInvocationCount := 0
  targetInvocationCount := 0
  statusObservedCount := 0
  committedUpdateCount := 0
  pendingCleanupCount := 0
  mismatchCount := 0
  invalidExecutionIdentityCount := 0
  unobservedExecutionCount := 0
  validationRejectCount := 0
  diagnostics := []

def ParsedLedger.reject (diagnostic : Bytes) (p : ParsedLedger) : ParsedLedger :=
  { p with valid := false, diagnostics := p.diagnostics ++ [diagnostic] }

/-- A diagnostic for the line, if the condition holds. -/
def ParsedLedger.check (bad : Bool) (diagnostic : String) (number : ℕ) (p : ParsedLedger) :
    ParsedLedger :=
  if bad then p.reject (ascii diagnostic ++ showNat number) else p

def ledgerOutcomes : List Bytes :=
  ["committed_update", "mab_commit_failed", "pending_cleanup", "arm_mismatch",
    "invalid_exec_identity", "body_validation_reject", "target_execution_no_mab"].map ascii

def requiredLedgerKeys : List Bytes :=
  ["schema_version", "event", "iteration_id", "selected_arm", "actual_used_arm", "arm_match",
    "counted_execution", "harness_invoked", "target_invoked", "body_validated",
    "status_observed", "exec_seq", "mab_outcome"].map ascii

/-- `isinstance(iteration_id, int) and iteration_id > 0`. -/
def isIteration : PyJson R → Bool
  | .int i => 0 < i
  | .bool b => b
  | _ => false

/-- `isinstance(seq, int) and not isinstance(seq, bool) and seq > 0`. -/
def isExecSeq : PyJson R → Bool
  | .int i => 0 < i
  | _ => false

/-- A string that is not empty. -/
def isText : PyJson R → Bool
  | .str s => s ≠ []
  | _ => false

/-- The record of a line has every field, and its outcome is known. -/
def isLedgerRecord (record : PyDict (PyJson R)) : Except PyError Bool := do
  if !eqInt L (getItem record "schema_version") 1 ||
      !eqStr (getItem record "event") (ascii "execution") ||
      !hasKeys record requiredLedgerKeys || !isIteration (getItem record "iteration_id") then
    return false
  else inSet (getItem record "mab_outcome") ledgerOutcomes

/-- What a record adds to the counts. -/
def ParsedLedger.count (record : PyDict (PyJson R)) (p : ParsedLedger) : ParsedLedger :=
  let holds (key : String) : ℕ := if truthy L (getItem record key) then 1 else 0
  let outcome (name : String) : ℕ :=
    if eqStr (getItem record "mab_outcome") (ascii name) then 1 else 0
  let unobserved : ℕ :=
    if truthy L (getItem record "counted_execution") &&
        !truthy L (getItem record "status_observed") then 1 else 0
  { p with
    recordCount := p.recordCount + 1
    countedExecutionCount := p.countedExecutionCount + holds "counted_execution"
    harnessInvocationCount := p.harnessInvocationCount + holds "harness_invoked"
    targetInvocationCount := p.targetInvocationCount + holds "target_invoked"
    statusObservedCount := p.statusObservedCount + holds "status_observed"
    committedUpdateCount := p.committedUpdateCount + outcome "committed_update"
    pendingCleanupCount := p.pendingCleanupCount + outcome "pending_cleanup"
    mismatchCount := p.mismatchCount + outcome "arm_mismatch"
    validationRejectCount := p.validationRejectCount + outcome "body_validation_reject"
    invalidExecutionIdentityCount :=
      p.invalidExecutionIdentityCount + outcome "invalid_exec_identity"
    unobservedExecutionCount := p.unobservedExecutionCount + unobserved }

/-- One line of the ledger that was loaded. -/
def parseLedgerRecord (record : PyJson R) (number : ℕ) (p : ParsedLedger) :
    Except PyError ParsedLedger :=
  match record with
  | .dict record => do
    let known ← isLedgerRecord L record
    if !known then return p.reject (ascii "invalid_record:" ++ showNat number)
    else
      let outcome := getItem record "mab_outcome"
      let cleanup := eqStr outcome (ascii "pending_cleanup")
      let seq := getItem record "exec_seq"
      let observed := getItem record "status_observed"
      let p := p.check (cleanup && !isText (getItem record "pending_cleanup_reason"))
        "cleanup_reason_missing:" number
      let p := p.check (cleanup && !isNull seq) "cleanup_identity_present:" number
      let p := p.count L record
      let p := p.check (!eqInt L observed (if isExecSeq seq then 1 else 0))
        "status_identity_mismatch:" number
      let p := p.check
        (truthy L (getItem record "target_invoked") && !truthy L observed &&
          !(eqStr outcome (ascii "invalid_exec_identity") || cleanup))
        "target_without_terminal_status:" number
      let p := p.check
        (eqStr outcome (ascii "committed_update") &&
          (!truthy L observed || !truthy L (getItem record "arm_match")))
        "invalid_commit:" number
      return p.check (eqStr outcome (ascii "mab_commit_failed")) "mab_commit_failed:" number
  | _ => .ok (p.reject (ascii "invalid_record:" ++ showNat number))

/-- One line of the ledger. -/
def parseLedgerLine (p : ParsedLedger) (line : Bytes × ℕ) : Except PyError ParsedLedger :=
  match L.jsonLoads line.1 with
  | .error e =>
    if e.isDecodeError then .ok (p.reject (ascii "malformed_line:" ++ showNat line.2))
    else .error e
  | .ok record => parseLedgerRecord L record line.2 p

/-- `parse_execution_ledger`. -/
def parseExecutionLedger (file : FileRead) : Except PyError ParsedLedger :=
  match file with
  | .error cls => .ok (ParsedLedger.empty.reject (ascii "unreadable:" ++ cls))
  | .ok data =>
    let p := ParsedLedger.empty
    let p := if hasPartialLine data then p.reject (ascii "partial_final_line") else p
    (numbered (splitlines data)).foldlM (parseLedgerLine L) p

/-- The comparison of a count with a statistic, if there is one. -/
def ledgerStatDiagnostics (stats : PyDict Bytes) (field key : String) (count : ℕ) :
    Except PyError (List Bytes) :=
  match stats.lookup (ascii key) with
  | none => .ok []
  | some raw =>
    match L.intOfText raw with
    | none => .error .valueError
    | some i => .ok (flag ((count : ℤ) ≠ i) (field ++ "_stats_mismatch"))

/-- `reconcile_execution_ledger`; no statistics and empty ones are the same. -/
def reconcileExecutionLedger (p : ParsedLedger) (stats : PyDict Bytes) :
    Except PyError Reconciliation := do
  let diagnostics := p.diagnostics ++ flag (!p.valid) "execution_ledger_invalid"
  if stats = [] then return .of diagnostics
  else
    match statIntOr L stats "nv_mab_journal_audit_invalid" "0" with
    | none => .error .valueError
    | some invalid =>
      let committed ← ledgerStatDiagnostics L stats "committed_update_count" "nv_mab_total_pulls"
        p.committedUpdateCount
      let cleanup ← ledgerStatDiagnostics L stats "pending_cleanup_count"
        "nv_mab_journal_pending_cleared_count" p.pendingCleanupCount
      let mismatch ← ledgerStatDiagnostics L stats "mismatch_count"
        "nv_mab_journal_mismatch_count" p.mismatchCount
      return .of (diagnostics ++ flag (invalid ≠ 0) "aggregate_ledger_mismatch" ++ committed ++
        cleanup ++ mismatch)

end AflNv
