import AflNv.Readback

/-!
# Accepting the evidence of a run

`artifact_contract` and `inspect_artifacts` of
`scripts/run_alfresco_bounded_feedback.py`.  The inspection reads what a run left and
collects what is missing; the run is accepted when nothing is.

The source sets the list of missing artifacts and the final result side by side, in
many branches.  Here each branch is a `Verdict.failIf`, so a branch that set one
without the other would show.
-/

namespace AflNv

open AflNv.Lib

variable {R : Type} (L : PyLib R) (files : RunFiles)

/-! ## The contract -/

/-- The artifacts of a run: names with their paths. -/
structure ArtifactContract where
  setupRequired : List (Bytes × Bytes)
  executionRequired : List (Bytes × Bytes)
  conditional : List (Bytes × Bytes)

/-- The task file; without a readable one, an empty task. -/
def readTask (layout : Layout) : Except PyError (PyDict (PyJson R)) :=
  match readText L files layout.task >>= L.jsonLoadsStr with
  | .ok (.dict task) => .ok task
  | .ok _ => .error .attributeError
  | .error e => if e.isValueError || e = .osError then .ok [] else .error e

/-- `Path(v)`. -/
def pyPath (v : PyJson R) : Except PyError Bytes :=
  match v with
  | .str [] => .ok (ascii ".")
  | .str s => .ok s
  | _ => .error .typeError

/-- The seed marker that the task asks for. -/
def seedMarker (layout : Layout) (task : PyDict (PyJson R)) : Except PyError (Bytes × Bytes) := do
  if eqStr (getItem task "seed_source") (ascii "manifest") then
    let path ← pyPath ((task.lookup (ascii "seed_manifest")).getD (.str []))
    return (ascii "seed_manifest", path)
  else return (ascii "seed", layout.seed)

/-- The artifacts that only some scenarios leave. -/
def scenarioArtifacts (layout : Layout) (task : PyDict (PyJson R)) : List (Bytes × Bytes) :=
  let scenario := getItem task "scenario"
  if eqStr scenario (ascii "multipart_upload") then
    [(ascii "multipart_uploads", layout.multipartUploads)]
  else if eqStr scenario (ascii "content_update") then []
  else [(ascii "body_valid_stats", layout.bodyValidStats)]

/-- `artifact_contract`. -/
def artifactContract (layout : Layout) : Except PyError ArtifactContract := do
  let task ← readTask L files layout
  let marker ← seedMarker layout task
  return {
    setupRequired :=
      [(ascii "target", layout.targetConfig), (ascii "task", layout.task),
        (ascii "seed_dir", layout.seedDir), (ascii "afl_output", layout.aflOutput),
        (ascii "evidence", layout.evidence), (ascii "err_dir", layout.errDir), marker]
    executionRequired :=
      [(ascii "status", layout.status), (ascii "status_seq", layout.statusSeq),
        (ascii "state_trace", layout.stateTrace), (ascii "afl_stats", layout.fuzzerStats),
        (ascii "mab_journal", layout.mabJournal),
        (ascii "seed_selection_audit", layout.seedSelectionAudit)] ++
      scenarioArtifacts layout task
    conditional :=
      [(ascii "probe", layout.probe), (ascii "state_db", layout.stateDb),
        (ascii "ctx", layout.ctx), (ascii "readback", layout.readback)] }

/-- `_artifact_present`. -/
def artifactPresent (artifact : Bytes × Bytes) : Bool :=
  if artifact.1 ∈ ["seed_dir", "afl_output", "evidence", "err_dir"].map ascii then
    (files artifact.2).isDir
  else (files artifact.2).isFile

/-- The names of the artifacts that are missing. -/
def missingOf (artifacts : List (Bytes × Bytes)) : List Bytes :=
  (artifacts.filter fun artifact => !artifactPresent files artifact).map Prod.fst

/-- `target_execution_names`. -/
def targetExecutionNames : List Bytes := ["probe", "state_db"].map ascii

/-! ## The verdict -/

inductive FinalResult where
  | pass
  | artifactContractFailed
  | timeout
  | launchFailed
  deriving DecidableEq

/-- What is missing, and the result. -/
structure Verdict where
  missingRequired : List Bytes
  finalResult : FinalResult
  deriving DecidableEq

namespace Verdict

/-- A branch that adds names to the list and sets the result. -/
def failIf (bad : Bool) (names : List Bytes) (v : Verdict) : Verdict :=
  if bad then ⟨v.missingRequired ++ names, .artifactContractFailed⟩ else v

/-- A branch about the read-back: the name is added once, and the result is set for
a launch that succeeded. -/
def failReadbackIf (bad : Bool) (launchReturncode : Option ℤ) (v : Verdict) : Verdict :=
  if bad then
    ⟨if ascii "readback" ∈ v.missingRequired then v.missingRequired
      else v.missingRequired ++ [ascii "readback"],
      if launchReturncode = some 0 then .artifactContractFailed else v.finalResult⟩
  else v

/-- The verdict on the setup and the launch. -/
def ofLaunch (launchReturncode : Option ℤ) (missingSetup missingExecution : List Bytes) :
    Verdict :=
  let missing := if launchReturncode = some 0 then missingSetup ++ missingExecution else missingSetup
  let contract := if missing = [] then FinalResult.pass else .artifactContractFailed
  match launchReturncode with
  | none => ⟨missing, contract⟩
  | some returncode =>
    if returncode = 124 then ⟨missing, .timeout⟩
    else if returncode ≠ 0 then ⟨missing, .launchFailed⟩
    else ⟨missing, contract⟩

end Verdict

/-! ## The parts of the inspection -/

/-- The journal, when the launch succeeded and its files are there. -/
def inspectJournal (launchReturncode : Option ℤ) (layout : Layout) :
    Except PyError (Option (ParsedJournal R × Reconciliation)) := do
  if launchReturncode = some 0 && (files layout.mabJournal).isFile &&
      (files layout.fuzzerStats).isFile then
    let parsed ← parseMabJournal L (files layout.mabJournal).readBytes
    let stats ← parseFuzzerStats L files layout.fuzzerStats
    return some (parsed, reconcileMabJournal L parsed stats)
  else return none

/-- The ledger in the report. -/
structure LedgerSummary where
  parsed : ParsedLedger
  reconciliation : Reconciliation
  deriving DecidableEq

/-- The counts of the ledger against those of the journal. -/
def ledgerJournalDiagnostics (journal : Option (ParsedJournal R × Reconciliation))
    (parsed : ParsedLedger) : List Bytes :=
  let count (field : ParsedJournal R → ℕ) : ℕ := (journal.map fun j => field j.1).getD 0
  flag (parsed.committedUpdateCount ≠ count (·.updateCount)) "ledger_journal_update_mismatch" ++
  flag (parsed.pendingCleanupCount ≠ count (·.pendingClearedCount))
    "ledger_journal_cleanup_mismatch" ++
  flag (parsed.mismatchCount ≠ count (·.mismatchCount)) "ledger_journal_mismatch_count"

/-- The ledger, when the launch succeeded and its file is there. -/
def inspectLedger (launchReturncode : Option ℤ) (layout : Layout)
    (journal : Option (ParsedJournal R × Reconciliation)) :
    Except PyError (Option LedgerSummary) := do
  if launchReturncode = some 0 && (files (executionLedgerPath layout)).isFile then
    let parsed ← parseExecutionLedger L (files (executionLedgerPath layout)).readBytes
    let stats ←
      if (files layout.fuzzerStats).isFile then parseFuzzerStats L files layout.fuzzerStats
      else pure []
    let reconciliation ← reconcileExecutionLedger L parsed stats
    let mismatches := ledgerJournalDiagnostics journal parsed
    return some ⟨parsed, ⟨reconciliation.reconciled && mismatches = [],
      reconciliation.diagnostics ++ mismatches⟩⟩
  else return none

/-- The seed-selection audit in the report. -/
structure SeedAuditSummary where
  parsed : ParsedSeedAudit
  /-- Only with the statistics. -/
  reconciliation : Option SeedReconciliation
  manifest : Bool
  deriving DecidableEq

/-- The audit is valid, and reconciles when there are statistics. -/
def SeedAuditSummary.integrity (s : SeedAuditSummary) : Bool :=
  match s.reconciliation with
  | some reconciliation => reconciliation.reconciled
  | none => s.parsed.valid

/-- `len(set(queue_ids))`. -/
def SeedAuditSummary.distinctSelected (s : SeedAuditSummary) : ℕ := s.parsed.queueIds.dedup.length

section

variable [DecidableEq R]

/-- The seed-selection audit, when the launch succeeded and its file is there. -/
def inspectSeedAudit (launchReturncode : Option ℤ) (layout : Layout) :
    Except PyError (Option SeedAuditSummary) := do
  if launchReturncode = some 0 && (files layout.seedSelectionAudit).isFile then
    let parsed ← parseSeedSelectionAudit L (files layout.seedSelectionAudit).readBytes
    let reconciliation ←
      if (files layout.fuzzerStats).isFile then do
        let stats ← parseFuzzerStats L files layout.fuzzerStats
        pure (some (reconcileSeedSelectionAudit L parsed stats))
      else pure none
    let task ← readTask L files layout
    return some ⟨parsed, reconciliation, eqStr (getItem task "seed_source") (ascii "manifest")⟩
  else return none

end

/-! ## The read-back -/

/-- `v == w` where `v` is a field of a checked artifact: null, a `bool`, an `int` or
a `str`. -/
def eqField (v w : PyJson R) : Bool :=
  match v with
  | .null => isNull w
  | .bool b => eqInt L w (if b then 1 else 0)
  | .int i => eqInt L w i
  | .str s => eqStr w s
  | _ => false

/-- `isinstance(v, int)` as a number. -/
def asInt : PyJson R → Option ℤ
  | .int i => some i
  | .bool b => some (if b then 1 else 0)
  | _ => none

/-- `isinstance(expected, int) and field != expected`. -/
def differsInt (expected : Option ℤ) (field : PyJson R) : Bool :=
  match expected with
  | some i => !eqInt L field i
  | none => false

/-- `isinstance(expected, str) and field != expected`. -/
def differsStr (expected field : PyJson R) : Bool :=
  match expected with
  | .str s => !eqStr field s
  | _ => false

/-- The content fields differ from the read-back or from the last status. -/
def contentMismatch (readback result : PyDict (PyJson R)) (status : Option (PyDict (PyJson R))) :
    Bool :=
  result.any (·.1 = ascii "content_effect_match") &&
  (contentResultKeys.any fun key =>
      match readback.lookup key with
      | some expected => !eqField L ((result.lookup key).getD .null) expected
      | none => false) ||
  result.any (·.1 = ascii "content_effect_match") &&
  match status with
  | none => false
  | some status =>
    !eqField L (getItem result "expected_content_hash") (getItem status "content_sha256") ||
    !eqField L (getItem result "expected_content_length") (getItem status "content_length") ||
    !eqField L (getItem result "executed_request_status") (getItem status "http_code")

/-- A checked artifact differs from what is expected of it. -/
def artifactMismatch (readback : PyDict (PyJson R)) (parts : ReadbackParts R)
    (lastExecSeq validCount : Option ℤ) (status : Option (PyDict (PyJson R))) :
    Except PyError Bool := do
  let content := contentMismatch L readback parts.result status
  if differsInt L lastExecSeq (getItem parts.correlation "last_exec_seq") ||
      differsInt L validCount (getItem parts.correlation "valid_execution_count") ||
      differsStr (getItem readback "node_identity") (getItem parts.target "node_identity") ||
      differsStr (getItem readback "parent_identity") (getItem parts.target "parent_identity") ||
      differsStr (getItem readback "target_name") (getItem parts.target "name") then
    return true
  else
    match getItem readback "metadata_hash" with
    | .str hash =>
      let field ← requireItem parts.result "metadata_hash"
      return !eqStr field hash || content
    | _ => return content

/-- `try: v except RuntimeError: None`. -/
def catchRuntime {α : Type} : Except PyError α → Except PyError (Option α)
  | .ok a => .ok (some a)
  | .error (.runtimeError _) => .ok none
  | .error e => .error e

/-- `readback_artifact_valid`. -/
def readbackArtifactValid (launchReturncode : Option ℤ) (layout : Layout)
    (readback : PyDict (PyJson R)) : Except PyError Bool := do
  if (files layout.readback).isFile then
    let artifact ← catchRuntime (readJsonObject L files layout.readback "READBACK_ARTIFACT_INVALID")
    match artifact.bind (validateReadbackArtifact L) with
    | none => return false
    | some parts =>
      let fromReadback (key : String) : Option ℤ := asInt (getItem readback key)
      if launchReturncode = some 0 then
        let snapshot ← catchRuntime (parseFinalExecutionSnapshot L files layout)
        match snapshot with
        | none =>
          let _ ← artifactMismatch L readback parts (fromReadback "last_exec_seq")
            (fromReadback "valid_execution_count") none
          return false
        | some snapshot =>
          let mismatch ← artifactMismatch L readback parts (some snapshot.lastExecSeq)
            (some snapshot.validExecutionCount) (some snapshot.status)
          return !mismatch
      else
        let mismatch ← artifactMismatch L readback parts (fromReadback "last_exec_seq")
          (fromReadback "valid_execution_count") none
        return !mismatch
  else return true

/-! ## The inspection -/

/-- What `inspect_artifacts` returns, but for the paths. -/
structure Report (R : Type) where
  ok : Bool
  present : List Bytes
  missingRequired : List Bytes
  missingSetupRequired : List Bytes
  missingExecutionRequired : List Bytes
  missingTargetExecutionRequired : List Bytes
  missingConditional : List Bytes
  executionApplicable : Bool
  executionProved : Bool
  targetExecutionProved : Bool
  targetInvocationCount : ℕ
  targetExecutionArtifactsApplicable : Bool
  realServiceReproductionProved : Bool
  launchReturncode : Option ℤ
  finalResult : FinalResult
  mabJournal : Option (ParsedJournal R × Reconciliation)
  executionLedger : Option LedgerSummary
  seedSelectionAudit : Option SeedAuditSummary
  readback : PyDict (PyJson R)
  readbackArtifactValid : Bool

/-- An applicable read-back has to be complete. -/
def readbackIncomplete (layout : Layout) (readback : PyDict (PyJson R)) (artifactValid : Bool) :
    Bool :=
  truthy L (getItem readback "applicable") &&
  (!eqStr (getItem readback "verdict") (ascii "pass") ||
    !truthy L (getItem readback "present") || !truthy L (getItem readback "reconciled") ||
    !artifactValid || !(files layout.readback).isFile)

/-- What decides the verdict. -/
structure Findings (R : Type) where
  missingSetup : List Bytes
  missingExecution : List Bytes
  missingTarget : List Bytes
  journal : Option (ParsedJournal R × Reconciliation)
  ledger : Option LedgerSummary
  seedAudit : Option SeedAuditSummary
  artifactValid : Bool
  incomplete : Bool

/-- The number of target invocations in the ledger. -/
def Findings.targetCount (f : Findings R) : ℕ :=
  (f.ledger.map fun l => l.parsed.targetInvocationCount).getD 0

/-- The branches of `inspect_artifacts` that add to the list of missing artifacts, in
their order. -/
def Findings.verdict (f : Findings R) (launchReturncode : Option ℤ) : Verdict :=
  let v := Verdict.ofLaunch launchReturncode f.missingSetup f.missingExecution
  let v := v.failIf (f.journal.any fun j => !j.2.reconciled) [ascii "mab_journal_reconciliation"]
  let v := v.failIf (f.ledger.any fun l => !l.reconciliation.reconciled)
    [ascii "execution_ledger_reconciliation"]
  let v := v.failIf (launchReturncode = some 0 && f.ledger.isNone) [ascii "execution_ledger"]
  let v := v.failIf (0 < f.targetCount && f.missingTarget ≠ []) f.missingTarget
  let v := v.failIf (f.seedAudit.any fun s => !s.integrity) [ascii "seed_selection_audit_integrity"]
  let v := v.failIf (f.seedAudit.any fun s => s.manifest && s.distinctSelected < 2)
    [ascii "multi_seed_selection_evidence"]
  let v := v.failReadbackIf (!f.artifactValid) launchReturncode
  v.failReadbackIf f.incomplete launchReturncode

/-- `sorted` on names. -/
def sortNames (names : List Bytes) : List Bytes := names.insertionSort (· ≤ ·)

section

variable [DecidableEq R]

/-- `inspect_artifacts`. -/
def inspectArtifacts (layout : Layout) (launchReturncode : Option ℤ)
    (readback : Option (PyDict (PyJson R))) : Except PyError (Report R) := do
  let contract ← artifactContract L files layout
  let missingSetup := missingOf files contract.setupRequired
  let missingExecution := missingOf files contract.executionRequired
  let missingConditional := missingOf files contract.conditional
  let missingTarget := missingConditional.filter (· ∈ targetExecutionNames)
  let journal ← inspectJournal L files launchReturncode layout
  let ledger ← inspectLedger L files launchReturncode layout journal
  let seedAudit ← inspectSeedAudit L files launchReturncode layout
  let readback := readback.getD readbackBase
  let artifactValid ← readbackArtifactValid L files launchReturncode layout readback
  let findings : Findings R :=
    { missingSetup := missingSetup
      missingExecution := missingExecution
      missingTarget := missingTarget
      journal := journal
      ledger := ledger
      seedAudit := seedAudit
      artifactValid := artifactValid
      incomplete := readbackIncomplete L files layout readback artifactValid }
  let verdict := findings.verdict launchReturncode
  let targetCount := findings.targetCount
  let statusCount := (ledger.map fun l => l.parsed.statusObservedCount).getD 0
  let ledgerSound := ledger.any fun l => l.parsed.valid && l.reconciliation.reconciled
  let targetProved := ledgerSound && 0 < targetCount && targetCount ≤ statusCount
  return {
    ok := verdict.finalResult = .pass
    present := sortNames <|
      (contract.setupRequired ++ contract.executionRequired ++ contract.conditional).filter
        (artifactPresent files) |>.map Prod.fst
    missingRequired := sortNames verdict.missingRequired
    missingSetupRequired := sortNames missingSetup
    missingExecutionRequired := sortNames missingExecution
    missingTargetExecutionRequired := if 0 < targetCount then sortNames missingTarget else []
    missingConditional := sortNames (missingConditional.filter (· ∉ targetExecutionNames))
    executionApplicable := launchReturncode = some 0
    executionProved :=
      (contract.executionRequired.filter fun artifact =>
        artifact.1 ∈ ["status", "status_seq", "afl_stats"].map ascii).all (artifactPresent files) &&
      (launchReturncode ≠ some 0 || ledgerSound) &&
      (ledger.map fun l => l.parsed.unobservedExecutionCount).getD 0 = 0
    targetExecutionProved := targetProved
    targetInvocationCount := targetCount
    targetExecutionArtifactsApplicable := 0 < targetCount
    realServiceReproductionProved :=
      targetProved && missingTarget = [] && truthy L (getItem readback "applicable") &&
      eqStr (getItem readback "verdict") (ascii "pass") &&
      truthy L (getItem readback "reconciled") && artifactValid && verdict.finalResult = .pass
    launchReturncode := launchReturncode
    finalResult := verdict.finalResult
    mabJournal := journal
    executionLedger := ledger
    seedSelectionAudit := seedAudit
    readback := readback
    readbackArtifactValid := artifactValid }

end

end AflNv
