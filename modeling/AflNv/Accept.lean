import AflNv.Inspect

/-!
# What an accepted run has shown

`Findings.verdict_spec` says that the list of missing artifacts and the final result
agree, and that the list is empty exactly when no branch found fault.  From there
each part of the inspection is read as the fact it established: one lemma for each
of the journal, the ledger, the seed audit and the read-back.

`inspectArtifacts_accepts` puts them together.  A read-back artifact that lies in the
run directory has to fit the schema and the final snapshot; its verdict is looked at
only when the caller passes a read-back that is applicable.
-/

namespace AflNv

open AflNv.Lib

variable {R : Type} {L : PyLib R} {files : RunFiles} {layout : Layout}

/-! ## The verdict -/

namespace Verdict

/-- The list and the result agree. -/
def Agrees (v : Verdict) : Prop := v.finalResult = .pass ↔ v.missingRequired = []

theorem agrees_ofLaunch (missingSetup missingExecution : List Bytes) :
    (ofLaunch (some 0) missingSetup missingExecution).Agrees := by
  rw [Agrees, ofLaunch]
  by_cases h : missingSetup ++ missingExecution = []
  · simp [h]
  · simp [h]

theorem missing_ofLaunch (missingSetup missingExecution : List Bytes) :
    (ofLaunch (some 0) missingSetup missingExecution).missingRequired = [] ↔
      missingSetup = [] ∧ missingExecution = [] := by
  simp [ofLaunch]

/-- A branch adds a name whenever it sets the result. -/
theorem Agrees.failIf {v : Verdict} (h : v.Agrees) {bad : Bool} {names : List Bytes}
    (hnames : bad = true → names ≠ []) :
    (v.failIf bad names).Agrees ∧
      ((v.failIf bad names).missingRequired = [] ↔ bad = false ∧ v.missingRequired = []) := by
  cases bad with
  | false => exact ⟨h, by simp [Verdict.failIf]⟩
  | true => simp [Agrees, Verdict.failIf, hnames rfl]

theorem Agrees.failReadbackIf {v : Verdict} (h : v.Agrees) (bad : Bool) :
    (v.failReadbackIf bad (some 0)).Agrees ∧
      ((v.failReadbackIf bad (some 0)).missingRequired = [] ↔
        bad = false ∧ v.missingRequired = []) := by
  cases bad with
  | false => exact ⟨h, by simp [Verdict.failReadbackIf]⟩
  | true =>
    have hne : (if ascii "readback" ∈ v.missingRequired then v.missingRequired
        else v.missingRequired ++ [ascii "readback"]) ≠ [] := by
      split_ifs with hmem
      · exact List.ne_nil_of_mem hmem
      · simp
    simp [Agrees, Verdict.failReadbackIf, hne]

end Verdict

/-- No branch found fault. -/
structure Findings.Sound (f : Findings R) : Prop where
  setup : f.missingSetup = []
  execution : f.missingExecution = []
  journal : ∀ j, f.journal = some j → j.2.reconciled = true
  ledger : ∃ l, f.ledger = some l ∧ l.reconciliation.reconciled = true
  target : 0 < f.targetCount → f.missingTarget = []
  seedAudit : ∀ s, f.seedAudit = some s →
    s.integrity = true ∧ (s.manifest = true → 2 ≤ s.distinctSelected)
  artifactValid : f.artifactValid = true
  incomplete : f.incomplete = false

/-- After a launch that succeeded, the result is a pass exactly when nothing is
missing, and nothing is missing exactly when no branch found fault. -/
theorem Findings.verdict_spec (f : Findings R) :
    (f.verdict (some 0)).Agrees ∧ ((f.verdict (some 0)).missingRequired = [] ↔ f.Sound) := by
  have h₀ := Verdict.agrees_ofLaunch f.missingSetup f.missingExecution
  have e₀ := Verdict.missing_ofLaunch f.missingSetup f.missingExecution
  have hone : ∀ {bad : Bool} {name : Bytes}, bad = true → [name] ≠ [] := by simp
  obtain ⟨h₁, e₁⟩ := h₀.failIf (@hone (f.journal.any fun j => !j.2.reconciled)
    (ascii "mab_journal_reconciliation"))
  obtain ⟨h₂, e₂⟩ := h₁.failIf (@hone (f.ledger.any fun l => !l.reconciliation.reconciled)
    (ascii "execution_ledger_reconciliation"))
  obtain ⟨h₃, e₃⟩ := h₂.failIf (@hone (some (0 : ℤ) = some 0 && f.ledger.isNone)
    (ascii "execution_ledger"))
  have htarget : (0 < f.targetCount && f.missingTarget ≠ []) = true → f.missingTarget ≠ [] := by
    simp
  obtain ⟨h₄, e₄⟩ := h₃.failIf htarget
  obtain ⟨h₅, e₅⟩ := h₄.failIf (@hone (f.seedAudit.any fun s => !s.integrity)
    (ascii "seed_selection_audit_integrity"))
  obtain ⟨h₆, e₆⟩ := h₅.failIf (@hone (f.seedAudit.any fun s => s.manifest && s.distinctSelected < 2)
    (ascii "multi_seed_selection_evidence"))
  obtain ⟨h₇, e₇⟩ := h₆.failReadbackIf (!f.artifactValid)
  obtain ⟨h₈, e₈⟩ := h₇.failReadbackIf f.incomplete
  refine ⟨h₈, e₈.trans ?_⟩
  rw [e₇, e₆, e₅, e₄, e₃, e₂, e₁, e₀]
  constructor
  · rintro ⟨hincomplete, hartifact, hseeds, hintegrity, htarget, hledger, hrec, hjournal, hsetup,
      hexec⟩
    refine ⟨hsetup, hexec, ?_, ?_, ?_, ?_, by simpa using hartifact, hincomplete⟩
    · intro j hj
      simpa [hj] using hjournal
    · cases hl : f.ledger with
      | none => simp [hl] at hledger
      | some l => exact ⟨l, rfl, by simpa [hl] using hrec⟩
    · intro hpos
      simpa [hpos] using htarget
    · intro s hs
      refine ⟨by simpa [hs] using hintegrity, fun hmanifest => ?_⟩
      simp only [hs, Option.any_some, hmanifest, Bool.true_and, decide_eq_false_iff_not] at hseeds
      omega
  · intro h
    obtain ⟨l, hl, hreconciled⟩ := h.ledger
    refine ⟨h.incomplete, by simp [h.artifactValid], ?_, ?_, ?_, by simp [hl], by
      simp [hl, hreconciled], ?_, h.setup, h.execution⟩
    · cases hs : f.seedAudit with
      | none => rfl
      | some s =>
        have hcount := (h.seedAudit s hs).2
        cases hm : s.manifest with
        | false => simp [hm]
        | true =>
          have hcount := hcount hm
          simp only [Option.any_some, hm, Bool.true_and, decide_eq_false_iff_not]
          omega
    · cases hs : f.seedAudit with
      | none => rfl
      | some s => simp [(h.seedAudit s hs).1]
    · by_cases hpos : 0 < f.targetCount
      · simp [h.target hpos]
      · simp [hpos]
    · cases hj : f.journal with
      | none => rfl
      | some j => simp [h.journal j hj]

/-! ## Reconciled evidence is valid -/

@[simp] theorem flag_eq_nil {cond : Bool} {text : String} : flag cond text = [] ↔ cond = false := by
  cases cond <;> simp [flag]

@[simp] theorem Reconciliation.of_reconciled (diagnostics : List Bytes) :
    (Reconciliation.of diagnostics).reconciled = true ↔ diagnostics = [] := by
  simp [Reconciliation.of]

theorem valid_of_reconcileMabJournal {p : ParsedJournal R} {stats : PyDict Bytes}
    (h : (reconcileMabJournal L p stats).reconciled = true) : p.valid = true := by
  unfold reconcileMabJournal at h
  split at h
  · simp only [Reconciliation.of_reconciled, List.append_eq_nil_iff, flag_eq_nil] at h
    simpa using h.1.1.1.1.1
  · simp at h

theorem valid_of_reconcileExecutionLedger {p : ParsedLedger} {stats : PyDict Bytes}
    {r : Reconciliation} (h : reconcileExecutionLedger L p stats = .ok r)
    (hr : r.reconciled = true) : p.valid = true := by
  unfold reconcileExecutionLedger at h
  split at h
  · cases h
    simp only [Reconciliation.of_reconciled, List.append_eq_nil_iff, flag_eq_nil] at hr
    simpa using hr.2
  · split at h
    · exact absurd h (by simp)
    · obtain ⟨committed, -, h⟩ := bind_ok h
      obtain ⟨cleanup, -, h⟩ := bind_ok h
      obtain ⟨mismatch, -, h⟩ := bind_ok h
      cases h
      simp only [Reconciliation.of_reconciled, List.append_eq_nil_iff, flag_eq_nil] at hr
      simpa using hr.1.1.1.1.2

theorem valid_of_reconcileSeedSelectionAudit {p : ParsedSeedAudit} {stats : PyDict Bytes}
    (h : (reconcileSeedSelectionAudit L p stats).reconciled = true) : p.valid = true := by
  unfold reconcileSeedSelectionAudit at h
  split at h
  · simp only [decide_eq_true_eq, List.append_eq_nil_iff] at h
    have htotals := h.1.1.1.1
    simp only [seedTotalDiagnostics, List.append_eq_nil_iff, flag_eq_nil] at htotals
    simpa using htotals.1.1.1.1.1.1.1.1.2
  · simp at h

/-! ## The parts of the inspection -/

variable (L files layout)

/-- The journal parses and reconciles. -/
structure JournalAccepted (stats : PyDict Bytes) (journal : ParsedJournal R) : Prop where
  parsed : parseMabJournal L (files layout.mabJournal).readBytes = .ok journal
  valid : journal.valid = true
  reconciled : (reconcileMabJournal L journal stats).reconciled = true

/-- The ledger exists, parses, reconciles and agrees with the journal. -/
structure LedgerAccepted (stats : PyDict Bytes) (journal : ParsedJournal R)
    (ledger : ParsedLedger) : Prop where
  present : (files (executionLedgerPath layout)).isFile = true
  parsed : parseExecutionLedger L (files (executionLedgerPath layout)).readBytes = .ok ledger
  valid : ledger.valid = true
  reconciled : ∃ r, reconcileExecutionLedger L ledger stats = .ok r ∧ r.reconciled = true
  updates : ledger.committedUpdateCount = journal.updateCount
  cleanups : ledger.pendingCleanupCount = journal.pendingClearedCount
  mismatches : ledger.mismatchCount = journal.mismatchCount

/-- The seed-selection audit parses and reconciles; a run over a manifest selected at
least two seeds. -/
structure SeedAuditAccepted [DecidableEq R] (stats : PyDict Bytes) (audit : ParsedSeedAudit) : Prop where
  parsed : parseSeedSelectionAudit L (files layout.seedSelectionAudit).readBytes = .ok audit
  valid : audit.valid = true
  reconciled : (reconcileSeedSelectionAudit L audit stats).reconciled = true
  distinct : ∀ task, readTask L files layout = .ok task →
    eqStr (getItem task "seed_source") (ascii "manifest") = true → 2 ≤ audit.queueIds.dedup.length

/-- A read-back artifact is one of the final snapshot. -/
structure ReadbackMatches (parts : ReadbackParts R) (snapshot : ExecutionSnapshot R) : Prop where
  lastExecSeq : eqInt L (getItem parts.correlation "last_exec_seq") snapshot.lastExecSeq = true
  validExecutionCount :
    eqInt L (getItem parts.correlation "valid_execution_count") snapshot.validExecutionCount = true
  contentHash : parts.result.any (·.1 = ascii "content_effect_match") = true →
    eqField L (getItem parts.result "expected_content_hash")
      (getItem snapshot.status "content_sha256") = true
  contentLength : parts.result.any (·.1 = ascii "content_effect_match") = true →
    eqField L (getItem parts.result "expected_content_length")
      (getItem snapshot.status "content_length") = true
  requestStatus : parts.result.any (·.1 = ascii "content_effect_match") = true →
    eqField L (getItem parts.result "executed_request_status")
      (getItem snapshot.status "http_code") = true

/-- The read-back artifact has the schema and is one of the final snapshot. -/
def ReadbackArtifactAccepted : Prop :=
  ∃ payload parts snapshot,
    readJsonObject L files layout.readback "READBACK_ARTIFACT_INVALID" = .ok payload ∧
    validateReadbackArtifact L payload = some parts ∧
    parseFinalExecutionSnapshot L files layout = .ok snapshot ∧
    ReadbackMatches L parts snapshot

/-- A read-back that is complete and passed. -/
structure ReadbackPassed (readback : PyDict (PyJson R)) : Prop where
  verdict : eqStr (getItem readback "verdict") (ascii "pass") = true
  present : truthy L (getItem readback "present") = true
  reconciled : truthy L (getItem readback "reconciled") = true
  artifact : (files layout.readback).isFile = true

variable {L files layout}

theorem inspectJournal_ok {journal : Option (ParsedJournal R × Reconciliation)}
    (h : inspectJournal L files (some 0) layout = .ok journal)
    (hjournal : (files layout.mabJournal).isFile = true)
    (hstats : (files layout.fuzzerStats).isFile = true) :
    ∃ parsed stats, parseMabJournal L (files layout.mabJournal).readBytes = .ok parsed ∧
      parseFuzzerStats L files layout.fuzzerStats = .ok stats ∧
      journal = some (parsed, reconcileMabJournal L parsed stats) := by
  rw [inspectJournal, if_pos (by simp [hjournal, hstats])] at h
  obtain ⟨parsed, hparsed, h⟩ := bind_ok h
  obtain ⟨stats, hread, h⟩ := bind_ok h
  cases h
  exact ⟨parsed, stats, hparsed, hread, rfl⟩

theorem inspectLedger_ok {journal : Option (ParsedJournal R × Reconciliation)} {l : LedgerSummary}
    (h : inspectLedger L files (some 0) layout journal = .ok (some l))
    (hstats : (files layout.fuzzerStats).isFile = true) :
    (files (executionLedgerPath layout)).isFile = true ∧
    parseExecutionLedger L (files (executionLedgerPath layout)).readBytes = .ok l.parsed ∧
    ∃ stats r, parseFuzzerStats L files layout.fuzzerStats = .ok stats ∧
      reconcileExecutionLedger L l.parsed stats = .ok r ∧
      (l.reconciliation.reconciled = true →
        r.reconciled = true ∧ ledgerJournalDiagnostics journal l.parsed = []) := by
  rw [inspectLedger] at h
  split_ifs at h with hfile
  · obtain ⟨parsed, hparsed, h⟩ := bind_ok h
    obtain ⟨stats, hread, h⟩ := bind_ok h
    obtain ⟨r, hr, h⟩ := bind_ok h
    cases h
    refine ⟨by simpa using hfile, hparsed, stats, r, hread, hr, ?_⟩
    simp
  · cases h

theorem inspectSeedAudit_ok [DecidableEq R] {seedAudit : Option SeedAuditSummary}
    (h : inspectSeedAudit L files (some 0) layout = .ok seedAudit)
    (haudit : (files layout.seedSelectionAudit).isFile = true)
    (hstats : (files layout.fuzzerStats).isFile = true) :
    ∃ parsed stats task,
      parseSeedSelectionAudit L (files layout.seedSelectionAudit).readBytes = .ok parsed ∧
      parseFuzzerStats L files layout.fuzzerStats = .ok stats ∧
      readTask L files layout = .ok task ∧
      seedAudit = some ⟨parsed, some (reconcileSeedSelectionAudit L parsed stats),
        eqStr (getItem task "seed_source") (ascii "manifest")⟩ := by
  rw [inspectSeedAudit, if_pos (by simp [haudit])] at h
  obtain ⟨parsed, hparsed, h⟩ := bind_ok h
  rw [if_pos hstats] at h
  obtain ⟨stats, hread, h⟩ := bind_ok h
  obtain ⟨reconciliation, hr, h⟩ := bind_ok h
  cases hr
  obtain ⟨task, htask, h⟩ := bind_ok h
  cases h
  exact ⟨parsed, stats, task, hparsed, hread, htask, rfl⟩

theorem present_of_missingOf {artifacts : List (Bytes × Bytes)} (h : missingOf files artifacts = []) :
    ∀ artifact ∈ artifacts, artifactPresent files artifact = true := by
  intro artifact hmem
  by_contra hmissing
  have hname : artifact.1 ∈ missingOf files artifacts := by
    simp only [missingOf, List.mem_map, List.mem_filter]
    exact ⟨artifact, ⟨hmem, by simpa using hmissing⟩, rfl⟩
  simp [h] at hname

theorem present_of_missingTarget {artifacts : List (Bytes × Bytes)}
    (h : (missingOf files artifacts).filter (· ∈ targetExecutionNames) = []) {name path : Bytes}
    (hmem : (name, path) ∈ artifacts) (hname : name ∈ targetExecutionNames) :
    artifactPresent files (name, path) = true := by
  by_contra hmissing
  have hmem' : name ∈ (missingOf files artifacts).filter (· ∈ targetExecutionNames) := by
    simp only [missingOf, List.mem_filter, List.mem_map, decide_eq_true_eq]
    exact ⟨⟨(name, path), ⟨hmem, by simpa using hmissing⟩, rfl⟩, hname⟩
  simp [h] at hmem'

/-! ## The read-back -/

theorem catchRuntime_some {α : Type} {x : Except PyError α} {a : α}
    (h : catchRuntime x = .ok (some a)) : x = .ok a := by
  cases x with
  | ok b => simpa [catchRuntime] using h
  | error e => cases e <;> simp [catchRuntime] at h

theorem matches_of_artifactMismatch {readback : PyDict (PyJson R)} {parts : ReadbackParts R}
    {snapshot : ExecutionSnapshot R}
    (h : artifactMismatch L readback parts (some snapshot.lastExecSeq)
      (some snapshot.validExecutionCount) (some snapshot.status) = .ok false) :
    ReadbackMatches L parts snapshot := by
  rw [artifactMismatch] at h
  split_ifs at h with hids
  · cases h
  · simp only [Bool.or_eq_true, not_or, Bool.not_eq_true] at hids
    have hcontent : contentMismatch L readback parts.result (some snapshot.status) = false := by
      split at h
      · obtain ⟨field, -, h⟩ := bind_ok h
        exact (Bool.or_eq_false_iff.mp (Except.ok.inj h)).2
      · simpa [pure, Except.pure] using h
    simp only [contentMismatch, Bool.or_eq_false_iff, Bool.and_eq_false_imp] at hcontent
    refine ⟨?_, ?_, fun hkey => ?_, fun hkey => ?_, fun hkey => ?_⟩
    · simpa [differsInt] using hids.1.1.1.1
    · simpa [differsInt] using hids.1.1.1.2
    · simpa using (hcontent.2 hkey).1.1
    · simpa using (hcontent.2 hkey).1.2
    · simpa using (hcontent.2 hkey).2

theorem accepted_of_readbackArtifactValid {readback : PyDict (PyJson R)}
    (h : readbackArtifactValid L files (some 0) layout readback = .ok true)
    (hfile : (files layout.readback).isFile = true) : ReadbackArtifactAccepted L files layout := by
  rw [readbackArtifactValid, if_pos hfile] at h
  obtain ⟨artifact, hartifact, h⟩ := bind_ok h
  cases hparts : artifact.bind (validateReadbackArtifact L) with
  | none => simp [hparts, pure, Except.pure] at h
  | some parts =>
    obtain ⟨payload, rfl, hvalid⟩ := Option.bind_eq_some_iff.mp hparts
    rw [hparts] at h
    dsimp only at h
    rw [if_pos rfl] at h
    obtain ⟨snapshot, hsnapshot, h⟩ := bind_ok h
    cases snapshot with
    | none =>
      obtain ⟨mismatch, -, h⟩ := bind_ok h
      cases h
    | some snapshot =>
      obtain ⟨mismatch, hmismatch, h⟩ := bind_ok h
      have hfalse : mismatch = false := by simpa [pure, Except.pure] using h
      rw [hfalse] at hmismatch
      exact ⟨payload, parts, snapshot, catchRuntime_some hartifact, hvalid,
        catchRuntime_some hsnapshot, matches_of_artifactMismatch hmismatch⟩

/-! ## The inspection -/

theorem sortNames_eq_nil {names : List Bytes} : sortNames names = [] ↔ names = [] := by
  rw [sortNames, ← List.length_eq_zero_iff, List.length_insertionSort, List.length_eq_zero_iff]

/-- What the inspection relies on in the contract. -/
theorem artifactContract_ok {contract : ArtifactContract}
    (h : artifactContract L files layout = .ok contract) :
    (ascii "afl_stats", layout.fuzzerStats) ∈ contract.executionRequired ∧
    (ascii "mab_journal", layout.mabJournal) ∈ contract.executionRequired ∧
    (ascii "seed_selection_audit", layout.seedSelectionAudit) ∈ contract.executionRequired ∧
    (ascii "probe", layout.probe) ∈ contract.conditional ∧
    (ascii "state_db", layout.stateDb) ∈ contract.conditional := by
  obtain ⟨task, -, h⟩ := bind_ok h
  obtain ⟨marker, -, h⟩ := bind_ok h
  cases h
  simp

/-- A name that does not stand for a directory is present as a file. -/
theorem isFile_of_present {name path : Bytes} (h : artifactPresent files (name, path) = true)
    (hname : name ∉ ["seed_dir", "afl_output", "evidence", "err_dir"].map ascii) :
    (files path).isFile = true := by
  rwa [artifactPresent, if_neg hname] at h

/-- What an accepted run has shown; `readback` is the one of the report. -/
structure EvidenceAccepted [DecidableEq R] (L : PyLib R) (files : RunFiles) (layout : Layout)
    (readback : PyDict (PyJson R)) : Prop where
  artifacts : ∃ contract, artifactContract L files layout = .ok contract ∧
    ∀ artifact ∈ contract.setupRequired ++ contract.executionRequired,
      artifactPresent files artifact = true
  evidence : ∃ stats journal ledger audit,
    parseFuzzerStats L files layout.fuzzerStats = .ok stats ∧
    JournalAccepted L files layout stats journal ∧
    LedgerAccepted L files layout stats journal ledger ∧
    SeedAuditAccepted L files layout stats audit ∧
    (0 < ledger.targetInvocationCount →
      (files layout.probe).isFile = true ∧ (files layout.stateDb).isFile = true)
  artifact : (files layout.readback).isFile = true → ReadbackArtifactAccepted L files layout
  applicable : truthy L (getItem readback "applicable") = true →
    ReadbackPassed L files layout readback

theorem passed_of_readbackIncomplete {readback : PyDict (PyJson R)} {artifactValid : Bool}
    (h : readbackIncomplete L files layout readback artifactValid = false)
    (happlicable : truthy L (getItem readback "applicable") = true) :
    ReadbackPassed L files layout readback := by
  simp only [readbackIncomplete, happlicable, Bool.true_and, Bool.or_eq_false_iff] at h
  exact ⟨by simpa using h.1.1.1.1, by simpa using h.1.1.1.2, by simpa using h.1.1.2,
    by simpa using h.2⟩

/-- The journal and the ledger have the same counts. -/
theorem ledgerJournalDiagnostics_eq_nil {j : ParsedJournal R × Reconciliation}
    {ledger : ParsedLedger} (h : ledgerJournalDiagnostics (some j) ledger = []) :
    ledger.committedUpdateCount = j.1.updateCount ∧
    ledger.pendingCleanupCount = j.1.pendingClearedCount ∧
    ledger.mismatchCount = j.1.mismatchCount := by
  simp only [ledgerJournalDiagnostics, List.append_eq_nil_iff, flag_eq_nil] at h
  simpa [and_assoc] using h

/-- A run whose inspection found no fault has all its evidence. -/
theorem evidence_of_sound [DecidableEq R] {contract : ArtifactContract}
    {journal : Option (ParsedJournal R × Reconciliation)} {ledger : Option LedgerSummary}
    {seedAudit : Option SeedAuditSummary} {artifactValid : Bool} {readback : PyDict (PyJson R)}
    (hcontract : artifactContract L files layout = .ok contract)
    (hjournal : inspectJournal L files (some 0) layout = .ok journal)
    (hledger : inspectLedger L files (some 0) layout journal = .ok ledger)
    (hseedAudit : inspectSeedAudit L files (some 0) layout = .ok seedAudit)
    (hartifact : readbackArtifactValid L files (some 0) layout readback = .ok artifactValid)
    (h : Findings.Sound
      { missingSetup := missingOf files contract.setupRequired
        missingExecution := missingOf files contract.executionRequired
        missingTarget := (missingOf files contract.conditional).filter (· ∈ targetExecutionNames)
        journal := journal
        ledger := ledger
        seedAudit := seedAudit
        artifactValid := artifactValid
        incomplete := readbackIncomplete L files layout readback artifactValid }) :
    EvidenceAccepted L files layout readback := by
  obtain ⟨hstats, hmab, haudit, hprobe, hdb⟩ := artifactContract_ok hcontract
  have hexecution := present_of_missingOf h.execution
  have hstats := isFile_of_present (hexecution _ hstats) (by decide)
  have hmab := isFile_of_present (hexecution _ hmab) (by decide)
  have haudit := isFile_of_present (hexecution _ haudit) (by decide)
  obtain ⟨parsed, stats, hparsed, hread, rfl⟩ := inspectJournal_ok hjournal hmab hstats
  obtain ⟨l, rfl, hl⟩ := h.ledger
  obtain ⟨hfile, hlparsed, stats', r, hread', hr, hagree⟩ := inspectLedger_ok hledger hstats
  obtain ⟨audit, stats'', task, haparsed, hread'', htask, rfl⟩ :=
    inspectSeedAudit_ok hseedAudit haudit hstats
  obtain rfl : stats = stats' := Except.ok.inj (hread.symm.trans hread')
  obtain rfl : stats = stats'' := Except.ok.inj (hread.symm.trans hread'')
  have hjrec := h.journal _ rfl
  obtain ⟨hrrec, hcounts⟩ := hagree hl
  obtain ⟨hupdates, hcleanups, hmismatches⟩ := ledgerJournalDiagnostics_eq_nil hcounts
  obtain ⟨harec, hdistinct⟩ := h.seedAudit _ rfl
  refine ⟨⟨contract, hcontract, ?_⟩, ⟨stats, parsed, l.parsed, audit, hread, ?_, ?_, ?_, ?_⟩,
    ?_, passed_of_readbackIncomplete h.incomplete⟩
  · intro artifact hmem
    rcases List.mem_append.mp hmem with hmem | hmem
    · exact present_of_missingOf h.setup artifact hmem
    · exact hexecution artifact hmem
  · exact ⟨hparsed, valid_of_reconcileMabJournal hjrec, hjrec⟩
  · exact ⟨hfile, hlparsed, valid_of_reconcileExecutionLedger hr hrrec, ⟨r, hr, hrrec⟩, hupdates,
      hcleanups, hmismatches⟩
  · refine ⟨haparsed, valid_of_reconcileSeedSelectionAudit harec, harec, ?_⟩
    intro task' htask' hmanifest
    obtain rfl : task = task' := Except.ok.inj (htask.symm.trans htask')
    exact hdistinct hmanifest
  · intro hpos
    have htarget := h.target hpos
    exact ⟨isFile_of_present (present_of_missingTarget htarget hprobe (by decide))
        (by decide),
      isFile_of_present (present_of_missingTarget htarget hdb (by decide))
        (by decide)⟩
  · intro hfile
    have hvalid : artifactValid = true := h.artifactValid
    rw [hvalid] at hartifact
    exact accepted_of_readbackArtifactValid hartifact hfile

/-- After a launch that succeeded, the report accepts the run exactly when nothing is
missing; an accepted run has all its evidence, and only an accepted run proves a
reproduction on the real service. -/
theorem inspectArtifacts_accepts [DecidableEq R] {readback : Option (PyDict (PyJson R))}
    {report : Report R} (h : inspectArtifacts L files layout (some 0) readback = .ok report) :
    (report.ok = true ↔ report.missingRequired = []) ∧
    (report.ok = true → EvidenceAccepted L files layout (readback.getD readbackBase)) ∧
    (report.realServiceReproductionProved = true →
      report.ok = true ∧ report.targetExecutionProved = true) := by
  rw [inspectArtifacts] at h
  obtain ⟨contract, hcontract, h⟩ := bind_ok h
  obtain ⟨journal, hjournal, h⟩ := bind_ok h
  obtain ⟨ledger, hledger, h⟩ := bind_ok h
  obtain ⟨seedAudit, hseedAudit, h⟩ := bind_ok h
  obtain ⟨artifactValid, hartifact, h⟩ := bind_ok h
  cases h
  dsimp only
  obtain ⟨hagrees, hsound⟩ := Findings.verdict_spec
    { missingSetup := missingOf files contract.setupRequired
      missingExecution := missingOf files contract.executionRequired
      missingTarget := (missingOf files contract.conditional).filter (· ∈ targetExecutionNames)
      journal := journal
      ledger := ledger
      seedAudit := seedAudit
      artifactValid := artifactValid
      incomplete := readbackIncomplete L files layout (readback.getD readbackBase) artifactValid }
  rw [decide_eq_true_eq, sortNames_eq_nil]
  refine ⟨hagrees, fun hok => ?_, fun hproved => ?_⟩
  · exact evidence_of_sound hcontract hjournal hledger hseedAudit hartifact
      (hsound.mp (hagrees.mp hok))
  · rw [Bool.and_eq_true, decide_eq_true_eq] at hproved
    refine ⟨hproved.2, ?_⟩
    simp only [Bool.and_eq_true] at hproved ⊢
    exact hproved.1.1.1.1.1.1

/-! ## A small run -/

/-- `natLib` with `json.loads` of a text and `float`. -/
def textLib : PyLib ℕ :=
  let reader := PyLib.withReader
    { natLib with floatOfText := fun text => some (.finite (readInt text).toNat) }
  { reader with jsonLoadsStr := reader.jsonLoads }

/-- The text of an object. -/
def objectOf (members : List (String × Bytes)) : Bytes :=
  Json.objectText (members.map fun member => (ascii member.1, member.2))

/-- The text of a string. -/
def quoted (s : String) : Bytes := ascii "\"" ++ ascii s ++ ascii "\""

/-- One execution that reached the target and was observed. -/
def runLedger : Bytes :=
  lineFile [objectOf [("schema_version", ascii "1"), ("event", quoted "execution"),
    ("iteration_id", ascii "1"), ("selected_arm", ascii "0"), ("actual_used_arm", ascii "0"),
    ("arm_match", ascii "true"), ("counted_execution", ascii "true"),
    ("harness_invoked", ascii "true"), ("target_invoked", ascii "true"),
    ("body_validated", ascii "true"), ("status_observed", ascii "true"), ("exec_seq", ascii "1"),
    ("mab_outcome", quoted "target_execution_no_mab")]]

def runStats : Bytes :=
  lineFile <| (["nv_mab_total_pulls", "security_state_reward_src_seq", "nv_mab_arm0_pulls",
    "nv_mab_arm0_sum", "nv_mab_arm0_pos", "nv_mab_arm1_pulls", "nv_mab_arm1_sum",
    "nv_mab_arm1_pos", "nv_mab_arm2_pulls", "nv_mab_arm2_sum", "nv_mab_arm2_pos",
    "ss_selected_sum", "seed_audit_expected_selection_count", "seed_audit_record_count",
    "seed_audit_error_count", "seed_audit_invalid"].map fun key => ascii key ++ ascii " : 0") ++
    [ascii "seed_audit_enabled : 1", ascii "nv_total_valid_exec : 1"]

def runReadback : Bytes :=
  objectOf [("schema_version", ascii "1"), ("event", quoted "post_execution_readback"),
    ("correlation", objectOf [("mode", quoted "final_run_state"), ("last_exec_seq", ascii "1"),
      ("valid_execution_count", ascii "1")]),
    ("target", objectOf [("node_identity", quoted "sha256:node:a"),
      ("parent_identity", quoted "sha256:parent:b"), ("name", quoted "c")]),
    ("request", objectOf [("method", quoted "GET"), ("status", ascii "200")]),
    ("result", objectOf [("metadata_hash", ascii "null"), ("field_presence", ascii "[]"),
      ("version_label", ascii "null")]),
    ("ordering", objectOf [("run_completed", ascii "true"), ("timestamp_ms", ascii "1")]),
    ("privacy", objectOf [("credentials_included", ascii "false"),
      ("authorization_included", ascii "false"), ("raw_body_included", ascii "false")])]

def runLayout : Layout where
  targetConfig := ascii "target"
  task := ascii "task"
  seedDir := ascii "seeds"
  aflOutput := ascii "out"
  evidence := ascii "evidence"
  errDir := ascii "err"
  seed := ascii "seed"
  status := ascii "status"
  statusSeq := ascii "seq"
  stateTrace := ascii "trace"
  mabJournal := ascii "journal"
  seedSelectionAudit := ascii "audit"
  multipartUploads := ascii "uploads"
  bodyValidStats := ascii "bodies"
  probe := ascii "probe"
  stateDb := ascii "db"
  ctx := ascii "ctx"
  readback := ascii "readback"

/-- A run that reached the target once and left a read-back. -/
def runFiles : RunFiles := fun path =>
  if path ∈ [runLayout.seedDir, runLayout.aflOutput, runLayout.evidence, runLayout.errDir] then .dir
  else if path = runLayout.task then .file (.ok (objectOf []))
  else if path = runLayout.fuzzerStats then .file (.ok runStats)
  else if path = executionLedgerPath runLayout then .file (.ok runLedger)
  else if path = runLayout.readback then .file (.ok runReadback)
  else if path ∈ [runLayout.status, runLayout.stateTrace] then
    .file (.ok (objectOf [("exec_seq", ascii "1")]))
  else .file (.ok [])

/-- The result of a read-back that passed. -/
def runResult : PyDict (PyJson ℕ) :=
  [(ascii "applicable", .bool true), (ascii "present", .bool true),
    (ascii "verdict", .str (ascii "pass")), (ascii "reconciled", .bool true)]

/-- The two reports, with and without a read-back from the caller; they read the same
files. -/
theorem inspectArtifacts_evaluated :
    (inspectArtifacts textLib runFiles runLayout (some 0) (some runResult)).map
        Report.realServiceReproductionProved = .ok true ∧
      (inspectArtifacts textLib runFiles runLayout (some 0) none).map
          (fun report => (report.ok, eqStr (getItem report.readback "verdict") (ascii "pass"))) =
        .ok (true, false) := by
  decide +kernel

/-- The run is accepted, and proves a reproduction. -/
theorem inspectArtifacts_run :
    ∃ report, inspectArtifacts textLib runFiles runLayout (some 0) (some runResult) = .ok report ∧
      report.missingRequired = [] ∧ report.targetExecutionProved = true ∧
      EvidenceAccepted textLib runFiles runLayout runResult := by
  obtain ⟨report, hreport, hproved⟩ := exists_of_map_eq_ok inspectArtifacts_evaluated.1
  obtain ⟨hmissing, hevidence, hreproduction⟩ := inspectArtifacts_accepts hreport
  obtain ⟨hok, htarget⟩ := hreproduction hproved
  exact ⟨report, hreport, hmissing.mp hok, htarget, hevidence hok⟩

/-- Without a read-back from the caller the run is accepted too: its artifact is
checked, and the verdict stays at "not_applicable". -/
theorem inspectArtifacts_without_readback :
    ∃ report, inspectArtifacts textLib runFiles runLayout (some 0) none = .ok report ∧
      report.ok = true ∧ (runFiles runLayout.readback).isFile = true ∧
      eqStr (getItem report.readback "verdict") (ascii "pass") = false := by
  obtain ⟨report, hreport, hvalues⟩ := exists_of_map_eq_ok inspectArtifacts_evaluated.2
  obtain ⟨hok, hverdict⟩ := Prod.mk.inj hvalues
  exact ⟨report, hreport, hok, by decide, hverdict⟩

end AflNv
