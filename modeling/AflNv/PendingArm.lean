import AflNv.CommonFuzz
import AflNv.LedgerProgress

/-!
# The pending slot over one iteration

A decision of the bandit waits in its pending slot until `common_fuzz_stuff`
disposes of it.  `Disposed` says what that means: the slot is empty, and either
the pending arm was updated once or one pending-cleared event was attempted.

The parts of the function are followed from the inside out; each lemma says when
the part it is about disposes of a slot that still waits.  Two things go wrong.
A terminal record that comes before the disposal and cannot be written returns at
once (`EarlyRecordFails`), and a commit for an arm that is not one of the bandit's
changes nothing.
-/

namespace AflNv

section

variable {R : Type} [Field R] [LinearOrder R]

/-! ## What disposing of the slot means -/

/-- The pending arm was updated once, with the reward of the observation. -/
structure UpdatedOnce (mab : NvMab R) (r : FuzzResult R) : Prop where
  update : ∃ obs a, r.obs = some obs ∧ NvArmId.idx mab.pendingArm = some a ∧
    r.afl.nvMab.arms = Function.update mab.arms a ((mab.arms a).pull (nvRewardFromObs obs)) ∧
    r.afl.nvMab.totalPulls = mab.totalPulls + 1
  not_cleared : r.cleared = none

/-- One pending-cleared event was attempted, and no statistic changed. -/
structure ClearedOnce (mab : NvMab R) (r : FuzzResult R) : Prop where
  cleared : r.cleared.isSome = true
  arms : r.afl.nvMab.arms = mab.arms
  totalPulls : r.afl.nvMab.totalPulls = mab.totalPulls

/-- The slot is empty, and exactly one of the two happened. -/
structure Disposed (mab : NvMab R) (r : FuzzResult R) : Prop where
  empty : r.afl.nvMab.pendingUpdate = false
  once : Xor (UpdatedOnce mab r) (ClearedOnce mab r)

theorem ClearedOnce.disposed {mab : NvMab R} {r : FuzzResult R}
    (h : ClearedOnce mab r) (hempty : r.afl.nvMab.pendingUpdate = false) : Disposed mab r where
  empty := hempty
  once := .inr ⟨h, fun hup => by
    have hcleared := h.cleared
    rw [hup.not_cleared] at hcleared
    exact absurd hcleared (by decide)⟩

theorem UpdatedOnce.disposed {mab : NvMab R} {r : FuzzResult R} (h : UpdatedOnce mab r)
    (hempty : r.afl.nvMab.pendingUpdate = false) : Disposed mab r where
  empty := hempty
  once := .inl ⟨h, fun hcl => by
    have hcleared := hcl.cleared
    rw [h.not_cleared] at hcleared
    exact absurd hcleared (by decide)⟩

/-- The slot still waits: it is the one the call was entered with, up to the
mark that a terminal record was written. -/
structure Waiting (mab m : NvMab R) : Prop where
  pending : mab.pendingUpdate = true
  same : ∃ recorded, m = { mab with pendingLedgerTerminalRecorded := recorded }

omit [Field R] [LinearOrder R] in
theorem Waiting.start {mab : NvMab R} (h : mab.pendingUpdate = true) : Waiting mab mab :=
  ⟨h, _, rfl⟩

/-! ## The parts, from the inside out -/

variable (cfg : AflCfg R) (env : FuzzEnv) {mab : NvMab R} {s : Afl R} {obs : NvStateObs}

/-- Every return through `nv_mab_journal_clear_pending` disposes of the slot. -/
theorem fuzzCleared_disposed (h : Waiting mab s.nvMab) (reason : String) (bail : Bool)
    (obs : Option NvStateObs) : Disposed mab (fuzzCleared cfg env reason bail obs s) := by
  obtain ⟨hpending, recorded, hmab⟩ := h
  have hp : s.nvMab.pendingUpdate = true := by rw [hmab]; exact hpending
  have hafter : (fuzzCleared cfg env reason bail obs s).afl.nvMab = s.nvMab.clearPending :=
    nvMabJournalClearPending_nvMab cfg.audit env.clear (ascii reason) hp
  have honce : ClearedOnce mab (fuzzCleared cfg env reason bail obs s) := by
    refine ⟨?_, ?_, ?_⟩
    · show (if s.nvMab.pendingUpdate then some (ascii reason) else none).isSome = true
      rw [if_pos hp]
      rfl
    · rw [hafter, hmab]
      rfl
    · rw [hafter, hmab]
      rfl
  refine honce.disposed ?_
  rw [hafter]
  rfl

/-- A commit updates the bandit, unless the arm is not one of its arms. -/
theorem commit_nvMab (hseq : obs.execSeq ≠ 0) (arm : NvArmId) (a : AuditState R) :
    (nvMabJournalCommitUpdate cfg.fmt cfg.audit env.journal (journalUpdate obs arm) a).2.nvMab =
      nvMabUpdate a.nvMab arm (nvRewardFromObs obs) := by
  rw [nvMabJournalCommitUpdate_nvMab]
  cases hidx : arm.idx with
  | none => simp [journalUpdate, nvMabUpdate, hidx]
  | some _ => simp [journalUpdate, hidx, hseq]

omit [Field R] [LinearOrder R] in
/-- The record behind a commit leaves the bandit alone. -/
theorem fuzzCommitted_spec (record : ExecutionRecord)
    (obs : NvStateObs) (committed : Bool) (s : Afl R) :
    let r := fuzzCommitted cfg env record obs committed s
    r.cleared = none ∧ r.obs = some obs ∧ ∃ recorded,
      r.afl.nvMab = { s.nvMab with pendingLedgerTerminalRecorded := recorded } := by
  have hledger := nvExecutionLedgerAppend_nvMab cfg.audit env.commitLedger record s.audit
  simp only [fuzzCommitted]
  split_ifs
  · refine ⟨rfl, rfl, true, ?_⟩
    show { (nvExecutionLedgerAppend cfg.audit env.commitLedger record s.audit).2.nvMab with
      pendingLedgerTerminalRecorded := true } = _
    rw [hledger]
    rfl
  · exact ⟨rfl, rfl, s.nvMab.pendingLedgerTerminalRecorded, hledger⟩

/-- The bandit after the reward was handed over. -/
theorem fuzzReward_spec (hseq : obs.execSeq ≠ 0) (selectedArm : NvArmId) :
    let r := fuzzReward cfg env selectedArm obs s
    r.cleared = none ∧ r.obs = some obs ∧ ∃ recorded,
      r.afl.nvMab =
        { nvMabUpdate (s.takePending obs.execSeq).nvMab s.nvMab.pendingArm
            (nvRewardFromObs obs) with
          pendingLedgerTerminalRecorded := recorded } := by
  refine (fuzzCommitted_spec cfg env _ obs _ _).imp id
    (And.imp id (Exists.imp fun recorded h => h.trans ?_))
  show { (nvMabJournalCommitUpdate cfg.fmt cfg.audit env.journal
    (journalUpdate obs s.nvMab.pendingArm) (s.takePending obs.execSeq).audit).2.nvMab with
    pendingLedgerTerminalRecorded := recorded } = _
  rw [commit_nvMab cfg env hseq]
  rfl

/-- A commit disposes of the slot exactly when the pending arm is one of the
bandit's. -/
theorem fuzzReward_disposed_iff (h : Waiting mab s.nvMab) (hseq : obs.execSeq ≠ 0)
    (selectedArm : NvArmId) :
    Disposed mab (fuzzReward cfg env selectedArm obs s) ↔
      (NvArmId.idx mab.pendingArm).isSome = true := by
  obtain ⟨hpending, recorded, hmab⟩ := h
  obtain ⟨hcleared, hobs, recorded', hafter⟩ :=
    fuzzReward_spec cfg env (s := s) hseq selectedArm
  have harm : s.nvMab.pendingArm = mab.pendingArm := by rw [hmab]
  have htake : (s.takePending obs.execSeq).nvMab =
      { mab with
        pendingLedgerTerminalRecorded := recorded, pendingUpdate := false, updateSource := 0 } := by
    show { s.nvMab with pendingUpdate := false, updateSource := 0 } = _
    rw [hmab]
  rw [harm, htake, nvMabUpdate] at hafter
  constructor
  · rintro ⟨-, ⟨hup, -⟩ | ⟨hcl, -⟩⟩
    · obtain ⟨-, a, -, hidx, -⟩ := hup.update
      rw [hidx]
      rfl
    · have hsome := hcl.cleared
      rw [hcleared] at hsome
      exact absurd hsome (by decide)
  · intro hidx
    obtain ⟨a, ha⟩ := Option.isSome_iff_exists.mp hidx
    rw [ha] at hafter
    have hup : UpdatedOnce mab (fuzzReward cfg env selectedArm obs s) :=
      ⟨⟨obs, a, hobs, ha, by rw [hafter], by rw [hafter]⟩, hcleared⟩
    exact hup.disposed (by rw [hafter])

/-! ## What goes wrong -/

/-- At `fuzzKept` the reward goes to the bandit: the arms match, the harness did
not reject the input, and the execution has an identity. -/
structure KeptCommits (mab : NvMab R) (obs : NvStateObs) : Prop where
  arms_match : ¬ (mab.pendingSelectedValid = true ∧ mab.pendingArm ≠ mab.pendingSelectedArm)
  accepted : obs.validationReject = false
  identity : obs.execSeq ≠ 0

/-- After the observation nothing stops the call before it commits. -/
structure ReachesCommit (env : FuzzEnv) (obs : NvStateObs) (s : Afl R) : Prop where
  running : (s.receive env.lateSignals).stopSoon = 0
  in_time : ¬ (env.run.res = .tmout ∧ (s.receive env.lateSignals).subseqTmouts > 250)
  not_skipped : (s.receive env.lateSignals).skipRequested = false
  kept : KeptCommits s.nvMab obs

/-- The terminal record is written before the slot is disposed of, and its append
fails. -/
structure EarlyRecordFails (cfg : AflCfg R) (env : FuzzEnv) (selectedArm : NvArmId)
    (obs : NvStateObs) (s : Afl R) : Prop where
  early : terminalOutcome obs s selectedArm ≠ .committedUpdate ∧
    terminalOutcome obs s selectedArm ≠ .pendingCleanup
  fails : (nvExecutionLedgerAppend cfg.audit env.ledger
    (terminalRecord s obs selectedArm (terminalOutcome obs s selectedArm)) s.audit).1 = false

omit [Field R] [LinearOrder R] in
/-- A record that comes early belongs to an iteration that does not commit. -/
theorem not_keptCommits_of_early (h : Waiting mab s.nvMab)
    (hearly : terminalOutcome obs s mab.selectedArm ≠ .committedUpdate ∧
      terminalOutcome obs s mab.selectedArm ≠ .pendingCleanup) : ¬ KeptCommits s.nvMab obs := by
  obtain ⟨hpending, recorded, hmab⟩ := h
  rintro ⟨hmatch, haccepted, hidentity⟩
  have harm : mab.pendingArm = mab.selectedArm := by
    rw [hmab] at hmatch
    simp only [NvMab.selectedArm, hpending, if_true]
    split_ifs with hvalid
    · exact not_not.mp fun hne => hmatch ⟨hvalid, hne⟩
    · rfl
  simp only [terminalOutcome, NvMab.actualArm, haccepted, hmab, hpending, hidentity, ← harm] at hearly
  split_ifs at hearly <;> simp_all

theorem fuzzKept_disposed_iff (h : Waiting mab s.nvMab) (selectedArm : NvArmId) :
    Disposed mab (fuzzKept cfg env selectedArm obs s) ↔
      (KeptCommits s.nvMab obs → (NvArmId.idx mab.pendingArm).isSome = true) := by
  have hp : s.nvMab.pendingUpdate = true := by
    obtain ⟨hpending, _, hmab⟩ := h
    rw [hmab]
    exact hpending
  rw [fuzzKept, if_pos hp]
  split_ifs with hmatch hreject hseq
  · exact iff_of_true (fuzzCleared_disposed cfg env h _ _ _) fun hk => absurd hmatch hk.arms_match
  · refine iff_of_true (fuzzCleared_disposed cfg env h _ _ _) fun hk => ?_
    exact absurd (hreject.symm.trans hk.accepted) (by decide)
  · exact iff_of_true (fuzzCleared_disposed cfg env h _ _ _) fun hk => absurd hseq hk.identity
  · rw [fuzzReward_disposed_iff cfg env h hseq]
    exact ⟨fun hidx _ => hidx, fun hidx => hidx ⟨hmatch, by simpa using hreject, hseq⟩⟩

omit [Field R] [LinearOrder R] in
theorem saveIfInteresting_nvMab (s : Afl R) : (saveIfInteresting cfg env s).nvMab = s.nvMab := by
  have hstep : ∀ (s : Afl R) (step : SaveStep), (saveStep cfg s step).nvMab = s.nvMab := by
    intro s step
    cases step with
    | rerun run => exact fuzzRunTarget_nvMab cfg run s
    | calibration run => exact fuzzRunTarget_nvMab cfg run _
    | addToQueue => rfl
  have hfold : ∀ (steps : List SaveStep) (s : Afl R),
      (steps.foldl (saveStep cfg) s).nvMab = s.nvMab := by
    intro steps
    induction steps with
    | nil => exact fun _ => rfl
    | cons step steps ih => exact fun s => (ih _).trans (hstep s step)
  simp only [saveIfInteresting]
  split_ifs
  · exact hfold env.save s
  · exact hfold env.save s

theorem fuzzAlive_disposed_iff (h : Waiting mab s.nvMab) (selectedArm : NvArmId) :
    Disposed mab (fuzzAlive cfg env selectedArm env.run.res obs s) ↔
      (ReachesCommit env obs s → (NvArmId.idx mab.pendingArm).isSome = true) := by
  have hreceive : Waiting mab (s.receive env.lateSignals).nvMab := by
    rw [Afl.receive_nvMab]
    exact h
  simp only [fuzzAlive]
  split_ifs with hstop hbudget htmout hskip
  · exact iff_of_true (fuzzCleared_disposed cfg env hreceive _ _ _)
      fun hr => absurd hr.running hstop
  · exact iff_of_true (fuzzCleared_disposed cfg env hreceive _ _ _)
      fun hr => absurd hr.running hstop
  · exact iff_of_true (fuzzCleared_disposed cfg env (by exact hreceive) _ _ _)
      fun hr => absurd htmout hr.in_time
  · refine iff_of_true (fuzzCleared_disposed cfg env (by exact hreceive) _ _ _) fun hr => ?_
    exact absurd (hskip.symm.trans hr.not_skipped) (by decide)
  · have hkept : (saveIfInteresting cfg env
        ((s.receive env.lateSignals).countTmout env.run.res)).nvMab = s.nvMab := by
      rw [saveIfInteresting_nvMab]
      exact Afl.receive_nvMab s env.lateSignals
    rw [fuzzKept_disposed_iff cfg env (by rw [hkept]; exact h), hkept]
    constructor
    · exact fun hk hr => hk hr.kept
    · exact fun hr hk => hr ⟨not_not.mp hstop, htmout, by simpa [Afl.countTmout] using hskip, hk⟩

theorem fuzzTerminal_disposed_iff (h : Waiting mab s.nvMab) :
    Disposed mab (fuzzTerminal cfg env mab.selectedArm env.run.res obs s) ↔
      ¬ EarlyRecordFails cfg env mab.selectedArm obs s ∧
        (ReachesCommit env obs s → (NvArmId.idx mab.pendingArm).isSome = true) := by
  let t : Afl R := { s with
    audit := (nvExecutionLedgerAppend cfg.audit env.ledger
      (terminalRecord s obs mab.selectedArm (terminalOutcome obs s mab.selectedArm)) s.audit).2 }
  have ht : t.nvMab = s.nvMab := nvExecutionLedgerAppend_nvMab cfg.audit env.ledger _ s.audit
  -- An early record that was written leaves an iteration that cannot commit.
  have hwritten : ∀ u : Afl R, Waiting mab u.nvMab → ¬ KeptCommits u.nvMab obs →
      Disposed mab (fuzzAlive cfg env mab.selectedArm env.run.res obs u) := fun u hu hk =>
    (fuzzAlive_disposed_iff cfg env hu _).mpr fun hr => absurd hr.kept hk
  simp only [fuzzTerminal]
  split_ifs with hearly hfails hrecorded
  · refine iff_of_false (fun hd => ?_) fun hr => hr.1 ⟨hearly, by simpa using hfails⟩
    have hempty : t.nvMab.pendingUpdate = false := hd.empty
    obtain ⟨hpending, _, hmab⟩ := h
    rw [ht, hmab] at hempty
    exact absurd (hpending.symm.trans hempty) (by decide)
  · have hk := not_keptCommits_of_early h hearly
    have hmark : t.recordTerminal.nvMab =
        { s.nvMab with pendingLedgerTerminalRecorded := true } := by rw [← ht]; rfl
    refine iff_of_true (hwritten t.recordTerminal ?_ ?_)
      ⟨fun hf => hfails (by simpa using hf.fails), fun hr => absurd hr.kept hk⟩
    · obtain ⟨hpending, _, hmab⟩ := h
      exact ⟨hpending, true, by rw [hmark, hmab]⟩
    · rw [hmark]
      exact fun hk' => hk ⟨hk'.arms_match, hk'.accepted, hk'.identity⟩
  · have hk := not_keptCommits_of_early h hearly
    refine iff_of_true (hwritten t ?_ ?_)
      ⟨fun hf => hfails (by simpa using hf.fails), fun hr => absurd hr.kept hk⟩
    · rw [ht]
      exact h
    · rw [ht]
      exact hk
  · rw [fuzzAlive_disposed_iff cfg env h]
    exact ⟨fun hr => ⟨fun hf => hearly hf.early, hr⟩, fun hr => hr.2⟩

/-! ## The whole call -/

omit [Field R] [LinearOrder R] in
theorem runAndObserve_nvMab (s : Afl R) : (runAndObserve cfg env s).2.nvMab = s.nvMab := by
  rw [← fuzzRunTarget_nvMab cfg env.run s]
  exact Afl.receive_nvMab _ env.signals

/-- A call entered with a pending decision disposes of it, unless its terminal
record comes early and cannot be written, or it commits for an arm that does not
exist. -/
theorem pending_disposed_iff (outBuf : Bytes) (h : s.nvMab.pendingUpdate = true) :
    Disposed s.nvMab (commonFuzzStuff cfg env outBuf s) ↔
      ∀ t, passesFilters cfg env outBuf s = some t →
        let o := runAndObserve cfg env t
        ¬ EarlyRecordFails cfg env s.nvMab.selectedArm o.1 o.2 ∧
          (ReachesCommit env o.1 o.2 → (NvArmId.idx s.nvMab.pendingArm).isSome = true) := by
  have hstart := Waiting.start h
  cases hpass : passesFilters cfg env outBuf s with
  | none =>
    obtain ⟨t, hcall, hmab, -⟩ := commonFuzzStuff_of_rejected hpass
    rw [hcall]
    refine iff_of_true (fuzzCleared_disposed cfg env ?_ _ _ _) (by simp)
    rw [hmab]
    exact hstart
  | some t =>
    obtain ⟨hcall, hmab, -⟩ := commonFuzzStuff_of_passes hpass
    rw [hcall]
    simp only [Option.some.injEq, forall_eq']
    refine fuzzTerminal_disposed_iff cfg env ?_
    rw [runAndObserve_nvMab, hmab]
    exact hstart

end

/-! ## Two calls -/

/-- A fuzzer that writes an execution ledger. -/
def executionLedgerCfg (lib : CLib) : AflCfg ℚ where
  lib := lib
  fmt := ratFmt
  target := ⟨false, []⟩
  nvTask := ⟨false, .finite 0, none, 0⟩
  testcase := .plain
  audit := ⟨none, some (ascii "executions")⟩
  nvStatusPath := none
  outDir := ascii "out"

/-- An execution that ends well while the status ledger holds `line`, with the
answers of the appends to the execution ledger. -/
def oneLineEnv (line : Bytes) (ledger : AppendIo) : FuzzEnv where
  reply := .fail
  run := ⟨.ok, .none, ⟨none, fun _ => none⟩⟩
  worlds := fun _ => ⟨some (ascii "status"), fun _ => some ⟨line.length, line⟩⟩
  signals := .none
  ledger := ledger
  lateSignals := .none
  clear := ⟨.ok, .ok⟩
  save := []
  saved := false
  journal := .ok
  commitLedger := ledger

/-- The first arm waits for its reward. -/
def firstArmPending : Afl ℚ :=
  let s : Afl ℚ := .init (.init (some ⟨2, isPow2_two⟩))
  { s with audit := { s.audit with nvMab := nvMabBeginPending s.nvMab 0 0 1 0 } }

/-- A status document without an identity. -/
def noSeqLine : Bytes := ascii "\x7b\x7d\n"

/-- With an identity the first arm is updated. -/
theorem pending_disposed_commit :
    Disposed firstArmPending.nvMab
      (commonFuzzStuff (executionLedgerCfg firstDocLib) (oneLineEnv firstDocLine .ok) (ascii "x")
        firstArmPending) := by
  refine (pending_disposed_iff _ _ _ rfl).mpr fun t ht => ?_
  obtain rfl := Option.some.inj ht
  exact ⟨fun hf => hf.early.1 (by decide), fun _ => by decide⟩

/-- Without an identity, and with an execution ledger that cannot be opened, the
call returns with the slot still pending. -/
theorem pending_survives :
    firstArmPending.nvMab.pendingUpdate = true ∧
      ¬ Disposed firstArmPending.nvMab
        (commonFuzzStuff (executionLedgerCfg (.ofDocs [(noSeqLine, .object [])]))
          (oneLineEnv noSeqLine { AppendIo.ok with opens := false }) (ascii "x")
          firstArmPending) := by
  refine ⟨rfl, fun hd => ?_⟩
  have hempty := hd.empty
  exact absurd hempty (by decide +kernel)

end AflNv
