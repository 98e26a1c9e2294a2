import AflNv.Observe

/-!
# The accounting of security states over whole runs

A run of the observer: calls of `nv_observe_security_state_once` over arbitrary
files, queue entries that are added between calls, and a current entry that
changes at any time.  `AccountingInv` is the system of counters that every exit
of the observer keeps.  Each exit is one case of `nvObserve_exit`.
-/

namespace AflNv

open AflNv.Lib

/-! ## Runs of the observer -/

/-- One step of a run. -/
inductive ObserverEvent where
  /-- A call of `nv_observe_security_state_once`. -/
  | observe (w : World) (path : Bytes) (minimumExecSeq : ℕ)
  /-- `queue_cur` is set to an entry of the queue, or to NULL. -/
  | setQueueCur (q : Option ℕ)
  /-- `add_to_queue`: a new entry has no credit. -/
  | addToQueue

/-- The step function of a run. -/
def observerStep (lib : CLib) (cfg : NvTargetCfg) (s : SecState) :
    ObserverEvent → NvStateObs × SecState
  | .observe w path minimumExecSeq => nvObserveSecurityStateOnce lib cfg w path minimumExecSeq s
  | .setQueueCur q =>
    (.zero, { s with queueCur := q.filter fun i => i < s.ssCovCnt.length })
  | .addToQueue => (.zero, { s with ssCovCnt := s.ssCovCnt ++ [0] })

/-! ## The invariant -/

/-- The counters of a reachable state. -/
structure AccountingInv (s : SecState) : Prop where
  table : TableInv s
  queueCur_lt : ∀ q ∈ s.queueCur, q < s.ssCovCnt.length
  newTotal_eq : s.nvSecStateNewTotal = s.nvCovUsed.toNat
  seedCredit_eq : s.nvSecStateSeedCredit = s.ssCovCnt.sum
  seedCredit_le : s.nvSecStateSeedCredit ≤ s.nvSecStateNewTotal
  obs_eq : s.nvSecStateObs = s.nvStatusCnt
  obs_replays_le : s.nvSecStateObs + s.nvSecStateReplays ≤ s.nvHttpStatusOk
  new_dropped_le : s.nvSecStateNewTotal + s.nvSecStateDropped ≤ s.nvSecStateObs

theorem AccountingInv.init (table : Option { cap : UInt32 // IsPow2 cap }) :
    AccountingInv (SecState.init table) where
  table := by
    cases table with
    | none => rfl
    | some cap => exact CovsetInv.zero cap.2
  queueCur_lt := by intro q hq; simp [SecState.init] at hq
  newTotal_eq := rfl
  seedCredit_eq := rfl
  seedCredit_le := Nat.le_refl 0
  obs_eq := rfl
  obs_replays_le := Nat.le_refl 0
  new_dropped_le := Nat.le_refl 0

theorem sum_modify_succ {l : List ℕ} {q : ℕ} (hq : q < l.length) :
    (l.modify q (· + 1)).sum = l.sum + 1 := by
  induction l generalizing q with
  | nil => simp at hq
  | cons a l ih =>
    cases q with
    | zero => simp [List.modify_cons]; omega
    | succ q =>
      rw [List.length_cons] at hq
      rw [List.modify_succ_cons, List.sum_cons, List.sum_cons, ih (by omega)]
      omega

/-- The credit for a new state goes to an entry of the queue, and is counted
once. -/
theorem RecordEffect.credit_sum {cfg : NvTargetCfg} {d : NvStatusDoc} {s : SecState}
    {r : NvCovsetResult} {o : NvStateObs × SecState} (e : RecordEffect cfg d s r o)
    (hlt : ∀ q ∈ s.queueCur, q < s.ssCovCnt.length)
    (hsum : s.nvSecStateSeedCredit = s.ssCovCnt.sum) :
    o.2.nvSecStateSeedCredit = o.2.ssCovCnt.sum ∧
      o.2.nvSecStateSeedCredit ≤ s.nvSecStateSeedCredit + (if r = .inserted then 1 else 0) ∧
      o.2.ssCovCnt.length = s.ssCovCnt.length := by
  have hcredit := e.credit
  cases hq : s.queueCur with
  | none =>
    simp only [hq, Prod.mk.injEq] at hcredit
    rw [hcredit.1, hcredit.2]
    exact ⟨hsum, Nat.le_add_right _ _, rfl⟩
  | some q =>
    simp only [hq] at hcredit
    by_cases hr : r = .inserted
    · rw [if_pos hr, Prod.mk.injEq] at hcredit
      rw [hcredit.1, hcredit.2, if_pos hr, sum_modify_succ (hlt q hq), hsum,
        List.length_modify]
      exact ⟨rfl, Nat.le_refl _, rfl⟩
    · rw [if_neg hr, Prod.mk.injEq] at hcredit
      rw [hcredit.1, hcredit.2]
      exact ⟨hsum, Nat.le_add_right _ _, rfl⟩

/-- Recording a fresh document keeps the counters.  The state here is the one
`SecState.accept` left, whose `nv_status_cnt` is already one ahead. -/
theorem AccountingInv.record {cfg : NvTargetCfg} {d : NvStatusDoc} {s : SecState}
    (h : AccountingInv s) (marks : ℕ × UInt64) (ledgerEnd : Option ℕ) :
    AccountingInv (nvRecordObservation cfg d (s.accept marks ledgerEnd)).2 := by
  have htable : TableInv (s.accept marks ledgerEnd) := h.table
  obtain ⟨r, e⟩ := nvRecordObservation_effect cfg d htable
  obtain ⟨hcreditSum, hcreditLe, hlen⟩ := e.credit_sum h.queueCur_lt h.seedCredit_eq
  have hnew := e.newTotal
  have hle := h.new_dropped_le
  refine ⟨e.table, ?_, ?_, hcreditSum, ?_, ?_, ?_, ?_⟩
  · rw [e.queueCur, hlen]
    exact h.queueCur_lt
  · rw [hnew, e.table.used_eq, e.stored, boundedInsert_card, ← e.answer,
      ← htable.used_eq]
    exact congrArg (· + _) h.newTotal_eq
  · rw [hnew]
    exact hcreditLe.trans (Nat.add_le_add_right h.seedCredit_le _)
  · rw [e.secStateObs, e.statusCnt]
    exact congrArg (· + 1) h.obs_eq
  · rw [e.secStateObs, e.replays, e.httpStatusOk]
    change s.nvSecStateObs + 1 + s.nvSecStateReplays ≤ s.nvHttpStatusOk + 1
    have hok := h.obs_replays_le
    omega
  · rw [hnew, e.dropped, e.secStateObs]
    change s.nvSecStateNewTotal + _ + (s.nvSecStateDropped + _) ≤ s.nvSecStateObs + 1
    cases r with
    | existing => simpa using hle.trans (Nat.le_succ _)
    | inserted => simp only [if_true, reduceCtorEq, if_false]; omega
    | saturated => simp only [if_true, reduceCtorEq, if_false]; omega

/-- Every step of a run keeps the counters. -/
theorem AccountingInv.step {lib : CLib} {cfg : NvTargetCfg} {s : SecState}
    (h : AccountingInv s) (e : ObserverEvent) : AccountingInv (observerStep lib cfg s e).2 := by
  cases e with
  | observe w path minimumExecSeq =>
    have hexit := nvObserve_exit lib cfg w path minimumExecSeq s
    rw [observerStep]
    generalize nvObserveSecurityStateOnce lib cfg w path minimumExecSeq s = o at hexit ⊢
    cases hexit with
    | unread fails => exact { h with }
    | rejected buf ledgerEnd root replays hfetch hparse hreplays =>
      refine { h with obs_replays_le := ?_ }
      have hle := h.obs_replays_le
      dsimp only
      omega
    | accepted buf ledgerEnd root marks hfetch hparse hbelow hfresh =>
      exact h.record marks ledgerEnd
  | setQueueCur q =>
    refine { h with queueCur_lt := ?_ }
    intro i hi
    obtain ⟨-, hlt⟩ := Option.filter_eq_some_iff.mp hi
    exact of_decide_eq_true hlt
  | addToQueue =>
    refine { h with queueCur_lt := ?_, seedCredit_eq := ?_ }
    · intro i hi
      have hlt := h.queueCur_lt i hi
      simp only [observerStep, List.length_append]
      omega
    · simp [observerStep, h.seedCredit_eq]

/-- The ids of the states reported as new. -/
def recordedIds (outs : List NvStateObs) : Finset UInt64 :=
  ((outs.filter fun o => o.newStates = 1).map NvStateObs.stateId).toFinset

theorem recordedIds_concat (outs : List NvStateObs) (o : NvStateObs) :
    recordedIds (outs ++ [o]) =
      if o.newStates = 1 then insert o.stateId (recordedIds outs) else recordedIds outs := by
  ext x
  by_cases ho : o.newStates = 1 <;> simp [recordedIds, ho]

theorem stored_of_zero {o : NvStateObs × SecState} {stored : Finset UInt64}
    (hzero : o.1 = .zero) (hstored : o.2.stored = stored) :
    o.2.stored = if o.1.newStates = 1 then insert o.1.stateId stored else stored := by
  rw [hzero, if_neg (show ¬ NvStateObs.zero.newStates = 1 by decide), hstored]

/-- A step stores the id it reports as new, and no other. -/
theorem observerStep_stored {lib : CLib} {cfg : NvTargetCfg} {s : SecState}
    (h : TableInv s) (e : ObserverEvent) :
    (observerStep lib cfg s e).2.stored =
      if (observerStep lib cfg s e).1.newStates = 1 then
        insert (observerStep lib cfg s e).1.stateId s.stored
      else s.stored := by
  cases e with
  | observe w path minimumExecSeq =>
    have hexit := nvObserve_exit lib cfg w path minimumExecSeq s
    rw [observerStep]
    generalize nvObserveSecurityStateOnce lib cfg w path minimumExecSeq s = o at hexit ⊢
    cases hexit with
    | unread fails => exact stored_of_zero rfl rfl
    | rejected buf ledgerEnd root replays hfetch hparse hreplays => exact stored_of_zero rfl rfl
    | accepted buf ledgerEnd root marks hfetch hparse hbelow hfresh =>
      have htable : TableInv (s.accept marks ledgerEnd) := h
      obtain ⟨r, e⟩ := nvRecordObservation_effect cfg (nvParseStatusDoc lib root) htable
      rw [e.stored, e.obs, boundedInsert_stored, ← e.answer, SecState.stored_accept,
        nvObsOfDoc_stateId]
      simp only [nvObsOfDoc_newStates_eq_one, decide_eq_true_eq]
  | setQueueCur q => exact stored_of_zero rfl rfl
  | addToQueue => exact stored_of_zero rfl rfl

/-- The invariants of a run, with its outputs. -/
theorem accountingInv_run (lib : CLib) (cfg : NvTargetCfg)
    (table : Option { cap : UInt32 // IsPow2 cap }) (es : List ObserverEvent) :
    AccountingInv (Machine.run (observerStep lib cfg) (SecState.init table) es) ∧
      (Machine.run (observerStep lib cfg) (SecState.init table) es).stored =
        recordedIds (Machine.outs (observerStep lib cfg) (SecState.init table) es) := by
  induction es using List.reverseRecOn with
  | nil =>
    refine ⟨AccountingInv.init table, ?_⟩
    cases table with
    | none => rfl
    | some cap => exact NvCovset.stored_zero cap.1
  | append_singleton es e ih =>
    obtain ⟨hinv, hstored⟩ := ih
    rw [Machine.run_concat, Machine.outs_concat, recordedIds_concat]
    exact ⟨hinv.step e, by rw [observerStep_stored hinv.table, hstored]⟩

/-- The document a call reads is one that it must not credit: an earlier
execution's, a replay, or one whose new id finds the table full. -/
def Uncreditable (lib : CLib) (cfg : NvTargetCfg) (w : World) (path : Bytes)
    (minimumExecSeq : ℕ) (s : SecState) : Prop :=
  ∃ buf ledgerEnd root, nvFetchStatus w path s.ledgerOffset = .document buf ledgerEnd ∧
    lib.cJSONParse (cstr buf) = some root ∧
    let d := nvParseStatusDoc lib root
    (belowMinimum minimumExecSeq d = true ∨
      (nvStatusIsFresh d.execSeq d.stamp s.nvLastExecSeq s.nvLastStatusSeq).1 = .replay ∨
      nvStateId cfg d ∉ s.stored ∧ s.stored.card = s.covCap)

/-- Such a document changes no credit and is not reported as a new state. -/
theorem Uncreditable.no_credit {lib : CLib} {cfg : NvTargetCfg} {w : World} {path : Bytes}
    {minimumExecSeq : ℕ} {s : SecState} (h : Uncreditable lib cfg w path minimumExecSeq s)
    (hs : TableInv s) :
    let o := nvObserveSecurityStateOnce lib cfg w path minimumExecSeq s
    o.1.newStates = 0 ∧ o.2.ssCovCnt = s.ssCovCnt ∧
      o.2.nvSecStateSeedCredit = s.nvSecStateSeedCredit ∧
      o.2.nvSecStateNewTotal = s.nvSecStateNewTotal := by
  obtain ⟨buf, ledgerEnd, root, hfetch, hparse, hwhy⟩ := h
  have hexit := nvObserve_exit lib cfg w path minimumExecSeq s
  dsimp only
  generalize nvObserveSecurityStateOnce lib cfg w path minimumExecSeq s = o at hexit ⊢
  cases hexit with
  | unread fails => exact ⟨rfl, rfl, rfl, rfl⟩
  | rejected buf' ledgerEnd' root' replays hfetch' hparse' hreplays => exact ⟨rfl, rfl, rfl, rfl⟩
  | accepted buf' ledgerEnd' root' marks hfetch' hparse' hbelow hfresh =>
    obtain ⟨rfl, rfl⟩ := Fetch.document.inj (hfetch.symm.trans hfetch')
    obtain rfl := Option.some.inj (hparse.symm.trans hparse')
    have htable : TableInv (s.accept marks ledgerEnd) := hs
    obtain ⟨r, e⟩ := nvRecordObservation_effect cfg (nvParseStatusDoc lib root) htable
    -- Accepted, so only a full table is left as the reason.
    have hr : r ≠ .inserted := by
      rcases hwhy with hlow | hreplay | ⟨hmem, hfull⟩
      · rw [hlow] at hbelow
        exact absurd hbelow (by decide)
      · rw [hfresh] at hreplay
        exact absurd hreplay NvStatusFresh.noConfusion
      · have hanswer : r = (boundedInsert s.covCap s.stored
            (nvStateId cfg (nvParseStatusDoc lib root))).1 := e.answer
        rw [hanswer, boundedInsert, if_neg hmem, if_neg (by omega)]
        exact NvCovsetResult.noConfusion
    have hcredit := e.credit
    have hqueue : (s.accept marks ledgerEnd).queueCur = s.queueCur := rfl
    rw [e.obs, e.newTotal, if_neg hr]
    cases hq : s.queueCur with
    | none =>
      simp only [hqueue, hq, Prod.mk.injEq] at hcredit
      exact ⟨by simp [nvObsOfDoc, hr], hcredit.1, hcredit.2, rfl⟩
    | some q =>
      simp only [hqueue, hq, if_neg hr, Prod.mk.injEq] at hcredit
      exact ⟨by simp [nvObsOfDoc, hr], hcredit.1, hcredit.2, rfl⟩

/-- The accounting of security states in every reachable state, and in the call
that follows. -/
theorem secState_accounting (lib : CLib) (cfg : NvTargetCfg)
    (table : Option { cap : UInt32 // IsPow2 cap }) (es : List ObserverEvent) :
    let s := Machine.run (observerStep lib cfg) (SecState.init table) es
    let ids := recordedIds (Machine.outs (observerStep lib cfg) (SecState.init table) es)
    s.nvSecStateNewTotal = s.nvCovUsed.toNat ∧
      s.nvCovUsed.toNat = ids.card ∧
      s.nvSecStateSeedCredit = s.ssCovCnt.sum ∧
      s.nvSecStateSeedCredit ≤ s.nvSecStateNewTotal ∧
      s.nvSecStateObs = s.nvStatusCnt ∧
      s.nvSecStateObs + s.nvSecStateReplays ≤ s.nvHttpStatusOk ∧
      s.nvSecStateNewTotal + s.nvSecStateDropped ≤ s.nvSecStateObs ∧
      ∀ w path minimumExecSeq, Uncreditable lib cfg w path minimumExecSeq s →
        let o := nvObserveSecurityStateOnce lib cfg w path minimumExecSeq s
        o.1.newStates = 0 ∧ o.2.ssCovCnt = s.ssCovCnt ∧
          o.2.nvSecStateSeedCredit = s.nvSecStateSeedCredit ∧
          o.2.nvSecStateNewTotal = s.nvSecStateNewTotal := by
  intro s ids
  obtain ⟨hinv, hstored⟩ := accountingInv_run lib cfg table es
  change AccountingInv s at hinv
  change s.stored = ids at hstored
  exact ⟨hinv.newTotal_eq, hstored ▸ hinv.table.used_eq, hinv.seedCredit_eq, hinv.seedCredit_le,
    hinv.obs_eq, hinv.obs_replays_le, hinv.new_dropped_le, fun w path minimumExecSeq h =>
    h.no_credit hinv.table⟩

end AflNv
