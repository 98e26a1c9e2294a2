import AflNv.SaveCounts

/-!
# One input, one entry

What is promised of `save_if_interesting`, and when it holds.  An interesting input is
never counted as kept, since `keeping` is set behind the count; a timeout that goes back
to `save_to_queue` is counted at least twice.

* `oneEntry_iff`: the promises about one call hold exactly where the call does not go
  back.
* `promised_iff`: over a run, `ss_new_bits_kept` is the number of the entries with new
  bits, and the promises hold, exactly where no entry is added.
-/

namespace AflNv

open AflNv.Lib

namespace Bitmap

open Coverage

/-! ## The inputs of the condition -/

/-- `new_bits` of an input without a fault. -/
def SaveCall.newBits (cfg : SaveCfg) (c : SaveCall) : UInt8 :=
  if cfg.fast || cfg.sanBinaryLength ≠ 0 && cfg.sanAbstraction = .uniqueTrace then
    (hasNewBits (c.maps.classify.view c.maps.virginBits true)).1
  else (hasNewBitsUnclassified cfg.simd false (c.maps.view c.maps.virginBits true)).1.1

/-- The input is not looked at. -/
def SaveCall.skipped (cfg : SaveCfg) (c : SaveCall) : Bool :=
  c.len = 0 || c.fault = .tmout && cfg.aflIgnoreTimeouts

/-- The input has no fault, and new bits. -/
def SaveCall.interesting (cfg : SaveCfg) (c : SaveCall) : Bool :=
  !c.skipped cfg && c.fault = cfg.crashMode && c.newBits cfg ≠ 0

/-- The simplified trace of a timeout is new. -/
def SaveCall.newTmout (cfg : SaveCfg) (c : SaveCall) : Bool :=
  cfg.nonInstrumentedMode ||
    (hasNewBits ((if cfg.fast then c.maps.classify else c.maps).simplify.view
      c.maps.virginTmout false)).1 ≠ 0

/-- The call goes back to `save_to_queue`. -/
def SaveCall.requeues (cfg : SaveCfg) (t : SaveTally) (c : SaveCall) : Bool :=
  !c.skipped cfg && c.fault = .tmout && c.fault ≠ cfg.crashMode &&
    t.savedHangs < keepUniqueHang && c.newTmout cfg && cfg.execTmout < cfg.hangTmout &&
    c.hangRuns.head?.any (·.requeues cfg)

variable {cfg : SaveCfg}

/-! ## The bits and the hang of a call -/

/-- `new_bits`, once they are counted. -/
def countedBits (cfg : SaveCfg) (s : SaveState) : UInt8 :=
  (calculateNewBitsIfNecessary cfg s).v.newBits

theorem countedBits_eq (s : SaveState) : countedBits cfg s =
    if s.v.bitsCounted then s.v.newBits
    else if s.v.classified then (hasNewBits (s.m.view s.m.virginBits true)).1
    else (hasNewBitsUnclassified cfg.simd false (s.m.view s.m.virginBits true)).1.1 := by
  rw [countedBits, calculateNewBitsIfNecessary]
  split
  · rfl
  · split
    · rfl
    · rename_i hnot
      rw [Bool.not_eq_true] at hnot
      rw [hnot]

theorem calculateNewBitsIfNecessary_bitsCounted (s : SaveState) :
    (calculateNewBitsIfNecessary cfg s).v.bitsCounted = true := by
  rw [calculateNewBitsIfNecessary]
  split
  · assumption
  · split <;> rfl

theorem countedBits_calculate (s : SaveState) :
    countedBits cfg (calculateNewBitsIfNecessary cfg s) = countedBits cfg s := by
  rw [countedBits_eq, if_pos (calculateNewBitsIfNecessary_bitsCounted s), countedBits]

theorem countedBits_runSanitizer (run : SanRun) (s : SaveState) :
    countedBits cfg (runSanitizer run s) = countedBits cfg s := by
  rw [countedBits_eq, countedBits_eq]
  rfl

theorem countedBits_sanLoop (sanRuns : ℕ → SanRun) (n sanIdx : ℕ) (s : SaveState) :
    countedBits cfg (sanLoop sanRuns n sanIdx s) = countedBits cfg s := by
  induction n generalizing sanIdx s with
  | zero => rfl
  | succ n ih =>
    rw [sanLoop]
    split
    · exact countedBits_runSanitizer _ s
    · rw [ih, countedBits_runSanitizer]

/-- The sanitizers classify the trace when they look for unique ones. -/
def sanClassifies (cfg : SaveCfg) : Bool :=
  cfg.sanBinaryLength ≠ 0 && cfg.sanAbstraction = .uniqueTrace

theorem countedBits_feedSan (s : SaveState) : countedBits cfg (feedSan cfg s).2 =
    countedBits cfg (if sanClassifies cfg then classifyIfNecessary s else s) := by
  rw [feedSan]
  by_cases hlen : cfg.sanBinaryLength = 0
  · have hno : sanClassifies cfg = false := by simp [sanClassifies, hlen]
    rw [if_pos hlen, hno]
    rfl
  · rw [if_neg hlen]
    cases hsan : cfg.sanAbstraction with
    | simplifyTrace =>
      have hno : sanClassifies cfg = false := by simp [sanClassifies, hsan]
      rw [hno, countedBits_eq, countedBits_eq]
      rfl
    | coverageIncrease =>
      have hno : sanClassifies cfg = false := by simp [sanClassifies, hsan]
      rw [hno]
      exact countedBits_calculate s
    | uniqueTrace =>
      have hyes : sanClassifies cfg = true := by simp [sanClassifies, hsan, hlen]
      rw [hyes]
      dsimp only
      split
      · rfl
      · rw [countedBits_eq, countedBits_eq]
        rfl

theorem countedBits_sanitize (sanRuns : ℕ → SanRun) (s : SaveState) :
    countedBits cfg (sanitize cfg sanRuns s) =
      countedBits cfg (if sanClassifies cfg then classifyIfNecessary s else s) := by
  rw [sanitize]
  split
  · rw [countedBits_sanLoop, countedBits_feedSan]
  · exact countedBits_feedSan s

/-- The state behind the update of the path frequency. -/
def SaveCall.entered (cfg : SaveCfg) (t : SaveTally) (c : SaveCall) : SaveState :=
  countFrequency cfg { c.start t with m := { c.maps with sanCaseStatus := 0 } }

theorem entered_same (t : SaveTally) (c : SaveCall) : Same (c.start t) (c.entered cfg t) := by
  rw [SaveCall.entered]
  refine Same.trans ?_ (countFrequency_same _)
  exact ⟨rfl, rfl, rfl, id⟩

/-- The bits of a call are those of its maps. -/
theorem countedBits_entered (t : SaveTally) (c : SaveCall) :
    countedBits cfg (sanitize cfg c.sanRuns (c.entered cfg t)) = c.newBits cfg := by
  rw [countedBits_sanitize, SaveCall.newBits, SaveCall.entered, countFrequency, ← sanClassifies]
  cases hfast : cfg.fast <;> cases hsan : sanClassifies cfg <;>
    simp only [Bool.false_or, Bool.true_or, Bool.false_eq_true, if_true, if_false] <;>
    rw [countedBits_eq] <;> rfl

theorem newTmout_fst (s : SaveState) : (newTmout cfg s).1 =
    (cfg.nonInstrumentedMode ||
      decide ((hasNewBits (s.m.simplify.view s.m.virginTmout false)).1 ≠ 0)) := by
  rw [newTmout]
  cases cfg.nonInstrumentedMode <;> rfl

theorem countTmout_fst (s : SaveState) : (countTmout cfg s).1 =
    (decide (s.t.savedHangs < keepUniqueHang) && (newTmout cfg s).1) := by
  rw [countTmout]
  dsimp only
  split
  · rename_i h
    rw [decide_eq_false (Nat.not_lt.mpr h)]
    rfl
  · rename_i h
    rw [decide_eq_true (Nat.lt_of_not_le h), newTmout_fst, newTmout_fst]
    rfl

theorem newTmout_entered (t : SaveTally) (c : SaveCall) :
    (newTmout cfg (c.entered cfg t)).1 = c.newTmout cfg := by
  rw [newTmout_fst, SaveCall.newTmout, SaveCall.entered, countFrequency]
  cases hfast : cfg.fast <;> rfl

/-- A call goes back to `save_to_queue` where its inputs say so. -/
theorem requeuesAt_entered {t : SaveTally} {c : SaveCall} (hskip : c.skipped cfg = false)
    (hne : c.fault ≠ cfg.crashMode) :
    requeuesAt cfg c.hangRuns (c.entered cfg t) = c.requeues cfg t := by
  rw [requeuesAt, SaveCall.requeues, hskip, countTmout_fst, newTmout_entered,
    (entered_same t c).fault, (entered_same t c).tally]
  simp only [SaveCall.start, hne, ne_eq, not_false_eq_true, decide_true, Bool.not_false,
    Bool.true_and, Bool.and_true, Bool.and_assoc]
  rfl

/-! ## A whole call -/

theorem requeuesAt_of_fault {hangRuns : List HangRun} {s : SaveState} (h : s.v.fault ≠ .tmout) :
    requeuesAt cfg hangRuns s = false := by
  simp [requeuesAt, h]

/-- An interesting input becomes an entry that is not counted as kept. -/
structure Kept (t : SaveTally) (r : SaveOutcome × SaveState) : Prop where
  entry : ∃ e : QueueTop, e.newBits ≠ 0 ∧ r.2.t.queue = t.queue ++ [e]
  kept : r.2.t.ssNewBitsKept = t.ssNewBitsKept
  tmouts : r.2.t.totalTmouts = t.totalTmouts
  crashes : r.2.t.totalCrashes ≤ t.totalCrashes + 1
  returns : ∀ b, r.1 = .returned b → b = true

theorem Kept.oneEntry {t : SaveTally} {r : SaveOutcome × SaveState} (h : Kept t r) :
    OneEntry t r.2.t r.1 := by
  obtain ⟨e, -, he⟩ := h.entry
  have hlen : r.2.t.queue.length = t.queue.length + 1 := by
    rw [he, List.length_append, List.length_singleton]
  refine ⟨hlen.le, by rw [h.tmouts]; omega, h.crashes, ?_⟩
  intro b hb
  exact iff_of_true (h.returns b hb) (by omega)

theorem Kept.not_keptAgrees {t : SaveTally} {r : SaveOutcome × SaveState} (h : Kept t r)
    (ht : KeptAgrees t) : ¬ KeptAgrees r.2.t := by
  obtain ⟨e, hbits, he⟩ := h.entry
  rw [KeptAgrees, h.kept, he, List.countP_append, ← ht, List.countP_singleton,
    if_pos (decide_eq_true hbits)]
  omega

/-- The switch of a fault that is no timeout. -/
theorem maySaveFault_other (io : FileIo) {hangRuns : List HangRun} {s : SaveState}
    (h : s.v.fault ≠ .tmout) :
    ∃ crashes ≤ 1, Quiet s (maySaveFault cfg io hangRuns s) 0 crashes := by
  obtain ⟨crashes, hc, hquiet⟩ := maySaveFault_quiet io (requeuesAt_of_fault h)
  rw [if_neg h] at hquiet
  exact ⟨crashes, hc, hquiet⟩

theorem calculateCksumIfNecessary_bits (s : SaveState) :
    (calculateCksumIfNecessary cfg s).v.bitsCounted = s.v.bitsCounted ∧
      (calculateCksumIfNecessary cfg s).v.newBits = s.v.newBits := by
  rw [calculateCksumIfNecessary, classifyIfNecessary]
  split
  · exact ⟨rfl, rfl⟩
  · split <;> exact ⟨rfl, rfl⟩

/-- Bits that are counted are those of the entry. -/
theorem entryBits_of_bitsCounted {s : SaveState} (h : s.v.bitsCounted = true) :
    entryBits cfg s = s.v.newBits := by
  obtain ⟨hcounted, hbits⟩ := @calculateCksumIfNecessary_bits cfg s
  rw [entryBits, ← countedBits, countedBits_eq, hcounted, if_pos h, hbits]

section Normal

variable (t : SaveTally) (c : SaveCall)

/-- The state in which the bits of a normal input are known. -/
theorem normal_same : Same (c.start t)
    (calculateNewBitsIfNecessary cfg (sanitize cfg c.sanRuns (c.entered cfg t))) :=
  ((entered_same t c).trans (sanitize_same c.sanRuns _)).trans (calculateNewBitsIfNecessary_same _)

theorem normal_newBits :
    (calculateNewBitsIfNecessary cfg (sanitize cfg c.sanRuns (c.entered cfg t))).v.newBits =
      c.newBits cfg :=
  countedBits_entered t c

/-- A normal input without new bits. -/
theorem saveNormal_quiet (h : c.newBits cfg = 0) :
    ∃ crashes ≤ 1, Quiet (c.start t) (saveNormal cfg c (c.entered cfg t)) 0 crashes := by
  have hsame := @normal_same cfg t c
  have hbits := @normal_newBits cfg t c
  rw [saveNormal]
  generalize calculateNewBitsIfNecessary cfg (sanitize cfg c.sanRuns (c.entered cfg t)) = s
    at hsame hbits ⊢
  dsimp only
  rw [if_pos (hbits.trans h)]
  split
  · refine ⟨if cfg.crashMode ≠ .ok then 1 else 0, by split <;> omega, ⟨?_, ?_⟩⟩
    · rw [hsame.tally]
      exact ⟨rfl, rfl, rfl, rfl⟩
    · intro b hb
      exact (SaveOutcome.returned.inj hb).symm
  · have hfault : s.v.sanFault ≠ .tmout := hsame.sanFault (show FsrvRunResult.ok ≠ .tmout by decide)
    obtain ⟨crashes, hc, hquiet⟩ := @maySaveFault_other cfg c.faultFile c.hangRuns
      (takeSanFault { s with m := { s.m with sanCaseStatus := s.m.sanCaseStatus ||| 0x20 } }) hfault
    refine ⟨crashes, hc, ?_⟩
    rw [← Nat.zero_add crashes]
    refine Quiet.after ?_ ?_ hquiet
    · exact Counts.of_eq hsame.tally
    · exact hsame.keeping

/-- A normal input with new bits. -/
theorem saveNormal_kept (h : c.newBits cfg ≠ 0)
    (hlive : (saveNormal cfg c (c.entered cfg t)).1 ≠ .fatal) :
    Kept t (saveNormal cfg c (c.entered cfg t)) := by
  have hsame := @normal_same cfg t c
  have hbits := @normal_newBits cfg t c
  have hcounted := @calculateNewBitsIfNecessary_bitsCounted cfg
    (sanitize cfg c.sanRuns (c.entered cfg t))
  rw [saveNormal] at hlive ⊢
  generalize calculateNewBitsIfNecessary cfg (sanitize cfg c.sanRuns (c.entered cfg t)) = s
    at hlive hcounted hsame hbits ⊢
  dsimp only at hlive ⊢
  rw [if_neg (hbits ▸ h)] at hlive ⊢
  cases hq : (saveToQueue cfg c.file c.calibration (takeSanFault s)).1 with
  | false =>
    rw [hq] at hlive
    exact absurd rfl hlive
  | true =>
    rw [if_pos rfl]
    obtain ⟨hkeeping, hfault, e, he, hqueue⟩ := saveToQueue_enqueued hq
    have hentry : e.newBits ≠ 0 := by
      rw [he, entryBits_of_bitsCounted (s := takeSanFault s) hcounted]
      exact hbits ▸ h
    have hne : (saveToQueue cfg c.file c.calibration (takeSanFault s)).2.v.fault ≠ .tmout := by
      rw [hfault]
      exact hsame.sanFault (show FsrvRunResult.ok ≠ .tmout by decide)
    obtain ⟨crashes, hc, hquiet⟩ := @maySaveFault_other cfg c.faultFile c.hangRuns _ hne
    have hkept : (takeSanFault s).v.keeping = false := hsame.keeping
    have htally : (takeSanFault s).t = t := hsame.tally
    refine ⟨⟨e, hentry, ?_⟩, ?_, ?_, ?_, fun b hb => (hquiet.returns b hb).trans hkeeping⟩
    · rw [hquiet.counts.queue, hqueue.queue, htally]
    · rw [hquiet.counts.kept, hqueue.kept, hkept, htally]
      rfl
    · rw [hquiet.counts.tmouts, hqueue.tmouts, htally]
      rfl
    · rw [hquiet.counts.crashes, hqueue.crashes, htally]
      omega

end Normal

/-- A fault that goes back to `save_to_queue` counts two timeouts. -/
theorem maySaveFault_twice (io : FileIo) {hangRuns : List HangRun} {s : SaveState}
    (h : requeuesAt cfg hangRuns s = true) (hlive : (maySaveFault cfg io hangRuns s).1 ≠ .fatal) :
    Ends s (maySaveFault cfg io hangRuns s) 2 := by
  cases hangRuns with
  | nil => simp [requeuesAt] at h
  | cons run rest =>
    rw [maySaveFault_of_requeues io h] at hlive ⊢
    have hfault : s.v.fault = .tmout := by
      simp only [requeuesAt, Bool.and_eq_true, decide_eq_true_eq] at h
      exact h.1.1.1
    refine Ends.after (n := 1) (requeued_counts run s) (requeued_keeping run s)
      (saveToQueue_ends (fun hq => ?_) fun hq => ?_)
    · obtain ⟨-, hback, -⟩ := saveToQueue_enqueued hq
      have hends := @maySaveFault_ends cfg io rest
        (saveToQueue cfg run.file run.calibration (requeued cfg run s)).2
      rwa [hback, requeued_fault, hfault, if_pos rfl] at hends
    · rw [hq] at hlive
      exact absurd rfl hlive

/-! ## The exact condition -/

section Calls

variable (t : SaveTally) (c : SaveCall)

theorem saveIfInteresting_of_not_skipped (h : c.skipped cfg = false) :
    saveIfInteresting cfg t c =
      if c.fault = cfg.crashMode then saveNormal cfg c (c.entered cfg t)
      else maySaveFault cfg c.faultFile c.hangRuns (c.entered cfg t) := by
  simp only [SaveCall.skipped, Bool.or_eq_false_iff, decide_eq_false_iff_not] at h
  rw [saveIfInteresting]
  dsimp only
  rw [if_neg h.1, if_neg (by simpa using h.2)]
  rfl

theorem saveIfInteresting_of_skipped (h : c.skipped cfg = true) :
    Quiet (c.start t) (saveIfInteresting cfg t c) 0 0 := by
  rw [saveIfInteresting]
  dsimp only
  split
  · exact quiet_returned _
  · rename_i hlen
    rw [if_pos (by simpa [SaveCall.skipped, hlen] using h)]
    refine ⟨Counts.of_eq ?_, fun b hb => (SaveOutcome.returned.inj hb).symm⟩
    dsimp only
    split <;> rfl

/-- A call without an entry. -/
theorem saveIfInteresting_quiet (hint : c.interesting cfg = false)
    (hreq : c.requeues cfg t = false) :
    ∃ tmouts ≤ 1, ∃ crashes ≤ 1, Quiet (c.start t) (saveIfInteresting cfg t c) tmouts crashes := by
  cases hskip : c.skipped cfg with
  | true => exact ⟨0, Nat.zero_le 1, 0, Nat.zero_le 1, saveIfInteresting_of_skipped t c hskip⟩
  | false =>
    rw [saveIfInteresting_of_not_skipped t c hskip]
    by_cases hmode : c.fault = cfg.crashMode
    · have hbits : c.newBits cfg = 0 := by
        simpa [SaveCall.interesting, hskip, hmode] using hint
      obtain ⟨crashes, hc, hquiet⟩ := saveNormal_quiet t c hbits
      rw [if_pos hmode]
      exact ⟨0, Nat.zero_le 1, crashes, hc, hquiet⟩
    · rw [if_neg hmode]
      rw [← requeuesAt_entered hskip hmode] at hreq
      obtain ⟨crashes, hc, hquiet⟩ := maySaveFault_quiet c.faultFile hreq
      have hall := Quiet.after (Counts.of_eq (entered_same t c).tally) (entered_same t c).keeping
        hquiet
      rw [Nat.zero_add, Nat.zero_add] at hall
      exact ⟨_, by split <;> omega, crashes, hc, hall⟩

/-- A call with an interesting input. -/
theorem saveIfInteresting_kept (hint : c.interesting cfg = true)
    (hlive : (saveIfInteresting cfg t c).1 ≠ .fatal) : Kept t (saveIfInteresting cfg t c) := by
  simp only [SaveCall.interesting, Bool.and_eq_true, Bool.not_eq_true', decide_eq_true_eq] at hint
  obtain ⟨⟨hskip, hmode⟩, hbits⟩ := hint
  rw [saveIfInteresting_of_not_skipped t c hskip, if_pos hmode] at hlive ⊢
  exact saveNormal_kept t c hbits hlive

/-- A call that goes back. -/
theorem saveIfInteresting_twice (hreq : c.requeues cfg t = true)
    (hlive : (saveIfInteresting cfg t c).1 ≠ .fatal) :
    t.totalTmouts + 2 ≤ (saveIfInteresting cfg t c).2.t.totalTmouts := by
  have hparts := hreq
  simp only [SaveCall.requeues, Bool.and_eq_true, Bool.not_eq_true', decide_eq_true_eq] at hparts
  obtain ⟨⟨⟨⟨⟨⟨hskip, -⟩, hmode⟩, -⟩, -⟩, -⟩, -⟩ := hparts
  rw [← requeuesAt_entered hskip hmode] at hreq
  rw [saveIfInteresting_of_not_skipped t c hskip, if_neg hmode] at hlive ⊢
  have hends := maySaveFault_twice c.faultFile hreq hlive
  have hle := hends.tmouts
  rwa [(entered_same t c).tally] at hle

end Calls

/-- A call that does not end the process adds at most one entry and counts at most one
timeout and one crash, and returns 1 for an entry, exactly when it does not go back to
`save_to_queue`. -/
theorem oneEntry_iff {t : SaveTally} {c : SaveCall}
    (hlive : (saveIfInteresting cfg t c).1 ≠ .fatal) :
    OneEntry t (saveIfInteresting cfg t c).2.t (saveIfInteresting cfg t c).1 ↔
      c.requeues cfg t = false := by
  constructor
  · intro h
    cases hreq : c.requeues cfg t with
    | false => rfl
    | true =>
      have htwice := saveIfInteresting_twice t c hreq hlive
      have hle := h.tmouts
      omega
  · intro hreq
    cases hint : c.interesting cfg with
    | true => exact (saveIfInteresting_kept t c hint hlive).oneEntry
    | false =>
      obtain ⟨tmouts, ht, crashes, hc, hquiet⟩ := saveIfInteresting_quiet t c hint hreq
      exact hquiet.counts.oneEntry ht hc hquiet.returns

/-- No entry is added. -/
def SaveCall.savesNothing (cfg : SaveCfg) (t : SaveTally) (c : SaveCall) : Bool :=
  !c.interesting cfg && !c.requeues cfg t

/-- What is promised behind a call of a run. -/
def Promised (cfg : SaveCfg) (t : SaveTally) (c : SaveCall) : Prop :=
  OneEntry t (saveStep cfg t c).2 (saveStep cfg t c).1 ∧ KeptAgrees (saveStep cfg t c).2

theorem promised_of_savesNothing {t : SaveTally} {c : SaveCall} (ht : KeptAgrees t)
    (h : c.savesNothing cfg t = true) : Promised cfg t c := by
  simp only [SaveCall.savesNothing, Bool.and_eq_true, Bool.not_eq_true'] at h
  obtain ⟨tmouts, htm, crashes, hc, hquiet⟩ := saveIfInteresting_quiet t c h.1 h.2
  exact ⟨hquiet.counts.oneEntry htm hc hquiet.returns, hquiet.counts.keptAgrees ht⟩

theorem savesNothing_of_promised {t : SaveTally} {c : SaveCall} (ht : KeptAgrees t)
    (hlive : (saveStep cfg t c).1 ≠ .fatal) (h : Promised cfg t c) :
    c.savesNothing cfg t = true := by
  have hreq := (oneEntry_iff hlive).mp h.1
  cases hint : c.interesting cfg with
  | true => exact absurd h.2 ((saveIfInteresting_kept t c hint hlive).not_keptAgrees ht)
  | false =>
    rw [SaveCall.savesNothing, hint, hreq]
    rfl

/-- The tally at the start, with the entries that come from the seeds. -/
def SaveTally.start (seeds : List ℕ) : SaveTally where
  queue := seeds.map fun len => ⟨len, 0, 0, 0⟩
  queuedWithCov := 0
  ssNewBitsAny := 0
  ssNewBitsKept := 0
  totalTmouts := 0
  savedTmouts := 0
  savedHangs := 0
  totalCrashes := 0
  savedCrashes := 0

theorem keptAgrees_start (seeds : List ℕ) : KeptAgrees (.start seeds) := by
  rw [KeptAgrees, SaveTally.start, List.countP_map]
  exact (List.countP_eq_zero.mpr fun _ _ => by simp).symm

/-- The first part: what is promised of one call holds exactly where the call does not
go back.  The second and third: over a run, with `ss_new_bits_kept`, the promises hold
exactly where nothing is saved. -/
theorem promised_iff (cfg : SaveCfg) (seeds : List ℕ) (calls : List SaveCall) :
    (∀ t c, (saveStep cfg t c).1 ≠ .fatal →
      (OneEntry t (saveStep cfg t c).2 (saveStep cfg t c).1 ↔ c.requeues cfg t = false)) ∧
    (Machine.Meets (saveStep cfg) (fun t c => c.savesNothing cfg t = true) (.start seeds) calls →
      Machine.Meets (saveStep cfg) (Promised cfg) (.start seeds) calls) ∧
    (Machine.Meets (saveStep cfg) (fun t c => (saveStep cfg t c).1 ≠ .fatal ∧ Promised cfg t c)
        (.start seeds) calls →
      Machine.Meets (saveStep cfg) (fun t c => c.savesNothing cfg t = true) (.start seeds) calls) := by
  refine ⟨fun t c hlive => oneEntry_iff hlive, ?_, ?_⟩
  · refine Machine.meets_of_meets _ _ _ KeptAgrees (fun t c ht h => ?_) (keptAgrees_start seeds)
    have hpromised := promised_of_savesNothing ht h
    exact ⟨hpromised, hpromised.2⟩
  · refine Machine.meets_of_meets _ _ _ KeptAgrees (fun t c ht h => ?_) (keptAgrees_start seeds)
    exact ⟨savesNothing_of_promised ht h.1 h.2, h.2.2⟩

/-! ## Three calls -/

/-- A map of one word. -/
def oneWord (word : UInt64) : List UInt64 := word :: List.replicate 7 0

/-- Maps in which nothing was hit before. -/
def freshMaps (word : UInt64) : SaveMaps where
  mapSize := 64
  realMapSize := 64
  traceBits := oneWord word
  virginBits := List.replicate 8 0xffffffffffffffff
  virginTmout := List.replicate 8 0xffffffffffffffff
  virginCrash := List.replicate 8 0xffffffffffffffff
  bitmapChanged := false
  nFuzz := fun _ => 0
  simplifiedNFuzz := fun _ => false
  nFuzzDup := fun _ => false
  sanCaseStatus := 0
  stopSoon := false
  fuzzMode := false
  ssCovCnt := some 0

/-- The explore schedule, with `AFL_KEEP_TIMEOUTS`. -/
def keepTimeoutsCfg : SaveCfg where
  crashMode := .ok
  nonInstrumentedMode := false
  schedule := 0
  switchFuzzMode := false
  aflIgnoreTimeouts := false
  aflKeepTimeouts := true
  sanBinaryLength := 0
  sanAbstraction := .simplifyTrace
  execTmout := 20
  hangTmout := 1000
  simd := .scalar
  hash64 := fun _ _ => 0
  hash32 := fun _ _ => 0

/-- A calibration that ends with the given word in the trace. -/
def calibrated (word : UInt64) : Calibration where
  res := .ok
  traceBits := oneWord word
  virginBits := List.replicate 8 0xffffffffffffff00
  bitmapChanged := true
  stopSoon := false
  newCov := false

/-- A longer run without a fault, and the trace behind its calibration. -/
def slowRun (word after : UInt64) : HangRun where
  tmpLen := 4
  fixLen := 4
  newFault := .ok
  traceBits := oneWord word
  stopSoon := false
  file := .written
  calibration := calibrated after

def callOf (fault : FsrvRunResult) (hangRuns : List HangRun) : SaveCall where
  len := 4
  fault := fault
  maps := freshMaps 1
  sanRuns := fun _ => ⟨4, .ok, false⟩
  file := .written
  calibration := calibrated 1
  hangRuns := hangRuns
  faultFile := .written

/-- A genuine hang. -/
theorem promised_hang :
    Machine.Meets (saveStep keepTimeoutsCfg) (Promised keepTimeoutsCfg) (.start [5])
      [callOf .tmout [{ slowRun 1 1 with newFault := .tmout }]] :=
  (promised_iff keepTimeoutsCfg [5] _).2.1 (by decide)

/-- A timeout whose longer runs are none. -/
def twiceQueued : SaveCall := callOf .tmout [slowRun 1 0x100, slowRun 0x100 0x100]

/-- An interesting input is not counted as kept; a timeout whose longer runs are none is
queued twice and counted three times. -/
theorem promised_fails :
    ((saveStep keepTimeoutsCfg (.start []) (callOf .ok [])).2.ssNewBitsKept = 0 ∧
      (saveStep keepTimeoutsCfg (.start []) (callOf .ok [])).2.queue.map (·.newBits) = [2]) ∧
    (saveStep keepTimeoutsCfg (.start []) twiceQueued).1 = .returned true ∧
      (saveStep keepTimeoutsCfg (.start []) twiceQueued).2.queue.length = 2 ∧
      (saveStep keepTimeoutsCfg (.start []) twiceQueued).2.totalTmouts = 3 := by
  decide

end Bitmap

end AflNv
