import AflNv.SaveInteresting

/-!
# What a call of `save_if_interesting` counts

The helpers leave the tally alone (`Same`); the parts of the switch add no entry and
count a fault (`Counts`, `Quiet`); `save_to_queue` adds one entry (`Enqueued`).

* `maySaveFault_quiet` and `maySaveFault_of_requeues` say what the switch does: it counts
  one fault and ends, or it counts a timeout and goes back to `save_to_queue`.
* `maySaveFault_ends` holds of every run of the switch, by induction on the longer runs:
  at most one crash, and a return value that says whether an entry is there.
-/

namespace AflNv

namespace Bitmap

/-! ## The promises -/

/-- What is promised of one call. -/
structure OneEntry (t t' : SaveTally) (o : SaveOutcome) : Prop where
  entries : t'.queue.length ≤ t.queue.length + 1
  tmouts : t'.totalTmouts ≤ t.totalTmouts + 1
  crashes : t'.totalCrashes ≤ t.totalCrashes + 1
  returns : ∀ r, o = .returned r → (r = true ↔ t.queue.length < t'.queue.length)

/-- `ss_new_bits_kept` counts the entries with new bits. -/
def KeptAgrees (t : SaveTally) : Prop :=
  t.ssNewBitsKept = t.queue.countP fun e => e.newBits ≠ 0

variable {cfg : SaveCfg}

/-! ## What the helpers leave alone -/

/-- Neither the tally nor the variables that the switch reads are changed; a sanitizer
reports no timeout. -/
structure Same (s s' : SaveState) : Prop where
  tally : s'.t = s.t
  fault : s'.v.fault = s.v.fault
  keeping : s'.v.keeping = s.v.keeping
  sanFault : s.v.sanFault ≠ .tmout → s'.v.sanFault ≠ .tmout

theorem Same.refl (s : SaveState) : Same s s := ⟨rfl, rfl, rfl, id⟩

theorem Same.trans {s₁ s₂ s₃ : SaveState} (h : Same s₁ s₂) (h' : Same s₂ s₃) : Same s₁ s₃ :=
  ⟨h'.tally.trans h.tally, h'.fault.trans h.fault, h'.keeping.trans h.keeping,
    fun hne => h'.sanFault (h.sanFault hne)⟩

theorem classifyIfNecessary_same (s : SaveState) : Same s (classifyIfNecessary s) := by
  rw [classifyIfNecessary]
  split <;> exact ⟨rfl, rfl, rfl, id⟩

theorem calculateCksumIfNecessary_same (s : SaveState) :
    Same s (calculateCksumIfNecessary cfg s) := by
  rw [calculateCksumIfNecessary]
  split
  · exact Same.refl s
  · exact (classifyIfNecessary_same s).trans ⟨rfl, rfl, rfl, id⟩

theorem calculateNewBitsIfNecessary_same (s : SaveState) :
    Same s (calculateNewBitsIfNecessary cfg s) := by
  rw [calculateNewBitsIfNecessary]
  split
  · exact Same.refl s
  · split <;> exact ⟨rfl, rfl, rfl, id⟩

theorem feedSan_same (s : SaveState) : Same s (feedSan cfg s).2 := by
  rw [feedSan]
  split
  · exact Same.refl s
  · split
    · exact ⟨rfl, rfl, rfl, id⟩
    · exact calculateNewBitsIfNecessary_same s
    · dsimp only
      split
      · exact classifyIfNecessary_same s
      · exact (classifyIfNecessary_same s).trans ⟨rfl, rfl, rfl, id⟩

theorem runSanitizer_same (run : SanRun) (s : SaveState) : Same s (runSanitizer run s) := by
  refine ⟨rfl, rfl, rfl, fun _ => ?_⟩
  show (if run.sanFault = .crash then FsrvRunResult.crash else .ok) ≠ .tmout
  split <;> decide

theorem sanLoop_same (sanRuns : ℕ → SanRun) (n sanIdx : ℕ) (s : SaveState) :
    Same s (sanLoop sanRuns n sanIdx s) := by
  induction n generalizing sanIdx s with
  | zero => exact Same.refl s
  | succ n ih =>
    rw [sanLoop]
    split
    · exact runSanitizer_same _ s
    · exact (runSanitizer_same _ s).trans (ih (sanIdx + 1) _)

theorem sanitize_same (sanRuns : ℕ → SanRun) (s : SaveState) :
    Same s (sanitize cfg sanRuns s) := by
  rw [sanitize]
  split
  · exact (feedSan_same s).trans (sanLoop_same sanRuns _ 0 _)
  · exact feedSan_same s

theorem countFrequency_same (s : SaveState) : Same s (countFrequency cfg s) := by
  rw [countFrequency]
  split
  · exact (calculateCksumIfNecessary_same s).trans ⟨rfl, rfl, rfl, id⟩
  · exact Same.refl s

theorem newTmout_same (s : SaveState) : Same s (newTmout cfg s).2 := by
  rw [newTmout]
  split <;> exact ⟨rfl, rfl, rfl, id⟩

theorem newCrash_same (s : SaveState) : Same s (newCrash cfg s).2 := by
  rw [newCrash]
  split <;> exact ⟨rfl, rfl, rfl, id⟩

/-! ## What the parts count -/

/-- The entries and counters of the promises, behind a part of a call that adds no
entry. -/
structure Counts (t t' : SaveTally) (tmouts crashes : ℕ) : Prop where
  queue : t'.queue = t.queue
  kept : t'.ssNewBitsKept = t.ssNewBitsKept
  tmouts : t'.totalTmouts = t.totalTmouts + tmouts
  crashes : t'.totalCrashes = t.totalCrashes + crashes

theorem Counts.of_eq {t t' : SaveTally} (h : t' = t) : Counts t t' 0 0 := by
  rw [h]
  exact ⟨rfl, rfl, rfl, rfl⟩

/-- A call without a new entry keeps the promises. -/
theorem Counts.oneEntry {t t' : SaveTally} {tmouts crashes : ℕ} {o : SaveOutcome}
    (h : Counts t t' tmouts crashes) (ht : tmouts ≤ 1) (hc : crashes ≤ 1)
    (ho : ∀ r, o = .returned r → r = false) : OneEntry t t' o where
  entries := by rw [h.queue]; omega
  tmouts := by rw [h.tmouts]; omega
  crashes := by rw [h.crashes]; omega
  returns := fun r hr => by
    rw [ho r hr, h.queue]
    simp

theorem Counts.keptAgrees {t t' : SaveTally} {tmouts crashes : ℕ} (h : Counts t t' tmouts crashes)
    (hkept : KeptAgrees t) : KeptAgrees t' := by
  rw [KeptAgrees, h.kept, h.queue]
  exact hkept

theorem saveFault_outcome {io : FileIo} {s : SaveState} {r : Bool}
    (h : (saveFault io s).1 = .returned r) : r = s.v.keeping := by
  rw [saveFault] at h
  split_ifs at h
  exact (SaveOutcome.returned.inj h).symm

theorem keepAsCrash_counts (io : FileIo) (s : SaveState) :
    Counts s.t (keepAsCrash cfg io s).2.t 0 1 := by
  rw [keepAsCrash]
  dsimp only
  split
  · exact ⟨rfl, rfl, rfl, rfl⟩
  · split
    · rw [(newCrash_same _).tally]
      exact ⟨rfl, rfl, rfl, rfl⟩
    · rw [saveFault, (newCrash_same _).tally]
      exact ⟨rfl, rfl, rfl, rfl⟩

theorem keepAsCrash_returned {io : FileIo} {s : SaveState} {r : Bool}
    (h : (keepAsCrash cfg io s).1 = .returned r) : r = s.v.keeping := by
  rw [keepAsCrash] at h
  dsimp only at h
  split at h
  · exact (SaveOutcome.returned.inj h).symm
  · split at h
    · exact (SaveOutcome.returned.inj h).symm
    · exact (saveFault_outcome h).trans (newCrash_same _).keeping

theorem countTmout_counts (s : SaveState) : Counts s.t (countTmout cfg s).2.t 1 0 := by
  rw [countTmout]
  dsimp only
  split
  · exact ⟨rfl, rfl, rfl, rfl⟩
  · rw [(newTmout_same _).tally]
    exact ⟨rfl, rfl, rfl, rfl⟩

theorem countTmout_keeping (s : SaveState) : (countTmout cfg s).2.v.keeping = s.v.keeping := by
  rw [countTmout]
  dsimp only
  split
  · rfl
  · exact (newTmout_same _).keeping

theorem countTmout_fault (s : SaveState) : (countTmout cfg s).2.v.fault = s.v.fault := by
  rw [countTmout]
  dsimp only
  split
  · rfl
  · exact (newTmout_same _).fault

theorem keepAsHang_counts (io : FileIo) (s : SaveState) :
    Counts s.t (keepAsHang io s).2.t 0 0 :=
  ⟨rfl, rfl, rfl, rfl⟩

theorem keepAsHang_returned {io : FileIo} {s : SaveState} {r : Bool}
    (h : (keepAsHang io s).1 = .returned r) : r = s.v.keeping :=
  saveFault_outcome h

/-- The entries and counters behind a new entry. -/
structure Enqueued (s : SaveState) (t' : SaveTally) (e : QueueTop) : Prop where
  queue : t'.queue = s.t.queue ++ [e]
  kept : t'.ssNewBitsKept = s.t.ssNewBitsKept + if s.v.keeping && e.newBits ≠ 0 then 1 else 0
  tmouts : t'.totalTmouts = s.t.totalTmouts
  crashes : t'.totalCrashes = s.t.totalCrashes

/-- `new_bits` of an entry that is added in this state. -/
def entryBits (cfg : SaveCfg) (s : SaveState) : UInt8 :=
  (calculateNewBitsIfNecessary cfg (calculateCksumIfNecessary cfg s)).v.newBits

theorem calculate_same (s : SaveState) :
    Same s (calculateNewBitsIfNecessary cfg (calculateCksumIfNecessary cfg s)) :=
  (calculateCksumIfNecessary_same s).trans (calculateNewBitsIfNecessary_same _)

theorem enqueue_enqueued (cal : Calibration) (s : SaveState) :
    ∃ e, e.newBits = entryBits cfg s ∧
      Enqueued s (calibrate cal (enqueue cfg
        (calculateNewBitsIfNecessary cfg (calculateCksumIfNecessary cfg s)))).t e := by
  have hsame := @calculate_same cfg s
  refine ⟨_, ?_, ⟨congrArg (· ++ [_]) (congrArg SaveTally.queue hsame.tally), ?_,
    (congrArg SaveTally.totalTmouts hsame.tally :), (congrArg SaveTally.totalCrashes hsame.tally :)⟩⟩
  · rfl
  · rw [calibrate, enqueue, ← hsame.tally, ← hsame.keeping]

/-- The process ends before the entry is there, or behind it. -/
theorem saveToQueue_fatal {file : FileIo} {cal : Calibration} {s : SaveState}
    (h : (saveToQueue cfg file cal s).1 = false) :
    Counts s.t (saveToQueue cfg file cal s).2.t 0 0 ∨
      ∃ e, Enqueued s (saveToQueue cfg file cal s).2.t e := by
  obtain ⟨e, -, he⟩ := @enqueue_enqueued cfg cal s
  rw [saveToQueue] at h ⊢
  dsimp only at h ⊢
  split_ifs at h ⊢
  · exact .inl (Counts.of_eq (calculate_same s).tally)
  · exact .inr ⟨e, he⟩

theorem saveToQueue_enqueued {file : FileIo} {cal : Calibration} {s : SaveState}
    (h : (saveToQueue cfg file cal s).1 = true) :
    (saveToQueue cfg file cal s).2.v.keeping = true ∧
      (saveToQueue cfg file cal s).2.v.fault = s.v.fault ∧
      ∃ e, e.newBits = entryBits cfg s ∧ Enqueued s (saveToQueue cfg file cal s).2.t e := by
  obtain ⟨e, hbits, he⟩ := @enqueue_enqueued cfg cal s
  rw [saveToQueue] at h ⊢
  dsimp only at h ⊢
  split_ifs at h ⊢
  exact ⟨rfl, (calculate_same s).fault, e, hbits, he⟩

/-! ## What holds of every call -/

/-- Whatever the runs of the target do: at most one crash is counted, at least
`tmouts` timeouts, and the return value says whether an entry is there. -/
structure Ends (s : SaveState) (r : SaveOutcome × SaveState) (tmouts : ℕ) : Prop where
  crashes : r.2.t.totalCrashes ≤ s.t.totalCrashes + 1
  queue : s.t.queue.length ≤ r.2.t.queue.length
  tmouts : s.t.totalTmouts + tmouts ≤ r.2.t.totalTmouts
  returns : ∀ b, r.1 = .returned b →
    (b = true ↔ s.v.keeping = true ∨ s.t.queue.length < r.2.t.queue.length)

/-- A part of a call that adds no entry, up to its end. -/
structure Quiet (s : SaveState) (r : SaveOutcome × SaveState) (tmouts crashes : ℕ) : Prop where
  counts : Counts s.t r.2.t tmouts crashes
  returns : ∀ b, r.1 = .returned b → b = s.v.keeping

section

variable {s s' : SaveState} {r : SaveOutcome × SaveState} {tmouts crashes n : ℕ}

theorem Counts.trans {t₁ t₂ t₃ : SaveTally} {m k : ℕ} (h : Counts t₁ t₂ tmouts crashes)
    (h' : Counts t₂ t₃ m k) : Counts t₁ t₃ (tmouts + m) (crashes + k) where
  queue := h'.queue.trans h.queue
  kept := h'.kept.trans h.kept
  tmouts := by rw [h'.tmouts, h.tmouts, Nat.add_assoc]
  crashes := by rw [h'.crashes, h.crashes, Nat.add_assoc]

theorem Quiet.ends (h : Quiet s r tmouts crashes) (hc : crashes ≤ 1) : Ends s r tmouts where
  crashes := by rw [h.counts.crashes]; omega
  queue := by rw [h.counts.queue]
  tmouts := by rw [h.counts.tmouts]
  returns := fun b hb => by
    rw [h.returns b hb, h.counts.queue]
    simp

/-- A part that counts no crash, and the end behind it. -/
theorem Quiet.after {m k : ℕ} (h : Counts s.t s'.t tmouts crashes)
    (hkeeping : s'.v.keeping = s.v.keeping) (hr : Quiet s' r m k) :
    Quiet s r (tmouts + m) (crashes + k) where
  counts := h.trans hr.counts
  returns := fun b hb => (hr.returns b hb).trans hkeeping

theorem Ends.after (h : Counts s.t s'.t tmouts 0) (hkeeping : s'.v.keeping = s.v.keeping)
    (hr : Ends s' r n) : Ends s r (tmouts + n) where
  crashes := by
    rw [← Nat.add_zero s.t.totalCrashes, ← h.crashes]
    exact hr.crashes
  queue := h.queue ▸ hr.queue
  tmouts := by
    rw [← Nat.add_assoc, ← h.tmouts]
    exact hr.tmouts
  returns := by
    rw [← hkeeping, ← h.queue]
    exact hr.returns

/-- An entry, and the end behind it. -/
theorem Ends.after_entry {e : QueueTop} (h : Enqueued s s'.t e) (hkeeping : s'.v.keeping = true)
    (hr : Ends s' r n) : Ends s r n := by
  have hlonger : s.t.queue.length < r.2.t.queue.length := by
    have hqueue := hr.queue
    rw [h.queue, List.length_append, List.length_singleton] at hqueue
    omega
  refine ⟨h.crashes ▸ hr.crashes, hlonger.le, h.tmouts ▸ hr.tmouts, ?_⟩
  intro b hb
  rw [hr.returns b hb]
  exact iff_of_true (.inl hkeeping) (.inr hlonger)

theorem Ends.of_fatal (h : Counts s.t s'.t 0 0 ∨ ∃ e, Enqueued s s'.t e) :
    Ends s (.fatal, s') 0 := by
  rcases h with h | ⟨e, h⟩
  · exact Quiet.ends ⟨h, fun b hb => SaveOutcome.noConfusion hb⟩ (Nat.zero_le 1)
  · refine ⟨?_, ?_, ?_, fun b hb => SaveOutcome.noConfusion hb⟩
    · show s'.t.totalCrashes ≤ _
      rw [h.crashes]
      omega
    · show _ ≤ s'.t.queue.length
      rw [h.queue, List.length_append]
      omega
    · show _ ≤ s'.t.totalTmouts
      rw [h.tmouts]
      exact le_rfl

theorem Ends.mono {m : ℕ} (h : Ends s r n) (hm : m ≤ n) : Ends s r m :=
  { h with tmouts := le_trans (Nat.add_le_add_left hm _) h.tmouts }

end

theorem keepAsCrash_quiet (io : FileIo) (s : SaveState) : Quiet s (keepAsCrash cfg io s) 0 1 :=
  ⟨keepAsCrash_counts io s, fun _ hb => keepAsCrash_returned hb⟩

theorem keepAsHang_quiet (io : FileIo) (s : SaveState) : Quiet s (keepAsHang io s) 0 0 :=
  ⟨keepAsHang_counts io s, fun _ hb => keepAsHang_returned hb⟩

theorem quiet_returned (s : SaveState) : Quiet s (.returned s.v.keeping, s) 0 0 :=
  ⟨Counts.of_eq rfl, fun _ hb => (SaveOutcome.returned.inj hb).symm⟩

theorem quiet_fatal (s : SaveState) : Quiet s (.fatal, s) 0 0 :=
  ⟨Counts.of_eq rfl, fun _ hb => SaveOutcome.noConfusion hb⟩

theorem quiet_running (s : SaveState) : Quiet s (.running, s) 0 0 :=
  ⟨Counts.of_eq rfl, fun _ hb => SaveOutcome.noConfusion hb⟩

/-- The longer run changes no counter. -/
theorem rerun_counts (run : HangRun) (s : SaveState) : Counts s.t (rerun run s).t 0 0 :=
  ⟨rfl, rfl, rfl, rfl⟩

/-- The longer run sends the input to the queue. -/
def HangRun.requeues (cfg : SaveCfg) (run : HangRun) : Bool :=
  cfg.aflKeepTimeouts && (run.stopSoon || run.newFault ≠ .tmout && run.newFault ≠ .crash)

/-- The case of the timeout goes back to `save_to_queue`. -/
def requeuesAt (cfg : SaveCfg) (hangRuns : List HangRun) (s : SaveState) : Bool :=
  s.v.fault = .tmout && (countTmout cfg s).1 && cfg.execTmout < cfg.hangTmout &&
    hangRuns.head?.any (·.requeues cfg)

/-- The state in which a timeout goes back. -/
def requeued (cfg : SaveCfg) (run : HangRun) (s : SaveState) : SaveState :=
  let s := rerun run (countTmout cfg s).2
  { s with t := { s.t with savedTmouts := s.t.savedTmouts + 1 } }

theorem requeued_counts (run : HangRun) (s : SaveState) : Counts s.t (requeued cfg run s).t 1 0 :=
  (countTmout_counts s).trans (m := 0) (k := 0) ⟨rfl, rfl, rfl, rfl⟩

theorem requeued_keeping (run : HangRun) (s : SaveState) :
    (requeued cfg run s).v.keeping = s.v.keeping :=
  countTmout_keeping s

theorem requeued_fault (run : HangRun) (s : SaveState) :
    (requeued cfg run s).v.fault = s.v.fault :=
  countTmout_fault s

theorem maySaveFault_of_requeues (io : FileIo) {run : HangRun} {rest : List HangRun} {s : SaveState}
    (h : requeuesAt cfg (run :: rest) s = true) :
    maySaveFault cfg io (run :: rest) s =
      if (saveToQueue cfg run.file run.calibration (requeued cfg run s)).1 then
        maySaveFault cfg io rest (saveToQueue cfg run.file run.calibration (requeued cfg run s)).2
      else (.fatal, (saveToQueue cfg run.file run.calibration (requeued cfg run s)).2) := by
  simp only [requeuesAt, HangRun.requeues, List.head?_cons, Option.any_some, Bool.and_eq_true,
    Bool.or_eq_true, decide_eq_true_eq] at h
  obtain ⟨⟨⟨hfault, hnew⟩, hlt⟩, hkeep, hrun⟩ := h
  have hcrash : ¬(!run.stopSoon && decide (run.newFault = .crash)) = true := by
    rcases hrun with hstop | ⟨-, hne⟩
    · simp [hstop]
    · simp [hne]
  have hback : (run.stopSoon || decide (run.newFault ≠ .tmout)) = true := by
    rcases hrun with hstop | ⟨hne, -⟩
    · simp [hstop]
    · simp [hne]
  rw [maySaveFault, hfault]
  dsimp only
  rw [if_neg (by simp [hnew]), if_pos hlt, if_neg hcrash, if_pos hback, if_pos hkeep]
  rfl

theorem requeuesAt_of_back {run : HangRun} {rest : List HangRun} {s : SaveState}
    (hfault : s.v.fault = .tmout) (hnew : ¬(!(countTmout cfg s).1) = true)
    (hlt : cfg.execTmout < cfg.hangTmout)
    (hcrash : ¬(!run.stopSoon && decide (run.newFault = .crash)) = true)
    (hback : (run.stopSoon || decide (run.newFault ≠ .tmout)) = true)
    (hkeep : cfg.aflKeepTimeouts = true) : requeuesAt cfg (run :: rest) s = true := by
  simp only [requeuesAt, HangRun.requeues, List.head?_cons, Option.any_some, hfault, hlt, hkeep]
  simp only [Bool.not_eq_true', Bool.not_eq_false] at hnew
  cases hstop : run.stopSoon with
  | true => simp [hnew]
  | false =>
    simp only [hstop, Bool.not_false, Bool.true_and, decide_eq_true_eq] at hcrash
    simp only [hstop, Bool.false_or, decide_eq_true_eq] at hback
    simp [hnew, hcrash, hback]

/-- Without the way back, the switch counts one fault. -/
theorem maySaveFault_quiet (io : FileIo) {hangRuns : List HangRun} {s : SaveState}
    (h : requeuesAt cfg hangRuns s = false) :
    ∃ crashes ≤ 1, Quiet s (maySaveFault cfg io hangRuns s)
      (if s.v.fault = .tmout then 1 else 0) crashes := by
  have htmout : ∀ {r : SaveOutcome × SaveState} {crashes : ℕ}, s.v.fault = .tmout →
      Quiet (countTmout cfg s).2 r 0 crashes →
      Quiet s r (if s.v.fault = .tmout then 1 else 0) crashes := by
    intro r crashes hfault hr
    rw [if_pos hfault, ← Nat.zero_add crashes]
    exact Quiet.after (countTmout_counts s) (countTmout_keeping s) hr
  have hrerun : ∀ {r : SaveOutcome × SaveState} {crashes : ℕ} (run : HangRun),
      s.v.fault = .tmout → Quiet (rerun run (countTmout cfg s).2) r 0 crashes →
      Quiet s r (if s.v.fault = .tmout then 1 else 0) crashes := by
    intro r crashes run hfault hr
    refine htmout hfault ?_
    rw [← Nat.zero_add crashes]
    exact Quiet.after (rerun_counts run _) rfl hr
  have hother : ∀ {r : SaveOutcome × SaveState} {crashes : ℕ} {fault : FsrvRunResult},
      s.v.fault = fault → fault ≠ .tmout → Quiet s r 0 crashes →
      Quiet s r (if s.v.fault = .tmout then 1 else 0) crashes := by
    intro r crashes fault hfault hne hr
    rw [hfault, if_neg hne]
    exact hr
  fun_cases maySaveFault cfg io hangRuns s
  case case1 => exact ⟨0, Nat.zero_le 1, htmout ‹_› (quiet_returned _)⟩
  case case2 => exact ⟨0, Nat.zero_le 1, htmout ‹_› (quiet_running _)⟩
  case case3 run _ _ _ => exact ⟨1, le_rfl, hrerun run ‹_› (keepAsCrash_quiet io _)⟩
  case case4 | case5 =>
    rw [requeuesAt_of_back ‹_› ‹_› ‹_› ‹_› ‹_› ‹_›] at h
    exact Bool.noConfusion h
  case case6 run _ _ _ _ _ => exact ⟨0, Nat.zero_le 1, hrerun run ‹_› (quiet_returned _)⟩
  case case7 run _ _ _ _ => exact ⟨0, Nat.zero_le 1, hrerun run ‹_› (keepAsHang_quiet io _)⟩
  case case8 => exact ⟨0, Nat.zero_le 1, htmout ‹_› (keepAsHang_quiet io _)⟩
  case case9 => exact ⟨1, le_rfl, hother ‹_› (by decide) (keepAsCrash_quiet io s)⟩
  case case10 => exact ⟨0, Nat.zero_le 1, hother ‹_› (by decide) (quiet_fatal s)⟩
  case case11 | case12 | case13 =>
    exact ⟨0, Nat.zero_le 1, hother ‹_› (by decide) (quiet_returned s)⟩

/-- Behind an entry, the switch ends like every other part. -/
theorem saveToQueue_ends {io : FileIo} {file : FileIo} {cal : Calibration} {rest : List HangRun}
    {s : SaveState} {n : ℕ}
    (h : (saveToQueue cfg file cal s).1 = true →
      Ends (saveToQueue cfg file cal s).2 (maySaveFault cfg io rest (saveToQueue cfg file cal s).2) n)
    (hn : (saveToQueue cfg file cal s).1 = false → n = 0) :
    Ends s (if (saveToQueue cfg file cal s).1 then
        maySaveFault cfg io rest (saveToQueue cfg file cal s).2
      else (.fatal, (saveToQueue cfg file cal s).2)) n := by
  cases hq : (saveToQueue cfg file cal s).1 with
  | true =>
    obtain ⟨hkeeping, -, e, -, he⟩ := saveToQueue_enqueued hq
    rw [if_pos rfl]
    exact Ends.after_entry he hkeeping (h hq)
  | false =>
    rw [if_neg Bool.false_ne_true, hn hq]
    exact Ends.of_fatal (saveToQueue_fatal hq)

theorem maySaveFault_ends (io : FileIo) (hangRuns : List HangRun) (s : SaveState) :
    Ends s (maySaveFault cfg io hangRuns s) (if s.v.fault = .tmout then 1 else 0) := by
  induction hangRuns generalizing s with
  | nil =>
    have hnot : requeuesAt cfg [] s = false := by simp [requeuesAt]
    obtain ⟨crashes, hc, hquiet⟩ := maySaveFault_quiet io hnot
    exact hquiet.ends hc
  | cons run rest ih =>
    cases hreq : requeuesAt cfg (run :: rest) s with
    | false =>
      obtain ⟨crashes, hc, hquiet⟩ := maySaveFault_quiet io hreq
      exact hquiet.ends hc
    | true =>
      have hfault : s.v.fault = .tmout := by
        simp only [requeuesAt, Bool.and_eq_true, decide_eq_true_eq] at hreq
        exact hreq.1.1.1
      rw [maySaveFault_of_requeues io hreq, if_pos hfault]
      exact Ends.after (n := 0) (requeued_counts run s) (requeued_keeping run s)
        (saveToQueue_ends (fun _ => (ih _).mono (Nat.zero_le _)) fun _ => rfl)

end Bitmap

end AflNv
