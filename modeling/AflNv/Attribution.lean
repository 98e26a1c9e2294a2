import AflNv.CommonFuzz
import AflNv.LedgerProgress

/-!
# Which execution an observation belongs to

Every execution of the target appends one line to the status ledger, and an
observation reads the first unread line.  `common_fuzz_stuff` takes it for its own.

A `FuzzerRun` is the state of the fuzzer with the lines of the ledger.  `Synced`
says that every line was consumed.  An execution outside `common_fuzz_stuff`
keeps this only if it consumes its own line, which `fuzz_run_target` does for an
uncounted execution that ends well (`OwnLine`).  `observation_is_own` is the
result about runs; `trim_line_misattributed` is a run in which a trim execution
leaves its line to the next fuzzing iteration.
-/

namespace AflNv

open AflNv.Lib

/-! ## Runs -/

/-- An execution of the target, with the line it appends to the ledger. -/
structure Execution where
  res : FsrvRunResult
  signals : Signals
  line : Bytes
  /-- The other files after the execution. -/
  files : Bytes → Option FileView

/-- A world whose status ledger holds `content`. -/
def worldWith (ledgerPath content : Bytes) (files : Bytes → Option FileView) : World where
  statusLedgerPath := some ledgerPath
  fopen := fun p => if p = ledgerPath then some ⟨content.length, content⟩ else files p

/-- What the fuzzer reads after an execution, when the ledger held `lines`. -/
def Execution.runEnv (ledgerPath : Bytes) (lines : List Bytes) (x : Execution) : RunEnv where
  res := x.res
  signals := x.signals
  world := worldWith ledgerPath (lines ++ [x.line]).flatten x.files

/-- A thing `save_if_interesting` does. -/
inductive SaveEvent where
  | rerun (x : Execution)
  | calibration (x : Execution)
  | addToQueue

/-- The lines that the executions of `save_if_interesting` append. -/
def saveLines : List SaveEvent → List Bytes
  | [] => []
  | .rerun x :: es => x.line :: saveLines es
  | .calibration x :: es => x.line :: saveLines es
  | .addToQueue :: es => saveLines es

/-- The steps of `save_if_interesting`, when the ledger held `lines`. -/
def saveSteps (ledgerPath : Bytes) : List Bytes → List SaveEvent → List SaveStep
  | _, [] => []
  | lines, .rerun x :: es =>
    .rerun (x.runEnv ledgerPath lines) :: saveSteps ledgerPath (lines ++ [x.line]) es
  | lines, .calibration x :: es =>
    .calibration (x.runEnv ledgerPath lines) :: saveSteps ledgerPath (lines ++ [x.line]) es
  | lines, .addToQueue :: es => .addToQueue :: saveSteps ledgerPath lines es

/-- A call of `common_fuzz_stuff`. -/
structure FuzzCall where
  outBuf : Bytes
  reply : RpcReply
  exec : Execution
  /-- How much of its line the harness has written at each attempt to observe. -/
  written : ℕ → ℕ
  signals : Signals
  ledger : AppendIo
  lateSignals : Signals
  clear : ClearIo
  save : List SaveEvent
  saved : Bool
  journal : AppendIo
  commitLedger : AppendIo

/-- The environment of a call, when the ledger held `lines`. -/
def FuzzCall.env (ledgerPath : Bytes) (lines : List Bytes) (c : FuzzCall) : FuzzEnv where
  reply := c.reply
  run := c.exec.runEnv ledgerPath lines
  worlds := fun i =>
    worldWith ledgerPath (lines.flatten ++ c.exec.line.take (c.written i)) c.exec.files
  signals := c.signals
  ledger := c.ledger
  lateSignals := c.lateSignals
  clear := c.clear
  save := saveSteps ledgerPath (lines ++ [c.exec.line]) c.save
  saved := c.saved
  journal := c.journal
  commitLedger := c.commitLedger

/-- The lines of the executions of a call, as far as it gets to them. -/
def FuzzCall.lines (c : FuzzCall) : List Bytes := c.exec.line :: saveLines c.save

section

variable {R : Type}

/-- What the rest of the fuzzer does between executions: anything but reading the
status ledger. -/
structure Housekeeping (R : Type) where
  update : Afl R → Afl R
  ledgerOffset_eq : ∀ s, (update s).sec.ledgerOffset = s.sec.ledgerOffset
  lastExecSeq_eq : ∀ s, (update s).sec.nvLastExecSeq = s.sec.nvLastExecSeq

/-- One event of a run. -/
inductive RunEvent (R : Type) where
  | housekeeping (h : Housekeeping R)
  /-- An execution outside `common_fuzz_stuff`: dry run, calibration, trim, sync. -/
  | exec (x : Execution)
  | fuzz (c : FuzzCall)

/-- The fuzzer and the lines in the status ledger. -/
structure FuzzerRun (R : Type) where
  lines : List Bytes
  afl : Afl R

/-- The step function of a run; the output is the observation that a call of
`common_fuzz_stuff` uses.  Every execution appends its line. -/
def runStep [Field R] [LinearOrder R] (cfg : AflCfg R) (ledgerPath : Bytes) (r : FuzzerRun R) :
    RunEvent R → Option NvStateObs × FuzzerRun R
  | .housekeeping h => (none, ⟨r.lines, h.update r.afl⟩)
  | .exec x =>
    (none, ⟨r.lines ++ [x.line], (fuzzRunTarget cfg (x.runEnv ledgerPath r.lines) r.afl).2⟩)
  | .fuzz c =>
    let result := commonFuzzStuff cfg (c.env ledgerPath r.lines) c.outBuf r.afl
    let executions := result.afl.totalExecs - r.afl.totalExecs
    (result.obs, ⟨r.lines ++ c.lines.take executions, result.afl⟩)

/-! ## Lines in step with the reader -/

/-- The `exec_seq` of a line, 0 when it has none. -/
def lineSeq (lib : CLib) (line : Bytes) : ℕ :=
  match lib.cJSONParse (cstr line) with
  | none => 0
  | some root => (nvParseStatusDoc lib root).execSeq

/-- A complete line the observer can take, with an `exec_seq` above those of all
the lines before it. -/
structure NextLine (lib : CLib) (lines : List Bytes) (line : Bytes) : Prop where
  complete : ByteLog.IsLine nl line
  short : line.length ≤ 65536
  pos : 0 < lineSeq lib line
  increasing : ∀ l ∈ lines, lineSeq lib l < lineSeq lib line

/-- Every line was consumed. -/
structure Synced (lib : CLib) (lines : List Bytes) (s : SecState) : Prop where
  offset : s.ledgerOffset = lines.flatten.length
  mark : s.nvLastExecSeq = 0 ∨ ∃ l ∈ lines, lineSeq lib l = s.nvLastExecSeq

theorem NextLine.above_mark {lib : CLib} {lines : List Bytes} {line : Bytes} {s : SecState}
    (h : NextLine lib lines line) (hs : Synced lib lines s) :
    s.nvLastExecSeq < lineSeq lib line := by
  rcases hs.mark with hzero | ⟨l, hl, heq⟩
  · rw [hzero]
    exact h.pos
  · rw [← heq]
    exact h.increasing l hl

theorem worldWith_showsLedger {ledgerPath : Bytes} (hpath : ledgerPath ≠ []) (content : Bytes)
    (files : Bytes → Option FileView) :
    (worldWith ledgerPath content files).ShowsLedger content :=
  ⟨ledgerPath, content.length, hpath, rfl, if_pos rfl⟩

/-- A call accepts such a line. -/
theorem acceptLine_next {lib : CLib} {lines : List Bytes} {line : Bytes} {marks : Marks}
    {minimumExecSeq : ℕ} (h : NextLine lib lines line) (hmark : marks.1 < lineSeq lib line)
    (hmin : minimumExecSeq < lineSeq lib line) :
    acceptLine lib minimumExecSeq marks line = some (lineSeq lib line, marks.2) := by
  have hpos := h.pos
  have hshort := h.short
  rw [acceptLine, if_neg (by omega)]
  rw [lineSeq] at hpos hmark hmin ⊢
  cases hparse : lib.cJSONParse (cstr line) with
  | none =>
    rw [hparse] at hpos
    exact absurd hpos (Nat.lt_irrefl 0)
  | some root =>
    simp only [hparse] at hpos hmark hmin ⊢
    have hbelow : belowMinimum minimumExecSeq (nvParseStatusDoc lib root) = false := by
      simp [belowMinimum]
      omega
    rw [hbelow, nvStatusIsFresh_of_pos hpos, if_neg (by simp), if_neg (by omega)]

section Observe

variable {lib : CLib} {target : NvTargetCfg} {lines : List Bytes} {line path : Bytes}
  {w : World} {s : SecState}

/-- One call that finds the next line complete consumes it. -/
theorem observe_next (hs : Synced lib lines s) (h : NextLine lib lines line)
    (hw : w.ShowsLedger (lines ++ [line]).flatten) {minimumExecSeq : ℕ}
    (hmin : minimumExecSeq ≤ s.nvLastExecSeq) :
    let o := nvObserveSecurityStateOnce lib target w path minimumExecSeq s
    o.1.has = true ∧ o.1.execSeq = lineSeq lib line ∧ FromLine lib o.1 line ∧
      Synced lib (lines ++ [line]) o.2 := by
  have habove := h.above_mark hs
  have hcontent : (lines ++ [line]).flatten.drop s.ledgerOffset = line ++ [] := by
    rw [hs.offset, List.flatten_append, List.drop_left, List.flatten_singleton, List.append_nil]
  have hstep := @observe_ledger_step lib target w _ [] line path minimumExecSeq s hw hcontent
    h.complete
  rw [acceptLine_next h habove (hmin.trans_lt habove)] at hstep
  obtain ⟨hhas, hmarks, hoffset⟩ := hstep
  have hfrom := observe_fromLine lib target hw hcontent h.complete hhas
  have hmark : (nvObserveSecurityStateOnce lib target w path minimumExecSeq s).2.nvLastExecSeq =
      lineSeq lib line := congrArg Prod.fst hmarks
  refine ⟨hhas, ?_, hfrom, ?_, .inr ⟨line, by simp, hmark.symm⟩⟩
  · obtain ⟨root, _, _, hparse, hobs⟩ := hfrom
    rw [hobs, lineSeq, hparse]
    rfl
  · rw [hoffset, hs.offset]
    simp

/-- A call that finds the next line incomplete changes nothing. -/
theorem observe_incomplete (hs : Synced lib lines s) (h : NextLine lib lines line) {n : ℕ}
    (hn : n < line.length) (hw : w.ShowsLedger (lines.flatten ++ line.take n))
    (minimumExecSeq : ℕ) :
    nvObserveSecurityStateOnce lib target w path minimumExecSeq s = (.zero, s) := by
  have hnotMem := h.complete.notMem_take hn
  have hfetch : nvFetchStatus w path s.ledgerOffset = .nothing := by
    rw [nvFetchStatus_ledger hw, hs.offset, List.drop_left]
    simp only [ByteLog.firstLine_of_notMem hnotMem]
    refine if_neg fun hlast => hnotMem (List.mem_of_getLast? hlast)
  rw [nvObserveSecurityStateOnce, hfetch]

/-- The loop after an execution waits for the line of that execution and consumes
it. -/
theorem nvObserveAttempts_next (cfg : AflCfg R) {ledgerPath : Bytes} (hpath : ledgerPath ≠ [])
    {files : Bytes → Option FileView} {written : ℕ → ℕ} (hs : Synced cfg.lib lines s)
    (h : NextLine cfg.lib lines line) (left attempt : ℕ)
    (hwritten : ∃ i, attempt ≤ i ∧ i < attempt + left ∧ line.length ≤ written i) :
    ∃ obs s', nvObserveAttempts cfg
        (fun i => worldWith ledgerPath (lines.flatten ++ line.take (written i)) files) path
        s.nvLastExecSeq left attempt s = (some obs, s') ∧
      FromLine cfg.lib obs line ∧ Synced cfg.lib (lines ++ [line]) s' := by
  induction left generalizing attempt with
  | zero =>
    obtain ⟨i, hle, hlt, -⟩ := hwritten
    omega
  | succ left ih =>
    rw [nvObserveAttempts]
    by_cases hfull : line.length ≤ written attempt
    · have hcontent : lines.flatten ++ line.take (written attempt) =
          (lines ++ [line]).flatten := by
        rw [List.take_of_length_le hfull, List.flatten_append, List.flatten_singleton]
      have hw := worldWith_showsLedger hpath (lines ++ [line]).flatten files
      rw [hcontent]
      obtain ⟨hhas, hseq, hfrom, hsynced⟩ :=
        @observe_next cfg.lib cfg.target lines line path _ s hs h hw _ (Nat.le_refl _)
      have habove := h.above_mark hs
      rw [if_pos (by rw [hhas, hseq]; simp [habove])]
      exact ⟨_, _, rfl, hfrom, hsynced⟩
    · have hnone := @observe_incomplete cfg.lib cfg.target lines line path _ s hs h _
        (Nat.lt_of_not_le hfull) (worldWith_showsLedger hpath _ files) s.nvLastExecSeq
      rw [hnone, if_neg (by simp [NvStateObs.zero])]
      obtain ⟨i, hle, hlt, hi⟩ := hwritten
      have hne : i ≠ attempt := fun heq => hfull (heq ▸ hi)
      exact ih (attempt + 1) ⟨i, by omega, by omega, hi⟩

end Observe

/-! ## What keeps the reader in step -/

/-- An execution that observes its own line when it is not counted: it ends well
and has a status document. -/
structure ObservesOwn (cfg : AflCfg R) (ledgerPath : Bytes) (lines : List Bytes)
    (x : Execution) : Prop where
  next : NextLine cfg.lib lines x.line
  ok : x.res = .ok
  status : (nvReadStatusJson cfg (x.runEnv ledgerPath lines).world).isSome = true
  path : ∃ c cs, cfg.nvStatusPath = some (c :: cs)

/-- `save_if_interesting` executes the target for calibration only, and every
calibration run observes its own line. -/
def SaveObservesOwn (cfg : AflCfg R) (ledgerPath : Bytes) : List Bytes → List SaveEvent → Prop
  | _, [] => True
  | _, .rerun _ :: _ => False
  | lines, .calibration x :: es =>
    ObservesOwn cfg ledgerPath lines x ∧ SaveObservesOwn cfg ledgerPath (lines ++ [x.line]) es
  | lines, .addToQueue :: es => SaveObservesOwn cfg ledgerPath lines es

/-- The event leaves no line unread: an execution outside `common_fuzz_stuff` is
not counted and observes its own line; the execution of a fuzzing iteration is
counted, its line is there before the observer gives up, and what it saves is
calibrated by executions that observe their own lines. -/
def OwnLine (cfg : AflCfg R) (ledgerPath : Bytes) (r : FuzzerRun R) : RunEvent R → Prop
  | .housekeeping _ => True
  | .exec x => r.afl.counted = false ∧ ObservesOwn cfg ledgerPath r.lines x
  | .fuzz c =>
    (passesFilters cfg (c.env ledgerPath r.lines) c.outBuf r.afl).isSome = true →
      r.afl.counted = true ∧ NextLine cfg.lib r.lines c.exec.line ∧
        (∃ i < 1000, c.exec.line.length ≤ c.written i) ∧
        SaveObservesOwn cfg ledgerPath (r.lines ++ [c.exec.line]) c.save

section Steps

variable (cfg : AflCfg R) {ledgerPath : Bytes} {lines : List Bytes} {s : Afl R}

/-- An uncounted execution consumes its own line. -/
theorem ObservesOwn.synced {x : Execution} (h : ObservesOwn cfg ledgerPath lines x)
    (hpath : ledgerPath ≠ []) (hcounted : s.counted = false)
    (hs : Synced cfg.lib lines s.sec) :
    Synced cfg.lib (lines ++ [x.line])
      (fuzzRunTarget cfg (x.runEnv ledgerPath lines) s).2.sec := by
  obtain ⟨c, cs, hstatus⟩ := h.path
  rw [fuzzRunTarget_sec_of_uncounted cfg _ s hcounted h.ok h.status, observeUncounted, hstatus]
  exact (observe_next hs h.next (worldWith_showsLedger hpath _ x.files) (Nat.zero_le _)).2.2.2

theorem saveSteps_synced (hpath : ledgerPath ≠ []) {es : List SaveEvent}
    (h : SaveObservesOwn cfg ledgerPath lines es) (hs : Synced cfg.lib lines s.sec) :
    let t := (saveSteps ledgerPath lines es).foldl (saveStep cfg) s
    Synced cfg.lib (lines ++ saveLines es) t.sec ∧
      t.totalExecs = s.totalExecs + (saveLines es).length := by
  induction es generalizing lines s with
  | nil => exact ⟨by simpa [saveSteps, saveLines] using hs, rfl⟩
  | cons e es ih =>
    cases e with
    | rerun x => exact absurd h id
    | calibration x =>
      let u : Afl R := { s with stageName := some (ascii "calibration") }
      have hcounted : u.counted = false := by simp [u, Afl.counted]
      have hstep : Synced cfg.lib (lines ++ [x.line])
          (saveStep cfg s (.calibration (x.runEnv ledgerPath lines))).sec :=
        h.1.synced cfg hpath hcounted (s := u) hs
      have htotal : (saveStep cfg s (.calibration (x.runEnv ledgerPath lines))).totalExecs =
          s.totalExecs + 1 := fuzzRunTarget_totalExecs cfg _ u
      obtain ⟨hsynced, htotals⟩ := ih h.2 hstep
      refine ⟨?_, htotals.trans ?_⟩
      · rw [List.append_assoc, List.singleton_append] at hsynced
        exact hsynced
      · rw [htotal, saveLines, List.length_cons]
        omega
    | addToQueue =>
      have hstep : Synced cfg.lib lines (saveStep cfg s .addToQueue).sec := ⟨hs.offset, hs.mark⟩
      exact ih h hstep

/-- What the part of `common_fuzz_stuff` behind the observation does to the reader:
nothing, or what `save_if_interesting` does. -/
inductive AfterObserve (cfg : AflCfg R) (steps : List SaveStep) (s : Afl R) : Afl R → Prop where
  | unsaved {t : Afl R} (hsec : t.sec = s.sec) (htotal : t.totalExecs = s.totalExecs) :
      AfterObserve cfg steps s t
  | saved {t u : Afl R} (husec : u.sec = s.sec) (hutotal : u.totalExecs = s.totalExecs)
      (hsec : t.sec = (steps.foldl (saveStep cfg) u).sec)
      (htotal : t.totalExecs = (steps.foldl (saveStep cfg) u).totalExecs) :
      AfterObserve cfg steps s t

variable [Field R] [LinearOrder R] (env : FuzzEnv) (selectedArm : NvArmId) (obs : NvStateObs)

/-- Handing over the reward does not touch the reader. -/
theorem fuzzKept_frame (s : Afl R) :
    let r := fuzzKept cfg env selectedArm obs s
    r.obs = some obs ∧ r.afl.sec = s.sec ∧ r.afl.totalExecs = s.totalExecs := by
  have hreward : let r := fuzzReward cfg env selectedArm obs s
      r.obs = some obs ∧ r.afl.sec = s.sec ∧ r.afl.totalExecs = s.totalExecs := by
    simp only [fuzzReward, fuzzCommitted]
    generalize nvMabJournalCommitUpdate cfg.fmt cfg.audit env.journal _ _ = commit
    generalize nvExecutionLedgerAppend cfg.audit env.commitLedger _ _ = ledger
    split_ifs <;> exact ⟨rfl, rfl, rfl⟩
  simp only [fuzzKept]
  split_ifs
  · exact ⟨rfl, rfl, rfl⟩
  · exact ⟨rfl, rfl, rfl⟩
  · exact ⟨rfl, rfl, rfl⟩
  · exact hreward
  · exact ⟨rfl, rfl, rfl⟩

theorem fuzzAlive_after (fault : FsrvRunResult) (s : Afl R) :
    (fuzzAlive cfg env selectedArm fault obs s).obs = some obs ∧
      AfterObserve cfg env.save s (fuzzAlive cfg env selectedArm fault obs s).afl := by
  have hsec := Afl.receive_sec s env.lateSignals
  have htotal := Afl.receive_totalExecs s env.lateSignals
  simp only [fuzzAlive]
  split_ifs
  · exact ⟨rfl, .unsaved hsec htotal⟩
  · exact ⟨rfl, .unsaved hsec htotal⟩
  · exact ⟨rfl, .unsaved hsec htotal⟩
  · exact ⟨rfl, .unsaved hsec htotal⟩
  · let u := (s.receive env.lateSignals).countTmout fault
    obtain ⟨hobs, hksec, hktotal⟩ :=
      fuzzKept_frame cfg env selectedArm obs (saveIfInteresting cfg env u)
    have hsave : (saveIfInteresting cfg env u).sec = (env.save.foldl (saveStep cfg) u).sec ∧
        (saveIfInteresting cfg env u).totalExecs =
          (env.save.foldl (saveStep cfg) u).totalExecs := by
      simp only [saveIfInteresting]
      split_ifs <;> exact ⟨rfl, rfl⟩
    exact ⟨hobs, .saved (u := u) hsec htotal (hksec.trans hsave.1) (hktotal.trans hsave.2)⟩

theorem fuzzTerminal_after (fault : FsrvRunResult) (s : Afl R) :
    (fuzzTerminal cfg env selectedArm fault obs s).obs = some obs ∧
      AfterObserve cfg env.save s (fuzzTerminal cfg env selectedArm fault obs s).afl := by
  have halive : ∀ t : Afl R, t.sec = s.sec → t.totalExecs = s.totalExecs →
      (fuzzAlive cfg env selectedArm fault obs t).obs = some obs ∧
        AfterObserve cfg env.save s (fuzzAlive cfg env selectedArm fault obs t).afl := by
    intro t htsec httotal
    obtain ⟨hobs, hafter⟩ := fuzzAlive_after cfg env selectedArm obs fault t
    refine ⟨hobs, ?_⟩
    cases hafter with
    | unsaved hsec htotal => exact .unsaved (hsec.trans htsec) (htotal.trans httotal)
    | saved husec hutotal hsec htotal =>
      exact .saved (husec.trans htsec) (hutotal.trans httotal) hsec htotal
  simp only [fuzzTerminal]
  split_ifs
  · exact ⟨rfl, .unsaved rfl rfl⟩
  · exact halive _ rfl rfl
  · exact halive _ rfl rfl
  · exact halive _ rfl rfl

end Steps

/-! ## Attribution over runs -/

section Attribution

variable [Field R] [LinearOrder R] (cfg : AflCfg R) {ledgerPath : Bytes}

omit [Field R] [LinearOrder R] in
/-- The execution of a fuzzing iteration: the observation is that of its own line,
and the reader is in step again. -/
theorem runAndObserve_own (hpath : ledgerPath ≠ []) {lines : List Bytes} {c : FuzzCall}
    {s : Afl R} (hs : Synced cfg.lib lines s.sec) (hcounted : s.counted = true)
    (hnext : NextLine cfg.lib lines c.exec.line)
    (hwritten : ∃ i < 1000, c.exec.line.length ≤ c.written i) :
    let o := runAndObserve cfg (c.env ledgerPath lines) s
    FromLine cfg.lib o.1 c.exec.line ∧ Synced cfg.lib (lines ++ [c.exec.line]) o.2.sec ∧
      o.2.totalExecs = s.totalExecs + 1 := by
  obtain ⟨i, hlt, hle⟩ := hwritten
  have hsec := fuzzRunTarget_sec_of_counted cfg (c.exec.runEnv ledgerPath lines) s hcounted
  obtain ⟨obs, sec, hattempts, hfrom, hsynced⟩ :=
    @nvObserveAttempts_next R lines c.exec.line cfg.sp s.sec cfg ledgerPath hpath c.exec.files
      c.written hs hnext 1000 0 ⟨i, Nat.zero_le i, by omega, hle⟩
  have hobserve : nvObserveSecurityStateAfterExecution cfg (c.env ledgerPath lines).worlds cfg.sp
      (fuzzRunTarget cfg (c.exec.runEnv ledgerPath lines) s).2.sec = (obs, sec) := by
    rw [nvObserveSecurityStateAfterExecution, hsec]
    simp only [FuzzCall.env, hattempts]
  simp only [runAndObserve, show (c.env ledgerPath lines).run = c.exec.runEnv ledgerPath lines
    from rfl, hobserve, Afl.receive_sec, Afl.receive_totalExecs]
  exact ⟨hfrom, hsynced, fuzzRunTarget_totalExecs cfg _ s⟩

/-- One event keeps the reader in step, and a call of `common_fuzz_stuff` uses the
observation of its own line. -/
theorem runStep_own (hpath : ledgerPath ≠ []) {r : FuzzerRun R} {e : RunEvent R}
    (hs : Synced cfg.lib r.lines r.afl.sec) (he : OwnLine cfg ledgerPath r e) :
    Synced cfg.lib (runStep cfg ledgerPath r e).2.lines (runStep cfg ledgerPath r e).2.afl.sec ∧
      ∀ c obs, e = .fuzz c → (runStep cfg ledgerPath r e).1 = some obs →
        FromLine cfg.lib obs c.exec.line := by
  cases e with
  | housekeeping h =>
    refine ⟨⟨?_, ?_⟩, by simp⟩
    · exact (h.ledgerOffset_eq r.afl).trans hs.offset
    · rw [runStep, h.lastExecSeq_eq]
      exact hs.mark
  | exec x => exact ⟨he.2.synced cfg hpath he.1 hs, by simp⟩
  | fuzz c =>
    cases hpass : passesFilters cfg (c.env ledgerPath r.lines) c.outBuf r.afl with
    | none =>
      obtain ⟨t, hcall, -, hsec, htotal⟩ := commonFuzzStuff_of_rejected hpass
      simp only [runStep, hcall, fuzzCleared, hsec, htotal, Nat.sub_self, List.take_zero,
        List.append_nil]
      exact ⟨hs, by simp⟩
    | some t =>
      obtain ⟨hcall, -, hsec, htotal, hcounted⟩ := commonFuzzStuff_of_passes hpass
      obtain ⟨hc, hnext, hwritten, hsave⟩ := he (by rw [hpass]; rfl)
      obtain ⟨hfrom, hsynced, hone⟩ := runAndObserve_own cfg hpath (c := c) (s := t)
        (by rw [hsec]; exact hs) (by rw [hcounted]; exact hc) hnext hwritten
      obtain ⟨hobs, hafter⟩ := fuzzTerminal_after cfg (c.env ledgerPath r.lines)
        r.afl.nvMab.selectedArm (runAndObserve cfg (c.env ledgerPath r.lines) t).1
        c.exec.res (runAndObserve cfg (c.env ledgerPath r.lines) t).2
      have hresult : commonFuzzStuff cfg (c.env ledgerPath r.lines) c.outBuf r.afl =
          fuzzTerminal cfg (c.env ledgerPath r.lines) r.afl.nvMab.selectedArm c.exec.res
            (runAndObserve cfg (c.env ledgerPath r.lines) t).1
            (runAndObserve cfg (c.env ledgerPath r.lines) t).2 := hcall
      rw [htotal] at hone
      simp only [runStep, hresult, hobs, Option.some.injEq]
      refine ⟨?_, fun c' obs hc' hobs' => ?_⟩
      · cases hafter with
        | unsaved hsec' htotal' =>
          rw [hsec', htotal', hone, Nat.add_sub_cancel_left]
          exact hsynced
        | saved husec hutotal hsec' htotal' =>
          rename_i u
          obtain ⟨hsaved, hsaves⟩ := saveSteps_synced cfg (s := u) hpath hsave
            (by rw [husec]; exact hsynced)
          have hall : c.lines.length ≤ 1 + (saveLines c.save).length := by
            rw [FuzzCall.lines, List.length_cons, Nat.add_comm]
          have hcount : ((c.env ledgerPath r.lines).save.foldl (saveStep cfg) u).totalExecs -
              r.afl.totalExecs = 1 + (saveLines c.save).length := by
            rw [show (c.env ledgerPath r.lines).save =
              saveSteps ledgerPath (r.lines ++ [c.exec.line]) c.save from rfl, hsaves, hutotal, hone]
            omega
          rw [hsec', htotal', hcount, List.take_of_length_le hall, FuzzCall.lines,
            List.append_cons]
          exact hsaved
      · obtain rfl := RunEvent.fuzz.inj hc'
        exact hobs' ▸ hfrom

/-- In every run whose events each leave no line unread, every observation that
`common_fuzz_stuff` uses is that of the line its own execution appended. -/
theorem observation_is_own (hpath : ledgerPath ≠ []) {r : FuzzerRun R}
    (hs : Synced cfg.lib r.lines r.afl.sec) {es : List (RunEvent R)} {c : FuzzCall}
    (hG : Machine.Meets (runStep cfg ledgerPath) (OwnLine cfg ledgerPath) r (es ++ [.fuzz c]))
    {obs : NvStateObs}
    (hobs : (runStep cfg ledgerPath (Machine.run (runStep cfg ledgerPath) r es) (.fuzz c)).1 =
      some obs) :
    FromLine cfg.lib obs c.exec.line := by
  obtain ⟨hpast, hlast⟩ := (Machine.meets_concat _ _ _ _ _).mp hG
  have hsynced : Synced cfg.lib (Machine.run (runStep cfg ledgerPath) r es).lines
      (Machine.run (runStep cfg ledgerPath) r es).afl.sec :=
    Machine.run_inv_of_meets (runStep cfg ledgerPath) (OwnLine cfg ledgerPath)
      (fun r => Synced cfg.lib r.lines r.afl.sec)
      (fun r e hr he => (runStep_own cfg hpath hr he).1) hs hpast
  exact (runStep_own cfg hpath hsynced hlast).2 c obs rfl hobs

end Attribution

end

/-! ## Two runs -/

/-- A fuzzer in ledger mode. -/
def ledgerCfg : AflCfg ℚ where
  lib := twoDocsLib
  fmt := ratFmt
  target := ⟨false, []⟩
  nvTask := ⟨false, .finite 0, none, 0⟩
  testcase := .plain
  audit := ⟨none, none⟩
  nvStatusPath := some (ascii "status.json")
  outDir := ascii "out"

/-- An execution that ends well and leaves its document in the status file too. -/
def goodExecution (line : Bytes) : Execution where
  res := .ok
  signals := .none
  line := line
  files := fun _ => some ⟨line.length, line⟩

/-- A fuzzing iteration that finds its line at once and keeps nothing. -/
def plainCall (line : Bytes) : FuzzCall where
  outBuf := ascii "x"
  reply := .fail
  exec := goodExecution line
  written := fun _ => line.length
  signals := .none
  ledger := .ok
  lateSignals := .none
  clear := ⟨.ok, .ok⟩
  save := []
  saved := false
  journal := .ok
  commitLedger := .ok

/-- A fuzzer that works on its first queue entry in this stage, with an empty
ledger. -/
def inStage (stageName : String) : FuzzerRun ℚ where
  lines := []
  afl :=
    let s : Afl ℚ := .init (.init (some ⟨2, isPow2_two⟩))
    { s with stageName := some (ascii stageName), sec := { s.sec with queueCur := some 0 } }

/-- The next stage begins. -/
def enterStage (stageName : String) : Housekeeping ℚ where
  update := fun s => { s with stageName := some (ascii stageName) }
  ledgerOffset_eq := fun _ => rfl
  lastExecSeq_eq := fun _ => rfl

theorem inStage_synced (stageName : String) :
    Synced ledgerCfg.lib (inStage stageName).lines (inStage stageName).afl.sec :=
  ⟨rfl, .inl rfl⟩

theorem nextLine_first : NextLine twoDocsLib [] firstDocLine :=
  ⟨firstDocLine_isLine, by decide, by decide, by simp⟩

theorem nextLine_second : NextLine twoDocsLib [firstDocLine] secondDocLine :=
  ⟨⟨ascii "\x7b\"exec_seq\":2\x7d", rfl, by decide⟩, by decide, by decide,
    by simp only [List.mem_singleton, forall_eq]; decide⟩

/-- An execution in the given stage, and the next stage. -/
def oneExecution : List (RunEvent ℚ) :=
  [.exec (goodExecution firstDocLine), .housekeeping (enterStage "havoc")]

/-- What a fuzzing iteration behind an execution in the given stage observes. -/
def observedAfter (stageName : String) : Option NvStateObs :=
  (runStep ledgerCfg (ascii "ledger")
    (Machine.run (runStep ledgerCfg (ascii "ledger")) (inStage stageName) oneExecution)
    (.fuzz (plainCall secondDocLine))).1

/-- After a calibration run a fuzzing iteration observes its own line. -/
theorem observation_is_own_after_calibration :
    ∃ obs, observedAfter "calibration" = some obs ∧ FromLine twoDocsLib obs secondDocLine := by
  have hG : Machine.Meets (runStep ledgerCfg (ascii "ledger"))
      (OwnLine ledgerCfg (ascii "ledger")) (inStage "calibration")
      (oneExecution ++ [.fuzz (plainCall secondDocLine)]) := by
    refine ⟨⟨by decide, nextLine_first, rfl, by decide, _, _, rfl⟩, trivial,
      fun _ => ⟨by decide, nextLine_second, ⟨0, by decide, Nat.le_refl _⟩, trivial⟩,
      trivial⟩
  have hsome : (observedAfter "calibration").isSome = true := by decide
  obtain ⟨obs, hobs⟩ := Option.isSome_iff_exists.mp hsome
  exact ⟨obs, hobs, observation_is_own ledgerCfg (by decide) (inStage_synced _) hG hobs⟩

/-- After a trim execution it observes the line of that execution, although both
lines are complete and in order. -/
theorem trim_line_misattributed :
    NextLine twoDocsLib [] firstDocLine ∧ NextLine twoDocsLib [firstDocLine] secondDocLine ∧
      ∃ obs, observedAfter "trim 4/4" = some obs ∧ ¬ FromLine twoDocsLib obs secondDocLine := by
  have hfirst : (observedAfter "trim 4/4").map NvStateObs.execSeq = some 1 := by decide
  have hown : lineSeq twoDocsLib secondDocLine = 2 := by decide
  obtain ⟨obs, hobs, hseq⟩ := Option.map_eq_some_iff.mp hfirst
  refine ⟨nextLine_first, nextLine_second, obs, hobs, fun hfrom => ?_⟩
  obtain ⟨root, h, isNew, hparse, rfl⟩ := hfrom
  rw [lineSeq, hparse] at hown
  exact absurd (hown.symm.trans hseq) (by decide)

end AflNv
