import Mathlib.Algebra.Field.Rat
import AflNv.Journal
import AflNv.Lib.Machine

/-!
# Replaying the journal of the bandit

A run makes any sequence of commits, events and clears, with any outcome of the
system calls.  The aggregate is updated before its line is appended, so a lost
line makes the two disagree; the audit flag records exactly that.

`ReplayInv` says what the journal holds as long as the flag is down: complete
lines, as many as were counted, whose update lines replay to the aggregate.
`journal_replay` reads it off the bytes of the file.
-/

namespace AflNv

open AflNv.Lib

section

variable {R : Type} [Field R] [LinearOrder R] (fmt : DoubleFmt R)

/-! ## Reading a line -/

/-- The record an update line holds; `none` for any other line. -/
def readMabUpdate (line : Bytes) : Option (MabUpdateRecord R) :=
  match Template.scan mabUpdateTemplate line with
  | some [execSeq, selectedArm, actualUsedArm, armMatch, reward, harnessNativeCoverage,
      securityState, exception, recovery, http4xxPenalty, securityStateNew, pullsBefore,
      pullsAfter, sumBefore, sumAfter, meanAfter, positiveAfter, updateSource] =>
    some
      { update :=
          { execSeq := readNat execSeq
            selectedArm := readInt selectedArm
            actualUsedArm := readInt actualUsedArm
            armMatch := readBool armMatch
            reward := fmt.read reward
            harnessNativeCoverage := fmt.read harnessNativeCoverage
            securityState := fmt.read securityState
            exception := fmt.read exception
            recovery := fmt.read recovery
            http4xxPenalty := fmt.read http4xxPenalty
            securityStateNew := UInt8.ofNat (readNat securityStateNew)
            updateSource := UInt8.ofNat (readNat updateSource) }
        pullsBefore := readNat pullsBefore
        pullsAfter := readNat pullsAfter
        sumBefore := fmt.read sumBefore
        sumAfter := fmt.read sumAfter
        meanAfter := fmt.read meanAfter
        positiveAfter := readNat positiveAfter }
  | _ => none

omit [Field R] [LinearOrder R] in
theorem MabUpdateRecord.values_bytes (r : MabUpdateRecord R) :
    ∀ v ∈ r.values fmt, ∀ b ∈ v, isDelimiter b = false := by
  simp only [MabUpdateRecord.values, List.forall_mem_cons]
  exact ⟨showNat_bytes _, showInt_bytes _, showInt_bytes _, showBool_bytes _,
    fmt.print_bytes _, fmt.print_bytes _, fmt.print_bytes _, fmt.print_bytes _,
    fmt.print_bytes _, fmt.print_bytes _, showNat_bytes _, showNat_bytes _, showNat_bytes _,
    fmt.print_bytes _, fmt.print_bytes _, fmt.print_bytes _, showNat_bytes _, showNat_bytes _,
    fun v hv => absurd hv List.not_mem_nil⟩

omit [Field R] [LinearOrder R] in
/-- An update line reads back as the record it was printed from. -/
theorem readMabUpdate_line (r : MabUpdateRecord R) : readMabUpdate fmt (r.line fmt) = some r := by
  have hfits : Template.Fits mabUpdateTemplate (r.values fmt) := by
    exact Template.fits_of_forall isDelimiter rfl (by decide) (r.values_bytes fmt)
  rw [readMabUpdate, MabUpdateRecord.line, Template.scan_fill hfits, MabUpdateRecord.values]
  simp only [readNat_showNat, readInt_showInt, readBool_showBool, fmt.read_print,
    UInt8.ofNat_toNat]

/-- Text that is printed into a JSON string without escaping and stays that
string: no quote, no backslash, no control character. -/
def PlainText (text : Bytes) : Prop := ∀ b ∈ text, 32 ≤ b ∧ b ≠ 34 ∧ b ≠ 92

theorem PlainText.nl_notMem {text : Bytes} (h : PlainText text) : nl ∉ text := fun hmem =>
  absurd (h nl hmem).1 (by decide)

theorem PlainText.quote_notMem {text : Bytes} (h : PlainText text) : (34 : UInt8) ∉ text :=
  fun hmem => (h 34 hmem).2.1 rfl

omit [Field R] [LinearOrder R] in
/-- An event line is no update line. -/
theorem readMabUpdate_eventLine {event : Bytes} (hevent : PlainText event) (reason : Bytes)
    (selectedArm actualUsedArm : NvArmId) :
    readMabUpdate fmt (mabEventLine event reason selectedArm actualUsedArm) = none := by
  have hprefix : ¬ ascii "\x7b\"schema_version\":1,\"event\":\"mab_update\",\"exec_seq\":" <+:
      mabEventLine event reason selectedArm actualUsedArm := by
    rintro ⟨tail, h⟩
    have hstart : ascii "\x7b\"schema_version\":1,\"event\":\"mab_update\",\"exec_seq\":" =
        ascii "\x7b\"schema_version\":1,\"event\":\"" ++
          (ascii "mab_update" ++ 34 :: ascii ",\"exec_seq\":") := by decide
    have hline : mabEventLine event reason selectedArm actualUsedArm =
        ascii "\x7b\"schema_version\":1,\"event\":\"" ++
          (event ++ 34 :: (ascii ",\"reason\":\"" ++ (reason ++ Template.fill
            (mabEventTemplate.drop 2) [showInt selectedArm, showInt actualUsedArm]))) := by
      show ascii "\x7b\"schema_version\":1,\"event\":\"" ++ event ++
        ((34 :: ascii ",\"reason\":\"") ++ reason ++ Template.fill
          (mabEventTemplate.drop 2) [showInt selectedArm, showInt actualUsedArm]) = _
      simp only [List.append_assoc, List.cons_append]
    rw [hstart, hline, List.append_assoc, List.append_cancel_left_eq, List.append_assoc,
      List.cons_append] at h
    -- Up to the first quote the two texts hold the event names.
    have hname : ascii "mab_update" = event := by
      have htake := congrArg (List.takeWhile fun b => some (34 : UInt8) ≠ some b) h
      rwa [Template.takeWhile_value (by decide),
        Template.takeWhile_value hevent.quote_notMem] at htake
    rw [hname, List.append_cancel_left_eq, List.cons.injEq] at h
    exact absurd (congrArg (·[2]?) h.2) (by simp [ascii])
  have hscan := @Template.scan_eq_none_of_not_prefix UInt8 _ _
    (ascii ",\"selected_arm\":") (mabUpdateTemplate.drop 2) _ hprefix
  rw [readMabUpdate, show mabUpdateTemplate = _ :: _ :: mabUpdateTemplate.drop 2 from rfl]
  rw [show Template.scan _ _ = none from hscan]

/-! ## Lines -/

omit [Field R] [LinearOrder R] in
theorem MabUpdateRecord.line_isLine (r : MabUpdateRecord R) : ByteLog.IsLine nl (r.line fmt) := by
  refine ⟨Template.fill (mabUpdateTemplate.dropLast ++ [ascii "\x7d"]) (r.values fmt), ?_, ?_⟩
  · rw [← Template.fill_concat, MabUpdateRecord.line]
    exact congrArg (Template.fill · _) (by decide +kernel)
  · intro hmem
    rcases Template.mem_fill hmem with ⟨l, hl, hnl⟩ | ⟨v, hv, hnl⟩
    · revert l
      decide +kernel
    · exact absurd (r.values_bytes fmt v hv nl hnl) (by decide)

theorem mabEventLine_isLine {event reason : Bytes} (hevent : PlainText event)
    (hreason : PlainText reason) (selectedArm actualUsedArm : NvArmId) :
    ByteLog.IsLine nl (mabEventLine event reason selectedArm actualUsedArm) := by
  refine ⟨Template.fill (mabEventTemplate.dropLast ++ [ascii "\x7d"])
    [event, reason, showInt selectedArm, showInt actualUsedArm], ?_, ?_⟩
  · rw [← Template.fill_concat, mabEventLine]
    exact congrArg (Template.fill · _) (by decide)
  · have hint : ∀ z : ℤ, nl ∉ showInt z := fun z hnl =>
      absurd (showInt_bytes z nl hnl) (by decide)
    intro hmem
    rcases Template.mem_fill hmem with ⟨l, hl, hnl⟩ | ⟨v, hv, hnl⟩
    · revert l
      decide
    · simp only [List.mem_cons, List.not_mem_nil, or_false] at hv
      rcases hv with rfl | rfl | rfl | rfl
      · exact hevent.nl_notMem hnl
      · exact hreason.nl_notMem hnl
      · exact hint _ hnl
      · exact hint _ hnl

/-! ## Replay -/

/-- The aggregate that a list of update records stands for. -/
def replay (us : List (MabUpdateRecord R)) : NvMab R :=
  us.foldl (fun mab u => nvMabUpdate mab u.update.actualUsedArm u.update.reward) .zero

theorem replay_concat (us : List (MabUpdateRecord R)) (u : MabUpdateRecord R) :
    replay (us ++ [u]) = nvMabUpdate (replay us) u.update.actualUsedArm u.update.reward := by
  rw [replay, List.foldl_append]
  rfl

/-- An update line for the same arm as an earlier one, with none in between,
starts where that one ended. -/
def Chained (us : List (MabUpdateRecord R)) : Prop :=
  ∀ (i j : ℕ) (u v : MabUpdateRecord R), i < j → us[i]? = some u → us[j]? = some v →
    u.update.actualUsedArm = v.update.actualUsedArm →
    (∀ (k : ℕ) (w : MabUpdateRecord R), i < k → k < j → us[k]? = some w →
      w.update.actualUsedArm ≠ v.update.actualUsedArm) →
    v.pullsBefore = u.pullsAfter ∧ v.sumBefore = u.sumAfter

/-- Every record states its arm before and after its update, in the replay of
the records up to it. -/
def Recorded (us : List (MabUpdateRecord R)) : Prop :=
  ∀ (i : ℕ) (u : MabUpdateRecord R), us[i]? = some u → ∃ a, u.update.actualUsedArm.idx = some a ∧
    u.pullsBefore = ((replay (us.take i)).arms a).pulls ∧
    u.sumBefore = ((replay (us.take i)).arms a).sumReward ∧
    u.pullsAfter = ((replay (us.take (i + 1))).arms a).pulls ∧
    u.sumAfter = ((replay (us.take (i + 1))).arms a).sumReward

theorem Recorded.concat {us : List (MabUpdateRecord R)} (h : Recorded us)
    {u : MabUpdateRecord R} {a : ArmIdx} (harm : u.update.actualUsedArm.idx = some a)
    (hpulls : u.pullsBefore = ((replay us).arms a).pulls)
    (hsum : u.sumBefore = ((replay us).arms a).sumReward)
    (hpulls' : u.pullsAfter = ((replay (us ++ [u])).arms a).pulls)
    (hsum' : u.sumAfter = ((replay (us ++ [u])).arms a).sumReward) : Recorded (us ++ [u]) := by
  intro i v hv
  rcases Nat.lt_trichotomy i us.length with hi | rfl | hi
  · rw [List.getElem?_append_left hi] at hv
    rw [List.take_append_of_le_length (by omega), List.take_append_of_le_length (by omega)]
    exact h i v hv
  · rw [List.getElem?_append_right (Nat.le_refl _), Nat.sub_self] at hv
    obtain rfl := Option.some.inj hv
    rw [List.take_append_of_le_length (Nat.le_refl _), List.take_length,
      List.take_of_length_le (by simp)]
    exact ⟨a, harm, hpulls, hsum, hpulls', hsum'⟩
  · rw [List.getElem?_eq_none (by simp; omega)] at hv
    exact absurd hv (by simp)

/-- Updates of other arms leave an arm alone. -/
theorem nvMabUpdate_arms_of_ne {mab : NvMab R} {arm : NvArmId} {a : ArmIdx} {reward : R}
    (h : arm.idx ≠ some a) : (nvMabUpdate mab arm reward).arms a = mab.arms a := by
  rw [nvMabUpdate]
  cases harm : arm.idx with
  | none => rfl
  | some b =>
    show Function.update mab.arms b _ a = mab.arms a
    rw [Function.update_of_ne]
    rintro rfl
    exact h harm

theorem Recorded.chained {us : List (MabUpdateRecord R)} (h : Recorded us) : Chained us := by
  intro i j u v hij hu hv harm hmid
  obtain ⟨a, hua, -, -, hpulls, hsum⟩ := h i u hu
  obtain ⟨b, hvb, hpulls', hsum', -, -⟩ := h j v hv
  obtain rfl : a = b := Option.some.inj (hua.symm.trans (harm ▸ hvb))
  -- Nothing between the two lines touches the arm.
  have hsame : ∀ k, i + 1 ≤ k → k ≤ j →
      (replay (us.take k)).arms a = (replay (us.take (i + 1))).arms a := by
    intro k hik
    induction k, hik using Nat.le_induction with
    | base => exact fun _ => rfl
    | succ k hik ih =>
      intro hkj
      have hlt : k < us.length :=
        Nat.lt_trans (by omega) (List.getElem?_eq_some_iff.mp hv).1
      rw [List.take_succ_eq_append_getElem hlt, replay_concat, nvMabUpdate_arms_of_ne, ih (by omega)]
      intro hk
      have hw := hmid k us[k] (by omega) (by omega) (List.getElem?_eq_getElem hlt)
      exact hw ((NvArmId.idx_eq_some hk).trans (NvArmId.idx_eq_some hvb).symm)
  rw [hpulls, hsum, hpulls', hsum', hsame j (by omega) (Nat.le_refl j)]
  exact ⟨rfl, rfl⟩

/-! ## Runs -/

/-- A call of one of the audit functions, with the outcomes of its system calls. -/
inductive JournalOp (R : Type) where
  | commit (io : AppendIo) (update : NvMabJournalUpdate R)
  | appendEvent (io : AppendIo) (event : Bytes) (reason : Option Bytes)
      (selectedArm actualUsedArm : NvArmId)
  | clearPending (io : ClearIo) (reason : Bytes)
  | beginPending (selectedArm actualUsedArm : NvArmId) (iterationId : ℕ) (updateSource : UInt8)

def journalStep (env : AuditEnv) (s : AuditState R) : JournalOp R → Bool × AuditState R
  | .commit io update => nvMabJournalCommitUpdate fmt env io update s
  | .appendEvent io event reason selectedArm actualUsedArm =>
    nvMabJournalAppendEvent env io event reason selectedArm actualUsedArm s
  | .clearPending io reason => nvMabJournalClearPending env io reason s
  | .beginPending selectedArm actualUsedArm iterationId updateSource =>
    (true, { s with
      nvMab := nvMabBeginPending s.nvMab selectedArm actualUsedArm iterationId updateSource })

/-- The texts a call prints are plain, and it does not pass an event off as an
update. -/
def JournalOp.Plain : JournalOp R → Prop
  | .appendEvent _ event reason _ _ =>
    PlainText event ∧ event ≠ ascii "mab_update" ∧ PlainText (reason.getD [])
  | .clearPending _ reason => PlainText reason
  | _ => True

/-- The journal agrees with the aggregate. -/
structure Replays (s : AuditState R) (lines : List Bytes) : Prop where
  file_eq : s.journalFile = lines.flatten
  isLine : ∀ l ∈ lines, ByteLog.IsLine nl l
  count_eq : lines.length = s.nvMabJournalRecordCount
  arms_eq : (replay (lines.filterMap (readMabUpdate fmt))).arms = s.nvMab.arms
  totalPulls_eq :
    (replay (lines.filterMap (readMabUpdate fmt))).totalPulls = s.nvMab.totalPulls
  recorded : Recorded (lines.filterMap (readMabUpdate fmt))

/-- The invariant of a run: an error was flagged, or the journal agrees with the
aggregate. -/
def ReplayInv (s : AuditState R) : Prop :=
  s.nvMabJournalAuditInvalid = true ∨ ∃ lines, Replays fmt s lines

variable {fmt}

/-- The invariant reads five fields only. -/
theorem ReplayInv.congr {s s' : AuditState R} (h : ReplayInv fmt s)
    (hinvalid : s'.nvMabJournalAuditInvalid = s.nvMabJournalAuditInvalid)
    (hfile : s'.journalFile = s.journalFile)
    (hcount : s'.nvMabJournalRecordCount = s.nvMabJournalRecordCount)
    (harms : s'.nvMab.arms = s.nvMab.arms)
    (htotal : s'.nvMab.totalPulls = s.nvMab.totalPulls) : ReplayInv fmt s' := by
  rcases h with h | ⟨lines, h⟩
  · exact .inl (hinvalid.trans h)
  · exact .inr ⟨lines, hfile.trans h.file_eq, h.isLine, h.count_eq.trans hcount.symm,
      h.arms_eq.trans harms.symm, h.totalPulls_eq.trans htotal.symm, h.recorded⟩

theorem ReplayInv.zero : ReplayInv fmt (AuditState.zero : AuditState R) := by
  refine .inr ⟨[], rfl, ?_, rfl, rfl, rfl, ?_⟩
  · intro l hl
    exact absurd hl List.not_mem_nil
  · intro i u hu
    exact absurd hu (by simp)

omit [Field R] [LinearOrder R] in
/-- A journal write adds the whole line and counts it, or raises the flag. -/
theorem nvMabJournalWrite_spec {env : AuditEnv} (hpath : isSetPath env.journalPath = true)
    (io : AppendIo) (line : Bytes) (s : AuditState R) :
    (nvMabJournalWrite env io line s).1 = false ∧
        (nvMabJournalWrite env io line s).2.nvMabJournalAuditInvalid = true ∨
      (nvMabJournalWrite env io line s).1 = true ∧
        (nvMabJournalWrite env io line s).2 =
          { s with
            nvMabJournalEnabled := true
            journalFile := s.journalFile ++ line
            nvMabJournalRecordCount := s.nvMabJournalRecordCount + 1 } := by
  rw [nvMabJournalWrite, if_pos hpath]
  cases hok : (appendFile io s.journalFile line).2 with
  | false =>
    left
    simp [hok]
  | true =>
    right
    simp [hok, appendFile_eq_of_ok hok]

/-- An event keeps the invariant: its line is no update. -/
theorem ReplayInv.appendEvent {env : AuditEnv} (hpath : isSetPath env.journalPath = true)
    {s : AuditState R} (h : ReplayInv fmt s) (io : AppendIo) {event : Bytes}
    {reason : Option Bytes} (hevent : PlainText event) (hreason : PlainText (reason.getD []))
    (selectedArm actualUsedArm : NvArmId) :
    ReplayInv fmt
      (nvMabJournalAppendEvent env io event reason selectedArm actualUsedArm s).2 := by
  rw [nvMabJournalAppendEvent]
  by_cases hempty : event = []
  · rw [if_pos hempty]
    exact h
  rw [if_neg hempty]
  by_cases hlong : (mabEventLine event (reason.getD []) selectedArm actualUsedArm).length ≥ 512
  · rw [if_pos hlong]
    exact h
  rw [if_neg hlong]
  set line := mabEventLine event (reason.getD []) selectedArm actualUsedArm with hline
  have hwrite : ReplayInv fmt (nvMabJournalWrite env io line s).2 := by
    rcases nvMabJournalWrite_spec hpath io line s with ⟨-, hinvalid⟩ | ⟨-, heq⟩
    · exact .inl hinvalid
    · rw [heq]
      rcases h with h | ⟨lines, h⟩
      · exact .inl h
      · have hread : (lines ++ [line]).filterMap (readMabUpdate fmt) =
            lines.filterMap (readMabUpdate fmt) := by
          rw [List.filterMap_append, hline]
          simp [readMabUpdate_eventLine fmt hevent]
        refine .inr ⟨lines ++ [line], ?_, ?_, ?_, ?_, ?_, ?_⟩
        · simp [h.file_eq]
        · intro l hl
          rcases List.mem_append.mp hl with hl | hl
          · exact h.isLine l hl
          · rw [List.mem_singleton.mp hl]
            exact mabEventLine_isLine hevent hreason _ _
        · simp [h.count_eq]
        · rw [hread]
          exact h.arms_eq
        · rw [hread]
          exact h.totalPulls_eq
        · rw [hread]
          exact h.recorded
  refine hwrite.congr ?_ ?_ ?_ ?_ ?_ <;> (dsimp only; split_ifs <;> rfl)

/-- A commit keeps the invariant: its line records the update, or the flag is
raised. -/
theorem ReplayInv.commit {env : AuditEnv} (hpath : isSetPath env.journalPath = true)
    {s : AuditState R} (h : ReplayInv fmt s) (io : AppendIo) (update : NvMabJournalUpdate R) :
    ReplayInv fmt (nvMabJournalCommitUpdate fmt env io update s).2 := by
  rw [nvMabJournalCommitUpdate]
  cases hselected : update.selectedArm.idx with
  | none => exact h
  | some b =>
    cases hused : update.actualUsedArm.idx with
    | none => exact h
    | some a =>
      dsimp only
      split_ifs with hbad hlong
      · exact h
      · exact .inl rfl
      set u : MabUpdateRecord R :=
        { update := update
          pullsBefore := (s.nvMab.arms a).pulls
          pullsAfter := ((nvMabUpdate s.nvMab update.actualUsedArm update.reward).arms a).pulls
          sumBefore := (s.nvMab.arms a).sumReward
          sumAfter :=
            ((nvMabUpdate s.nvMab update.actualUsedArm update.reward).arms a).sumReward
          meanAfter :=
            ((nvMabUpdate s.nvMab update.actualUsedArm update.reward).arms a).meanReward
          positiveAfter :=
            ((nvMabUpdate s.nvMab update.actualUsedArm update.reward).arms a).posCnt } with hu
      rcases nvMabJournalWrite_spec hpath io (u.line fmt)
        { s with nvMab := nvMabUpdate s.nvMab update.actualUsedArm update.reward } with
        ⟨-, hinvalid⟩ | ⟨-, heq⟩
      · exact .inl hinvalid
      rw [heq]
      rcases h with h | ⟨lines, h⟩
      · exact .inl h
      have hread : (lines ++ [u.line fmt]).filterMap (readMabUpdate fmt) =
          lines.filterMap (readMabUpdate fmt) ++ [u] := by
        rw [List.filterMap_append]
        simp [readMabUpdate_line fmt u]
      have hupdate : (replay (lines.filterMap (readMabUpdate fmt) ++ [u])).arms =
            (nvMabUpdate s.nvMab update.actualUsedArm update.reward).arms ∧
          (replay (lines.filterMap (readMabUpdate fmt) ++ [u])).totalPulls =
            (nvMabUpdate s.nvMab update.actualUsedArm update.reward).totalPulls := by
        rw [replay_concat, nvMabUpdate, nvMabUpdate, hused]
        dsimp only
        rw [h.arms_eq, h.totalPulls_eq]
        exact ⟨rfl, rfl⟩
      refine .inr ⟨lines ++ [u.line fmt], ?_, ?_, ?_, ?_, ?_, ?_⟩
      · simp [h.file_eq]
      · intro l hl
        rcases List.mem_append.mp hl with hl | hl
        · exact h.isLine l hl
        · rw [List.mem_singleton.mp hl]
          exact u.line_isLine fmt
      · simp [h.count_eq]
      · rw [hread]
        exact hupdate.1
      · rw [hread]
        exact hupdate.2
      · rw [hread]
        refine h.recorded.concat hused ?_ ?_ ?_ ?_
        · rw [h.arms_eq]
        · rw [h.arms_eq]
        · rw [hupdate.1]
        · rw [hupdate.1]

theorem ReplayInv.clearPending {env : AuditEnv} (hpath : isSetPath env.journalPath = true)
    {s : AuditState R} (h : ReplayInv fmt s) (io : ClearIo) {reason : Bytes}
    (hreason : PlainText reason) :
    ReplayInv fmt (nvMabJournalClearPending env io reason s).2 := by
  have hevent : PlainText (ascii "mab_pending_cleared") :=
    forall_mem_of_all (by decide)
  rw [nvMabJournalClearPending]
  by_cases hpending : s.nvMab.pendingUpdate = true
  · rw [if_neg (by simp [hpending])]
    dsimp only
    generalize (if s.nvMab.pendingSelectedValid = true then s.nvMab.pendingSelectedArm
      else s.nvMab.pendingArm) = selectedArm
    have hafter : ReplayInv fmt (nvMabJournalAppendEvent env io.journal
        (ascii "mab_pending_cleared") (some reason) selectedArm s.nvMab.pendingArm s).2 :=
      h.appendEvent hpath io.journal hevent (by exact hreason) _ _
    generalize nvMabJournalAppendEvent env io.journal (ascii "mab_pending_cleared") (some reason)
      selectedArm s.nvMab.pendingArm s = o at hafter ⊢
    by_cases hledger : (o.1 && s.nvMab.pendingIteration ≠ 0 &&
        !o.2.nvMab.pendingLedgerTerminalRecorded && env.executionLedgerPath.isSome) = true
    · rw [if_pos hledger]
      obtain ⟨enabled, count, errors, invalid, stop, file, heq⟩ :=
        nvExecutionLedgerAppend_frame env io.ledger
          (cleanupRecord s.nvMab.pendingIteration selectedArm s.nvMab.pendingArm reason) o.2
      rw [heq]
      exact hafter.congr rfl rfl rfl rfl rfl
    · rw [if_neg hledger]
      exact hafter.congr rfl rfl rfl rfl rfl
  · rw [if_pos (by simp [hpending])]
    exact h

theorem ReplayInv.step {env : AuditEnv} (hpath : isSetPath env.journalPath = true)
    {s : AuditState R} (h : ReplayInv fmt s) {op : JournalOp R} (hop : op.Plain) :
    ReplayInv fmt (journalStep fmt env s op).2 := by
  cases op with
  | commit io update => exact h.commit hpath io update
  | appendEvent io event reason selectedArm actualUsedArm =>
    exact h.appendEvent hpath io hop.1 hop.2.2 selectedArm actualUsedArm
  | clearPending io reason => exact h.clearPending hpath io hop
  | beginPending selectedArm actualUsedArm iterationId updateSource =>
    exact h.congr rfl rfl rfl rfl rfl

variable (fmt)

/-- Replaying the journal: while no error was flagged, the file holds exactly
the counted lines, its update lines replay to the aggregate, and each starts
where the previous one for its arm ended. -/
theorem journal_replay {env : AuditEnv} (hpath : isSetPath env.journalPath = true)
    {ops : List (JournalOp R)} (hplain : ∀ op ∈ ops, op.Plain) :
    let s := Machine.run (journalStep fmt env) (AuditState.zero : AuditState R) ops
    let lines := ByteLog.splitLines nl s.journalFile
    let us := lines.filterMap (readMabUpdate fmt)
    s.nvMabJournalAuditInvalid = false →
      (∀ l ∈ lines, ByteLog.IsLine nl l) ∧
        lines.length = s.nvMabJournalRecordCount ∧
        (∀ a, (replay us).arms a = s.nvMab.arms a) ∧
        (replay us).totalPulls = s.nvMab.totalPulls ∧
        Chained us := by
  intro s lines us hvalid
  have hinv : ReplayInv fmt s :=
    Machine.run_inv_of_forall (journalStep fmt env) JournalOp.Plain (ReplayInv fmt)
      (fun _ _ h hop => h.step hpath hop) ReplayInv.zero hplain
  rcases hinv with hinvalid | ⟨ls, h⟩
  · exact Bool.noConfusion (hvalid.symm.trans hinvalid)
  have hlines : lines = ls := by
    show ByteLog.splitLines nl s.journalFile = ls
    rw [h.file_eq, ByteLog.splitLines_flatten h.isLine]
  show (∀ l ∈ lines, ByteLog.IsLine nl l) ∧ lines.length = s.nvMabJournalRecordCount ∧
    (∀ a, (replay (lines.filterMap (readMabUpdate fmt))).arms a = s.nvMab.arms a) ∧
    (replay (lines.filterMap (readMabUpdate fmt))).totalPulls = s.nvMab.totalPulls ∧
    Chained (lines.filterMap (readMabUpdate fmt))
  rw [hlines]
  exact ⟨h.isLine, h.count_eq, fun a => congrFun h.arms_eq a, h.totalPulls_eq, h.recorded.chained⟩

end

/-! ## Two runs -/

/-- An environment with a journal and no execution ledger. -/
def journalOnly : AuditEnv := ⟨some (ascii "journal"), none⟩

/-- An update of the first arm. -/
def firstArmUpdate (reward : ℚ) : NvMabJournalUpdate ℚ :=
  ⟨1, 0, 0, true, reward, 0, 0, 0, 0, 0, 0, 1⟩

/-- A commit whose write is cut short and goes on, then an event. -/
theorem journal_replay_example :
    let ops := [.commit ⟨true, [5], true, true⟩ (firstArmUpdate 3),
      .appendEvent .ok (ascii "mab_update_mismatch") none 0 1]
    let s := Machine.run (journalStep ratFmt journalOnly) AuditState.zero ops
    (ByteLog.splitLines nl s.journalFile).length = s.nvMabJournalRecordCount := by
  refine (@journal_replay ℚ _ _ ratFmt journalOnly rfl
    [.commit ⟨true, [5], true, true⟩ (firstArmUpdate 3),
      .appendEvent .ok (ascii "mab_update_mismatch") none 0 1] ?_ ?_).2.1
  · simp only [List.forall_mem_cons]
    refine ⟨trivial, ⟨forall_mem_of_all (by decide), by decide,
      forall_mem_of_all (by decide)⟩, fun op hop => absurd hop List.not_mem_nil⟩
  · decide +kernel

/-- A reason with a newline splits its line in two. -/
theorem journal_torn_by_reason :
    let s := Machine.run (journalStep ratFmt journalOnly) AuditState.zero
      [.appendEvent .ok (ascii "x") (some (ascii "\n")) 0 0]
    s.nvMabJournalAuditInvalid = false ∧
      (ByteLog.splitLines nl s.journalFile).length ≠ s.nvMabJournalRecordCount := by
  decide

end AflNv
