import AflNv.ExecBudget

/-!
# What the validity filter sees and what the target gets

With `nv_task.enable_validity`, `common_fuzz_stuff` checks the buffer that
`write_to_testcase` leaves, and `trim_case` the buffer it is about to shorten.  A
`GatedExecution` is one execution that the filter let through, with both byte strings.

`gated_faithful_iff` says when they are the same.  `write_to_testcase` puts the
original bytes back with `AFL_POST_PROCESS_KEEP_ORIGINAL`, after the processed ones
went to the target.  `write_with_gap` leaves the chunk out, and the filter looks at
the buffer that still holds it: without post-processing the two never agree
(`trim_unfaithful`).
-/

namespace AflNv

/-- An execution behind an accepting `nv_validity_check`. -/
structure GatedExecution where
  /-- The bytes that the call was given. -/
  validated : Bytes
  /-- The bytes that the target gets. -/
  delivered : Option Bytes
  deriving DecidableEq

/-- What was validated is what is executed. -/
def GatedExecution.Faithful (g : GatedExecution) : Prop := g.delivered = some g.validated

section

variable {R : Type}

/-- The gated execution of a call of `common_fuzz_stuff`, if it gets that far. -/
def commonFuzzGated (cfg : AflCfg R) (env : FuzzEnv) (outBuf : Bytes) : Option GatedExecution :=
  let written := writeToTestcase cfg.testcase outBuf false
  if written.len = 0 then none
  else if cfg.nvTask.enableValidity &&
      !(nvValidityCheck cfg.target cfg.nvTask env.reply written.mem).isReject then
    some ⟨written.mem, written.delivered⟩
  else none

/-- The gated execution of the next step of `trim_case`, if it is one. -/
def trimGated (cfg : AflCfg R) (env : TrimEnv) (s : TrimState R) : Option GatedExecution :=
  if s.vars.atAttempt && cfg.nvTask.enableValidity &&
      !(nvValidityCheck cfg.target cfg.nvTask (env.replies s.iterations) s.vars.inBuf).isReject then
    some ⟨s.vars.inBuf, some (s.vars.candidate cfg.testcase)⟩
  else none

/-- A gated step is one that executes what it handed over. -/
theorem trimGated_executes {cfg : AflCfg R} {env : TrimEnv} {s : TrimState R} {g : GatedExecution}
    (h : trimGated cfg env s = some g) (execCksum : UInt64) :
    (trimStep cfg env execCksum s).trimExec = s.trimExec + 1 ∧
      g.delivered = some (trimStep cfg env execCksum s).testcase ∧
      g.validated = s.vars.inBuf ∧ s.vars.atAttempt = true := by
  rw [trimGated] at h
  split_ifs at h with hgate
  simp only [Bool.and_eq_true, Bool.not_eq_true'] at hgate
  obtain ⟨⟨hattempt, henable⟩, haccept⟩ := hgate
  obtain rfl := Option.some.inj h
  have hstep : trimStep cfg env execCksum s = trimIteration cfg env execCksum s := if_pos hattempt
  rw [hstep]
  simp only [trimIteration, henable, haccept, if_true, Bool.false_eq_true, if_false, trimExecute]
  exact ⟨trivial, rfl, trivial, hattempt⟩

/-! ## When the bytes agree -/

/-- What `write_to_testcase` hands over is what it leaves in the buffer: there are
no custom mutators, the original is not put back, or post-processing keeps the
length and the bytes of the input. -/
def KeepsBytes (cfg : TestcaseCfg) (buf : Bytes) : Prop :=
  cfg.customMutators = [] ∨ cfg.aflPostProcessKeepOriginal = false ∨
    let b := postProcessAll cfg buf
    clampLength cfg false b.size = buf.length ∧
      resize cfg.slack buf.length b.newMem = b.given.take buf.length

/-- Post-processing turns the buffer without the chunk into the buffer with it. -/
def RestoresChunk (cfg : TestcaseCfg) (v : TrimVars) : Prop :=
  let b := postProcessAll cfg (gapped v.inBuf v.removePos v.trimAvail)
  b.newMem.take b.size = v.inBuf

/-- Post-processing in place does not make the buffer shorter. -/
theorem length_le_given (cfg : TestcaseCfg) (buf : Bytes) :
    buf.length ≤ (postProcessAll cfg buf).given.length := by
  suffices key : ∀ (ms : List CustomMutator) (b : PostBuf),
      b.given.length ≤ (ms.foldl postProcessStep b).given.length from key _ ⟨buf, none, buf.length⟩
  intro ms
  induction ms with
  | nil => exact fun b => Nat.le_refl _
  | cons m ms ih =>
    intro b
    have hstep : b.given.length ≤ (postProcessStep b m).given.length := by
      rw [postProcessStep]
      split
      · exact Nat.le_refl _
      · split
        · exact Nat.le_refl _
        · exact Nat.le_refl _
        · exact Nat.le_refl _
        · rename_i out _ _
          cases hcopy : b.copy with
          | none =>
            show b.given.length ≤ (out ++ b.newMem.drop out.length).length
            rw [PostBuf.newMem, hcopy, Option.getD_none, List.length_append, List.length_drop]
            omega
          | some copy => exact Nat.le_refl _
        · exact Nat.le_refl _
    exact hstep.trans (ih _)

theorem writeToTestcase_faithful_iff {cfg : TestcaseCfg} {buf : Bytes}
    (hlen : (writeToTestcase cfg buf false).len ≠ 0) :
    (writeToTestcase cfg buf false).delivered = some (writeToTestcase cfg buf false).mem ↔
      KeepsBytes cfg buf := by
  cases hempty : cfg.customMutators.isEmpty with
  | true =>
    have hmutators := List.isEmpty_iff.mp hempty
    simp [writeToTestcase, KeepsBytes, hmutators]
  | false =>
    have hmutators : cfg.customMutators ≠ [] := by
      intro hnil
      simp [hnil] at hempty
    have hsize : (postProcessAll cfg buf).size ≠ 0 := by
      intro hzero
      apply hlen
      simp [writeToTestcase, hempty, hzero]
    cases hkeep : cfg.aflPostProcessKeepOriginal with
    | false =>
      simp only [writeToTestcase, hempty, hkeep, hsize, false_and, if_false, Bool.false_eq_true,
        KeepsBytes, true_or, or_true]
    | true =>
      have hgiven := length_le_given cfg buf
      simp only [writeToTestcase, hempty, hkeep, hsize, hmutators, false_and, if_false, if_true,
        Bool.false_eq_true, Bool.true_eq_false, KeepsBytes, false_or, Option.some.injEq]
      constructor
      · intro h
        have hclamp := congrArg List.length h
        rw [length_resize, List.length_take, Nat.min_eq_left hgiven] at hclamp
        rw [hclamp] at h
        exact ⟨hclamp, h⟩
      · intro h
        rw [h.1]
        exact h.2

theorem commonFuzzGated_faithful_iff {cfg : AflCfg R} {env : FuzzEnv} {outBuf : Bytes}
    {g : GatedExecution} (h : commonFuzzGated cfg env outBuf = some g) :
    g.Faithful ↔ KeepsBytes cfg.testcase outBuf := by
  rw [commonFuzzGated] at h
  split_ifs at h with hlen hgate
  obtain rfl := Option.some.inj h
  exact writeToTestcase_faithful_iff hlen

theorem trimGated_faithful_iff {cfg : AflCfg R} {env : TrimEnv} {s : TrimState R}
    {g : GatedExecution} (h : trimGated cfg env s = some g) :
    g.Faithful ↔ RestoresChunk cfg.testcase s.vars := by
  rw [trimGated] at h
  split_ifs at h
  obtain rfl := Option.some.inj h
  rw [GatedExecution.Faithful, Option.some.injEq]
  rfl

/-- Wherever `trim_case` tries a chunk, there is something to remove. -/
theorem trimAvail_pos (cfg : AflCfg R) (env : TrimEnv) (q : QueueEntry) (afl : Afl R) (n : ℕ)
    (h : ((trimStep cfg env q.execCksum)^[n] (.init q afl)).vars.atAttempt = true) :
    0 < ((trimStep cfg env q.execCksum)^[n] (.init q afl)).vars.trimAvail := by
  obtain ⟨hschedule, -⟩ := exists_attempt cfg env q afl n
  rw [TrimVars.settle_of_settled (.inr h)] at hschedule
  have hinv := trimSchedule_inv q (env.same q.execCksum)
    ((trimStep cfg env q.execCksum)^[n] (.init q afl)).trimExec
  rw [← hschedule] at hinv
  obtain ⟨hpc, hpos⟩ : _ ∧ _ := by simpa [TrimVars.atAttempt] using h
  have hmin := hinv.min_bytes hpc
  rw [TrimVars.trimAvail]
  omega

/-- Without post-processing no chunk that is tried is validated as it is
executed. -/
theorem trim_unfaithful {cfg : AflCfg R} (hplain : cfg.testcase.NoPostProcess) {env : TrimEnv}
    {q : QueueEntry} {afl : Afl R} {n : ℕ} {g : GatedExecution}
    (h : trimGated cfg env ((trimStep cfg env q.execCksum)^[n] (.init q afl)) = some g) :
    ¬ g.Faithful := by
  obtain ⟨-, -, -, hattempt⟩ := trimGated_executes h q.execCksum
  have hpos := trimAvail_pos cfg env q afl n hattempt
  have hle := TrimVars.trimAvail_le ((trimStep cfg env q.execCksum)^[n] (.init q afl)).vars
  rw [trimGated_faithful_iff h, RestoresChunk, postProcessAll_of_noPostProcess hplain]
  generalize ((trimStep cfg env q.execCksum)^[n] (.init q afl)).vars = v at hpos hle
  intro hrestore
  have hlen := congrArg List.length hrestore
  rw [PostBuf.newMem, Option.getD_none, List.take_length, length_gapped (by omega)] at hlen
  omega

/-- The bytes that the filter accepts are the bytes of the execution exactly when,
in `common_fuzz_stuff`, the original is not put back or post-processing left it
alone, and, in `trim_case`, post-processing brings the removed chunk back. -/
theorem gated_faithful_iff (cfg : AflCfg R) :
    (∀ (env : FuzzEnv) (outBuf : Bytes) (g : GatedExecution),
      commonFuzzGated cfg env outBuf = some g →
        (g.Faithful ↔ KeepsBytes cfg.testcase outBuf)) ∧
    (∀ (env : TrimEnv) (q : QueueEntry) (afl : Afl R) (n : ℕ) (g : GatedExecution),
      let s := (trimStep cfg env q.execCksum)^[n] (.init q afl)
      Trims cfg q → trimGated cfg env s = some g →
        (g.Faithful ↔ RestoresChunk cfg.testcase s.vars) ∧
        (cfg.testcase.NoPostProcess → ¬ g.Faithful)) := by
  constructor
  · intro env outBuf g h
    exact commonFuzzGated_faithful_iff h
  · intro env q afl n g s _ h
    exact ⟨trimGated_faithful_iff h, fun hplain => trim_unfaithful hplain h⟩

end

/-! ## One request -/

/-- A request of thirteen bytes. -/
def requestEntry : QueueEntry := ⟨ascii "GET /abcdef\n\x7b", 7, by decide⟩

/-- The request without its second chunk of four bytes, which the filter would
reject. -/
def choppedRequest : Bytes := ascii "GET def\n\x7b"

theorem requestEntry_gated :
    commonFuzzGated (trimCfg true) quietFuzzEnv requestEntry.inBuf =
      some ⟨requestEntry.inBuf, some requestEntry.inBuf⟩ := by
  decide

theorem requestEntry_trimGated :
    trimGated (trimCfg true) (trimEnv 0)
        ((trimStep (trimCfg true) (trimEnv 0) requestEntry.execCksum)^[1]
          (.init requestEntry (.init (.init none)))) =
      some ⟨requestEntry.inBuf, some choppedRequest⟩ := by
  decide

/-- Without custom mutators the input of the fuzzing loop is validated as it runs,
and the first chunk of trimming is not. -/
theorem gated_request :
    GatedExecution.Faithful ⟨requestEntry.inBuf, some requestEntry.inBuf⟩ ∧
      ¬ GatedExecution.Faithful ⟨requestEntry.inBuf, some choppedRequest⟩ := by
  have h := gated_faithful_iff (trimCfg true)
  refine ⟨(h.1 _ _ _ requestEntry_gated).mpr (.inl rfl), ?_⟩
  exact (h.2 (trimEnv 0) requestEntry (.init (.init none)) 1 _ ⟨rfl, by decide⟩
    requestEntry_trimGated).2 (by simp [TestcaseCfg.NoPostProcess, trimCfg, TestcaseCfg.plain])

/-- A mutator that appends a byte, with the original put back. -/
def keepOriginalCfg : AflCfg ℚ :=
  { trimCfg true with
    testcase :=
      { TestcaseCfg.plain with
        customMutators := [⟨some fun buf => .fresh (buf ++ [125]), false⟩]
        aflPostProcessKeepOriginal := true } }

/-- Trimming executes a request that was not validated, and so does an iteration of
the fuzzing loop with `AFL_POST_PROCESS_KEEP_ORIGINAL`. -/
theorem gated_unfaithful :
    (∃ g, trimGated (trimCfg true) (trimEnv 0)
        ((trimStep (trimCfg true) (trimEnv 0) requestEntry.execCksum)^[1]
          (.init requestEntry (.init (.init none)))) = some g ∧ ¬ g.Faithful) ∧
      ∃ g, commonFuzzGated keepOriginalCfg quietFuzzEnv requestEntry.inBuf = some g ∧
        ¬ g.Faithful := by
  refine ⟨⟨_, requestEntry_trimGated, ?_⟩,
    ⟨⟨requestEntry.inBuf, some (requestEntry.inBuf ++ [125])⟩, by decide, ?_⟩⟩
  · show some choppedRequest ≠ some requestEntry.inBuf
    decide
  · show some (requestEntry.inBuf ++ [125]) ≠ some requestEntry.inBuf
    decide

end AflNv
