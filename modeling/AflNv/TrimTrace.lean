import AflNv.TrimTermination

/-!
# Trimming and the trace

What trimming is for: a removal is kept when the trace of the target stays the
same.  For a deterministic target `hash` gives the hash of the classified trace of
every input.

The comparison that decides on a removal reads a variable that was never assigned,
so it may come out either way whatever the trace was.  `tracePreserved_iff` says
which entries survive that: those where every removal the schedule may come to
leaves the trace alone.
-/

namespace AflNv

open AflNv.Lib

section

variable {R : Type} (cfg : AflCfg R) (env : TrimEnv) (q : QueueEntry) (afl : Afl R)

/-! ## The schedule and the machine -/

/-- What is executed at an attempt. -/
def TrimVars.candidate (cfg : TestcaseCfg) (v : TrimVars) : Bytes :=
  writeWithGap cfg v.inBuf v.removePos v.trimAvail

/-- The filter can let a buffer through. -/
def CanPass (buf : Bytes) : Prop :=
  cfg.nvTask.enableValidity = true →
    ∃ reply, (nvValidityCheck cfg.target cfg.nvTask reply buf).isReject = false

/-- `trim_case` goes into its own loops. -/
def Trims : Prop :=
  cfg.testcase.customMutators.any CustomMutator.hasTrim = false ∧ 5 ≤ q.inBuf.length

theorem canPass_of_filterAccepts {cfg : AflCfg R} {env : TrimEnv} {i : ℕ} {v : TrimVars}
    (h : filterAccepts cfg env i v = true) : CanPass cfg v.inBuf := by
  intro henable
  refine ⟨env.replies i, ?_⟩
  simpa [filterAccepts, henable] using h

/-- An iteration makes a removal permanent when the filter lets it through and the
comparison succeeds. -/
theorem trimIteration_permanent (s : TrimState R) :
    (trimIteration cfg env q.execCksum s).permanent =
      if filterAccepts cfg env s.iterations s.vars && env.same q.execCksum s.trimExec then
        s.permanent ++ [s.vars.candidate cfg.testcase]
      else s.permanent := by
  simp only [trimIteration, filterAccepts, TrimEnv.same, TrimVars.candidate]
  by_cases henable : cfg.nvTask.enableValidity = true
  · by_cases hreject : (nvValidityCheck cfg.target cfg.nvTask (env.replies s.iterations)
        s.vars.inBuf).isReject = true
    · simp [henable, hreject]
    · simp [henable, hreject, trimExecute]
  · simp [henable, trimExecute]

/-- Wherever the loops are, they got there through attempts that passed. -/
theorem exists_attempt (n : ℕ) :
    let s := (trimStep cfg env q.execCksum)^[n] (.init q afl)
    s.vars.settle = trimSchedule q (env.same q.execCksum) s.trimExec ∧
      ∀ j < s.trimExec, (trimSchedule q (env.same q.execCksum) j).pc ≠ .done ∧
        CanPass cfg (trimSchedule q (env.same q.execCksum) j).inBuf := by
  have hchain := chain_trimLoop q (env.same q.execCksum) (filterAccepts cfg env)
  obtain ⟨m, hm⟩ := Polling.iterate_abs
    (fun s => (trimStep_abs cfg env q.execCksum s).imp_right And.left) (.init q afl) n
  obtain ⟨i, k, hpos, yes, hyes, -⟩ := Polling.Loop.ask_iterate
    (L := trimLoop (env.same q.execCksum) (filterAccepts cfg env)) (TrimVars.init q).settle m
  have habs := hm.trans hpos
  have hexec := congrArg Polling.Pos.steps habs
  have hvars := congrArg Polling.Pos.state habs
  simp only [TrimState.abs] at hexec hvars
  refine ⟨?_, fun j hj => ?_⟩
  · rw [hvars, hexec]
    exact hchain k
  · obtain ⟨-, hpc, haccepts⟩ := hyes j (hexec ▸ hj)
    rw [← hchain j]
    exact ⟨of_decide_eq_false hpc, canPass_of_filterAccepts haccepts⟩

/-- When the filter accepts the first `k` attempts at once, the loops get to
attempt `k`. -/
theorem exists_state {k : ℕ}
    (h : ∀ j < k, (trimSchedule q (env.same q.execCksum) j).pc ≠ .done ∧
      filterAccepts cfg env j (trimSchedule q (env.same q.execCksum) j) = true) :
    ∃ n, let s := (trimStep cfg env q.execCksum)^[n] (.init q afl)
      s.vars = trimSchedule q (env.same q.execCksum) k ∧ s.iterations = k ∧ s.trimExec = k := by
  have hchain := chain_trimLoop q (env.same q.execCksum) (filterAccepts cfg env)
  obtain ⟨n, hn⟩ := Polling.exists_iterate_abs (fun s : TrimState R => s.vars.rank)
    (trimStep_abs cfg env q.execCksum) (.init q afl) k
  have hask := Polling.Loop.ask_iterate_of_accepts
    (L := trimLoop (env.same q.execCksum) (filterAccepts cfg env)) (s := (TrimVars.init q).settle)
    (n := k) fun j hj => by
      rw [hchain j]
      exact (h j hj).imp_left fun hpc => decide_eq_false hpc
  have habs := hn.trans hask
  rw [hchain k] at habs
  have hiterations := congrArg Polling.Pos.asked habs
  have hexec := congrArg Polling.Pos.steps habs
  have hvars := congrArg Polling.Pos.state habs
  simp only [TrimState.abs] at hiterations hexec hvars
  obtain ⟨n', hsettled⟩ := exists_settled cfg env q.execCksum
    ((trimStep cfg env q.execCksum)^[n] (.init q afl))
  refine ⟨n' + n, ?_⟩
  rw [Function.iterate_add_apply]
  exact ⟨hsettled.1.trans hvars, hsettled.2.1.trans hiterations, hsettled.2.2.trans hexec⟩

end

/-! ## Schedules that the environment can bring about -/

theorem trimSchedule_congr {q : QueueEntry} {same same' : ℕ → Bool} {k : ℕ}
    (h : ∀ j < k, same' j = same j) : ∀ j ≤ k, trimSchedule q same' j = trimSchedule q same j := by
  refine Polling.Loop.chain_congr ?_ fun j hj => ?_
  · rfl
  · simp only [trimLoop, h j hj]

theorem trimSchedule_of_done {q : QueueEntry} {same : ℕ → Bool} {k m : ℕ}
    (h : (trimSchedule q same k).pc = .done) (hle : k ≤ m) :
    trimSchedule q same m = trimSchedule q same k :=
  Polling.Loop.chain_of_done (decide_eq_true h) hle

/-- An environment with these replies and these results of the comparison. -/
def scheduleEnv (execCksum : UInt64) (replies : ℕ → RpcReply) (same : ℕ → Bool) : TrimEnv where
  replies := replies
  runs := fun k =>
    ⟨⟨.ok, .none, ⟨none, fun _ => none⟩⟩, if same k then execCksum else execCksum + 1⟩

@[simp] theorem scheduleEnv_same (execCksum : UInt64) (replies : ℕ → RpcReply)
    (same : ℕ → Bool) : (scheduleEnv execCksum replies same).same execCksum = same := by
  funext k
  simp only [TrimEnv.same, scheduleEnv]
  by_cases hk : same k = true <;> simp [hk]

section

variable {R : Type} (cfg : AflCfg R) (q : QueueEntry) (afl : Afl R)

/-- Buffers that can pass are accepted under some replies. -/
theorem exists_replies {same : ℕ → Bool} {k : ℕ}
    (h : ∀ j < k, CanPass cfg (trimSchedule q same j).inBuf) :
    ∃ replies, ∀ j < k,
      filterAccepts cfg (scheduleEnv q.execCksum replies same) j (trimSchedule q same j) =
        true := by
  have hreply : ∀ j, ∃ reply, j < k → cfg.nvTask.enableValidity = true →
      (nvValidityCheck cfg.target cfg.nvTask reply (trimSchedule q same j).inBuf).isReject =
        false := by
    intro j
    by_cases hpass : j < k ∧ cfg.nvTask.enableValidity = true
    · obtain ⟨reply, hreply⟩ := h j hpass.1 hpass.2
      exact ⟨reply, fun _ _ => hreply⟩
    · exact ⟨.fail, fun hj henable => absurd ⟨hj, henable⟩ hpass⟩
  choose replies hreplies using hreply
  refine ⟨replies, fun j hj => ?_⟩
  simp only [filterAccepts, scheduleEnv, Bool.not_eq_true', Bool.and_eq_false_iff]
  cases henable : cfg.nvTask.enableValidity with
  | false => exact .inl rfl
  | true => exact .inr (hreplies j hj henable)

/-! ## What trimming promises -/

/-- Trimming under an environment preserves the trace: each input whose removal
became permanent was executed with the trace of the entry, and the entry that is
left has it. -/
structure TracePreserved (hash : Bytes → UInt64) (env : TrimEnv) : Prop where
  permanent : Trims cfg q →
    ∀ n, ∀ buf ∈ ((trimStep cfg env q.execCksum)^[n] (.init q afl)).permanent,
      hash buf = q.execCksum
  final : ∀ fuel fault buf afl', trimCase cfg env q afl fuel = some (.trimmed fault buf afl') →
    (writeToTestcase cfg.testcase buf true).delivered.map hash = some q.execCksum

/-- No removal along a schedule changes the trace: neither the input of an attempt
that the filter can let the loops come to, nor the entry behind the last one. -/
structure RemovalsKeepTrace (hash : Bytes → UInt64) (same : ℕ → Bool) : Prop where
  attempt : ∀ k, (trimSchedule q same k).pc ≠ .done →
    (∀ j ≤ k, CanPass cfg (trimSchedule q same j).inBuf) →
      hash ((trimSchedule q same k).candidate cfg.testcase) = q.execCksum
  final : ∀ k, (trimSchedule q same k).pc = .done →
    (∀ j < k, CanPass cfg (trimSchedule q same j).inBuf) →
      (writeToTestcase cfg.testcase (trimFinish cfg.testcase (trimSchedule q same k))
        true).delivered.map hash = some q.execCksum

variable {cfg q} {hash : Bytes → UInt64}

/-- Every removal that becomes permanent is an attempt of the schedule. -/
theorem RemovalsKeepTrace.permanent {env : TrimEnv}
    (h : RemovalsKeepTrace cfg q hash (env.same q.execCksum)) (n : ℕ) :
    ∀ buf ∈ ((trimStep cfg env q.execCksum)^[n] (.init q afl)).permanent,
      hash buf = q.execCksum := by
  induction n with
  | zero => exact fun buf hbuf => absurd hbuf List.not_mem_nil
  | succ n ih =>
    obtain ⟨hvars, hpass⟩ := exists_attempt cfg env q afl n
    rw [Function.iterate_succ_apply']
    generalize (trimStep cfg env q.execCksum)^[n] (.init q afl) = s at ih hvars hpass ⊢
    by_cases hattempt : s.vars.atAttempt = true
    · rw [trimStep, if_pos hattempt, trimIteration_permanent]
      split_ifs with hkept
      · rw [Bool.and_eq_true] at hkept
        rw [TrimVars.settle_of_settled (.inr hattempt)] at hvars
        intro buf hbuf
        rcases List.mem_append.mp hbuf with hold | hnew
        · exact ih buf hold
        · rw [List.mem_singleton.mp hnew, hvars]
          refine h.attempt _ ?_ fun j hj => ?_
          · rw [← hvars]
            intro hdone
            simp [TrimVars.atAttempt, hdone] at hattempt
          · rcases Nat.lt_or_eq_of_le hj with hlt | rfl
            · exact (hpass j hlt).2
            · rw [← hvars]
              exact canPass_of_filterAccepts hkept.1
      · exact ih
    · obtain ⟨-, -, -, hsame⟩ := trimStep_silent cfg env q.execCksum hattempt
      rw [hsame]
      exact ih

/-- An attempt the loops can come to becomes permanent under some environment. -/
theorem exists_permanent {same : ℕ → Bool} {k : ℕ} (hpc : (trimSchedule q same k).pc ≠ .done)
    (hpass : ∀ j ≤ k, CanPass cfg (trimSchedule q same j).inBuf) :
    ∃ env n, (trimSchedule q same k).candidate cfg.testcase ∈
      ((trimStep cfg env q.execCksum)^[n] (.init q afl)).permanent := by
  -- The comparison at attempt `k` succeeds; before it the schedule is the same.
  have hschedule : ∀ j ≤ k, trimSchedule q (Function.update same k true) j =
      trimSchedule q same j :=
    trimSchedule_congr fun j hj => Function.update_of_ne hj.ne _ _
  have hpass' : ∀ j < k + 1,
      CanPass cfg (trimSchedule q (Function.update same k true) j).inBuf := by
    intro j hj
    rw [hschedule j (by omega)]
    exact hpass j (by omega)
  obtain ⟨replies, hreplies⟩ := exists_replies cfg q hpass'
  let env := scheduleEnv q.execCksum replies (Function.update same k true)
  have hsame : env.same q.execCksum = Function.update same k true := scheduleEnv_same _ _ _
  obtain ⟨n, hvars, hiterations, hexec⟩ := exists_state cfg env q afl (k := k) fun j hj => by
    rw [hsame]
    refine ⟨fun hdone => hpc ?_, hreplies j (by omega)⟩
    rw [← hschedule k (Nat.le_refl k), trimSchedule_of_done hdone hj.le]
    exact hdone
  refine ⟨env, n + 1, ?_⟩
  rw [Function.iterate_succ_apply']
  generalize (trimStep cfg env q.execCksum)^[n] (.init q afl) = s at hvars hiterations hexec ⊢
  have hk := hreplies k (Nat.lt_succ_self k)
  rw [hsame] at hvars
  have hattempt : s.vars.atAttempt = true := by
    rw [hvars, hschedule k (Nat.le_refl k)]
    exact (trimSchedule_inv q same k).settled.resolve_left hpc
  rw [trimStep, if_pos hattempt, trimIteration_permanent, hiterations, hexec, hsame, hvars, hk,
    Function.update_self, hschedule k (Nat.le_refl k)]
  exact List.mem_append_right _ List.mem_cons_self

/-- The end of a schedule is what some call leaves. -/
theorem exists_final (htrims : Trims cfg q) {same : ℕ → Bool} {k : ℕ}
    (hpc : (trimSchedule q same k).pc = .done)
    (hpass : ∀ j < k, CanPass cfg (trimSchedule q same j).inBuf) :
    ∃ env fuel fault afl', trimCase cfg env q afl fuel =
      some (.trimmed fault (trimFinish cfg.testcase (trimSchedule q same k)) afl') := by
  have hex : ∃ k, (trimSchedule q same k).pc = .done := ⟨k, hpc⟩
  have hle : Nat.find hex ≤ k := Nat.find_min' hex hpc
  obtain ⟨replies, hreplies⟩ := exists_replies cfg q hpass
  let env := scheduleEnv q.execCksum replies same
  have hsame : env.same q.execCksum = same := scheduleEnv_same _ _ _
  obtain ⟨n, hvars, -, -⟩ := exists_state cfg env q afl (k := Nat.find hex) fun j hj => by
    rw [hsame]
    exact ⟨Nat.find_min hex hj, hreplies j (by omega)⟩
  rw [hsame, ← trimSchedule_of_done (Nat.find_spec hex) hle] at hvars
  refine ⟨env, n, ((trimStep cfg env q.execCksum)^[n] (.init q afl)).fault,
    ((trimStep cfg env q.execCksum)^[n] (.init q afl)).afl, ?_⟩
  rw [trimCase, if_neg (by simp [htrims.1]), if_neg (Nat.not_lt.mpr htrims.2)]
  simp only [hvars, hpc, if_true]

/-- Trimming preserves the trace, whatever the comparison comes out as, exactly for
the entries it leaves alone and for those where no removal of any schedule changes
the trace. -/
theorem tracePreserved_iff
    (hentry : (writeToTestcase cfg.testcase q.inBuf true).delivered.map hash =
      some q.execCksum) :
    (∀ env, TracePreserved cfg q afl hash env) ↔
      (Trims cfg q → ∀ same, RemovalsKeepTrace cfg q hash same) := by
  constructor
  · intro h htrims same
    refine ⟨fun k hpc hpass => ?_, fun k hpc hpass => ?_⟩
    · obtain ⟨env, n, hmem⟩ := exists_permanent afl hpc hpass
      exact (h env).permanent htrims n _ hmem
    · obtain ⟨env, fuel, fault, afl', hcase⟩ := exists_final afl htrims hpc hpass
      exact (h env).final fuel fault _ afl' hcase
  · intro h env
    refine ⟨fun htrims n => (h htrims _).permanent afl n, fun fuel fault buf afl' hcase => ?_⟩
    by_cases hcustom : cfg.testcase.customMutators.any CustomMutator.hasTrim = true
    · rw [trimCase, if_pos hcustom] at hcase
      simp at hcase
    by_cases hshort : q.inBuf.length < 5
    · rw [trimCase, if_neg hcustom, if_pos hshort] at hcase
      simp only [Option.some.injEq, TrimResult.trimmed.injEq] at hcase
      rw [← hcase.2.1]
      exact hentry
    · have htrims : Trims cfg q := ⟨by simpa using hcustom, by omega⟩
      obtain ⟨hvars, hpass⟩ := exists_attempt cfg env q afl fuel
      rw [trimCase, if_neg hcustom, if_neg hshort] at hcase
      generalize (trimStep cfg env q.execCksum)^[fuel] (.init q afl) = s at hvars hpass hcase
      by_cases hdone : s.vars.pc = .done
      · simp only [hdone, if_true, Option.some.injEq, TrimResult.trimmed.injEq] at hcase
        rw [TrimVars.settle_of_settled (.inl hdone)] at hvars
        rw [← hcase.2.1, hvars]
        exact (h htrims _).final _ (hvars ▸ hdone) fun j hj => (hpass j hj).2
      · simp [hdone] at hcase

/-! ## Without post-processing -/

/-- The entry is at every point what it was or what an earlier attempt left of it. -/
theorem trimSchedule_inBuf (q : QueueEntry) (same : ℕ → Bool) (k : ℕ) :
    (trimSchedule q same k).inBuf = q.inBuf ∨
      ∃ j < k, (trimSchedule q same j).pc ≠ .done ∧ (trimSchedule q same k).inBuf =
        gapped (trimSchedule q same j).inBuf (trimSchedule q same j).removePos
          (trimSchedule q same j).trimAvail := by
  induction k with
  | zero => exact .inl (TrimVars.settled_settle (.init q)).inBuf
  | succ k ih =>
    by_cases hdone : (trimSchedule q same k).pc = .done
    · rw [trimSchedule_of_done hdone (Nat.le_succ k)]
      exact ih.imp_right fun ⟨j, hj, hrest⟩ => ⟨j, by omega, hrest⟩
    · have hnext : trimSchedule q same (k + 1) =
          ((trimSchedule q same k).resolve (same k)).settle :=
        Polling.Loop.chain_succ (decide_eq_false hdone)
      rw [hnext, (TrimVars.settled_settle _).inBuf]
      cases hsame : same k with
      | false => exact ih.imp_right fun ⟨j, hj, hrest⟩ => ⟨j, by omega, hrest⟩
      | true => exact .inr ⟨k, Nat.lt_succ_self k, hdone, rfl⟩

/-- Without custom mutators the attempts decide: the entry that is left was executed
when its last removal became permanent. -/
theorem removalsKeepTrace_of_attempts (hmutators : cfg.testcase.customMutators = [])
    (hmax : q.inBuf.length ≤ cfg.testcase.maxLength) (hentry : hash q.inBuf = q.execCksum)
    {same : ℕ → Bool}
    (h : ∀ k, (trimSchedule q same k).pc ≠ .done →
      (∀ j ≤ k, CanPass cfg (trimSchedule q same j).inBuf) →
        hash ((trimSchedule q same k).candidate cfg.testcase) = q.execCksum) :
    RemovalsKeepTrace cfg q hash same := by
  have hpost : cfg.testcase.NoPostProcess := by
    rw [TestcaseCfg.NoPostProcess, hmutators]
    exact fun m hm => absurd hm List.not_mem_nil
  refine ⟨h, fun k _ hpass => ?_⟩
  have hfinish : trimFinish cfg.testcase (trimSchedule q same k) =
      (trimSchedule q same k).inBuf := by simp [trimFinish, hmutators]
  have hshort := (trimSchedule_inv q same k).short
  rw [hfinish, writeToTestcase_of_noPostProcess hpost (hshort.trans hmax)]
  refine congrArg some ?_
  rcases trimSchedule_inBuf q same k with hsame | ⟨j, hj, hpc, hgapped⟩
  · rw [hsame]
    exact hentry
  · have hcandidate := h j hpc fun j' hj' => hpass j' (by omega)
    rw [TrimVars.candidate, writeWithGap_of_noPostProcess hpost, ← hgapped] at hcandidate
    exact hcandidate

end

/-! ## Eight bytes -/

/-- An entry of eight bytes. -/
def eightBytes : QueueEntry := ⟨ascii "abcdefgh", 8, by decide⟩

/-- A target that ignores its input keeps its trace. -/
theorem tracePreserved_ignored :
    TracePreserved (trimCfg false) eightBytes (.init (.init none)) (fun _ => 8) (trimEnv 8) :=
  (tracePreserved_iff _ rfl).mpr (fun _ _ =>
    removalsKeepTrace_of_attempts rfl (by decide) rfl fun _ _ _ => rfl) _

/-- With a target whose trace tells the length, an entry of eight bytes loses half of
them when the unassigned variable happens to hold its checksum. -/
theorem trim_changes_trace :
    (writeToTestcase (trimCfg false).testcase eightBytes.inBuf true).delivered.map
        (fun buf => UInt64.ofNat buf.length) = some eightBytes.execCksum ∧
      ¬ TracePreserved (trimCfg false) eightBytes (.init (.init none))
        (fun buf => UInt64.ofNat buf.length) (trimEnv 8) := by
  refine ⟨by decide, fun h => ?_⟩
  have hfour := h.permanent ⟨rfl, by decide⟩ 2 (ascii "abcd") (by decide)
  exact absurd hfour (by decide)

end AflNv
