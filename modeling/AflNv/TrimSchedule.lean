import AflNv.Lib.Polling
import AflNv.Trim

/-!
# The schedule of trimming

What `trim_case` tries next depends on the entry and on which of the earlier
removals were kept, and on nothing else.  `trimSchedule` is the sequence of these
attempts, `settle` the way from one to the next.  It always ends
(`trimSchedule_finite`).

The loops of `trim_case` go through this schedule, but they ask the validity
filter before each execution and stay where they are on a rejection.
`trimStep_abs` says so; it connects the machine to the polling loops of the
library.
-/

namespace AflNv

open AflNv.Lib

namespace TrimVars

/-! ## From one attempt to the next -/

/-- How many loop conditions are still evaluated before the next attempt. -/
def rank (v : TrimVars) : ℕ :=
  match v.pc with
  | .outer => if 4 ≤ v.removeLen then 2 * v.removeLen + 1 else 1
  | .inner => if 4 ≤ v.removeLen then 2 * v.removeLen else 2
  | .done => 0

theorem rank_advance {v : TrimVars} (hdone : v.pc ≠ .done) : v.advance.rank < v.rank := by
  cases hpc : v.pc with
  | done => exact absurd hpc hdone
  | outer =>
    simp only [advance, hpc]
    split_ifs with hsteps
    · have hfour : 4 ≤ v.removeLen := (Nat.le_max_right _ _).trans hsteps
      simp [rank, hpc, hfour]
    · simp only [rank, hpc]
      split_ifs <;> omega
  | inner =>
    simp only [advance, rank, hpc]
    split_ifs <;> omega

/-- Evaluate loop conditions until there is an attempt, or the loops are over. -/
def settle (v : TrimVars) : TrimVars :=
  if v.pc = .done ∨ v.atAttempt = true then v else settle v.advance
termination_by v.rank
decreasing_by
  rename_i h
  rw [not_or] at h
  exact rank_advance h.1

theorem settle_of_settled {v : TrimVars} (h : v.pc = .done ∨ v.atAttempt = true) :
    v.settle = v := by
  rw [settle, if_pos h]

theorem settle_advance {v : TrimVars} (hdone : v.pc ≠ .done) (hattempt : v.atAttempt ≠ true) :
    v.advance.settle = v.settle := by
  conv_rhs => rw [settle, if_neg (not_or.mpr ⟨hdone, hattempt⟩)]

/-- What settling leaves alone, and what it establishes. -/
structure Settled (v w : TrimVars) : Prop where
  settled : w.pc = .done ∨ w.atAttempt = true
  inBuf : w.inBuf = v.inBuf
  needsWrite : w.needsWrite = v.needsWrite
  removeLen_le : w.removeLen ≤ v.removeLen
  min_bytes : (v.pc = .inner → 4 ≤ v.removeLen) → w.pc = .inner → 4 ≤ w.removeLen

theorem settled_settle (v : TrimVars) : Settled v v.settle := by
  induction v using settle.induct with
  | case1 v h =>
    rw [settle_of_settled h]
    exact ⟨h, rfl, rfl, Nat.le_refl _, fun hv => hv⟩
  | case2 v h ih =>
    rw [not_or] at h
    rw [← settle_advance h.1 h.2]
    obtain ⟨hsettled, hbuf, hwrite, hle, hmin⟩ := ih
    have hadvance : v.advance.inBuf = v.inBuf ∧ v.advance.needsWrite = v.needsWrite ∧
        v.advance.removeLen ≤ v.removeLen ∧
        (v.advance.pc = .inner → 4 ≤ v.advance.removeLen) := by
      cases hpc : v.pc with
      | done => exact absurd hpc h.1
      | outer =>
        simp only [advance, hpc]
        split_ifs with hsteps
        · exact ⟨rfl, rfl, Nat.le_refl _, fun _ => (Nat.le_max_right _ _).trans hsteps⟩
        · exact ⟨rfl, rfl, Nat.le_refl _, fun hinner => by simp at hinner⟩
      | inner =>
        simp only [advance, hpc]
        exact ⟨trivial, trivial, Nat.div_le_self _ _, fun hinner => by simp at hinner⟩
    obtain ⟨habuf, hawrite, hale, hamin⟩ := hadvance
    exact ⟨hsettled, hbuf.trans habuf, hwrite.trans hawrite, hle.trans hale,
      fun _ => hmin hamin⟩

/-- An entry that is not too short has a first attempt. -/
theorem settle_init {q : QueueEntry} (hlen : 5 ≤ q.inBuf.length) :
    (init q).settle = (init q).advance ∧ (init q).advance.atAttempt = true := by
  have hp2 : AflNv.lenP2 q.inBuf.length < 2 * q.inBuf.length := lenP2_lt (by omega) q.len_le
  have hsteps : max (AflNv.lenP2 q.inBuf.length / 1024) 4 ≤
      max (AflNv.lenP2 q.inBuf.length / 16) 4 := by omega
  have hfirst : (init q).advance =
      { init q with removePos := (init q).removeLen, pc := .inner } := if_pos hsteps
  have hpos : max (AflNv.lenP2 q.inBuf.length / 16) 4 < q.inBuf.length := by omega
  have hattempt : (init q).advance.atAttempt = true := by
    rw [hfirst]
    simpa [atAttempt, init] using hpos
  refine ⟨?_, hattempt⟩
  rw [← settle_advance (by simp [init]) (by simp [init, atAttempt])]
  exact settle_of_settled (.inr hattempt)

/-! ## What an attempt leaves to do -/

/-- An upper bound on the attempts that are left, for an entry of at most `len`
bytes. -/
def work (len : ℕ) (v : TrimVars) : ℕ :=
  if v.pc = .done then 0
  else v.removeLen * (2 * len + 1) + (v.inBuf.length + (v.inBuf.length - v.removePos))

theorem resolve_pc (same : Bool) (v : TrimVars) : (v.resolve same).pc = v.pc := by
  cases same <;> rfl

theorem resolve_removeLen (same : Bool) (v : TrimVars) :
    (v.resolve same).removeLen = v.removeLen := by
  cases same <;> rfl

theorem trimAvail_le (v : TrimVars) : v.trimAvail ≤ v.inBuf.length - v.removePos :=
  Nat.min_le_right _ _

/-- An attempt makes the entry shorter or moves on in it. -/
theorem resolve_progress {v : TrimVars} (same : Bool) (hpos : v.removePos < v.inBuf.length)
    (hmin : 4 ≤ v.removeLen) :
    (v.resolve same).inBuf.length ≤ v.inBuf.length ∧
      (v.resolve same).inBuf.length +
          ((v.resolve same).inBuf.length - (v.resolve same).removePos) <
        v.inBuf.length + (v.inBuf.length - v.removePos) := by
  have havail := v.trimAvail_le
  have hsome : 0 < v.trimAvail := by
    rw [trimAvail]
    omega
  cases same with
  | false =>
    simp only [resolve, Bool.false_eq_true, if_false]
    omega
  | true =>
    have hlen : (gapped v.inBuf v.removePos v.trimAvail).length =
        v.inBuf.length - v.trimAvail := length_gapped (by omega)
    simp only [resolve, if_true, hlen]
    omega

theorem work_next {len : ℕ} {v : TrimVars} (same : Bool) (hattempt : v.atAttempt = true)
    (hmin : 4 ≤ v.removeLen) (hlen : v.inBuf.length ≤ len) :
    (v.resolve same).settle.work len < v.work len := by
  obtain ⟨hpc, hpos⟩ : v.pc = .inner ∧ v.removePos < v.inBuf.length := by
    simpa [atAttempt] using hattempt
  obtain ⟨hshort, hless⟩ := resolve_progress same hpos hmin
  have hv : v.work len = v.removeLen * (2 * len + 1) +
      (v.inBuf.length + (v.inBuf.length - v.removePos)) := by
    rw [work, if_neg (by simp [hpc])]
  have hwpc : (v.resolve same).pc = .inner := (resolve_pc same v).trans hpc
  rw [hv]
  by_cases hagain : (v.resolve same).atAttempt = true
  · -- The next attempt is in the same pass over the entry.
    rw [settle_of_settled (.inr hagain), work, if_neg (by simp [hwpc]), resolve_removeLen]
    omega
  · -- The pass is over: the chunks get smaller.
    rw [← settle_advance (by simp [hwpc]) hagain]
    have hhalf : (v.resolve same).advance.removeLen = v.removeLen / 2 ∧
        (v.resolve same).advance.inBuf = (v.resolve same).inBuf := by
      simp only [advance, hwpc, resolve_removeLen, and_self]
    have hs := settled_settle (v.resolve same).advance
    have hle := hs.removeLen_le
    have hbuf := hs.inBuf
    rw [hhalf.1] at hle
    rw [hhalf.2] at hbuf
    rw [work]
    split_ifs with hdone
    · omega
    · rw [hbuf]
      have hmul : (v.resolve same).advance.settle.removeLen * (2 * len + 1) + (2 * len + 1) ≤
          v.removeLen * (2 * len + 1) := by
        rw [← Nat.succ_mul]
        exact Nat.mul_le_mul_right _ (by omega)
      omega

end TrimVars

/-! ## The schedule -/

/-- The loops of `trim_case`, from attempt to attempt: `same k` says whether
execution `k` had no impact on the trace, `accepts` is the filter. -/
def trimLoop (same : ℕ → Bool) (accepts : ℕ → TrimVars → Bool) : Polling.Loop TrimVars where
  done v := v.pc = .done
  next k v := (v.resolve (same k)).settle
  accepts := accepts

/-- The schedule of trimming: the variables at attempt `k`; behind the last attempt
the program counter is `done`. -/
def trimSchedule (q : QueueEntry) (same : ℕ → Bool) : ℕ → TrimVars :=
  (trimLoop same fun _ _ => true).chain (TrimVars.init q).settle

theorem chain_trimLoop (q : QueueEntry) (same : ℕ → Bool) (accepts : ℕ → TrimVars → Bool)
    (k : ℕ) :
    (trimLoop same accepts).chain (TrimVars.init q).settle k = trimSchedule q same k := by
  rw [trimSchedule]
  refine Polling.Loop.chain_congr ?_ ?_ k (Nat.le_refl k)
  · rfl
  · exact fun _ _ => rfl

/-- What holds at every point of the schedule. -/
structure ScheduleInv (q : QueueEntry) (v : TrimVars) : Prop where
  settled : v.pc = .done ∨ v.atAttempt = true
  short : v.inBuf.length ≤ q.inBuf.length
  removeLen_le : v.removeLen ≤ (TrimVars.init q).removeLen
  min_bytes : v.pc = .inner → 4 ≤ v.removeLen

theorem ScheduleInv.inner {q : QueueEntry} {v : TrimVars} (h : ScheduleInv q v)
    (hdone : v.pc ≠ .done) : v.pc = .inner ∧ v.removePos < v.inBuf.length := by
  have hattempt := h.settled.resolve_left hdone
  simpa [TrimVars.atAttempt] using hattempt

theorem trimSchedule_inv (q : QueueEntry) (same : ℕ → Bool) (k : ℕ) :
    ScheduleInv q (trimSchedule q same k) := by
  induction k with
  | zero =>
    have hs := TrimVars.settled_settle (.init q)
    refine ⟨hs.settled, ?_, hs.removeLen_le, hs.min_bytes fun hinner => ?_⟩
    · show (TrimVars.init q).settle.inBuf.length ≤ q.inBuf.length
      rw [hs.inBuf]
      exact Nat.le_refl _
    · exact TrimPc.noConfusion hinner
  | succ k ih =>
    rw [trimSchedule, Polling.Loop.chain]
    split_ifs with hdone
    · exact ih
    · obtain ⟨hpc, hpos⟩ := ih.inner fun h => hdone (decide_eq_true h)
      have hmin := ih.min_bytes hpc
      have hs := TrimVars.settled_settle ((trimSchedule q same k).resolve (same k))
      refine ⟨hs.settled, ?_, ?_, hs.min_bytes fun _ => ?_⟩
      · show (((trimSchedule q same k).resolve (same k)).settle).inBuf.length ≤ _
        rw [hs.inBuf]
        exact (TrimVars.resolve_progress (same k) hpos hmin).1.trans ih.short
      · refine hs.removeLen_le.trans ?_
        rw [TrimVars.resolve_removeLen]
        exact ih.removeLen_le
      · rw [TrimVars.resolve_removeLen]
        exact hmin

/-- `remove_pos += remove_len` stays within 32 bits at every attempt. -/
theorem trimSchedule_no_overflow (q : QueueEntry) (same : ℕ → Bool) (k : ℕ)
    (h : (trimSchedule q same k).pc ≠ .done) :
    (trimSchedule q same k).removePos + (trimSchedule q same k).removeLen < 2 ^ 32 := by
  have hinv := trimSchedule_inv q same k
  obtain ⟨-, hpos⟩ := hinv.inner h
  have hshort := hinv.short
  have hlen := q.len_le
  have hremove := hinv.removeLen_le
  have hp2 : lenP2 q.inBuf.length < 2 ^ 32 := Nat.mod_lt _ (by decide)
  simp only [TrimVars.init, maxFile] at hremove hlen
  omega

/-- The schedule ends, whatever the target does. -/
theorem trimSchedule_finite (q : QueueEntry) (same : ℕ → Bool) :
    ∃ k ≤ (TrimVars.init q).settle.work q.inBuf.length, (trimSchedule q same k).pc = .done := by
  obtain ⟨k, hle, hdone⟩ := Polling.Loop.exists_done_of_measure
    (L := trimLoop same fun _ _ => true) (s := (TrimVars.init q).settle)
    (TrimVars.work q.inBuf.length) fun k hk => by
      have hinv := trimSchedule_inv q same k
      obtain ⟨hpc, hpos⟩ := hinv.inner (of_decide_eq_false hk)
      exact TrimVars.work_next (same k) (by simpa [TrimVars.atAttempt] using ⟨hpc, hpos⟩)
        (hinv.min_bytes hpc) hinv.short
  exact ⟨k, hle, of_decide_eq_true hdone⟩

/-! ## The machine goes through the schedule -/

/-- Whether execution `k` of a call counts as having had no impact. -/
def TrimEnv.same (env : TrimEnv) (execCksum : UInt64) (k : ℕ) : Bool :=
  (env.runs k).cksum = execCksum

section

variable {R : Type}

/-- The filter lets the attempt through, in iteration `i`. -/
def filterAccepts (cfg : AflCfg R) (env : TrimEnv) (i : ℕ) (v : TrimVars) : Bool :=
  !(cfg.nvTask.enableValidity &&
    (nvValidityCheck cfg.target cfg.nvTask (env.replies i) v.inBuf).isReject)

/-- The place of a call in the schedule. -/
def TrimState.abs (s : TrimState R) : Polling.Pos TrimVars :=
  ⟨s.iterations, s.trimExec, s.vars.settle⟩

variable (cfg : AflCfg R) (env : TrimEnv) (execCksum : UInt64)

/-- One iteration of the inner loop is one question to the filter, and on a yes one
step of the schedule. -/
theorem trimIteration_abs {s : TrimState R} (hattempt : s.vars.atAttempt = true) :
    (trimIteration cfg env execCksum s).abs =
      (trimLoop (env.same execCksum) (filterAccepts cfg env)).ask s.abs := by
  have hsettled : s.vars.settle = s.vars := TrimVars.settle_of_settled (.inr hattempt)
  have hrunning : decide (s.vars.pc = .done) = false := by
    have hpc : s.vars.pc = .inner := by
      simp only [TrimVars.atAttempt, Bool.and_eq_true, decide_eq_true_eq] at hattempt
      exact hattempt.1
    simp [hpc]
  simp only [Polling.Loop.ask, TrimState.abs, trimLoop, hsettled, hrunning, filterAccepts,
    trimIteration, Bool.false_eq_true, if_false]
  by_cases henable : cfg.nvTask.enableValidity = true
  · simp only [henable, if_true, Bool.true_and]
    by_cases hreject : (nvValidityCheck cfg.target cfg.nvTask (env.replies s.iterations)
        s.vars.inBuf).isReject = true
    · simp [hreject, hsettled]
    · simp [hreject, trimExecute, TrimEnv.same]
  · simp [henable, trimExecute, TrimEnv.same]

/-- A step that is no iteration of the inner loop only evaluates a loop
condition. -/
theorem trimStep_silent {s : TrimState R} (hattempt : s.vars.atAttempt ≠ true) :
    let t := trimStep cfg env execCksum s
    t.vars = s.vars.advance ∧ t.iterations = s.iterations ∧ t.trimExec = s.trimExec ∧
      t.permanent = s.permanent := by
  simp only [trimStep, if_neg hattempt]
  split_ifs <;> exact ⟨rfl, rfl, rfl, rfl⟩

/-- Every step is an iteration, or brings the next attempt or the end closer. -/
theorem trimStep_abs (s : TrimState R) :
    (trimStep cfg env execCksum s).abs =
        (trimLoop (env.same execCksum) (filterAccepts cfg env)).ask s.abs ∨
      (trimStep cfg env execCksum s).abs = s.abs ∧
        (trimStep cfg env execCksum s).vars.rank < s.vars.rank := by
  by_cases hattempt : s.vars.atAttempt = true
  · rw [trimStep, if_pos hattempt]
    exact .inl (trimIteration_abs cfg env execCksum hattempt)
  · obtain ⟨hvars, hiterations, hexec, -⟩ := trimStep_silent cfg env execCksum hattempt
    by_cases hdone : s.vars.pc = .done
    · have hsame : s.vars.advance = s.vars := by simp only [TrimVars.advance, hdone]
      have hsettled : s.vars.settle = s.vars := TrimVars.settle_of_settled (.inl hdone)
      left
      rw [Polling.Loop.ask_of_done]
      · simp only [TrimState.abs, hvars, hiterations, hexec, hsame]
      · simp [TrimState.abs, trimLoop, hsettled, hdone]
    · right
      refine ⟨?_, ?_⟩
      · simp only [TrimState.abs, hvars, hiterations, hexec,
          TrimVars.settle_advance hdone hattempt]
      · rw [hvars]
        exact TrimVars.rank_advance hdone

/-- A few steps bring the loops to the next attempt or to their end. -/
theorem exists_settled (s : TrimState R) :
    ∃ n, let t := (trimStep cfg env execCksum)^[n] s
      t.vars = s.vars.settle ∧ t.iterations = s.iterations ∧ t.trimExec = s.trimExec := by
  induction hd : s.vars.rank using Nat.strong_induction_on generalizing s with
  | _ d ih =>
    by_cases hsettled : s.vars.pc = .done ∨ s.vars.atAttempt = true
    · exact ⟨0, (TrimVars.settle_of_settled hsettled).symm, rfl, rfl⟩
    · have hnot := not_or.mp hsettled
      obtain ⟨hvars, hiterations, hexec, -⟩ := trimStep_silent cfg env execCksum hnot.2
      have hsettle := TrimVars.settle_advance hnot.1 hnot.2
      have hlt := TrimVars.rank_advance hnot.1
      rw [← hvars] at hsettle hlt
      obtain ⟨n, hn⟩ := ih _ (hd ▸ hlt) (trimStep cfg env execCksum s) rfl
      rw [hsettle, hiterations, hexec] at hn
      exact ⟨n + 1, hn⟩

end

end AflNv
