import AflNv.RunTarget

/-!
# The counters behind the error and recovery scores

`fuzz_run_target` counts executions, errors and recoveries.  A run here is a list
of its calls, each under its own stage and queue entry.

The counters are gated differently.  An execution that exhausts the budget is
counted, but the function returns before its error is.  A fault with a status
document is counted as a recovery even when the execution is not counted.
`countersSound_iff` says which runs neither of the two spoils.
-/

namespace AflNv

open AflNv.Lib

/-! ## One call -/

/-- The results that are errors whatever the status document says. -/
def FsrvRunResult.isFault : FsrvRunResult → Bool
  | .crash | .tmout | .error => true
  | .ok | .noinst | .nobits => false

/-- The status document reports an error of the target. -/
def NvStatus.isErr (st : NvStatus) : Bool := st.isException || 500 ≤ st.httpCode

/-- A call of `fuzz_run_target`, with what it finds in `stage_name` and
`queue_cur`. -/
structure ExecCall where
  stageName : Option Bytes
  queueCur : Option ℕ
  env : RunEnv

/-- The call is one of the fuzzing loop. -/
def ExecCall.counted (c : ExecCall) : Bool :=
  c.queueCur.isSome &&
    c.stageName.all fun name => name ≠ ascii "dry_run" && name ≠ ascii "calibration"

section

variable {R : Type} (cfg : AflCfg R)

/-- The fuzzer sets the stage and the queue entry before the call. -/
def ExecCall.enter (c : ExecCall) (s : Afl R) : Afl R :=
  { s with stageName := c.stageName, sec := { s.sec with queueCur := c.queueCur } }

/-- A call of `fuzz_run_target` as a step of a run. -/
def execStep (s : Afl R) (c : ExecCall) : FsrvRunResult × Afl R :=
  fuzzRunTarget cfg c.env (c.enter s)

/-- The status document behind an execution. -/
def RunEnv.status (env : RunEnv) : Option NvStatus := nvReadStatusJson cfg env.world

/-- The execution ended in an error. -/
def RunEnv.endsInError (env : RunEnv) : Bool :=
  env.res.isFault || env.res = .ok && (env.status cfg).any NvStatus.isErr

/-- The execution counts as one the target may recover from. -/
def RunEnv.recorded (counted : Bool) (env : RunEnv) : Bool :=
  (env.status cfg).isSome && (env.res.isFault || counted && env.endsInError cfg)

theorem accountRun_counters (env : RunEnv) (counted : Bool) (s : Afl R) :
    let t := accountRun cfg env counted s
    t.nvTotalValidExec = s.nvTotalValidExec ∧
      t.nvErrExec = s.nvErrExec + (counted && env.endsInError cfg).toNat ∧
      t.nvRecTotal = s.nvRecTotal + (env.recorded cfg counted).toNat ∧
      t.nvRecSuccess = s.nvRecSuccess +
        (env.recorded cfg counted && (env.status cfg).any NvStatus.recovered).toNat := by
  have hobserve : ∀ s : Afl R, let t := observeUncounted cfg env.world s
      t.nvTotalValidExec = s.nvTotalValidExec ∧ t.nvErrExec = s.nvErrExec ∧
        t.nvRecTotal = s.nvRecTotal ∧ t.nvRecSuccess = s.nvRecSuccess := by
    intro s
    simp only [observeUncounted]
    split <;> exact ⟨rfl, rfl, rfl, rfl⟩
  have hrecovery : ∀ (st : NvStatus) (s : Afl R), let t := s.countRecovery st
      t.nvTotalValidExec = s.nvTotalValidExec ∧ t.nvErrExec = s.nvErrExec ∧
        t.nvRecTotal = s.nvRecTotal + 1 ∧
        t.nvRecSuccess = s.nvRecSuccess + st.recovered.toNat := by
    intro st s
    simp only [Afl.countRecovery]
    cases st.recovered <;> exact ⟨rfl, rfl, rfl, rfl⟩
  simp only [accountRun, RunEnv.recorded, RunEnv.endsInError, RunEnv.status]
  cases hst : nvReadStatusJson cfg env.world with
  | none => cases hres : env.res <;> cases counted <;> simp [FsrvRunResult.isFault]
  | some st =>
    cases hres : env.res with
    | ok =>
      cases herr : (st.isException || decide (500 ≤ st.httpCode)) <;> cases counted <;>
        simp [FsrvRunResult.isFault, herr, NvStatus.isErr, hobserve, hrecovery]
    | crash | tmout | error => cases counted <;> simp [FsrvRunResult.isFault, hrecovery]
    | noinst | nobits => simp [FsrvRunResult.isFault]

/-- This call uses up the budget, or comes after it was used up; `n` is the number
of counted executions with this one. -/
def exhausts (counted : Bool) (n : ℕ) : Prop :=
  counted = true ∧ cfg.nvTask.maxTestCases ≠ 0 ∧ cfg.nvTask.maxTestCases ≤ n

instance (counted : Bool) (n : ℕ) : Decidable (exhausts cfg counted n) :=
  inferInstanceAs (Decidable (_ ∧ _))

/-- What one call does to the counters. -/
theorem execStep_counters (s : Afl R) (c : ExecCall) :
    let t := (execStep cfg s c).2
    t.nvTotalValidExec = s.nvTotalValidExec + c.counted.toNat ∧
      if exhausts cfg c.counted t.nvTotalValidExec then
        t.nvErrExec = s.nvErrExec ∧ t.nvRecTotal = s.nvRecTotal ∧ t.nvRecSuccess = s.nvRecSuccess
      else
        t.nvErrExec = s.nvErrExec + (c.counted && c.env.endsInError cfg).toNat ∧
          t.nvRecTotal = s.nvRecTotal + (c.env.recorded cfg c.counted).toNat ∧
          t.nvRecSuccess = s.nvRecSuccess +
            (c.env.recorded cfg c.counted && (c.env.status cfg).any NvStatus.recovered).toNat := by
  have hreceive : ∀ s : Afl R, let t := s.receive c.env.signals
      t.nvTotalValidExec = s.nvTotalValidExec ∧ t.nvErrExec = s.nvErrExec ∧
        t.nvRecTotal = s.nvRecTotal ∧ t.nvRecSuccess = s.nvRecSuccess := by
    intro s
    simp only [Afl.receive]
    split_ifs <;> exact ⟨rfl, rfl, rfl, rfl⟩
  have hcounted : (aflFsrvRunTarget c.env (c.enter s)).counted = c.counted := by
    rw [aflFsrvRunTarget_counted]
    rfl
  obtain ⟨htotal, herr, hrec, hsucc⟩ := hreceive (c.enter s)
  simp only [execStep, fuzzRunTarget, hcounted]
  cases hc : c.counted with
  | false =>
    obtain ⟨atotal, aerr, arec, asucc⟩ := accountRun_counters cfg c.env false
      (aflFsrvRunTarget c.env (c.enter s))
    simp only [Bool.false_eq_true, if_false, exhausts, false_and, Bool.toNat_false, add_zero]
    exact ⟨atotal.trans htotal, aerr.trans (congrArg (· + _) herr),
      arec.trans (congrArg (· + _) hrec), asucc.trans (congrArg (· + _) hsucc)⟩
  | true =>
    simp only [if_true, Bool.toNat_true]
    split_ifs with hbudget hexhausts hexhausts
    · exact ⟨congrArg (· + 1) htotal, herr, hrec, hsucc⟩
    · exact absurd ⟨rfl, hbudget⟩ hexhausts
    · obtain ⟨atotal, -⟩ := accountRun_counters cfg c.env true
        { aflFsrvRunTarget c.env (c.enter s) with
          nvTotalValidExec := (aflFsrvRunTarget c.env (c.enter s)).nvTotalValidExec + 1 }
      simp only [exhausts, atotal, true_and] at hexhausts
      exact absurd hexhausts hbudget
    · obtain ⟨atotal, aerr, arec, asucc⟩ := accountRun_counters cfg c.env true
        { aflFsrvRunTarget c.env (c.enter s) with
          nvTotalValidExec := (aflFsrvRunTarget c.env (c.enter s)).nvTotalValidExec + 1 }
      exact ⟨atotal.trans (congrArg (· + 1) htotal), aerr.trans (congrArg (· + _) herr),
        arec.trans (congrArg (· + _) hrec), asucc.trans (congrArg (· + _) hsucc)⟩

/-! ## Runs -/

/-- A counted execution that ended in an error. -/
def ExecCall.countedError (c : ExecCall) : Bool := c.counted && c.env.endsInError cfg

/-- A fault outside the fuzzing loop with a status document. -/
def ExecCall.uncountedRecovery (c : ExecCall) : Bool :=
  !c.counted && c.env.res.isFault && (c.env.status cfg).isSome

/-- A fault of the fuzzing loop without a status document. -/
def ExecCall.silentFault (c : ExecCall) : Bool :=
  c.counted && c.env.res.isFault && (c.env.status cfg).isNone

/-- The counters are in order after these calls. -/
structure CountersSound (calls : List ExecCall) (s : Afl R) : Prop where
  success_le : s.nvRecSuccess ≤ s.nvRecTotal
  rec_le : s.nvRecTotal ≤ s.nvErrExec
  err_le : s.nvErrExec ≤ s.nvTotalValidExec
  err_eq : s.nvErrExec = calls.countP (ExecCall.countedError cfg)

/-- No error falls on an execution that exhausts the budget. -/
def NoLateError (calls : List ExecCall) : Prop :=
  ∀ p c, p ++ [c] <+: calls → c.countedError cfg = true →
    ¬ exhausts cfg c.counted ((p ++ [c]).countP ExecCall.counted)

theorem countP_concat {α : Type} (p : α → Bool) (l : List α) (a : α) :
    (l ++ [a]).countP p = l.countP p + (p a).toNat := by
  rw [List.countP_append, List.countP_singleton]
  cases p a <;> rfl

/-- The counters after a run from zero. -/
structure CountersOf (calls : List ExecCall) (s : Afl R) : Prop where
  total_eq : s.nvTotalValidExec = calls.countP ExecCall.counted
  err_le : s.nvErrExec ≤ calls.countP (ExecCall.countedError cfg)
  success_le : s.nvRecSuccess ≤ s.nvRecTotal
  err_eq : NoLateError cfg calls → s.nvErrExec = calls.countP (ExecCall.countedError cfg)
  rec_eq : NoLateError cfg calls →
    s.nvRecTotal = calls.countP fun c => c.env.recorded cfg c.counted

theorem countersOf_run {s₀ : Afl R} (h0 : s₀.nvTotalValidExec = 0 ∧ s₀.nvErrExec = 0 ∧
    s₀.nvRecTotal = 0 ∧ s₀.nvRecSuccess = 0) (calls : List ExecCall) :
    CountersOf cfg calls (Machine.run (execStep cfg) s₀ calls) := by
  induction calls using List.reverseRecOn with
  | nil =>
    obtain ⟨htotal, herr, hrec, hsucc⟩ := h0
    exact ⟨htotal, herr.le, (hsucc.trans hrec.symm).le, fun _ => herr, fun _ => hrec⟩
  | append_singleton calls c ih =>
    rw [Machine.run_concat]
    obtain ⟨htotal, hcounters⟩ :=
      execStep_counters cfg (Machine.run (execStep cfg) s₀ calls) c
    have hearlier : NoLateError cfg (calls ++ [c]) → NoLateError cfg calls :=
      fun h p d hp => h p d (hp.trans (List.prefix_append calls [c]))
    have htotal' : (execStep cfg (Machine.run (execStep cfg) s₀ calls) c).2.nvTotalValidExec =
        (calls ++ [c]).countP ExecCall.counted := by
      rw [htotal, ih.total_eq, countP_concat]
    refine ⟨htotal', ?_, ?_, fun hlate => ?_, fun hlate => ?_⟩
    · have herr := ih.err_le
      rw [countP_concat, ExecCall.countedError]
      split_ifs at hcounters <;> omega
    · have hsucc := ih.success_le
      have hle : (c.env.recorded cfg c.counted &&
          (c.env.status cfg).any NvStatus.recovered).toNat ≤
          (c.env.recorded cfg c.counted).toNat := by
        cases c.env.recorded cfg c.counted
        · exact Nat.le_refl _
        · exact Bool.toNat_le _
      split_ifs at hcounters <;> omega
    · have herr := ih.err_eq (hearlier hlate)
      rw [countP_concat, ExecCall.countedError]
      split_ifs at hcounters with hexhausts
      · -- The budget is used up, so the execution is no error.
        rw [htotal'] at hexhausts
        have hno : c.countedError cfg ≠ true :=
          fun h => hlate calls c (List.prefix_refl _) h hexhausts
        have hnoerr : (c.counted && c.env.endsInError cfg) = false := Bool.eq_false_of_not_eq_true hno
        rw [hcounters.1, herr, hnoerr, Bool.toNat_false, add_zero]
      · rw [hcounters.1, herr]
    · have hrec := ih.rec_eq (hearlier hlate)
      rw [countP_concat]
      split_ifs at hcounters with hexhausts
      · rw [htotal'] at hexhausts
        have hno : c.countedError cfg ≠ true :=
          fun h => hlate calls c (List.prefix_refl _) h hexhausts
        have hnorec : c.env.recorded cfg c.counted = false := by
          have hc := hexhausts.1
          simp only [ExecCall.countedError, hc, Bool.true_and, Bool.not_eq_true,
            RunEnv.endsInError, Bool.or_eq_false_iff] at hno
          simp [RunEnv.recorded, RunEnv.endsInError, hc, hno.1, hno.2]
        rw [hcounters.2.1, hrec, hnorec, Bool.toNat_false, add_zero]
      · rw [hcounters.2.1, hrec]

/-- Every recorded recovery belongs to a counted error or to an uncounted fault, and
every counted error is recorded or silent. -/
theorem countP_recorded (calls : List ExecCall) :
    (calls.countP fun c => c.env.recorded cfg c.counted) +
        calls.countP (ExecCall.silentFault cfg) =
      calls.countP (ExecCall.countedError cfg) +
        calls.countP (ExecCall.uncountedRecovery cfg) := by
  induction calls using List.reverseRecOn with
  | nil => rfl
  | append_singleton calls c ih =>
    have hone : (c.env.recorded cfg c.counted).toNat + (c.silentFault cfg).toNat =
        (c.countedError cfg).toNat + (c.uncountedRecovery cfg).toNat := by
      simp only [RunEnv.recorded, RunEnv.endsInError, ExecCall.silentFault,
        ExecCall.countedError, ExecCall.uncountedRecovery]
      cases c.counted <;> cases c.env.res.isFault <;> cases c.env.status cfg <;> simp
    rw [countP_concat, countP_concat, countP_concat, countP_concat]
    omega

/-- The counters are in order all along a run exactly when no error falls on an
execution that exhausts the budget, and at every point the faults outside the fuzzing
loop that have a status document are no more than the faults in the loop that have
none. -/
theorem countersSound_iff {s₀ : Afl R} (h0 : s₀.nvTotalValidExec = 0 ∧ s₀.nvErrExec = 0 ∧
    s₀.nvRecTotal = 0 ∧ s₀.nvRecSuccess = 0) (calls : List ExecCall) :
    (∀ p, p <+: calls → CountersSound cfg p (Machine.run (execStep cfg) s₀ p)) ↔
      NoLateError cfg calls ∧ ∀ p, p <+: calls →
        p.countP (ExecCall.uncountedRecovery cfg) ≤ p.countP (ExecCall.silentFault cfg) := by
  constructor
  · intro h
    have hlate : NoLateError cfg calls := by
      intro p c hp herror hexhausts
      have hbefore := (h p ((List.prefix_append p [c]).trans hp)).err_eq
      have hafter := (h (p ++ [c]) hp).err_eq
      have htotal := (countersOf_run cfg h0 (p ++ [c])).total_eq
      rw [Machine.run_concat] at hafter htotal
      obtain ⟨-, hcounters⟩ := execStep_counters cfg (Machine.run (execStep cfg) s₀ p) c
      rw [htotal, if_pos hexhausts] at hcounters
      rw [countP_concat, herror, Bool.toNat_true, hcounters.1] at hafter
      omega
    refine ⟨hlate, fun p hp => ?_⟩
    have hsound := h p hp
    have hrec := (countersOf_run cfg h0 p).rec_eq fun q c hq => hlate q c (hq.trans hp)
    have hsum := countP_recorded cfg p
    have hle := hsound.rec_le
    rw [hrec, hsound.err_eq] at hle
    omega
  · rintro ⟨hlate, hfaults⟩ p hp
    have hof := countersOf_run cfg h0 p
    have hlate' : NoLateError cfg p := fun q c hq => hlate q c (hq.trans hp)
    have hle : p.countP (ExecCall.countedError cfg) ≤ p.countP ExecCall.counted :=
      List.countP_mono_left fun c _ hc => by
        rw [ExecCall.countedError, Bool.and_eq_true] at hc
        exact hc.1
    have hsum := countP_recorded cfg p
    have hfault := hfaults p hp
    have herr := hof.err_eq hlate'
    have hrec := hof.rec_eq hlate'
    have htotal := hof.total_eq
    exact ⟨hof.success_le, by omega, by omega, herr⟩

end

/-! ## A crash and a budget -/

/-- A fuzzer with a budget of `n` executions. -/
def budgetCfg (n : ℕ) : AflCfg ℚ where
  lib := .ofDocs []
  fmt := ratFmt
  target := ⟨false, []⟩
  nvTask := ⟨false, .finite 0, none, n⟩
  testcase := .plain
  audit := ⟨none, none⟩
  nvStatusPath := none
  outDir := ascii "out"

/-- A crash in the fuzzing loop. -/
def crashCall : ExecCall where
  stageName := some (ascii "havoc")
  queueCur := some 0
  env := ⟨.crash, .none, ⟨none, fun _ => none⟩⟩

/-- With a budget of two executions one crash is counted as it should. -/
theorem countersSound_crash :
    CountersSound (budgetCfg 2) [crashCall]
      (Machine.run (execStep (budgetCfg 2)) (.init (.init none)) [crashCall]) := by
  refine (countersSound_iff (budgetCfg 2) ⟨rfl, rfl, rfl, rfl⟩ [crashCall]).mpr
    ⟨fun p c hp _ hexhausts => ?_, fun p hp => ?_⟩ [crashCall] (List.prefix_refl _)
  · have hle : (p ++ [c]).countP ExecCall.counted ≤ 1 :=
      List.countP_le_length.trans hp.length_le
    have htwo : 2 ≤ (p ++ [c]).countP ExecCall.counted := hexhausts.2.2
    omega
  · have hnone : p.countP (ExecCall.uncountedRecovery (budgetCfg 2)) = 0 := by
      refine List.countP_eq_zero.mpr fun c hc => ?_
      rw [List.mem_singleton.mp (hp.subset hc)]
      decide
    omega

/-- With a budget of one execution the crash is not counted. -/
theorem crash_not_counted :
    ¬ ∀ p, p <+: [crashCall] → CountersSound (budgetCfg 1) p
      (Machine.run (execStep (budgetCfg 1)) (.init (.init none)) p) := by
  intro h
  have herr := (h [crashCall] (List.prefix_refl _)).err_eq
  exact absurd herr (by decide)

end AflNv
