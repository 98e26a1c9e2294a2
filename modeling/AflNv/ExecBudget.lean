import AflNv.CommonFuzz
import AflNv.ExecCounters
import AflNv.TrimTrace

/-!
# The execution budget

`max_test_cases` bounds the executions of the fuzzing loop.  `fuzz_run_target`
asks for a stop when the budget is used up, and whoever executes the target has to
look at the request before the next execution.

`common_fuzz_stuff` looks at it once, behind its own execution, and
`trim_case_custom` behind every one of its own; the loops of `trim_case`
and the further executions of `save_if_interesting` do not look.
`valid_exec_le` is the bound for the runs whose calls fit into what is left.
-/

namespace AflNv

open AflNv.Lib

section

variable {R : Type} (cfg : AflCfg R)

/-! ## What an execution takes from the budget -/

theorem Afl.receive_total (sig : Signals) (s : Afl R) :
    (s.receive sig).nvTotalValidExec = s.nvTotalValidExec := by
  rw [Afl.receive]
  split_ifs <;> rfl

theorem Afl.receive_stopSoon {sig : Signals} {s : Afl R} (h : s.stopSoon ≠ 0) :
    (s.receive sig).stopSoon ≠ 0 := by
  rw [Afl.receive]
  split_ifs
  · exact Nat.one_ne_zero
  · exact h

/-- A counted execution takes one from the budget. -/
theorem fuzzRunTarget_total (env : RunEnv) (s : Afl R) :
    (fuzzRunTarget cfg env s).2.nvTotalValidExec = s.nvTotalValidExec + s.counted.toNat := by
  have hrun : (aflFsrvRunTarget env s).nvTotalValidExec = s.nvTotalValidExec :=
    Afl.receive_total env.signals s
  simp only [fuzzRunTarget, aflFsrvRunTarget_counted]
  cases s.counted with
  | true =>
    simp only [if_true, Bool.toNat_true]
    split_ifs
    · exact congrArg (· + 1) hrun
    · exact ((accountRun_counters cfg env true _).1).trans (congrArg (· + 1) hrun)
  | false => exact ((accountRun_counters cfg env false _).1).trans hrun

/-- The execution that exhausts the budget asks for a stop. -/
theorem fuzzRunTarget_stopSoon {env : RunEnv} {s : Afl R} (hcounted : s.counted = true)
    (hbudget : cfg.nvTask.maxTestCases ≠ 0)
    (hused : cfg.nvTask.maxTestCases ≤ s.nvTotalValidExec + 1) :
    (fuzzRunTarget cfg env s).2.stopSoon = 2 := by
  have hrun : (aflFsrvRunTarget env s).nvTotalValidExec = s.nvTotalValidExec :=
    Afl.receive_total env.signals s
  simp only [fuzzRunTarget, aflFsrvRunTarget_counted, hcounted, if_true, hrun]
  rw [if_pos ⟨hbudget, hused⟩]
  rfl

theorem fuzzRunTarget_total_le (env : RunEnv) (s : Afl R) :
    (fuzzRunTarget cfg env s).2.nvTotalValidExec ≤ s.nvTotalValidExec + 1 := by
  rw [fuzzRunTarget_total]
  exact Nat.add_le_add_left (Bool.toNat_le _) _

end

section

variable {R : Type} [Field R] [LinearOrder R] (cfg : AflCfg R)

/-! ## One call of `common_fuzz_stuff` -/

/-- The step runs the target under the current stage. -/
def SaveStep.isRerun : SaveStep → Bool
  | .rerun _ => true
  | .calibration _ | .addToQueue => false

/-- The executions of `save_if_interesting` that are counted: the sanitizer binaries
and the confirmation of a hang. -/
def FuzzEnv.reruns (env : FuzzEnv) : ℕ := env.save.countP SaveStep.isRerun

omit [Field R] [LinearOrder R] in
theorem saveIfInteresting_total (env : FuzzEnv) (s : Afl R) :
    (saveIfInteresting cfg env s).nvTotalValidExec ≤ s.nvTotalValidExec + env.reruns := by
  have hstep : ∀ (step : SaveStep) (s : Afl R), (saveStep cfg s step).nvTotalValidExec ≤
      s.nvTotalValidExec + step.isRerun.toNat := by
    intro step s
    cases step with
    | rerun env => exact fuzzRunTarget_total_le cfg env s
    | calibration env =>
      refine (fuzzRunTarget_total cfg env _).le.trans (Nat.add_le_add_left ?_ _)
      simp [Afl.counted]
    | addToQueue => exact Nat.le_refl _
  have hfold : ∀ (steps : List SaveStep) (s : Afl R),
      (steps.foldl (saveStep cfg) s).nvTotalValidExec ≤
        s.nvTotalValidExec + steps.countP SaveStep.isRerun := by
    intro steps
    induction steps with
    | nil => exact fun s => Nat.le_refl _
    | cons step steps ih =>
      intro s
      have hone := hstep step s
      have hrest := ih (saveStep cfg s step)
      rw [List.foldl_cons, List.countP_cons]
      cases hrerun : step.isRerun <;> simp only [hrerun, Bool.toNat_true, Bool.toNat_false] at hone
        <;> simp <;> omega
  rw [saveIfInteresting]
  split_ifs
  · exact hfold env.save s
  · exact hfold env.save s

theorem fuzzKept_total (env : FuzzEnv) (selectedArm : NvArmId) (obs : NvStateObs) (s : Afl R) :
    (fuzzKept cfg env selectedArm obs s).afl.nvTotalValidExec = s.nvTotalValidExec := by
  have hcommitted : ∀ record committed (s : Afl R),
      (fuzzCommitted cfg env record obs committed s).afl.nvTotalValidExec =
        s.nvTotalValidExec := by
    intro record committed s
    simp only [fuzzCommitted]
    split_ifs <;> rfl
  simp only [fuzzKept]
  split_ifs
  · rfl
  · rfl
  · rfl
  · exact hcommitted _ _ _
  · rfl

/-- Behind its terminal record a call executes the target only in
`save_if_interesting`, and nothing after a stop request. -/
theorem fuzzAlive_total (env : FuzzEnv) (selectedArm : NvArmId) (fault : FsrvRunResult)
    (obs : NvStateObs) (s : Afl R) :
    (fuzzAlive cfg env selectedArm fault obs s).afl.nvTotalValidExec ≤
      s.nvTotalValidExec + if s.stopSoon = 0 then env.reruns else 0 := by
  have hreceive := Afl.receive_total env.lateSignals s
  have hcleared : ∀ n, (s.receive env.lateSignals).nvTotalValidExec ≤ s.nvTotalValidExec + n :=
    fun n => hreceive.le.trans (Nat.le_add_right _ n)
  by_cases hstop : s.stopSoon = 0
  · rw [if_pos hstop]
    simp only [fuzzAlive]
    split_ifs
    · exact hcleared _
    · exact hcleared _
    · exact hcleared _
    · exact hcleared _
    · rw [fuzzKept_total]
      exact (saveIfInteresting_total cfg env _).trans (Nat.add_le_add_right hreceive.le _)
  · have hlate : (s.receive env.lateSignals).stopSoon ≠ 0 := Afl.receive_stopSoon hstop
    simp only [fuzzAlive, if_pos hlate]
    split_ifs
    · exact hcleared _
    · exact hcleared _

omit [Field R] [LinearOrder R] in
theorem nvExecutionLedgerAppend_stopSoon {env : AuditEnv} {io : AppendIo} {r : ExecutionRecord}
    {s : AuditState R} (h : s.stopSoon ≠ 0) :
    (nvExecutionLedgerAppend env io r s).2.stopSoon ≠ 0 := by
  unfold nvExecutionLedgerAppend
  dsimp only
  split_ifs
  all_goals first | exact h | exact Nat.one_ne_zero

theorem fuzzTerminal_total (env : FuzzEnv) (selectedArm : NvArmId) (fault : FsrvRunResult)
    (obs : NvStateObs) (s : Afl R) :
    (fuzzTerminal cfg env selectedArm fault obs s).afl.nvTotalValidExec ≤
      s.nvTotalValidExec + if s.stopSoon = 0 then env.reruns else 0 := by
  have hle : ∀ audit : AuditState R, (s.stopSoon ≠ 0 → audit.stopSoon ≠ 0) →
      (fuzzAlive cfg env selectedArm fault obs { s with audit := audit }).afl.nvTotalValidExec ≤
        s.nvTotalValidExec + if s.stopSoon = 0 then env.reruns else 0 := by
    intro audit hstop
    refine (fuzzAlive_total cfg env selectedArm fault obs _).trans (Nat.add_le_add_left ?_ _)
    split_ifs with haudit hs
    · exact Nat.le_refl _
    · exact absurd haudit (hstop hs)
    · exact Nat.zero_le _
    · exact Nat.le_refl _
  have hsame := hle s.audit id
  generalize (if s.stopSoon = 0 then env.reruns else 0) = n at hle hsame ⊢
  simp only [fuzzTerminal]
  split_ifs
  · exact Nat.le_add_right _ _
  · exact hle _ fun h => nvExecutionLedgerAppend_stopSoon h
  · exact hle _ fun h => nvExecutionLedgerAppend_stopSoon h
  · exact hsame

/-- A call executes its input at most once, and then what `save_if_interesting`
adds unless the budget is used up. -/
theorem commonFuzzStuff_total {env : FuzzEnv} {outBuf : Bytes} {s : Afl R}
    (hbudget : cfg.nvTask.maxTestCases ≠ 0)
    (hle : s.nvTotalValidExec ≤ cfg.nvTask.maxTestCases)
    (hfits : (passesFilters cfg env outBuf s).isSome = true →
      s.counted = true ∧ s.nvTotalValidExec < cfg.nvTask.maxTestCases ∧
        (s.nvTotalValidExec + 1 = cfg.nvTask.maxTestCases ∨
          s.nvTotalValidExec + 1 + env.reruns ≤ cfg.nvTask.maxTestCases)) :
    (commonFuzzStuff cfg env outBuf s).afl.nvTotalValidExec ≤ cfg.nvTask.maxTestCases := by
  cases hpass : passesFilters cfg env outBuf s with
  | none =>
    have hsame : (commonFuzzStuff cfg env outBuf s).afl.nvTotalValidExec =
        s.nvTotalValidExec := by
      simp only [passesFilters] at hpass
      simp only [commonFuzzStuff]
      split_ifs at hpass ⊢ <;> rfl
    exact hsame.le.trans hle
  | some t =>
    rw [hpass] at hfits
    obtain ⟨hcounted, hlt, hroom⟩ := hfits rfl
    obtain ⟨hcall, -, -, -, htcounted⟩ := commonFuzzStuff_of_passes hpass
    have httotal : t.nvTotalValidExec = s.nvTotalValidExec := by
      simp only [passesFilters] at hpass
      split_ifs at hpass
      · rw [← Option.some.inj hpass]
      · rw [← Option.some.inj hpass]
    have hrun : (fuzzRunTarget cfg env.run t).2.nvTotalValidExec = s.nvTotalValidExec + 1 := by
      rw [fuzzRunTarget_total, htcounted, hcounted, httotal, Bool.toNat_true]
    have hobserved : (runAndObserve cfg env t).2.nvTotalValidExec = s.nvTotalValidExec + 1 :=
      (Afl.receive_total _ _).trans hrun
    rw [hcall, fuzzExecuted]
    refine (fuzzTerminal_total cfg env _ _ _ _).trans ?_
    rw [hobserved]
    split_ifs with hstop
    · rcases hroom with hlast | hroom
      · -- The execution was the last one of the budget, and it asked for a stop.
        have htwo : (fuzzRunTarget cfg env.run t).2.stopSoon = 2 :=
          fuzzRunTarget_stopSoon cfg (htcounted.trans hcounted) hbudget (by omega)
        refine absurd hstop (Afl.receive_stopSoon ?_)
        show (fuzzRunTarget cfg env.run t).2.stopSoon ≠ 0
        omega
      · exact hroom
    · omega

end

section

variable {R : Type} (cfg : AflCfg R)

/-! ## One call of `trim_case` -/

/-- The stage name of `trim_case_custom`. -/
def Afl.ptrim (trimExec : ℕ) (s : Afl R) : Afl R :=
  { s with stageName := some (ascii "ptrim " ++ uStringifyInt trimExec) }

/-- The loop of `trim_case_custom`, with the executions that it makes. -/
def trimCustomLoop : ℕ → List RunEnv → Afl R → FsrvRunResult × Afl R
  | _, [], s => (.ok, s)
  | trimExec, env :: envs, s =>
    let result := fuzzRunTarget cfg env (s.ptrim trimExec)
    if result.2.stopSoon ≠ 0 ∨ result.1 = .error then result
    else trimCustomLoop (trimExec + 1) envs result.2

/-- The number of custom mutators that trim. -/
def TestcaseCfg.trimmers (cfg : TestcaseCfg) : ℕ := cfg.customMutators.countP CustomMutator.hasTrim

/-- `trim_case_custom` for one custom mutator after the other. -/
def trimCustomAll (runs : ℕ → List RunEnv) (s : Afl R) : Afl R :=
  (List.range cfg.testcase.trimmers).foldl (fun s i => (trimCustomLoop cfg 0 (runs i) s).2) s

/-- A call of `trim_case` that got as far as `n` loop conditions. -/
structure TrimCall where
  env : TrimEnv
  q : QueueEntry
  n : ℕ
  /-- The executions for each custom mutator that trims. -/
  customRuns : ℕ → List RunEnv

/-- The fuzzer behind a call of `trim_case`, or in the middle of it. -/
def TrimCall.run (c : TrimCall) (s : Afl R) : Afl R :=
  if cfg.testcase.customMutators.any CustomMutator.hasTrim then trimCustomAll cfg c.customRuns s
  else if c.q.inBuf.length < 5 then s
  else ((trimStep cfg c.env c.q.execCksum)^[c.n] (.init c.q s)).afl

/-- The loops of `trim_case` take at most one from the budget for each execution. -/
theorem trimStep_total (env : TrimEnv) (q : QueueEntry) (s : Afl R) (n : ℕ) :
    let t := (trimStep cfg env q.execCksum)^[n] (.init q s)
    t.afl.nvTotalValidExec ≤ s.nvTotalValidExec + t.trimExec := by
  induction n with
  | zero => exact Nat.le_refl _
  | succ n ih =>
    rw [Function.iterate_succ_apply']
    generalize (trimStep cfg env q.execCksum)^[n] (.init q s) = t at ih
    have hexecute : ∀ t : TrimState R, t.afl.nvTotalValidExec ≤ s.nvTotalValidExec + t.trimExec →
        let u := trimExecute cfg env q.execCksum t
        u.afl.nvTotalValidExec ≤ s.nvTotalValidExec + u.trimExec := by
      intro t ht
      refine (fuzzRunTarget_total_le cfg _ _).trans ?_
      show t.afl.nvTotalValidExec + 1 ≤ s.nvTotalValidExec + (t.trimExec + 1)
      omega
    simp only [trimStep]
    split_ifs
    · simp only [trimIteration]
      split_ifs
      · exact ih
      · exact hexecute _ ih
      · exact hexecute _ ih
    · exact ih
    · exact ih

theorem trimCustomLoop_total_le (envs : List RunEnv) (trimExec : ℕ) (s : Afl R) :
    (trimCustomLoop cfg trimExec envs s).2.nvTotalValidExec ≤
      s.nvTotalValidExec + envs.length := by
  induction envs generalizing trimExec s with
  | nil => exact Nat.le_refl _
  | cons env envs ih =>
    have hone : (fuzzRunTarget cfg env (s.ptrim trimExec)).2.nvTotalValidExec ≤
        s.nvTotalValidExec + 1 := fuzzRunTarget_total_le cfg env (s.ptrim trimExec)
    simp only [trimCustomLoop, List.length_cons]
    split_ifs
    · exact hone.trans (by omega)
    · exact (ih (trimExec + 1) _).trans (by omega)

/-- `trim_case_custom` looks at the stop request behind every execution. -/
theorem trimCustomLoop_total {s : Afl R} (hbudget : cfg.nvTask.maxTestCases ≠ 0)
    (hlt : s.nvTotalValidExec < cfg.nvTask.maxTestCases) (envs : List RunEnv) (trimExec : ℕ) :
    (trimCustomLoop cfg trimExec envs s).2.nvTotalValidExec ≤ cfg.nvTask.maxTestCases := by
  induction envs generalizing trimExec s with
  | nil => exact hlt.le
  | cons env envs ih =>
    have hone : (fuzzRunTarget cfg env (s.ptrim trimExec)).2.nvTotalValidExec ≤
        s.nvTotalValidExec + 1 := fuzzRunTarget_total_le cfg env (s.ptrim trimExec)
    have htotal : (fuzzRunTarget cfg env (s.ptrim trimExec)).2.nvTotalValidExec =
        s.nvTotalValidExec + (s.ptrim trimExec).counted.toNat :=
      fuzzRunTarget_total cfg env (s.ptrim trimExec)
    simp only [trimCustomLoop]
    split_ifs with hstop
    · exact hone.trans hlt
    · refine ih ?_ (trimExec + 1)
      by_contra hused
      cases hcounted : (s.ptrim trimExec).counted with
      | false =>
        rw [hcounted, Bool.toNat_false] at htotal
        omega
      | true =>
        rw [hcounted, Bool.toNat_true] at htotal
        have hlast : cfg.nvTask.maxTestCases ≤ s.nvTotalValidExec + 1 := by omega
        have htwo : (fuzzRunTarget cfg env (s.ptrim trimExec)).2.stopSoon = 2 :=
          fuzzRunTarget_stopSoon cfg hcounted hbudget hlast
        exact hstop (.inl (by rw [htwo]; decide))

theorem trimCustomAll_total_le (runs : ℕ → List RunEnv) (s : Afl R) (m : ℕ) :
    ((List.range m).foldl (fun s i => (trimCustomLoop cfg 0 (runs i) s).2) s).nvTotalValidExec ≤
      s.nvTotalValidExec + ∑ i ∈ Finset.range m, (runs i).length := by
  induction m with
  | zero => exact Nat.le_refl _
  | succ m ih =>
    rw [List.range_succ, List.foldl_append, Finset.sum_range_succ]
    refine (trimCustomLoop_total_le cfg _ _ _).trans ?_
    omega

/-- What a call of `trim_case` executes fits into what is left of the budget. -/
def TrimCall.Fits (c : TrimCall) (s : Afl R) : Prop :=
  if cfg.testcase.customMutators.any CustomMutator.hasTrim then
    cfg.testcase.trimmers ≤ 1 ∧ s.nvTotalValidExec < cfg.nvTask.maxTestCases ∨
      s.nvTotalValidExec + ∑ i ∈ Finset.range cfg.testcase.trimmers, (c.customRuns i).length ≤
        cfg.nvTask.maxTestCases
  else 5 ≤ c.q.inBuf.length → ∀ k,
    (trimSchedule c.q (c.env.same c.q.execCksum) k).pc ≠ .done →
      (∀ j ≤ k, CanPass cfg (trimSchedule c.q (c.env.same c.q.execCksum) j).inBuf) →
        s.nvTotalValidExec + k < cfg.nvTask.maxTestCases

theorem TrimCall.total_le {c : TrimCall} {s : Afl R} (hbudget : cfg.nvTask.maxTestCases ≠ 0)
    (hle : s.nvTotalValidExec ≤ cfg.nvTask.maxTestCases) (hfits : c.Fits cfg s) :
    (c.run cfg s).nvTotalValidExec ≤ cfg.nvTask.maxTestCases := by
  rw [TrimCall.Fits] at hfits
  rw [TrimCall.run]
  split_ifs at hfits ⊢ with hcustom hshort
  · rcases hfits with ⟨hone, hlt⟩ | hsum
    · rw [trimCustomAll]
      have hcases : cfg.testcase.trimmers = 0 ∨ cfg.testcase.trimmers = 1 := by omega
      rcases hcases with hm | hm
      · rw [hm]
        exact hle
      · rw [hm]
        exact trimCustomLoop_total cfg hbudget hlt _ _
    · exact (trimCustomAll_total_le cfg c.customRuns s _).trans hsum
  · exact hle
  · obtain ⟨-, hpass⟩ := exists_attempt cfg c.env c.q s c.n
    have htotal := trimStep_total cfg c.env c.q s c.n
    generalize (trimStep cfg c.env c.q.execCksum)^[c.n] (.init c.q s) = t at hpass htotal ⊢
    cases hexec : t.trimExec with
    | zero => exact htotal.trans (by omega)
    | succ k =>
      have hlast := hfits (by omega) k (hpass k (by omega)).1 fun j hj => (hpass j (by omega)).2
      exact htotal.trans (by omega)

end

section

variable {R : Type} [Field R] [LinearOrder R] (cfg : AflCfg R)

/-! ## Runs -/

/-- What happens to the queue entry that is being fuzzed. -/
inductive TurnEvent (R : Type) where
  | fuzz (env : FuzzEnv) (outBuf : Bytes)
  | trim (c : TrimCall)
  /-- Anything that does not execute the target for the fuzzing loop. -/
  | other (update : Afl R → Afl R)
      (total_eq : ∀ s, (update s).nvTotalValidExec = s.nvTotalValidExec)

/-- One event of a turn; the output is the return value of `common_fuzz_stuff`. -/
def turnStep (s : Afl R) : TurnEvent R → Bool × Afl R
  | .fuzz env outBuf =>
    let result := commonFuzzStuff cfg env outBuf s
    (result.bail, result.afl)
  | .trim c => (false, c.run cfg s)
  | .other update _ => (false, update s)

/-- The executions of an event fit into what is left of the budget. -/
def FitsBudget (s : Afl R) : TurnEvent R → Prop
  | .fuzz env outBuf => (passesFilters cfg env outBuf s).isSome = true →
      s.counted = true ∧ s.nvTotalValidExec < cfg.nvTask.maxTestCases ∧
        (s.nvTotalValidExec + 1 = cfg.nvTask.maxTestCases ∨
          s.nvTotalValidExec + 1 + env.reruns ≤ cfg.nvTask.maxTestCases)
  | .trim c => c.Fits cfg s
  | .other _ _ => True

/-- The budget is kept in every run whose events fit into what is left of it. -/
theorem valid_exec_le {s₀ : Afl R} (hbudget : cfg.nvTask.maxTestCases ≠ 0)
    (h0 : s₀.nvTotalValidExec ≤ cfg.nvTask.maxTestCases) {events : List (TurnEvent R)}
    (hfits : Machine.Meets (turnStep cfg) (FitsBudget cfg) s₀ events) :
    (Machine.run (turnStep cfg) s₀ events).nvTotalValidExec ≤ cfg.nvTask.maxTestCases := by
  refine Machine.run_inv_of_meets (turnStep cfg) (FitsBudget cfg)
    (fun s => s.nvTotalValidExec ≤ cfg.nvTask.maxTestCases) ?_ h0 hfits
  intro s e hle hfit
  cases e with
  | fuzz env outBuf => exact commonFuzzStuff_total cfg hbudget hle hfit
  | trim c => exact TrimCall.total_le cfg hbudget hle hfit
  | other update total_eq => exact (total_eq s).trans_le hle

end

/-! ## An entry of twelve bytes -/

/-- An entry that is tried to be trimmed twice. -/
def twelveBytes : QueueEntry := ⟨ascii "abcdefghijkl", 12, by decide⟩

/-- The fuzzer works on its first queue entry. -/
def onFirstEntry : Afl ℚ :=
  let s : Afl ℚ := .init (.init (some ⟨2, isPow2_two⟩))
  { s with sec := { s.sec with queueCur := some 0 } }

/-- A call of `trim_case` in which no removal is kept. -/
def trimTwice : TrimCall := ⟨trimEnv 0, twelveBytes, 10, fun _ => []⟩

/-- An execution without a status document, of an input that is not kept. -/
def quietFuzzEnv : FuzzEnv where
  reply := .fail
  run := ⟨.ok, .none, ⟨none, fun _ => none⟩⟩
  worlds := fun _ => ⟨none, fun _ => none⟩
  signals := .none
  ledger := .ok
  lateSignals := .none
  clear := ⟨.ok, .ok⟩
  save := []
  saved := false
  journal := .ok
  commitLedger := .ok

/-- A large budget is kept by trimming and a fuzzing iteration behind it. -/
theorem valid_exec_le_120 :
    (Machine.run (turnStep (budgetCfg 120)) onFirstEntry
      [.trim trimTwice, .fuzz quietFuzzEnv (ascii "x")]).nvTotalValidExec ≤ 120 := by
  refine valid_exec_le (budgetCfg 120) (by decide) (by decide) ⟨?_, ?_, trivial⟩
  · show trimTwice.Fits (budgetCfg 120) onFirstEntry
    rw [TrimCall.Fits, if_neg (by decide)]
    intro hlen k hk _
    -- The schedule ends after at most 120 attempts.
    obtain ⟨m, hm, hdone⟩ := trimSchedule_finite twelveBytes
      ((trimEnv 0).same twelveBytes.execCksum)
    rw [(TrimVars.settle_init (q := twelveBytes) hlen).1] at hm
    have hwork : (TrimVars.init twelveBytes).advance.work twelveBytes.inBuf.length = 120 := by
      decide
    have hkm : k < m := by
      by_contra hle
      apply hk
      show (trimSchedule twelveBytes ((trimEnv 0).same twelveBytes.execCksum) k).pc = .done
      rw [trimSchedule_of_done hdone (Nat.le_of_not_lt hle)]
      exact hdone
    show 0 + k < 120
    omega
  · exact fun _ => ⟨by decide, by decide, .inr (by decide)⟩

/-- A budget of one execution is overrun by trimming. -/
theorem trim_exceeds_budget :
    ¬ (Machine.run (turnStep (budgetCfg 1)) onFirstEntry [.trim trimTwice]).nvTotalValidExec ≤
      (budgetCfg 1).nvTask.maxTestCases := by
  decide

end AflNv
