import AflNv.Journal
import AflNv.Testcase
import AflNv.Validity

/-!
# One execution of the target

`fuzz_run_target` of `src/afl-fuzz-run.c`: it runs the target, counts the
execution, stops the fuzzer when the budget is used up, and reads the status
JSON of the harness.  An execution that is not counted also observes the security
state; a counted one leaves that to its caller.

`Afl` gathers what the modelled functions use of `afl_state_t`.  What an
execution reads from outside is the argument `RunEnv`.
-/

namespace AflNv

/-! ## The fuzzer -/

/-- `fsrv_run_result_t`. -/
inductive FsrvRunResult where
  | ok
  | tmout
  | crash
  | error
  | noinst
  | nobits
  deriving DecidableEq

/-- What does not change while the fuzzer runs: the configuration, the
environment variables and the C library. -/
structure AflCfg (R : Type) where
  lib : CLib
  fmt : DoubleFmt R
  target : NvTargetCfg
  nvTask : NvTask
  testcase : TestcaseCfg
  audit : AuditEnv
  /-- `getenv("NV_STATUS_PATH")`. -/
  nvStatusPath : Option Bytes
  outDir : Bytes

/-- The fields of `afl_state_t` that the modelled functions read or write. -/
structure Afl (R : Type) where
  audit : AuditState R
  sec : SecState
  validity : ValidityCounters
  /-- `fsrv.total_execs`. -/
  totalExecs : ℕ
  nvTotalValidExec : ℕ
  nvErrExec : ℕ
  nvRecTotal : ℕ
  nvRecSuccess : ℕ
  nvRecTimeSumMs : ℕ
  nvExecutionIteration : ℕ
  nvSecStateRewardSrcSeq : ℕ
  subseqTmouts : ℕ
  curSkippedItems : ℕ
  queuedDiscovered : ℕ
  skipRequested : Bool
  stageName : Option Bytes

section

variable {R : Type}

/-- A fuzzer that has done nothing yet. -/
def Afl.init [Field R] [LinearOrder R] (sec : SecState) : Afl R where
  audit := .zero
  sec := sec
  validity := .zero
  totalExecs := 0
  nvTotalValidExec := 0
  nvErrExec := 0
  nvRecTotal := 0
  nvRecSuccess := 0
  nvRecTimeSumMs := 0
  nvExecutionIteration := 0
  nvSecStateRewardSrcSeq := 0
  subseqTmouts := 0
  curSkippedItems := 0
  queuedDiscovered := 0
  skipRequested := false
  stageName := some (ascii "init")

/-- `afl->stop_soon`. -/
def Afl.stopSoon (s : Afl R) : ℕ := s.audit.stopSoon

/-- `afl->nv_mab`. -/
def Afl.nvMab (s : Afl R) : NvMab R := s.audit.nvMab

/-- `afl->stop_soon = n`. -/
def Afl.setStopSoon (n : ℕ) (s : Afl R) : Afl R :=
  { s with audit := { s.audit with stopSoon := n } }

/-- Signals that arrived: SIGINT and the like stop the fuzzer, SIGUSR1 abandons
the current input. -/
structure Signals where
  stop : Bool
  skip : Bool
  deriving DecidableEq

def Signals.none : Signals := ⟨false, false⟩

/-- The signal handlers. -/
def Afl.receive (sig : Signals) (s : Afl R) : Afl R :=
  let s := if sig.stop then s.setStopSoon 1 else s
  { s with skipRequested := s.skipRequested || sig.skip }

/-! ## The status JSON of the harness -/

/-- `nv_status_t`, when it was parsed. -/
structure NvStatus where
  isException : Bool
  httpCode : ℤ
  recovered : Bool
  recoverMs : ℕ
  deriving DecidableEq

/-- The file `nv_read_status_json` opens. -/
def AflCfg.statusJsonPath (cfg : AflCfg R) : Bytes :=
  match cfg.nvStatusPath with
  | some (c :: cs) => (c :: cs).take 4095
  | _ => (cfg.outDir ++ ascii "/nv_status.json").take 4095

/-- `nv_read_status_json`; `none` leaves `st->has` at 0. -/
def nvReadStatusJson (cfg : AflCfg R) (w : World) : Option NvStatus :=
  match w.fopen cfg.statusJsonPath with
  | none => none
  | some file =>
    if file.size = 0 ∨ file.size > 128 * 1024 then none
    else if (file.data.take file.size).isEmpty then none
    else
      match cfg.lib.cJSONParse (cstr (file.data.take file.size)) with
      | none => none
      | some root =>
        let item := fun name => root.getObjectItemCaseSensitive (ascii name)
        some
          { isException := CJson.isTruthy (item "is_exception")
            httpCode := cfg.lib.intOrZero (item "http_code")
            recovered := CJson.isTruthy (item "recovered")
            recoverMs := (cfg.lib.posU64OrZero (item "recover_ms")).toNat }

/-- Count a recovery of the target. -/
def Afl.countRecovery (st : NvStatus) (s : Afl R) : Afl R :=
  let s := { s with nvRecTotal := s.nvRecTotal + 1 }
  if st.recovered then
    { s with
      nvRecSuccess := s.nvRecSuccess + 1
      nvRecTimeSumMs := s.nvRecTimeSumMs + st.recoverMs }
  else s

/-! ## The execution -/

/-- What the environment decides in one execution. -/
structure RunEnv where
  /-- The result of `afl_fsrv_run_target`. -/
  res : FsrvRunResult
  /-- Signals that arrive while the target runs. -/
  signals : Signals
  /-- The files after the execution. -/
  world : World

/-- The execution is one of the fuzzing loop. -/
def Afl.counted (s : Afl R) : Bool :=
  s.sec.queueCur.isSome &&
    s.stageName.all fun name => name ≠ ascii "dry_run" && name ≠ ascii "calibration"

/-- The observation of an execution that is not counted. -/
def observeUncounted (cfg : AflCfg R) (w : World) (s : Afl R) : Afl R :=
  match cfg.nvStatusPath with
  | some (c :: cs) =>
    { s with sec := (nvObserveSecurityStateOnce cfg.lib cfg.target w (c :: cs) 0 s.sec).2 }
  | _ => s

/-- The error and recovery accounting of `fuzz_run_target`. -/
def accountRun (cfg : AflCfg R) (env : RunEnv) (counted : Bool) (s : Afl R) : Afl R :=
  let countErr := fun s : Afl R =>
    if counted then { s with nvErrExec := s.nvErrExec + 1 } else s
  match env.res with
  | .crash | .tmout | .error =>
    match nvReadStatusJson cfg env.world with
    | some st => countErr (s.countRecovery st)
    | none => countErr s
  | .ok =>
    match nvReadStatusJson cfg env.world with
    | none => s
    | some st =>
      let isErr := st.isException || 500 ≤ st.httpCode
      let s := if counted && isErr then s.countRecovery st else s
      let s := if counted then s else observeUncounted cfg env.world s
      if isErr then countErr s else s
  | .noinst | .nobits => s

/-- `afl_fsrv_run_target`: what the fuzzer sees of it besides its result. -/
def aflFsrvRunTarget (env : RunEnv) (s : Afl R) : Afl R :=
  { s.receive env.signals with totalExecs := s.totalExecs + 1 }

/-- `fuzz_run_target`. -/
def fuzzRunTarget (cfg : AflCfg R) (env : RunEnv) (s : Afl R) : FsrvRunResult × Afl R :=
  let s := aflFsrvRunTarget env s
  if s.counted then
    let s := { s with nvTotalValidExec := s.nvTotalValidExec + 1 }
    if cfg.nvTask.maxTestCases ≠ 0 ∧ cfg.nvTask.maxTestCases ≤ s.nvTotalValidExec then
      (env.res, s.setStopSoon 2)
    else (env.res, accountRun cfg env true s)
  else (env.res, accountRun cfg env false s)

/-! ## What an execution leaves alone -/

section Frame

variable (cfg : AflCfg R) (env : RunEnv) (s : Afl R)

@[simp] theorem Afl.setStopSoon_sec (n : ℕ) : (s.setStopSoon n).sec = s.sec := rfl

@[simp] theorem Afl.setStopSoon_nvMab (n : ℕ) : (s.setStopSoon n).nvMab = s.nvMab := rfl

@[simp] theorem Afl.setStopSoon_stopSoon (n : ℕ) : (s.setStopSoon n).stopSoon = n := rfl

@[simp] theorem Afl.receive_sec (sig : Signals) : (s.receive sig).sec = s.sec := by
  rw [Afl.receive]
  split_ifs <;> rfl

@[simp] theorem Afl.receive_nvMab (sig : Signals) : (s.receive sig).nvMab = s.nvMab := by
  rw [Afl.receive]
  split_ifs <;> rfl

@[simp] theorem Afl.receive_stageName (sig : Signals) :
    (s.receive sig).stageName = s.stageName := by
  rw [Afl.receive]
  split_ifs <;> rfl

theorem Afl.receive_totalExecs (sig : Signals) : (s.receive sig).totalExecs = s.totalExecs := by
  rw [Afl.receive]
  split_ifs <;> rfl

@[simp] theorem aflFsrvRunTarget_sec : (aflFsrvRunTarget env s).sec = s.sec :=
  Afl.receive_sec s env.signals

@[simp] theorem aflFsrvRunTarget_nvMab : (aflFsrvRunTarget env s).nvMab = s.nvMab :=
  Afl.receive_nvMab s env.signals

@[simp] theorem aflFsrvRunTarget_stageName : (aflFsrvRunTarget env s).stageName = s.stageName :=
  Afl.receive_stageName s env.signals

@[simp] theorem aflFsrvRunTarget_counted : (aflFsrvRunTarget env s).counted = s.counted := by
  rw [Afl.counted, aflFsrvRunTarget_sec, aflFsrvRunTarget_stageName, Afl.counted]

@[simp] theorem Afl.countRecovery_sec (st : NvStatus) : (s.countRecovery st).sec = s.sec := by
  rw [Afl.countRecovery]
  split_ifs <;> rfl

@[simp] theorem Afl.countRecovery_audit (st : NvStatus) :
    (s.countRecovery st).audit = s.audit := by
  rw [Afl.countRecovery]
  split_ifs <;> rfl

@[simp] theorem Afl.countRecovery_stageName (st : NvStatus) :
    (s.countRecovery st).stageName = s.stageName := by
  rw [Afl.countRecovery]
  split_ifs <;> rfl

@[simp] theorem observeUncounted_audit (w : World) :
    (observeUncounted cfg w s).audit = s.audit := by
  rw [observeUncounted]
  split <;> rfl

/-- The accounting touches neither the bandit nor the stop request. -/
@[simp] theorem accountRun_audit (counted : Bool) :
    (accountRun cfg env counted s).audit = s.audit := by
  simp only [accountRun]
  split <;> (try split) <;> (try split_ifs) <;> simp

/-- A counted execution leaves the security state to its caller. -/
@[simp] theorem accountRun_sec_of_counted : (accountRun cfg env true s).sec = s.sec := by
  simp only [accountRun]
  split <;> (try split) <;> (try split_ifs) <;> simp_all

/-- An execution leaves the bandit alone. -/
@[simp] theorem fuzzRunTarget_nvMab : (fuzzRunTarget cfg env s).2.nvMab = s.nvMab := by
  rw [← aflFsrvRunTarget_nvMab env s]
  simp only [fuzzRunTarget]
  split_ifs
  · rfl
  · exact congrArg AuditState.nvMab (accountRun_audit cfg env _ true)
  · exact congrArg AuditState.nvMab (accountRun_audit cfg env _ false)

theorem accountRun_totalExecs (counted : Bool) :
    (accountRun cfg env counted s).totalExecs = s.totalExecs := by
  have hrecovery : ∀ (s : Afl R) (st : NvStatus),
      (s.countRecovery st).totalExecs = s.totalExecs := by
    intro s st
    rw [Afl.countRecovery]
    split_ifs <;> rfl
  have hobserve : ∀ s : Afl R, (observeUncounted cfg env.world s).totalExecs = s.totalExecs := by
    intro s
    rw [observeUncounted]
    split <;> rfl
  simp only [accountRun]
  split <;> (try split) <;> (try split_ifs) <;> simp [hrecovery, hobserve]

/-- Every call of `fuzz_run_target` is one execution. -/
theorem fuzzRunTarget_totalExecs :
    (fuzzRunTarget cfg env s).2.totalExecs = s.totalExecs + 1 := by
  simp only [fuzzRunTarget]
  split_ifs
  · rfl
  · exact accountRun_totalExecs cfg env _ true
  · exact accountRun_totalExecs cfg env _ false

@[simp] theorem fuzzRunTarget_fst : (fuzzRunTarget cfg env s).1 = env.res := by
  simp only [fuzzRunTarget]
  split_ifs <;> rfl

/-- A counted execution leaves the security state alone. -/
theorem fuzzRunTarget_sec_of_counted (h : s.counted = true) :
    (fuzzRunTarget cfg env s).2.sec = s.sec := by
  simp only [fuzzRunTarget, aflFsrvRunTarget_counted, h, if_true]
  split_ifs <;> simp

/-- An uncounted execution that ends well and has a status document observes. -/
theorem fuzzRunTarget_sec_of_uncounted (hcounted : s.counted = false) (hres : env.res = .ok)
    (hstatus : (nvReadStatusJson cfg env.world).isSome = true) :
    (fuzzRunTarget cfg env s).2.sec = (observeUncounted cfg env.world s).sec := by
  obtain ⟨st, hst⟩ := Option.isSome_iff_exists.mp hstatus
  have hobserve : (observeUncounted cfg env.world (aflFsrvRunTarget env s)).sec =
      (observeUncounted cfg env.world s).sec := by
    simp only [observeUncounted]
    split <;> simp
  simp [fuzzRunTarget, hcounted, accountRun, hres, hst, hobserve]

end Frame

end

end AflNv
