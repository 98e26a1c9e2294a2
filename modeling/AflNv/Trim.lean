import AflNv.RunTarget

/-!
# Trimming a queue entry

`trim_case` of `src/afl-fuzz-run.c`: it removes chunks of a queue entry, in
steps of decreasing size, and keeps a removal that has no impact on the trace of
the target.

The two nested loops are a machine.  `trimStep` is one evaluation of a loop
condition, with the body of the inner loop when its condition holds; the program
counter says which loop is next.  `trimCase` runs it with fuel.

The source declares `u64 cksum` in the inner loop and compares it with
`q->exec_cksum` without ever assigning it.  The value it happens to hold is a part
of the environment here (`TrimRun.cksum`).
-/

namespace AflNv

/-! ## The entry and the environment -/

/-- `MAX_FILE`. -/
def maxFile : ℕ := 1048576

/-- The fields of a `queue_entry` that trimming uses. -/
structure QueueEntry where
  /-- `in_buf` up to `q->len`. -/
  inBuf : Bytes
  execCksum : UInt64
  /-- Nothing larger gets into the queue. -/
  len_le : inBuf.length ≤ maxFile

/-- One execution of a trimmed input. -/
structure TrimRun where
  env : RunEnv
  /-- What the unassigned variable `cksum` holds behind it. -/
  cksum : UInt64

/-- What the environment decides in one call of `trim_case`. -/
structure TrimEnv where
  /-- The answer of the external scorer in every iteration of the inner loop. -/
  replies : ℕ → RpcReply
  /-- Every execution. -/
  runs : ℕ → TrimRun

/-- `next_pow2`. -/
def nextPow2 (n : UInt64) : UInt64 :=
  let out := n - 1
  let out := out ||| out >>> 1
  let out := out ||| out >>> 2
  let out := out ||| out >>> 4
  let out := out ||| out >>> 8
  let out := out ||| out >>> 16
  out + 1

/-- `len_p2` of a length: the result of `next_pow2` as an `u32`. -/
def lenP2 (len : ℕ) : ℕ := (nextPow2 (UInt64.ofNat len)).toNat % 2 ^ 32

/-- Smearing bits to the right sets no higher ones. -/
theorem smear_lt {k : ℕ} {a : UInt64} (b : UInt64) (h : a.toNat < 2 ^ k) :
    (a ||| a >>> b).toNat < 2 ^ k := by
  rw [UInt64.toNat_or, UInt64.toNat_shiftRight]
  exact Nat.or_lt_two_pow h ((Nat.shiftRight_le _ _).trans_lt h)

/-- The next power of two is less than twice the length. -/
theorem lenP2_lt {n : ℕ} (hpos : 2 ≤ n) (hlen : n ≤ maxFile) : lenP2 n < 2 * n := by
  have hn : n < 2 ^ 64 := hlen.trans_lt (by decide)
  have hpred : (UInt64.ofNat n - 1).toNat = n - 1 := by
    have hofNat : (UInt64.ofNat n).toNat = n := UInt64.toNat_ofNat_of_lt' hn
    rw [UInt64.toNat_sub_of_le _ _ (UInt64.le_iff_toNat_le.mpr ?_), hofNat]
    · rfl
    · show 1 ≤ (UInt64.ofNat n).toNat
      omega
  -- `n - 1` has `log2 + 1` bits, and so has what the shifts make of it.
  have hlow : 2 ^ (n - 1).log2 ≤ n - 1 := Nat.log2_self_le (by omega)
  have hhigh : n - 1 < 2 ^ ((n - 1).log2 + 1) := Nat.lt_log2_self
  have hsmear := smear_lt 16 (smear_lt 8 (smear_lt 4 (smear_lt 2 (smear_lt 1
    (hpred.trans_lt hhigh)))))
  rw [pow_succ] at hsmear
  have hout : (nextPow2 (UInt64.ofNat n)).toNat ≤ 2 ^ (n - 1).log2 * 2 := by
    rw [nextPow2, UInt64.toNat_add]
    exact (Nat.mod_le _ _).trans hsmear
  have hmod : lenP2 n ≤ (nextPow2 (UInt64.ofNat n)).toNat := Nat.mod_le _ _
  omega

/-- `u_stringify_int`, for numbers below 99950. -/
def uStringifyInt (n : ℕ) : Bytes :=
  if n < 10000 then showNat n
  else
    let tenths := (n + 50) / 100
    showNat (tenths / 10) ++ ascii "." ++ showNat (tenths % 10) ++ ascii "k"

/-- The stage name while chunks of this size are removed. -/
def trimStageName (removeLen : ℕ) : Bytes :=
  ascii "trim " ++ uStringifyInt removeLen ++ ascii "/" ++ uStringifyInt removeLen

/-! ## The loop variables -/

/-- Which loop condition is evaluated next. -/
inductive TrimPc where
  | outer
  | inner
  | done
  deriving DecidableEq

/-- The variables of the two loops, with the entry they work on. -/
structure TrimVars where
  /-- `in_buf` up to `q->len`. -/
  inBuf : Bytes
  lenP2 : ℕ
  removeLen : ℕ
  removePos : ℕ
  needsWrite : Bool
  pc : TrimPc

namespace TrimVars

/-- The variables before the loops: `TRIM_START_STEPS`, `TRIM_MIN_BYTES`. -/
def init (q : QueueEntry) : TrimVars where
  inBuf := q.inBuf
  lenP2 := AflNv.lenP2 q.inBuf.length
  removeLen := max (AflNv.lenP2 q.inBuf.length / 16) 4
  removePos := 0
  needsWrite := false
  pc := .outer

/-- The condition of the inner loop holds: a chunk is tried next. -/
def atAttempt (v : TrimVars) : Bool := v.pc = .inner && v.removePos < v.inBuf.length

/-- `trim_avail`. -/
def trimAvail (v : TrimVars) : ℕ := min v.removeLen (v.inBuf.length - v.removePos)

/-- A loop condition that leads to no attempt: enter the inner loop
(`TRIM_END_STEPS`), leave it, or leave the outer one. -/
def advance (v : TrimVars) : TrimVars :=
  match v.pc with
  | .outer =>
    if max (v.lenP2 / 1024) 4 ≤ v.removeLen then
      { v with removePos := v.removeLen, pc := .inner }
    else { v with pc := .done }
  | .inner => { v with removeLen := v.removeLen / 2, pc := .outer }
  | .done => v

/-- The end of an attempt: make the removal permanent, or step over the chunk. -/
def resolve (same : Bool) (v : TrimVars) : TrimVars :=
  if same then
    { v with
      inBuf := gapped v.inBuf v.removePos v.trimAvail
      lenP2 := AflNv.lenP2 (v.inBuf.length - v.trimAvail)
      needsWrite := true }
  else { v with removePos := v.removePos + v.removeLen }

end TrimVars

section

variable {R : Type}

/-- The state of a call of `trim_case`. -/
structure TrimState (R : Type) where
  vars : TrimVars
  afl : Afl R
  /-- The iterations of the inner loop so far. -/
  iterations : ℕ
  /-- `trim_exec`. -/
  trimExec : ℕ
  fault : FsrvRunResult
  /-- What was handed to the target last. -/
  testcase : Bytes
  /-- The inputs that were executed in the iterations that removed a chunk. -/
  permanent : List Bytes

/-- The state before the loops. -/
def TrimState.init (q : QueueEntry) (afl : Afl R) : TrimState R where
  vars := .init q
  afl := afl
  iterations := 0
  trimExec := 0
  fault := .ok
  testcase := []
  permanent := []

/-! ## The machine -/

/-- The second half of the inner loop's body: the execution and the comparison. -/
def trimExecute (cfg : AflCfg R) (env : TrimEnv) (execCksum : UInt64) (s : TrimState R) :
    TrimState R :=
  let run := env.runs s.trimExec
  let result := fuzzRunTarget cfg run.env s.afl
  let same : Bool := run.cksum = execCksum
  { s with
    afl := result.2
    fault := result.1
    trimExec := s.trimExec + 1
    vars := s.vars.resolve same
    permanent := if same then s.permanent ++ [s.testcase] else s.permanent }

/-- The body of the inner loop.  A rejected buffer goes back to the loop
condition. -/
def trimIteration (cfg : AflCfg R) (env : TrimEnv) (execCksum : UInt64) (s : TrimState R) :
    TrimState R :=
  let reply := env.replies s.iterations
  let s := { s with
    iterations := s.iterations + 1
    testcase := writeWithGap cfg.testcase s.vars.inBuf s.vars.removePos s.vars.trimAvail }
  if cfg.nvTask.enableValidity then
    let vr := nvValidityCheck cfg.target cfg.nvTask reply s.vars.inBuf
    let s := { s with afl := { s.afl with validity := nvAccount vr s.afl.validity } }
    if vr.isReject then s else trimExecute cfg env execCksum s
  else trimExecute cfg env execCksum s

/-- One evaluation of a loop condition and what follows it. -/
def trimStep (cfg : AflCfg R) (env : TrimEnv) (execCksum : UInt64) (s : TrimState R) :
    TrimState R :=
  if s.vars.atAttempt then trimIteration cfg env execCksum s
  else
    let vars := s.vars.advance
    if vars.pc = .inner then
      { s with
        vars := vars
        afl := { s.afl with stageName := some (trimStageName vars.removeLen) } }
    else { s with vars := vars }

/-- The trimmed input is post-processed before it is written back. -/
def trimFinish (cfg : TestcaseCfg) (v : TrimVars) : Bytes :=
  if v.needsWrite && !cfg.customMutators.isEmpty && !cfg.aflPostProcessKeepOriginal then
    let b := postProcessAll cfg v.inBuf
    if b.size = 0 then resize cfg.slack (clampLength cfg false v.inBuf.length) b.given
    else resize cfg.slack (clampLength cfg false b.size) b.newMem
  else v.inBuf

/-- How a call of `trim_case` ended. -/
inductive TrimResult (R : Type) where
  /-- A custom mutator has an `afl_custom_trim`: `trim_case_custom` did it all. -/
  | custom
  /-- The returned fault, the entry as it is left, and the fuzzer. -/
  | trimmed (fault : FsrvRunResult) (inBuf : Bytes) (afl : Afl R)

/-- `trim_case` with fuel; `none` is a call that needs more. -/
def trimCase (cfg : AflCfg R) (env : TrimEnv) (q : QueueEntry) (afl : Afl R) (fuel : ℕ) :
    Option (TrimResult R) :=
  if cfg.testcase.customMutators.any CustomMutator.hasTrim then some .custom
  else if q.inBuf.length < 5 then some (.trimmed .ok q.inBuf afl)
  else
    let s := (trimStep cfg env q.execCksum)^[fuel] (.init q afl)
    if s.vars.pc = .done then some (.trimmed s.fault (trimFinish cfg.testcase s.vars) s.afl)
    else none

end

end AflNv
