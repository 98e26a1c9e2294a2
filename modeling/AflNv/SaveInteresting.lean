import AflNv.Coverage
import AflNv.RunTarget

/-!
# Saving an interesting input

`save_if_interesting` of `src/afl-fuzz-bitmap.c`.  An input without a fault that hits new
bits becomes an entry of the queue; a timeout or a crash is counted, and kept when its
simplified trace is new.

The section `save_to_queue` has two ways in.  A timeout whose longer run is no timeout
goes back to it under `AFL_KEEP_TIMEOUTS`, with the fault code of the first run, so the
switch behind it takes the case of the timeout again: `maySaveFault` is the switch with
this way back, and each pass uses up one `HangRun`.

The names and contents of the files are left out; what remains of a file is whether it
could be written.
-/

namespace AflNv

namespace Bitmap

open Coverage

/-! ## The simplified trace -/

/-- `simplify_lookup`. -/
def simplifyLookup (b : UInt8) : UInt8 := if b = 0 then 1 else 128

/-- A word of `simplify_trace`. -/
def simplifyWord (word : UInt64) : UInt64 :=
  if word ≠ 0 then
    (List.range 8).foldl (fun mem k =>
      mem ||| (simplifyLookup (byteAt word k)).toUInt64 <<< (8 * UInt64.ofNat k)) 0
  else 0x0101010101010101

/-- The loop of `simplify_trace` over `n` words. -/
def simplifyLoop : ℕ → List UInt64 → List UInt64
  | n + 1, w :: ws => simplifyWord w :: simplifyLoop n ws
  | _, ws => ws

/-! ## The state -/

/-- `enum SanitizerAbstraction`. -/
inductive SanitizerAbstraction where
  | simplifyTrace
  | uniqueTrace
  | coverageIncrease
  deriving DecidableEq

/-- What does not change while the fuzzer runs. -/
structure SaveCfg where
  crashMode : FsrvRunResult
  nonInstrumentedMode : Bool
  schedule : ℕ
  switchFuzzMode : Bool
  aflIgnoreTimeouts : Bool
  aflKeepTimeouts : Bool
  sanBinaryLength : ℕ
  sanAbstraction : SanitizerAbstraction
  execTmout : ℕ
  hangTmout : ℕ
  simd : Simd
  /-- `hash64` with `HASH_CONST`, of a map of the given size. -/
  hash64 : ℕ → List UInt64 → UInt64
  hash32 : ℕ → List UInt64 → UInt32

/-- `afl->schedule >= FAST && afl->schedule <= RARE`. -/
def SaveCfg.fast (cfg : SaveCfg) : Bool := 3 ≤ cfg.schedule && cfg.schedule ≤ 7

/-- `N_FUZZ_SIZE`. -/
def nFuzzSize : UInt64 := 0x200000

/-- `KEEP_UNIQUE_HANG`. -/
def keepUniqueHang : ℕ := 512

/-- `KEEP_UNIQUE_CRASH`. -/
def keepUniqueCrash : ℕ := 25600

/-- An entry of the queue. -/
structure QueueTop where
  len : ℕ
  /-- `new_bits`, when the entry was added. -/
  newBits : UInt8
  execCksum : UInt64
  nFuzzEntry : UInt64
  deriving DecidableEq

/-- The queue and the counters that only `save_if_interesting` changes while the fuzzer
runs. -/
structure SaveTally where
  queue : List QueueTop
  queuedWithCov : ℕ
  ssNewBitsAny : ℕ
  ssNewBitsKept : ℕ
  totalTmouts : ℕ
  savedTmouts : ℕ
  savedHangs : ℕ
  totalCrashes : ℕ
  savedCrashes : ℕ
  deriving DecidableEq

/-- The maps and the other fields that every part of the fuzzer changes. -/
structure SaveMaps where
  mapSize : ℕ
  realMapSize : ℕ
  /-- `fsrv.trace_bits`. -/
  traceBits : List UInt64
  virginBits : List UInt64
  virginTmout : List UInt64
  virginCrash : List UInt64
  bitmapChanged : Bool
  nFuzz : UInt64 → UInt32
  /-- The bits that are set in `simplified_n_fuzz`. -/
  simplifiedNFuzz : UInt32 → Bool
  /-- The bits that are set in `n_fuzz_dup`. -/
  nFuzzDup : UInt32 → Bool
  sanCaseStatus : UInt8
  stopSoon : Bool
  fuzzMode : Bool
  /-- `queue_cur->ss_cov_cnt`. -/
  ssCovCnt : Option ℕ

/-- The local variables. -/
structure SaveVars where
  len : ℕ
  fault : FsrvRunResult
  keeping : Bool
  sanFault : FsrvRunResult
  newBits : UInt8
  bitsCounted : Bool
  classified : Bool
  cksum : UInt64
  cksumed : Bool

/-- The state of a call. -/
structure SaveState where
  v : SaveVars
  m : SaveMaps
  t : SaveTally

/-- What `has_new_bits` sees of the maps. -/
def SaveMaps.view (m : SaveMaps) (virginMap : List UInt64) (isVirginBits : Bool) :
    CoverageMaps where
  mapSize := m.mapSize
  realMapSize := m.realMapSize
  traceBits := m.traceBits
  virginMap := virginMap
  isVirginBits := isVirginBits
  bitmapChanged := m.bitmapChanged

/-- `classify_counts(&afl->fsrv)`. -/
def SaveMaps.classify (m : SaveMaps) : SaveMaps :=
  { m with traceBits := (classifyCounts (m.view m.virginBits true)).traceBits }

/-- `simplify_trace(afl, afl->fsrv.trace_bits)`. -/
def SaveMaps.simplify (m : SaveMaps) : SaveMaps :=
  { m with traceBits := simplifyLoop (m.mapSize / 8) m.traceBits }

/-- The saturated increment of `n_fuzz`. -/
def SaveMaps.countPath (m : SaveMaps) (cksum : UInt64) : SaveMaps :=
  { m with nFuzz := fun i =>
      if i = cksum % nFuzzSize && m.nFuzz i < 0xffffffff then m.nFuzz i + 1 else m.nFuzz i }

/-! ## The environment -/

/-- How a file is written: `permissive_create` may return no descriptor, or end the
process, as `ck_write` may. -/
inductive FileIo where
  | written | skipped | fatal
  deriving DecidableEq

/-- What `calibrate_case` leaves behind. -/
structure Calibration where
  res : FsrvRunResult
  traceBits : List UInt64
  virginBits : List UInt64
  bitmapChanged : Bool
  stopSoon : Bool
  /-- Its own `new_bits` is 2. -/
  newCov : Bool

/-- The run of a timeout with `hang_tmout`, and what happens when it sends the input to
the queue. -/
structure HangRun where
  /-- `write_to_testcase(afl, &mem, len, 0)`. -/
  tmpLen : ℕ
  /-- `write_to_testcase(afl, &mem, len, 1)`. -/
  fixLen : ℕ
  newFault : FsrvRunResult
  traceBits : List UInt64
  stopSoon : Bool
  file : FileIo
  calibration : Calibration

/-- The run of a binary with a sanitizer. -/
structure SanRun where
  len : ℕ
  sanFault : FsrvRunResult
  stopSoon : Bool

/-- One call, with the maps it finds and what the environment answers. -/
structure SaveCall where
  len : ℕ
  fault : FsrvRunResult
  maps : SaveMaps
  sanRuns : ℕ → SanRun
  file : FileIo
  calibration : Calibration
  hangRuns : List HangRun
  /-- The file in `crashes` or `hangs`. -/
  faultFile : FileIo

/-- How a call ends; it may still be going on. -/
inductive SaveOutcome where
  | returned (keeping : Bool)
  | fatal
  | running
  deriving DecidableEq

/-! ## The helpers -/

/-- `classify_if_necessary`. -/
def classifyIfNecessary (s : SaveState) : SaveState :=
  if s.v.classified then s
  else { s with
    m := s.m.classify
    v := { s.v with classified := true } }

/-- `calculate_cksum_if_necessary`. -/
def calculateCksumIfNecessary (cfg : SaveCfg) (s : SaveState) : SaveState :=
  if s.v.cksumed then s
  else
    let s := classifyIfNecessary s
    { s with v := { s.v with
      cksum := cfg.hash64 s.m.mapSize s.m.traceBits
      cksumed := true } }

/-- `calculate_new_bits_if_necessary`. -/
def calculateNewBitsIfNecessary (cfg : SaveCfg) (s : SaveState) : SaveState :=
  if s.v.bitsCounted then s
  else if s.v.classified then
    let r := hasNewBits (s.m.view s.m.virginBits true)
    { s with
      m := { s.m with
        virginBits := r.2.virginMap
        bitmapChanged := r.2.bitmapChanged }
      v := { s.v with
        newBits := r.1
        bitsCounted := true } }
  else
    let r := hasNewBitsUnclassified cfg.simd s.v.classified (s.m.view s.m.virginBits true)
    { s with
      m := { s.m with
        traceBits := r.2.traceBits
        virginBits := r.2.virginMap
        bitmapChanged := r.2.bitmapChanged }
      v := { s.v with
        newBits := r.1.1
        classified := r.1.2
        bitsCounted := true } }

/-! ## The sanitizers -/

/-- Whether the input is fed to the sanitizers. -/
def feedSan (cfg : SaveCfg) (s : SaveState) : Bool × SaveState :=
  if cfg.sanBinaryLength = 0 then (false, s)
  else
    match cfg.sanAbstraction with
    | .simplifyTrace =>
      let cksumSimplified := cfg.hash32 s.m.mapSize s.m.simplify.traceBits
      (!s.m.simplifiedNFuzz cksumSimplified, { s with m := { s.m with
        simplifiedNFuzz := fun i => i = cksumSimplified || s.m.simplifiedNFuzz i } })
    | .coverageIncrease =>
      let s := calculateNewBitsIfNecessary cfg s
      (s.v.newBits ≠ 0, s)
    | .uniqueTrace =>
      let s := classifyIfNecessary s
      let cksumUnique := cfg.hash32 s.m.mapSize s.m.traceBits
      -- The bit that is read is the one of `cksum`.
      if s.m.nFuzzDup s.v.cksum.toUInt32 then (false, s)
      else (true, { s with m := { s.m with
        nFuzzDup := fun i => i = cksumUnique || s.m.nFuzzDup i } })

/-- One binary with a sanitizer. -/
def runSanitizer (run : SanRun) (s : SaveState) : SaveState :=
  { s with
    v := { s.v with
      len := run.len
      sanFault := if run.sanFault = .crash then .crash else .ok }
    m := { s.m with
      stopSoon := run.stopSoon
      -- `SAN_CRASH_ONLY`
      sanCaseStatus :=
        if run.sanFault ≠ .ok then s.m.sanCaseStatus ||| 0x10 else s.m.sanCaseStatus } }

/-- The loop over the sanitizers, `n` of which are left. -/
def sanLoop (sanRuns : ℕ → SanRun) : ℕ → ℕ → SaveState → SaveState
  | 0, _, s => s
  | n + 1, sanIdx, s =>
    let run := sanRuns sanIdx
    let s := runSanitizer run s
    if run.sanFault = .crash then s else sanLoop sanRuns n (sanIdx + 1) s

/-- The sanitizers run on inputs whose fault is `crash_mode`. -/
def sanitize (cfg : SaveCfg) (sanRuns : ℕ → SanRun) (s : SaveState) : SaveState :=
  let r := feedSan cfg s
  if r.1 then sanLoop sanRuns cfg.sanBinaryLength 0 r.2 else r.2

/-! ## The queue -/

/-- `add_to_queue` and the bookkeeping behind it. -/
def enqueue (cfg : SaveCfg) (s : SaveState) : SaveState :=
  let newBits := s.v.newBits
  { s with
    t := { s.t with
      queue := s.t.queue ++ [{
        len := s.v.len
        newBits := newBits
        execCksum := s.v.cksum
        nFuzzEntry := if cfg.fast then s.v.cksum % nFuzzSize else 0 }]
      queuedWithCov := s.t.queuedWithCov + if newBits = 2 then 1 else 0
      ssNewBitsAny := s.t.ssNewBitsAny + if newBits ≠ 0 then 1 else 0
      ssNewBitsKept := s.t.ssNewBitsKept + if s.v.keeping && newBits ≠ 0 then 1 else 0 }
    m := { s.m with
      fuzzMode := s.m.fuzzMode && !(cfg.switchFuzzMode && !cfg.nonInstrumentedMode)
      ssCovCnt :=
        if newBits ≠ 0 then s.m.ssCovCnt.map (· + if newBits = 2 then 2 else 1)
        else s.m.ssCovCnt
      nFuzz := fun i => if cfg.fast && i = s.v.cksum % nFuzzSize then 1 else s.m.nFuzz i } }

/-- `calibrate_case` on the new entry. -/
def calibrate (cal : Calibration) (s : SaveState) : SaveState :=
  { s with
    m := { s.m with
      traceBits := cal.traceBits
      virginBits := cal.virginBits
      bitmapChanged := cal.bitmapChanged
      stopSoon := cal.stopSoon }
    t := { s.t with
      queuedWithCov := s.t.queuedWithCov + if cal.newCov && s.v.newBits ≠ 2 then 1 else 0 } }

/-- `save_to_queue`.  The first component is false where the process ends. -/
def saveToQueue (cfg : SaveCfg) (file : FileIo) (cal : Calibration) (s : SaveState) :
    Bool × SaveState :=
  let s := calculateNewBitsIfNecessary cfg (calculateCksumIfNecessary cfg s)
  if file = .fatal then (false, s)
  else
    let s := calibrate cal (enqueue cfg s)
    if cal.res = .error then (false, s) else (true, { s with v := { s.v with keeping := true } })

/-! ## The faults -/

/-- The trace of a fault is simplified and looked up in a map of its own. -/
def newTmout (cfg : SaveCfg) (s : SaveState) : Bool × SaveState :=
  if cfg.nonInstrumentedMode then (true, s)
  else
    let m := s.m.simplify
    let r := hasNewBits (m.view m.virginTmout false)
    (r.1 ≠ 0, { s with m := { m with virginTmout := r.2.virginMap } })

/-- The same for a crash. -/
def newCrash (cfg : SaveCfg) (s : SaveState) : Bool × SaveState :=
  if cfg.nonInstrumentedMode then (true, s)
  else
    let m := s.m.simplify
    let r := hasNewBits (m.view m.virginCrash false)
    (r.1 ≠ 0, { s with m := { m with virginCrash := r.2.virginMap } })

/-- The end of the function: the input goes to a file of its own. -/
def saveFault (faultFile : FileIo) (s : SaveState) : SaveOutcome × SaveState :=
  (if faultFile = .fatal then .fatal else .returned s.v.keeping, s)

/-- `keep_as_crash`. -/
def keepAsCrash (cfg : SaveCfg) (faultFile : FileIo) (s : SaveState) : SaveOutcome × SaveState :=
  let s := { s with t := { s.t with totalCrashes := s.t.totalCrashes + 1 } }
  if keepUniqueCrash ≤ s.t.savedCrashes then (.returned s.v.keeping, s)
  else
    let r := newCrash cfg s
    if !r.1 then (.returned s.v.keeping, r.2)
    else saveFault faultFile { r.2 with
      t := { r.2.t with savedCrashes := r.2.t.savedCrashes + 1 } }

/-- The run of a timeout with `hang_tmout`. -/
def rerun (run : HangRun) (s : SaveState) : SaveState :=
  { s with
    v := { s.v with
      len := if run.tmpLen ≠ 0 then run.tmpLen else run.fixLen
      classified := false
      bitsCounted := false
      cksumed := false }
    m := { s.m with
      traceBits := run.traceBits
      stopSoon := run.stopSoon } }

/-- The case of the timeout, up to the longer run. -/
def countTmout (cfg : SaveCfg) (s : SaveState) : Bool × SaveState :=
  let s := { s with t := { s.t with totalTmouts := s.t.totalTmouts + 1 } }
  if keepUniqueHang ≤ s.t.savedHangs then (false, s) else newTmout cfg s

/-- A genuine hang. -/
def keepAsHang (faultFile : FileIo) (s : SaveState) : SaveOutcome × SaveState :=
  saveFault faultFile { s with t := { s.t with savedHangs := s.t.savedHangs + 1 } }

/-- `may_save_fault`. -/
def maySaveFault (cfg : SaveCfg) (faultFile : FileIo) (hangRuns : List HangRun) (s : SaveState) :
    SaveOutcome × SaveState :=
  match s.v.fault with
  | .tmout =>
    let r := countTmout cfg s
    let s := r.2
    if !r.1 then (.returned s.v.keeping, s)
    else if cfg.execTmout < cfg.hangTmout then
      match hangRuns with
      | [] => (.running, s)
      | run :: hangRuns =>
        let s := rerun run s
        if !run.stopSoon && run.newFault = .crash then keepAsCrash cfg faultFile s
        else if run.stopSoon || run.newFault ≠ .tmout then
          if cfg.aflKeepTimeouts then
            -- The fault is still the one of the first run.
            let q := saveToQueue cfg run.file run.calibration
              { s with t := { s.t with savedTmouts := s.t.savedTmouts + 1 } }
            if q.1 then maySaveFault cfg faultFile hangRuns q.2 else (.fatal, q.2)
          else (.returned s.v.keeping, s)
        else keepAsHang faultFile s
    else keepAsHang faultFile s
  | .crash => keepAsCrash cfg faultFile s
  | .error => (.fatal, s)
  | .ok | .noinst | .nobits => (.returned s.v.keeping, s)

/-! ## The function -/

/-- The state in which a call starts. -/
def SaveCall.start (c : SaveCall) (t : SaveTally) : SaveState where
  v := {
    len := c.len
    fault := c.fault
    keeping := false
    sanFault := .ok
    newBits := 0
    bitsCounted := false
    classified := false
    cksum := 0
    cksumed := false }
  m := c.maps
  t := t

/-- The update of the path frequency. -/
def countFrequency (cfg : SaveCfg) (s : SaveState) : SaveState :=
  if cfg.fast then
    let s := calculateCksumIfNecessary cfg s
    { s with m := s.m.countPath s.v.cksum }
  else s

/-- `fault = san_fault`. -/
def takeSanFault (s : SaveState) : SaveState :=
  { s with v := { s.v with fault := s.v.sanFault } }

/-- The part for inputs whose fault is `crash_mode`. -/
def saveNormal (cfg : SaveCfg) (c : SaveCall) (s : SaveState) : SaveOutcome × SaveState :=
  let s := calculateNewBitsIfNecessary cfg (sanitize cfg c.sanRuns s)
  if s.v.newBits = 0 then
    if s.v.sanFault = .ok then
      (.returned false, { s with t := { s.t with
        totalCrashes := s.t.totalCrashes + if cfg.crashMode ≠ .ok then 1 else 0 } })
    else
      -- `NON_COV_INCREASE_BUG`
      maySaveFault cfg c.faultFile c.hangRuns (takeSanFault { s with
        m := { s.m with sanCaseStatus := s.m.sanCaseStatus ||| 0x20 } })
  else
    let q := saveToQueue cfg c.file c.calibration (takeSanFault s)
    if q.1 then maySaveFault cfg c.faultFile c.hangRuns q.2 else (.fatal, q.2)

/-- `save_if_interesting`. -/
def saveIfInteresting (cfg : SaveCfg) (t : SaveTally) (c : SaveCall) : SaveOutcome × SaveState :=
  let s := c.start t
  if c.len = 0 then (.returned false, s)
  else if c.fault = .tmout && cfg.aflIgnoreTimeouts then
    (.returned false,
      if cfg.fast then
        let m := s.m.classify
        { s with m := m.countPath (cfg.hash64 m.mapSize m.traceBits) }
      else s)
  else
    let s := countFrequency cfg { s with m := { s.m with sanCaseStatus := 0 } }
    if c.fault = cfg.crashMode then saveNormal cfg c s
    else maySaveFault cfg c.faultFile c.hangRuns s

/-- A call, as a step of a run: only the tally is handed on. -/
def saveStep (cfg : SaveCfg) (t : SaveTally) (c : SaveCall) : SaveOutcome × SaveTally :=
  let r := saveIfInteresting cfg t c
  (r.1, r.2.t)

end Bitmap

end AflNv
