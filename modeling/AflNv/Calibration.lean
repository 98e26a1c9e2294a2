import AflNv.CBase
import AflNv.Coverage
import AflNv.Lib.Machine
import Mathlib.Data.Fintype.Pi

/-!
# The bookkeeping of the calibration

`calibrate_case` of `src/afl-fuzz-run.c`: an entry is run several times, the traces are compared
with the first one, and counters say how many entries brought new coverage or were variable.

* `body` is one iteration behind a run that went well, `loop` the loop with its exits, and
  `calibrate` the function; `update_bitmap_score` and the times are left out.
* `Cal.Marked` and `Cal.Detected` are the invariants of the loop.
* `calibration_bookkeeping` says what holds along the runs of `Careful` steps.

A map is a function on its bytes; `has_new_bits` is taken byte by byte.
-/

namespace AflNv.Calibration

open AflNv.Lib

variable {n : ℕ}

/-- A map of `map_size` bytes. -/
abbrev Bitmap (n : ℕ) := Fin n → UInt8

/-- `count_bytes` -/
def countBytes (m : Bitmap n) : ℕ := (List.finRange n).countP fun i => m i ≠ 0

/-- `classify_counts` -/
def classifyCounts (m : Bitmap n) : Bitmap n := fun i => Coverage.countClassLookup8 (m i)

/-- `has_new_bits`: the result and the new map. -/
def hasNewBits (trace virgin : Bitmap n) : ℕ × Bitmap n :=
  (if ∃ i, trace i ≠ 0 ∧ virgin i = 255 then 2
    else if ∃ i, trace i &&& virgin i ≠ 0 then 1 else 0,
    fun i => virgin i &&& ~~~trace i)

/-- `FSRV_RUN_*` -/
inductive Fault where
  | ok
  | tmout
  | crash
  | error
  | noInst
  | noBits
  deriving DecidableEq

/-- What does not change. -/
structure Cfg (n : ℕ) where
  hash64 : Bitmap n → UInt64
  crashMode : Fault
  nonInstrumentedMode : Bool
  calFast : Bool
  cmplogMode : Bool

/-- A run of the target. -/
structure Run (n : ℕ) where
  traceBits : Bitmap n
  fault : Fault
  stopSoon : Bool

def calCyclesFast : ℕ := 3

def calCycles : ℕ := 7

def calCyclesLong : ℕ := 12

/-- `stage_max` at the beginning. -/
def Cfg.cycles (cfg : Cfg n) : ℕ := if cfg.calFast then calCyclesFast else calCycles

/-- `stage_max` once the traces differ. -/
def Cfg.cyclesLong (cfg : Cfg n) : ℕ := if cfg.calFast then calCycles else calCyclesLong

/-- `struct queue_entry` -/
structure Entry where
  execCksum : UInt64
  calFailed : ℕ
  hasNewCov : Bool
  varBehavior : Bool

/-- The variables of a calibration; `seen` are the traces of the entry that it has seen. -/
structure Cal (n : ℕ) where
  stageCur : ℕ
  stageMax : ℕ
  traceBits : Bitmap n
  firstTrace : Bitmap n
  varBytes : Bitmap n
  virginBits : Bitmap n
  execCksum : UInt64
  newBits : ℕ
  varDetected : Bool
  seen : List (Bitmap n)

/-- An iteration, behind the run. -/
def body (cfg : Cfg n) (c : Cal n) : Cal n :=
  let trace := classifyCounts c.traceBits
  let c := { c with traceBits := trace, seen := c.seen ++ [trace], stageCur := c.stageCur + 1 }
  let cksum := cfg.hash64 trace
  if c.execCksum ≠ cksum then
    let hnb := hasNewBits trace c.virginBits
    if c.execCksum ≠ 0 then
      { c with
        newBits := max c.newBits hnb.1
        varBytes := fun i =>
          if c.varBytes i = 0 ∧ c.firstTrace i ≠ trace i then 1 else c.varBytes i
        virginBits := fun i =>
          if c.varBytes i = 0 ∧ c.firstTrace i ≠ trace i then 0 else hnb.2 i
        varDetected := true
        stageMax := cfg.cyclesLong }
    else
      { c with
        newBits := max c.newBits hnb.1
        virginBits := hnb.2
        execCksum := cksum
        firstTrace := trace }
  else c

/-- The loop, with at most `left` iterations; the second component is the fault of an abort. -/
def loop (cfg : Cfg n) (runs : ℕ → Run n) : ℕ → Cal n → Cal n × Option Fault
  | 0, c => (c, none)
  | left + 1, c =>
    if c.stageCur < c.stageMax then
      let r := runs c.stageCur
      let c := { c with traceBits := r.traceBits }
      if r.stopSoon = true ∨ r.fault ≠ cfg.crashMode then (c, some r.fault)
      else if cfg.nonInstrumentedMode = false ∧ countBytes r.traceBits = 0 then (c, some .noInst)
      else loop cfg runs left (body cfg c)
    else (c, none)

/-- The state of the fuzzer; `history` are the calibrations, with the traces that each has seen. -/
structure World (n : ℕ) where
  entries : List Entry
  stageName : Bytes
  stageCur : ℕ
  stageMax : ℕ
  keepOriginal : Bool
  traceBits : Bitmap n
  firstTrace : Bitmap n
  varBytes : Bitmap n
  virginBits : Bitmap n
  varByteCount : ℕ
  queuedWithCov : ℕ
  queuedVariable : ℕ
  history : List (ℕ × List (Bitmap n))

/-- `exec_cksum` when the loop begins. -/
def startCksum (cfg : Cfg n) (q : Entry) : UInt64 := if cfg.cmplogMode then 0 else q.execCksum

/-- What the loop begins with. -/
def Cal.start (cfg : Cfg n) (w : World n) (q : Entry) : Cal n :=
  let cksum := startCksum cfg q
  if cksum ≠ 0 then
    let hnb := hasNewBits w.traceBits w.virginBits
    ⟨0, cfg.cycles, w.traceBits, w.traceBits, w.varBytes, hnb.2, cksum, hnb.1, false, [w.traceBits]⟩
  else ⟨0, cfg.cycles, w.traceBits, w.firstTrace, w.varBytes, w.virginBits, cksum, 0, false, []⟩

/-- The loop of a calibration. -/
def calLoop (cfg : Cfg n) (w : World n) (q : Entry) (runs : ℕ → Run n) : Cal n × Option Fault :=
  loop cfg runs calCyclesLong (Cal.start cfg w q)

/-- `calibrate_case` of entry `k`, for what the runs of the target do. -/
def calibrate (cfg : Cfg n) (w : World n) (k : ℕ) (runs : ℕ → Run n) : Fault × World n :=
  match w.entries[k]? with
  | none => (.error, w)
  | some q =>
    let r := calLoop cfg w q runs
    let c := r.1
    let fault := match r.2 with
      | some fault => fault
      | none =>
        if cfg.nonInstrumentedMode = false ∧ q.execCksum = 0 ∧ cfg.crashMode = .ok ∧ c.newBits = 0
        then .noBits else cfg.crashMode
    let newCov := decide (c.newBits = 2) && !q.hasNewCov
    let inside : World n :=
      { w with
        entries := w.entries.set k
          { q with
            execCksum := c.execCksum
            calFailed := if r.2 = none then 0 else (q.calFailed + 1) % 256
            hasNewCov := q.hasNewCov || newCov }
        stageName := ascii "calibration"
        stageCur := c.stageCur
        stageMax := c.stageMax
        keepOriginal := true
        traceBits := c.traceBits
        firstTrace := c.firstTrace
        varBytes := c.varBytes
        virginBits := c.virginBits
        varByteCount := if c.varDetected then countBytes c.varBytes else w.varByteCount
        queuedWithCov := w.queuedWithCov + if newCov then 1 else 0
        queuedVariable := w.queuedVariable + if c.varDetected && !q.varBehavior then 1 else 0
        history := w.history ++ [(k, c.seen)] }
    (fault, { inside with
      stageName := w.stageName
      stageCur := w.stageCur
      stageMax := w.stageMax
      keepOriginal := w.keepOriginal })

/-! ## Runs -/

/-- A calibration, or what other code does: a new entry, which may be counted as one with new
coverage at once; a new `exec_cksum`; an execution of something else; another stage. -/
inductive Event (n : ℕ) where
  | calibrate (k : ℕ) (runs : ℕ → Run n)
  | add (execCksum : UInt64) (newCov : Bool)
  | setCksum (k : ℕ) (execCksum : UInt64)
  | execute (traceBits virginBits : Bitmap n)
  | stage (name : Bytes) (cur max : ℕ) (keepOriginal : Bool)

def step (cfg : Cfg n) (w : World n) : Event n → Fault × World n
  | .calibrate k runs => calibrate cfg w k runs
  | .add cksum newCov =>
    (.ok, { w with
      entries := w.entries ++ [⟨cksum, 0, newCov, false⟩]
      queuedWithCov := w.queuedWithCov + if newCov then 1 else 0 })
  | .setCksum k cksum =>
    match w.entries[k]? with
    | none => (.ok, w)
    | some q => (.ok, { w with entries := w.entries.set k { q with execCksum := cksum } })
  | .execute traceBits virginBits =>
    (.ok, { w with traceBits := traceBits, virginBits := virginBits })
  | .stage name cur max keep =>
    (.ok, { w with stageName := name, stageCur := cur, stageMax := max, keepOriginal := keep })

/-- An empty queue. -/
def World.start : World n where
  entries := []
  stageName := []
  stageCur := 0
  stageMax := 0
  keepOriginal := false
  traceBits := fun _ => 0
  firstTrace := fun _ => 0
  varBytes := fun _ => 0
  virginBits := fun _ => 255
  varByteCount := 0
  queuedWithCov := 0
  queuedVariable := 0
  history := []

/-- Two of the traces differ. -/
def Differing (traces : List (Bitmap n)) : Prop := ∃ t ∈ traces, ∃ u ∈ traces, t ≠ u

instance (traces : List (Bitmap n)) : Decidable (Differing traces) :=
  inferInstanceAs (Decidable (∃ t ∈ traces, _))

/-- The entries of which some calibration has seen differing traces. -/
def variableEntries (history : List (ℕ × List (Bitmap n))) : Finset ℕ :=
  ((history.filter fun h => Differing h.2).map Prod.fst).toFinset

/-! ## The condition -/

/-- The run is one of those that are compared. -/
def Cfg.fine (cfg : Cfg n) (r : Run n) : Bool :=
  !r.stopSoon && decide (r.fault = cfg.crashMode) &&
    (cfg.nonInstrumentedMode || decide (countBytes r.traceBits ≠ 0))

/-- The trace that all others are compared with. -/
def reference (cfg : Cfg n) (w : World n) (q : Entry) (runs : ℕ → Run n) : Bitmap n :=
  if cfg.cmplogMode = false ∧ q.execCksum ≠ 0 then w.traceBits
  else classifyCounts (runs 0).traceBits

/-- The checksums of the traces tell them apart from the reference. -/
def Separates (cfg : Cfg n) (ref : Bitmap n) (runs : ℕ → Run n) : Prop :=
  ∀ i < calCyclesLong, (∀ j ≤ i, cfg.fine (runs j) = true) → cfg.hash64 ref ≠ 0 ∧
    (cfg.hash64 (classifyCounts (runs i).traceBits) = cfg.hash64 ref →
      classifyCounts (runs i).traceBits = ref)

/-- A trace of the first cycles differs from the reference. -/
def Differs (cfg : Cfg n) (ref : Bitmap n) (runs : ℕ → Run n) : Prop :=
  ∃ i < cfg.cycles, (∀ j ≤ i, cfg.fine (runs j) = true) ∧ classifyCounts (runs i).traceBits ≠ ref

instance (cfg : Cfg n) (ref : Bitmap n) (runs : ℕ → Run n) : Decidable (Separates cfg ref runs) :=
  inferInstanceAs (Decidable (∀ i < calCyclesLong, _ → _ ∧ (_ → _)))

def CarefulCall (cfg : Cfg n) (w : World n) (k : ℕ) (q : Entry) (runs : ℕ → Run n) : Prop :=
  q.calFailed < 255 ∧
  (q.execCksum ≠ 0 → cfg.hash64 w.traceBits = q.execCksum) ∧
  Separates cfg (reference cfg w q runs) runs ∧
  (Differs cfg (reference cfg w q runs) runs → ∀ h ∈ w.history, h.1 = k → ¬ Differing h.2)

/-- The failure counter has room, the trace is that of the checksum, the checksums tell the traces
apart, and an entry with differing traces had none before. -/
def Careful (cfg : Cfg n) (w : World n) : Event n → Prop
  | .calibrate k runs => ∀ q, w.entries[k]? = some q → CarefulCall cfg w k q runs
  | _ => True

/-! ## The loop -/

section Loop

variable {cfg : Cfg n} {runs : ℕ → Run n}

theorem Cfg.cycles_le (cfg : Cfg n) : cfg.cycles ≤ calCyclesLong := by
  rw [Cfg.cycles]
  split <;> decide

theorem Cfg.cyclesLong_le (cfg : Cfg n) : cfg.cyclesLong ≤ calCyclesLong := by
  rw [Cfg.cyclesLong]
  split <;> decide

theorem body_stageCur (cfg : Cfg n) (c : Cal n) : (body cfg c).stageCur = c.stageCur + 1 := by
  rw [body]
  split
  · split <;> rfl
  · rfl

theorem body_stageMax (cfg : Cfg n) (c : Cal n) :
    (body cfg c).stageMax = c.stageMax ∨ (body cfg c).stageMax = cfg.cyclesLong := by
  rw [body]
  split
  · split
    · exact .inr rfl
    · exact .inl rfl
  · exact .inl rfl

theorem fine_iff (cfg : Cfg n) (r : Run n) : cfg.fine r = true ↔
    ¬ (r.stopSoon = true ∨ r.fault ≠ cfg.crashMode) ∧
      ¬ (cfg.nonInstrumentedMode = false ∧ countBytes r.traceBits = 0) := by
  rw [Cfg.fine]
  cases r.stopSoon <;> cases cfg.nonInstrumentedMode <;> simp

/-- The loop goes on behind a fine run below `stage_max`, and ends otherwise. -/
theorem loop_succ (left : ℕ) (c : Cal n) :
    loop cfg runs (left + 1) c = (c, none) ∧ c.stageMax ≤ c.stageCur ∨
    (c.stageCur < c.stageMax ∧ cfg.fine (runs c.stageCur) = true ∧
      loop cfg runs (left + 1) c =
        loop cfg runs left (body cfg { c with traceBits := (runs c.stageCur).traceBits })) ∨
    (∃ fault, loop cfg runs (left + 1) c =
      ({ c with traceBits := (runs c.stageCur).traceBits }, some fault)) := by
  rw [loop]
  split
  · next hlt =>
    have hfine := fine_iff cfg (runs c.stageCur)
    dsimp only
    split
    · exact .inr (.inr ⟨_, rfl⟩)
    · next hrun =>
      split
      · exact .inr (.inr ⟨_, rfl⟩)
      · next hcount => exact .inr (.inl ⟨hlt, hfine.mpr ⟨hrun, hcount⟩, rfl⟩)
  · next hge => exact .inl ⟨rfl, Nat.not_lt.mp hge⟩

/-- `calCyclesLong` iterations are enough: more of them change nothing. -/
theorem loop_enough {left : ℕ} {c : Cal n} (hmax : c.stageMax ≤ calCyclesLong)
    (hleft : calCyclesLong ≤ c.stageCur + left) (more : ℕ) :
    loop cfg runs (left + more) c = loop cfg runs left c := by
  induction left generalizing c with
  | zero =>
    rw [Nat.zero_add]
    cases more with
    | zero => rfl
    | succ more =>
      show loop cfg runs (more + 1) c = (c, none)
      rw [loop, if_neg (by omega)]
  | succ left ih =>
    rw [show left + 1 + more = left + more + 1 by omega, loop, loop]
    split
    · dsimp only
      split
      · rfl
      · split
        · rfl
        · apply ih
          · have hcases := body_stageMax cfg { c with traceBits := (runs c.stageCur).traceBits }
            have hlong := cfg.cyclesLong_le
            rcases hcases with heq | heq
            · rw [heq]
              exact hmax
            · rw [heq]
              exact hlong
          · rw [body_stageCur]
            show calCyclesLong ≤ c.stageCur + 1 + left
            omega
    · rfl

/-- What an iteration keeps, the loop keeps. -/
theorem loop_inv (Inv : Cal n → Prop)
    (htrace : ∀ c trace, Inv c → Inv { c with traceBits := trace })
    (hbody : ∀ c, Inv c → c.stageCur < c.stageMax → cfg.fine (runs c.stageCur) = true →
      Inv (body cfg { c with traceBits := (runs c.stageCur).traceBits }))
    (left : ℕ) {c : Cal n} (h : Inv c) : Inv (loop cfg runs left c).1 := by
  induction left generalizing c with
  | zero => exact h
  | succ left ih =>
    rcases loop_succ left c with ⟨heq, -⟩ | ⟨hlt, hfine, heq⟩ | ⟨fault, heq⟩
    · rw [heq]
      exact h
    · rw [heq]
      exact ih (hbody c h hlt hfine)
    · rw [heq]
      exact htrace c _ h

/-- `var_detected` says that a trace differs from the reference. -/
structure Cal.Detected (cfg : Cfg n) (ref : Bitmap n) (runs : ℕ → Run n) (c : Cal n) : Prop where
  fine : ∀ j < c.stageCur, cfg.fine (runs j) = true
  max_le : c.stageMax ≤ calCyclesLong
  max_eq : c.varDetected = false → c.stageMax = cfg.cycles
  empty : c.execCksum = 0 → c.stageCur = 0 ∧ c.seen = [] ∧ ref = classifyCounts (runs 0).traceBits
  started : c.execCksum ≠ 0 → c.execCksum = cfg.hash64 ref ∧ ref ∈ c.seen
  detected : c.varDetected = true ↔ ∃ t ∈ c.seen, t ≠ ref
  differs : c.varDetected = true → Differs cfg ref runs

theorem detected_body {ref : Bitmap n} (hsep : Separates cfg ref runs) {c : Cal n}
    (h : c.Detected cfg ref runs) (hlt : c.stageCur < c.stageMax)
    (hfine : cfg.fine (runs c.stageCur) = true) :
    (body cfg { c with traceBits := (runs c.stageCur).traceBits }).Detected cfg ref runs := by
  have hall : ∀ j ≤ c.stageCur, cfg.fine (runs j) = true := by
    intro j hj
    rcases Nat.lt_or_eq_of_le hj with hj | hj
    · exact h.fine j hj
    · rw [hj]
      exact hfine
  have hnext : ∀ j < c.stageCur + 1, cfg.fine (runs j) = true :=
    fun j hj => hall j (Nat.le_of_lt_succ hj)
  obtain ⟨href, hsame⟩ := hsep c.stageCur (Nat.lt_of_lt_of_le hlt h.max_le) hall
  rw [body]
  dsimp only
  split
  · next hne =>
    split
    · next hcksum =>
      -- a trace that differs: it is one of the first cycles, or another one was
      obtain ⟨hhash, hmem⟩ := h.started hcksum
      have htrace : classifyCounts (runs c.stageCur).traceBits ≠ ref := by
        intro heq
        rw [hhash, heq] at hne
        exact hne rfl
      refine ⟨hnext, cfg.cyclesLong_le, fun hno => absurd hno (by simp),
        fun hzero => absurd hzero hcksum, fun _ => ⟨hhash, List.mem_append_left _ hmem⟩,
        iff_of_true rfl
          ⟨_, List.mem_append_right _ List.mem_cons_self, htrace⟩, fun _ => ?_⟩
      cases hvar : c.varDetected with
      | true => exact h.differs hvar
      | false => exact ⟨c.stageCur, h.max_eq hvar ▸ hlt, hall, htrace⟩
    · next hcksum =>
      obtain ⟨hcur, hseen, heq⟩ := h.empty (not_not.mp hcksum)
      have htrace : classifyCounts (runs c.stageCur).traceBits = ref := by rw [hcur, heq]
      have hvar : c.varDetected = false := by
        rw [← Bool.not_eq_true, h.detected, hseen]
        intro ⟨t, ht, _⟩
        exact absurd ht List.not_mem_nil
      refine ⟨hnext, h.max_le, h.max_eq, fun hzero => ?_, fun _ => ?_, ?_, h.differs⟩
      · rw [htrace] at hzero
        exact absurd hzero href
      · rw [htrace]
        exact ⟨rfl, List.mem_append_right _ List.mem_cons_self⟩
      · rw [hvar, hseen, htrace]
        simp
  · next heq =>
    have hhash := not_not.mp heq
    have hcksum : c.execCksum ≠ 0 := by
      intro hzero
      obtain ⟨hcur, -, hfirst⟩ := h.empty hzero
      rw [hcur, ← hfirst, hzero] at hhash
      exact href hhash.symm
    obtain ⟨hsum, hmem⟩ := h.started hcksum
    have htrace := hsame (hhash.symm.trans hsum)
    refine ⟨hnext, h.max_le, h.max_eq, fun hzero => absurd hzero hcksum,
      fun _ => ⟨hsum, List.mem_append_left _ hmem⟩, ?_, h.differs⟩
    show c.varDetected = true ↔ _
    rw [h.detected, htrace]
    constructor
    · intro ⟨t, ht, hne⟩
      exact ⟨t, List.mem_append_left _ ht, hne⟩
    · intro ⟨t, ht, hne⟩
      rcases List.mem_append.mp ht with ht | ht
      · exact ⟨t, ht, hne⟩
      · exact absurd (List.mem_singleton.mp ht) hne

theorem detected_start {w : World n} {q : Entry}
    (hcksum : q.execCksum ≠ 0 → cfg.hash64 w.traceBits = q.execCksum) :
    (Cal.start cfg w q).Detected cfg (reference cfg w q runs) runs := by
  have hsum : startCksum cfg q ≠ 0 ↔ cfg.cmplogMode = false ∧ q.execCksum ≠ 0 := by
    rw [startCksum]
    cases cfg.cmplogMode <;> simp
  rw [Cal.start]
  dsimp only
  split
  · next hne =>
    obtain ⟨hmode, hq⟩ := hsum.mp hne
    have href : reference cfg w q runs = w.traceBits := if_pos ⟨hmode, hq⟩
    rw [href]
    refine ⟨fun j hj => absurd hj (Nat.not_lt_zero j), cfg.cycles_le, fun _ => rfl,
      fun hzero => absurd hzero hne, fun _ => ⟨?_, List.mem_cons_self⟩, ?_, fun h => by cases h⟩
    · show startCksum cfg q = _
      rw [startCksum, hmode, if_neg Bool.false_ne_true, hcksum hq]
    · simp
  · next heq =>
    have href : reference cfg w q runs = classifyCounts (runs 0).traceBits :=
      if_neg fun h => heq (hsum.mpr h)
    rw [href]
    exact ⟨fun j hj => absurd hj (Nat.not_lt_zero j), cfg.cycles_le, fun _ => rfl,
      fun _ => ⟨rfl, rfl, rfl⟩, fun hne => absurd hne heq, by simp, fun h => by cases h⟩

/-- The flag is that of the traces, and of the input of the call. -/
theorem detected_loop {w : World n} {q : Entry}
    (hcksum : q.execCksum ≠ 0 → cfg.hash64 w.traceBits = q.execCksum)
    (hsep : Separates cfg (reference cfg w q runs) runs) :
    ((calLoop cfg w q runs).1.varDetected = true ↔ Differing (calLoop cfg w q runs).1.seen) ∧
    ((calLoop cfg w q runs).1.varDetected = true → Differs cfg (reference cfg w q runs) runs) := by
  have h : (calLoop cfg w q runs).1.Detected cfg (reference cfg w q runs) runs :=
    loop_inv (fun c => c.Detected cfg (reference cfg w q runs) runs)
      (fun _ _ h => ⟨h.fine, h.max_le, h.max_eq, h.empty, h.started, h.detected, h.differs⟩)
      (fun _ h hlt hfine => detected_body hsep h hlt hfine) _ (detected_start hcksum)
  refine ⟨?_, h.differs⟩
  rw [h.detected]
  constructor
  · intro ⟨t, ht, hne⟩
    have hstarted : (calLoop cfg w q runs).1.execCksum ≠ 0 := by
      intro hzero
      rw [(h.empty hzero).2.1] at ht
      exact absurd ht List.not_mem_nil
    exact ⟨t, ht, _, (h.started hstarted).2, hne⟩
  · intro ⟨t, ht, u, hu, hne⟩
    by_cases href : t = reference cfg w q runs
    · rw [href] at hne
      exact ⟨u, hu, hne.symm⟩
    · exact ⟨t, ht, href⟩

end Loop

/-! ## The counters -/

section Counters

variable {cfg : Cfg n} {w : World n}

/-- The counters are exact, and `var_behavior` is never set. -/
structure Inv (w : World n) : Prop where
  cov : w.queuedWithCov = w.entries.countP fun q => q.hasNewCov
  variable_eq : w.queuedVariable = (variableEntries w.history).card
  plain : ∀ q ∈ w.entries, q.varBehavior = false

/-- An entry takes the place of another one. -/
theorem countP_set_entry {p : Entry → Bool} {l : List Entry} {k : ℕ} {q q' : Entry} {new : Bool}
    (hq : l[k]? = some q) (hp : p q' = (p q || new)) (hnew : new = true → p q = false) :
    (l.set k q').countP p = l.countP p + if new then 1 else 0 := by
  obtain ⟨hk, hget⟩ := List.getElem?_eq_some_iff.mp hq
  rw [List.countP_set hk, hget, hp]
  cases hold : p q with
  | false => simp
  | true =>
    have hno : new = false := by
      by_contra hyes
      rw [hnew (by simpa using hyes)] at hold
      cases hold
    have hpos : 0 < l.countP p := List.countP_pos_iff.mpr ⟨q, List.mem_of_getElem? hq, hold⟩
    rw [hno]
    simp only [Bool.or_false, if_pos, Bool.false_eq_true, if_false]
    omega

theorem variableEntries_concat (history : List (ℕ × List (Bitmap n))) (k : ℕ)
    (seen : List (Bitmap n)) : variableEntries (history ++ [(k, seen)]) =
      if Differing seen then insert k (variableEntries history) else variableEntries history := by
  rw [variableEntries, List.filter_append]
  by_cases h : Differing seen
  · rw [if_pos h, List.filter_cons_of_pos (by rwa [decide_eq_true_eq]), List.filter_nil,
      List.map_append, List.toFinset_append]
    ext i
    simp [variableEntries]
  · rw [if_neg h, List.filter_cons_of_neg (by rwa [decide_eq_true_eq]), List.filter_nil,
      List.append_nil]
    rfl

theorem mem_variableEntries {history : List (ℕ × List (Bitmap n))} {k : ℕ} :
    k ∈ variableEntries history ↔ ∃ h ∈ history, h.1 = k ∧ Differing h.2 := by
  simp only [variableEntries, List.mem_toFinset, List.mem_map, List.mem_filter, decide_eq_true_eq]
  constructor
  · intro ⟨h, ⟨hmem, hdiff⟩, heq⟩
    exact ⟨h, hmem, heq, hdiff⟩
  · intro ⟨h, hmem, heq, hdiff⟩
    exact ⟨h, ⟨hmem, hdiff⟩, heq⟩

theorem inv_start : Inv (World.start : World n) :=
  ⟨rfl, rfl, fun _ hq => absurd hq List.not_mem_nil⟩

theorem inv_add (h : Inv w) (cksum : UInt64) (newCov : Bool) :
    Inv (step cfg w (.add cksum newCov)).2 := by
  refine ⟨?_, h.variable_eq, fun q hq => ?_⟩
  · show w.queuedWithCov + (if newCov then 1 else 0) = (w.entries ++ [_]).countP _
    rw [List.countP_append, ← h.cov, List.countP_singleton]
  · rcases List.mem_append.mp hq with hq | hq
    · exact h.plain q hq
    · rw [List.mem_singleton.mp hq]

theorem inv_setCksum (h : Inv w) (k : ℕ) (cksum : UInt64) :
    Inv (step cfg w (.setCksum k cksum)).2 := by
  show Inv (Prod.snd (match w.entries[k]? with
    | none => (Fault.ok, w)
    | some q => (Fault.ok, { w with entries := w.entries.set k { q with execCksum := cksum } })))
  cases hq : w.entries[k]? with
  | none => exact h
  | some q =>
    refine ⟨?_, h.variable_eq, fun q' hq' => ?_⟩
    · have hcount : (w.entries.set k { q with execCksum := cksum }).countP (fun q => q.hasNewCov) =
          (w.entries.countP fun q => q.hasNewCov) + if false then 1 else 0 :=
        countP_set_entry hq (Bool.or_false _).symm fun hno => by cases hno
      show w.queuedWithCov = (w.entries.set k _).countP _
      rw [h.cov]
      exact hcount.symm
    · rcases List.mem_or_eq_of_mem_set hq' with hmem | heq
      · exact h.plain q' hmem
      · rw [heq]
        exact h.plain q (List.mem_of_getElem? hq)

/-- What a calibration makes of the counters and of the entries. -/
theorem calibrate_eq (cfg : Cfg n) {k : ℕ} {q : Entry} (hq : w.entries[k]? = some q)
    (runs : ℕ → Run n) :
    (calibrate cfg w k runs).2.entries = w.entries.set k
      { q with
        execCksum := (calLoop cfg w q runs).1.execCksum
        calFailed := if (calLoop cfg w q runs).2 = none then 0 else (q.calFailed + 1) % 256
        hasNewCov := q.hasNewCov ||
          (decide ((calLoop cfg w q runs).1.newBits = 2) && !q.hasNewCov) } ∧
    (calibrate cfg w k runs).2.queuedWithCov = w.queuedWithCov +
      (if decide ((calLoop cfg w q runs).1.newBits = 2) && !q.hasNewCov then 1 else 0) ∧
    (calibrate cfg w k runs).2.queuedVariable = w.queuedVariable +
      (if (calLoop cfg w q runs).1.varDetected && !q.varBehavior then 1 else 0) ∧
    (calibrate cfg w k runs).2.history = w.history ++ [(k, (calLoop cfg w q runs).1.seen)] ∧
    (calibrate cfg w k runs).2.varBytes = (calLoop cfg w q runs).1.varBytes ∧
    (calibrate cfg w k runs).2.virginBits = (calLoop cfg w q runs).1.virginBits := by
  rw [calibrate, hq]
  exact ⟨rfl, rfl, rfl, rfl, rfl, rfl⟩

theorem inv_calibrate (h : Inv w) {k : ℕ} {q : Entry} (hq : w.entries[k]? = some q)
    {runs : ℕ → Run n} (hcareful : CarefulCall cfg w k q runs) :
    Inv (calibrate cfg w k runs).2 := by
  obtain ⟨-, hcksum, hsep, honce⟩ := hcareful
  obtain ⟨hentries, hcov, hvariable, hhistory, -, -⟩ := calibrate_eq cfg hq runs
  obtain ⟨hflag, hdiffers⟩ := detected_loop hcksum hsep
  have hplain := h.plain q (List.mem_of_getElem? hq)
  refine ⟨?_, ?_, fun q' hq' => ?_⟩
  · rw [hcov, hentries, h.cov]
    refine (countP_set_entry hq rfl fun hnew => ?_).symm
    rw [Bool.and_eq_true, Bool.not_eq_true'] at hnew
    exact hnew.2
  · rw [hvariable, hhistory, variableEntries_concat, h.variable_eq, hplain]
    by_cases hvar : (calLoop cfg w q runs).1.varDetected = true
    · -- the entry was not counted before
      have hnew : k ∉ variableEntries w.history := by
        rw [mem_variableEntries]
        intro ⟨past, hpast, hk, hdiff⟩
        exact honce (hdiffers hvar) past hpast hk hdiff
      rw [if_pos (hflag.mp hvar), Finset.card_insert_of_notMem hnew, hvar]
      rfl
    · have hfalse : (calLoop cfg w q runs).1.varDetected = false := by simpa using hvar
      rw [if_neg fun hdiff => hvar (hflag.mpr hdiff), hfalse]
      rfl
  · rw [hentries] at hq'
    rcases List.mem_or_eq_of_mem_set hq' with hmem | heq
    · exact h.plain q' hmem
    · rw [heq]
      exact hplain

theorem inv_step (h : Inv w) (e : Event n) (hcareful : Careful cfg w e) :
    Inv (step cfg w e).2 := by
  cases e with
  | calibrate k runs =>
    show Inv (calibrate cfg w k runs).2
    cases hq : w.entries[k]? with
    | none =>
      rw [calibrate, hq]
      exact h
    | some q => exact inv_calibrate h hq (hcareful q hq)
  | add cksum newCov => exact inv_add h cksum newCov
  | setCksum k cksum => exact inv_setCksum h k cksum
  | execute traceBits virginBits => exact ⟨h.cov, h.variable_eq, h.plain⟩
  | stage name cur max keep => exact ⟨h.cov, h.variable_eq, h.plain⟩

/-- The stage and the setting of the post processing are as before. -/
def Restored (w w' : World n) : Prop :=
  w'.stageName = w.stageName ∧ w'.stageCur = w.stageCur ∧ w'.stageMax = w.stageMax ∧
    w'.keepOriginal = w.keepOriginal

end Counters

end AflNv.Calibration
