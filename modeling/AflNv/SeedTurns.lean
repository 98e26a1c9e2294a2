import AflNv.Journal
import AflNv.SeedAudit
import AflNv.TestcaseCache

/-!
# The turns of the seeds

The main fuzzing loop of `src/afl-fuzz.c`, `select_next_queue_entry` and
`nv_seed_selection_audit_record` of `src/afl-fuzz-queue.c` and the seed section of
`write_stats_file`.  One step is one pass of the outer `while` up to the inner loop,
or one pass of the inner `do`.  What `cull_queue`, `sync_fuzzers` and `fuzz_one` do
to the entries meanwhile is part of the event.

`SeedLoop.log` is a history variable: the counted selections, the audit records
and the calls of `fuzz_one`, in order.  `TurnCounted` says that between a call and
the one before it there is one count and one record of the entry that is
fuzzed.
-/

namespace AflNv

open AflNv.Lib

/-! ## The queue -/

/-- The fields of a `queue_entry` that the selection uses.  Its `id` is its index. -/
structure SeedEntry (R : Type) where
  depth : ℕ
  ssCovCnt : ℕ
  ssSelectedCnt : ℕ
  ssProb : R
  disabled : Bool

/-- The arithmetic of `double` that the selection uses. -/
structure SeedMath (R : Type) where
  zero : R
  one : R
  /-- The floor of a probability, `0.01`. -/
  eps : R
  ofNat : ℕ → R
  add : R → R → R
  div : R → R → R
  /-- `pow(x, 0.7)`. -/
  powAlpha : R → R
  /-- `draw / 0x7fffffff * total`. -/
  point : ℕ → R → R
  lt : R → R → Bool
  le : R → R → Bool

/-- What is fixed during a run. -/
structure SeedLoopCfg (R : Type) where
  math : SeedMath R
  /-- `%.17g`. -/
  fmt : R → Bytes
  oldSeedSelection : Bool
  /-- `NV_SEED_SELECTION_AUDIT_PATH`. -/
  auditPath : Option Bytes

/-- What the loop did. -/
inductive SeedAction where
  | selected (q : ℕ)
  | recorded (q : ℕ)
  | fuzzed (q : ℕ)
  deriving DecidableEq

/-- Where the loop stands. -/
inductive LoopPlace where
  | outer
  | inner
  | stopped
  deriving DecidableEq

/-- The variables of the loop, the audit counters and the audit file. -/
structure SeedLoop (R : Type) where
  queueBuf : List (SeedEntry R)
  /-- The index of `queue_cur`; `none` is NULL. -/
  queueCur : Option ℕ
  currentEntry : ℕ
  runsInCurrentCycle : UInt32
  pendingFavored : ℕ
  smallestFavored : ℤ
  seekTo : ℕ
  stopSoon : ℕ
  seedAuditEnabled : Bool
  seedAuditErrorCount : ℕ
  seedAuditInvalid : Bool
  seedAuditRecordCount : ℕ
  seedAuditExpectedSelectionCount : ℕ
  auditFile : Bytes
  place : LoopPlace
  log : List SeedAction

/-- An entry as `add_to_queue` makes it. -/
def SeedEntry.fresh {R : Type} (one : R) (depth : ℕ) (disabled : Bool) : SeedEntry R where
  depth := depth
  ssCovCnt := 0
  ssSelectedCnt := 0
  ssProb := one
  disabled := disabled

/-- What other code does to the variables of the loop. -/
structure SeedUpdate where
  /-- The coverage count of each entry. -/
  ssCovCnt : ℕ → ℕ
  disabled : ℕ → Bool
  /-- The depth of each new entry, and whether it is disabled. -/
  added : List (ℕ × Bool)
  pendingFavored : ℕ
  smallestFavored : ℤ
  /-- A value other than zero stops the loop. -/
  stopSoon : ℕ

/-- What the system calls of one record answer. -/
structure SeedAuditIo where
  opens : Bool
  writes : Bool
  closes : Bool
  /-- How much of the line reaches the file when `fprintf` fails. -/
  reached : ℕ
  deriving DecidableEq

/-- What the environment decides in one step. -/
structure SeedLoopEvent where
  /-- The time budget is used up. -/
  timeUp : Bool
  culled : SeedUpdate
  synced : SeedUpdate
  /-- The number that the selection draws. -/
  drawn : ℕ
  io : SeedAuditIo
  fuzzed : SeedUpdate
  /-- What `fuzz_one` returns. -/
  skipped : Bool
  exit1 : Bool
  advanceIo : SeedAuditIo

/-- The values of an audit record. -/
structure SeedSelection (R : Type) where
  queueId : ℕ
  depth : ℕ
  ssCovCnt : ℕ
  ssSelectedCnt : ℕ
  ssProb : R

/-- `ss_selected_cnt++`. -/
def SeedEntry.count {R : Type} (e : SeedEntry R) : SeedEntry R :=
  { e with ssSelectedCnt := e.ssSelectedCnt + 1 }

/-- What the record of an entry holds. -/
def SeedEntry.selection {R : Type} (q : ℕ) (e : SeedEntry R) : SeedSelection R where
  queueId := q
  depth := e.depth
  ssCovCnt := e.ssCovCnt
  ssSelectedCnt := e.ssSelectedCnt
  ssProb := e.ssProb

/-- The format string of an audit record, cut at its conversions. -/
def seedSelectionTemplate : List Bytes :=
  ["\x7b\"queue_id\":", ",\"depth\":", ",\"ss_cov_cnt\":", ",\"ss_selected_cnt\":",
    ",\"ss_prob\":", "\x7d\n"].map ascii

def SeedSelection.line {R : Type} (fmt : R → Bytes) (r : SeedSelection R) : Bytes :=
  Template.fill seedSelectionTemplate
    [showNat r.queueId, showNat r.depth, showNat r.ssCovCnt, showNat r.ssSelectedCnt, fmt r.ssProb]

namespace SeedLoop

variable {R : Type}

/-- The state in front of the loop; the audit file is the empty one that the runner makes. -/
def start (queueBuf : List (SeedEntry R)) (pendingFavored : ℕ) (smallestFavored : ℤ)
    (seekTo : ℕ) : SeedLoop R where
  queueBuf := queueBuf
  queueCur := none
  currentEntry := 0
  runsInCurrentCycle := -1
  pendingFavored := pendingFavored
  smallestFavored := smallestFavored
  seekTo := seekTo
  stopSoon := 0
  seedAuditEnabled := false
  seedAuditErrorCount := 0
  seedAuditInvalid := false
  seedAuditRecordCount := 0
  seedAuditExpectedSelectionCount := 0
  auditFile := []
  place := .outer
  log := []

variable (cfg : SeedLoopCfg R)

/-- Apply what other code does. -/
def update (u : SeedUpdate) (s : SeedLoop R) : SeedLoop R :=
  { s with
    queueBuf :=
      s.queueBuf.mapIdx (fun i q => { q with ssCovCnt := u.ssCovCnt i, disabled := u.disabled i }) ++
        u.added.map fun a => .fresh cfg.math.one a.1 a.2
    pendingFavored := u.pendingFavored
    smallestFavored := u.smallestFavored
    stopSoon := if u.stopSoon = 0 then s.stopSoon else u.stopSoon }

/-! ## Counting and recording a selection -/

/-- `ss_selection_audit_failure`. -/
def auditFailure (s : SeedLoop R) : SeedLoop R :=
  { s with
    seedAuditErrorCount := s.seedAuditErrorCount + 1
    seedAuditInvalid := true
    stopSoon := 1 }

/-- `nv_seed_selection_audit_record`, behind its check of the path: whether the
record was written, and the state. -/
def nvSeedSelectionAuditRecord (io : SeedAuditIo) (q : ℕ) (e : SeedEntry R) (s : SeedLoop R) :
    Bool × SeedLoop R :=
  let s := { s with
    seedAuditEnabled := true
    seedAuditExpectedSelectionCount := s.seedAuditExpectedSelectionCount + 1 }
  let line := (e.selection q).line cfg.fmt
  if line.length ≥ 512 then (false, s.auditFailure)
  else if !io.opens then (false, s.auditFailure)
  else if !io.writes then
    (false, auditFailure { s with auditFile := s.auditFile ++ line.take io.reached })
  else
    let s := { s with auditFile := s.auditFile ++ line }
    if !io.closes then (false, s.auditFailure)
    else (true, { s with seedAuditRecordCount := s.seedAuditRecordCount + 1 })

/-- `ss_selected_cnt++` and `nv_seed_selection_audit_record` for an entry. -/
def select (io : SeedAuditIo) (q : ℕ) (s : SeedLoop R) : SeedLoop R :=
  match s.queueBuf[q]? with
  | none => s
  | some e =>
    let e := e.count
    let s := { s with queueBuf := s.queueBuf.set q e, log := s.log ++ [.selected q] }
    if isSetPath cfg.auditPath then
      let (written, s) := nvSeedSelectionAuditRecord cfg io q e s
      if written then { s with log := s.log ++ [.recorded q] } else s
    else s

/-! ## The roulette -/

/-- `ss_calc_prob`. -/
def ssCalcProb (math : SeedMath R) (q : SeedEntry R) : R :=
  let num := math.ofNat (q.ssCovCnt + 1)
  let den := math.powAlpha (math.ofNat (q.ssSelectedCnt + 1))
  let score := math.div num den
  if math.lt score math.eps then math.eps else score

/-- The first entry at which the running sum reaches `r`. -/
def rouletteIndex (math : SeedMath R) (r : R) : R → List (SeedEntry R) → Option ℕ
  | _, [] => none
  | acc, q :: queue =>
    let acc := math.add acc q.ssProb
    if math.le r acc then some 0 else (rouletteIndex math r acc queue).map (· + 1)

/-- The entry that `select_next_queue_entry` chooses, once the probabilities are
up to date. -/
def chosenEntry (math : SeedMath R) (drawn : ℕ) (queue : List (SeedEntry R)) : ℕ :=
  let total := queue.foldl (fun total q => math.add total q.ssProb) math.zero
  if math.le total math.zero then TestcaseCache.randBelow queue.length drawn
  else
    let r := math.point (TestcaseCache.randBelow 0x7fffffff drawn) total
    (rouletteIndex math r math.zero queue).getD (queue.length - 1)

/-- The first loop of `select_next_queue_entry`. -/
def updateProbs (s : SeedLoop R) : SeedLoop R :=
  { s with queueBuf := s.queueBuf.map fun q => { q with ssProb := ssCalcProb cfg.math q } }

/-- `select_next_queue_entry` on a queue that is not empty, and its caller. -/
def selectNextQueueEntry (e : SeedLoopEvent) (s : SeedLoop R) : SeedLoop R :=
  let s := updateProbs cfg s
  let q := chosenEntry cfg.math e.drawn s.queueBuf
  select cfg e.io q { s with currentEntry := q, queueCur := some q }

/-! ## The loop -/

/-- The first entry from `i` on that is not disabled; the length of the queue when
there is none. -/
def nextEnabled (queue : List (SeedEntry R)) (i : ℕ) : ℕ :=
  i + (queue.drop i).findIdx fun q => !q.disabled

/-- The entry that a new cycle starts with. -/
def cycleEntry (s : SeedLoop R) : ℕ :=
  if s.seekTo ≠ 0 then s.seekTo
  else
    let i := nextEnabled s.queueBuf 0
    if i ≥ s.queueBuf.length then 0 else i

/-- The start of a queue cycle. -/
def startCycle (e : SeedLoopEvent) (s : SeedLoop R) : SeedLoop R :=
  let s := { update cfg e.synced s with runsInCurrentCycle := -1 }
  if cfg.oldSeedSelection then
    -- A position outside the queue is fatal.
    if s.seekTo ≠ 0 ∧ s.seekTo ≥ s.queueBuf.length then { s with place := .stopped }
    else
      let q := s.cycleEntry
      select cfg e.io q { s with seekTo := 0, currentEntry := q, queueCur := some q }
  else s

/-- `runs_in_current_cycle > queued_items`, or no current entry. -/
def cycleOver (s : SeedLoop R) : Bool :=
  if cfg.oldSeedSelection then s.queueCur.isNone
  else s.runsInCurrentCycle.toNat > s.queueBuf.length

/-- The outer loop, up to the inner one. -/
def outerStep (e : SeedLoopEvent) (s : SeedLoop R) : SeedLoop R :=
  if s.stopSoon ≠ 0 || e.timeUp then { s with stopSoon := 1, place := .stopped }
  else
    let s := update cfg e.culled { s with place := .inner }
    let s := if cycleOver cfg s then startCycle cfg e s else s
    { s with runsInCurrentCycle := s.runsInCurrentCycle + 1 }

/-- `pending_favored && smallest_favored >= 0`: the smallest favored entry is next. -/
def takesFavored (s : SeedLoop R) : Bool :=
  !cfg.oldSeedSelection && s.place = .inner && s.pendingFavored ≠ 0 && 0 ≤ s.smallestFavored

/-- The choice of `queue_cur` in front of `fuzz_one`. -/
def chooseEntry (e : SeedLoopEvent) (s : SeedLoop R) : SeedLoop R :=
  if cfg.oldSeedSelection then s
  else if takesFavored cfg s then
    { s with
      currentEntry := s.smallestFavored.toNat
      queueCur := some s.smallestFavored.toNat }
  else selectNextQueueEntry cfg e s

/-- The end of a turn with the old selection: the next entry. -/
def advance (e : SeedLoopEvent) (s : SeedLoop R) : SeedLoop R :=
  let q := nextEnabled s.queueBuf (s.currentEntry + 1)
  if q ≥ s.queueBuf.length then { s with currentEntry := q, queueCur := none }
  else select cfg e.advanceIo q { s with currentEntry := q, queueCur := some q }

/-- `fuzz_one` and `exit_1`. -/
def fuzzOne (e : SeedLoopEvent) (q : ℕ) (s : SeedLoop R) : SeedLoop R :=
  let s := update cfg e.fuzzed { s with log := s.log ++ [.fuzzed q] }
  { s with stopSoon := if s.stopSoon = 0 && e.exit1 then 2 else s.stopSoon }

/-- `while (skipped_fuzz && afl->queue_cur && !afl->stop_soon)`, and what follows. -/
def endTurn (e : SeedLoopEvent) (s : SeedLoop R) : SeedLoop R :=
  if e.skipped && s.queueCur.isSome && s.stopSoon = 0 then s
  else update cfg e.synced { s with place := .outer }

/-- One turn of an entry. -/
def turn (e : SeedLoopEvent) (q : ℕ) (s : SeedLoop R) : SeedLoop R :=
  let s := fuzzOne cfg e q s
  endTurn cfg e (if cfg.oldSeedSelection then advance cfg e s else s)

/-- One pass of the inner loop. -/
def innerStep (e : SeedLoopEvent) (s : SeedLoop R) : SeedLoop R :=
  -- With no entry at all the roulette is drawn forever.
  if s.queueBuf = [] && !takesFavored cfg s then s
  else
    let s := chooseEntry cfg e s
    match s.queueCur with
    | none => { s with place := .stopped }
    | some q => turn cfg e q s

/-- One step of the loop. -/
def step (s : SeedLoop R) (e : SeedLoopEvent) : Unit × SeedLoop R :=
  match s.place with
  | .outer => ((), outerStep cfg e s)
  | .inner => ((), innerStep cfg e s)
  | .stopped => ((), s)

/-! ## The statistics -/

/-- The sum of the selection counts. -/
def selectedSum (s : SeedLoop R) : ℕ := (s.queueBuf.map SeedEntry.ssSelectedCnt).sum

def showFlag (b : Bool) : Bytes := if b then showNat 1 else showNat 0

/-- The names and values of `write_stats_file` about seed selection, as
`parse_fuzzer_stats` gives them. -/
def seedStats (s : SeedLoop R) : PyDict Bytes :=
  [(ascii "ss_selected_sum", showNat s.selectedSum),
    (ascii "seed_audit_enabled", showFlag (s.seedAuditEnabled || isSetPath cfg.auditPath)),
    (ascii "seed_audit_error_count", showNat s.seedAuditErrorCount),
    (ascii "seed_audit_invalid", showFlag s.seedAuditInvalid),
    (ascii "seed_audit_record_count", showNat s.seedAuditRecordCount),
    (ascii "seed_audit_expected_selection_count",
      showNat s.seedAuditExpectedSelectionCount)] ++
  if s.seedAuditEnabled || isSetPath cfg.auditPath then
    s.queueBuf.zipIdx.map fun e => (queueStatKey ++ showNat e.2, showNat e.1.ssSelectedCnt)
  else []

end SeedLoop

/-! ## A record read back -/

section Reading

variable {R : Type}

/-- What Python makes of the text of a number. -/
def PyLib.number (L : PyLib R) (text : Bytes) : PyNumber R :=
  if Json.isInt text then .int (readInt text) else .float ((L.floatOfText text).getD .nan)

def PyNumber.json : PyNumber R → PyJson R
  | .int i => .int i
  | .float x => .float x

/-- `%.17g` prints a finite double as a JSON number, which Python reads as a finite
one. -/
structure PyLib.ReadsDouble (L : PyLib R) (fmt : R → Bytes) : Prop where
  numberByte : ∀ (x : R), ∀ b ∈ fmt x, Json.isNumberByte b = true
  finite : ∀ x : R,
    (Json.isInt (fmt x) = true ∧ ∃ y, L.floatOfInt (readInt (fmt x)) = some (.finite y)) ∨
      (Json.isInt (fmt x) = false ∧ Json.isFloat (fmt x) = true ∧
        ∃ y, L.floatOfText (fmt x) = some (.finite y))

/-- The record that the reader gets. -/
def SeedSelection.record (L : PyLib R) (fmt : R → Bytes) (r : SeedSelection R) : SeedRecord R where
  queueId := r.queueId
  depth := r.depth
  ssCovCnt := r.ssCovCnt
  ssSelectedCnt := r.ssSelectedCnt
  ssProb := L.number (fmt r.ssProb)

/-- The members of the line, with their values. -/
def SeedSelection.members (L : PyLib R) (fmt : R → Bytes) (r : SeedSelection R) :
    List (Json.Member (PyFloat R)) :=
  [⟨ascii "queue_id", showNat r.queueId, .int r.queueId⟩,
    ⟨ascii "depth", showNat r.depth, .int r.depth⟩,
    ⟨ascii "ss_cov_cnt", showNat r.ssCovCnt, .int r.ssCovCnt⟩,
    ⟨ascii "ss_selected_cnt", showNat r.ssSelectedCnt, .int r.ssSelectedCnt⟩,
    ⟨ascii "ss_prob", fmt r.ssProb, (L.number (fmt r.ssProb)).json⟩]

/-- The line without its newline. -/
def SeedSelection.body (fmt : R → Bytes) (r : SeedSelection R) : Bytes := (r.line fmt).dropLast

theorem SeedSelection.line_eq_dictText (L : PyLib R) (fmt : R → Bytes) (r : SeedSelection R) :
    r.line fmt = Json.dictText (r.members L fmt) ++ [nl] := by
  simp [SeedSelection.line, seedSelectionTemplate, Template.fill, SeedSelection.members,
    Json.dictText, Json.objectText, Json.membersText, ascii, nl]

theorem SeedSelection.body_eq_dictText (L : PyLib R) (fmt : R → Bytes) (r : SeedSelection R) :
    r.body fmt = Json.dictText (r.members L fmt) := by
  rw [SeedSelection.body, r.line_eq_dictText L, List.dropLast_concat]

theorem PyLib.reads_number {L : PyLib R} {fmt : R → Bytes} (hfmt : L.ReadsDouble fmt) (x : R) :
    Json.Reads L.numbers (fmt x) (L.number (fmt x)).json := by
  refine Json.reads_number (hfmt.numberByte x) ?_
  rcases hfmt.finite x with ⟨hint, -⟩ | ⟨hint, hfloat, -⟩
  · rw [Json.number, PyLib.number, if_pos hint, if_pos hint]
    rfl
  · rw [Json.number, PyLib.number, if_neg (by simp [hint]), if_pos hfloat, if_neg (by simp [hint])]
    rfl

theorem SeedSelection.reads_body {L : PyLib R} {fmt : R → Bytes} (hfmt : L.ReadsDouble fmt)
    (r : SeedSelection R) :
    Json.Reads L.numbers (r.body fmt) (.dict (Json.dictOf (r.members L fmt))) := by
  rw [r.body_eq_dictText L]
  apply Json.reads_dict
  intro m hm
  simp only [SeedSelection.members, List.mem_cons, List.not_mem_nil, or_false] at hm
  rcases hm with rfl | rfl | rfl | rfl | rfl
  · exact ⟨show Json.Plain (ascii "queue_id") by decide, reads_showNat L _⟩
  · exact ⟨show Json.Plain (ascii "depth") by decide, reads_showNat L _⟩
  · exact ⟨show Json.Plain (ascii "ss_cov_cnt") by decide, reads_showNat L _⟩
  · exact ⟨show Json.Plain (ascii "ss_selected_cnt") by decide, reads_showNat L _⟩
  · exact ⟨show Json.Plain (ascii "ss_prob") by decide, PyLib.reads_number hfmt _⟩

theorem SeedSelection.seedRecordOf_members {L : PyLib R} {fmt : R → Bytes}
    (hfmt : L.ReadsDouble fmt) {r : SeedSelection R} (hpos : 1 ≤ r.ssSelectedCnt) :
    seedRecordOf L (.dict (Json.dictOf (r.members L fmt))) = .ok (.inr (r.record L fmt)) := by
  set record := Json.dictOf (r.members L fmt) with hrecord
  have hkeys : sameKeys record seedRecordKeys = true := rfl
  have hid : record.lookup (ascii "queue_id") = some (.int r.queueId) := rfl
  have hdepth : record.lookup (ascii "depth") = some (.int r.depth) := rfl
  have hcov : record.lookup (ascii "ss_cov_cnt") = some (.int r.ssCovCnt) := rfl
  have hsel : record.lookup (ascii "ss_selected_cnt") = some (.int r.ssSelectedCnt) := rfl
  have hprob : record.lookup (ascii "ss_prob") = some (L.number (fmt r.ssProb)).json := rfl
  have hrange : ¬ ((decide ((r.queueId : ℤ) < 0) || decide ((r.depth : ℤ) < 0) ||
      decide ((r.ssCovCnt : ℤ) < 0) || decide ((r.ssSelectedCnt : ℤ) < 1)) = true) := by
    simp only [Bool.or_eq_true, decide_eq_true_eq]
    omega
  rw [seedRecordOf, hkeys, hid, hdepth, hcov, hsel]
  dsimp only
  rw [if_neg (by simp), if_neg hrange, hprob]
  rcases hfmt.finite r.ssProb with ⟨hint, y, hy⟩ | ⟨hint, -, y, hy⟩
  · have hnumber : L.number (fmt r.ssProb) = .int (readInt (fmt r.ssProb)) := if_pos hint
    rw [SeedSelection.record, hnumber]
    dsimp only [PyNumber.json]
    rw [hy]
    rfl
  · have hnumber : L.number (fmt r.ssProb) = .float (.finite y) := by
      rw [PyLib.number, if_neg (by simp [hint]), hy]
      rfl
    rw [SeedSelection.record, hnumber]
    rfl

theorem SeedSelection.body_oneLine {L : PyLib R} {fmt : R → Bytes} (hfmt : L.ReadsDouble fmt)
    (r : SeedSelection R) : OneLine (r.body fmt) := by
  have hnat : ∀ n, OneLine (showNat n) := fun n => oneLine_of_number (showNat_numberByte n)
  rw [r.body_eq_dictText L]
  refine Json.forall_mem_dictText (forall_mem_of_all (by decide)) ?_
  intro m hm
  simp only [SeedSelection.members, List.mem_cons, List.not_mem_nil, or_false] at hm
  rcases hm with rfl | rfl | rfl | rfl | rfl
  · exact ⟨show OneLine (ascii "queue_id") by decide, hnat _⟩
  · exact ⟨show OneLine (ascii "depth") by decide, hnat _⟩
  · exact ⟨show OneLine (ascii "ss_cov_cnt") by decide, hnat _⟩
  · exact ⟨show OneLine (ascii "ss_selected_cnt") by decide, hnat _⟩
  · exact ⟨show OneLine (ascii "ss_prob") by decide, oneLine_of_number (hfmt.numberByte _)⟩

theorem SeedSelection.openings_body {L : PyLib R} {fmt : R → Bytes} (hfmt : L.ReadsDouble fmt)
    (r : SeedSelection R) : openings (r.body fmt) = 1 := by
  have hnat : ∀ n, openings (showNat n) = 0 := fun n => openings_of_number (showNat_numberByte n)
  have hprob := openings_of_number (hfmt.numberByte r.ssProb)
  rw [r.body_eq_dictText L]
  unfold openings at *
  simp [SeedSelection.members, Json.dictText, Json.objectText, Json.membersText, 
    List.countP_append, hnat, hprob, ascii]

end Reading

end AflNv
