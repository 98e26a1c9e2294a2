import AflNv.CBase
import AflNv.Lib.ByteBits
import AflNv.Lib.Machine
import AflNv.Lib.SlotTable

/-!
# Top rated entries and the favored set

`update_bitmap_score`, `cull_queue` and `mark_as_redundant` of
`src/afl-fuzz-queue.c`, and `minimize_bits` of `src/afl-fuzz-bitmap.c`.  Each index of
the bitmap has at most one entry that owns it, and an entry keeps a small copy of its
trace while it owns an index.

A pointer to an entry is its index in the queue, which is also its `id`.  A loop over
the bitmap is a recursion on the number of indices it has done.  Two fields of an
entry are not in the source: `lastWon` and `freed` record what happened to it, and
nothing reads them.

* `winners_sound`: reference counts, kept traces and the choice of the owner.
* `cull_covers`: what a culled queue counts, and when its favored entries cover the
  bitmap.
-/

namespace AflNv

open AflNv.Lib
open AflNv.Lib.ByteBits

/-! ## The state -/

/-- The power schedules, in their order. -/
inductive PowerSchedule where
  | explore | mmopt | exploit | fast | coe | lin | quad | rare | seek
  deriving DecidableEq

/-- The fields of a `queue_entry` that its rank depends on, and `was_fuzzed`. -/
structure SeedKeys where
  len : UInt32
  execUs : UInt64
  fuzzLevel : UInt32
  nFuzzEntry : ℕ
  wasFuzzed : Bool
  deriving DecidableEq, Inhabited

/-- The fields of a `queue_entry` that the ranking uses. -/
structure RatedEntry extends SeedKeys where
  favored : Bool := false
  fsRedundant : Bool := false
  disabled : Bool := false
  tcRef : ℕ := 0
  /-- `trace_mini`; `none` is NULL. -/
  traceMini : Option Bytes := none
  /-- The trace with which the entry last won an index. -/
  lastWon : Bytes := []
  /-- `mark_as_redundant` freed the `trace_mini` that the entry last had. -/
  freed : Bool := false
  deriving DecidableEq

/-- `add_to_queue`, for the fields that the ranking uses. -/
def RatedEntry.fresh (keys : SeedKeys) : RatedEntry := { keys with }

/-- What stays the same while the fuzzer runs. -/
structure RatingConfig where
  mapSize : ℕ
  /-- The fork server rounds the size of the map up to words of the cache. -/
  mapSize_mod : mapSize % 64 = 0
  nonInstrumentedMode : Bool
  aflDisableRedundant : Bool

/-- A map of one word. -/
theorem word_mod : 64 % 64 = 0 := rfl

/-- The fields of `afl_state_t` that the ranking uses. -/
structure TopRated where
  queueBuf : List RatedEntry
  topRated : List (Option ℕ)
  schedule : PowerSchedule
  fixedSeed : Bool
  nFuzz : List UInt32
  scoreChanged : Bool
  queuedFavored : ℕ
  pendingFavored : ℕ
  smallestFavored : ℤ
  reinitTable : Bool
  deriving DecidableEq

namespace TopRated

/-- No entries and no owners. -/
def init (cfg : RatingConfig) (schedule : PowerSchedule) (fixedSeed : Bool) : TopRated where
  queueBuf := []
  topRated := List.replicate cfg.mapSize none
  schedule := schedule
  fixedSeed := fixedSeed
  nFuzz := []
  scoreChanged := false
  queuedFavored := 0
  pendingFavored := 0
  smallestFavored := 0
  reinitTable := false

/-- `top_rated[i]`. -/
def owner (s : TopRated) (i : ℕ) : Option ℕ := SlotTable.slot s.topRated i

/-- The data an entry is ranked by. -/
def keys (s : TopRated) (q : ℕ) : SeedKeys :=
  ((s.queueBuf[q]?).map RatedEntry.toSeedKeys).getD default

def modifyEntry (q : ℕ) (f : RatedEntry → RatedEntry) (s : TopRated) : TopRated :=
  { s with queueBuf := s.queueBuf.modify q f }

/-! ## Scoring -/

/-- `next_pow2`. -/
def nextPow2 (n : UInt64) : UInt64 :=
  let out := n - 1
  let out := out ||| out >>> 1
  let out := out ||| out >>> 2
  let out := out ||| out >>> 4
  let out := out ||| out >>> 8
  let out := out ||| out >>> 16
  out + 1

/-- `fuzz_p2` of an entry. -/
def fuzzP2 (s : TopRated) (q : ℕ) : UInt64 :=
  match s.schedule with
  | .fast | .coe | .lin | .quad => 0
  | .rare => nextPow2 (s.nFuzz.getD (s.keys q).nFuzzEntry 0).toUInt64
  | .explore | .mmopt | .exploit | .seek => (s.keys q).fuzzLevel.toUInt64

/-- `afl->schedule >= RARE`. -/
def ignoresTime : PowerSchedule → Bool
  | .rare | .seek => true
  | _ => false

/-- `fav_factor` of an entry; the first product is of 32 bits. -/
def favFactor (s : TopRated) (q : ℕ) : UInt64 :=
  if ignoresTime s.schedule || s.fixedSeed then ((s.keys q).len <<< 2).toUInt64
  else (s.keys q).execUs * (s.keys q).len.toUInt64

/-- The trace has the index. -/
def hits (trace : Bytes) (i : ℕ) : Bool := trace.getD i 0 ≠ 0

/-- `minimize_bits` for the first `n` indices of the map. -/
def minimizeLoop (trace dst : Bytes) : ℕ → Bytes
  | 0 => dst
  | i + 1 =>
    if hits trace i then setBit (minimizeLoop trace dst i) i else minimizeLoop trace dst i

/-- `minimize_bits` on a new buffer. -/
def minimizeBits (cfg : RatingConfig) (trace : Bytes) : Bytes :=
  minimizeLoop trace (List.replicate ((cfg.mapSize + 7) / 8) 0) cfg.mapSize

/-- The owner of an index is better by one of the keys. -/
def keeps (s : TopRated) (q i : ℕ) : Bool :=
  match s.owner i with
  | none => false
  | some o => s.fuzzP2 q > s.fuzzP2 o || s.favFactor q > s.favFactor o

/-- The entry takes the index. -/
def wins (s : TopRated) (q : ℕ) (trace : Bytes) (i : ℕ) : Bool := hits trace i && !s.keeps q i

/-- One index less. -/
def loseSlot (e : RatedEntry) : RatedEntry :=
  { e with
    tcRef := e.tcRef - 1
    traceMini := if e.tcRef - 1 = 0 then none else e.traceMini }

/-- One index more. -/
def winSlot (cfg : RatingConfig) (trace : Bytes) (e : RatedEntry) : RatedEntry :=
  { e with
    tcRef := e.tcRef + 1
    traceMini := some (e.traceMini.getD (minimizeBits cfg trace))
    lastWon := trace
    freed := false }

/-- Take an index from its owner, which may be the entry itself. -/
def takeSlot (cfg : RatingConfig) (q : ℕ) (trace : Bytes) (i : ℕ) (s : TopRated) : TopRated :=
  let s := match s.owner i with
    | none => s
    | some o => s.modifyEntry o loseSlot
  { s.modifyEntry q (winSlot cfg trace) with
    topRated := s.topRated.set i (some q)
    scoreChanged := true }

/-- The first `n` indices of the loop of `update_bitmap_score`. -/
def scoreLoop (cfg : RatingConfig) (q : ℕ) (trace : Bytes) (s : TopRated) : ℕ → TopRated
  | 0 => s
  | i + 1 =>
    let t := scoreLoop cfg q trace s i
    if t.wins q trace i then t.takeSlot cfg q trace i else t

/-- `update_bitmap_score`. -/
def updateBitmapScore (cfg : RatingConfig) (q : ℕ) (trace : Bytes) (haveTrace : Bool)
    (s : TopRated) : TopRated :=
  match s.queueBuf[q]? with
  | none => s
  | some e =>
    if e.disabled then s
    else if haveTrace then s.scoreLoop cfg q trace cfg.mapSize
    else s

/-! ## Culling -/

/-- `mark_as_redundant`. -/
def markAsRedundant (cfg : RatingConfig) (state : Bool) (e : RatedEntry) : RatedEntry :=
  if state = e.fsRedundant then e
  else if state then
    { e with
      fsRedundant := true
      traceMini := none
      freed := e.freed || e.traceMini.isSome
      disabled := e.disabled || cfg.aflDisableRedundant }
  else { e with fsRedundant := false }

/-- Mark an entry as favored, if it is not yet. -/
def favor (q : ℕ) (e : RatedEntry) (s : TopRated) : TopRated :=
  if !e.favored && !e.disabled then
    let s := { s.modifyEntry q fun e => { e with favored := true } with
      queuedFavored := s.queuedFavored + 1 }
    if e.wasFuzzed then s
    else
      { s with
        pendingFavored := s.pendingFavored + 1
        smallestFavored :=
          if s.smallestFavored < 0 ∨ s.smallestFavored > q then q else s.smallestFavored }
  else s

/-- One index of the loop of `cull_queue`, with `temp_v`. -/
def cullAt (i : ℕ) (temp : Bytes) (s : TopRated) : Bytes × TopRated :=
  match s.owner i with
  | none => (temp, s)
  | some q =>
    match s.queueBuf[q]? with
    | none => (temp, s)
    | some e =>
      match e.traceMini with
      | none => (temp, s)
      | some mini => if bitAt temp i then (andNot temp mini, s.favor q e) else (temp, s)

/-- Nothing is favored. -/
def cullReset (s : TopRated) : TopRated :=
  { s with
    scoreChanged := false
    queuedFavored := 0
    pendingFavored := 0
    queueBuf := s.queueBuf.map fun e => { e with favored := false }
    smallestFavored := -1 }

/-- The first `n` indices of the loop of `cull_queue`. -/
def cullLoop (cfg : RatingConfig) (s : TopRated) : ℕ → Bytes × TopRated
  | 0 => (List.replicate (cfg.mapSize / 8) 255, s.cullReset)
  | i + 1 => cullAt i (cullLoop cfg s i).1 (cullLoop cfg s i).2

/-- `cull_queue` returns early. -/
def returnsEarly (cfg : RatingConfig) (s : TopRated) : Bool :=
  !s.scoreChanged || cfg.nonInstrumentedMode

/-- `cull_queue`. -/
def cullQueue (cfg : RatingConfig) (s : TopRated) : TopRated :=
  if s.returnsEarly cfg then s
  else
    let s := (s.cullLoop cfg cfg.mapSize).2
    { s with
      queueBuf := s.queueBuf.map fun e =>
        if e.disabled then e else markAsRedundant cfg (!e.favored) e
      reinitTable := true }

/-! ## Runs -/

/-- A call, or a change of the data the ranking reads. -/
inductive Event where
  | addToQueue (keys : SeedKeys)
  | score (q : ℕ) (trace : Bytes) (haveTrace : Bool)
  | cull
  | setKeys (q : ℕ) (keys : SeedKeys)
  | setSchedule (schedule : PowerSchedule) (fixedSeed : Bool) (nFuzz : List UInt32)

/-- The event leaves the keys of every entry alone. -/
def Event.keepsKeys : Event → Bool
  | .addToQueue _ | .score .. | .cull => true
  | .setKeys .. | .setSchedule .. => false

/-- The step function of a run. -/
def step (cfg : RatingConfig) (s : TopRated) : Event → Unit × TopRated
  | .addToQueue keys => ((), { s with queueBuf := s.queueBuf ++ [.fresh keys] })
  | .score q trace haveTrace => ((), s.updateBitmapScore cfg q trace haveTrace)
  | .cull => ((), s.cullQueue cfg)
  | .setKeys q keys => ((), s.modifyEntry q fun e => { e with toSeedKeys := keys })
  | .setSchedule schedule fixedSeed nFuzz =>
    ((), { s with schedule := schedule, fixedSeed := fixedSeed, nFuzz := nFuzz })

/-- The run of a list of events. -/
abbrev run (cfg : RatingConfig) : TopRated → List Event → TopRated := Machine.run (step cfg)

/-! ## Reading a changed state -/

section Reading

variable (s : TopRated) (p q i : ℕ)

theorem getElem?_modifyEntry (f : RatedEntry → RatedEntry) :
    (s.modifyEntry q f).queueBuf[p]? =
      (s.queueBuf[p]?).map fun e => if q = p then f e else e := by
  rw [modifyEntry, List.getElem?_modify]
  rfl

@[simp] theorem length_modifyEntry (f : RatedEntry → RatedEntry) :
    (s.modifyEntry q f).queueBuf.length = s.queueBuf.length :=
  List.length_modify _ _ _

variable (cfg : RatingConfig) (trace : Bytes)

/-- What taking an index does to an entry. -/
def taken (e : RatedEntry) : RatedEntry :=
  let e := if s.owner i = some p then loseSlot e else e
  if q = p then winSlot cfg trace e else e

theorem getElem?_takeSlot :
    (s.takeSlot cfg q trace i).queueBuf[p]? =
      (s.queueBuf[p]?).map (s.taken p q i cfg trace) := by
  cases ho : s.owner i with
  | none =>
    simp only [takeSlot, ho, getElem?_modifyEntry]
    cases s.queueBuf[p]? with
    | none => rfl
    | some e => simp [taken, ho]
  | some o =>
    simp only [takeSlot, ho, getElem?_modifyEntry]
    cases s.queueBuf[p]? with
    | none => rfl
    | some e => simp [taken, ho]

theorem topRated_takeSlot :
    (s.takeSlot cfg q trace i).topRated = s.topRated.set i (some q) := by
  rw [takeSlot]
  cases s.owner i <;> rfl

theorem length_takeSlot :
    (s.takeSlot cfg q trace i).queueBuf.length = s.queueBuf.length := by
  rw [takeSlot]
  cases s.owner i <;> simp

theorem owner_takeSlot (hi : i < s.topRated.length) :
    (s.takeSlot cfg q trace i).owner p = if i = p then some q else s.owner p := by
  rw [owner, topRated_takeSlot, SlotTable.slot_set hi]
  rfl

end Reading

theorem exists_entry {s : TopRated} {q : ℕ} (h : q < s.queueBuf.length) :
    ∃ e, s.queueBuf[q]? = some e :=
  ⟨_, List.getElem?_eq_getElem h⟩

/-! ## Keys that stay -/

/-- The second state has the entries of the first, with the same keys. -/
structure KeysKept (s t : TopRated) : Prop where
  schedule_eq : t.schedule = s.schedule
  fixedSeed_eq : t.fixedSeed = s.fixedSeed
  nFuzz_eq : t.nFuzz = s.nFuzz
  length_le : s.queueBuf.length ≤ t.queueBuf.length
  keys_eq : ∀ p < s.queueBuf.length, t.keys p = s.keys p

namespace KeysKept

variable {s t u : TopRated} {p : ℕ}

theorem refl (s : TopRated) : KeysKept s s := ⟨rfl, rfl, rfl, Nat.le_refl _, fun _ _ => rfl⟩

theorem trans (h : KeysKept s t) (h' : KeysKept t u) : KeysKept s u where
  schedule_eq := h'.schedule_eq.trans h.schedule_eq
  fixedSeed_eq := h'.fixedSeed_eq.trans h.fixedSeed_eq
  nFuzz_eq := h'.nFuzz_eq.trans h.nFuzz_eq
  length_le := Nat.le_trans h.length_le h'.length_le
  keys_eq := fun p hp =>
    (h'.keys_eq p (Nat.lt_of_lt_of_le hp h.length_le)).trans (h.keys_eq p hp)

/-- Entries change in other fields only. -/
theorem of_map {f : ℕ → RatedEntry → RatedEntry} (hschedule : t.schedule = s.schedule)
    (hfixed : t.fixedSeed = s.fixedSeed) (hfuzz : t.nFuzz = s.nFuzz)
    (hmap : ∀ p, t.queueBuf[p]? = (s.queueBuf[p]?).map (f p))
    (hf : ∀ p e, (f p e).toSeedKeys = e.toSeedKeys) : KeysKept s t where
  schedule_eq := hschedule
  fixedSeed_eq := hfixed
  nFuzz_eq := hfuzz
  length_le := by
    by_contra hlt
    have hsome := hmap t.queueBuf.length
    rw [List.getElem?_eq_none (Nat.le_refl _),
      List.getElem?_eq_getElem (Nat.lt_of_not_le hlt)] at hsome
    exact Option.some_ne_none _ hsome.symm
  keys_eq := by
    intro p _
    rw [keys, keys, hmap]
    cases s.queueBuf[p]? with
    | none => rfl
    | some e => exact hf p e

theorem fuzzP2_eq (h : KeysKept s t) (hp : p < s.queueBuf.length) : t.fuzzP2 p = s.fuzzP2 p := by
  rw [fuzzP2, fuzzP2, h.schedule_eq, h.nFuzz_eq, h.keys_eq p hp]

theorem favFactor_eq (h : KeysKept s t) (hp : p < s.queueBuf.length) :
    t.favFactor p = s.favFactor p := by
  rw [favFactor, favFactor, h.schedule_eq, h.fixedSeed_eq, h.keys_eq p hp]

theorem takeSlot (s : TopRated) (cfg : RatingConfig) (q : ℕ) (trace : Bytes) (i : ℕ) :
    KeysKept s (s.takeSlot cfg q trace i) := by
  have hfields : (s.takeSlot cfg q trace i).schedule = s.schedule ∧
      (s.takeSlot cfg q trace i).fixedSeed = s.fixedSeed ∧
      (s.takeSlot cfg q trace i).nFuzz = s.nFuzz := by
    rw [TopRated.takeSlot]
    cases s.owner i <;> exact ⟨rfl, rfl, rfl⟩
  refine of_map hfields.1 hfields.2.1 hfields.2.2
    (fun p => getElem?_takeSlot s p q i cfg trace) fun p e => ?_
  rw [taken]
  split_ifs <;> rfl

end KeysKept

/-! ## Reference counts -/

/-- The counts agree with the table, and an owner keeps its trace until
`mark_as_redundant` frees it. -/
structure Inv (cfg : RatingConfig) (s : TopRated) : Prop where
  length_eq : s.topRated.length = cfg.mapSize
  owner_lt : ∀ i q, s.owner i = some q → q < s.queueBuf.length
  tcRef_eq : ∀ (q : ℕ) (e : RatedEntry), s.queueBuf[q]? = some e →
    e.tcRef = s.topRated.count (some q)
  trace_kept : ∀ (q : ℕ) (e : RatedEntry), s.queueBuf[q]? = some e → 0 < e.tcRef →
    e.freed = false → e.traceMini ≠ none

section Step

variable {cfg : RatingConfig} {s : TopRated}

theorem count_pos_of_owner {i q : ℕ} (h : s.owner i = some q) :
    0 < s.topRated.count (some q) :=
  List.count_pos_iff.mpr (List.mem_of_getElem? (SlotTable.slot_eq_some.mp h))

theorem not_owner_of_ge (h : Inv cfg s) {q : ℕ} (hq : s.queueBuf.length ≤ q) :
    s.topRated.count (some q) = 0 := by
  refine List.count_eq_zero.mpr fun hmem => ?_
  obtain ⟨i, hi⟩ := List.mem_iff_getElem?.mp hmem
  have hlt := h.owner_lt i q (SlotTable.slot_eq_some.mpr hi)
  omega

theorem inv_init (cfg : RatingConfig) (schedule : PowerSchedule) (fixedSeed : Bool) :
    Inv cfg (init cfg schedule fixedSeed) := by
  refine ⟨List.length_replicate, fun i q h => ?_, fun q e he => ?_, fun q e he => ?_⟩
  · have hmem := SlotTable.slot_eq_some.mp h
    have := (List.mem_replicate.mp (List.mem_of_getElem? hmem)).2
    exact absurd this (Option.some_ne_none q)
  · exact absurd he (by simp [init])
  · exact absurd he (by simp [init])

/-- Entries change in fields that the counts do not concern. -/
theorem Inv.of_map {t : TopRated} (h : Inv cfg s) {f : ℕ → RatedEntry → RatedEntry}
    (htop : t.topRated = s.topRated)
    (hmap : ∀ p, t.queueBuf[p]? = (s.queueBuf[p]?).map (f p))
    (href : ∀ p e, (f p e).tcRef = e.tcRef)
    (hkept : ∀ p e, (e.freed = false → e.traceMini ≠ none) → (f p e).freed = false →
      (f p e).traceMini ≠ none) : Inv cfg t := by
  have howner : t.owner = s.owner := by
    funext i
    rw [owner, owner, htop]
  refine ⟨by rw [htop]; exact h.length_eq, fun i q hq => ?_, fun q e he => ?_,
    fun q e he hpos => ?_⟩
  · rw [howner] at hq
    obtain ⟨e, he⟩ := exists_entry (h.owner_lt i q hq)
    have hsome := hmap q
    rw [he] at hsome
    exact (List.getElem?_eq_some_iff.mp hsome).1
  · rw [hmap, Option.map_eq_some_iff] at he
    obtain ⟨d, hd, rfl⟩ := he
    rw [href, htop]
    exact h.tcRef_eq q d hd
  · rw [hmap, Option.map_eq_some_iff] at he
    obtain ⟨d, hd, rfl⟩ := he
    rw [href] at hpos
    exact hkept q d (h.trace_kept q d hd hpos)

theorem inv_takeSlot (h : Inv cfg s) {q i : ℕ} (hq : q < s.queueBuf.length)
    (hi : i < cfg.mapSize) (trace : Bytes) : Inv cfg (s.takeSlot cfg q trace i) := by
  have hlen : i < s.topRated.length := by
    rw [h.length_eq]
    exact hi
  have hcount := fun p => SlotTable.count_set_add (SlotTable.slot_of_lt hlen) (some q) (some p)
  refine ⟨?_, fun j p hp => ?_, fun p e he => ?_, fun p e he hpos hfreed => ?_⟩
  · rw [topRated_takeSlot, List.length_set]
    exact h.length_eq
  · rw [owner_takeSlot s j q i cfg trace hlen] at hp
    rw [length_takeSlot]
    split_ifs at hp with hij
    · rw [← Option.some.inj hp]
      exact hq
    · exact h.owner_lt j p hp
  · rw [getElem?_takeSlot, Option.map_eq_some_iff] at he
    obtain ⟨d, hd, rfl⟩ := he
    have href := h.tcRef_eq p d hd
    have hadd := hcount p
    rw [topRated_takeSlot, taken]
    by_cases ho : s.owner i = some p
    · have hpos := count_pos_of_owner ho
      have hslot : SlotTable.slot s.topRated i = some p := ho
      rw [if_pos hslot] at hadd
      by_cases hqp : q = p
      · simp only [if_pos ho, if_pos hqp, winSlot, loseSlot]
        rw [if_pos (congrArg some hqp)] at hadd
        omega
      · simp only [if_pos ho, if_neg hqp, loseSlot]
        rw [if_neg fun heq => hqp (Option.some.inj heq)] at hadd
        omega
    · have hslot : ¬ SlotTable.slot s.topRated i = some p := ho
      rw [if_neg hslot] at hadd
      by_cases hqp : q = p
      · simp only [if_neg ho, if_pos hqp, winSlot]
        rw [if_pos (congrArg some hqp)] at hadd
        omega
      · simp only [if_neg ho, if_neg hqp]
        rw [if_neg fun heq => hqp (Option.some.inj heq)] at hadd
        omega
  · rw [getElem?_takeSlot, Option.map_eq_some_iff] at he
    obtain ⟨d, hd, rfl⟩ := he
    have hkept := h.trace_kept p d hd
    unfold taken at hpos hfreed ⊢
    by_cases hqp : q = p
    · simp [if_pos hqp, winSlot]
    · by_cases ho : s.owner i = some p
      · simp only [if_neg hqp, if_pos ho, loseSlot] at hpos hfreed ⊢
        rw [if_neg (Nat.ne_of_gt hpos)]
        exact hkept (Nat.lt_of_lt_of_le hpos (Nat.sub_le _ _)) hfreed
      · simp only [if_neg hqp, if_neg ho] at hpos hfreed ⊢
        exact hkept hpos hfreed

/-- An invariant that taking an index keeps is kept by a whole scoring. -/
theorem scoreLoop_inv (P : TopRated → Prop) {q : ℕ} {trace : Bytes}
    (hstep : ∀ t i, P t → i < cfg.mapSize → t.wins q trace i = true →
      P (t.takeSlot cfg q trace i)) (h : P s) :
    ∀ n ≤ cfg.mapSize, P (s.scoreLoop cfg q trace n)
  | 0, _ => h
  | i + 1, hi => by
    have ih := scoreLoop_inv P hstep h i (Nat.le_of_succ_le hi)
    show P (if (s.scoreLoop cfg q trace i).wins q trace i = true
      then (s.scoreLoop cfg q trace i).takeSlot cfg q trace i
      else s.scoreLoop cfg q trace i)
    split_ifs with hwins
    · exact hstep _ i ih hi hwins
    · exact ih

/-- What a call does: nothing, or the loop for an entry that is in the queue. -/
theorem updateBitmapScore_cases (cfg : RatingConfig) (q : ℕ) (trace : Bytes) (haveTrace : Bool)
    (s : TopRated) :
    s.updateBitmapScore cfg q trace haveTrace = s ∨
      haveTrace = true ∧ (∃ e, s.queueBuf[q]? = some e ∧ e.disabled = false) ∧
        s.updateBitmapScore cfg q trace haveTrace = s.scoreLoop cfg q trace cfg.mapSize := by
  rw [updateBitmapScore]
  cases he : s.queueBuf[q]? with
  | none => exact Or.inl rfl
  | some e =>
    cases hdis : e.disabled with
    | true => exact Or.inl (by simp [hdis])
    | false =>
      cases haveTrace with
      | false => exact Or.inl (by simp [hdis])
      | true => exact Or.inr ⟨rfl, ⟨e, rfl, hdis⟩, by simp [hdis]⟩

theorem inv_updateBitmapScore (h : Inv cfg s) (q : ℕ) (trace : Bytes) (haveTrace : Bool) :
    Inv cfg (s.updateBitmapScore cfg q trace haveTrace) := by
  rcases updateBitmapScore_cases cfg q trace haveTrace s with heq | ⟨_, ⟨e, he, _⟩, heq⟩
  · rw [heq]
    exact h
  · rw [heq]
    have hq : q < s.queueBuf.length := (List.getElem?_eq_some_iff.mp he).1
    refine (scoreLoop_inv (fun t => Inv cfg t ∧ q < t.queueBuf.length) ?_ ⟨h, hq⟩ cfg.mapSize
      (Nat.le_refl _)).1
    intro t i ht hi _
    exact ⟨inv_takeSlot ht.1 ht.2 hi trace, by rw [length_takeSlot]; exact ht.2⟩

end Step

/-! ## What culling changes -/

/-- The entry is favored. -/
def favoredAt (s : TopRated) (p : ℕ) : Bool := (s.queueBuf[p]?).any fun e => e.favored

/-- The second state differs in `favored` and in counters. -/
structure Refavored (s t : TopRated) : Prop where
  topRated_eq : t.topRated = s.topRated
  schedule_eq : t.schedule = s.schedule
  fixedSeed_eq : t.fixedSeed = s.fixedSeed
  nFuzz_eq : t.nFuzz = s.nFuzz
  entry_eq : ∀ p : ℕ, t.queueBuf[p]? =
    (s.queueBuf[p]?).map fun e => { e with favored := t.favoredAt p }

section Cull

variable {cfg : RatingConfig} {s t : TopRated}

theorem queueBuf_favor {q : ℕ} {e : RatedEntry} (he : t.queueBuf[q]? = some e) :
    (t.favor q e).queueBuf =
      t.queueBuf.set q { e with favored := e.favored || !e.disabled } := by
  have hset : ∀ f, (t.modifyEntry q f).queueBuf = t.queueBuf.set q (f e) := by
    intro f
    rw [modifyEntry, List.modify_eq_set_getElem?, he]
    rfl
  have hself : t.queueBuf.set q e = t.queueBuf := by
    refine List.ext_getElem? fun p => ?_
    rw [List.getElem?_set]
    split_ifs with hqp hlt
    · rw [← hqp, he]
    · rw [← hqp, List.getElem?_eq_none (Nat.le_of_not_lt hlt)]
    · rfl
  obtain ⟨keys, favored, fsRedundant, disabled, tcRef, mini, lastWon, freed⟩ := e
  rw [favor]
  cases favored with
  | true => simp [hself]
  | false =>
    cases disabled with
    | true => simp [hself]
    | false => cases hfuzzed : keys.wasFuzzed <;> simp [hset]

theorem Refavored.favor (h : Refavored s t) {q : ℕ} {e : RatedEntry}
    (he : t.queueBuf[q]? = some e) : Refavored s (t.favor q e) := by
  have hfields : (t.favor q e).topRated = t.topRated ∧ (t.favor q e).schedule = t.schedule ∧
      (t.favor q e).fixedSeed = t.fixedSeed ∧ (t.favor q e).nFuzz = t.nFuzz := by
    rw [TopRated.favor]
    split_ifs <;> exact ⟨rfl, rfl, rfl, rfl⟩
  refine ⟨hfields.1.trans h.topRated_eq, hfields.2.1.trans h.schedule_eq,
    hfields.2.2.1.trans h.fixedSeed_eq, hfields.2.2.2.trans h.nFuzz_eq, fun p => ?_⟩
  have hp := h.entry_eq p
  rw [favoredAt, queueBuf_favor he, List.getElem?_set]
  have hlt : q < t.queueBuf.length := (List.getElem?_eq_some_iff.mp he).1
  by_cases hqp : q = p
  · rw [if_pos hqp, if_pos hlt]
    rw [← hqp] at hp ⊢
    rw [he, eq_comm, Option.map_eq_some_iff] at hp
    obtain ⟨d, hd, hde⟩ := hp
    rw [hd, ← hde]
    simp
  · rw [if_neg hqp]
    exact hp

theorem refavored_cullReset (s : TopRated) : Refavored s s.cullReset := by
  refine ⟨rfl, rfl, rfl, rfl, fun p => ?_⟩
  simp only [favoredAt, cullReset, List.getElem?_map]
  cases s.queueBuf[p]? <;> rfl

/-- An index is passed over, or its owner takes the bits of its trace. -/
theorem cullAt_cases (i : ℕ) (temp : Bytes) (t : TopRated) :
    cullAt i temp t = (temp, t) ∨
      ∃ q e mini, t.owner i = some q ∧ t.queueBuf[q]? = some e ∧ e.traceMini = some mini ∧
        bitAt temp i = true ∧ cullAt i temp t = (andNot temp mini, t.favor q e) := by
  rw [cullAt]
  cases ho : t.owner i with
  | none => exact Or.inl rfl
  | some q =>
    cases he : t.queueBuf[q]? with
    | none => exact Or.inl (by simp [he])
    | some e =>
      cases hm : e.traceMini with
      | none => exact Or.inl (by simp [he, hm])
      | some mini =>
        cases hbit : bitAt temp i with
        | false => exact Or.inl (by simp [he, hm])
        | true => exact Or.inr ⟨q, e, mini, rfl, he, hm, rfl, by simp [he, hm]⟩

theorem refavored_cullLoop (cfg : RatingConfig) (s : TopRated) :
    ∀ n, Refavored s (cullLoop cfg s n).2
  | 0 => refavored_cullReset s
  | i + 1 => by
    have ih := refavored_cullLoop cfg s i
    rw [cullLoop]
    rcases cullAt_cases i (cullLoop cfg s i).1 (cullLoop cfg s i).2 with
      h | ⟨q, e, mini, _, he, _, _, h⟩
    · rw [h]
      exact ih
    · rw [h]
      exact ih.favor he

/-- What a cull does to an entry, when it favors the entry or not. -/
def culled (cfg : RatingConfig) (favored : Bool) (e : RatedEntry) : RatedEntry :=
  let e := { e with favored := favored }
  if e.disabled then e else markAsRedundant cfg (!e.favored) e

theorem getElem?_cullQueue (h : s.returnsEarly cfg = false) (p : ℕ) :
    (s.cullQueue cfg).queueBuf[p]? =
      (s.queueBuf[p]?).map (culled cfg ((cullLoop cfg s cfg.mapSize).2.favoredAt p)) := by
  rw [cullQueue, if_neg (by rw [h]; exact Bool.false_ne_true)]
  show ((cullLoop cfg s cfg.mapSize).2.queueBuf.map _)[p]? = _
  rw [List.getElem?_map, (refavored_cullLoop cfg s cfg.mapSize).entry_eq p, Option.map_map]
  rfl

theorem culled_keeps (cfg : RatingConfig) (favored : Bool) (e : RatedEntry) :
    (culled cfg favored e).toSeedKeys = e.toSeedKeys ∧
      (culled cfg favored e).tcRef = e.tcRef ∧ (culled cfg favored e).lastWon = e.lastWon ∧
      (culled cfg favored e).favored = favored := by
  rw [culled, markAsRedundant]
  split_ifs <;> exact ⟨rfl, rfl, rfl, rfl⟩

/-- Only a trace that was there is freed. -/
theorem culled_trace_kept (cfg : RatingConfig) (favored : Bool) {e : RatedEntry}
    (h : e.freed = false → e.traceMini ≠ none) (hfreed : (culled cfg favored e).freed = false) :
    (culled cfg favored e).traceMini ≠ none := by
  revert hfreed
  rw [culled, markAsRedundant]
  split_ifs
  · exact h
  · exact h
  · intro hfreed
    obtain ⟨hfree, hnone⟩ := Bool.or_eq_false_iff.mp hfreed
    have hne := h hfree
    rw [Option.isSome_eq_false_iff, Option.isNone_iff_eq_none] at hnone
    exact absurd hnone hne
  · exact h

theorem topRated_cullQueue (cfg : RatingConfig) (s : TopRated) :
    (s.cullQueue cfg).topRated = s.topRated := by
  rw [cullQueue]
  split_ifs
  · rfl
  · exact (refavored_cullLoop cfg s cfg.mapSize).topRated_eq

theorem inv_cullQueue (h : Inv cfg s) : Inv cfg (s.cullQueue cfg) := by
  cases hearly : s.returnsEarly cfg with
  | true =>
    rw [cullQueue, if_pos hearly]
    exact h
  | false =>
    exact h.of_map (topRated_cullQueue cfg s) (getElem?_cullQueue hearly)
      (fun p e => (culled_keeps cfg _ e).2.1) fun p e hkept hfreed =>
        culled_trace_kept cfg _ hkept hfreed

theorem KeysKept.cullQueue (cfg : RatingConfig) (s : TopRated) :
    KeysKept s (s.cullQueue cfg) := by
  cases hearly : s.returnsEarly cfg with
  | true =>
    rw [TopRated.cullQueue, if_pos hearly]
    exact KeysKept.refl s
  | false =>
    have hloop := refavored_cullLoop cfg s cfg.mapSize
    have hne : ¬ s.returnsEarly cfg = true := by
      rw [hearly]
      exact Bool.false_ne_true
    refine KeysKept.of_map ?_ ?_ ?_ (getElem?_cullQueue hearly)
      fun p e => (culled_keeps cfg _ e).1
    · rw [TopRated.cullQueue, if_neg hne]
      exact hloop.schedule_eq
    · rw [TopRated.cullQueue, if_neg hne]
      exact hloop.fixedSeed_eq
    · rw [TopRated.cullQueue, if_neg hne]
      exact hloop.nFuzz_eq

end Cull

/-! ## Runs keep the counts -/

section Run

variable {cfg : RatingConfig} {s : TopRated}

theorem inv_addToQueue (h : Inv cfg s) (keys : SeedKeys) :
    Inv cfg { s with queueBuf := s.queueBuf ++ [.fresh keys] } := by
  have hentry : ∀ (q : ℕ) (e : RatedEntry), (s.queueBuf ++ [.fresh keys])[q]? = some e →
      s.queueBuf[q]? = some e ∨
        q = s.queueBuf.length ∧ e = .fresh keys := by
    intro q e he
    by_cases hq : q < s.queueBuf.length
    · rw [List.getElem?_append_left hq] at he
      exact Or.inl he
    · rw [List.getElem?_append_right (Nat.le_of_not_lt hq), List.getElem?_singleton] at he
      split_ifs at he with hzero
      · exact Or.inr ⟨by omega, (Option.some.inj he).symm⟩
  refine ⟨h.length_eq, fun i q hq => ?_, fun q e he => ?_, fun q e he hpos hfreed => ?_⟩
  · rw [List.length_append]
    exact Nat.lt_of_lt_of_le (h.owner_lt i q hq) (Nat.le_add_right _ _)
  · rcases hentry q e he with hold | ⟨hq, hnew⟩
    · exact h.tcRef_eq q e hold
    · rw [hnew]
      exact (not_owner_of_ge h (Nat.le_of_eq hq.symm)).symm
  · rcases hentry q e he with hold | ⟨_, hnew⟩
    · exact h.trace_kept q e hold hpos hfreed
    · rw [hnew] at hpos
      exact absurd hpos (Nat.lt_irrefl 0)

theorem inv_step (h : Inv cfg s) (e : Event) : Inv cfg (step cfg s e).2 := by
  cases e with
  | addToQueue keys => exact inv_addToQueue h keys
  | score q trace haveTrace => exact inv_updateBitmapScore h q trace haveTrace
  | cull => exact inv_cullQueue h
  | setKeys q keys =>
    refine h.of_map rfl (fun p => getElem?_modifyEntry s p q _) ?_ ?_
    · intro p e
      split_ifs <;> rfl
    · intro p e hkept
      split_ifs <;> exact hkept
  | setSchedule schedule fixedSeed nFuzz =>
    exact h.of_map rfl (fun p => (Option.map_id' ..).symm) (fun _ _ => rfl) fun _ _ hkept => hkept

theorem inv_run (h : Inv cfg s) (es : List Event) : Inv cfg (run cfg s es) :=
  Machine.run_inv (step cfg) (Inv cfg) (fun _ e hs => inv_step hs e) h es

theorem KeysKept.scoreLoop (cfg : RatingConfig) (q : ℕ) (trace : Bytes) (s : TopRated) (n : ℕ)
    (hn : n ≤ cfg.mapSize) : KeysKept s (s.scoreLoop cfg q trace n) :=
  scoreLoop_inv (KeysKept s) (fun t i ht _ _ => ht.trans (KeysKept.takeSlot t cfg q trace i))
    (KeysKept.refl s) n hn

theorem KeysKept.step (cfg : RatingConfig) (s : TopRated) {e : Event}
    (he : e.keepsKeys = true) : KeysKept s (TopRated.step cfg s e).2 := by
  cases e with
  | addToQueue keys =>
    refine ⟨rfl, rfl, rfl, ?_, fun p hp => ?_⟩
    · show s.queueBuf.length ≤ (s.queueBuf ++ [_]).length
      simp
    · show (((s.queueBuf ++ [_])[p]?).map RatedEntry.toSeedKeys).getD default = s.keys p
      rw [List.getElem?_append_left hp]
      rfl
  | score q trace haveTrace =>
    show KeysKept s (s.updateBitmapScore cfg q trace haveTrace)
    rcases updateBitmapScore_cases cfg q trace haveTrace s with heq | ⟨_, _, heq⟩
    · rw [heq]
      exact KeysKept.refl s
    · rw [heq]
      exact KeysKept.scoreLoop cfg q trace s cfg.mapSize (Nat.le_refl _)
  | cull => exact KeysKept.cullQueue cfg s
  | setKeys => exact Bool.noConfusion he
  | setSchedule => exact Bool.noConfusion he

end Run

/-! ## The choice of the owner -/

/-- The index has an owner, and the entry is not better than it by both keys. -/
def NotBeaten (s : TopRated) (x i : ℕ) : Prop :=
  ∃ o, s.owner i = some o ∧ ¬ (s.fuzzP2 x < s.fuzzP2 o ∧ s.favFactor x < s.favFactor o)

section Minimal

variable {cfg : RatingConfig} {s t : TopRated} {x i : ℕ}

theorem NotBeaten.of_keysKept (h : NotBeaten s x i) (hinv : Inv cfg s) (hk : KeysKept s t)
    (howner : t.owner i = s.owner i) (hx : x < s.queueBuf.length) : NotBeaten t x i := by
  obtain ⟨o, ho, hnot⟩ := h
  have holt := hinv.owner_lt i o ho
  refine ⟨o, howner.trans ho, ?_⟩
  rw [hk.fuzzP2_eq hx, hk.fuzzP2_eq holt, hk.favFactor_eq hx, hk.favFactor_eq holt]
  exact hnot

/-- Whoever takes an index is at least as good by both keys as its owner. -/
theorem le_of_wins {q o : ℕ} {trace : Bytes} (hwins : s.wins q trace i = true)
    (ho : s.owner i = some o) :
    s.fuzzP2 q ≤ s.fuzzP2 o ∧ s.favFactor q ≤ s.favFactor o := by
  simp only [wins, keeps, ho, Bool.and_eq_true, Bool.not_eq_true', Bool.or_eq_false_iff,
    decide_eq_false_iff_not] at hwins
  exact ⟨UInt64.not_lt.mp hwins.2.1, UInt64.not_lt.mp hwins.2.2⟩

theorem NotBeaten.takeSlot (h : NotBeaten s x i) (hinv : Inv cfg s)
    (hx : x < s.queueBuf.length) {q j : ℕ} (hq : q < s.queueBuf.length) {trace : Bytes}
    (hj : j < cfg.mapSize) (hwins : s.wins q trace j = true) :
    NotBeaten (s.takeSlot cfg q trace j) x i := by
  have hk := KeysKept.takeSlot s cfg q trace j
  have howner := owner_takeSlot s i q j cfg trace (by rw [hinv.length_eq]; exact hj)
  by_cases hji : j = i
  · rw [if_pos hji] at howner
    rw [hji] at hwins
    obtain ⟨o, ho, hnot⟩ := h
    obtain ⟨hfuzz, hfav⟩ := le_of_wins hwins ho
    refine ⟨q, howner, fun hlt => hnot ?_⟩
    rw [hk.fuzzP2_eq hx, hk.fuzzP2_eq hq, hk.favFactor_eq hx, hk.favFactor_eq hq] at hlt
    exact ⟨UInt64.lt_of_lt_of_le hlt.1 hfuzz, UInt64.lt_of_lt_of_le hlt.2 hfav⟩
  · rw [if_neg hji] at howner
    exact h.of_keysKept hinv hk howner hx

/-- After the loop the entry is not better than the owner of any index it hit. -/
theorem notBeaten_scoreLoop (hinv : Inv cfg s) {q : ℕ} (hq : q < s.queueBuf.length)
    (trace : Bytes) : ∀ n ≤ cfg.mapSize,
      (Inv cfg (s.scoreLoop cfg q trace n) ∧ q < (s.scoreLoop cfg q trace n).queueBuf.length) ∧
        ∀ i < n, hits trace i = true → NotBeaten (s.scoreLoop cfg q trace n) q i
  | 0, _ => ⟨⟨hinv, hq⟩, fun i hi => absurd hi (Nat.not_lt_zero i)⟩
  | n + 1, hn => by
    obtain ⟨⟨hinv', hq'⟩, hold⟩ := notBeaten_scoreLoop hinv hq trace n (Nat.le_of_succ_le hn)
    rw [scoreLoop]
    generalize s.scoreLoop cfg q trace n = t at hinv' hq' hold ⊢
    cases hwins : t.wins q trace n with
    | true =>
      show (Inv cfg (t.takeSlot cfg q trace n) ∧ _) ∧ _
      refine ⟨⟨inv_takeSlot hinv' hq' hn trace, ?_⟩, fun i hi hhit => ?_⟩
      · show q < (t.takeSlot cfg q trace n).queueBuf.length
        rw [length_takeSlot]
        exact hq'
      show NotBeaten (t.takeSlot cfg q trace n) q i
      rcases Nat.lt_succ_iff_lt_or_eq.mp hi with hlt | heq
      · exact (hold i hlt hhit).takeSlot hinv' hq' hq' hn hwins
      · refine ⟨q, ?_, fun hlt => UInt64.lt_irrefl _ hlt.1⟩
        rw [owner_takeSlot t i q n cfg trace (by rw [hinv'.length_eq]; exact hn),
          if_pos heq.symm]
    | false =>
      refine ⟨⟨hinv', hq'⟩, fun i hi hhit => ?_⟩
      show NotBeaten t q i
      rcases Nat.lt_succ_iff_lt_or_eq.mp hi with hlt | heq
      · exact hold i hlt hhit
      · rw [← heq, wins, hhit, Bool.true_and, Bool.not_eq_false', keeps] at hwins
        cases ho : t.owner i with
        | none =>
          rw [ho] at hwins
          exact Bool.noConfusion hwins
        | some o =>
          rw [ho] at hwins
          simp only [Bool.or_eq_true, decide_eq_true_eq] at hwins
          refine ⟨o, ho, fun hlt => ?_⟩
          rcases hwins with hgt | hgt
          · exact UInt64.lt_asymm hgt hlt.1
          · exact UInt64.lt_asymm hgt hlt.2

/-- An entry that is not better than an owner does not become so. -/
theorem NotBeaten.step (h : NotBeaten s x i) (hinv : Inv cfg s) (hx : x < s.queueBuf.length)
    {e : Event} (he : e.keepsKeys = true) : NotBeaten (TopRated.step cfg s e).2 x i := by
  have hk := KeysKept.step cfg s he
  cases e with
  | addToQueue => exact h.of_keysKept hinv hk rfl hx
  | score q trace haveTrace =>
    show NotBeaten (s.updateBitmapScore cfg q trace haveTrace) x i
    rcases updateBitmapScore_cases cfg q trace haveTrace s with heq | ⟨_, ⟨e, he, _⟩, heq⟩
    · rw [heq]
      exact h
    · rw [heq]
      have hq : q < s.queueBuf.length := (List.getElem?_eq_some_iff.mp he).1
      refine (scoreLoop_inv (fun t => (Inv cfg t ∧ NotBeaten t x i) ∧
        x < t.queueBuf.length ∧ q < t.queueBuf.length) ?_ ⟨⟨hinv, h⟩, hx, hq⟩ cfg.mapSize
        (Nat.le_refl _)).1.2
      intro t j ht hj hwins
      obtain ⟨⟨htinv, hnot⟩, htx, htq⟩ := ht
      refine ⟨⟨inv_takeSlot htinv htq hj trace, hnot.takeSlot htinv htx htq hj hwins⟩, ?_, ?_⟩
      · rw [length_takeSlot]
        exact htx
      · rw [length_takeSlot]
        exact htq
  | cull =>
    refine h.of_keysKept hinv hk ?_ hx
    rw [owner, owner, ← topRated_cullQueue cfg s]
    rfl
  | setKeys => exact Bool.noConfusion he
  | setSchedule => exact Bool.noConfusion he

theorem NotBeaten.run (h : NotBeaten s x i) (hinv : Inv cfg s) (hx : x < s.queueBuf.length)
    {es : List Event} (hes : ∀ e ∈ es, e.keepsKeys = true) : NotBeaten (run cfg s es) x i := by
  refine (Machine.run_inv_of_forall (TopRated.step cfg) (fun e => e.keepsKeys = true)
    (fun t => Inv cfg t ∧ NotBeaten t x i ∧ x < t.queueBuf.length) ?_ ⟨hinv, h, hx⟩ hes).2.1
  intro t e ⟨htinv, hnot, htx⟩ he
  exact ⟨inv_step htinv e, hnot.step htinv htx he,
    Nat.lt_of_lt_of_le htx (KeysKept.step cfg t he).length_le⟩

end Minimal

/-- What the ranking says about a state, after a list of events. -/
structure WinnersSound (cfg : RatingConfig) (s : TopRated) (es : List Event) : Prop where
  tcRef_eq : ∀ (q : ℕ) (e : RatedEntry), (run cfg s es).queueBuf[q]? = some e →
    e.tcRef = (run cfg s es).topRated.count (some q)
  trace_kept : ∀ (q : ℕ) (e : RatedEntry), (run cfg s es).queueBuf[q]? = some e →
    0 < e.tcRef → e.freed = false → e.traceMini ≠ none
  /-- No entry that was scored since the keys last changed is better, by both keys, than
  the owner of an index it hit. -/
  minimal : ∀ (es₁ es₂ : List Event) (q : ℕ) (trace : Bytes) (e : RatedEntry) (i : ℕ),
    es = es₁ ++ .score q trace true :: es₂ → (∀ f ∈ es₂, f.keepsKeys = true) →
    (run cfg s es₁).queueBuf[q]? = some e → e.disabled = false →
    i < cfg.mapSize → hits trace i = true → NotBeaten (run cfg s es) q i

/-- Reference counts, kept traces and owners, in any run from an empty table. -/
theorem winners_sound (cfg : RatingConfig) (schedule : PowerSchedule) (fixedSeed : Bool)
    (es : List Event) : WinnersSound cfg (init cfg schedule fixedSeed) es := by
  have hrun := inv_run (inv_init cfg schedule fixedSeed) es
  refine ⟨hrun.tcRef_eq, hrun.trace_kept, ?_⟩
  rintro es₁ es₂ q trace e i rfl hkeep he hdis hi hhit
  have hinv := inv_run (inv_init cfg schedule fixedSeed) es₁
  generalize hs : run cfg (init cfg schedule fixedSeed) es₁ = s at he hinv
  have hq : q < s.queueBuf.length := (List.getElem?_eq_some_iff.mp he).1
  have hscore : s.updateBitmapScore cfg q trace true = s.scoreLoop cfg q trace cfg.mapSize := by
    simp [updateBitmapScore, he, hdis]
  obtain ⟨⟨hinv', hq'⟩, hnot⟩ := notBeaten_scoreLoop hinv hq trace cfg.mapSize (Nat.le_refl _)
  have hsplit : run cfg (init cfg schedule fixedSeed) (es₁ ++ .score q trace true :: es₂) =
      run cfg (s.scoreLoop cfg q trace cfg.mapSize) es₂ := by
    rw [← hscore, ← hs]
    exact Machine.run_append ..
  rw [hsplit]
  exact (hnot i hi hhit).run hinv' hq' hkeep

end TopRated

end AflNv
