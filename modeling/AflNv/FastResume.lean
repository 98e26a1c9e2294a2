import AflNv.Lib.Codec
import AflNv.TopRated

/-!
# The fast resume file

The writer and the reader of `fastresume.bin` in `src/afl-fuzz.c`, for a fuzzer without
IJON.  The file has a version, four maps, and for each entry the memory of the struct
from `colorized` up to `mother` and the kept trace.  The memory is that of a 64-bit
little-endian build without `INTROSPECTION`, and a `double` is its bits.

The reader calls `update_bitmap_score` with no trace.  A failed check ends the fuzzer
and is `none` here; so is a version the reader does not accept, with which it starts
without the file.

* `readResume_writeResume`: the reader takes the whole file and restores what was written.
* `roundTrip_iff`: the reference counts agree with the table exactly when all are zero.
-/

namespace AflNv

open AflNv.Lib

/-! ## The memory that is saved -/

/-- The fields of a `queue_entry` from `colorized` up to `mother`. -/
structure SchedFields where
  colorized : UInt8
  calFailed : UInt8
  trimDone : Bool
  wasFuzzed : Bool
  passedDet : Bool
  hasNewCov : Bool
  varBehavior : Bool
  favored : Bool
  fsRedundant : Bool
  isAscii : Bool
  disabled : Bool
  bitmapSize : UInt32
  fuzzLevel : UInt32
  nFuzzEntry : UInt32
  execUs : UInt64
  handicap : UInt64
  depth : UInt64
  execCksum : UInt64
  custom : UInt64
  statsMutated : UInt64
  tcRef : UInt32
  ssCovCnt : UInt64
  ssSelectedCnt : UInt64
  ssProb : UInt64
  perfScore : UInt64
  weight : UInt64
  deriving DecidableEq, Inhabited

namespace SchedFields

open Codec

/-- The bytes of the fields; the compiler aligns `bitmap_size` and `ss_cov_cnt`. -/
def codec : Codec SchedFields :=
  (byte.pair <| byte.pair <| Codec.flag.pair <| Codec.flag.pair <| Codec.flag.pair <|
    Codec.flag.pair <| Codec.flag.pair <| Codec.flag.pair <| Codec.flag.pair <|
    Codec.flag.pair <| Codec.flag.pair <| (padding 1).pair <|
    u32.pair <| u32.pair <| u32.pair <| u64.pair <| u64.pair <| u64.pair <| u64.pair <|
    u64.pair <| u64.pair <| u32.pair <| (padding 4).pair <| u64.pair <| u64.pair <|
    u64.pair <| u64.pair u64).imap
  (fun (colorized, calFailed, trimDone, wasFuzzed, passedDet, hasNewCov, varBehavior,
      favored, fsRedundant, isAscii, disabled, _, bitmapSize, fuzzLevel, nFuzzEntry, execUs,
      handicap, depth, execCksum, custom, statsMutated, tcRef, _, ssCovCnt, ssSelectedCnt,
      ssProb, perfScore, weight) =>
    ⟨colorized, calFailed, trimDone, wasFuzzed, passedDet, hasNewCov, varBehavior, favored,
      fsRedundant, isAscii, disabled, bitmapSize, fuzzLevel, nFuzzEntry, execUs, handicap,
      depth, execCksum, custom, statsMutated, tcRef, ssCovCnt, ssSelectedCnt, ssProb,
      perfScore, weight⟩)
  (fun f => (f.colorized, f.calFailed, f.trimDone, f.wasFuzzed, f.passedDet, f.hasNewCov,
    f.varBehavior, f.favored, f.fsRedundant, f.isAscii, f.disabled, (), f.bitmapSize,
    f.fuzzLevel, f.nFuzzEntry, f.execUs, f.handicap, f.depth, f.execCksum, f.custom,
    f.statsMutated, f.tcRef, (), f.ssCovCnt, f.ssSelectedCnt, f.ssProb, f.perfScore,
    f.weight))
  fun _ => rfl

example : codec.size = 120 := by decide

end SchedFields

/-- What the writing and the reading process have in common. -/
structure ResumeConfig where
  rating : RatingConfig
  cmplogMode : UInt64

namespace ResumeConfig

/-- `map_size`. -/
def mapSize (cfg : ResumeConfig) : ℕ := cfg.rating.mapSize

/-- `m_len`. -/
def miniLen (cfg : ResumeConfig) : ℕ := (cfg.mapSize + 7) / 8

/-- `FAST_RESUME_VERSION + cmplog_mode + (sizeof(struct queue_entry) << 1)`. -/
def version (cfg : ResumeConfig) : UInt64 :=
  (0x01000000 : UInt64) + cfg.cmplogMode + ((184 : UInt64) <<< 1)

end ResumeConfig

/-- A queue entry. -/
structure ResumeEntry (cfg : ResumeConfig) where
  len : UInt32
  fields : SchedFields
  traceMini : Option (Block cfg.miniLen)
  deriving DecidableEq

/-- The fields of `afl_state_t` that the writer and the reader use. -/
structure ResumeState (cfg : ResumeConfig) where
  virginBits : Block cfg.mapSize
  virginTmout : Block cfg.mapSize
  virginCrash : Block cfg.mapSize
  varBytes : Block cfg.mapSize
  queueBuf : List (ResumeEntry cfg)
  topRated : List (Option ℕ)
  schedule : PowerSchedule
  fixedSeed : Bool
  nFuzz : List UInt32
  scoreChanged : Bool
  queuedFavored : ℕ
  pendingFavored : ℕ
  smallestFavored : ℤ
  pendingNotFuzzed : ℕ
  activeItems : ℕ
  queuedVariable : ℕ
  totalBitmapSize : ℕ
  totalBitmapEntries : ℕ
  reinitTable : Bool

namespace ResumeState

variable {cfg : ResumeConfig}

/-! ## Scoring -/

/-- The entry as the ranking sees it. -/
def rated (e : ResumeEntry cfg) : RatedEntry where
  len := e.len
  execUs := e.fields.execUs
  fuzzLevel := e.fields.fuzzLevel
  nFuzzEntry := e.fields.nFuzzEntry.toNat
  wasFuzzed := e.fields.wasFuzzed
  favored := e.fields.favored
  fsRedundant := e.fields.fsRedundant
  disabled := e.fields.disabled
  tcRef := e.fields.tcRef.toNat
  traceMini := e.traceMini.map Subtype.val

/-- The state as the ranking sees it. -/
def ranking (s : ResumeState cfg) : TopRated where
  queueBuf := s.queueBuf.map rated
  topRated := s.topRated
  schedule := s.schedule
  fixedSeed := s.fixedSeed
  nFuzz := s.nFuzz
  scoreChanged := s.scoreChanged
  queuedFavored := s.queuedFavored
  pendingFavored := s.pendingFavored
  smallestFavored := s.smallestFavored
  reinitTable := s.reinitTable

/-- The entry with the fields that scoring writes. -/
def rescored (e : ResumeEntry cfg) (r : RatedEntry) : ResumeEntry cfg :=
  { e with
    fields := { e.fields with tcRef := UInt32.ofNat r.tcRef }
    traceMini := r.traceMini.bind fun bs =>
      if h : bs.length = cfg.miniLen then some ⟨bs, h⟩ else none }

/-- `update_bitmap_score(afl, q, false)`. -/
def updateBitmapScore (q : ℕ) (s : ResumeState cfg) : ResumeState cfg :=
  let r := s.ranking.updateBitmapScore cfg.rating q [] false
  { s with
    queueBuf := List.zipWith rescored s.queueBuf r.queueBuf
    topRated := r.topRated
    scoreChanged := r.scoreChanged }

/-! ## The writer -/

/-- The part of the file for an entry. -/
def writeEntry (e : ResumeEntry cfg) : Bytes :=
  SchedFields.codec.put e.fields ++
    match e.traceMini with
    | none => [0]
    | some mini => [1] ++ mini.val

/-- The writer: the file, and the state it leaves. -/
def writeResume (s : ResumeState cfg) : Bytes × ResumeState cfg :=
  (Codec.u64.put cfg.version ++ (s.virginBits.val ++ (s.virginTmout.val ++
      (s.virginCrash.val ++ (s.varBytes.val ++ s.queueBuf.flatMap writeEntry)))),
    { s with
      pendingNotFuzzed := s.queueBuf.length
      activeItems := s.queueBuf.length })

/-! ## The reader -/

/-- The counters for an entry. -/
def countEntry (f : SchedFields) (s : ResumeState cfg) : ResumeState cfg :=
  { s with
    pendingNotFuzzed := s.pendingNotFuzzed - (if f.wasFuzzed then 1 else 0) -
      if f.disabled && !f.wasFuzzed then 1 else 0
    activeItems := s.activeItems - if f.disabled then 1 else 0
    queuedVariable := s.queuedVariable + if f.varBehavior then 1 else 0
    queuedFavored := s.queuedFavored + if f.favored then 1 else 0
    pendingFavored := s.pendingFavored + if f.favored && !f.wasFuzzed then 1 else 0 }

/-- One entry of the loop. -/
def readEntry (i : ℕ) (s : ResumeState cfg) (bs : Bytes) :
    Option (ResumeState cfg × Bytes) := do
  let e ← s.queueBuf[i]?
  let (data, bs) ← Block.split SchedFields.codec.size bs
  let (res, bs) ← Block.split Codec.byte.size bs
  let (mini, bs) ←
    if Codec.byte.get res.val ≠ 0 then do
      let (mini, bs) ← Block.split cfg.miniLen bs
      pure (some mini, bs)
    else pure (e.traceMini, bs)
  let fields := SchedFields.codec.get data.val
  let s := { s with
    queueBuf := s.queueBuf.set i { e with fields := fields, traceMini := mini }
    totalBitmapSize := s.totalBitmapSize + fields.bitmapSize.toNat
    totalBitmapEntries := s.totalBitmapEntries + 1 }
  pure ((s.updateBitmapScore i).countEntry fields, bs)

/-- The loop over the first `n` entries. -/
def readLoop (s : ResumeState cfg) (bs : Bytes) : ℕ → Option (ResumeState cfg × Bytes)
  | 0 => some (s, bs)
  | i + 1 => do
    let (s, bs) ← readLoop s bs i
    readEntry i s bs

/-- The reader; nothing may be left of the file. -/
def readResume (s : ResumeState cfg) (bs : Bytes) : Option (ResumeState cfg) := do
  let (ver, bs) ← Block.split Codec.u64.size bs
  if Codec.u64.get ver.val = cfg.version then
    let (virginBits, bs) ← Block.split cfg.mapSize bs
    let (virginTmout, bs) ← Block.split cfg.mapSize bs
    let (virginCrash, bs) ← Block.split cfg.mapSize bs
    let (varBytes, bs) ← Block.split cfg.mapSize bs
    let s := { s with
      virginBits := virginBits
      virginTmout := virginTmout
      virginCrash := virginCrash
      varBytes := varBytes }
    let (s, bs) ← s.readLoop bs s.queueBuf.length
    if bs.take 3 = [] then some { s with reinitTable := true } else none
  else none

/-! ## The round trip -/

/-- A process that has read the queue and has scored nothing yet. -/
structure Started (s : ResumeState cfg) : Prop where
  topRated_eq : s.topRated = List.replicate cfg.mapSize none
  traceMini_eq : ∀ e ∈ s.queueBuf, e.traceMini = none
  queuedFavored_eq : s.queuedFavored = 0
  pendingFavored_eq : s.pendingFavored = 0
  queuedVariable_eq : s.queuedVariable = 0
  pendingNotFuzzed_eq : s.pendingNotFuzzed = s.queueBuf.length
  activeItems_eq : s.activeItems = s.queueBuf.length

/-- What was written is there again, and the counters are those of the entries. -/
structure Restored (s t : ResumeState cfg) : Prop where
  virginBits_eq : t.virginBits = s.virginBits
  virginTmout_eq : t.virginTmout = s.virginTmout
  virginCrash_eq : t.virginCrash = s.virginCrash
  varBytes_eq : t.varBytes = s.varBytes
  length_eq : t.queueBuf.length = s.queueBuf.length
  entry_eq : ∀ (i : ℕ) (e d : ResumeEntry cfg), s.queueBuf[i]? = some e →
    t.queueBuf[i]? = some d → d.fields = e.fields ∧ d.traceMini = e.traceMini
  queuedFavored_eq : t.queuedFavored = t.queueBuf.countP fun e => e.fields.favored
  pendingFavored_eq : t.pendingFavored =
    t.queueBuf.countP fun e => e.fields.favored && !e.fields.wasFuzzed
  pendingNotFuzzed_eq : t.pendingNotFuzzed =
    t.queueBuf.countP fun e => !e.fields.wasFuzzed && !e.fields.disabled
  activeItems_eq : t.activeItems = t.queueBuf.countP fun e => !e.fields.disabled
  queuedVariable_eq : t.queuedVariable = t.queueBuf.countP fun e => e.fields.varBehavior

/-- The reference counts are the numbers of slots. -/
def SlotsCounted (t : ResumeState cfg) : Prop :=
  ∀ (i : ℕ) (e : ResumeEntry cfg), t.queueBuf[i]? = some e →
    e.fields.tcRef.toNat = t.topRated.count (some i)

/-- The file of `s`, read by a process in the state `p`. -/
def RoundTrip (p s : ResumeState cfg) : Prop :=
  ∃ t, p.readResume s.writeResume.1 = some t ∧ Restored s t ∧ SlotsCounted t

/-! ## Scoring without a trace -/

theorem rescored_rated (e : ResumeEntry cfg) : rescored e (rated e) = e := by
  obtain ⟨len, fields, mini⟩ := e
  simp only [rescored, rated, UInt32.ofNat_toNat]
  cases mini with
  | none => rfl
  | some mini => simp [mini.property]

/-- Without a trace nothing is scored: no slot is taken and no count changes. -/
theorem updateBitmapScore_eq (q : ℕ) (s : ResumeState cfg) : s.updateBitmapScore q = s := by
  have hrating : s.ranking.updateBitmapScore cfg.rating q [] false = s.ranking := by
    rcases TopRated.updateBitmapScore_cases cfg.rating q [] false s.ranking with heq | ⟨hhave, _⟩
    · exact heq
    · exact Bool.noConfusion hhave
  have hqueue : List.zipWith rescored s.queueBuf (s.queueBuf.map rated) = s.queueBuf := by
    rw [List.zipWith_map_right, List.zipWith_self]
    exact (List.map_congr_left fun e _ => rescored_rated e).trans (List.map_id' _)
  rw [updateBitmapScore, hrating]
  show { s with queueBuf := List.zipWith rescored s.queueBuf (s.queueBuf.map rated) } = s
  rw [hqueue]

/-! ## The loop -/

section Loop

variable {s t : ResumeState cfg} {i : ℕ}

/-- The entry `e` of the file, in the place of the entry `d` of the process. -/
def restore (i : ℕ) (e d : ResumeEntry cfg) (s : ResumeState cfg) : ResumeState cfg :=
  countEntry e.fields { s with
    queueBuf := s.queueBuf.set i { d with fields := e.fields, traceMini := e.traceMini }
    totalBitmapSize := s.totalBitmapSize + e.fields.bitmapSize.toNat
    totalBitmapEntries := s.totalBitmapEntries + 1 }

/-- The reader takes exactly what was written for an entry. -/
theorem readEntry_writeEntry {d : ResumeEntry cfg} (hd : s.queueBuf[i]? = some d)
    (hmini : d.traceMini = none) (e : ResumeEntry cfg) (rest : Bytes) :
    readEntry i s (writeEntry e ++ rest) = some (s.restore i e d, rest) := by
  have hfields : ∀ bs, Block.split SchedFields.codec.size (SchedFields.codec.put e.fields ++ bs) =
      some (SchedFields.codec.block e.fields, bs) := fun bs =>
    Block.split_append (SchedFields.codec.block e.fields) bs
  have hbyte : ∀ (b : UInt8) bs, Block.split Codec.byte.size (b :: bs) =
      some (Codec.byte.block b, bs) := fun b bs => Block.split_append (Codec.byte.block b) bs
  have hres : ∀ b, Codec.byte.get (Codec.byte.block b).val = b := fun _ => rfl
  rw [readEntry, hd]
  cases hm : e.traceMini with
  | none =>
    rw [writeEntry, hm, List.append_assoc]
    simp only [Option.bind_eq_bind, Option.bind_some, hfields, List.cons_append,
      List.nil_append, hbyte, hres, Codec.get_block, updateBitmapScore_eq, Option.pure_def,
      restore, hm, hmini, ne_eq, not_true_eq_false, if_false]
  | some mini =>
    rw [writeEntry, hm, List.append_assoc]
    simp only [Option.bind_eq_bind, Option.bind_some, hfields, List.cons_append,
      List.nil_append, hbyte, hres, Codec.get_block, updateBitmapScore_eq, Option.pure_def,
      restore, hm, ne_eq, Block.split_append]
    rfl

/-- The state after `n` entries of the file of `s`, from the state `p`. -/
structure Resumed (p s : ResumeState cfg) (n : ℕ) (t : ResumeState cfg) : Prop where
  virginBits_eq : t.virginBits = p.virginBits
  virginTmout_eq : t.virginTmout = p.virginTmout
  virginCrash_eq : t.virginCrash = p.virginCrash
  varBytes_eq : t.varBytes = p.varBytes
  topRated_eq : t.topRated = p.topRated
  length_eq : t.queueBuf.length = p.queueBuf.length
  done : ∀ (i : ℕ) (e d : ResumeEntry cfg), i < n → s.queueBuf[i]? = some e →
    t.queueBuf[i]? = some d → d.fields = e.fields ∧ d.traceMini = e.traceMini
  todo : ∀ i ≥ n, t.queueBuf[i]? = p.queueBuf[i]?
  queuedFavored_eq : t.queuedFavored =
    p.queuedFavored + (s.queueBuf.take n).countP fun e => e.fields.favored
  pendingFavored_eq : t.pendingFavored = p.pendingFavored +
    (s.queueBuf.take n).countP fun e => e.fields.favored && !e.fields.wasFuzzed
  pendingNotFuzzed_eq : t.pendingNotFuzzed = p.pendingNotFuzzed -
    (s.queueBuf.take n).countP fun e => e.fields.wasFuzzed || e.fields.disabled
  activeItems_eq : t.activeItems =
    p.activeItems - (s.queueBuf.take n).countP fun e => e.fields.disabled
  queuedVariable_eq : t.queuedVariable =
    p.queuedVariable + (s.queueBuf.take n).countP fun e => e.fields.varBehavior

theorem resumed_zero (p s : ResumeState cfg) : Resumed p s 0 p :=
  ⟨rfl, rfl, rfl, rfl, rfl, rfl, fun i _ _ hi => absurd hi (Nat.not_lt_zero i),
    fun _ _ => rfl, rfl, rfl, rfl, rfl, rfl⟩

theorem Resumed.restore {p : ResumeState cfg} {n : ℕ} (h : Resumed p s n t)
    {e d : ResumeEntry cfg} (he : s.queueBuf[n]? = some e) (hd : t.queueBuf[n]? = some d) :
    Resumed p s (n + 1) (t.restore n e d) := by
  have htake : s.queueBuf.take (n + 1) = s.queueBuf.take n ++ [e] := by
    rw [List.take_add_one, he]
    rfl
  have hcount : ∀ f : ResumeEntry cfg → Bool, (s.queueBuf.take (n + 1)).countP f =
      (s.queueBuf.take n).countP f + if f e then 1 else 0 := by
    intro f
    rw [htake, List.countP_append, List.countP_singleton]
  have hn : n < t.queueBuf.length := (List.getElem?_eq_some_iff.mp hd).1
  refine ⟨h.virginBits_eq, h.virginTmout_eq, h.virginCrash_eq, h.varBytes_eq, h.topRated_eq,
    ?_, fun i e' d' hi he' hd' => ?_, fun i hi => ?_, ?_, ?_, ?_, ?_, ?_⟩
  · show (t.queueBuf.set n _).length = _
    rw [List.length_set]
    exact h.length_eq
  · have hget : (t.queueBuf.set n { d with fields := e.fields, traceMini := e.traceMini })[i]? =
      some d' := hd'
    rw [List.getElem?_set] at hget
    split_ifs at hget with hni
    · rw [hni, he', Option.some.injEq] at he
      obtain rfl := Option.some.inj hget
      rw [he]
      exact ⟨rfl, rfl⟩
    · exact h.done i e' d' (by omega) he' hget
  · show (t.queueBuf.set n _)[i]? = _
    rw [List.getElem?_set_ne (by omega)]
    exact h.todo i (by omega)
  · rw [hcount, ← Nat.add_assoc, ← h.queuedFavored_eq]
    rfl
  · rw [hcount, ← Nat.add_assoc, ← h.pendingFavored_eq]
    rfl
  · show t.pendingNotFuzzed - (if e.fields.wasFuzzed then 1 else 0) -
      (if e.fields.disabled && !e.fields.wasFuzzed then 1 else 0) = _
    rw [hcount, h.pendingNotFuzzed_eq]
    cases e.fields.wasFuzzed <;> cases e.fields.disabled <;> simp <;> omega
  · rw [hcount, ← Nat.sub_sub, ← h.activeItems_eq]
    rfl
  · rw [hcount, ← Nat.add_assoc, ← h.queuedVariable_eq]
    rfl

/-- The loop takes the entries one after the other. -/
theorem readLoop_spec {p : ResumeState cfg} (hlen : p.queueBuf.length = s.queueBuf.length)
    (hmini : ∀ e ∈ p.queueBuf, e.traceMini = none) : ∀ n ≤ s.queueBuf.length, ∃ t,
      p.readLoop (s.queueBuf.flatMap writeEntry) n =
          some (t, (s.queueBuf.drop n).flatMap writeEntry) ∧
        Resumed p s n t
  | 0, _ => ⟨p, rfl, resumed_zero p s⟩
  | n + 1, hn => by
    obtain ⟨t, hloop, hres⟩ := readLoop_spec hlen hmini n (Nat.le_of_succ_le hn)
    obtain ⟨e, he⟩ : ∃ e, s.queueBuf[n]? = some e := ⟨_, List.getElem?_eq_getElem hn⟩
    obtain ⟨d, hd⟩ : ∃ d, p.queueBuf[n]? = some d :=
      ⟨_, List.getElem?_eq_getElem (by omega)⟩
    have htd : t.queueBuf[n]? = some d := (hres.todo n (Nat.le_refl n)).trans hd
    have hdrop : s.queueBuf.drop n = e :: s.queueBuf.drop (n + 1) := by
      rw [List.drop_eq_getElem_cons hn]
      rw [List.getElem?_eq_getElem hn, Option.some.injEq] at he
      rw [he]
    refine ⟨t.restore n e d, ?_, hres.restore he htd⟩
    rw [readLoop, hloop, hdrop, List.flatMap_cons]
    exact readEntry_writeEntry htd (hmini d (List.mem_of_getElem? hd)) e _

end Loop

/-! ## The whole file -/

section File

variable {p s : ResumeState cfg}

/-- The reader accepts the file, takes all of it and restores what was written. -/
theorem readResume_writeResume (hp : Started p)
    (hlen : p.queueBuf.length = s.queueBuf.length) :
    ∃ t, p.readResume s.writeResume.1 = some t ∧ Restored s t ∧
      t.topRated = List.replicate cfg.mapSize none := by
  have hversion : ∀ bs, Block.split Codec.u64.size (Codec.u64.put cfg.version ++ bs) =
      some (Codec.u64.block cfg.version, bs) := fun bs =>
    Block.split_append (Codec.u64.block cfg.version) bs
  let q : ResumeState cfg := { p with
    virginBits := s.virginBits
    virginTmout := s.virginTmout
    virginCrash := s.virginCrash
    varBytes := s.varBytes }
  obtain ⟨t, hloop, hres⟩ := readLoop_spec (p := q) (s := s) hlen hp.traceMini_eq
    s.queueBuf.length (Nat.le_refl _)
  rw [List.drop_length, List.flatMap_nil] at hloop
  have hqueue : t.queueBuf.length = s.queueBuf.length := hres.length_eq.trans hlen
  have hentry : ∀ (i : ℕ) (e d : ResumeEntry cfg), s.queueBuf[i]? = some e →
      t.queueBuf[i]? = some d → d.fields = e.fields ∧ d.traceMini = e.traceMini :=
    fun i e d he hd => hres.done i e d (List.getElem?_eq_some_iff.mp he).1 he hd
  have hfields : t.queueBuf.map ResumeEntry.fields = s.queueBuf.map ResumeEntry.fields := by
    refine List.ext_getElem (by rw [List.length_map, List.length_map, hqueue]) fun i hi hi' => ?_
    rw [List.getElem_map, List.getElem_map]
    rw [List.length_map] at hi hi'
    exact (hentry i _ _ (List.getElem?_eq_getElem hi') (List.getElem?_eq_getElem hi)).1
  have hcount : ∀ f : SchedFields → Bool, (t.queueBuf.countP fun e => f e.fields) =
      s.queueBuf.countP fun e => f e.fields := by
    intro f
    have hmap := congrArg (List.countP f) hfields
    rwa [List.countP_map, List.countP_map] at hmap
  have hnot : ∀ f : SchedFields → Bool, s.queueBuf.length -
      (s.queueBuf.countP fun e => f e.fields) = s.queueBuf.countP fun e => !f e.fields := by
    intro f
    have hsum := List.length_eq_countP_add_countP (fun e : ResumeEntry cfg => f e.fields)
      (l := s.queueBuf)
    simp only [Bool.not_eq_true, Bool.decide_eq_false] at hsum
    omega
  refine ⟨{ t with reinitTable := true }, ?_, ?_, hres.topRated_eq.trans hp.topRated_eq⟩
  · rw [readResume, writeResume]
    simp only [Option.bind_eq_bind, hversion, Option.bind_some, Codec.get_block, if_true,
      Block.split_append]
    have hstart : p.queueBuf.length = s.queueBuf.length := hlen
    rw [hstart]
    show (Option.bind (q.readLoop _ s.queueBuf.length) _) = _
    rw [hloop]
    rfl
  · refine ⟨hres.virginBits_eq, hres.virginTmout_eq, hres.virginCrash_eq, hres.varBytes_eq,
      hqueue, hentry, ?_, ?_, ?_, ?_, ?_⟩
    · show t.queuedFavored = _
      rw [hcount fun f => f.favored, hres.queuedFavored_eq, List.take_length,
        show q.queuedFavored = 0 from hp.queuedFavored_eq, Nat.zero_add]
    · show t.pendingFavored = _
      rw [hcount fun f => f.favored && !f.wasFuzzed, hres.pendingFavored_eq, List.take_length,
        show q.pendingFavored = 0 from hp.pendingFavored_eq, Nat.zero_add]
    · show t.pendingNotFuzzed = _
      rw [hcount fun f => !f.wasFuzzed && !f.disabled, hres.pendingNotFuzzed_eq,
        List.take_length, show q.pendingNotFuzzed = s.queueBuf.length from
          hp.pendingNotFuzzed_eq.trans hlen, hnot fun f => f.wasFuzzed || f.disabled]
      exact List.countP_congr fun e _ => by rw [Bool.not_or]
    · show t.activeItems = _
      rw [hcount fun f => !f.disabled, hres.activeItems_eq, List.take_length,
        show q.activeItems = s.queueBuf.length from hp.activeItems_eq.trans hlen,
        hnot fun f => f.disabled]
    · show t.queuedVariable = _
      rw [hcount fun f => f.varBehavior, hres.queuedVariable_eq, List.take_length,
        show q.queuedVariable = 0 from hp.queuedVariable_eq, Nat.zero_add]

theorem count_replicate_none (n i : ℕ) :
    (List.replicate n (none : Option ℕ)).count (some i) = 0 :=
  List.count_eq_zero.mpr fun hmem =>
    absurd (List.mem_replicate.mp hmem).2 (Option.some_ne_none i)

/-- The counts are restored, but no entry has a slot. -/
theorem tcRef_eq_zero_of_roundTrip (hp : Started p)
    (hlen : p.queueBuf.length = s.queueBuf.length) (h : RoundTrip p s)
    {e : ResumeEntry cfg} (he : e ∈ s.queueBuf) : e.fields.tcRef = 0 := by
  obtain ⟨t, hread, hrestored, htop⟩ := readResume_writeResume hp hlen
  obtain ⟨t', hread', _, hslots⟩ := h
  rw [hread, Option.some.injEq] at hread'
  rw [← hread'] at hslots
  obtain ⟨i, hi⟩ := List.mem_iff_getElem?.mp he
  have hlt : i < t.queueBuf.length := by
    rw [hrestored.length_eq]
    exact (List.getElem?_eq_some_iff.mp hi).1
  obtain ⟨d, hd⟩ : ∃ d, t.queueBuf[i]? = some d := ⟨_, List.getElem?_eq_getElem hlt⟩
  have hzero := hslots i d hd
  rw [htop, count_replicate_none, (hrestored.entry_eq i e d hi hd).1] at hzero
  exact UInt32.toNat_inj.mp hzero

/-- The round trip is complete exactly when every reference count in the file is zero. -/
theorem roundTrip_iff (hp : Started p) (hlen : p.queueBuf.length = s.queueBuf.length) :
    RoundTrip p s ↔ ∀ e ∈ s.queueBuf, e.fields.tcRef = 0 := by
  refine ⟨fun h e he => tcRef_eq_zero_of_roundTrip hp hlen h he, fun hzero => ?_⟩
  obtain ⟨t, hread, hrestored, htop⟩ := readResume_writeResume hp hlen
  refine ⟨t, hread, hrestored, fun i d hd => ?_⟩
  have hlt : i < s.queueBuf.length := by
    rw [← hrestored.length_eq]
    exact (List.getElem?_eq_some_iff.mp hd).1
  obtain ⟨e, he⟩ : ∃ e, s.queueBuf[i]? = some e := ⟨_, List.getElem?_eq_getElem hlt⟩
  rw [htop, count_replicate_none, (hrestored.entry_eq i e d he hd).1,
    hzero e (List.mem_of_getElem? he)]
  rfl

end File

/-! ## One entry, and two -/

/-- A map of one word, without a comparison log. -/
def wordResume : ResumeConfig where
  rating := ⟨64, word_mod, false, false⟩
  cmplogMode := 0

/-- A state with one entry. -/
def oneEntry (tcRef : UInt32) (mini : Option (Block wordResume.miniLen)) (fresh : ℕ) :
    ResumeState wordResume where
  virginBits := ⟨List.replicate 64 255, rfl⟩
  virginTmout := ⟨List.replicate 64 255, rfl⟩
  virginCrash := ⟨List.replicate 64 255, rfl⟩
  varBytes := ⟨List.replicate 64 0, rfl⟩
  queueBuf := [⟨1, { (default : SchedFields) with tcRef := tcRef }, mini⟩]
  topRated := (List.replicate 64 none).set 0 (if tcRef = 0 then none else some 0)
  schedule := .explore
  fixedSeed := false
  nFuzz := []
  scoreChanged := false
  queuedFavored := 0
  pendingFavored := 0
  smallestFavored := 0
  pendingNotFuzzed := fresh
  activeItems := fresh
  queuedVariable := 0
  totalBitmapSize := 0
  totalBitmapEntries := 0
  reinitTable := false

theorem started_oneEntry : Started (oneEntry 0 none 1) := by
  refine ⟨List.set_replicate_self, fun e he => ?_, rfl, rfl, rfl, rfl, rfl⟩
  rw [List.mem_singleton.mp he]

/-- A process that has read a queue of two. -/
def twoStarted : ResumeState wordResume :=
  { oneEntry 0 none 2 with queueBuf := [⟨1, default, none⟩, ⟨5, default, none⟩] }

/-- The process before it: one entry is fuzzed and favored, varies and has a kept trace, the other
one is disabled. -/
def twoSaved : ResumeState wordResume :=
  { oneEntry 0 none 0 with
    virginBits := ⟨254 :: List.replicate 63 255, rfl⟩
    varBytes := ⟨1 :: List.replicate 63 0, rfl⟩
    queueBuf :=
      [⟨1, { (default : SchedFields) with
          calFailed := 2, wasFuzzed := true, favored := true, varBehavior := true,
          bitmapSize := 300, execUs := 123456789012, nFuzzEntry := 7, ssSelectedCnt := 3 },
          some ⟨[1, 0, 0, 0, 0, 0, 0, 128], rfl⟩⟩,
        ⟨5, { (default : SchedFields) with disabled := true, depth := 2 }, none⟩] }

theorem started_twoStarted : Started twoStarted := by
  refine ⟨List.set_replicate_self, fun e he => ?_, rfl, rfl, rfl, rfl, rfl⟩
  obtain rfl | he := List.mem_cons.mp he
  · rfl
  · rw [List.mem_singleton.mp he]

/-- Entries that own nothing survive, with their kept traces. -/
theorem roundTrip_twoSaved : RoundTrip twoStarted twoSaved := by
  have hlen : twoStarted.queueBuf.length = twoSaved.queueBuf.length := rfl
  refine (roundTrip_iff started_twoStarted hlen).mpr fun e he => ?_
  simp only [twoSaved, List.mem_cons, List.not_mem_nil, or_false] at he
  obtain rfl | rfl := he <;> rfl

/-- An entry that owns the first index comes back with its count, but owns nothing. -/
theorem roundTrip_fails :
    ¬ RoundTrip (oneEntry 0 none 1) (oneEntry 1 (some ⟨[1, 0, 0, 0, 0, 0, 0, 0], rfl⟩) 0) := by
  intro h
  have hlen : (oneEntry 0 none 1).queueBuf.length =
      (oneEntry 1 (some ⟨[1, 0, 0, 0, 0, 0, 0, 0], rfl⟩) 0).queueBuf.length := rfl
  have hone : (1 : UInt32) = 0 :=
    tcRef_eq_zero_of_roundTrip started_oneEntry hlen h (List.mem_singleton_self _)
  exact absurd hone (by decide)

end ResumeState

end AflNv
