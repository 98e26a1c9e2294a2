import AflNv.CBase
import AflNv.Lib.Machine
import AflNv.Lib.SlotTable

/-!
# The cache of test cases

`queue_testcase_get`, `queue_testcase_store_mem`, `queue_testcase_retake` and
`queue_testcase_retake_mem` of `src/afl-fuzz-queue.c`.  The cache is a table of slots
that name queue entries; an entry in a slot owns a copy of its file.

Lengths are `u32` and the size of the cache is a `u64`, as in the source.  The
random numbers that an eviction draws come from the environment, one list for each
eviction; a call whose numbers run out is one that still draws.  Allocations
succeed, and files hold at least the bytes that are read.
-/

namespace AflNv

open AflNv.Lib

/-! ## The state -/

/-- The fields of a `queue_entry` that the cache uses. -/
structure CachedEntry where
  len : UInt32
  /-- `weight < 1.0`. -/
  belowAverage : Bool
  /-- `testcase_buf`; `none` is NULL. -/
  testcaseBuf : Option Bytes
  deriving DecidableEq

/-- The queue and the fields of `afl_state_t` that the cache uses. -/
structure TestcaseCache where
  queueBuf : List CachedEntry
  /-- The index of `queue_cur`. -/
  queueCur : Option ℕ
  maxCacheSize : UInt64
  maxCacheEntries : ℕ
  cacheSize : UInt64
  maxCacheCount : ℕ
  cacheCount : ℕ
  smallestFree : ℕ
  evictions : ℕ
  /-- The static `do_once`. -/
  doOnce : Bool
  /-- `q_testcase_cache`, by the index in the queue. -/
  cache : List (Option ℕ)
  deriving DecidableEq

namespace TestcaseCache

/-- The cache at the start of the fuzzing loop: as many empty slots as the
configuration allows. -/
def init (maxCacheSize : UInt64) (maxCacheEntries : ℕ) : TestcaseCache where
  queueBuf := []
  queueCur := none
  maxCacheSize := maxCacheSize
  maxCacheEntries := maxCacheEntries
  cacheSize := 0
  maxCacheCount := 0
  cacheCount := 0
  smallestFree := 0
  evictions := 0
  doOnce := false
  cache := List.replicate maxCacheEntries none

/-- The queue entry in a slot. -/
def slot (c : TestcaseCache) (tid : ℕ) : Option ℕ := SlotTable.slot c.cache tid

/-- Change a queue entry. -/
def setEntry (q : ℕ) (e : CachedEntry) (c : TestcaseCache) : TestcaseCache :=
  { c with queueBuf := c.queueBuf.set q e }

/-- `while (afl->q_testcase_cache[tid] != NULL) ++tid`. -/
def firstFree (c : TestcaseCache) (tid : ℕ) : ℕ := SlotTable.firstFree c.cache tid

/-- Put an entry with its buffer into a slot. -/
def register (q : ℕ) (e : CachedEntry) (buf : Bytes) (tid : ℕ) (c : TestcaseCache) :
    TestcaseCache :=
  let c := c.setEntry q { e with testcaseBuf := some buf }
  let c := { c with
    cache := c.cache.set tid (some q)
    cacheSize := c.cacheSize + e.len.toUInt64
    cacheCount := c.cacheCount + 1 }
  if tid ≥ c.maxCacheCount then { c with maxCacheCount := tid + 1 }
  else if tid = c.smallestFree then { c with smallestFree := tid + 1 }
  else c

/-! ## Loading -/

/-- There is no room for `len` more bytes, by size or by number. -/
def full (len : UInt32) (c : TestcaseCache) : Bool :=
  c.cacheSize + len.toUInt64 ≥ c.maxCacheSize && c.cacheCount > 1 ||
    c.cacheCount ≥ c.maxCacheEntries - 1

/-- The number of entries that is learned. -/
def learnedEntries (c : TestcaseCache) : ℕ :=
  if c.maxCacheCount > c.cacheCount then c.maxCacheCount + 1 else c.cacheCount + 1

/-- Learn the number of entries that fit, once. -/
def learn (len : UInt32) (c : TestcaseCache) : TestcaseCache :=
  if c.cacheSize + len.toUInt64 ≥ c.maxCacheSize ∧
      (c.cacheCount < c.maxCacheEntries ∧ c.maxCacheCount < c.maxCacheEntries) ∧
      c.doOnce = false then
    { c with
      maxCacheEntries := c.learnedEntries
      doOnce := true
      cache := SlotTable.resize c.cache (c.learnedEntries + 1) }
  else c

/-- `rand_below`, for a number that is drawn. -/
def randBelow (limit drawn : ℕ) : ℕ := if limit ≤ 1 then 0 else drawn % limit

/-- The slot holds an entry other than the current one. -/
def isVictim (c : TestcaseCache) (tid : ℕ) : Bool :=
  (c.slot tid).isSome && c.slot tid ≠ c.queueCur

/-- Draw until there is a victim. -/
def pickVictim (c : TestcaseCache) (draws : List ℕ) : Option ℕ :=
  (draws.map (randBelow c.maxCacheCount)).find? c.isVictim

/-- Drop the entry in a slot. -/
def evict (tid : ℕ) (c : TestcaseCache) : TestcaseCache :=
  match c.slot tid with
  | none => c
  | some q =>
    match c.queueBuf[q]? with
    | none => c
    | some e =>
      let c := c.setEntry q { e with testcaseBuf := none }
      { c with
        cacheSize := c.cacheSize - e.len.toUInt64
        cache := c.cache.set tid none
        cacheCount := c.cacheCount - 1
        evictions := c.evictions + 1
        smallestFree := min tid c.smallestFree }

/-- Evict entries until there is room; `tid` is the slot of the last one.  The
result is `none` while the loop still draws. -/
def makeRoom (len : UInt32) : List (List ℕ) → ℕ → TestcaseCache → Option ℕ × TestcaseCache
  | draws, tid, c =>
    if c.full len then
      let c := c.learn len
      match draws with
      | [] => (none, c)
      | d :: draws =>
        match c.pickVictim d with
        | none => (none, c)
        | some tid => makeRoom len draws tid (c.evict tid)
    else (some tid, c)

/-- `queue_testcase_get`; `file` is the content of the file, and `none` a call that
has not returned. -/
def queueTestcaseGet (q : ℕ) (file : Bytes) (draws : List (List ℕ)) (c : TestcaseCache) :
    Option Bytes × TestcaseCache :=
  match c.queueBuf[q]? with
  | none => (none, c)
  | some e =>
    match e.testcaseBuf with
    | some buf => (some buf, c)
    | none =>
      let buf := file.take e.len.toNat
      if e.belowAverage ∨ c.maxCacheSize = 0 then (some buf, c)
      else
        match makeRoom e.len draws c.maxCacheCount c with
        | (none, c) => (none, c)
        | (some tid, c) =>
          let tid := if tid ≥ c.maxCacheEntries then c.smallestFree else tid
          (some buf, c.register q e buf (c.firstFree tid))

/-- `queue_testcase_store_mem` leaves the entry alone. -/
def skipsStore (e : CachedEntry) (c : TestcaseCache) : Bool :=
  e.belowAverage || c.cacheSize + e.len.toUInt64 ≥ c.maxCacheSize ||
    c.cacheCount ≥ c.maxCacheEntries - 1

/-- `queue_testcase_store_mem`. -/
def queueTestcaseStoreMem (q : ℕ) (mem : Bytes) (c : TestcaseCache) : TestcaseCache :=
  match c.queueBuf[q]? with
  | none => c
  | some e =>
    if c.skipsStore e then c
    else
      let tid :=
        if c.maxCacheCount ≥ c.maxCacheEntries then c.smallestFree else c.maxCacheCount
      c.register q e (mem.take e.len.toNat) (c.firstFree tid)

/-! ## Retaking -/

/-- `queue_testcase_retake`, for the length that the entry has now. -/
def queueTestcaseRetake (q : ℕ) (oldLen : UInt32) (file : Bytes) (c : TestcaseCache) :
    TestcaseCache :=
  match c.queueBuf[q]? with
  | none => c
  | some e =>
    match e.testcaseBuf with
    | none => c
    | some buf =>
      let data := file.take e.len.toNat
      if e.len > oldLen ∨ e.len + 1024 < oldLen then
        { c.setEntry q { e with testcaseBuf := some data } with
          cacheSize := c.cacheSize + (e.len - oldLen).toUInt64 }
      else c.setEntry q { e with testcaseBuf := some (data ++ buf.drop e.len.toNat) }

/-- `queue_testcase_retake_mem`; `inPlace` says that `mem` is the cached buffer
itself. -/
def queueTestcaseRetakeMem (q : ℕ) (mem : Bytes) (inPlace : Bool) (oldLen : UInt32)
    (c : TestcaseCache) : TestcaseCache :=
  match c.queueBuf[q]? with
  | none => c
  | some e =>
    match e.testcaseBuf with
    | none => c
    | some buf =>
      if inPlace then c
      else
        let data := mem.take e.len.toNat
        if e.len + 1024 < oldLen then
          { c.setEntry q { e with testcaseBuf := some data } with
            cacheSize := c.cacheSize + (e.len - oldLen).toUInt64 }
        else c.setEntry q { e with testcaseBuf := some (data ++ buf.drop e.len.toNat) }

/-! ## Runs -/

/-- A call, or a change of the queue that concerns the cache. -/
inductive Event where
  | get (q : ℕ) (file : Bytes) (draws : List (List ℕ))
  | storeMem (q : ℕ) (mem : Bytes)
  /-- An entry gets another length, and its file is read again. -/
  | retake (q : ℕ) (len : UInt32) (file : Bytes)
  /-- An entry gets another length, and its buffer is replaced or, `inPlace`, was
  changed already. -/
  | retakeMem (q : ℕ) (len : UInt32) (mem : Bytes) (inPlace : Bool)
  | addToQueue (len : UInt32)
  | setWeight (q : ℕ) (belowAverage : Bool)
  | setQueueCur (q : Option ℕ)

/-- `q->len = len`. -/
def setLen (q : ℕ) (len : UInt32) (c : TestcaseCache) : TestcaseCache :=
  match c.queueBuf[q]? with
  | none => c
  | some e => c.setEntry q { e with len := len }

/-- Trimming changes the cached buffer itself. -/
def editBuf (q : ℕ) (data : Bytes) (c : TestcaseCache) : TestcaseCache :=
  match c.queueBuf[q]? with
  | none => c
  | some e =>
    c.setEntry q
      { e with testcaseBuf := e.testcaseBuf.map fun buf => data ++ buf.drop data.length }

/-- The length of an entry. -/
def lenOf (c : TestcaseCache) (q : ℕ) : UInt32 := ((c.queueBuf[q]?).map CachedEntry.len).getD 0

/-- The step function of a run; the output is what `queue_testcase_get` returns. -/
def step (c : TestcaseCache) : Event → Option Bytes × TestcaseCache
  | .get q file draws => c.queueTestcaseGet q file draws
  | .storeMem q mem => (none, c.queueTestcaseStoreMem q mem)
  | .retake q len file => (none, (c.setLen q len).queueTestcaseRetake q (c.lenOf q) file)
  | .retakeMem q len mem inPlace =>
    let d := c.setLen q len
    let d := if inPlace then d.editBuf q (mem.take len.toNat) else d
    (none, d.queueTestcaseRetakeMem q mem inPlace (c.lenOf q))
  | .addToQueue len => (none, { c with queueBuf := c.queueBuf ++ [⟨len, false, none⟩] })
  | .setWeight q belowAverage =>
    (none, match c.queueBuf[q]? with
      | none => c
      | some e => c.setEntry q { e with belowAverage := belowAverage })
  | .setQueueCur q => (none, { c with queueCur := q })

/-! ## The accounting -/

/-- The entry has a buffer. -/
def cachedAt (c : TestcaseCache) (q : ℕ) : Bool :=
  (c.queueBuf[q]?).any fun e => e.testcaseBuf.isSome

/-- The lengths of the entries with a buffer. -/
def cachedBytes (c : TestcaseCache) : ℕ :=
  (c.queueBuf.map fun e => if e.testcaseBuf.isSome then e.len.toNat else 0).sum

/-- The counters agree with the slots and with the queue. -/
structure Accounting (c : TestcaseCache) : Prop where
  count_eq : c.cacheCount = c.cache.countP Option.isSome
  mem_iff : ∀ q, some q ∈ c.cache ↔ c.cachedAt q = true
  once : ∀ q, c.cache.count (some q) ≤ 1
  size_eq : c.cacheSize.toNat = c.cachedBytes % 2 ^ 64

/-- The accounting, and where free slots are. -/
structure Inv (c : TestcaseCache) : Prop where
  count_eq : c.cacheCount = c.cache.countP Option.isSome
  /-- A cached entry has one slot, and any other none. -/
  slots_eq : ∀ q, c.cache.count (some q) = (c.cachedAt q).toNat
  size_eq : c.cacheSize.toNat = c.cachedBytes % 2 ^ 64
  entries_pos : 0 < c.maxCacheEntries
  capacity : c.maxCacheEntries ≤ c.cache.length
  maxCount_le : c.maxCacheCount ≤ c.cache.length
  beyond : ∀ i ≥ c.maxCacheCount, c.slot i = none
  below : ∀ i < c.smallestFree, (c.slot i).isSome = true

theorem Inv.accounting {c : TestcaseCache} (h : Inv c) : Accounting c := by
  refine ⟨h.count_eq, fun q => ?_, fun q => ?_, h.size_eq⟩
  · rw [← List.count_pos_iff, h.slots_eq]
    cases c.cachedAt q <;> simp
  · rw [h.slots_eq]
    exact Bool.toNat_le _

theorem inv_init (maxCacheSize : UInt64) {maxCacheEntries : ℕ} (h : 0 < maxCacheEntries) :
    Inv (init maxCacheSize maxCacheEntries) := by
  have hslot : ∀ i, (init maxCacheSize maxCacheEntries).slot i = none := by
    intro i
    rw [slot, init, SlotTable.slot, List.getD_eq_getElem?_getD, List.getElem?_replicate]
    split_ifs <;> rfl
  refine ⟨?_, fun q => ?_, rfl, h, ?_, Nat.zero_le _, fun i _ => hslot i, fun i hi => ?_⟩
  · rw [eq_comm]
    exact List.countP_eq_zero.mpr fun x hx => by simp [(List.mem_replicate.mp hx).2]
  · have hnone : (init maxCacheSize maxCacheEntries).cache.count (some q) = 0 :=
      List.count_eq_zero.mpr fun hx => absurd (List.mem_replicate.mp hx).2 (Option.some_ne_none q)
    rw [hnone]
    rfl
  · exact (List.length_replicate).ge
  · exact absurd hi (Nat.not_lt_zero i)

/-! ## Changing an entry -/

section Entry

variable {c : TestcaseCache} {q : ℕ} {e : CachedEntry} (he : c.queueBuf[q]? = some e)
include he

theorem cachedAt_of_getElem : c.cachedAt q = e.testcaseBuf.isSome := by
  rw [cachedAt, he]
  rfl

theorem lenOf_of_getElem : c.lenOf q = e.len := by
  rw [lenOf, he]
  rfl

theorem setEntry_getElem (e' : CachedEntry) : (c.setEntry q e').queueBuf[q]? = some e' :=
  List.getElem?_set_self (List.getElem?_eq_some_iff.mp he).1

theorem cachedAt_setEntry (e' : CachedEntry) (q' : ℕ) :
    (c.setEntry q e').cachedAt q' = if q = q' then e'.testcaseBuf.isSome else c.cachedAt q' := by
  split_ifs with hq
  · subst hq
    exact cachedAt_of_getElem (setEntry_getElem he e')
  · rw [cachedAt, cachedAt, setEntry, List.getElem?_set_ne hq]

theorem cachedBytes_setEntry (e' : CachedEntry) :
    (c.setEntry q e').cachedBytes + (if e.testcaseBuf.isSome then e.len.toNat else 0) =
      c.cachedBytes + if e'.testcaseBuf.isSome then e'.len.toNat else 0 :=
  SlotTable.sum_map_set_add _ he e'

/-- A change that keeps the buffer and the size of what is cached. -/
theorem Inv.setEntry (h : Inv c) {e' : CachedEntry}
    (hbuf : e'.testcaseBuf.isSome = e.testcaseBuf.isSome)
    (hlen : e.testcaseBuf.isSome = true → e'.len = e.len) : Inv (c.setEntry q e') := by
  refine ⟨h.count_eq, fun q' => ?_, ?_, h.entries_pos, h.capacity, h.maxCount_le, h.beyond,
    h.below⟩
  · rw [cachedAt_setEntry he]
    show c.cache.count (some q') = _
    rw [h.slots_eq]
    split_ifs with hq
    · rw [← hq, cachedAt_of_getElem he, hbuf]
    · rfl
  · have hbytes := cachedBytes_setEntry he e'
    have hsize := h.size_eq
    rw [hbuf] at hbytes
    show c.cacheSize.toNat = _
    cases hcached : e.testcaseBuf.isSome with
    | false =>
      rw [hcached] at hbytes
      simp only [Bool.false_eq_true, if_false, add_zero] at hbytes
      rw [hbytes, hsize]
    | true =>
      rw [hcached, hlen hcached] at hbytes
      have hsame : (c.setEntry q e').cachedBytes = c.cachedBytes := by omega
      rw [hsame, hsize]

end Entry

/-! ## Filling and emptying a slot -/

theorem register_cache (c : TestcaseCache) (q : ℕ) (e : CachedEntry) (buf : Bytes) (tid : ℕ) :
    (c.register q e buf tid).cache = c.cache.set tid (some q) := by
  simp only [register]
  split_ifs <;> rfl

/-- A free slot takes an entry that has none. -/
theorem Inv.register {c : TestcaseCache} (h : Inv c) {q : ℕ} {e : CachedEntry}
    (he : c.queueBuf[q]? = some e) (huncached : e.testcaseBuf = none) (buf : Bytes) {tid : ℕ}
    (htid : tid < c.cache.length) (hfree : c.slot tid = none) : Inv (c.register q e buf tid) := by
  have hslot : c.cache[tid]? = some none := by
    rw [← hfree]
    exact SlotTable.slot_of_lt htid
  have hset : ∀ i, SlotTable.slot (c.cache.set tid (some q)) i =
      if tid = i then some q else c.slot i := SlotTable.slot_set htid (some q)
  let d := { c.setEntry q { e with testcaseBuf := some buf } with
    cache := c.cache.set tid (some q)
    cacheSize := c.cacheSize + e.len.toUInt64
    cacheCount := c.cacheCount + 1 }
  have hcount : d.cacheCount = d.cache.countP Option.isSome := by
    have hadd := SlotTable.countP_set_add Option.isSome hslot (some q)
    have hcount := h.count_eq
    simp only [Option.isSome_none, Option.isSome_some, Bool.toNat_false, Bool.toNat_true] at hadd
    show c.cacheCount + 1 = (c.cache.set tid (some q)).countP Option.isSome
    omega
  have hslots : ∀ q', d.cache.count (some q') = (d.cachedAt q').toNat := by
    intro q'
    have hadd := SlotTable.count_set_add hslot (some q) (some q')
    have hold := h.slots_eq q'
    have hcached : d.cachedAt q' = if q = q' then true else c.cachedAt q' :=
      cachedAt_setEntry he _ q'
    have hq : c.cachedAt q = false := by
      rw [cachedAt_of_getElem he, huncached]
      rfl
    simp only [reduceCtorEq, if_false, add_zero, Option.some.injEq] at hadd
    rw [hcached]
    show (c.cache.set tid (some q)).count (some q') = _
    rw [hadd, hold]
    split_ifs with hqq
    · rw [← hqq, hq]
      rfl
    · rfl
  have hsize : d.cacheSize.toNat = d.cachedBytes % 2 ^ 64 := by
    have hbytes : d.cachedBytes + _ = c.cachedBytes + _ := cachedBytes_setEntry he
      { e with testcaseBuf := some buf }
    have hold := h.size_eq
    simp only [huncached, Option.isSome_none, Option.isSome_some, Bool.false_eq_true, if_false,
      if_true, add_zero] at hbytes
    show (c.cacheSize + e.len.toUInt64).toNat = _
    rw [hbytes, UInt64.toNat_add, UInt32.toNat_toUInt64, hold]
    omega
  have hlen : d.cache.length = c.cache.length := List.length_set
  have hcapacity : d.maxCacheEntries ≤ d.cache.length := h.capacity.trans hlen.ge
  have hmax : d.maxCacheCount ≤ d.cache.length := h.maxCount_le.trans hlen.ge
  have hbelow : ∀ i < c.smallestFree, (d.slot i).isSome = true := by
    intro i hi
    show (SlotTable.slot (c.cache.set tid (some q)) i).isSome = true
    rw [hset]
    split_ifs
    · rfl
    · exact h.below i hi
  have hbeyond : ∀ i ≥ c.maxCacheCount, i ≠ tid → d.slot i = none := by
    intro i hi hne
    show SlotTable.slot (c.cache.set tid (some q)) i = none
    rw [hset, if_neg (Ne.symm hne)]
    exact h.beyond i hi
  have hd : c.register q e buf tid =
      if tid ≥ d.maxCacheCount then { d with maxCacheCount := tid + 1 }
      else if tid = d.smallestFree then { d with smallestFree := tid + 1 }
      else d := rfl
  rw [hd]
  split_ifs with hnew hsmallest
  · have hnew' : c.maxCacheCount ≤ tid := hnew
    refine ⟨hcount, hslots, hsize, h.entries_pos, hcapacity, ?_, fun i hi => ?_, hbelow⟩
    · exact (Nat.succ_le_of_lt htid).trans hlen.ge
    · have hi' : tid + 1 ≤ i := hi
      exact hbeyond i (by omega) (by omega)
  · refine ⟨hcount, hslots, hsize, h.entries_pos, hcapacity, hmax, fun i hi => ?_,
      fun i hi => ?_⟩
    · have hi' : c.maxCacheCount ≤ i := hi
      have hnew' : ¬ c.maxCacheCount ≤ tid := hnew
      exact hbeyond i hi (by omega)
    · have hi' : i < tid + 1 := hi
      have hsmallest' : tid = c.smallestFree := hsmallest
      rcases Nat.lt_succ_iff_lt_or_eq.mp hi' with hlt | rfl
      · exact hbelow i (by omega)
      · show (SlotTable.slot (c.cache.set i (some q)) i).isSome = true
        rw [hset, if_pos rfl]
        rfl
  · refine ⟨hcount, hslots, hsize, h.entries_pos, hcapacity, hmax, fun i hi => ?_, hbelow⟩
    have hi' : c.maxCacheCount ≤ i := hi
    have hnew' : ¬ c.maxCacheCount ≤ tid := hnew
    exact hbeyond i hi (by omega)

/-- The entry in a slot is cached. -/
theorem Inv.getElem_of_slot {c : TestcaseCache} (h : Inv c) {tid q : ℕ}
    (hslot : c.slot tid = some q) :
    ∃ e, c.queueBuf[q]? = some e ∧ e.testcaseBuf.isSome = true := by
  have hmem : some q ∈ c.cache := List.mem_of_getElem? (SlotTable.slot_eq_some.mp hslot)
  have hcached := (h.accounting.mem_iff q).mp hmem
  rw [cachedAt] at hcached
  exact (Option.any_eq_true _ _).mp hcached

theorem Inv.evict {c : TestcaseCache} (h : Inv c) (tid : ℕ) : Inv (c.evict tid) := by
  rw [TestcaseCache.evict]
  cases hslot : c.slot tid with
  | none => exact h
  | some q =>
    obtain ⟨e, he, hcached⟩ := h.getElem_of_slot hslot
    have hget := SlotTable.slot_eq_some.mp hslot
    have htid : tid < c.cache.length := (List.getElem?_eq_some_iff.mp hget).1
    have hset : ∀ i, SlotTable.slot (c.cache.set tid none) i =
        if tid = i then none else c.slot i := SlotTable.slot_set htid none
    simp only [he]
    refine ⟨?_, fun q' => ?_, ?_, h.entries_pos, ?_, ?_, fun i hi => ?_, fun i hi => ?_⟩
    · have hadd := SlotTable.countP_set_add Option.isSome hget none
      have hcount := h.count_eq
      simp only [Option.isSome_none, Option.isSome_some, Bool.toNat_false, Bool.toNat_true] at hadd
      show c.cacheCount - 1 = (c.cache.set tid none).countP Option.isSome
      omega
    · have hadd := SlotTable.count_set_add hget none (some q')
      have hold := h.slots_eq q'
      have hcachedAt := cachedAt_setEntry he { e with testcaseBuf := none } q'
      have hq : c.cachedAt q = true := (cachedAt_of_getElem he).trans hcached
      simp only [reduceCtorEq, if_false, add_zero, Option.some.injEq] at hadd
      show (c.cache.set tid none).count (some q') =
        ((c.setEntry q { e with testcaseBuf := none }).cachedAt q').toNat
      rw [hcachedAt]
      split_ifs at hadd ⊢ with hqq
      · rw [← hqq, hq, Bool.toNat_true] at hold
        rw [← hqq] at hadd
        rw [← hqq, Option.isSome_none, Bool.toNat_false]
        omega
      · omega
    · have hbytes := cachedBytes_setEntry he { e with testcaseBuf := none }
      have hold := h.size_eq
      simp only [hcached, Option.isSome_none, Bool.false_eq_true, if_false, if_true,
        add_zero] at hbytes
      have hle : e.len.toNat < 2 ^ 32 := e.len.toNat_lt
      show (c.cacheSize - e.len.toUInt64).toNat =
        (c.setEntry q { e with testcaseBuf := none }).cachedBytes % 2 ^ 64
      rw [UInt64.toNat_sub, UInt32.toNat_toUInt64, hold]
      omega
    · exact h.capacity.trans (List.length_set).ge
    · exact h.maxCount_le.trans (List.length_set).ge
    · show SlotTable.slot (c.cache.set tid none) i = none
      rw [hset]
      split_ifs
      · rfl
      · exact h.beyond i hi
    · have hi' : i < min tid c.smallestFree := hi
      show (SlotTable.slot (c.cache.set tid none) i).isSome = true
      rw [hset, if_neg (by omega)]
      exact h.below i (by omega)

theorem Inv.learn {c : TestcaseCache} (h : Inv c) (len : UInt32) : Inv (c.learn len) := by
  rw [TestcaseCache.learn]
  have hmax : c.maxCacheCount < c.learnedEntries := by
    rw [learnedEntries]
    split_ifs <;> omega
  generalize c.learnedEntries = m at hmax
  split_ifs with hlearn
  · have hempty : ∀ j ≥ m + 1, SlotTable.slot c.cache j = none :=
      fun j hj => h.beyond j (by omega)
    have hlen : m + 1 ≤ (SlotTable.resize c.cache (m + 1)).length := by
      rw [SlotTable.resize, List.length_append, List.length_take, List.length_replicate]
      omega
    have hpos : 0 < m := by omega
    have hcapacity : m ≤ (SlotTable.resize c.cache (m + 1)).length := by omega
    have hmax_le : c.maxCacheCount ≤ (SlotTable.resize c.cache (m + 1)).length := by omega
    refine ⟨?_, fun q => ?_, h.size_eq, hpos, hcapacity, hmax_le, fun i hi => ?_,
      fun i hi => ?_⟩
    · show c.cacheCount = (SlotTable.resize c.cache (m + 1)).countP Option.isSome
      rw [SlotTable.countP_resize hempty _ rfl]
      exact h.count_eq
    · show (SlotTable.resize c.cache (m + 1)).count (some q) = _
      rw [List.count, SlotTable.countP_resize hempty _ rfl]
      exact h.slots_eq q
    · show SlotTable.slot (SlotTable.resize c.cache (m + 1)) i = none
      rw [SlotTable.slot_resize hempty]
      exact h.beyond i hi
    · show (SlotTable.slot (SlotTable.resize c.cache (m + 1)) i).isSome = true
      rw [SlotTable.slot_resize hempty]
      exact h.below i hi
  · exact h

/-! ## The calls -/

/-- Evicting touches no entry that is not cached. -/
theorem evict_uncached {c : TestcaseCache} (h : Inv c) {q : ℕ} {e : CachedEntry}
    (he : c.queueBuf[q]? = some e) (huncached : e.testcaseBuf = none) (tid : ℕ) :
    (c.evict tid).queueBuf[q]? = some e := by
  rw [evict]
  cases hslot : c.slot tid with
  | none => exact he
  | some q' =>
    obtain ⟨e', he', hcached⟩ := h.getElem_of_slot hslot
    simp only [he']
    show (c.queueBuf.set q' { e' with testcaseBuf := none })[q]? = some e
    rw [List.getElem?_set_ne, he]
    rintro rfl
    rw [he, Option.some.injEq] at he'
    rw [← he', huncached] at hcached
    exact Bool.noConfusion hcached

theorem learn_queueBuf (c : TestcaseCache) (len : UInt32) :
    (c.learn len).queueBuf = c.queueBuf := by
  rw [learn]
  split_ifs <;> rfl

theorem evict_slot {c : TestcaseCache} (h : Inv c) {tid : ℕ}
    (hslot : (c.slot tid).isSome = true) :
    tid < (c.evict tid).cache.length ∧ (c.evict tid).slot tid = none := by
  obtain ⟨q, hq⟩ := Option.isSome_iff_exists.mp hslot
  obtain ⟨e, he, -⟩ := h.getElem_of_slot hq
  have hlt : tid < c.cache.length := SlotTable.lt_length_of_slot hslot
  simp only [evict, hq, he]
  refine ⟨hlt.trans_le (List.length_set).ge, ?_⟩
  show SlotTable.slot (c.cache.set tid none) tid = none
  rw [SlotTable.slot_set hlt, if_pos rfl]

/-- Making room keeps the accounting.  When it ends there is room, and `tid` is free
or behind every entry. -/
theorem Inv.makeRoom {c : TestcaseCache} (h : Inv c) (len : UInt32) {q : ℕ} {e : CachedEntry}
    (he : c.queueBuf[q]? = some e) (huncached : e.testcaseBuf = none)
    (draws : List (List ℕ)) {tid : ℕ} (htid : c.slot tid = none) (htid_le : tid ≤ c.cache.length) :
    let r := TestcaseCache.makeRoom len draws tid c
    Inv r.2 ∧ r.2.queueBuf[q]? = some e ∧ ∀ tid' ∈ r.1,
      r.2.full len = false ∧ r.2.slot tid' = none ∧ tid' ≤ r.2.cache.length := by
  induction draws generalizing c tid with
  | nil =>
    rw [TestcaseCache.makeRoom]
    split_ifs with hfull
    · refine ⟨h.learn len, ?_, fun tid' ht => absurd ht (Option.not_mem_none _)⟩
      rw [learn_queueBuf]
      exact he
    · refine ⟨h, he, fun tid' ht => ?_⟩
      obtain rfl := Option.some.inj ht
      exact ⟨by simpa using hfull, htid, htid_le⟩
  | cons d draws ih =>
    rw [TestcaseCache.makeRoom]
    split_ifs with hfull
    · have hl := h.learn len
      have hle : (c.learn len).queueBuf[q]? = some e := by
        rw [learn_queueBuf]
        exact he
      cases hpick : (c.learn len).pickVictim d with
      | none =>
        simp only [hpick]
        exact ⟨hl, hle, fun tid' ht => absurd ht (Option.not_mem_none _)⟩
      | some t =>
        simp only [hpick]
        have hvictim : ((c.learn len).slot t).isSome = true := by
          have hv := List.find?_some hpick
          rw [isVictim, Bool.and_eq_true] at hv
          exact hv.1
        obtain ⟨hlt, hfree⟩ := evict_slot hl hvictim
        exact ih (hl.evict t) (evict_uncached hl hle huncached t) hfree hlt.le
    · refine ⟨h, he, fun tid' ht => ?_⟩
      obtain rfl := Option.some.inj ht
      exact ⟨by simpa using hfull, htid, htid_le⟩

/-- The slot that the search comes to is free, from the smallest free one or from
`tid`. -/
theorem Inv.firstFree {c : TestcaseCache} (h : Inv c) {tid : ℕ}
    (hroom : c.cacheCount < c.maxCacheEntries - 1) (search : Prop) [Decidable search]
    (htid : ¬ search → tid < c.cache.length ∧ c.slot tid = none) :
    let t := c.firstFree (if search then c.smallestFree else tid)
    t < c.cache.length ∧ c.slot t = none := by
  dsimp only
  split_ifs with hsearch
  · have hcount := h.count_eq
    have hcapacity := h.capacity
    obtain ⟨j, hj, hnone⟩ := SlotTable.exists_slot_none (t := c.cache) (n := c.maxCacheEntries)
      hcapacity (by omega)
    have hge : c.smallestFree ≤ j := by
      by_contra hlt
      have hsome : (SlotTable.slot c.cache j).isSome = true := h.below j (by omega)
      rw [hnone] at hsome
      exact Bool.noConfusion hsome
    obtain ⟨-, hle, hfree⟩ := SlotTable.firstFree_spec hge (by omega) hnone
    exact ⟨hle.trans_lt (by omega), hfree⟩
  · obtain ⟨hlt, hfree⟩ := htid hsearch
    obtain ⟨-, hle, hfree'⟩ := SlotTable.firstFree_spec (Nat.le_refl tid) hlt hfree
    exact ⟨hle.trans_lt hlt, hfree'⟩

theorem Inv.get {c : TestcaseCache} (h : Inv c) (q : ℕ) (file : Bytes)
    (draws : List (List ℕ)) : Inv (c.queueTestcaseGet q file draws).2 := by
  rw [queueTestcaseGet]
  cases he : c.queueBuf[q]? with
  | none => exact h
  | some e =>
    cases hbuf : e.testcaseBuf with
    | some buf =>
      simp only [hbuf]
      exact h
    | none =>
      simp only [hbuf]
      split_ifs with hskip
      · exact h
      · have hroom := h.makeRoom e.len he hbuf draws
          (h.beyond c.maxCacheCount (Nat.le_refl _)) h.maxCount_le
        generalize TestcaseCache.makeRoom e.len draws c.maxCacheCount c = r at hroom ⊢
        obtain ⟨tid, d⟩ := r
        obtain ⟨hd, hde, htid⟩ := hroom
        cases tid with
        | none => exact hd
        | some tid =>
          obtain ⟨hfull, hfree, hle⟩ := htid tid rfl
          have hcount : d.cacheCount < d.maxCacheEntries - 1 := by
            simp only [full, Bool.or_eq_false_iff, decide_eq_false_iff_not] at hfull
            omega
          have hcapacity : d.maxCacheEntries ≤ d.cache.length := hd.capacity
          have hstart : ¬ tid ≥ d.maxCacheEntries →
              tid < d.cache.length ∧ d.slot tid = none := fun hsmall => ⟨by omega, hfree⟩
          obtain ⟨hlt, hslot⟩ := hd.firstFree hcount (tid ≥ d.maxCacheEntries) hstart
          exact hd.register hde hbuf _ hlt hslot

/-- The slot in which an entry is stored is free. -/
theorem Inv.storeSlot {c : TestcaseCache} (h : Inv c) {e : CachedEntry}
    (hroom : c.skipsStore e = false) :
    let t := c.firstFree
      (if c.maxCacheCount ≥ c.maxCacheEntries then c.smallestFree else c.maxCacheCount)
    t < c.cache.length ∧ c.slot t = none := by
  have hcount : c.cacheCount < c.maxCacheEntries - 1 := by
    rw [skipsStore, Bool.or_eq_false_iff, decide_eq_false_iff_not] at hroom
    omega
  have hcapacity := h.capacity
  exact h.firstFree hcount (c.maxCacheCount ≥ c.maxCacheEntries)
    fun hsmall => ⟨by omega, h.beyond _ (Nat.le_refl _)⟩

theorem Inv.storeMem {c : TestcaseCache} (h : Inv c) {q : ℕ} (mem : Bytes)
    (huncached : c.cachedAt q = true → ∀ e ∈ c.queueBuf[q]?, c.skipsStore e = true) :
    Inv (c.queueTestcaseStoreMem q mem) := by
  rw [queueTestcaseStoreMem]
  cases he : c.queueBuf[q]? with
  | none => exact h
  | some e =>
    cases hskip : c.skipsStore e with
    | true =>
      simp only [hskip, if_true]
      exact h
    | false =>
      simp only [hskip, Bool.false_eq_true, if_false]
      have hbuf : e.testcaseBuf = none := by
        by_contra hcached
        have hsome : c.cachedAt q = true :=
          (cachedAt_of_getElem he).trans (Option.isSome_iff_ne_none.mpr hcached)
        rw [huncached hsome e he] at hskip
        exact Bool.noConfusion hskip
      obtain ⟨hlt, hslot⟩ := h.storeSlot hskip
      exact h.register he hbuf _ hlt hslot

/-- A cached entry that is stored again gets a second slot. -/
theorem Inv.storeMem_twice {c : TestcaseCache} (h : Inv c) {q : ℕ} {mem : Bytes}
    (hcached : c.cachedAt q = true) (ha : Accounting (c.queueTestcaseStoreMem q mem)) :
    ∀ e ∈ c.queueBuf[q]?, c.skipsStore e = true := by
  intro e he
  by_contra hroom
  have hroom' : c.skipsStore e = false := by simpa using hroom
  obtain ⟨hlt, hfree⟩ := h.storeSlot hroom'
  have honce := ha.once q
  have hslot := SlotTable.slot_of_lt hlt
  rw [show SlotTable.slot c.cache _ = none from hfree] at hslot
  have hadd := SlotTable.count_set_add hslot (some q) (some q)
  have hone := h.slots_eq q
  rw [hcached, Bool.toNat_true] at hone
  have hcache : (c.queueTestcaseStoreMem q mem).cache = c.cache.set (c.firstFree
      (if c.maxCacheCount ≥ c.maxCacheEntries then c.smallestFree else c.maxCacheCount))
        (some q) := by
    rw [Option.mem_def] at he
    simp only [queueTestcaseStoreMem, he, hroom', Bool.false_eq_true, if_false]
    exact register_cache _ _ _ _ _
  rw [hcache] at honce
  simp only [reduceCtorEq, if_false, if_true] at hadd
  omega

/-! ## Retaking a cached entry -/

section Retake

variable {c : TestcaseCache} {q : ℕ} {e : CachedEntry} (he : c.queueBuf[q]? = some e)
include he

theorem setLen_eq (len : UInt32) : c.setLen q len = c.setEntry q { e with len := len } := by
  rw [setLen, he]

theorem retake_eq {buf : Bytes} (hbuf : e.testcaseBuf = some buf) (len : UInt32)
    (file : Bytes) :
    ∃ buf', (c.setLen q len).queueTestcaseRetake q (c.lenOf q) file =
      { c.setEntry q { e with len := len, testcaseBuf := some buf' } with
        cacheSize := if len > e.len ∨ len + 1024 < e.len then
          c.cacheSize + (len - e.len).toUInt64 else c.cacheSize } := by
  rw [setLen_eq he, queueTestcaseRetake, setEntry_getElem he, lenOf_of_getElem he]
  simp only [hbuf]
  split_ifs with hrealloc
  · refine ⟨file.take len.toNat, ?_⟩
    simp only [setEntry, List.set_set]
  · refine ⟨file.take len.toNat ++ buf.drop len.toNat, ?_⟩
    simp only [setEntry, List.set_set]

theorem retakeMem_eq {buf : Bytes} (hbuf : e.testcaseBuf = some buf) (len : UInt32)
    (mem : Bytes) (inPlace : Bool) :
    ∃ buf', (step c (.retakeMem q len mem inPlace)).2 =
      { c.setEntry q { e with len := len, testcaseBuf := some buf' } with
        cacheSize := if inPlace = false ∧ len + 1024 < e.len then
          c.cacheSize + (len - e.len).toUInt64 else c.cacheSize } := by
  obtain ⟨oldLen, belowAverage, testcaseBuf⟩ := e
  obtain rfl : testcaseBuf = some buf := hbuf
  have hlen := setEntry_getElem he ⟨len, belowAverage, some buf⟩
  rw [step, setLen_eq he, lenOf_of_getElem he]
  cases inPlace with
  | true =>
    have hedit := setEntry_getElem hlen
      ⟨len, belowAverage, some (mem.take len.toNat ++ buf.drop (mem.take len.toNat).length)⟩
    refine ⟨mem.take len.toNat ++ buf.drop (mem.take len.toNat).length, ?_⟩
    simp only [if_true, editBuf, hlen, Option.map_some, queueTestcaseRetakeMem, hedit]
    simp only [setEntry, List.set_set, Bool.true_eq_false, false_and, if_false]
  | false =>
    simp only [Bool.false_eq_true, if_false, queueTestcaseRetakeMem, hlen, true_and]
    split_ifs with hrealloc
    · refine ⟨mem.take len.toNat, ?_⟩
      simp only [setEntry, List.set_set]
    · refine ⟨mem.take len.toNat ++ buf.drop len.toNat, ?_⟩
      simp only [setEntry, List.set_set]

/-- A cached entry with another length needs another size, and nothing else. -/
theorem Inv.resized (h : Inv c) {buf : Bytes} (hbuf : e.testcaseBuf = some buf) (len : UInt32)
    (buf' : Bytes) (size : UInt64) :
    let d := { c.setEntry q { e with len := len, testcaseBuf := some buf' } with
      cacheSize := size }
    (Accounting d → (size.toNat + e.len.toNat) % 2 ^ 64 =
        (c.cacheSize.toNat + len.toNat) % 2 ^ 64) ∧
      ((size.toNat + e.len.toNat) % 2 ^ 64 = (c.cacheSize.toNat + len.toNat) % 2 ^ 64 →
        Inv d) := by
  intro d
  have hbytes : d.cachedBytes + _ = c.cachedBytes + _ :=
    cachedBytes_setEntry he { e with len := len, testcaseBuf := some buf' }
  have hsize := h.size_eq
  simp only [hbuf, Option.isSome_some, if_true] at hbytes
  refine ⟨fun ha => ?_, fun heq => ?_⟩
  · have hnew : size.toNat = d.cachedBytes % 2 ^ 64 := ha.size_eq
    omega
  · refine ⟨h.count_eq, fun q' => ?_, ?_, h.entries_pos, h.capacity, h.maxCount_le, h.beyond,
      h.below⟩
    · have hcached := cachedAt_setEntry he { e with len := len, testcaseBuf := some buf' } q'
      show c.cache.count (some q') = ((c.setEntry q _).cachedAt q').toNat
      rw [hcached, h.slots_eq]
      split_ifs with hq
      · rw [← hq, cachedAt_of_getElem he, hbuf]
        rfl
      · rfl
    · have hlt : size.toNat < 2 ^ 64 := size.toNat_lt
      show size.toNat = d.cachedBytes % 2 ^ 64
      omega

end Retake

/-- The difference of the lengths, as the code adds it, is the right one only when the
entry did not get shorter. -/
theorem add_diff_iff (size : UInt64) (len oldLen : UInt32) :
    ((size + (len - oldLen).toUInt64).toNat + oldLen.toNat) % 2 ^ 64 =
        (size.toNat + len.toNat) % 2 ^ 64 ↔ oldLen ≤ len := by
  have hlen := len.toNat_lt
  have hold := oldLen.toNat_lt
  rw [UInt64.toNat_add, UInt32.toNat_toUInt64, UInt32.toNat_sub, UInt32.le_iff_toNat_le]
  omega

theorem same_size_iff (size : UInt64) (len oldLen : UInt32) :
    (size.toNat + oldLen.toNat) % 2 ^ 64 = (size.toNat + len.toNat) % 2 ^ 64 ↔ len = oldLen := by
  have hlen := len.toNat_lt
  have hold := oldLen.toNat_lt
  rw [← UInt32.toNat_inj]
  omega

/-! ## The accounting of a run -/

/-- The events that keep the accounting: a stored entry is not cached yet, or there is
no room for it; an entry that is read again got no shorter, and one that is replaced
in memory kept its length, unless it is not cached. -/
def KeepsAccounting (c : TestcaseCache) : Event → Prop
  | .storeMem q _ => c.cachedAt q = true → ∀ e ∈ c.queueBuf[q]?, c.skipsStore e = true
  | .retake q len _ => c.cachedAt q = true → c.lenOf q ≤ len
  -- The second case is one in which `len + 1024` wraps around.
  | .retakeMem q len _ inPlace => c.cachedAt q = true → len = c.lenOf q ∨
      (inPlace = false ∧ len + 1024 < c.lenOf q) ∧ c.lenOf q ≤ len
  | .get .. | .addToQueue _ | .setWeight .. | .setQueueCur _ => True

instance decidable_keepsAccounting (c : TestcaseCache) :
    (ev : Event) → Decidable (KeepsAccounting c ev)
  | .storeMem q _ => inferInstanceAs
      (Decidable (c.cachedAt q = true → ∀ e ∈ c.queueBuf[q]?, c.skipsStore e = true))
  | .retake q len _ => inferInstanceAs (Decidable (c.cachedAt q = true → c.lenOf q ≤ len))
  | .retakeMem q len _ inPlace => inferInstanceAs (Decidable (c.cachedAt q = true →
      len = c.lenOf q ∨ (inPlace = false ∧ len + 1024 < c.lenOf q) ∧ c.lenOf q ≤ len))
  | .get .. | .addToQueue _ | .setWeight .. | .setQueueCur _ => .isTrue trivial

theorem retake_of_uncached {c : TestcaseCache} {q : ℕ} {e : CachedEntry}
    (he : c.queueBuf[q]? = some e) (hbuf : e.testcaseBuf = none) (len : UInt32) (file : Bytes) :
    (step c (.retake q len file)).2 = c.setEntry q { e with len := len } := by
  rw [step, setLen_eq he, queueTestcaseRetake, setEntry_getElem he]
  simp only [hbuf]

theorem retakeMem_of_uncached {c : TestcaseCache} {q : ℕ} {e : CachedEntry}
    (he : c.queueBuf[q]? = some e) (hbuf : e.testcaseBuf = none) (len : UInt32) (mem : Bytes)
    (inPlace : Bool) :
    (step c (.retakeMem q len mem inPlace)).2 = c.setEntry q { e with len := len } := by
  obtain ⟨oldLen, belowAverage, testcaseBuf⟩ := e
  obtain rfl : testcaseBuf = none := hbuf
  have hlen := setEntry_getElem he ⟨len, belowAverage, none⟩
  rw [step, setLen_eq he]
  cases inPlace with
  | true =>
    have hedit := setEntry_getElem hlen ⟨len, belowAverage, none⟩
    simp only [if_true, editBuf, hlen, Option.map_none, queueTestcaseRetakeMem, hedit]
    simp only [setEntry, List.set_set]
  | false => simp only [Bool.false_eq_true, if_false, queueTestcaseRetakeMem, hlen]

/-- What an event has to meet, for an entry in the queue. -/
theorem step_retake_iff {c : TestcaseCache} (h : Inv c) (q : ℕ) (len : UInt32) (file : Bytes) :
    (KeepsAccounting c (.retake q len file) → Inv (step c (.retake q len file)).2) ∧
      (Accounting (step c (.retake q len file)).2 → KeepsAccounting c (.retake q len file)) := by
  cases he : c.queueBuf[q]? with
  | none =>
    have hsame : (step c (.retake q len file)).2 = c := by
      rw [step, setLen, he]
      simp only [queueTestcaseRetake, he]
    have huncached : c.cachedAt q = false := by
      rw [cachedAt, he]
      rfl
    rw [hsame]
    refine ⟨fun _ => h, fun _ hcached => ?_⟩
    rw [huncached] at hcached
    exact Bool.noConfusion hcached
  | some e =>
    have hcachedAt := cachedAt_of_getElem he
    cases hbuf : e.testcaseBuf with
    | none =>
      rw [retake_of_uncached he hbuf]
      refine ⟨fun _ => h.setEntry he rfl fun hc => ?_, fun _ hcached => ?_⟩
      · rw [hbuf] at hc
        exact Bool.noConfusion hc
      · rw [hcachedAt, hbuf] at hcached
        exact Bool.noConfusion hcached
    | some buf =>
      obtain ⟨buf', hretake⟩ := retake_eq he hbuf len file
      have hkeeps : KeepsAccounting c (.retake q len file) ↔ e.len ≤ len := by
        rw [KeepsAccounting, lenOf_of_getElem he, hcachedAt, hbuf]
        exact ⟨fun hle => hle rfl, fun hle _ => hle⟩
      rw [hkeeps, step, hretake]
      split_ifs with hrealloc
      · have hresized := h.resized he hbuf len buf' (c.cacheSize + (len - e.len).toUInt64)
        rw [add_diff_iff] at hresized
        exact ⟨hresized.2, hresized.1⟩
      · rw [not_or] at hrealloc
        have hresized := h.resized he hbuf len buf' c.cacheSize
        rw [same_size_iff] at hresized
        refine ⟨fun hle => hresized.2 ?_, fun ha => ?_⟩
        swap
        · rw [hresized.1 ha, UInt32.le_iff_toNat_le]
        have hnot := hrealloc.1
        rw [gt_iff_lt, UInt32.lt_iff_toNat_lt] at hnot
        rw [UInt32.le_iff_toNat_le] at hle
        exact UInt32.toNat_inj.mp (by omega)

theorem step_retakeMem_iff {c : TestcaseCache} (h : Inv c) (q : ℕ) (len : UInt32) (mem : Bytes)
    (inPlace : Bool) :
    (KeepsAccounting c (.retakeMem q len mem inPlace) →
        Inv (step c (.retakeMem q len mem inPlace)).2) ∧
      (Accounting (step c (.retakeMem q len mem inPlace)).2 →
        KeepsAccounting c (.retakeMem q len mem inPlace)) := by
  cases he : c.queueBuf[q]? with
  | none =>
    have hsame : (step c (.retakeMem q len mem inPlace)).2 = c := by
      rw [step, setLen, he]
      cases inPlace <;> simp [editBuf, queueTestcaseRetakeMem, he]
    have huncached : c.cachedAt q = false := by
      rw [cachedAt, he]
      rfl
    rw [hsame]
    refine ⟨fun _ => h, fun _ hcached => ?_⟩
    rw [huncached] at hcached
    exact Bool.noConfusion hcached
  | some e =>
    have hcachedAt := cachedAt_of_getElem he
    cases hbuf : e.testcaseBuf with
    | none =>
      rw [retakeMem_of_uncached he hbuf]
      refine ⟨fun _ => h.setEntry he rfl fun hc => ?_, fun _ hcached => ?_⟩
      · rw [hbuf] at hc
        exact Bool.noConfusion hc
      · rw [hcachedAt, hbuf] at hcached
        exact Bool.noConfusion hcached
    | some buf =>
      obtain ⟨buf', hretake⟩ := retakeMem_eq he hbuf len mem inPlace
      have hkeeps : KeepsAccounting c (.retakeMem q len mem inPlace) ↔ len = e.len ∨
          (inPlace = false ∧ len + 1024 < e.len) ∧ e.len ≤ len := by
        rw [KeepsAccounting, lenOf_of_getElem he, hcachedAt, hbuf]
        exact ⟨fun hk => hk rfl, fun hk _ => hk⟩
      rw [hkeeps, hretake]
      split_ifs with hrealloc
      · have hresized := h.resized he hbuf len buf' (c.cacheSize + (len - e.len).toUInt64)
        rw [add_diff_iff] at hresized
        refine ⟨fun hk => hresized.2 ?_, fun ha => .inr ⟨hrealloc, hresized.1 ha⟩⟩
        rcases hk with heq | ⟨-, hle⟩
        · rw [heq, UInt32.le_iff_toNat_le]
        · exact hle
      · have hresized := h.resized he hbuf len buf' c.cacheSize
        rw [same_size_iff] at hresized
        exact ⟨fun hk => hresized.2 (hk.resolve_right fun hr => hrealloc hr.1),
          fun ha => .inl (hresized.1 ha)⟩

/-- An event keeps the invariant when it meets the condition, and breaks the accounting
when it does not. -/
theorem step_inv {c : TestcaseCache} (h : Inv c) (ev : Event) :
    (KeepsAccounting c ev → Inv (step c ev).2) ∧
      (Accounting (step c ev).2 → KeepsAccounting c ev) := by
  cases ev with
  | get q file draws => exact ⟨fun _ => h.get q file draws, fun _ => trivial⟩
  | storeMem q mem => exact ⟨h.storeMem mem, fun ha hcached => h.storeMem_twice hcached ha⟩
  | retake q len file => exact step_retake_iff h q len file
  | retakeMem q len mem inPlace => exact step_retakeMem_iff h q len mem inPlace
  | addToQueue len =>
    refine ⟨fun _ => ⟨h.count_eq, fun q => ?_, ?_, h.entries_pos, h.capacity, h.maxCount_le,
      h.beyond, h.below⟩, fun _ => trivial⟩
    · show c.cache.count (some q) = _
      rw [h.slots_eq, cachedAt, cachedAt]
      show _ = (((c.queueBuf ++ [⟨len, false, none⟩])[q]?).any _).toNat
      rw [List.getElem?_append]
      split_ifs with hq
      · rfl
      · rw [List.getElem?_eq_none (by omega)]
        cases hq' : q - c.queueBuf.length <;> rfl
    · show c.cacheSize.toNat =
        ((c.queueBuf ++ [CachedEntry.mk len false none]).map _).sum % 2 ^ 64
      rw [List.map_append, List.sum_append, h.size_eq]
      rfl
  | setWeight q belowAverage =>
    refine ⟨fun _ => ?_, fun _ => trivial⟩
    rw [step]
    cases he : c.queueBuf[q]? with
    | none => exact h
    | some e => exact h.setEntry he rfl fun _ => rfl
  | setQueueCur q => exact ⟨fun _ => { h with }, fun _ => trivial⟩

/-- The accounting holds all along the runs whose events keep it, and no others. -/
theorem accounting_iff (maxCacheSize : UInt64) {maxCacheEntries : ℕ} (h : 0 < maxCacheEntries)
    (events : List Event) :
    (∀ p, p <+: events → Accounting (Machine.run step (init maxCacheSize maxCacheEntries) p)) ↔
      Machine.Meets step KeepsAccounting (init maxCacheSize maxCacheEntries) events :=
  Machine.forall_prefix_iff_meets step KeepsAccounting (fun _ => Inv.accounting)
    (fun _ ev hc => (step_inv hc ev).1) (fun _ ev hc => (step_inv hc ev).2)
    (inv_init maxCacheSize h) events

/-! ## A trimmed entry -/

/-- An entry of eight bytes is loaded. -/
def loadEight : List Event := [.addToQueue 8, .get 0 (ascii "abcdefgh") []]

/-- The entry is read again with sixteen bytes, and a second one, the current one then, is stored.
There is room for two: for a third one the first slot is cleared, after the second one, which was
drawn before. -/
def evictFirst : List Event :=
  [.retake 0 16 (ascii "abcdefghijklmnop"), .addToQueue 4, .storeMem 1 (ascii "wxyz"),
    .setQueueCur (some 1), .addToQueue 2, .get 2 (ascii "yz") [[1, 0]]]

theorem accounting_evictFirst :
    Accounting (Machine.run step (init 1048576 3) (loadEight ++ evictFirst)) ∧
      (Machine.run step (init 1048576 3) (loadEight ++ evictFirst)).evictions = 1 ∧
      (Machine.run step (init 1048576 3) (loadEight ++ evictFirst)).cacheSize = 6 :=
  ⟨(accounting_iff 1048576 (by decide) (loadEight ++ evictFirst)).mpr (by decide) _
    (List.prefix_refl _), by decide, by decide⟩

/-- Trimming it to four bytes in its buffer does not. -/
theorem accounting_trimmed :
    ¬ ∀ p, p <+: loadEight ++ [.retakeMem 0 4 (ascii "abcd") true] →
      Accounting (Machine.run step (init 1048576 16) p) := by
  intro h
  have hsize := (h _ (List.prefix_refl _)).size_eq
  exact absurd hsize (by decide)

end TestcaseCache

end AflNv
