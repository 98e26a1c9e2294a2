import AflNv.CBase
import Mathlib.Algebra.Order.Ring.Nat
import Mathlib.Data.Nat.Find

/-!
# Skipping deterministic positions

`skip_deterministic_stage` of `src/afl-fuzz-skipdet.c`: blocks of the input are inverted, and those
that leave the trace as it is are not effective; then each other position is replaced once, and
those that bring a new entry are marked.

* `innerLoop` and `outerLoop` are the inference, `quickLoop` and `quickRounds` the second part,
  `nearbyLoop` the option `FUZZ_NEARBY`.
* Numbers are `u32`: `add32` and `sub32` wrap around.  An access outside a map stops the function,
  and so does a loop without fuel.
* `Safe` says that neither happens, and what holds at the end; its rules carry the proofs.
* `common_fuzz_stuff` also returns 0 without a run, for an input that is refused.  The checksum that
  is taken then is that of an earlier run, so a block that was never run can be found inert.
* `skip_stage_iff` says for every input and every behaviour of the target when the blocks that are
  left out were run.
-/

namespace AflNv.SkipDet

def maxFile : ℕ := 1024 * 1024

def minimalBlockSize : ℕ := 64

def maximumQuickEffExecs : ℕ := 64 * 1024

def add32 (a b : ℕ) : ℕ := (a + b) % 2 ^ 32

def sub32 (a b : ℕ) : ℕ := (a + (2 ^ 32 - b)) % 2 ^ 32

/-- What the places of a buffer hold. -/
abbrev Buf := ℕ → UInt8

/-- The input of an entry. -/
structure Seed where
  input : Bytes
  pos : 0 < input.length
  le : input.length ≤ maxFile

namespace Seed

def len (seed : Seed) : ℕ := seed.input.length

def buf (seed : Seed) : Buf := fun k => seed.input.getD k 0

end Seed

/-- What a call of `common_fuzz_stuff` comes to. -/
inductive Answer where
  /-- It returns 1. -/
  | abandon
  /-- It returns 0 without a run: `write_to_testcase` gives 0, or the validity filter rejects. -/
  | refused
  /-- The target was run: the checksum of the trace, and how many entries were added. -/
  | ran (cksum : UInt64) (newItems : ℕ)

/-- The answers of the calls, the checksum of the trace map before the first one, the clock (asked
after so many calls) and the random bytes; each value has another one behind every place of the
stream. -/
structure Env where
  answer : ℕ → Answer
  stale : UInt64
  timeout : ℕ → Bool
  rand : ℕ → UInt8
  rand_differs : ∀ (b : UInt8) (k : ℕ), ∃ j, rand (k + j) ≠ b

inductive Stop where
  | abandoned
  | outOfFuel
  | outOfBounds
  deriving DecidableEq

/-- A call that returned 0; `cksum` is that of the trace map after it. -/
structure Call where
  buf : Buf
  ran : Bool
  cksum : UInt64
  newItems : ℕ

structure State where
  outBuf : Buf
  infEffMap : ℕ → Bool
  calls : List Call
  trace : UInt64
  rands : ℕ

/-- The state after a call. -/
def State.called (s : State) (c : Call) : State :=
  { s with calls := s.calls ++ [c], trace := c.cksum }

/-- `common_fuzz_stuff`, and `hash64` of the trace map. -/
def commonFuzzStuff (env : Env) (s : State) (buf : Buf) : Except Stop (Call × State) :=
  match env.answer s.calls.length with
  | .abandon => .error .abandoned
  | .refused => .ok (⟨buf, false, s.trace, 0⟩, s.called ⟨buf, false, s.trace, 0⟩)
  | .ran cksum newItems => .ok (⟨buf, true, cksum, newItems⟩, s.called ⟨buf, true, cksum, newItems⟩)

def inverted (b : Buf) (pos n : ℕ) : Buf := fun k =>
  if pos ≤ k ∧ k < pos + n then b k ^^^ 0xFF else b k

/-- `flip_range` -/
def flipRange (len : ℕ) (b : Buf) (pos size : ℕ) : Except Stop Buf :=
  if pos + size ≤ len then .ok (inverted b pos size) else .error .outOfBounds

/-- `memset(map + pos, v, n)` -/
def memset (len : ℕ) (map : ℕ → Bool) (pos : ℕ) (v : Bool) (n : ℕ) : Except Stop (ℕ → Bool) :=
  if pos + n ≤ len then .ok fun k => if pos ≤ k ∧ k < pos + n then v else map k
  else .error .outOfBounds

/-! ## The inference -/

/-- `flip_block_size` -/
def flipBlockSize (len pos cur : ℕ) : ℕ :=
  if add32 cur pos < len then cur else sub32 (sub32 len 1) pos

/-- The inner loop: `cur_block_size` at its end. -/
def innerLoop (env : Env) (len : ℕ) (prevCksum : UInt64) (pos : ℕ) :
    ℕ → ℕ → State → Except Stop (ℕ × State)
  | 0, cur, s => if cur < len / 8 then .error .outOfFuel else .ok (cur, s)
  | fuel + 1, cur, s =>
    if cur < len / 8 then do
      let size := flipBlockSize len pos cur
      let flipped ← flipRange len s.outBuf pos size
      let (r, s) ← commonFuzzStuff env { s with outBuf := flipped } flipped
      let restored ← flipRange len s.outBuf pos size
      let s := { s with outBuf := restored }
      if r.cksum = prevCksum then
        let cur := add32 cur cur
        if sub32 (sub32 len 1) pos ≤ cur then .ok (cur, s)
        else innerLoop env len prevCksum pos fuel cur s
      else .ok (cur, s)
    else .ok (cur, s)

/-- `cur_skip_len` -/
def curSkipLen (len pos cur : ℕ) : ℕ :=
  if add32 (cur / 2) pos < len then cur / 2 else sub32 (sub32 len pos) 1

def outerLoop (env : Env) (len : ℕ) (prevCksum : UInt64) : ℕ → ℕ → State → Except Stop State
  | 0, pos, s => if pos < sub32 len 1 then .error .outOfFuel else .ok s
  | fuel + 1, pos, s =>
    if pos < sub32 len 1 then do
      let (cur, s) ← innerLoop env len prevCksum pos len minimalBlockSize s
      if cur = minimalBlockSize then outerLoop env len prevCksum fuel (add32 pos cur) s
      else
        let skip := curSkipLen len pos cur
        let map ← memset len s.infEffMap pos false skip
        outerLoop env len prevCksum fuel (add32 pos skip) { s with infEffMap := map }
    else .ok s

/-- The first part: the checksum of the input, and the state. -/
def inference (env : Env) (seed : Seed) : Except Stop (UInt64 × State) := do
  let (r, s) ← commonFuzzStuff env ⟨seed.buf, fun _ => true, [], env.stale, 0⟩ seed.buf
  if minimalBlockSize * 8 < seed.len then
    let s ← outerLoop env seed.len r.cksum seed.len 0 s
    .ok (r.cksum, s)
  else .ok (r.cksum, s)

/-! ## The quick effector map -/

/-- `FUZZ_NEARBY` and `REPEAT_EFF` -/
structure Options where
  fuzzNearby : Bool
  repeatEff : Bool

/-- `again` is `eff_round_continue`. -/
structure Quick where
  state : State
  stageCur : ℕ
  stageMax : ℕ
  skipEffMap : ℕ → Bool
  doneInfMap : ℕ → Bool
  nonEffBytes : ℕ → Bool
  again : Bool

/-- The loop body of a position that is tried. -/
def quickByte (env : Env) (options : Options) (prevCksum : UInt64) (q : Quick) :
    Except Stop Quick := do
  let cur := q.stageCur
  let orig := q.state.outBuf cur
  let draws := q.state.rands + Nat.find (env.rand_differs orig q.state.rands)
  let changed := Function.update q.state.outBuf cur (env.rand draws)
  let (r, s) ← commonFuzzStuff env { q.state with outBuf := changed, rands := draws + 1 } changed
  let found := decide (r.newItems ≠ 0)
  let stageMax :=
    if found && decide (q.stageMax < maximumQuickEffExecs) then q.stageMax * 2 else q.stageMax
  .ok
    { state := { s with outBuf := Function.update s.outBuf cur orig }
      stageCur := cur + 1
      stageMax := stageMax
      skipEffMap := if found then Function.update q.skipEffMap cur true else q.skipEffMap
      doneInfMap := Function.update q.doneInfMap cur true
      nonEffBytes :=
        if options.fuzzNearby && decide (prevCksum = r.cksum) then
          Function.update q.nonEffBytes cur true
        else q.nonEffBytes
      again := q.again || found && decide (stageMax = maximumQuickEffExecs) && options.repeatEff }

/-- The loop of a round; the second component says that the time is over. -/
def quickLoop (env : Env) (options : Options) (len : ℕ) (prevCksum : UInt64) :
    ℕ → Quick → Except Stop (Quick × Bool)
  | 0, q => if q.stageCur < q.stageMax ∧ q.stageCur < len then .error .outOfFuel else .ok (q, false)
  | fuel + 1, q =>
    if q.stageCur < q.stageMax ∧ q.stageCur < len then
      if q.state.infEffMap q.stageCur = false ∨ q.skipEffMap q.stageCur = true then
        quickLoop env options len prevCksum fuel { q with stageCur := q.stageCur + 1 }
      else if env.timeout q.state.calls.length then .ok (q, true)
      else do
        let q ← quickByte env options prevCksum q
        quickLoop env options len prevCksum fuel q
    else .ok (q, false)

/-- The rounds, of which `left` are left; the second component is `done_eff`. -/
def quickRounds (env : Env) (options : Options) (len : ℕ) (prevCksum : UInt64) :
    ℕ → Bool → Quick → Except Stop (Quick × Bool)
  | 0, doneEff, q => .ok (q, doneEff)
  | left + 1, doneEff, q => do
    let (q, timedOut) ← quickLoop env options len prevCksum len
      { q with again := false, stageMax := 32 * 1024 }
    if timedOut then .ok (q, doneEff)
    else
      let q := { q with stageCur := 0 }
      if q.again then quickRounds env options len prevCksum left true q else .ok (q, true)

/-- The positions near marked ones. -/
def nearbyLoop (len : ℕ) (skipEffMap : ℕ → Bool) : ℕ → ℕ → (ℕ → Bool) → Except Stop (ℕ → Bool)
  | 0, i, nearby => if i < len then .error .outOfFuel else .ok nearby
  | fuel + 1, i, nearby =>
    if i < len then
      if skipEffMap i then do
        let fillLength := if add32 i 3 < len then 7 else add32 (sub32 len i) 2
        let nearby ← memset len nearby (sub32 i 3) true fillLength
        nearbyLoop len skipEffMap fuel (add32 i 3) nearby
      else nearbyLoop len skipEffMap fuel (add32 i 1) nearby
    else .ok nearby

/-- `prev_cksum`: that of the input, taken again for `FUZZ_NEARBY`. -/
def comparedCksum (env : Env) (options : Options) (cksum : UInt64) (s : State) :
    Except Stop (UInt64 × State) :=
  if options.fuzzNearby then do
    let (r, s) ← commonFuzzStuff env s s.outBuf
    .ok (r.cksum, s)
  else .ok (cksum, s)

/-- `nearby_bytes` -/
def nearbyBytes (options : Options) (len : ℕ) (skipEffMap : ℕ → Bool) : Except Stop (ℕ → Bool) :=
  if options.fuzzNearby then nearbyLoop len skipEffMap len 3 fun _ => false
  else .ok fun _ => false

/-- What the second part leaves: the maps, the checksum it compares with, all calls before it and
those of its rounds. -/
structure Final where
  cksum : UInt64
  prevCksum : UInt64
  infEffMap : ℕ → Bool
  skipEffMap : ℕ → Bool
  doneInfMap : ℕ → Bool
  doneEff : Bool
  continueInf : Bool
  infCalls : List Call
  quickCalls : List Call

/-- `skip_deterministic_stage`: `out_buf`, and what else has changed.  `doneEff` and
`shouldDetFuzz` decide about the early returns, `doneInfMap` is the map of an earlier call. -/
def skipDeterministicStage (env : Env) (options : Options) (seed : Seed)
    (doneEff shouldDetFuzz : Bool) (doneInfMap : ℕ → Bool) : Except Stop (Buf × Option Final) :=
  if doneEff = true ∨ shouldDetFuzz = false then .ok (seed.buf, none)
  else do
    let (cksum, s) ← inference env seed
    let start := ((List.range seed.len).find? fun k => !doneInfMap k).getD seed.len
    let (prevCksum, s) ← comparedCksum env options cksum s
    let (q, done) ← quickRounds env options seed.len prevCksum 8 false
      ⟨s, start, 0, fun _ => false, doneInfMap, fun _ => false, false⟩
    let nearby ← nearbyBytes options seed.len q.skipEffMap
    .ok (q.state.outBuf, some
      { cksum := cksum
        prevCksum := prevCksum
        infEffMap := q.state.infEffMap
        skipEffMap := fun k =>
          q.skipEffMap k || decide (k < seed.len) && nearby k && !q.nonEffBytes k
        doneInfMap := q.doneInfMap
        doneEff := done
        continueInf := !done
        infCalls := s.calls
        quickCalls := q.state.calls.drop s.calls.length })

/-! ## Safe computations -/

section Safe

variable {α β : Type} {env : Env}

/-- The computation ends with a value that has the property, or a call was abandoned. -/
def Safe (env : Env) (P : α → Prop) : Except Stop α → Prop
  | .ok a => P a
  | .error e => e = .abandoned ∧ ∃ i, env.answer i = .abandon

theorem Safe.bind {P : α → Prop} {Q : β → Prop} {m : Except Stop α} {f : α → Except Stop β}
    (hm : Safe env P m) (hf : ∀ a, P a → Safe env Q (f a)) : Safe env Q (m >>= f) := by
  cases m with
  | error e => exact hm
  | ok a => exact hf a hm

theorem Safe.mono {P Q : α → Prop} {m : Except Stop α} (hm : Safe env P m)
    (h : ∀ a, P a → Q a) : Safe env Q m := by
  cases m with
  | error e => exact hm
  | ok a => exact h a hm

theorem safe_commonFuzzStuff (env : Env) (s : State) (buf : Buf) :
    Safe env (fun p => p.2 = s.called p.1 ∧ p.1.buf = buf ∧ (p.1.newItems ≠ 0 → p.1.ran = true))
      (commonFuzzStuff env s buf) := by
  rw [commonFuzzStuff]
  split
  · next h => exact ⟨rfl, _, h⟩
  · exact ⟨rfl, rfl, fun h => absurd rfl h⟩
  · exact ⟨rfl, rfl, fun _ => rfl⟩

theorem flipRange_bind {len pos size : ℕ} (b : Buf) (h : pos + size ≤ len)
    (f : Buf → Except Stop α) : flipRange len b pos size >>= f = f (inverted b pos size) := by
  rw [flipRange, if_pos h]
  rfl

theorem memset_bind {len pos n : ℕ} (map : ℕ → Bool) (v : Bool) (h : pos + n ≤ len)
    (f : (ℕ → Bool) → Except Stop α) :
    memset len map pos v n >>= f = f fun k => if pos ≤ k ∧ k < pos + n then v else map k := by
  rw [memset, if_pos h]
  rfl

theorem inverted_inverted (b : Buf) (pos n : ℕ) : inverted (inverted b pos n) pos n = b := by
  funext k
  rw [inverted, inverted]
  split
  · rw [UInt8.xor_assoc, UInt8.xor_self, UInt8.xor_zero]
  · rfl

theorem add32_eq {a b : ℕ} (h : a + b < 2 ^ 32) : add32 a b = a + b := Nat.mod_eq_of_lt h

theorem sub32_eq {a b : ℕ} (hb : b ≤ a) (ha : a < 2 ^ 32) : sub32 a b = a - b := by
  rw [sub32, show a + (2 ^ 32 - b) = a - b + 2 ^ 32 by omega, Nat.add_mod_right,
    Nat.mod_eq_of_lt (by omega)]

end Safe

/-! ## The inference -/

section Inference

variable {env : Env} {seed : Seed}

theorem Seed.len_lt (seed : Seed) : 0 < seed.len ∧ seed.len ≤ 1048576 :=
  ⟨seed.pos, seed.le⟩

/-- The size of a block is clipped at the last byte but one. -/
theorem flipBlockSize_eq {len pos cur : ℕ} (hlen : len ≤ 1048576) (hpos : pos < len - 1)
    (hcur : cur ≤ 1048576) :
    flipBlockSize len pos cur = if cur + pos < len then cur else len - 1 - pos := by
  rw [flipBlockSize, add32_eq (by omega), sub32_eq (a := len) (by omega) (by omega),
    sub32_eq (by omega) (by omega)]

/-- The bytes that are skipped are those of the block that was inverted before. -/
theorem curSkipLen_eq {len pos cur : ℕ} (hlen : len ≤ 1048576) (hpos : pos < len - 1)
    (hcur : cur ≤ 1048576) : curSkipLen len pos cur = flipBlockSize len pos (cur / 2) := by
  rw [flipBlockSize_eq hlen hpos (by omega), curSkipLen, add32_eq (by omega),
    sub32_eq (a := len) (by omega) (by omega), sub32_eq (by omega) (by omega)]
  split
  · rfl
  · omega

theorem flipBlockSize_bounds {len pos : ℕ} (hlen : len ≤ 1048576) (hpos : pos < len - 1)
    (cur : ℕ) (hcur : cur ≤ 1048576) (hne : 0 < cur) :
    0 < flipBlockSize len pos cur ∧ pos + flipBlockSize len pos cur ≤ len := by
  rw [flipBlockSize_eq hlen hpos hcur]
  split <;> omega

theorem flipBlockSize_mono {len pos cur cur' : ℕ} (hlen : len ≤ 1048576) (hpos : pos < len - 1)
    (hle : cur ≤ cur') (hcur : cur' ≤ 1048576) :
    flipBlockSize len pos cur ≤ flipBlockSize len pos cur' := by
  rw [flipBlockSize_eq hlen hpos hcur, flipBlockSize_eq hlen hpos (by omega)]
  split <;> split <;> omega

theorem inverted_ne_iff (b : Buf) (pos n k : ℕ) :
    inverted b pos n k ≠ b k ↔ pos ≤ k ∧ k < pos + n := by
  rw [inverted]
  split
  · next h =>
    refine iff_of_true (fun heq => ?_) h
    have hxor := congrArg (b k ^^^ ·) heq
    simp only [← UInt8.xor_assoc, UInt8.xor_self, UInt8.zero_xor] at hxor
    exact absurd hxor (by decide)
  · next h => exact iff_of_false (fun hne => hne rfl) h

/-- A buffer tells which block of it was inverted. -/
theorem inverted_inj {b : Buf} {pos n pos' n' : ℕ} (hn : 0 < n) (hn' : 0 < n')
    (h : inverted b pos n = inverted b pos' n') : pos = pos' ∧ n = n' := by
  have hsame (k : ℕ) : pos ≤ k ∧ k < pos + n ↔ pos' ≤ k ∧ k < pos' + n' := by
    rw [← inverted_ne_iff b, ← inverted_ne_iff b, h]
  have hfirst := hsame pos
  have hfirst' := hsame pos'
  have hlast := hsame (pos + n - 1)
  have hlast' := hsame (pos' + n' - 1)
  omega

theorem inverted_ne {b : Buf} {pos n : ℕ} (hn : 0 < n) : inverted b pos n ≠ b := by
  intro h
  exact (inverted_ne_iff b pos n pos).mpr ⟨Nat.le_refl _, by omega⟩ (congrFun h pos)

/-- After a call with the block inverted, the trace map had the checksum. -/
def Matches (seed : Seed) (prevCksum : UInt64) (calls : List Call) (pos n : ℕ) : Prop :=
  ∃ c ∈ calls, c.buf = inverted seed.buf pos n ∧ c.cksum = prevCksum

/-- The target was run with the block inverted, and the trace map had the checksum after it. -/
def Inert (seed : Seed) (prevCksum : UInt64) (calls : List Call) (pos n : ℕ) : Prop :=
  ∃ c ∈ calls, c.ran = true ∧ c.buf = inverted seed.buf pos n ∧ c.cksum = prevCksum

/-- A call with the block inverted was refused, and the trace map still had the checksum. -/
def Misled (seed : Seed) (prevCksum : UInt64) (calls : List Call) (pos n : ℕ) : Prop :=
  ∃ c ∈ calls, c.ran = false ∧ c.buf = inverted seed.buf pos n ∧ c.cksum = prevCksum

theorem matches_iff {prevCksum : UInt64} {calls : List Call} {pos n : ℕ} :
    Matches seed prevCksum calls pos n ↔
      Inert seed prevCksum calls pos n ∨ Misled seed prevCksum calls pos n := by
  constructor
  · rintro ⟨c, hc, h⟩
    cases hran : c.ran with
    | true => exact .inl ⟨c, hc, hran, h⟩
    | false => exact .inr ⟨c, hc, hran, h⟩
  · rintro (⟨c, hc, -, h⟩ | ⟨c, hc, -, h⟩) <;> exact ⟨c, hc, h⟩

/-- The blocks at `pos` that matched are those of up to `m` bytes, and `m` bytes were left out.  No
other block that matched holds the last of them. -/
structure LeftOut (seed : Seed) (prevCksum : UInt64) (s : State) (bound pos m : ℕ) : Prop where
  positive : 0 < m
  bound : pos + m ≤ bound
  last : s.infEffMap (pos + m - 1) = false
  unique : ∀ pos' n', Matches seed prevCksum s.calls pos' n' → pos' ≤ pos + m - 1 →
    pos + m - 1 < pos' + n' → pos' = pos ∧ n' = m

/-- The invariant of the inference, of which `bound` bytes are done. -/
structure Inferred (seed : Seed) (prevCksum : UInt64) (bound : ℕ) (s : State) : Prop where
  outBuf : s.outBuf = seed.buf
  recorded : ∃ c ∈ s.calls, c.buf = seed.buf ∧ c.cksum = prevCksum
  sound : ∀ k, s.infEffMap k = false → ∃ pos n, pos ≤ k ∧ k < pos + n ∧ pos + n ≤ seed.len ∧
    Matches seed prevCksum s.calls pos n
  leftOut : ∀ pos n, 0 < n → Matches seed prevCksum s.calls pos n →
    ∃ m, n ≤ m ∧ LeftOut seed prevCksum s bound pos m

/-- The invariant of the inner loop at `pos`, which began in `s₀`: the block of half the size was
the last one that matched. -/
structure Doubling (seed : Seed) (prevCksum : UInt64) (pos : ℕ) (s₀ : State) (cur : ℕ) (s : State) :
    Prop where
  outBuf : s.outBuf = seed.buf
  infEffMap : s.infEffMap = s₀.infEffMap
  min_le : minimalBlockSize ≤ cur
  le_max : cur ≤ 1048576
  calls : ∃ more, s.calls = s₀.calls ++ more ∧ ∀ c ∈ more, c.cksum = prevCksum →
    minimalBlockSize ≤ cur / 2 ∧ ∃ n, 0 < n ∧ n ≤ flipBlockSize seed.len pos (cur / 2) ∧
      c.buf = inverted seed.buf pos n
  last : cur = minimalBlockSize ∨ minimalBlockSize ≤ cur / 2 ∧
    Matches seed prevCksum s.calls pos (flipBlockSize seed.len pos (cur / 2))

section InnerLoop

variable {prevCksum : UInt64} {pos cur : ℕ} {s₀ s : State}

/-- A call whose trace is another one ends the loop. -/
theorem Doubling.stop (h : Doubling seed prevCksum pos s₀ cur s) {c : Call}
    (hc : c.cksum ≠ prevCksum) : Doubling seed prevCksum pos s₀ cur (s.called c) := by
  obtain ⟨more, hcalls, hmore⟩ := h.calls
  refine { h with calls := ⟨more ++ [c], ?_, ?_⟩, last := h.last.imp_right ?_ }
  · rw [← List.append_assoc, ← hcalls]
    rfl
  · refine List.forall_mem_append.mpr ⟨hmore, fun d hd => ?_⟩
    rw [List.mem_singleton.mp hd]
    exact fun hsame => absurd hsame hc
  · rintro ⟨hhalf, d, hd, hrest⟩
    exact ⟨hhalf, d, List.mem_append_left _ hd, hrest⟩

/-- A block that matched makes the next one twice as large. -/
theorem Doubling.double (hlen : seed.len ≤ 1048576) (hpos : pos < seed.len - 1)
    (hlt : cur < seed.len / 8) (h : Doubling seed prevCksum pos s₀ cur s) {c : Call}
    (hbuf : c.buf = inverted seed.buf pos (flipBlockSize seed.len pos cur))
    (hsum : c.cksum = prevCksum) :
    Doubling seed prevCksum pos s₀ (cur + cur) (s.called c) := by
  obtain ⟨more, hcalls, hmore⟩ := h.calls
  have hhalf : (cur + cur) / 2 = cur := by omega
  have hmin := h.min_le
  have hcur : 0 < cur := Nat.lt_of_lt_of_le (by decide) hmin
  refine ⟨h.outBuf, h.infEffMap, by omega, by omega, ⟨more ++ [c], ?_, ?_⟩, .inr ?_⟩
  · rw [← List.append_assoc, ← hcalls]
    rfl
  · rw [hhalf]
    refine List.forall_mem_append.mpr ⟨fun d hd hsame => ?_, fun d hd _ => ?_⟩
    · obtain ⟨-, n, hn, hle, hd⟩ := hmore d hd hsame
      exact ⟨hmin, n, hn, hle.trans (flipBlockSize_mono hlen hpos (by omega) (by omega)), hd⟩
    · rw [List.mem_singleton.mp hd]
      exact ⟨hmin, _, (flipBlockSize_bounds hlen hpos cur (by omega) hcur).1, Nat.le_refl _, hbuf⟩
  · rw [hhalf]
    exact ⟨hmin, c, List.mem_append_right _ List.mem_cons_self, hbuf, hsum⟩

/-- What matches in the end matched before, or is one of the blocks at `pos`. -/
theorem Doubling.matches_cases (h : Doubling seed prevCksum pos s₀ cur s) {pos' n' : ℕ}
    (hn : 0 < n') (hmatch : Matches seed prevCksum s.calls pos' n') :
    Matches seed prevCksum s₀.calls pos' n' ∨
      pos' = pos ∧ minimalBlockSize ≤ cur / 2 ∧ n' ≤ flipBlockSize seed.len pos (cur / 2) := by
  obtain ⟨more, hcalls, hmore⟩ := h.calls
  obtain ⟨c, hc, hbuf, hsum⟩ := hmatch
  rw [hcalls] at hc
  rcases List.mem_append.mp hc with hold | hnew
  · exact .inl ⟨c, hold, hbuf, hsum⟩
  · obtain ⟨hhalf, n, hpos, hle, hinv⟩ := hmore c hnew hsum
    obtain ⟨rfl, rfl⟩ := inverted_inj hn hpos (hbuf.symm.trans hinv)
    exact .inr ⟨rfl, hhalf, hle⟩

theorem Doubling.matches_of_old (h : Doubling seed prevCksum pos s₀ cur s) {pos' n' : ℕ}
    (hmatch : Matches seed prevCksum s₀.calls pos' n') :
    Matches seed prevCksum s.calls pos' n' := by
  obtain ⟨more, hcalls, -⟩ := h.calls
  obtain ⟨c, hc, hrest⟩ := hmatch
  exact ⟨c, hcalls ▸ List.mem_append_left _ hc, hrest⟩

theorem Doubling.recorded (h : Doubling seed prevCksum pos s₀ cur s)
    (hrecorded : ∃ c ∈ s₀.calls, c.buf = seed.buf ∧ c.cksum = prevCksum) :
    ∃ c ∈ s.calls, c.buf = seed.buf ∧ c.cksum = prevCksum := by
  obtain ⟨more, hcalls, -⟩ := h.calls
  obtain ⟨c, hc, hrest⟩ := hrecorded
  exact ⟨c, hcalls ▸ List.mem_append_left _ hc, hrest⟩

/-- The first block did not match: nothing is left out at `pos`. -/
theorem Inferred.stay (h : Inferred seed prevCksum pos s₀) {bound : ℕ} (hbound : pos ≤ bound)
    (hd : Doubling seed prevCksum pos s₀ minimalBlockSize s) :
    Inferred seed prevCksum bound s where
  outBuf := hd.outBuf
  recorded := hd.recorded h.recorded
  sound := by
    intro k hk
    rw [hd.infEffMap] at hk
    obtain ⟨pos', n, hle, hlt, hlen, hmatch⟩ := h.sound k hk
    exact ⟨pos', n, hle, hlt, hlen, hd.matches_of_old hmatch⟩
  leftOut := by
    have hold {pos' n : ℕ} (hn : 0 < n) (hmatch : Matches seed prevCksum s.calls pos' n) :
        Matches seed prevCksum s₀.calls pos' n :=
      (hd.matches_cases hn hmatch).resolve_right fun hnew => absurd hnew.2.1 (by decide)
    intro pos' n hn hmatch
    obtain ⟨m, hle, hm⟩ := h.leftOut pos' n hn (hold hn hmatch)
    refine ⟨m, hle, { hm with bound := hm.bound.trans hbound, last := ?_, unique := ?_ }⟩
    · rw [hd.infEffMap]
      exact hm.last
    · intro p k hk hp hlt
      exact hm.unique p k (hold (by omega) hk) hp hlt

/-- The bytes of the last block that matched are left out. -/
theorem Inferred.skip (h : Inferred seed prevCksum pos s₀)
    (hd : Doubling seed prevCksum pos s₀ cur s) {size : ℕ}
    (hsize : size = flipBlockSize seed.len pos (cur / 2)) (hpos : 0 < size)
    (hlen : pos + size ≤ seed.len) (hlast : Matches seed prevCksum s.calls pos size) :
    Inferred seed prevCksum (pos + size) { s with
      infEffMap := fun k => if pos ≤ k ∧ k < pos + size then false else s.infEffMap k } where
  outBuf := hd.outBuf
  recorded := hd.recorded h.recorded
  sound := by
    intro k hk
    dsimp only at hk
    by_cases hin : pos ≤ k ∧ k < pos + size
    · exact ⟨pos, size, hin.1, hin.2, hlen, hlast⟩
    · rw [if_neg hin, hd.infEffMap] at hk
      obtain ⟨pos', n, hle, hlt, hlen', hmatch⟩ := h.sound k hk
      exact ⟨pos', n, hle, hlt, hlen', hd.matches_of_old hmatch⟩
  leftOut := by
    -- a block that matched before ends at `pos`, a new one begins there
    have hcases {pos' n : ℕ} (hn : 0 < n) (hmatch : Matches seed prevCksum s.calls pos' n) :
        (∃ m, n ≤ m ∧ LeftOut seed prevCksum s₀ pos pos' m ∧
          Matches seed prevCksum s₀.calls pos' n) ∨ pos' = pos ∧ n ≤ size := by
      rcases hd.matches_cases hn hmatch with hold | ⟨rfl, -, hle⟩
      · obtain ⟨m, hle, hm⟩ := h.leftOut pos' n hn hold
        exact .inl ⟨m, hle, hm, hold⟩
      · exact .inr ⟨rfl, hsize ▸ hle⟩
    intro pos' n hn hmatch
    rcases hcases hn hmatch with ⟨m, hle, hm, -⟩ | ⟨rfl, hle⟩
    · have hend := hm.bound
      have hsome := hm.positive
      refine ⟨m, hle, hsome, by omega, ?_, fun p k hk hp hlt => ?_⟩
      · dsimp only
        rw [if_neg (by omega), hd.infEffMap]
        exact hm.last
      · rcases hcases (by omega) hk with ⟨-, -, -, hold⟩ | ⟨rfl, -⟩
        · exact hm.unique p k hold hp hlt
        · omega
    · refine ⟨size, hle, hpos, Nat.le_refl _, if_pos (by omega), fun p k hk hp hlt => ?_⟩
      rcases hcases (by omega) hk with ⟨m, hkm, hm, -⟩ | ⟨rfl, hk⟩
      · have hend := hm.bound
        omega
      · omega

end InnerLoop

/-- The inner loop ends, stays in bounds and keeps its invariant. -/
theorem safe_innerLoop {prevCksum : UInt64} {pos : ℕ} (hpos : pos < seed.len - 1) {s₀ : State}
    (fuel : ℕ) {cur : ℕ} {s : State} (hfuel : seed.len / 8 ≤ cur + fuel)
    (h : Doubling seed prevCksum pos s₀ cur s) :
    Safe env (fun p => Doubling seed prevCksum pos s₀ p.1 p.2)
      (innerLoop env seed.len prevCksum pos fuel cur s) := by
  obtain ⟨-, hlen⟩ := seed.len_lt
  induction fuel generalizing cur s with
  | zero =>
    rw [innerLoop, if_neg (by omega)]
    exact h
  | succ fuel ih =>
    rw [innerLoop]
    split
    · next hlt =>
      have hmin : 0 < cur := Nat.lt_of_lt_of_le (by decide) h.min_le
      obtain ⟨-, hbound⟩ := flipBlockSize_bounds hlen hpos cur (by omega) hmin
      dsimp only
      rw [flipRange_bind _ hbound]
      apply Safe.bind (safe_commonFuzzStuff env _ _)
      rintro ⟨c, s'⟩ ⟨hs', hbuf, -⟩
      dsimp only at hs' hbuf ⊢
      rw [flipRange_bind _ hbound]
      have hrestored : { s' with
          outBuf := inverted s'.outBuf pos (flipBlockSize seed.len pos cur) } = s.called c := by
        rw [hs']
        simp only [State.called, inverted_inverted]
      rw [hrestored]
      split
      · next hsum =>
        -- the block matched: the next one is twice as large
        have hnext := h.double hlen hpos hlt (by rw [hbuf, h.outBuf]) hsum
        have hdouble : add32 cur cur = cur + cur := add32_eq (by omega)
        rw [hdouble]
        split
        · exact hnext
        · exact ih (by omega) hnext
      · next hsum => exact h.stop hsum
    · exact h

theorem safe_outerLoop {prevCksum : UInt64} (fuel : ℕ) {pos : ℕ} {s : State}
    (hpos : pos ≤ seed.len + minimalBlockSize) (hfuel : seed.len ≤ pos + fuel)
    (h : Inferred seed prevCksum pos s) :
    Safe env (fun s' => ∃ bound, Inferred seed prevCksum bound s')
      (outerLoop env seed.len prevCksum fuel pos s) := by
  obtain ⟨hne, hlen⟩ := seed.len_lt
  have hlast : sub32 seed.len 1 = seed.len - 1 := sub32_eq hne (by omega)
  induction fuel generalizing pos s with
  | zero =>
    rw [outerLoop, if_neg (by omega)]
    exact ⟨pos, h⟩
  | succ fuel ih =>
    rw [outerLoop, hlast]
    split
    · next hlt =>
      have hmin : minimalBlockSize = 64 := rfl
      have hstart : Doubling seed prevCksum pos s minimalBlockSize s :=
        ⟨h.outBuf, rfl, Nat.le_refl _, by decide, ⟨[], (List.append_nil _).symm, by simp⟩, .inl rfl⟩
      apply Safe.bind (safe_innerLoop hlt seed.len (by omega) hstart)
      rintro ⟨cur, s'⟩ hd
      dsimp only at hd ⊢
      split
      · next hfirst =>
        subst hfirst
        rw [add32_eq (by omega)]
        exact ih (by omega) (by omega) (h.stay (Nat.le_add_right ..) hd)
      · next hmore =>
        obtain ⟨hhalf, hmatch⟩ := hd.last.resolve_left hmore
        have hmax := hd.le_max
        obtain ⟨hsize, hbound⟩ := flipBlockSize_bounds hlen hlt (cur / 2) (by omega) (by omega)
        rw [curSkipLen_eq hlen hlt hmax, memset_bind _ _ hbound, add32_eq (by omega)]
        exact ih (by omega) (by omega) (h.skip hd rfl hsize hbound hmatch)
    · exact ⟨pos, h⟩

theorem safe_inference (env : Env) (seed : Seed) :
    Safe env (fun p => ∃ bound, Inferred seed p.1 bound p.2) (inference env seed) := by
  apply Safe.bind (safe_commonFuzzStuff env _ _)
  rintro ⟨c, s⟩ ⟨hs, hbuf, -⟩
  dsimp only at hs hbuf ⊢
  subst hs
  have hstart : Inferred seed c.cksum 0
      (State.called ⟨seed.buf, fun _ => true, [], env.stale, 0⟩ c) := by
    refine ⟨rfl, ⟨c, List.mem_singleton_self c, hbuf, rfl⟩, fun k hk => (by cases hk), ?_⟩
    rintro pos n hn ⟨d, hd, hinv, -⟩
    rw [List.mem_singleton.mp hd, hbuf] at hinv
    exact absurd hinv.symm (inverted_ne hn)
  split
  · apply Safe.bind (safe_outerLoop seed.len (Nat.zero_le _) (by omega) hstart)
    exact fun s hs => hs
  · exact ⟨0, hstart⟩

end Inference

/-! ## The quick effector map -/

section Quick

variable {env : Env} {seed : Seed}

/-- The target was run with another byte at `k`, which added an entry. -/
def Found (seed : Seed) (calls : List Call) (k : ℕ) : Prop :=
  k < seed.len ∧ ∃ c ∈ calls, c.ran = true ∧ c.newItems ≠ 0 ∧
    ∃ b, b ≠ seed.buf k ∧ c.buf = Function.update seed.buf k b

/-- Replacing the byte at `k` was seen to leave the checksum as it is. -/
def Unchanged (seed : Seed) (prevCksum : UInt64) (calls : List Call) (k : ℕ) : Prop :=
  ∃ c ∈ calls, c.cksum = prevCksum ∧ ∃ b, b ≠ seed.buf k ∧ c.buf = Function.update seed.buf k b

theorem Found.mono {calls more : List Call} {k : ℕ} (h : Found seed calls k) :
    Found seed (calls ++ more) k := by
  obtain ⟨hk, c, hc, hrest⟩ := h
  exact ⟨hk, c, List.mem_append_left _ hc, hrest⟩

/-- The invariant of the rounds; `s` is the state before them. -/
structure Tried (seed : Seed) (options : Options) (prevCksum : UInt64) (s : State)
    (calls : List Call) (q : Quick) : Prop where
  outBuf : q.state.outBuf = seed.buf
  infEffMap : q.state.infEffMap = s.infEffMap
  calls_eq : q.state.calls = s.calls ++ calls
  found : ∀ k, q.skipEffMap k = true → Found seed calls k
  unchanged : options.fuzzNearby = true → ∀ k, Unchanged seed prevCksum calls k →
    q.nonEffBytes k = true

/-- Two buffers that differ from the input in one byte each. -/
theorem update_eq_update {b : Buf} {j k : ℕ} {x y : UInt8} (hx : x ≠ b j)
    (h : Function.update b j x = Function.update b k y) : j = k := by
  by_contra hne
  have hat := congrFun h j
  rw [Function.update_self, Function.update_of_ne hne] at hat
  exact hx hat

theorem safe_quickByte {options : Options} {prevCksum : UInt64} {s : State} {calls : List Call}
    {q : Quick} (h : Tried seed options prevCksum s calls q) (hcur : q.stageCur < seed.len) :
    Safe env (fun q' => q'.stageCur = q.stageCur + 1 ∧
      ∃ more, Tried seed options prevCksum s (calls ++ more) q')
      (quickByte env options prevCksum q) := by
  have hrand := Nat.find_spec (env.rand_differs (q.state.outBuf q.stageCur) q.state.rands)
  rw [quickByte]
  dsimp only
  generalize q.state.rands +
    Nat.find (env.rand_differs (q.state.outBuf q.stageCur) q.state.rands) = draws at hrand ⊢
  generalize env.rand draws = x at hrand ⊢
  rw [h.outBuf] at hrand ⊢
  apply Safe.bind (safe_commonFuzzStuff env _ _)
  rintro ⟨c, s'⟩ ⟨hs', hbuf, hran⟩
  dsimp only at hs' hbuf hran ⊢
  subst hs'
  refine ⟨rfl, [c], ?_, h.infEffMap, ?_, ?_, ?_⟩
  · dsimp only [State.called]
    rw [Function.update_idem, Function.update_eq_self]
  · dsimp only [State.called]
    rw [h.calls_eq, List.append_assoc]
  · intro k hk
    by_cases hnew : c.newItems ≠ 0
    · replace hk : (if decide (c.newItems ≠ 0) = true then
        Function.update q.skipEffMap q.stageCur true else q.skipEffMap) k = true := hk
      rw [if_pos (decide_eq_true hnew)] at hk
      by_cases hsame : k = q.stageCur
      · rw [hsame]
        exact ⟨hcur, c, List.mem_append_right _ List.mem_cons_self, hran hnew, hnew, x, hrand, hbuf⟩
      · rw [Function.update_of_ne hsame] at hk
        exact (h.found k hk).mono
    · replace hk : (if decide (c.newItems ≠ 0) = true then
        Function.update q.skipEffMap q.stageCur true else q.skipEffMap) k = true := hk
      rw [if_neg (by rwa [decide_eq_true_eq])] at hk
      exact (h.found k hk).mono
  · intro hnearby k hk
    show (if options.fuzzNearby && decide (prevCksum = c.cksum) then
      Function.update q.nonEffBytes q.stageCur true else q.nonEffBytes) k = true
    obtain ⟨d, hd, hsum, b, hb, hupdate⟩ := hk
    rcases List.mem_append.mp hd with hd | hd
    · have hold := h.unchanged hnearby k ⟨d, hd, hsum, b, hb, hupdate⟩
      split
      · by_cases hsame : k = q.stageCur
        · rw [hsame, Function.update_self]
        · rw [Function.update_of_ne hsame]
          exact hold
      · exact hold
    · rw [List.mem_singleton.mp hd] at hsum hupdate
      rw [← update_eq_update hrand (hbuf.symm.trans hupdate), hnearby,
        if_pos (by simpa using hsum.symm), Function.update_self]

theorem safe_quickLoop {options : Options} {prevCksum : UInt64} {s : State} (fuel : ℕ)
    {calls : List Call} {q : Quick} (hfuel : seed.len ≤ q.stageCur + fuel)
    (h : Tried seed options prevCksum s calls q) :
    Safe env (fun p => ∃ more, Tried seed options prevCksum s (calls ++ more) p.1)
      (quickLoop env options seed.len prevCksum fuel q) := by
  have hself : ∃ more, Tried seed options prevCksum s (calls ++ more) q :=
    ⟨[], by rw [List.append_nil]; exact h⟩
  induction fuel generalizing calls q with
  | zero =>
    rw [quickLoop, if_neg (by omega)]
    exact hself
  | succ fuel ih =>
    rw [quickLoop]
    split
    · next hlt =>
      split
      · have hskip : Tried seed options prevCksum s calls { q with stageCur := q.stageCur + 1 } :=
          ⟨h.outBuf, h.infEffMap, h.calls_eq, h.found, h.unchanged⟩
        exact ih (by show seed.len ≤ q.stageCur + 1 + fuel; omega) hskip
          ⟨[], by rw [List.append_nil]; exact hskip⟩
      · split
        · exact hself
        · apply Safe.bind (safe_quickByte h hlt.2)
          intro q' ⟨hcur, more, hq'⟩
          refine (ih (by rw [hcur]; omega) hq' ⟨[], by rw [List.append_nil]; exact hq'⟩).mono ?_
          intro p ⟨more', hp⟩
          rw [List.append_assoc] at hp
          exact ⟨more ++ more', hp⟩
    · exact hself

theorem safe_quickRounds {options : Options} {prevCksum : UInt64} {s : State} (left : ℕ)
    (doneEff : Bool) {calls : List Call} {q : Quick}
    (h : Tried seed options prevCksum s calls q) :
    Safe env (fun p => ∃ more, Tried seed options prevCksum s (calls ++ more) p.1)
      (quickRounds env options seed.len prevCksum left doneEff q) := by
  induction left generalizing doneEff calls q with
  | zero => exact ⟨[], by rw [List.append_nil]; exact h⟩
  | succ left ih =>
    rw [quickRounds]
    have hround : Tried seed options prevCksum s calls
        { q with again := false, stageMax := 32 * 1024 } :=
      ⟨h.outBuf, h.infEffMap, h.calls_eq, h.found, h.unchanged⟩
    apply Safe.bind (safe_quickLoop seed.len (Nat.le_add_left _ _) hround)
    intro ⟨q', timedOut⟩ ⟨more, hq'⟩
    have hzero : Tried seed options prevCksum s (calls ++ more) { q' with stageCur := 0 } :=
      ⟨hq'.outBuf, hq'.infEffMap, hq'.calls_eq, hq'.found, hq'.unchanged⟩
    dsimp only
    split
    · exact ⟨more, hq'⟩
    · split
      · refine (ih true hzero).mono ?_
        intro p ⟨more', hp⟩
        rw [List.append_assoc] at hp
        exact ⟨more ++ more', hp⟩
      · exact ⟨more, hzero⟩

/-- Only positions within three bytes of a marked one. -/
theorem safe_nearbyLoop (skipEffMap : ℕ → Bool) (fuel : ℕ) {i : ℕ} {nearby : ℕ → Bool}
    (hi : 3 ≤ i) (hle : i ≤ seed.len + 3) (hfuel : seed.len ≤ i + fuel)
    (h : ∀ k, nearby k = true → ∃ j, skipEffMap j = true ∧ k ≤ j + 3 ∧ j ≤ k + 3) :
    Safe env (fun nearby => ∀ k, nearby k = true →
      ∃ j, skipEffMap j = true ∧ k ≤ j + 3 ∧ j ≤ k + 3)
      (nearbyLoop seed.len skipEffMap fuel i nearby) := by
  obtain ⟨-, hlen⟩ := seed.len_lt
  induction fuel generalizing i nearby with
  | zero =>
    rw [nearbyLoop, if_neg (by omega)]
    exact h
  | succ fuel ih =>
    rw [nearbyLoop]
    split
    · next hlt =>
      have hup : add32 i 3 = i + 3 := add32_eq (by omega)
      have hnext : add32 i 1 = i + 1 := add32_eq (by omega)
      have hdown : sub32 i 3 = i - 3 := sub32_eq hi (by omega)
      have hrest : sub32 seed.len i = seed.len - i := sub32_eq (by omega) (by omega)
      have hfill : add32 (seed.len - i) 2 = seed.len - i + 2 := add32_eq (by omega)
      rw [hup, hnext, hdown, hrest, hfill]
      split
      · next hmark =>
        have hbound : i - 3 + (if i + 3 < seed.len then 7 else seed.len - i + 2) ≤ seed.len ∧
            i - 3 + (if i + 3 < seed.len then 7 else seed.len - i + 2) ≤ i + 4 := by
          split <;> omega
        rw [memset_bind _ _ hbound.1]
        refine ih (by omega) (by omega) (by omega) fun k hk => ?_
        by_cases hin : i - 3 ≤ k ∧
            k < i - 3 + (if i + 3 < seed.len then 7 else seed.len - i + 2)
        · exact ⟨i, hmark, by omega, by omega⟩
        · rw [if_neg hin] at hk
          exact h k hk
      · exact ih (by omega) (by omega) (by omega) h
    · exact h

end Quick

/-- What is asked of the stage when it was run to its end. -/
structure Sound (seed : Seed) (options : Options) (f : Final) : Prop where
  recorded : ∃ c ∈ f.infCalls, c.buf = seed.buf ∧ c.cksum = f.cksum
  inert : ∀ k, f.infEffMap k = false → ∃ pos n, pos ≤ k ∧ k < pos + n ∧ pos + n ≤ seed.len ∧
    Inert seed f.cksum f.infCalls pos n
  marked : ∀ k, f.skipEffMap k = true → Found seed f.quickCalls k ∨
    options.fuzzNearby = true ∧ (∃ j, Found seed f.quickCalls j ∧ k ≤ j + 3 ∧ j ≤ k + 3) ∧
      ¬ Unchanged seed f.prevCksum f.quickCalls k

/-- A refused call that found the recorded checksum is made up for: at its position, a block that is
not shorter was run and found inert. -/
def MadeUp (seed : Seed) (f : Final) : Prop :=
  ∀ pos n, 0 < n → Misled seed f.cksum f.infCalls pos n →
    ∃ m, n ≤ m ∧ pos + m ≤ seed.len ∧ Inert seed f.cksum f.infCalls pos m

/-- The checksum that `FUZZ_NEARBY` compares with is taken with the input, too. -/
theorem safe_comparedCksum {env : Env} {seed : Seed} (options : Options) {cksum : UInt64}
    {bound : ℕ} {s : State} (h : Inferred seed cksum bound s) :
    Safe env (fun p => Inferred seed cksum bound p.2) (comparedCksum env options cksum s) := by
  rw [comparedCksum]
  split
  · apply Safe.bind (safe_commonFuzzStuff env _ _)
    rintro ⟨c, s'⟩ ⟨hs', hbuf, -⟩
    dsimp only at hs' hbuf ⊢
    subst hs'
    have hold {pos n : ℕ} (hn : 0 < n) (hmatch : Matches seed cksum (s.calls ++ [c]) pos n) :
        Matches seed cksum s.calls pos n := by
      obtain ⟨d, hd, hinv, hsum⟩ := hmatch
      rcases List.mem_append.mp hd with hd | hd
      · exact ⟨d, hd, hinv, hsum⟩
      · rw [List.mem_singleton.mp hd, hbuf, h.outBuf] at hinv
        exact absurd hinv.symm (inverted_ne hn)
    have hmono {pos n : ℕ} (hmatch : Matches seed cksum s.calls pos n) :
        Matches seed cksum (s.calls ++ [c]) pos n := by
      obtain ⟨d, hd, hrest⟩ := hmatch
      exact ⟨d, List.mem_append_left _ hd, hrest⟩
    refine ⟨h.outBuf, ?_, fun k hk => ?_, fun pos n hn hmatch => ?_⟩
    · obtain ⟨d, hd, hrest⟩ := h.recorded
      exact ⟨d, List.mem_append_left _ hd, hrest⟩
    · obtain ⟨pos, n, hle, hlt, hlen, hmatch⟩ := h.sound k hk
      exact ⟨pos, n, hle, hlt, hlen, hmono hmatch⟩
    · obtain ⟨m, hle, hm⟩ := h.leftOut pos n hn (hold hn hmatch)
      refine ⟨m, hle, { hm with unique := fun p k hk hp hlt => ?_ }⟩
      exact hm.unique p k (hold (by omega) hk) hp hlt
  · exact h

/-- What was left out was run, unless a refused call was not made up for. -/
theorem Inferred.inert_iff {seed : Seed} {cksum : UInt64} {bound : ℕ} {s : State}
    (h : Inferred seed cksum bound s) :
    (∀ k, s.infEffMap k = false → ∃ pos n, pos ≤ k ∧ k < pos + n ∧ pos + n ≤ seed.len ∧
      Inert seed cksum s.calls pos n) ↔
    ∀ pos n, 0 < n → Misled seed cksum s.calls pos n →
      ∃ m, n ≤ m ∧ pos + m ≤ seed.len ∧ Inert seed cksum s.calls pos m := by
  constructor
  · intro hinert pos n hn hmisled
    obtain ⟨m, hle, hm⟩ := h.leftOut pos n hn (matches_iff.mpr (.inr hmisled))
    obtain ⟨p, k, hp, hlt, hlen, hpk⟩ := hinert _ hm.last
    obtain ⟨rfl, rfl⟩ := hm.unique p k (matches_iff.mpr (.inl hpk)) hp hlt
    exact ⟨k, hle, hlen, hpk⟩
  · intro hmade k hk
    obtain ⟨pos, n, hle, hlt, hlen, hmatch⟩ := h.sound k hk
    rcases matches_iff.mp hmatch with hinert | hmisled
    · exact ⟨pos, n, hle, hlt, hlen, hinert⟩
    · obtain ⟨m, hnm, hlen', hinert⟩ := hmade pos n (by omega) hmisled
      exact ⟨pos, m, hle, by omega, hlen', hinert⟩

theorem safe_stage (env : Env) (options : Options) (seed : Seed) (doneEff shouldDetFuzz : Bool)
    (doneInfMap : ℕ → Bool) :
    Safe env (fun r => r.1 = seed.buf ∧ ∀ f ∈ r.2, Sound seed options f ↔ MadeUp seed f)
      (skipDeterministicStage env options seed doneEff shouldDetFuzz doneInfMap) := by
  rw [skipDeterministicStage]
  split
  · exact ⟨rfl, fun f hf => by cases hf⟩
  · apply Safe.bind (safe_inference env seed)
    rintro ⟨cksum, s₁⟩ ⟨bound, hinferred⟩
    apply Safe.bind (safe_comparedCksum options hinferred)
    rintro ⟨prevCksum, s⟩ hs
    dsimp only at hs ⊢
    have hstart : Tried seed options prevCksum s [] ⟨s, ((List.range seed.len).find? fun k =>
        !doneInfMap k).getD seed.len, 0, fun _ => false, doneInfMap, fun _ => false, false⟩ :=
      ⟨hs.outBuf, rfl, (List.append_nil _).symm,
        fun k hk => absurd hk Bool.false_ne_true, fun _ k ⟨c, hc, _⟩ => absurd hc List.not_mem_nil⟩
    apply Safe.bind (safe_quickRounds 8 false hstart)
    rintro ⟨q, done⟩ ⟨calls, hq⟩
    rw [List.nil_append] at hq
    dsimp only
    have hnear : Safe env (fun nearby => ∀ k, nearby k = true → options.fuzzNearby = true ∧
        ∃ j, q.skipEffMap j = true ∧ k ≤ j + 3 ∧ j ≤ k + 3)
        (nearbyBytes options seed.len q.skipEffMap) := by
      rw [nearbyBytes]
      split
      · next hnearby =>
        exact (safe_nearbyLoop q.skipEffMap seed.len (Nat.le_refl 3) (Nat.le_add_left _ _)
          (Nat.le_add_left _ _) fun k hk => by cases hk).mono fun _ h k hk => ⟨hnearby, h k hk⟩
      · exact fun k hk => by cases hk
    apply Safe.bind hnear
    intro nearby hnearby
    have hcalls : q.state.calls.drop s.calls.length = calls := by
      rw [hq.calls_eq, List.drop_left]
    refine ⟨hq.outBuf, fun f hf => ?_⟩
    rw [← Option.some.inj hf]
    have hinert := hs.inert_iff
    rw [← hq.infEffMap] at hinert
    refine ⟨fun h => hinert.mp h.inert, fun h => ⟨hs.recorded, hinert.mpr h, fun k hk => ?_⟩⟩
    dsimp only at hk ⊢
    rw [hcalls]
    rcases Bool.or_eq_true_iff.mp hk with hmark | hfill
    · exact .inl (hq.found k hmark)
    · simp only [Bool.and_eq_true, Bool.not_eq_true'] at hfill
      obtain ⟨hoption, j, hj, hkj, hjk⟩ := hnearby k hfill.1.2
      refine .inr ⟨hoption, ⟨j, hq.found j hj, hkj, hjk⟩, fun hunchanged => ?_⟩
      rw [hq.unchanged hoption k hunchanged] at hfill
      cases hfill.2

/-- The stage ends inside its maps and returns 1 with the input restored, and what it leaves out is
as it should be just where every refused call that found the recorded checksum is made up for. -/
theorem skip_stage_iff (env : Env) (hkept : ∀ i, env.answer i ≠ .abandon) (options : Options)
    (seed : Seed) (doneEff shouldDetFuzz : Bool) (doneInfMap : ℕ → Bool) :
    ∃ final, skipDeterministicStage env options seed doneEff shouldDetFuzz doneInfMap =
      .ok (seed.buf, final) ∧ ∀ f ∈ final, Sound seed options f ↔ MadeUp seed f := by
  have hsafe := safe_stage env options seed doneEff shouldDetFuzz doneInfMap
  cases hrun : skipDeterministicStage env options seed doneEff shouldDetFuzz doneInfMap with
  | error e =>
    rw [hrun] at hsafe
    obtain ⟨-, i, hi⟩ := hsafe
    exact absurd hi (hkept i)
  | ok r =>
    rw [hrun] at hsafe
    refine ⟨r.2, ?_, hsafe.2⟩
    rw [← hsafe.1]

/-! ## A block that was never run -/

/-- A request of 600 bytes. -/
def requestSeed : Seed where
  input := ascii "POST /flowable-rest/service/runtime/process-instances HTTP/1.1\r\n" ++
    List.replicate 536 0x20
  pos := by
    rw [List.length_append, List.length_replicate]
    exact Nat.add_pos_right _ (by decide)
  le := by
    rw [List.length_append, List.length_replicate]
    decide

/-- The validity filter rejects the second input, and every other one that is not the request has a
trace of its own.  The time is over when the positions are tried. -/
def firstBlockRefused : Env where
  answer i := if i = 1 then .refused else .ran (if i = 0 then 7 else 8) 0
  stale := 0
  timeout _ := true
  rand k := if k % 2 = 0 then 0 else 1
  rand_differs b k := by
    by_contra h
    simp only [not_exists, not_not] at h
    have hfirst := h 0
    have hsecond := h 1
    split_ifs at hfirst hsecond
    · omega
    · exact absurd (hfirst.trans hsecond.symm) (by decide)
    · exact absurd (hfirst.trans hsecond.symm) (by decide)
    · omega

def plainOptions : Options where
  fuzzNearby := false
  repeatEff := false

/-- The first byte is left out, and no run had it inverted and the recorded checksum. -/
def NeverRun (f : Final) : Bool :=
  !f.infEffMap 0 && f.infCalls.all fun c =>
    !(c.ran && decide (c.cksum = f.cksum) && decide (c.buf 0 = requestSeed.buf 0 ^^^ 0xFF))

theorem neverRun_firstBlock :
    ((skipDeterministicStage firstBlockRefused plainOptions requestSeed false true
      fun _ => false).toOption.bind Prod.snd).any NeverRun = true := by
  decide +kernel

/-- A first byte that is left out was inverted in a run that left the trace as it was. -/
theorem not_sound_of_neverRun {f : Final} (h : NeverRun f = true) :
    ¬ Sound requestSeed plainOptions f := by
  simp only [NeverRun, Bool.and_eq_true, Bool.not_eq_true', List.all_eq_true, Bool.and_eq_false_iff,
    decide_eq_false_iff_not] at h
  intro hsound
  obtain ⟨pos, n, hle, hlt, -, c, hc, hran, hbuf, hsum⟩ := hsound.inert 0 h.1
  have hfirst : c.buf 0 = requestSeed.buf 0 ^^^ 0xFF := by
    rw [hbuf]
    exact if_pos ⟨hle, hlt⟩
  rcases h.2 c hc with (hno | hno) | hno
  · exact absurd (hran.symm.trans hno) (by decide)
  · exact hno hsum
  · exact hno hfirst

/-- What is found out about the maps of a run is found out about a run that restored the input. -/
theorem final_of_any {env : Env} {options : Options} {seed : Seed} {doneEff shouldDetFuzz : Bool}
    {doneInfMap : ℕ → Bool} {p : Final → Bool}
    (h : ((skipDeterministicStage env options seed doneEff shouldDetFuzz
      doneInfMap).toOption.bind Prod.snd).any p = true) :
    ∃ f, skipDeterministicStage env options seed doneEff shouldDetFuzz doneInfMap =
      .ok (seed.buf, some f) ∧ p f = true := by
  have hsafe := safe_stage env options seed doneEff shouldDetFuzz doneInfMap
  cases hrun : skipDeterministicStage env options seed doneEff shouldDetFuzz doneInfMap with
  | error e =>
    rw [hrun] at h
    cases h
  | ok r =>
    obtain ⟨out, final⟩ := r
    rw [hrun] at h hsafe
    obtain rfl : out = seed.buf := hsafe.1
    cases final with
    | none => cases h
    | some f => exact ⟨f, rfl, h⟩

/-- The first block of the request is inverted, the validity filter rejects it, and it is left out
as if the target had answered as before. -/
theorem block_never_run :
    ∃ f, skipDeterministicStage firstBlockRefused plainOptions requestSeed false true
      (fun _ => false) = .ok (requestSeed.buf, some f) ∧ ¬ Sound requestSeed plainOptions f := by
  obtain ⟨f, hrun, hnever⟩ := final_of_any neverRun_firstBlock
  exact ⟨f, hrun, not_sound_of_neverRun hnever⟩

/-- The executions that the same block takes when the filter lets it pass. -/
def firstBlockRuns : Env :=
  { firstBlockRefused with answer := fun i => .ran (if i ≤ 1 then 7 else 8) 0 }

theorem skip_stage_request :
    ∃ final, skipDeterministicStage firstBlockRuns plainOptions requestSeed false true
      (fun _ => false) = .ok (requestSeed.buf, final) ∧
      ∀ f ∈ final, Sound requestSeed plainOptions f ↔ MadeUp requestSeed f :=
  skip_stage_iff firstBlockRuns (fun i h => by cases h) plainOptions requestSeed false true
    fun _ => false

end AflNv.SkipDet
