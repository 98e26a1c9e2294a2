import AflNv.CBase
import Mathlib.Data.List.Perm.Basic
import Mathlib.Tactic.IntervalCases

/-!
# Colorization

`colorization` (afl-fuzz-redqueen.c) replaces as many bytes of an input as it can without a change
of the checksum of its trace.  It tries the biggest range that is not tried yet: a range that
changes the checksum is put back and split in two.  The ranges that stay replaced are then gathered
into the list of tainted regions that the input-to-state stage works on.

* `getExecChecksum` reads the trace map behind a call of `common_fuzz_stuff`.  That also returns 0
  without a run, for an input that is refused; the map is then that of an earlier call.  `Logged`
  says of a list of calls that each of them went so.
* `Inv` is what a try keeps.  Its `weight` says that the limit of the stage is never what ends the
  loop, and its `tried` what has become of a byte that no range has any more.
* `Scanned` is what one pass over the ranges finds, and `taintOf_spec` what the passes gather.
* `colorization_spec` is about the whole.
-/

namespace AflNv.Colorization

/-! ## The replacements -/

/-- What `type_replace` puts in the place of a byte: one byte, or `base` plus a random number below
`n`. -/
inductive Choice where
  | fixed (c : UInt8)
  | below (base : UInt8) (n : ℕ)

/-- The cases of `type_replace`, in their order. -/
def typeChoice (b : UInt8) : Choice :=
  if 65 ≤ b ∧ b ≤ 70 then .below 65 6
  else if 97 ≤ b ∧ b ≤ 102 then .below 97 6
  else if b = 48 then .fixed 49
  else if b = 49 then .fixed 48
  else if 50 ≤ b ∧ b ≤ 57 then .below 50 8
  else if 71 ≤ b ∧ b ≤ 90 then .below 71 20
  else if 103 ≤ b ∧ b ≤ 122 then .below 103 20
  else if 33 ≤ b ∧ b ≤ 42 then .below 33 10
  else if 44 ≤ b ∧ b ≤ 46 then .below 44 3
  else if 58 ≤ b ∧ b ≤ 64 then .below 58 7
  else if 91 ≤ b ∧ b ≤ 96 then .below 91 6
  else if 123 ≤ b ∧ b ≤ 126 then .below 123 4
  else if b = 43 then .fixed 47
  else if b = 47 then .fixed 43
  else if b = 32 then .fixed 9
  else if b = 9 then .fixed 32
  else if b = 13 then .fixed 10
  else if b = 10 then .fixed 13
  else if b = 0 then .fixed 1
  else if b = 1 then .fixed 0
  else if b = 255 then .fixed 0
  else if b < 32 then .fixed (b ^^^ 31)
  else .fixed (b ^^^ 127)

/-- `random_replace` chooses among all bytes. -/
def randomChoice (_ : UInt8) : Choice := .below 0 256

/-- The loop that draws until the byte is another one, over the random numbers to come. -/
def drawUntil (base : UInt8) (n : ℕ) (b : UInt8) : List ℕ → Option (UInt8 × List ℕ)
  | [] => none
  | d :: draws =>
    let c := base + UInt8.ofNat (d % n)
    if c = b then drawUntil base n b draws else some (c, draws)

def replaceByte (choice : UInt8 → Choice) (b : UInt8) (draws : List ℕ) :
    Option (UInt8 × List ℕ) :=
  match choice b with
  | .fixed c => some (c, draws)
  | .below base n => drawUntil base n b draws

/-- `random_replace` and `type_replace`; `none` where the random numbers do not suffice. -/
def replaceAll (choice : UInt8 → Choice) : Bytes → List ℕ → Option Bytes
  | [], _ => some []
  | b :: buf, draws =>
    match replaceByte choice b draws with
    | none => none
    | some (c, draws) => (replaceAll choice buf draws).map (c :: ·)

/-! ## The ranges -/

/-- `struct range`; `ok` is 1 if the range stays replaced, and 2 if a tainted region has it. -/
structure Range where
  start : ℕ
  last : ℕ
  ok : ℕ
  deriving DecidableEq

def Range.size (r : Range) : ℕ := 1 + r.last - r.start

/-- A list with one of its ranges taken out. -/
structure Split where
  before : List Range
  rng : Range
  behind : List Range

def Split.ranges (s : Split) : List Range := s.before ++ s.rng :: s.behind

def Split.rest (s : Split) : List Range := s.before ++ s.behind

/-- The ranges after a write to the `ok` of the one that is taken out. -/
def Split.mark (s : Split) (ok : ℕ) : List Range := s.before ++ { s.rng with ok } :: s.behind

/-- The loop of `pop_biggest_range`. -/
def popLoop (seen : List Range) (rmax : Option Split) (maxSize : ℕ) : List Range → Option Split
  | [] => rmax
  | r :: rest =>
    if r.ok = 0 ∧ maxSize ≤ r.size then popLoop (seen ++ [r]) (some ⟨seen, r, rest⟩) r.size rest
    else popLoop (seen ++ [r]) rmax maxSize rest

/-- `pop_biggest_range` -/
def popBiggestRange (ranges : List Range) : Option Split := popLoop [] none 0 ranges

/-- The two ranges that a rejected one is split into, the newest first. -/
def halves (rng : Range) : List Range :=
  if 1 < rng.size then
    [⟨rng.start + rng.size / 2, rng.last, 0⟩, ⟨rng.start, rng.start + rng.size / 2 - 1, 0⟩]
  else []

/-! ## The loop -/

/-- `memcpy(dst + pos, src + pos, n)` -/
def copyInto (dst src : Bytes) (pos n : ℕ) : Bytes :=
  dst.take pos ++ (src.drop pos).take n ++ dst.drop (pos + n)

/-- What a call of `common_fuzz_stuff` comes to. -/
inductive Answer where
  /-- It returns 1: the fuzzer gives up the input. -/
  | abandon
  /-- It returns 0 without a run: `write_to_testcase` gives 0, or the validity filter rejects. -/
  | refused
  /-- The target was run: the checksum of its trace. -/
  | ran (cksum : UInt64)

/-- The answers of the calls, by their number; whether a call takes more than three times as long as
an execution should, and the seed is not fixed; and the checksum of the trace map before the first
call. -/
structure Env where
  answer : ℕ → Bytes → Answer
  slow : ℕ → Bool
  stale : UInt64

/-- A call that returned 0; `cksum` is that of the trace map behind it. -/
structure Call where
  input : Bytes
  ran : Bool
  cksum : UInt64
  slow : Bool
  deriving DecidableEq

def Call.rejected (c : Call) (execCksum : UInt64) : Bool := c.cksum ≠ execCksum || c.slow

/-- `get_exec_checksum` behind `calls`; `none` where the fuzzer gives up the input. -/
def getExecChecksum (env : Env) (calls : List Call) (buf : Bytes) : Option Call :=
  let slow := env.slow calls.length
  match env.answer calls.length buf with
  | .abandon => none
  | .refused => some ⟨buf, false, (calls.getLast?.map Call.cksum).getD env.stale, slow⟩
  | .ran cksum => some ⟨buf, true, cksum, slow⟩

/-- The calls went as the environment answers. -/
def Logged (env : Env) (calls : List Call) : Prop :=
  ∀ k c, calls[k]? = some c → getExecChecksum env (calls.take k) c.input = some c

/-- `buf`, `ranges`, `afl->stage_cur` and the calls so far. -/
structure Col where
  buf : Bytes
  ranges : List Range
  stageCur : ℕ
  calls : List Call

/-- The ranges are tried; `none` is `checksum_fail`. -/
def colorLoop (env : Env) (backup changed : Bytes) (execCksum : UInt64) (stageMax : ℕ) (s : Col) :
    Option Col :=
  match popBiggestRange s.ranges with
  | none => some s
  | some split =>
    if s.stageCur < stageMax then
      let rng := split.rng
      let buf := copyInto s.buf changed rng.start rng.size
      match getExecChecksum env s.calls buf with
      | none => none
      | some c =>
        if c.rejected execCksum then
          colorLoop env backup changed execCksum stageMax
            ⟨copyInto buf backup rng.start rng.size, halves rng ++ split.rest, s.stageCur + 1,
              s.calls ++ [c]⟩
        else
          colorLoop env backup changed execCksum stageMax
            ⟨buf, split.mark 1, s.stageCur + 1, s.calls ++ [c]⟩
    else some s
termination_by stageMax - s.stageCur

/-! ## The tainted regions -/

structure Tainted where
  pos : ℕ
  len : ℕ
  deriving DecidableEq

inductive Found where
  /-- The range begins where the newest region ends. -/
  | extend (split : Split)
  /-- The first range of those that are left. -/
  | pick (split : Split)
  | nothing

/-- One pass over the ranges, with `r` and `pos`; `taintEnd` is the end of the newest region. -/
def scan (taintEnd : Option ℕ) (seen : List Range) (r : Option Split) (pos : ℕ) :
    List Range → Found
  | [] =>
    match r with
    | some split => .pick split
    | none => .nothing
  | rng :: rest =>
    if rng.ok = 1 ∧ rng.start < pos then
      if taintEnd = some rng.start then .extend ⟨seen, rng, rest⟩
      else scan taintEnd (seen ++ [rng]) (some ⟨seen, rng, rest⟩) rng.start rest
    else scan taintEnd (seen ++ [rng]) r pos rest

/-- The end of the newest region. -/
def taintEnd (taint : List Tainted) : Option ℕ := taint.head?.map fun t => t.pos + t.len

/-- `taint->len += n` -/
def extendNewest (n : ℕ) : List Tainted → List Tainted
  | [] => []
  | t :: taint => { t with len := t.len + n } :: taint

/-! ### What a pass finds -/

/-- What a pass over `ranges` finds. -/
inductive Scanned (taintEnd : Option ℕ) (ranges : List Range) : Found → Prop where
  | extend {split : Split} (hsplit : split.ranges = ranges) (hok : split.rng.ok = 1)
    (hend : taintEnd = some split.rng.start) : Scanned taintEnd ranges (.extend split)
  | pick {split : Split} (hsplit : split.ranges = ranges) (hok : split.rng.ok = 1)
    (hend : taintEnd ≠ some split.rng.start)
    (hfirst : ∀ x ∈ ranges, x.ok = 1 → split.rng.start ≤ x.start) :
    Scanned taintEnd ranges (.pick split)
  | nothing (hnone : ∀ x ∈ ranges, x.ok = 1 → 2 ^ 32 - 1 ≤ x.start) :
    Scanned taintEnd ranges .nothing

/-- What a pass has found in the ranges behind it. -/
inductive Scanning (taintEnd : Option ℕ) (ranges seen : List Range) : Option Split → ℕ → Prop where
  | none (hnone : ∀ x ∈ seen, x.ok = 1 → 2 ^ 32 - 1 ≤ x.start) :
    Scanning taintEnd ranges seen none (2 ^ 32 - 1)
  | some {split : Split} (hsplit : split.ranges = ranges) (hok : split.rng.ok = 1)
    (hend : taintEnd ≠ some split.rng.start)
    (hfirst : ∀ x ∈ seen, x.ok = 1 → split.rng.start ≤ x.start) :
    Scanning taintEnd ranges seen (some split) split.rng.start

/-- What is known of the ranges behind the pass, whatever it has found in them. -/
theorem Scanning.le {taintEnd : Option ℕ} {ranges seen : List Range} {r : Option Split} {pos : ℕ}
    (h : Scanning taintEnd ranges seen r pos) {x : Range} (hx : x ∈ seen) (hok : x.ok = 1) :
    pos ≤ x.start := by
  cases h with
  | none hnone => exact hnone x hx hok
  | some _ _ _ hfirst => exact hfirst x hx hok

theorem scan_spec {taintEnd : Option ℕ} {ranges : List Range} (rest : List Range)
    {seen : List Range} {r : Option Split} {pos : ℕ} (hranges : seen ++ rest = ranges)
    (h : Scanning taintEnd ranges seen r pos) :
    Scanned taintEnd ranges (scan taintEnd seen r pos rest) := by
  induction rest generalizing seen r pos with
  | nil =>
    rw [List.append_nil] at hranges
    subst hranges
    cases h with
    | none hnone => exact .nothing hnone
    | some hsplit hok hend hfirst => exact .pick hsplit hok hend hfirst
  | cons rng rest ih =>
    have hsplit : (Split.mk seen rng rest).ranges = ranges := hranges
    have hseen : (seen ++ [rng]) ++ rest = ranges := by rw [List.append_assoc]; exact hranges
    unfold scan
    split_ifs with hcandidate hend
    · exact .extend hsplit hcandidate.1 hend
    · refine ih hseen (.some hsplit hcandidate.1 hend fun x hx hok => ?_)
      obtain hx | hx := List.mem_append.mp hx
      · exact hcandidate.2.le.trans (h.le hx hok)
      · rw [List.mem_singleton.mp hx]
    · refine ih hseen ?_
      have hlater {x : Range} (hx : x ∈ seen ++ [rng]) (hok : x.ok = 1) : pos ≤ x.start := by
        obtain hx | hx := List.mem_append.mp hx
        · exact h.le hx hok
        · rw [List.mem_singleton.mp hx] at hok ⊢
          exact Nat.not_lt.mp fun hlt => hcandidate ⟨hok, hlt⟩
      cases h with
      | none _ => exact .none fun x hx hok => hlater hx hok
      | some hsplit' hok hend _ => exact .some hsplit' hok hend fun x hx hok => hlater hx hok

theorem scanned (taintEnd : Option ℕ) (ranges : List Range) :
    Scanned taintEnd ranges (scan taintEnd [] none (2 ^ 32 - 1) ranges) :=
  scan_spec ranges (List.nil_append _) (.none fun _ hx => by cases hx)

theorem Split.ranges_perm (split : Split) : split.ranges.Perm (split.rng :: split.rest) :=
  List.perm_middle

theorem Split.mark_perm (split : Split) (ok : ℕ) :
    (split.mark ok).Perm ({ split.rng with ok } :: split.rest) :=
  List.perm_middle

/-- A range that gets into a region is no longer left. -/
theorem countP_mark_lt {split : Split} {ranges : List Range} (hsplit : split.ranges = ranges)
    (hok : split.rng.ok = 1) :
    (split.mark 2).countP (·.ok = 1) < ranges.countP (·.ok = 1) := by
  rw [← hsplit, (split.ranges_perm).countP_eq, (split.mark_perm 2).countP_eq, List.countP_cons,
    List.countP_cons]
  simp [hok]

/-- The loop over `i`: the passes end when no range is left. -/
def taintOf (ranges : List Range) (taint : List Tainted) : List Tainted :=
  match _hfound : scan (taintEnd taint) [] none (2 ^ 32 - 1) ranges with
  | .extend split => taintOf (split.mark 2) (extendNewest split.rng.size taint)
  | .pick split => taintOf (split.mark 2) (⟨split.rng.start, split.rng.size⟩ :: taint)
  | .nothing => taint
termination_by ranges.countP (·.ok = 1)
decreasing_by
  all_goals
    have hscanned := scanned (taintEnd taint) ranges
    rw [_hfound] at hscanned
    cases hscanned
    exact countP_mark_lt ‹_› ‹_›

/-! ### What the passes gather -/

def Range.Has (r : Range) (i : ℕ) : Prop := r.start ≤ i ∧ i ≤ r.last

def Tainted.Has (t : Tainted) (i : ℕ) : Prop := t.pos ≤ i ∧ i < t.pos + t.len

def Apart (a b : Range) : Prop := a.last < b.start ∨ b.last < a.start

theorem Apart.symm {a b : Range} (h : Apart a b) : Apart b a := Or.symm h

/-- The regions, from the last one to the first, do not touch. -/
def Separated (taint : List Tainted) : Prop := taint.Pairwise fun a b => b.pos + b.len < a.pos

/-- The ranges and the regions between two passes. -/
structure Gathers (ranges : List Range) (taint : List Tainted) : Prop where
  valid : ∀ r ∈ ranges, r.start ≤ r.last ∧ r.last < 2 ^ 32 - 1
  apart : ranges.Pairwise Apart
  behind : ∀ t ∈ taint.head?, ∀ r ∈ ranges, r.ok = 1 → t.pos + t.len ≤ r.start
  separated : Separated taint

theorem Split.mem_ranges {split : Split} {x : Range} :
    x ∈ split.ranges ↔ x = split.rng ∨ x ∈ split.rest :=
  split.ranges_perm.mem_iff.trans List.mem_cons

theorem Split.mem_mark {split : Split} {ok : ℕ} {x : Range} :
    x ∈ split.mark ok ↔ x = { split.rng with ok } ∨ x ∈ split.rest :=
  (split.mark_perm ok).mem_iff.trans List.mem_cons

theorem pairwise_perm {l l' : List Range} (h : l.Perm l') : l.Pairwise Apart ↔ l'.Pairwise Apart :=
  h.pairwise_iff Apart.symm

/-- The range of a pass gets its mark, and the newest region ends where the range does. -/
theorem Gathers.mark {split : Split} {taint taint' : List Tainted} (h : Gathers split.ranges taint)
    (hfirst : ∀ x ∈ split.ranges, x.ok = 1 → split.rng.start ≤ x.start)
    (hend : ∀ t ∈ taint'.head?, t.pos + t.len = split.rng.last + 1)
    (hseparated : Separated taint') : Gathers (split.mark 2) taint' where
  valid x hx := by
    obtain rfl | hx := Split.mem_mark.mp hx
    · exact h.valid split.rng (Split.mem_ranges.mpr (.inl rfl))
    · exact h.valid x (Split.mem_ranges.mpr (.inr hx))
  apart := by
    have hapart := (pairwise_perm split.ranges_perm).mp h.apart
    rw [pairwise_perm (split.mark_perm 2)]
    rw [List.pairwise_cons] at hapart ⊢
    exact hapart
  behind t ht x hx hok := by
    obtain rfl | hx := Split.mem_mark.mp hx
    · cases hok
    have hin := Split.mem_ranges.mpr (.inr hx)
    have hvalid := h.valid x hin
    have hle := hfirst x hin hok
    have hapart := (pairwise_perm split.ranges_perm).mp h.apart
    rw [List.pairwise_cons] at hapart
    rw [hend t ht]
    obtain hbehind | hbefore := hapart.1 x hx <;> omega
  separated := hseparated

theorem Range.has_size {r : Range} (hvalid : r.start ≤ r.last) : r.start + r.size = r.last + 1 := by
  unfold Range.size
  omega

/-- The bytes that are left, and those of the range of the pass. -/
theorem left_iff {split : Split} (hok : split.rng.ok = 1) (i : ℕ) :
    (∃ r ∈ split.ranges, r.ok = 1 ∧ r.Has i) ↔
      split.rng.Has i ∨ ∃ r ∈ split.mark 2, r.ok = 1 ∧ r.Has i := by
  simp only [Split.mem_ranges, Split.mem_mark, or_and_right, exists_or, exists_eq_left, hok,
    true_and]
  refine or_congr_right (or_iff_right ?_).symm
  rintro ⟨hmark, -⟩
  cases hmark

theorem taintOf_spec {ranges : List Range} {taint : List Tainted} (h : Gathers ranges taint) :
    Separated (taintOf ranges taint) ∧
      ∀ i, (∃ t ∈ taintOf ranges taint, t.Has i) ↔
        (∃ t ∈ taint, t.Has i) ∨ ∃ r ∈ ranges, r.ok = 1 ∧ r.Has i := by
  fun_induction taintOf ranges taint with
  | case1 ranges taint split hfound ih =>
    have hscanned := scanned (taintEnd taint) ranges
    rw [hfound] at hscanned
    obtain ⟨hsplit, hok, hend⟩ : split.ranges = ranges ∧ split.rng.ok = 1 ∧
        taintEnd taint = some split.rng.start := by
      cases hscanned with
      | extend hsplit hok hend => exact ⟨hsplit, hok, hend⟩
    subst hsplit
    have hsize := Range.has_size (h.valid split.rng (Split.mem_ranges.mpr (.inl rfl))).1
    cases taint with
    | nil => cases hend
    | cons t taint =>
      have hpos : t.pos + t.len = split.rng.start := Option.some.inj hend
      have hseparated := List.pairwise_cons.mp h.separated
      have hmark : Gathers (split.mark 2) (extendNewest split.rng.size (t :: taint)) := by
        refine h.mark (fun x hx hxok => ?_) (fun t' ht' => ?_)
          (List.pairwise_cons.mpr ⟨hseparated.1, hseparated.2⟩)
        · rw [← hpos]
          exact h.behind t rfl x hx hxok
        · obtain rfl := Option.some.inj ht'
          dsimp only
          omega
      obtain ⟨hout, hhas⟩ := ih hmark
      refine ⟨hout, fun i => (hhas i).trans ?_⟩
      rw [left_iff hok, ← or_assoc]
      refine or_congr_left ?_
      simp only [extendNewest, List.mem_cons, or_and_right, exists_or, exists_eq_left,
        Tainted.Has, Range.Has]
      rw [or_right_comm]
      refine or_congr_left ?_
      omega
  | case2 ranges taint split hfound ih =>
    have hscanned := scanned (taintEnd taint) ranges
    rw [hfound] at hscanned
    obtain ⟨hsplit, hok, hend, hfirst⟩ : split.ranges = ranges ∧ split.rng.ok = 1 ∧
        taintEnd taint ≠ some split.rng.start ∧
        ∀ x ∈ ranges, x.ok = 1 → split.rng.start ≤ x.start := by
      cases hscanned with
      | pick hsplit hok hend hfirst => exact ⟨hsplit, hok, hend, hfirst⟩
    subst hsplit
    have hin : split.rng ∈ split.ranges := Split.mem_ranges.mpr (.inl rfl)
    have hsize := Range.has_size (h.valid split.rng hin).1
    have hbehind : ∀ t ∈ taint, t.pos + t.len < split.rng.start := by
      cases taint with
      | nil => intro t ht; cases ht
      | cons t taint =>
        have hle := h.behind t rfl split.rng hin hok
        have hne : t.pos + t.len ≠ split.rng.start := fun heq => hend (congrArg some heq)
        intro t' ht'
        obtain rfl | ht' := List.mem_cons.mp ht'
        · omega
        · have hlt := (List.pairwise_cons.mp h.separated).1 t' ht'
          omega
    have hmark : Gathers (split.mark 2) (⟨split.rng.start, split.rng.size⟩ :: taint) := by
      refine h.mark hfirst (fun t' ht' => ?_) (List.pairwise_cons.mpr ⟨hbehind, h.separated⟩)
      obtain rfl := Option.some.inj ht'
      exact hsize
    obtain ⟨hout, hhas⟩ := ih hmark
    refine ⟨hout, fun i => (hhas i).trans ?_⟩
    rw [left_iff hok, ← or_assoc]
    refine or_congr_left ?_
    simp only [List.mem_cons, or_and_right, exists_or, exists_eq_left, Tainted.Has, Range.Has]
    rw [or_comm]
    refine or_congr_right ?_
    omega
  | case3 ranges taint hfound =>
    have hscanned := scanned (taintEnd taint) ranges
    rw [hfound] at hscanned
    have hnone : ∀ x ∈ ranges, x.ok = 1 → 2 ^ 32 - 1 ≤ x.start := by
      cases hscanned with
      | nothing hnone => exact hnone
    refine ⟨h.separated, fun i => (or_iff_left ?_).symm⟩
    rintro ⟨r, hr, hok, -⟩
    have hvalid := h.valid r hr
    have hle := hnone r hr hok
    omega

/-! ## What a try keeps -/

def Covered (ranges : List Range) (i : ℕ) : Prop := ∃ r ∈ ranges, r.ok = 1 ∧ r.Has i

/-- What is left to do for the ranges that are not tried. -/
def weight (ranges : List Range) : ℕ :=
  (ranges.map fun r => if r.ok = 0 then 2 * r.size - 1 else 0).sum

section

variable (calls : List Call) (backup changed : Bytes) (execCksum : UInt64)

/-- The byte has been replaced alone, beside bytes that stay replaced, and that was rejected. -/
def Tried (ranges : List Range) (i : ℕ) : Prop :=
  ∃ c ∈ calls, c.rejected execCksum = true ∧ c.input[i]? = changed[i]? ∧
    ∀ j, j ≠ i → c.input[j]? ≠ backup[j]? → Covered ranges j

/-- The input, the ranges and the number of tries so far. -/
structure Inv (buf : Bytes) (ranges : List Range) (n : ℕ) : Prop where
  valid : ∀ r ∈ ranges, r.start ≤ r.last ∧ r.last < backup.length
  ok : ∀ r ∈ ranges, r.ok = 0 ∨ r.ok = 1
  apart : ranges.Pairwise Apart
  length : buf.length = backup.length
  covered : ∀ i, Covered ranges i → buf[i]? = changed[i]?
  uncovered : ∀ i, ¬ Covered ranges i → buf[i]? = backup[i]?
  accepted : ∃ c ∈ calls, c.input = buf ∧ c.cksum = execCksum
  tried : ∀ i, i < backup.length → (∃ r ∈ ranges, r.Has i) ∨
    Tried calls backup changed execCksum ranges i
  limit : n + weight ranges < 2 * backup.length

end

theorem length_copyInto {dst src : Bytes} (hlen : src.length = dst.length) {pos n : ℕ}
    (hfit : pos + n ≤ dst.length) : (copyInto dst src pos n).length = dst.length := by
  simp only [copyInto, List.length_append, List.length_take, List.length_drop]
  omega

theorem copyInto_getElem? {dst src : Bytes} (hlen : src.length = dst.length) {pos n : ℕ}
    (hfit : pos + n ≤ dst.length) (i : ℕ) :
    (copyInto dst src pos n)[i]? = if pos ≤ i ∧ i < pos + n then src[i]? else dst[i]? := by
  have htake : (dst.take pos).length = pos := by
    rw [List.length_take]
    omega
  have hslice : ((src.drop pos).take n).length = n := by
    rw [List.length_take, List.length_drop]
    omega
  rw [copyInto, List.getElem?_append, List.length_append, htake, hslice]
  split_ifs with hlt hin hin
  · rw [List.getElem?_append_right (by omega), htake, List.getElem?_take_of_lt (by omega),
      List.getElem?_drop, Nat.add_sub_cancel' hin.1]
  · rw [List.getElem?_append_left (by omega), List.getElem?_take_of_lt (by omega)]
  · omega
  · rw [List.getElem?_drop, Nat.add_sub_cancel' (by omega)]

theorem popLoop_spec {ranges : List Range} (rest : List Range) {seen : List Range}
    {rmax : Option Split} {maxSize : ℕ} (hranges : seen ++ rest = ranges)
    (h : ∀ split, rmax = some split → split.ranges = ranges ∧ split.rng.ok = 0)
    (hnone : rmax = none → maxSize = 0 ∧ ∀ x ∈ seen, x.ok ≠ 0) :
    (∀ split, popLoop seen rmax maxSize rest = some split →
      split.ranges = ranges ∧ split.rng.ok = 0) ∧
      (popLoop seen rmax maxSize rest = none → ∀ x ∈ ranges, x.ok ≠ 0) := by
  induction rest generalizing seen rmax maxSize with
  | nil =>
    rw [List.append_nil] at hranges
    subst hranges
    exact ⟨h, fun hnil => (hnone hnil).2⟩
  | cons r rest ih =>
    have hseen : (seen ++ [r]) ++ rest = ranges := by rw [List.append_assoc]; exact hranges
    unfold popLoop
    split_ifs with hbig
    · refine ih hseen (fun split hsplit => ?_) fun hnil => by cases hnil
      obtain rfl := Option.some.inj hsplit
      exact ⟨hranges, hbig.1⟩
    · refine ih hseen h fun hnil => ⟨(hnone hnil).1, fun x hx => ?_⟩
      obtain hx | hx := List.mem_append.mp hx
      · exact (hnone hnil).2 x hx
      · rw [List.mem_singleton.mp hx]
        exact fun hok => hbig ⟨hok, (hnone hnil).1 ▸ Nat.zero_le _⟩

theorem popBiggestRange_spec (ranges : List Range) :
    (∀ split, popBiggestRange ranges = some split → split.ranges = ranges ∧ split.rng.ok = 0) ∧
      (popBiggestRange ranges = none → ∀ x ∈ ranges, x.ok ≠ 0) :=
  popLoop_spec ranges (List.nil_append _) (fun _ h => by cases h)
    fun _ => ⟨rfl, fun _ hx => by cases hx⟩

theorem covered_perm {ranges ranges' : List Range} (h : ranges.Perm ranges') (i : ℕ) :
    Covered ranges i ↔ Covered ranges' i := by
  simp only [Covered, h.mem_iff]

theorem covered_cons {rng : Range} {rest : List Range} {i : ℕ} :
    Covered (rng :: rest) i ↔ rng.ok = 1 ∧ rng.Has i ∨ Covered rest i := by
  simp only [Covered, List.mem_cons, or_and_right, exists_or, exists_eq_left]

theorem not_covered_of_apart {rng : Range} {rest : List Range} (hok : rng.ok = 0)
    (hapart : ∀ x ∈ rest, Apart rng x) {i : ℕ} (hi : rng.Has i) : ¬ Covered (rng :: rest) i := by
  rw [covered_cons, hok]
  rintro (⟨h, -⟩ | ⟨x, hx, -, hxi⟩)
  · cases h
  · have hxapart := hapart x hx
    unfold Apart Range.Has at *
    omega

theorem covered_halves (rng : Range) (rest : List Range) (i : ℕ) :
    Covered (halves rng ++ rest) i ↔ Covered rest i := by
  unfold halves
  split_ifs
  · simp [covered_cons]
  · rfl

section

variable {calls : List Call} {backup changed buf : Bytes} {execCksum : UInt64}
  {ranges : List Range} {n : ℕ}

theorem Tried.mono {calls' : List Call} {ranges' : List Range} {i : ℕ}
    (h : Tried calls backup changed execCksum ranges i) (hcalls : calls ⊆ calls')
    (hle : ∀ j, Covered ranges j → Covered ranges' j) :
    Tried calls' backup changed execCksum ranges' i := by
  obtain ⟨c, hc, hrejected, hbyte, hother⟩ := h
  exact ⟨c, hcalls hc, hrejected, hbyte, fun j hj hdiffers => hle j (hother j hj hdiffers)⟩

/-- The order of the ranges does not matter. -/
theorem Inv.perm {ranges' : List Range} (h : Inv calls backup changed execCksum buf ranges n)
    (hperm : ranges.Perm ranges') : Inv calls backup changed execCksum buf ranges' n where
  valid r hr := h.valid r (hperm.mem_iff.mpr hr)
  ok r hr := h.ok r (hperm.mem_iff.mpr hr)
  apart := (pairwise_perm hperm).mp h.apart
  length := h.length
  covered i hi := h.covered i ((covered_perm hperm i).mpr hi)
  uncovered i hi := h.uncovered i fun hc => hi ((covered_perm hperm i).mp hc)
  accepted := h.accepted
  tried i hi := by
    obtain ⟨r, hr, hri⟩ | htried := h.tried i hi
    · exact .inl ⟨r, hperm.mem_iff.mp hr, hri⟩
    · exact .inr (htried.mono (List.Subset.refl _) fun j => (covered_perm hperm j).mp)
  limit := by
    have hsum : weight ranges = weight ranges' := (hperm.map _).sum_nat
    rw [← hsum]
    exact h.limit

variable {rng : Range} {rest : List Range} {c : Call}

/-- The range stays replaced. -/
theorem Inv.keep (h : Inv calls backup changed execCksum buf (rng :: rest) n)
    (hlen : changed.length = backup.length) (hok : rng.ok = 0)
    (hinput : c.input = copyInto buf changed rng.start rng.size)
    (hcksum : c.cksum = execCksum) :
    Inv (calls ++ [c]) backup changed execCksum (copyInto buf changed rng.start rng.size)
      ({ rng with ok := 1 } :: rest) (n + 1) := by
  have hvalid := h.valid rng List.mem_cons_self
  have hsize := Range.has_size hvalid.1
  have hlength := h.length
  have hfit : rng.start + rng.size ≤ buf.length := by omega
  have hbyte := copyInto_getElem? (hlen.trans h.length.symm) hfit
  have hold (i : ℕ) : Covered (rng :: rest) i ↔ Covered rest i := by
    rw [covered_cons, hok]
    exact or_iff_right fun hc => absurd hc.1 (by decide)
  have hnew (i : ℕ) :
      Covered ({ rng with ok := 1 } :: rest) i ↔ rng.Has i ∨ Covered rest i := by
    rw [covered_cons]
    exact or_congr_left (and_iff_right rfl)
  refine ⟨?_, ?_, ?_, ?_, fun i hi => ?_, fun i hi => ?_, ⟨c, by simp, hinput, hcksum⟩,
    fun i hi => ?_, ?_⟩
  · exact List.forall_mem_cons.mpr ⟨hvalid, fun r hr => h.valid r (List.mem_cons_of_mem _ hr)⟩
  · exact List.forall_mem_cons.mpr ⟨.inr rfl, fun r hr => h.ok r (List.mem_cons_of_mem _ hr)⟩
  · have hapart := h.apart
    rw [List.pairwise_cons] at hapart ⊢
    exact hapart
  · rw [length_copyInto (hlen.trans h.length.symm) hfit, h.length]
  · rw [hbyte]
    split_ifs with hin
    · rfl
    · refine h.covered i ((hold i).mpr (((hnew i).mp hi).resolve_left fun hhas => hin ?_))
      unfold Range.Has at hhas
      omega
  · rw [hnew, not_or] at hi
    rw [hbyte, if_neg]
    · exact h.uncovered i fun hc => hi.2 ((hold i).mp hc)
    · have hnot := hi.1
      unfold Range.Has at hnot
      omega
  · obtain ⟨r, hr, hri⟩ | htried := h.tried i hi
    · obtain rfl | hr := List.mem_cons.mp hr
      · exact .inl ⟨_, List.mem_cons_self, hri⟩
      · exact .inl ⟨r, List.mem_cons_of_mem _ hr, hri⟩
    · exact .inr (htried.mono (List.subset_append_left _ _) fun j hj =>
        (hnew j).mpr (.inr ((hold j).mp hj)))
  · have hweight := h.limit
    simp only [weight, List.map_cons, List.sum_cons, hok, if_true, one_ne_zero, if_false]
      at hweight ⊢
    omega

/-- A byte of a rejected range is in one of its halves, or the range is that byte alone. -/
theorem Inv.tried_range (h : Inv calls backup changed execCksum buf (rng :: rest) n)
    (hlen : changed.length = backup.length) (hok : rng.ok = 0)
    (hinput : c.input = copyInto buf changed rng.start rng.size)
    (hrejected : c.rejected execCksum = true) {i : ℕ} (hi : rng.Has i) :
    (∃ r ∈ halves rng ++ rest, r.Has i) ∨
      Tried (calls ++ [c]) backup changed execCksum (halves rng ++ rest) i := by
  have hvalid := h.valid rng List.mem_cons_self
  have hsize := Range.has_size hvalid.1
  have hlength := h.length
  have hfit : rng.start + rng.size ≤ buf.length := by omega
  have hbyte := copyInto_getElem? (hlen.trans h.length.symm) hfit
  unfold Range.Has at hi
  by_cases hbig : 1 < rng.size
  · left
    rw [halves, if_pos hbig]
    by_cases hright : rng.start + rng.size / 2 ≤ i
    · exact ⟨⟨rng.start + rng.size / 2, rng.last, 0⟩, List.mem_cons_self, hright, hi.2⟩
    · refine ⟨⟨rng.start, rng.start + rng.size / 2 - 1, 0⟩,
        List.mem_cons_of_mem _ List.mem_cons_self, hi.1, ?_⟩
      dsimp only
      omega
  · refine .inr ⟨c, by simp, hrejected, ?_, fun j hj hdiffers => ?_⟩
    · rw [hinput, hbyte, if_pos (by omega)]
    · rw [hinput, hbyte, if_neg (by omega)] at hdiffers
      have hcovered := not_not.mp fun hc => hdiffers (h.uncovered j hc)
      rw [covered_cons, hok] at hcovered
      rw [covered_halves]
      exact hcovered.resolve_left fun hc => absurd hc.1 (by decide)

/-- The range is put back, and split. -/
theorem Inv.putBack (h : Inv calls backup changed execCksum buf (rng :: rest) n)
    (hlen : changed.length = backup.length) (hok : rng.ok = 0)
    (hinput : c.input = copyInto buf changed rng.start rng.size)
    (hrejected : c.rejected execCksum = true) :
    Inv (calls ++ [c]) backup changed execCksum
      (copyInto (copyInto buf changed rng.start rng.size) backup rng.start rng.size)
      (halves rng ++ rest) (n + 1) := by
  have hvalid := h.valid rng List.mem_cons_self
  have hsize := Range.has_size hvalid.1
  have hlength := h.length
  have hfit : rng.start + rng.size ≤ buf.length := by omega
  have hlen' := hlen.trans h.length.symm
  have hbyte := copyInto_getElem? hlen' hfit
  have hapart := List.pairwise_cons.mp h.apart
  have hrest (i : ℕ) : Covered (rng :: rest) i ↔ Covered (halves rng ++ rest) i := by
    rw [covered_halves, covered_cons, hok]
    exact or_iff_right fun hc => absurd hc.1 (by decide)
  -- What was in the place of the range is what comes back.
  have hsame :
      copyInto (copyInto buf changed rng.start rng.size) backup rng.start rng.size = buf := by
    have hmid := length_copyInto hlen' hfit
    refine List.ext_getElem? fun i => ?_
    rw [copyInto_getElem? (h.length.symm.trans hmid.symm) (hmid.symm ▸ hfit), hbyte]
    split_ifs with hin
    · have hhas : rng.Has i := by
        unfold Range.Has
        omega
      exact (h.uncovered i (not_covered_of_apart hok hapart.1 hhas)).symm
    · rfl
  rw [hsame]
  obtain ⟨c₀, hc₀, haccepted⟩ := h.accepted
  refine ⟨fun r hr => ?_, fun r hr => ?_, ?_, h.length,
    fun i hi => h.covered i ((hrest i).mpr hi),
    fun i hi => h.uncovered i fun hc => hi ((hrest i).mp hc),
    ⟨c₀, List.mem_append_left _ hc₀, haccepted⟩, fun i hi => ?_, ?_⟩
  · obtain hr | hr := List.mem_append.mp hr
    · unfold halves at hr
      split_ifs at hr
      · simp only [List.mem_cons, List.not_mem_nil, or_false] at hr
        obtain rfl | rfl := hr <;> dsimp only <;> omega
      · cases hr
    · exact h.valid r (List.mem_cons_of_mem _ hr)
  · obtain hr | hr := List.mem_append.mp hr
    · unfold halves at hr
      split_ifs at hr
      · simp only [List.mem_cons, List.not_mem_nil, or_false] at hr
        obtain rfl | rfl := hr <;> exact .inl rfl
      · cases hr
    · exact h.ok r (List.mem_cons_of_mem _ hr)
  · unfold halves
    split_ifs with hbig
    · simp only [List.cons_append, List.nil_append, List.pairwise_cons, List.forall_mem_cons]
      refine ⟨⟨?_, fun y hy => ?_⟩, fun y hy => ?_, hapart.2⟩
      · exact .inr (by dsimp only; omega)
      · have hy := hapart.1 y hy
        unfold Apart at hy ⊢
        dsimp only
        omega
      · have hy := hapart.1 y hy
        unfold Apart at hy ⊢
        dsimp only
        omega
    · exact hapart.2
  · obtain ⟨r, hr, hri⟩ | htried := h.tried i hi
    · obtain rfl | hr := List.mem_cons.mp hr
      · exact h.tried_range hlen hok hinput hrejected hri
      · exact .inl ⟨r, List.mem_append_right _ hr, hri⟩
    · exact .inr (htried.mono (List.subset_append_left _ _) fun j => (hrest j).mp)
  · have hlimit := h.limit
    unfold halves
    split_ifs with hbig
    · simp only [weight, List.cons_append, List.nil_append, List.map_cons, List.sum_cons, hok,
        if_true, Range.size] at hlimit hbig ⊢
      omega
    · simp only [weight, List.nil_append, List.map_cons, List.sum_cons, hok, if_true] at hlimit ⊢
      omega

theorem Call.cksum_eq (h : c.rejected execCksum = false) : c.cksum = execCksum := by
  unfold Call.rejected at h
  rw [Bool.or_eq_false_iff] at h
  exact not_not.mp (of_decide_eq_false h.1)

theorem getExecChecksum_input {env : Env} (h : getExecChecksum env calls buf = some c) :
    c.input = buf := by
  unfold getExecChecksum at h
  dsimp only at h
  split at h
  · cases h
  · cases h
    rfl
  · cases h
    rfl

theorem Logged.concat {env : Env} (h : Logged env calls)
    (hcall : getExecChecksum env calls buf = some c) : Logged env (calls ++ [c]) := by
  intro k d hd
  rw [List.getElem?_append] at hd
  split_ifs at hd with hk
  · rw [List.take_append_of_le_length hk.le]
    exact h k d hd
  · obtain ⟨rfl, rfl⟩ : k = calls.length ∧ c = d := by
      obtain ⟨hzero, hval⟩ := List.getElem?_eq_some_iff.mp hd
      rw [List.length_singleton] at hzero
      exact ⟨by omega, by simpa using hval⟩
    rw [List.take_left, getExecChecksum_input hcall]
    exact hcall

/-- The calls of the loop, behind those that were made before. -/
theorem colorLoop_calls {env : Env} {stageMax : ℕ} {s s' : Col} (h : Logged env s.calls)
    (hloop : colorLoop env backup changed execCksum stageMax s = some s') :
    Logged env s'.calls ∧ s.calls <+: s'.calls ∧
      s'.calls.length + s.stageCur = s.calls.length + s'.stageCur := by
  fun_induction colorLoop env backup changed execCksum stageMax s with
  | case1 s hpop =>
    cases hloop
    exact ⟨h, List.prefix_rfl, rfl⟩
  | case2 s split hpop hlimit rng buf hcall => cases hloop
  | case3 s split hpop hlimit rng buf c hcall hrejected ih =>
    obtain ⟨hlogged, hprefix, hlength⟩ := ih (h.concat hcall) hloop
    refine ⟨hlogged, (List.prefix_append _ _).trans hprefix, ?_⟩
    simp only [List.length_append, List.length_singleton] at hlength
    omega
  | case4 s split hpop hlimit rng buf c hcall hrejected ih =>
    obtain ⟨hlogged, hprefix, hlength⟩ := ih (h.concat hcall) hloop
    refine ⟨hlogged, (List.prefix_append _ _).trans hprefix, ?_⟩
    simp only [List.length_append, List.length_singleton] at hlength
    omega
  | case5 s split hpop hlimit =>
    cases hloop
    exact ⟨h, List.prefix_rfl, rfl⟩

/-- The loop ends when every range has been tried. -/
theorem colorLoop_spec {env : Env} {s s' : Col}
    (h : Inv s.calls backup changed execCksum s.buf s.ranges s.stageCur)
    (hlen : changed.length = backup.length)
    (hloop : colorLoop env backup changed execCksum (2 * backup.length) s = some s') :
    Inv s'.calls backup changed execCksum s'.buf s'.ranges s'.stageCur ∧
      ∀ r ∈ s'.ranges, r.ok ≠ 0 := by
  fun_induction colorLoop env backup changed execCksum (2 * backup.length) s with
  | case1 s hpop =>
    cases hloop
    exact ⟨h, (popBiggestRange_spec _).2 hpop⟩
  | case2 s split hpop hlimit rng buf hcall => cases hloop
  | case3 s split hpop hlimit rng buf c hcall hrejected ih =>
    obtain ⟨hsplit, hok⟩ := (popBiggestRange_spec s.ranges).1 split hpop
    rw [← hsplit] at h
    have hinput := getExecChecksum_input hcall
    exact ih ((h.perm split.ranges_perm).putBack hlen hok hinput hrejected) hloop
  | case4 s split hpop hlimit rng buf c hcall hrejected ih =>
    obtain ⟨hsplit, hok⟩ := (popBiggestRange_spec s.ranges).1 split hpop
    rw [← hsplit] at h
    have hinput := getExecChecksum_input hcall
    have hcksum := Call.cksum_eq (Bool.eq_false_iff.mpr hrejected)
    exact ih (((h.perm split.ranges_perm).keep hlen hok hinput hcksum).perm
      (split.mark_perm 1).symm) hloop
  | case5 s split hpop hlimit =>
    have hlt := h.limit
    omega

end

/-! ## The whole -/

theorem drawUntil_ne {base : UInt8} {n : ℕ} {b c : UInt8} {draws draws' : List ℕ}
    (h : drawUntil base n b draws = some (c, draws')) : c ≠ b := by
  induction draws with
  | nil => cases h
  | cons d draws ih =>
    unfold drawUntil at h
    dsimp only at h
    split_ifs at h with heq
    · exact ih h
    · cases h
      exact heq

/-- A choice is not the byte itself. -/
def Choice.differs (b : UInt8) : Choice → Bool
  | .fixed c => c ≠ b
  | .below .. => true

theorem typeChoice_differs (b : UInt8) : (typeChoice b).differs b = true := by
  have hall : ∀ n < 256, (typeChoice (UInt8.ofNat n)).differs (UInt8.ofNat n) = true := by
    decide +kernel
  have hb := hall b.toNat b.toNat_lt
  rwa [UInt8.ofNat_toNat] at hb

/-- Every byte is replaced by another one. -/
theorem replaceAll_spec {choice : UInt8 → Choice}
    (hdiffers : ∀ b, (choice b).differs b = true) {buf changed : Bytes} {draws : List ℕ}
    (h : replaceAll choice buf draws = some changed) :
    changed.length = buf.length ∧ ∀ i < buf.length, changed[i]? ≠ buf[i]? := by
  induction buf generalizing draws changed with
  | nil =>
    cases h
    exact ⟨rfl, fun i hi => absurd hi (Nat.not_lt_zero i)⟩
  | cons b buf ih =>
    unfold replaceAll at h
    split at h
    · cases h
    rename_i c draws' hbyte
    obtain ⟨changed, hrest, rfl⟩ := Option.map_eq_some_iff.mp h
    obtain ⟨hlen, hne⟩ := ih hrest
    refine ⟨congrArg (· + 1) hlen, fun i hi => ?_⟩
    cases i with
    | zero =>
      have hc : c ≠ b := by
        have hchoice := hdiffers b
        unfold replaceByte at hbyte
        split at hbyte <;> rename_i hcase
        · cases hbyte
          rw [hcase] at hchoice
          exact of_decide_eq_true hchoice
        · exact drawUntil_ne hbyte
      exact fun heq => hc (Option.some.inj heq)
    | succ i => exact hne i (Nat.lt_of_succ_lt_succ hi)

structure Cfg where
  randomColorization : Bool
  colorizeSuccess : ℕ
  cmplogLvl : ℕ
  activeItems : ℕ

def Cfg.choice (cfg : Cfg) : UInt8 → Choice :=
  if cfg.randomColorization then randomChoice else typeChoice

/-- `positions` -/
def positions (taint : List Tainted) : ℕ := (taint.map Tainted.len).sum

/-- The regions are thrown away: `CMPLOG_POSITIONS_MAX`, `CMPLOG_CORPUS_PERCENT`. -/
def Cfg.unsatisfactory (cfg : Cfg) (len : ℕ) (taint : List Tainted) : Bool :=
  cfg.colorizeSuccess ≠ 0 && cfg.cmplogLvl < 3 && positions taint > 12 * 1024 &&
    len / positions taint = 1 && cfg.activeItems / cfg.colorizeSuccess > 5

/-- What is left in `buf`, `*taints` and `colorize_success`, and the calls. -/
structure Out where
  buf : Bytes
  taints : List Tainted
  colorizeSuccess : ℕ
  calls : List Call
  deriving DecidableEq

/-- `colorization`, where it returns 0 and the random numbers suffice. -/
def colorization (cfg : Cfg) (env : Env) (draws : List ℕ) (buf : Bytes) : Option Out :=
  match getExecChecksum env [] buf with
  | none => none
  | some c =>
    match replaceAll cfg.choice buf draws with
    | none => none
    | some changed =>
      let start : Col := ⟨buf, [⟨0, buf.length - 1, 0⟩], 0, [c]⟩
      (colorLoop env buf changed c.cksum (2 * buf.length) start).map fun s =>
        let taint := taintOf s.ranges []
        if taint = [] ∨ cfg.unsatisfactory buf.length taint = true then
          ⟨s.buf, [], cfg.colorizeSuccess, s.calls⟩
        else ⟨s.buf, taint, cfg.colorizeSuccess + 1, s.calls⟩

theorem Cfg.choice_differs (cfg : Cfg) (b : UInt8) : (cfg.choice b).differs b = true := by
  unfold Cfg.choice
  split_ifs
  · rfl
  · exact typeChoice_differs b

variable {calls : List Call} {backup changed : Bytes} {execCksum : UInt64}

/-- Before the first try. -/
theorem Inv.start (hnil : backup ≠ []) {c : Call} (hinput : c.input = backup) :
    Inv [c] backup changed c.cksum backup [⟨0, backup.length - 1, 0⟩] 0 := by
  have hpos := List.length_pos_of_ne_nil hnil
  have hnone (i : ℕ) : ¬ Covered [⟨0, backup.length - 1, 0⟩] i := by
    simp [Covered]
  refine ⟨?_, ?_, List.pairwise_singleton _ _, rfl, fun i hi => absurd hi (hnone i),
    fun _ _ => rfl, ⟨c, List.mem_singleton_self _, hinput, rfl⟩,
    fun i hi => .inl ⟨_, List.mem_singleton_self _, ?_⟩, ?_⟩
  · intro r hr
    rw [List.mem_singleton.mp hr]
    exact ⟨Nat.zero_le _, Nat.sub_lt hpos Nat.one_pos⟩
  · intro r hr
    rw [List.mem_singleton.mp hr]
    exact .inl rfl
  · exact ⟨Nat.zero_le _, Nat.le_sub_one_of_lt hi⟩
  · simp only [weight, List.map_cons, List.map_nil, List.sum_cons, List.sum_nil, if_true,
      Range.size]
    omega

/-- At the end the bytes that differ are the covered ones. -/
theorem Inv.differs_iff {buf : Bytes} {ranges : List Range} {n : ℕ}
    (h : Inv calls backup changed execCksum buf ranges n)
    (hchanged : ∀ i < backup.length, changed[i]? ≠ backup[i]?) (i : ℕ) :
    buf[i]? ≠ backup[i]? ↔ Covered ranges i := by
  constructor
  · exact fun hne => not_not.mp fun hc => hne (h.uncovered i hc)
  · intro hc
    have hin : i < backup.length := by
      obtain ⟨r, hr, -, hri⟩ := hc
      exact hri.2.trans_lt (h.valid r hr).2
    rw [h.covered i hc]
    exact hchanged i hin

theorem Inv.gathers {buf : Bytes} {ranges : List Range} {n : ℕ}
    (h : Inv calls backup changed execCksum buf ranges n) (hlen : backup.length < 2 ^ 32) :
    Gathers ranges [] where
  valid r hr := by
    have hvalid := h.valid r hr
    exact ⟨hvalid.1, by omega⟩
  apart := h.apart
  behind t ht := by cases ht
  separated := List.Pairwise.nil

/-- A call for the colorized input reads the checksum that the first call reads for the input.  The
regions are the bytes that differ, they do not touch, and they are handed out unless they are thrown
away.  And every other byte has been replaced alone, beside some that do differ in the end, in a
call that was rejected. -/
theorem colorization_spec {cfg : Cfg} {env : Env} {draws : List ℕ} {buf : Bytes} {out : Out}
    (h : colorization cfg env draws buf = some out) (hnil : buf ≠ [])
    (hlen : buf.length < 2 ^ 32) :
    ∃ first tries taint,
      out.calls = first :: tries ∧ first.input = buf ∧ Logged env out.calls ∧
      out.calls.length ≤ 2 * buf.length ∧
      (∃ c ∈ out.calls, c.input = out.buf ∧ c.cksum = first.cksum) ∧
      (∀ i, (∃ t ∈ taint, t.Has i) ↔ out.buf[i]? ≠ buf[i]?) ∧
      Separated taint ∧
      out.taints = (if cfg.unsatisfactory buf.length taint = true then [] else taint) ∧
      ∀ i < buf.length, out.buf[i]? = buf[i]? →
        ∃ c ∈ out.calls, c.rejected first.cksum = true ∧ c.input[i]? ≠ buf[i]? ∧
          ∀ j, j ≠ i → c.input[j]? ≠ buf[j]? → out.buf[j]? ≠ buf[j]? := by
  unfold colorization at h
  split at h
  · cases h
  rename_i first hfirst
  split at h
  · cases h
  rename_i changed hreplace
  obtain ⟨s, hloop, hout⟩ := Option.map_eq_some_iff.mp h
  obtain ⟨hlength, hchanged⟩ := replaceAll_spec cfg.choice_differs hreplace
  have hinput := getExecChecksum_input hfirst
  obtain ⟨hinv, hdone⟩ := colorLoop_spec (Inv.start hnil hinput) hlength hloop
  have hnone : Logged env [] := fun k c hc => by simp at hc
  obtain ⟨hlogged, ⟨tries, htries⟩, hcount⟩ := colorLoop_calls (hnone.concat hfirst) hloop
  obtain ⟨hseparated, hhas⟩ := taintOf_spec (hinv.gathers hlen)
  have hbuf : out.buf = s.buf ∧ out.calls = s.calls := by
    rw [← hout]
    dsimp only
    split_ifs <;> exact ⟨rfl, rfl⟩
  obtain ⟨hbuf, hcalls⟩ := hbuf
  have hregions (i : ℕ) : (∃ t ∈ taintOf s.ranges [], t.Has i) ↔ Covered s.ranges i := by
    rw [hhas]
    exact or_iff_right fun ⟨t, ht, _⟩ => by cases ht
  refine ⟨first, tries, taintOf s.ranges [], hcalls.trans htries.symm, hinput, hcalls ▸ hlogged, ?_,
    ?_, fun i => ?_, hseparated, ?_, fun i hi hsame => ?_⟩
  · have hlimit := hinv.limit
    rw [hcalls]
    simp only [List.length_singleton] at hcount
    omega
  · rw [hcalls, hbuf]
    exact hinv.accepted
  · rw [hregions, hbuf, hinv.differs_iff hchanged]
  · rw [← hout]
    dsimp only
    split_ifs with hthrown hunsatisfactory hunsatisfactory
    · rfl
    · exact (hthrown.resolve_right hunsatisfactory).symm
    · exact absurd (.inr hunsatisfactory) hthrown
    · rfl
  · have hnot : ¬ Covered s.ranges i := by
      rw [← hinv.differs_iff hchanged, ← hbuf]
      exact not_not.mpr hsame
    obtain ⟨r, hr, hri⟩ | ⟨c, hc, hrejected, hbyte, hother⟩ := hinv.tried i hi
    · exact absurd ⟨r, hr, (hinv.ok r hr).resolve_left (hdone r hr), hri⟩ hnot
    · refine ⟨c, hcalls ▸ hc, hrejected, hbyte ▸ hchanged i hi, fun j hj hne => ?_⟩
      rw [hbuf, hinv.differs_iff hchanged]
      exact hother j hj hne

/-- The trace is that of the second byte; `B..C` is refused. -/
def secondByte : Env where
  answer := fun _ data =>
    if data.head? = some 66 ∧ data.getLast? = some 67 then .refused
    else .ran (if data[1]? = some 66 then 1 else 2)
  slow := fun _ => false
  stale := 0

/-- The third byte is replaced.  The first one is not: the call that replaces it alone is refused,
and reads what a rejected one has left in the trace map. -/
theorem colorization_secondByte :
    ∃ out, colorization ⟨false, 0, 2, 1⟩ secondByte [1, 2, 3] [65, 66, 67] = some out ∧
      out.buf = [65, 66, 68] ∧ out.taints = [⟨2, 1⟩] ∧
      (∃ c ∈ out.calls, c.ran = false ∧ c.cksum = 2) ∧
      ∃ c ∈ out.calls, c.rejected 1 = true ∧ c.input[0]? ≠ some 65 ∧
        ∀ j, j ≠ 0 → c.input[j]? ≠ [65, 66, 67][j]? → out.buf[j]? ≠ [65, 66, 67][j]? := by
  have hout : colorization ⟨false, 0, 2, 1⟩ secondByte [1, 2, 3] [65, 66, 67] =
      some ⟨[65, 66, 68], [⟨2, 1⟩], 1,
        [⟨[65, 66, 67], true, 1, false⟩, ⟨[66, 67, 68], true, 2, false⟩,
          ⟨[65, 67, 68], true, 2, false⟩, ⟨[66, 66, 67], false, 2, false⟩,
          ⟨[65, 67, 67], true, 2, false⟩, ⟨[65, 66, 68], true, 1, false⟩]⟩ := by decide +kernel
  obtain ⟨first, tries, taint, hcalls, -, -, -, -, -, -, -, htried⟩ :=
    colorization_spec hout (List.cons_ne_nil _ _) (by decide)
  obtain ⟨c, hc, hrejected, hbyte, hother⟩ := htried 0 (by decide) rfl
  rw [← (List.cons.inj hcalls).1] at hrejected
  exact ⟨_, hout, rfl, rfl, ⟨⟨[66, 66, 67], false, 2, false⟩, by decide, rfl, rfl⟩, c, hc,
    hrejected, hbyte, hother⟩

end AflNv.Colorization
