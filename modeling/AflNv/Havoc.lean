import AflNv.AutoExtras
import AflNv.CFormat
import AflNv.Lib.Checked
import AflNv.Lib.Codec
import AflNv.Lib.Numeral

/-!
# The havoc mutations

The havoc stage of `fuzz_one_original` (afl-fuzz-one.c) changes a buffer by a stack of random
mutations, which it draws from a table, before each execution.  The mutations copy, overwrite,
insert and delete blocks whose places and lengths are drawn as well.  `mutate` is the switch over
the mutations with every access to a buffer and every difference of lengths checked.

* `chooseBlockLen_safe` bounds the lengths of the blocks.
* `mutate_safe` says that no mutation leaves a buffer, and how far one lets the buffer grow.
-/

namespace AflNv.Havoc

open AflNv.Lib.Checked AflNv.Lib.Codec AflNv.Lib.Numeral AflNv.AutoExtras

/-- `MAX_FILE` -/
def maxFile : ℕ := 1024 * 1024

/-- `ARITH_MAX` -/
def arithMax : ℕ := 35

/-- `HAVOC_BLK_SMALL` -/
def havocBlkSmall : ℕ := 32

/-- `HAVOC_BLK_MEDIUM` -/
def havocBlkMedium : ℕ := 128

/-- `HAVOC_BLK_LARGE` -/
def havocBlkLarge : ℕ := 1500

/-- `HAVOC_BLK_XL` -/
def havocBlkXl : ℕ := 32768

/-- The mutations, as `MUT_FLIPBIT` and so on. -/
inductive Mutation
  | flipbit
  | interesting8 | interesting16 | interesting16be | interesting32 | interesting32be
  | arith8_ | arith8 | arith16_ | arith16be_ | arith16 | arith16be
  | arith32_ | arith32be_ | arith32 | arith32be
  | rand8
  | cloneCopy | cloneFixed | overwriteCopy | overwriteFixed
  | byteadd | bytesub | flip8
  | switch | del | shuffle | delone | insertone
  | asciinum | insertasciinum
  | extraOverwrite | extraInsert | autoExtraOverwrite | autoExtraInsert
  | spliceOverwrite | spliceInsert
  deriving DecidableEq

/-- What the stage reads but does not change. -/
structure Env where
  /-- `mutation_array` -/
  table : List Mutation
  table_two : 1 < table.length
  queueCycle : ℕ
  runOver10m : Bool
  extras : List Bytes
  aExtras : List Bytes
  /-- The test cases of the queue. -/
  queueBuf : List Bytes
  currentEntry : ℕ
  readyForSplicingCount : ℕ
  ready_le : readyForSplicingCount ≤ queueBuf.length
  /-- What memory holds that nothing was written to. -/
  junk : ℕ → UInt8

variable (env : Env)

/-- `choose_block_len` -/
def chooseBlockLen (limit : ℕ) : Prog ℕ :=
  below (if env.runOver10m then min env.queueCycle 3 else 1) >>= fun pick =>
  (if pick = 0 then pure (1, havocBlkSmall)
    else if pick = 1 then pure (havocBlkSmall, havocBlkMedium)
    else below 10 >>= fun r =>
      if r ≠ 0 then pure (havocBlkMedium, havocBlkLarge) else pure (havocBlkLarge, havocBlkXl))
    >>= fun (range : ℕ × ℕ) =>
  let minValue := if limit ≤ range.1 then 1 else range.1
  minus (min range.2 limit) minValue >>= fun span =>
  below (span + 1) >>= fun r => pure (minValue + r)

/-! ## Bytes and words -/

/-- `out_buf[pos] = f(out_buf[pos])` -/
def poke (f : UInt8 → UInt8) (buf : Bytes) (pos : ℕ) : Prog Bytes :=
  load buf pos >>= fun b => store buf pos (f b)

/-- `*(u16 *)(out_buf + pos) = f(*(u16 *)(out_buf + pos))` -/
def poke16 (f : UInt16 → UInt16) (buf : Bytes) (pos : ℕ) : Prog Bytes :=
  slice buf pos 2 >>= fun v => blit buf pos (putLE 2 (f (UInt16.ofNat (getLE 2 v))).toNat)

/-- `*(u32 *)(out_buf + pos) = f(*(u32 *)(out_buf + pos))` -/
def poke32 (f : UInt32 → UInt32) (buf : Bytes) (pos : ℕ) : Prog Bytes :=
  slice buf pos 4 >>= fun v => blit buf pos (putLE 4 (f (UInt32.ofNat (getLE 4 v))).toNat)

/-- A byte anywhere. -/
def pokeAny (f : UInt8 → UInt8) (buf : Bytes) : Prog (Option Bytes) :=
  below buf.length >>= fun pos => some <$> poke f buf pos

/-- A byte of the list `values` anywhere. -/
def setInteresting8 (buf : Bytes) : Prog (Option Bytes) :=
  below interesting8.length >>= fun item => load interesting8 item >>= fun x =>
  pokeAny (fun _ => UInt8.ofInt x) buf

def setInteresting16 (order : UInt16 → UInt16) (buf : Bytes) : Prog (Option Bytes) :=
  if buf.length < 2 then pure (some buf)
  else
    below interesting16.length >>= fun item => load interesting16 item >>= fun x =>
    minus buf.length 1 >>= fun limit => below limit >>= fun pos =>
    some <$> poke16 (fun _ => order (UInt16.ofInt x)) buf pos

def setInteresting32 (order : UInt32 → UInt32) (buf : Bytes) : Prog (Option Bytes) :=
  if buf.length < 4 then pure (some buf)
  else
    below interesting32.length >>= fun item => load interesting32 item >>= fun x =>
    minus buf.length 3 >>= fun limit => below limit >>= fun pos =>
    some <$> poke32 (fun _ => order (UInt32.ofInt x)) buf pos

def changeByte (f : UInt8 → UInt8 → UInt8) (buf : Bytes) : Prog (Option Bytes) :=
  below arithMax >>= fun r => pokeAny (fun b => f b (UInt8.ofNat (1 + r))) buf

def changeWord16 (f : UInt16 → UInt16 → UInt16) (buf : Bytes) : Prog (Option Bytes) :=
  if buf.length < 2 then pure (some buf)
  else
    minus buf.length 1 >>= fun limit => below limit >>= fun pos =>
    below arithMax >>= fun r => some <$> poke16 (fun v => f v (UInt16.ofNat (1 + r))) buf pos

def changeWord32 (f : UInt32 → UInt32 → UInt32) (buf : Bytes) : Prog (Option Bytes) :=
  if buf.length < 4 then pure (some buf)
  else
    minus buf.length 3 >>= fun limit => below limit >>= fun pos =>
    below arithMax >>= fun r => some <$> poke32 (fun v => f v (UInt32.ofNat (1 + r))) buf pos

/-! ## Blocks -/

/-- `afl_realloc` of a scratch buffer. -/
def alloc (n : ℕ) : Bytes := (List.range n).map env.junk

/-- A new buffer with the head of `buf` up to `off`, `blk`, and the tail of `buf` from `off2` on;
`slack` bytes too many are allocated. -/
def rebuild (buf : Bytes) (off off2 : ℕ) (blk : Bytes) (slack : ℕ) : Prog Bytes :=
  minus (buf.length + blk.length) (off2 - off) >>= fun newLen =>
  slice buf 0 off >>= fun head => blit (alloc env (newLen + slack)) 0 head >>= fun newBuf =>
  blit newBuf off blk >>= fun newBuf =>
  minus buf.length off2 >>= fun rest => slice buf off2 rest >>= fun tail =>
  blit newBuf (off + blk.length) tail >>= fun newBuf => pure (newBuf.take newLen)

/-- What becomes of a mutation for which the buffer is too long or holds nothing of use. -/
def giveUp (buf : Bytes) : Prog (Option Bytes) :=
  pure (if buf.length < 8 then some buf else none)

def cloneCopy (buf : Bytes) : Prog (Option Bytes) :=
  if buf.length + havocBlkXl < maxFile then
    chooseBlockLen env buf.length >>= fun cloneLen =>
    minus buf.length cloneLen >>= fun room => below (room + 1) >>= fun cloneFrom =>
    below buf.length >>= fun cloneTo =>
    slice buf cloneFrom cloneLen >>= fun blk => some <$> rebuild env buf cloneTo cloneTo blk 0
  else giveUp buf

/-- The byte that fills a block: a random one, or the one before the block. -/
def fillByte (buf : Bytes) (start : ℕ) : Prog UInt8 :=
  below 2 >>= fun strat =>
  if strat ≠ 0 then (fun r => UInt8.ofNat r) <$> below 256
  else load buf (if start ≠ 0 then start - 1 else 0)

def cloneFixed (buf : Bytes) : Prog (Option Bytes) :=
  if buf.length + havocBlkXl < maxFile then
    chooseBlockLen env havocBlkXl >>= fun cloneLen => below buf.length >>= fun cloneTo =>
    fillByte buf cloneTo >>= fun item =>
    some <$> rebuild env buf cloneTo cloneTo (List.replicate cloneLen item) 0
  else giveUp buf

def overwriteCopy (buf : Bytes) : Prog (Option Bytes) :=
  if buf.length < 2 then pure (some buf)
  else
    minus buf.length 1 >>= fun limit => chooseBlockLen env limit >>= fun copyLen =>
    minus buf.length copyLen >>= fun room =>
    retry (below (room + 1) >>= fun copyFrom => below (room + 1) >>= fun copyTo =>
      pure (if copyFrom = copyTo then none else some (copyFrom, copyTo))) >>= fun ends =>
    slice buf ends.1 copyLen >>= fun blk => some <$> blit buf ends.2 blk

def overwriteFixed (buf : Bytes) : Prog (Option Bytes) :=
  if buf.length < 2 then pure (some buf)
  else
    minus buf.length 1 >>= fun limit => chooseBlockLen env limit >>= fun copyLen =>
    minus buf.length copyLen >>= fun room => below (room + 1) >>= fun copyTo =>
    fillByte buf copyTo >>= fun item => some <$> blit buf copyTo (List.replicate copyLen item)

/-- `MUT_SWITCH` -/
def switchBlocks (buf : Bytes) : Prog (Option Bytes) :=
  if buf.length < 4 then pure (some buf)
  else
    below buf.length >>= fun switchFrom =>
    retry (below buf.length >>= fun switchTo =>
      pure (if switchFrom = switchTo then none else some switchTo)) >>= fun switchTo =>
    minus (max switchFrom switchTo) (min switchFrom switchTo) >>= fun switchLen =>
    minus buf.length (max switchFrom switchTo) >>= fun toEnd =>
    chooseBlockLen env (min switchLen toEnd) >>= fun switchLen =>
    slice buf switchFrom switchLen >>= fun backup => slice buf switchTo switchLen >>= fun blk =>
    blit buf switchFrom blk >>= fun buf => some <$> blit buf switchTo backup

/-- `memmove` of what follows, and the shorter length. -/
def delete (buf : Bytes) (delFrom delLen : ℕ) : Prog Bytes :=
  minus buf.length delFrom >>= fun rest => minus rest delLen >>= fun rest =>
  slice buf (delFrom + delLen) rest >>= fun tail => blit buf delFrom tail >>= fun moved =>
  minus buf.length delLen >>= fun newLen => pure (moved.take newLen)

def del (buf : Bytes) : Prog (Option Bytes) :=
  if buf.length < 2 then pure (some buf)
  else
    minus buf.length 1 >>= fun limit => chooseBlockLen env limit >>= fun delLen =>
    minus buf.length delLen >>= fun room => below (room + 1) >>= fun delFrom =>
    some <$> delete buf delFrom delLen

def delone (buf : Bytes) : Prog (Option Bytes) :=
  if buf.length < 2 then pure (some buf)
  else
    minus buf.length 1 >>= fun room => below (room + 1) >>= fun delFrom =>
    some <$> delete buf delFrom 1

/-- The loop of `MUT_SHUFFLE` from the index `i` down. -/
def shuffleLoop (off : ℕ) : ℕ → Bytes → Prog Bytes
  | 0, buf => pure buf
  | i + 1, buf =>
    retry (below (i + 2) >>= fun j => pure (if i + 1 = j then none else some j)) >>= fun j =>
    load buf (off + (i + 1)) >>= fun temp => load buf (off + j) >>= fun b =>
    store buf (off + (i + 1)) b >>= fun buf => store buf (off + j) temp >>= fun buf =>
    shuffleLoop off i buf

def shuffle (buf : Bytes) : Prog (Option Bytes) :=
  if buf.length < 4 then pure (some buf)
  else
    minus buf.length 1 >>= fun limit => chooseBlockLen env limit >>= fun len =>
    minus buf.length len >>= fun room => below (room + 1) >>= fun off =>
    minus len 1 >>= fun i => some <$> shuffleLoop off i buf

def insertone (buf : Bytes) : Prog (Option Bytes) :=
  if buf.length < 2 then pure (some buf)
  else
    below buf.length >>= fun cloneTo => fillByte buf cloneTo >>= fun item =>
    some <$> rebuild env buf cloneTo cloneTo [item] 0

/-! ## Numbers -/

/-- An `s64`. -/
def s64 (v : ℤ) : ℤ := v.bmod (2 ^ 64)

/-- The number that a run of digits is read as. -/
def readDigits (digits : Bytes) : ℤ :=
  digits.foldl (fun val b => s64 (val * 10 + b.toNat - 48)) 0

/-- The new number for `strat`. -/
def changeNumber (strat : ℕ) (val : ℤ) : Prog ℤ :=
  match strat with
  | 0 => pure (s64 (val + 1))
  | 1 => pure (s64 (val - 1))
  | 2 => pure (s64 (val * 2))
  | 3 => pure (val.tdiv 2)
  | 4 =>
    if 0 < val ∧ val < 0x19999999 then
      draw >>= fun d => pure (((d % 2 ^ 64) % (val * 10).toNat : ℕ) : ℤ)
    else below 256 >>= fun r => pure (r : ℤ)
  | 5 => below 256 >>= fun r => pure (s64 (val + r))
  | 6 => below 256 >>= fun r => pure (s64 (val - r))
  | _ => pure (-val - 1)

/-- `snprintf` into a buffer of 20 bytes, up to its NUL. -/
def snprintf20 (text : Bytes) : Bytes := text.take 19

/-- The first digit from a random place on, around the end of the buffer. -/
def findNumber (buf : Bytes) : Prog (Option ℕ) :=
  below buf.length >>= fun off => minus buf.length off >>= fun n =>
  scan isDigit buf n off >>= fun i =>
  if i ≠ buf.length then pure (some i)
  else scan isDigit buf off 0 >>= fun i => pure (if i = off then none else some i)

/-- A minus sign stands before the number. -/
def isNegative (buf : Bytes) (off : ℕ) : Prog Bool :=
  if off ≠ 0 then (fun b => decide (b = 45)) <$> load buf (off - 1) else pure false

/-- The number that begins at `off` is replaced. -/
def replaceNumber (buf : Bytes) (off : ℕ) : Prog Bytes :=
  minus buf.length (off + 1) >>= fun n =>
  scan (fun b => !isDigit b) buf n (off + 1) >>= fun off2 =>
  minus off2 off >>= fun oldLen => slice buf off oldLen >>= fun digits =>
  isNegative buf off >>= fun neg => below 8 >>= fun strat =>
  changeNumber strat (if neg then s64 (-readDigits digits) else readDigits digits) >>= fun val =>
  let text := snprintf20 (showInt val)
  if oldLen = text.length then blit buf off text else rebuild env buf off off2 text 0

def asciinum (buf : Bytes) : Prog (Option Bytes) :=
  if buf.length < 4 then pure (some buf)
  else
    findNumber buf >>= fun
    | none => giveUp buf
    | some off => some <$> replaceNumber env buf off

def insertasciinum (buf : Bytes) : Prog (Option Bytes) :=
  below 8 >>= fun r => below buf.length >>= fun pos =>
  if buf.length < pos + (1 + r) then giveUp buf
  else
    draw >>= fun val =>
    let text := snprintf20 (showNat (val % 2 ^ 64))
    slice (text ++ 0 :: alloc env (19 - text.length)) 0 (1 + r) >>= fun digits =>
    some <$> blit buf pos digits

/-! ## Tokens and other test cases -/

def overwriteToken (tokens : List Bytes) (buf : Bytes) : Prog (Option Bytes) :=
  if tokens = [] then pure none
  else
    below tokens.length >>= fun useExtra => load tokens useExtra >>= fun extra =>
    if buf.length < extra.length then pure none
    else
      minus buf.length extra.length >>= fun room => below (room + 1) >>= fun insertAt =>
      some <$> blit buf insertAt extra

def insertToken (tokens : List Bytes) (buf : Bytes) : Prog (Option Bytes) :=
  if tokens = [] then pure none
  else
    below tokens.length >>= fun useExtra => load tokens useExtra >>= fun extra =>
    if maxFile ≤ buf.length + extra.length then pure none
    else
      below (buf.length + 1) >>= fun insertAt => minus buf.length insertAt >>= fun rest =>
      slice (buf ++ alloc env extra.length) insertAt rest >>= fun tail =>
      blit (buf ++ alloc env extra.length) (insertAt + extra.length) tail >>= fun grown =>
      some <$> blit grown insertAt extra

/-- Another test case of at least 4 bytes. -/
def pickTarget : Prog Bytes :=
  retry (below env.queueBuf.length >>= fun tid => load env.queueBuf tid >>= fun target =>
    pure (if tid = env.currentEntry ∨ target.length < 4 then none else some target))

def spliceOverwrite (buf : Bytes) : Prog (Option Bytes) :=
  if env.readyForSplicingCount ≤ 1 then pure none
  else
    pickTarget env >>= fun target => minus target.length 1 >>= fun limit =>
    chooseBlockLen env limit >>= fun copyLen =>
    let copyLen := min copyLen buf.length
    minus target.length copyLen >>= fun room => below (room + 1) >>= fun copyFrom =>
    minus buf.length copyLen >>= fun room => below (room + 1) >>= fun copyTo =>
    slice target copyFrom copyLen >>= fun blk => some <$> blit buf copyTo blk

def spliceInsert (buf : Bytes) : Prog (Option Bytes) :=
  if env.readyForSplicingCount ≤ 1 then pure none
  else if maxFile ≤ buf.length + havocBlkXl then pure none
  else
    pickTarget env >>= fun target => chooseBlockLen env target.length >>= fun cloneLen =>
    minus target.length cloneLen >>= fun room => below (room + 1) >>= fun cloneFrom =>
    below (buf.length + 1) >>= fun cloneTo =>
    slice target cloneFrom cloneLen >>= fun blk => some <$> rebuild env buf cloneTo cloneTo blk 1

/-! ## The switch -/

/-- One mutation; `none` is `goto retry_havoc_step`. -/
def mutate (buf : Bytes) : Mutation → Prog (Option Bytes)
  | .flipbit => below 8 >>= fun bit => pokeAny (fun b => b ^^^ (1 <<< UInt8.ofNat bit)) buf
  | .interesting8 => setInteresting8 buf
  | .interesting16 => setInteresting16 id buf
  | .interesting16be => setInteresting16 swap16 buf
  | .interesting32 => setInteresting32 id buf
  | .interesting32be => setInteresting32 swap32 buf
  | .arith8_ => changeByte (fun b n => b - n) buf
  | .arith8 => changeByte (fun b n => b + n) buf
  | .arith16_ => changeWord16 (fun v n => v - n) buf
  | .arith16be_ => changeWord16 (fun v n => swap16 (swap16 v - n)) buf
  | .arith16 => changeWord16 (fun v n => v + n) buf
  | .arith16be => changeWord16 (fun v n => swap16 (swap16 v + n)) buf
  | .arith32_ => changeWord32 (fun v n => v - n) buf
  | .arith32be_ => changeWord32 (fun v n => swap32 (swap32 v - n)) buf
  | .arith32 => changeWord32 (fun v n => v + n) buf
  | .arith32be => changeWord32 (fun v n => swap32 (swap32 v + n)) buf
  | .rand8 =>
    below buf.length >>= fun pos => below 255 >>= fun r =>
    some <$> poke (fun b => b ^^^ UInt8.ofNat (1 + r)) buf pos
  | .cloneCopy => cloneCopy env buf
  | .cloneFixed => cloneFixed env buf
  | .overwriteCopy => overwriteCopy env buf
  | .overwriteFixed => overwriteFixed env buf
  | .byteadd => pokeAny (fun b => b + 1) buf
  | .bytesub => pokeAny (fun b => b - 1) buf
  | .flip8 => pokeAny (fun b => b ^^^ 0xff) buf
  | .switch => switchBlocks env buf
  | .del => del env buf
  | .shuffle => shuffle env buf
  | .delone => delone buf
  | .insertone => insertone env buf
  | .asciinum => asciinum env buf
  | .insertasciinum => insertasciinum env buf
  | .extraOverwrite => overwriteToken env.extras buf
  | .extraInsert => insertToken env env.extras buf
  | .autoExtraOverwrite => overwriteToken env.aExtras buf
  | .autoExtraInsert => insertToken env env.aExtras buf
  | .spliceOverwrite => spliceOverwrite env buf
  | .spliceInsert => spliceInsert env buf

/-- `retry_havoc_step` -/
def havocStep (buf : Bytes) : Prog Bytes :=
  retry (below env.table.length >>= fun r => load env.table r >>= fun m => mutate env buf m)

/-! ## What the mutations keep -/

theorem chooseBlockLen_safe {limit : ℕ} (h : 0 < limit) :
    Safe (chooseBlockLen env limit) fun n => 1 ≤ n ∧ n ≤ limit ∧ n ≤ havocBlkXl := by
  have hxl : havocBlkXl = 32768 := rfl
  have hlarge : havocBlkLarge = 1500 := rfl
  have hmedium : havocBlkMedium = 128 := rfl
  have hsmall : havocBlkSmall = 32 := rfl
  refine below_any_safe fun pick => ?_
  refine Safe.bind (Q := fun range : ℕ × ℕ => 1 ≤ range.1 ∧ range.1 < range.2 ∧
    range.2 ≤ havocBlkXl) ?_ fun range hrange => ?_
  · split_ifs
    · exact safe_pure (by omega)
    · exact safe_pure (by omega)
    · refine below_safe (by decide) fun r _ => ?_
      split_ifs <;> exact safe_pure (by omega)
  · dsimp only
    split_ifs with hlimit
    · refine minus_safe (by omega) (below_safe (by omega) fun r hr => safe_pure ?_)
      omega
    · refine minus_safe (by omega) (below_safe (by omega) fun r hr => safe_pure ?_)
      omega

theorem fillByte_safe {buf : Bytes} {start : ℕ} (hbuf : 0 < buf.length) (h : start < buf.length) :
    Safe (fillByte buf start) fun _ => True := by
  refine below_any_safe fun strat => ?_
  split_ifs
  · exact Safe.map ((safe_below (by decide)).mono fun _ _ => trivial)
  · exact (safe_load (by omega)).mono fun _ _ => trivial
  · exact (safe_load hbuf).mono fun _ _ => trivial

/-- Nothing of the memory that was allocated is left in the new buffer. -/
theorem rebuild_safe {buf blk : Bytes} {off off2 : ℕ} (slack : ℕ) (h : off ≤ off2)
    (h2 : off2 ≤ buf.length) :
    Safe (rebuild env buf off off2 blk slack) fun r =>
      r = buf.take off ++ blk ++ buf.drop off2 := by
  have halloc (n : ℕ) : (alloc env n).length = n := by simp [alloc]
  refine minus_safe (by omega) (slice_safe (by omega) fun head hhead hhead_eq => ?_)
  have hlen := halloc (buf.length + blk.length - (off2 - off) + slack)
  generalize alloc env (buf.length + blk.length - (off2 - off) + slack) = fresh at hlen
  refine blit_safe (by omega) fun new1 hlen1 htake1 => ?_
  refine blit_safe (by omega) fun new2 hlen2 htake2 => ?_
  refine minus_safe (by omega) (slice_safe (by omega) fun tail htail htail_eq => ?_)
  refine blit_safe (by omega) fun new3 hlen3 htake3 => safe_pure ?_
  have hend : off + blk.length + tail.length = buf.length + blk.length - (off2 - off) := by omega
  rw [Nat.zero_add, hhead, List.take_zero, List.nil_append, hhead_eq, List.drop_zero] at htake1
  have htail_eq : tail = buf.drop off2 := by
    rw [htail_eq, List.take_of_length_le]
    rw [List.length_drop]
  rw [← hend, htake3, htake2, htake1, htail_eq]

/-- How long a mutation may leave a buffer. -/
def Fits (buf r : Bytes) : Prop :=
  1 ≤ r.length ∧ r.length ≤ max (buf.length + 18) (maxFile - 1)

/-- A test case that another one is spliced with. -/
structure OtherCase (target : Bytes) : Prop where
  four_le : 4 ≤ target.length
  entry : ∃ tid, tid ≠ env.currentEntry ∧ env.queueBuf[tid]? = some target

/-- A mutation that gives up, or a buffer that fits. -/
def Fine (buf : Bytes) (r : Option Bytes) : Prop := ∀ b ∈ r, Fits buf b

section Mutations

variable {env} {buf : Bytes} (hbuf : 0 < buf.length)

theorem safe_some {x : Prog Bytes} (h : Safe x (Fits buf)) : Safe (some <$> x) (Fine buf) :=
  Safe.map (h.mono fun b hb c hc => by
    obtain rfl : b = c := by simpa using hc
    exact hb)

theorem safe_goto : Safe (pure none) (Fine buf) := safe_pure fun b hb => by simp at hb

include hbuf

omit hbuf in
theorem fits_of_le {r : Bytes} (hpos : 1 ≤ r.length) (hle : r.length ≤ buf.length + 18) :
    Fits buf r :=
  ⟨hpos, le_max_of_le_left hle⟩

theorem fits_of_length {r : Bytes} (h : r.length = buf.length) : Fits buf r :=
  fits_of_le (by omega) (by omega)

omit hbuf in
theorem fits_of_lt {r : Bytes} (hpos : 1 ≤ r.length) (hlt : r.length < maxFile) : Fits buf r :=
  ⟨hpos, le_max_of_le_right (Nat.le_sub_one_of_lt hlt)⟩

/-- A mutation that only writes. -/
theorem safe_writes {x : Prog Bytes} (h : Safe x fun r => r.length = buf.length) :
    Safe (some <$> x) (Fine buf) :=
  safe_some (h.mono fun _ hr => fits_of_length hbuf hr)

theorem safe_break : Safe (pure (some buf)) (Fine buf) :=
  safe_pure fun b hb => by
    obtain rfl : buf = b := by simpa using hb
    exact fits_of_length hbuf rfl

theorem giveUp_safe : Safe (giveUp buf) (Fine buf) := by
  unfold giveUp
  split_ifs
  · exact safe_break hbuf
  · exact safe_goto

omit hbuf in
/-- A block is put in the place of the bytes from `off` to `off2`. -/
theorem rebuild_fits {blk : Bytes} {off off2 : ℕ} (slack : ℕ) (h : off ≤ off2)
    (h2 : off2 ≤ buf.length) (hblk : 0 < blk.length)
    (hfit : buf.length + blk.length < maxFile ∨ blk.length ≤ 18 + (off2 - off)) :
    Safe (rebuild env buf off off2 blk slack) (Fits buf) := by
  refine (rebuild_safe env slack h h2).mono ?_
  rintro r rfl
  have hlen : (buf.take off ++ blk ++ buf.drop off2).length =
      off + blk.length + (buf.length - off2) := by
    simp only [List.length_append, List.length_take, List.length_drop]
    omega
  rcases hfit with hroom | hsmall
  · exact fits_of_lt (by omega) (Nat.lt_of_le_of_lt (by omega) hroom)
  · exact fits_of_le (by omega) (by omega)

/-! ### Bytes and words -/

omit hbuf in
theorem poke_safe (f : UInt8 → UInt8) {pos : ℕ} (h : pos < buf.length) :
    Safe (poke f buf pos) fun r => r.length = buf.length :=
  load_safe h (safe_store h)

theorem pokeAny_safe (f : UInt8 → UInt8) : Safe (pokeAny f buf) (Fine buf) :=
  below_safe hbuf fun _ hpos => safe_writes hbuf (poke_safe f hpos)

omit hbuf in
theorem poke16_safe (f : UInt16 → UInt16) {pos : ℕ} (h : pos + 2 ≤ buf.length) :
    Safe (poke16 f buf pos) fun r => r.length = buf.length :=
  slice_safe h fun _ _ _ => safe_blit (by rwa [length_putLE])

omit hbuf in
theorem poke32_safe (f : UInt32 → UInt32) {pos : ℕ} (h : pos + 4 ≤ buf.length) :
    Safe (poke32 f buf pos) fun r => r.length = buf.length :=
  slice_safe h fun _ _ _ => safe_blit (by rwa [length_putLE])

theorem setInteresting8_safe : Safe (setInteresting8 buf) (Fine buf) :=
  below_safe (by decide) fun _ hitem => load_safe hitem (pokeAny_safe hbuf _)

theorem setInteresting16_safe (order : UInt16 → UInt16) :
    Safe (setInteresting16 order buf) (Fine buf) := by
  unfold setInteresting16
  split_ifs with h
  · exact safe_break hbuf
  · refine below_safe (by decide) fun item hitem => load_safe hitem ?_
    refine minus_safe (by omega) (below_safe (by omega) fun pos hpos => ?_)
    exact safe_writes hbuf (poke16_safe _ (by omega))

theorem setInteresting32_safe (order : UInt32 → UInt32) :
    Safe (setInteresting32 order buf) (Fine buf) := by
  unfold setInteresting32
  split_ifs with h
  · exact safe_break hbuf
  · refine below_safe (by decide) fun item hitem => load_safe hitem ?_
    refine minus_safe (by omega) (below_safe (by omega) fun pos hpos => ?_)
    exact safe_writes hbuf (poke32_safe _ (by omega))

theorem changeByte_safe (f : UInt8 → UInt8 → UInt8) : Safe (changeByte f buf) (Fine buf) :=
  below_safe (by decide) fun _ _ => pokeAny_safe hbuf _

theorem changeWord16_safe (f : UInt16 → UInt16 → UInt16) :
    Safe (changeWord16 f buf) (Fine buf) := by
  unfold changeWord16
  split_ifs with h
  · exact safe_break hbuf
  · refine minus_safe (by omega) (below_safe (by omega) fun pos hpos => ?_)
    exact below_safe (by decide) fun _ _ => safe_writes hbuf (poke16_safe _ (by omega))

theorem changeWord32_safe (f : UInt32 → UInt32 → UInt32) :
    Safe (changeWord32 f buf) (Fine buf) := by
  unfold changeWord32
  split_ifs with h
  · exact safe_break hbuf
  · refine minus_safe (by omega) (below_safe (by omega) fun pos hpos => ?_)
    exact below_safe (by decide) fun _ _ => safe_writes hbuf (poke32_safe _ (by omega))

/-! ### Blocks -/

theorem cloneCopy_safe : Safe (cloneCopy env buf) (Fine buf) := by
  rcases Nat.lt_or_ge (buf.length + havocBlkXl) maxFile with hroom | hroom
  · rw [cloneCopy, if_pos hroom]
    refine (chooseBlockLen_safe env hbuf).bind fun cloneLen ⟨hmin, hmax, hxl⟩ => ?_
    refine place_safe hmax fun cloneFrom hfrom => below_safe hbuf fun cloneTo hto => ?_
    refine slice_safe hfrom fun blk hblk _ => ?_
    have hfit := (Nat.add_le_add_left (hblk.trans_le hxl) buf.length).trans_lt hroom
    exact safe_some (rebuild_fits 0 (Nat.le_refl cloneTo) hto.le (by omega) (.inl hfit))
  · rw [cloneCopy, if_neg (Nat.not_lt.mpr hroom)]
    exact giveUp_safe hbuf

theorem cloneFixed_safe : Safe (cloneFixed env buf) (Fine buf) := by
  rcases Nat.lt_or_ge (buf.length + havocBlkXl) maxFile with hroom | hroom
  · rw [cloneFixed, if_pos hroom]
    refine (chooseBlockLen_safe env (by decide)).bind fun cloneLen ⟨hmin, hmax, _⟩ => ?_
    refine below_safe hbuf fun cloneTo hto => (fillByte_safe hbuf hto).bind fun item _ => ?_
    have hblk : (List.replicate cloneLen item).length = cloneLen := List.length_replicate
    have hfit := (Nat.add_le_add_left (hblk.trans_le hmax) buf.length).trans_lt hroom
    exact safe_some (rebuild_fits 0 (Nat.le_refl cloneTo) hto.le (by omega) (.inl hfit))
  · rw [cloneFixed, if_neg (Nat.not_lt.mpr hroom)]
    exact giveUp_safe hbuf

theorem overwriteCopy_safe : Safe (overwriteCopy env buf) (Fine buf) := by
  unfold overwriteCopy
  split_ifs with h
  · exact safe_break hbuf
  · refine minus_safe (by omega) ?_
    refine (chooseBlockLen_safe env (by omega)).bind fun copyLen ⟨hmin, hmax, _⟩ => ?_
    refine minus_safe (by omega) ?_
    refine Safe.bind (Q := fun ends : ℕ × ℕ => ends.1 + copyLen ≤ buf.length ∧
      ends.2 + copyLen ≤ buf.length) (retry_below_safe (by omega) ?_) fun ends hends => ?_
    · refine fun copyFrom hfrom => below_safe (by omega) fun copyTo hto => ?_
      exact safe_unless fun _ => by omega
    · refine slice_safe hends.1 fun blk hblk _ => ?_
      exact safe_writes hbuf (safe_blit (by omega))

theorem overwriteFixed_safe : Safe (overwriteFixed env buf) (Fine buf) := by
  unfold overwriteFixed
  split_ifs with h
  · exact safe_break hbuf
  · refine minus_safe (by omega) ?_
    refine (chooseBlockLen_safe env (by omega)).bind fun copyLen ⟨hmin, hmax, _⟩ => ?_
    refine place_safe (by omega) fun copyTo hto => ?_
    refine (fillByte_safe hbuf (by omega)).bind fun item _ => ?_
    exact safe_writes hbuf (safe_blit (by rw [List.length_replicate]; omega))

theorem switchBlocks_safe : Safe (switchBlocks env buf) (Fine buf) := by
  unfold switchBlocks
  split_ifs with h
  · exact safe_break hbuf
  · refine below_safe hbuf fun switchFrom hfrom => ?_
    refine Safe.bind (Q := fun switchTo => switchTo < buf.length ∧ switchFrom ≠ switchTo)
      (retry_below_safe (by omega) ?_) fun switchTo hto => ?_
    · exact fun switchTo hto => safe_unless fun hne => ⟨hto, hne⟩
    · refine minus_safe (by omega) (minus_safe (by omega) ?_)
      refine (chooseBlockLen_safe env (by omega)).bind fun len ⟨hmin, hmax, _⟩ => ?_
      refine slice_safe (by omega) fun backup hbackup _ => ?_
      refine slice_safe (by omega) fun blk hblk _ => ?_
      refine blit_safe (by omega) fun moved hmoved _ => ?_
      exact safe_some ((safe_blit (by omega)).mono fun r hr => fits_of_length hbuf (by omega))

omit hbuf in
theorem delete_safe {delFrom delLen : ℕ} (h : delFrom + delLen ≤ buf.length) :
    Safe (delete buf delFrom delLen) fun r =>
      r = buf.take delFrom ++ buf.drop (delFrom + delLen) := by
  refine minus_safe (by omega) (minus_safe (by omega) ?_)
  refine slice_safe (by omega) fun tail htail htail_eq => ?_
  refine blit_safe (by omega) fun moved _ htake => minus_safe (by omega) (safe_pure ?_)
  have hend : buf.length - delLen = delFrom + tail.length := by omega
  have hall : tail = buf.drop (delFrom + delLen) := by
    rw [htail_eq, List.take_of_length_le]
    rw [List.length_drop]
    omega
  rw [hend, htake, hall]

omit hbuf in
theorem delete_fits {delFrom delLen : ℕ} (h : delFrom + delLen ≤ buf.length)
    (hlt : delLen < buf.length) : Safe (delete buf delFrom delLen) (Fits buf) := by
  refine (delete_safe h).mono ?_
  rintro r rfl
  apply fits_of_le <;> rw [List.length_append, List.length_take, List.length_drop] <;> omega

theorem del_safe : Safe (del env buf) (Fine buf) := by
  unfold del
  split_ifs with h
  · exact safe_break hbuf
  · refine minus_safe (by omega) ?_
    refine (chooseBlockLen_safe env (by omega)).bind fun delLen ⟨hmin, hmax, _⟩ => ?_
    exact place_safe (by omega) fun delFrom hfrom => safe_some (delete_fits hfrom (by omega))

theorem delone_safe : Safe (delone buf) (Fine buf) := by
  unfold delone
  split_ifs with h
  · exact safe_break hbuf
  · exact place_safe (by omega) fun delFrom hfrom => safe_some (delete_fits hfrom (by omega))

omit hbuf in
/-- The two bytes are exchanged, so what is left is an order of the same bytes. -/
theorem shuffleLoop_safe {off i : ℕ} (h : off + i < buf.length) :
    Safe (shuffleLoop off i buf) fun r => r.Perm buf := by
  induction i generalizing buf with
  | zero => exact safe_pure (List.Perm.refl buf)
  | succ i ih =>
    refine Safe.bind (Q := fun j => j < i + 1) (retry_below_safe (by omega) ?_) fun j hj => ?_
    · exact fun j hj => safe_unless fun hne => by omega
    · refine load_safe h (load_safe (by omega) ?_)
      refine store_safe h (store_safe (by rw [List.length_set]; omega) ?_)
      have hj' : off + j < buf.length := by omega
      have hperm : ((buf.set (off + (i + 1)) buf[off + j]).set (off + j) buf[off + (i + 1)]).Perm
          buf := List.set_set_perm h hj'
      exact (ih (by rw [List.length_set, List.length_set]; omega)).mono fun r hr => hr.trans hperm

theorem shuffle_safe : Safe (shuffle env buf) (Fine buf) := by
  unfold shuffle
  split_ifs with h
  · exact safe_break hbuf
  · refine minus_safe (by omega) ?_
    refine (chooseBlockLen_safe env (by omega)).bind fun len ⟨hmin, hmax, _⟩ => ?_
    refine place_safe (by omega) fun off hoff => minus_safe hmin ?_
    exact safe_writes hbuf ((shuffleLoop_safe (by omega)).mono fun r hr => hr.length_eq)

theorem insertone_safe : Safe (insertone env buf) (Fine buf) := by
  unfold insertone
  split_ifs with h
  · exact safe_break hbuf
  · refine below_safe hbuf fun cloneTo hto => (fillByte_safe hbuf hto).bind fun item _ => ?_
    exact safe_some (rebuild_fits 0 (Nat.le_refl cloneTo) hto.le Nat.one_pos (.inr (by simp)))

/-! ### Numbers -/

omit hbuf in
theorem length_snprintf20 (text : Bytes) : (snprintf20 text).length ≤ 19 := by
  rw [snprintf20, List.length_take]
  omega

omit hbuf in
theorem showNat_ne_nil (n : ℕ) : showNat n ≠ [] := by
  rw [showNat, ne_eq, List.map_eq_nil_iff]
  exact Nat.toDigits_ne_nil

omit hbuf in
theorem snprintf20_pos (v : ℤ) : 0 < (snprintf20 (showInt v)).length := by
  have hne : showInt v ≠ [] := by
    cases v with
    | ofNat n => exact showNat_ne_nil n
    | negSucc n => exact List.cons_ne_nil _ _
  have hpos := List.length_pos_iff.mpr hne
  rw [snprintf20, List.length_take]
  omega

theorem findNumber_safe : Safe (findNumber buf) fun r => ∀ off ∈ r, off < buf.length := by
  refine below_safe hbuf fun off hoff => minus_safe hoff.le ?_
  refine (safe_scan isDigit (by omega)).bind fun i hi => ?_
  split_ifs with hend
  · refine safe_pure fun off' hoff' => ?_
    obtain rfl : i = off' := by simpa using hoff'
    omega
  · exact (safe_scan isDigit (by omega)).bind fun i hi => safe_unless fun hne => by omega

omit hbuf in
theorem isNegative_safe {off : ℕ} (h : off < buf.length) :
    Safe (isNegative buf off) fun _ => True := by
  unfold isNegative
  split_ifs
  · exact Safe.map ((safe_load (by omega)).mono fun _ _ => trivial)
  · exact safe_pure trivial

omit hbuf in
theorem changeNumber_safe (strat : ℕ) (val : ℤ) : Safe (changeNumber strat val) fun _ => True := by
  unfold changeNumber
  split
  · exact safe_pure trivial
  · exact safe_pure trivial
  · exact safe_pure trivial
  · exact safe_pure trivial
  · split_ifs
    · exact safe_draw.bind fun _ _ => safe_pure trivial
    · exact below_any_safe fun _ => safe_pure trivial
  · exact below_any_safe fun _ => safe_pure trivial
  · exact below_any_safe fun _ => safe_pure trivial
  · exact safe_pure trivial

omit hbuf in
theorem replaceNumber_safe {off : ℕ} (h : off < buf.length) :
    Safe (replaceNumber env buf off) (Fits buf) := by
  refine minus_safe (by omega) ?_
  refine (safe_scan _ (by omega)).bind fun off2 ⟨hfirst, hlast⟩ => ?_
  refine minus_safe (by omega) (slice_safe (by omega) fun digits _ _ => ?_)
  refine (isNegative_safe h).bind fun neg _ => below_safe (by decide) fun strat _ => ?_
  refine (changeNumber_safe strat _).bind fun val _ => ?_
  have hmin := snprintf20_pos val
  have hmax := length_snprintf20 (showInt val)
  dsimp only
  generalize snprintf20 (showInt val) = text at hmin hmax
  split_ifs with hlen
  · exact (safe_blit (by omega)).mono fun r hr => fits_of_length (by omega) hr
  · exact rebuild_fits 0 (by omega) (by omega) hmin (.inr (by omega))

theorem asciinum_safe : Safe (asciinum env buf) (Fine buf) := by
  unfold asciinum
  split_ifs with h
  · exact safe_break hbuf
  · refine (findNumber_safe hbuf).bind fun found hfound => ?_
    cases found with
    | none => exact giveUp_safe hbuf
    | some off => exact safe_some (replaceNumber_safe (hfound off rfl))

theorem insertasciinum_safe : Safe (insertasciinum env buf) (Fine buf) := by
  refine below_safe (by decide) fun r hr => below_safe hbuf fun pos hpos => ?_
  split_ifs with hroom
  · exact giveUp_safe hbuf
  · refine safe_draw.bind fun val _ => ?_
    have hmax := length_snprintf20 (showNat (val % 2 ^ 64))
    dsimp only
    generalize snprintf20 (showNat (val % 2 ^ 64)) = text at hmax
    refine slice_safe ?_ fun digits hdigits _ => safe_writes hbuf (safe_blit (by omega))
    rw [List.length_append, List.length_cons, alloc, List.length_map, List.length_range]
    omega

/-! ### Tokens and other test cases -/

theorem overwriteToken_safe (tokens : List Bytes) :
    Safe (overwriteToken tokens buf) (Fine buf) := by
  unfold overwriteToken
  split_ifs with hnil
  · exact safe_goto
  · refine below_safe (List.length_pos_iff.mpr hnil) fun i hi => load_safe hi ?_
    split_ifs with hlong
    · exact safe_goto
    · exact place_safe (by omega) fun insertAt hat => safe_writes hbuf (safe_blit hat)

theorem insertToken_safe (tokens : List Bytes) :
    Safe (insertToken env tokens buf) (Fine buf) := by
  unfold insertToken
  split_ifs with hnil
  · exact safe_goto
  · refine below_safe (List.length_pos_iff.mpr hnil) fun i hi => load_safe hi ?_
    generalize tokens[i] = extra
    split_ifs with hlong
    · exact safe_goto
    · refine below_safe (by omega) fun insertAt hat => minus_safe (by omega) ?_
      have hgrown : (buf ++ alloc env extra.length).length = buf.length + extra.length := by
        simp [alloc]
      generalize buf ++ alloc env extra.length = grown at hgrown
      refine slice_safe (by omega) fun tail htail _ => ?_
      refine blit_safe (by omega) fun moved hmoved _ => ?_
      refine safe_some ((safe_blit (by omega)).mono fun r hr => ?_)
      exact fits_of_lt (by omega) (by omega)

omit hbuf in
theorem pickTarget_safe (h : 1 < env.readyForSplicingCount) :
    Safe (pickTarget env) (OtherCase env) := by
  have hle := env.ready_le
  refine retry_below_safe (by omega) fun tid htid => load_safe htid ?_
  exact safe_unless fun hskip => ⟨by omega, tid, by omega, List.getElem?_eq_getElem htid⟩

theorem spliceOverwrite_safe : Safe (spliceOverwrite env buf) (Fine buf) := by
  unfold spliceOverwrite
  split_ifs with hready
  · exact safe_goto
  · refine (pickTarget_safe (by omega)).bind fun target ⟨htarget, _⟩ => minus_safe (by omega) ?_
    refine (chooseBlockLen_safe env (by omega)).bind fun copyLen ⟨hmin, hmax, _⟩ => ?_
    refine place_safe (by omega) fun copyFrom hfrom => place_safe (by omega) fun copyTo hto => ?_
    refine slice_safe hfrom fun blk hblk _ => safe_writes hbuf (safe_blit (by omega))

theorem spliceInsert_safe : Safe (spliceInsert env buf) (Fine buf) := by
  rcases Nat.lt_or_ge 1 env.readyForSplicingCount with hready | hready
  · rcases Nat.lt_or_ge (buf.length + havocBlkXl) maxFile with hroom | hroom
    · rw [spliceInsert, if_neg (Nat.not_le.mpr hready), if_neg (Nat.not_le.mpr hroom)]
      refine (pickTarget_safe hready).bind fun target ⟨htarget, _⟩ => ?_
      refine (chooseBlockLen_safe env (by omega)).bind fun cloneLen ⟨hmin, hmax, hxl⟩ => ?_
      refine place_safe hmax fun cloneFrom hfrom => ?_
      refine below_safe (by omega) fun cloneTo hto => slice_safe hfrom fun blk hblk _ => ?_
      have hfit := (Nat.add_le_add_left (hblk.trans_le hxl) buf.length).trans_lt hroom
      exact safe_some (rebuild_fits 1 (Nat.le_refl cloneTo) (by omega) (by omega) (.inl hfit))
    · rw [spliceInsert, if_neg (Nat.not_le.mpr hready), if_pos hroom]
      exact safe_goto
  · rw [spliceInsert, if_pos hready]
    exact safe_goto

/-! ### The switch -/

theorem mutate_safe (m : Mutation) : Safe (mutate env buf m) (Fine buf) := by
  cases m with
  | flipbit => exact below_safe (by decide) fun _ _ => pokeAny_safe hbuf _
  | interesting8 => exact setInteresting8_safe hbuf
  | interesting16 => exact setInteresting16_safe hbuf id
  | interesting16be => exact setInteresting16_safe hbuf swap16
  | interesting32 => exact setInteresting32_safe hbuf id
  | interesting32be => exact setInteresting32_safe hbuf swap32
  | arith8_ => exact changeByte_safe hbuf fun b n => b - n
  | arith8 => exact changeByte_safe hbuf fun b n => b + n
  | arith16_ => exact changeWord16_safe hbuf fun v n => v - n
  | arith16be_ => exact changeWord16_safe hbuf fun v n => swap16 (swap16 v - n)
  | arith16 => exact changeWord16_safe hbuf fun v n => v + n
  | arith16be => exact changeWord16_safe hbuf fun v n => swap16 (swap16 v + n)
  | arith32_ => exact changeWord32_safe hbuf fun v n => v - n
  | arith32be_ => exact changeWord32_safe hbuf fun v n => swap32 (swap32 v - n)
  | arith32 => exact changeWord32_safe hbuf fun v n => v + n
  | arith32be => exact changeWord32_safe hbuf fun v n => swap32 (swap32 v + n)
  | rand8 =>
    refine below_safe hbuf fun pos hpos => below_safe (by decide) fun _ _ => ?_
    exact safe_writes hbuf (poke_safe _ hpos)
  | cloneCopy =>
    exact cloneCopy_safe hbuf
  | cloneFixed => exact cloneFixed_safe hbuf
  | overwriteCopy => exact overwriteCopy_safe hbuf
  | overwriteFixed => exact overwriteFixed_safe hbuf
  | byteadd => exact pokeAny_safe hbuf _
  | bytesub => exact pokeAny_safe hbuf _
  | flip8 => exact pokeAny_safe hbuf _
  | switch => exact switchBlocks_safe hbuf
  | del => exact del_safe hbuf
  | shuffle => exact shuffle_safe hbuf
  | delone => exact delone_safe hbuf
  | insertone => exact insertone_safe hbuf
  | asciinum => exact asciinum_safe hbuf
  | insertasciinum => exact insertasciinum_safe hbuf
  | extraOverwrite => exact overwriteToken_safe hbuf env.extras
  | extraInsert => exact insertToken_safe hbuf env.extras
  | autoExtraOverwrite => exact overwriteToken_safe hbuf env.aExtras
  | autoExtraInsert => exact insertToken_safe hbuf env.aExtras
  | spliceOverwrite => exact spliceOverwrite_safe hbuf
  | spliceInsert => exact spliceInsert_safe hbuf

theorem havocStep_safe : Safe (havocStep env buf) (Fits buf) := by
  refine retry_below_safe env.table_two fun r hr => ?_
  exact load_safe hr (mutate_safe hbuf _)

end Mutations

end AflNv.Havoc
