import AflNv.AutoExtras
import AflNv.Lib.ByteWindow

/-!
# Candidates that the deterministic stages skip

The arithmetic stages and those of the interesting values of `src/afl-fuzz-one.c` leave out a
candidate that an earlier stage has executed, as far as `could_be_bitflip`, `could_be_arith` and
`could_be_interest` say.

* `detStages` runs the bit flips, the arithmetic and the interesting values on an input and lists
  what is executed and what is skipped.
* `mem_events` says what the list holds: the buffer is the input again behind every position, so
  that each event is known from the input alone.

The functions are those of a pass that is neither abandoned nor timed out, with every position
effective and arithmetic enabled; words are little endian.
-/

namespace AflNv.DetDedup

open AflNv.Lib AflNv.Lib.ByteWindow AutoExtras

/-! ## The three predicates -/

def arithMax : ℕ := 35

/-- `SWAP16` -/
def swap16 (x : ℕ) : ℕ := ((x <<< 8) ||| (x >>> 8)) % 2 ^ 16

/-- `SWAP32` -/
def swap32 (x : ℕ) : ℕ :=
  ((x <<< 24) ||| (x >>> 24) ||| ((x <<< 8) &&& 0x00FF0000) ||| ((x >>> 8) &&& 0x0000FF00)) % 2 ^ 32

/-- The conversion of a signed value to `m` bits. -/
def unsigned (m : ℕ) (x : ℤ) : ℕ := (x % 2 ^ m).toNat

/-- Shift until the first bit is set; a `u32` takes less than 32 steps. -/
def shiftOut : ℕ → ℕ → ℕ → ℕ × ℕ
  | 0, sh, x => (sh, x)
  | n + 1, sh, x => if x % 2 = 1 then (sh, x) else shiftOut n (sh + 1) (x / 2)

/-- `could_be_bitflip` -/
def couldBeBitflip (xorVal : ℕ) : Bool :=
  if xorVal = 0 then true
  else
    let r := shiftOut 32 0 xorVal
    if r.2 = 1 ∨ r.2 = 3 ∨ r.2 = 15 then true
    else if r.1 % 8 ≠ 0 then false
    else decide (r.2 = 0xff ∨ r.2 = 0xffff ∨ r.2 = 0xffffffff)

/-- The number of fields of `m` bits that differ, and the last pair of such fields. -/
def lastDiff (m n old new : ℕ) : ℕ × ℕ × ℕ :=
  (List.range n).foldl (fun d i =>
    let a := field m i old
    let b := field m i new
    if a ≠ b then (d.1 + 1, a, b) else d) (0, 0, 0)

/-- `ov - nv` or `nv - ov` is at most `ARITH_MAX`. -/
def within (m ov nv : ℕ) : Bool :=
  decide ((ov + 2 ^ m - nv) % 2 ^ m ≤ arithMax ∨ (nv + 2 ^ m - ov) % 2 ^ m ≤ arithMax)

/-- `could_be_arith` -/
def couldBeArith (oldVal newVal blen : ℕ) : Bool :=
  if oldVal = newVal then true
  else
    let d := lastDiff 8 blen oldVal newVal
    if d.1 = 1 ∧ within 8 d.2.1 d.2.2 then true
    else if blen = 1 then false
    else
      let d := lastDiff 16 (blen / 2) oldVal newVal
      if d.1 = 1 ∧ (within 16 d.2.1 d.2.2 ∨ within 16 (swap16 d.2.1) (swap16 d.2.2)) then true
      else if blen = 4 then within 32 oldVal newVal || within 32 (swap32 oldVal) (swap32 newVal)
      else false

/-- `(old & ~(mask << k)) | (v << k)` for a mask of `m` bits -/
def insertAt (m k old v : ℕ) : ℕ := (old &&& (0xffffffff ^^^ ((2 ^ m - 1) <<< k))) ||| (v <<< k)

/-- `could_be_interest` -/
def couldBeInterest (oldVal newVal blen : ℕ) (checkLe : Bool) : Bool :=
  if oldVal = newVal then true
  else if (List.range blen).any fun i => interesting8.any fun x =>
      newVal = insertAt 8 (i * 8) oldVal (unsigned 8 x) then true
  else if blen = 2 ∧ checkLe = false then false
  else if (List.range (blen - 1)).any fun i => interesting16.any fun x =>
      newVal = insertAt 16 (i * 8) oldVal (unsigned 16 x) ||
        (2 < blen && newVal = insertAt 16 (i * 8) oldVal (swap16 (unsigned 16 x))) then true
  else if blen = 4 ∧ checkLe then interesting32.any fun x => newVal = unsigned 32 x
  else false

/-! ## The stages -/

inductive Event where
  | executed (buf : Bytes)
  | skipped (buf : Bytes)

/-- `out_buf`, and what has happened. -/
structure Run where
  buf : Bytes
  events : List Event

/-- `common_fuzz_stuff` -/
def execute (s : Run) : Run := { s with events := s.events ++ [.executed s.buf] }

/-- `*(u<w> *)(out_buf + i) ^= mask` -/
def flip (w : ℕ) (buf : Bytes) (i mask : ℕ) : Bytes := write w buf i (window w buf i ^^^ mask)

/-- `FLIP_BIT` -/
def flipBit (buf : Bytes) (b : ℕ) : Bytes := flip 1 buf (b / 8) (128 >>> (b % 8))

def flipBits (n : ℕ) (buf : Bytes) (b : ℕ) : Bytes :=
  (List.range n).foldl (fun buf t => flipBit buf (b + t)) buf

/-- Bitflip `n`/1. -/
def walkBits (n : ℕ) (s : Run) : Run :=
  (List.range (8 * s.buf.length - (n - 1))).foldl (fun s b =>
    let t := execute { s with buf := flipBits n s.buf b }
    { t with buf := flipBits n t.buf b }) s

/-- Bitflip 8, 16 or 32/8. -/
def walkBytes (w : ℕ) (s : Run) : Run :=
  (List.range (s.buf.length - (w - 1))).foldl (fun s i =>
    let t := execute { s with buf := flip w s.buf i (256 ^ w - 1) }
    { t with buf := flip w t.buf i (256 ^ w - 1) }) s

def bitflips (s : Run) : Run :=
  let s := walkBytes 1 (walkBits 4 (walkBits 2 (walkBits 1 (execute s))))
  if s.buf.length < 2 then s
  else
    let s := walkBytes 2 s
    if s.buf.length < 4 then s else walkBytes 4 s

/-- A value for the bytes at a position, and whether the predicates take it for done. -/
structure Attempt where
  redundant : Bool
  value : ℕ

/-- The attempts of a stage at a position, as its bytes are; behind each group the bytes are put
back. -/
structure Stage where
  width : ℕ
  groups : ℕ → List (List Attempt)

/-- An arithmetic candidate behind the check for an overflow. -/
def arithAttempt (overflows : Prop) [Decidable overflows] (orig value : ℕ) : List Attempt :=
  if overflows then [⟨couldBeBitflip (orig ^^^ value), value⟩] else []

def arith8 : Stage where
  width := 1
  groups orig := (List.range' 1 arithMax).map fun j =>
    arithAttempt True orig ((orig + j) % 2 ^ 8) ++
    arithAttempt True orig ((orig + 2 ^ 8 - j) % 2 ^ 8)

def arith16 : Stage where
  width := 2
  groups orig := (List.range' 1 arithMax).map fun j =>
    arithAttempt (0xff < (orig &&& 0xff) + j) orig ((orig + j) % 2 ^ 16) ++
    arithAttempt ((orig &&& 0xff) < j) orig ((orig + 2 ^ 16 - j) % 2 ^ 16) ++
    arithAttempt (0xff < (orig >>> 8) + j) orig (swap16 ((swap16 orig + j) % 2 ^ 16)) ++
    arithAttempt ((orig >>> 8) < j) orig (swap16 ((swap16 orig + 2 ^ 16 - j) % 2 ^ 16))

def arith32 : Stage where
  width := 4
  groups orig := (List.range' 1 arithMax).map fun j =>
    arithAttempt (0xffff < (orig &&& 0xffff) + j) orig ((orig + j) % 2 ^ 32) ++
    arithAttempt ((orig &&& 0xffff) < j) orig ((orig + 2 ^ 32 - j) % 2 ^ 32) ++
    arithAttempt (0xffff < (swap32 orig &&& 0xffff) + j) orig
      (swap32 ((swap32 orig + j) % 2 ^ 32)) ++
    arithAttempt ((swap32 orig &&& 0xffff) < j) orig (swap32 ((swap32 orig + 2 ^ 32 - j) % 2 ^ 32))

def interest8 : Stage where
  width := 1
  groups orig := interesting8.map fun x =>
    [⟨couldBeBitflip (orig ^^^ unsigned 8 x) || couldBeArith orig (unsigned 8 x) 1, unsigned 8 x⟩]

/-- A candidate of more than one byte. -/
def interestAttempt (blen orig value : ℕ) (checkLe : Bool) : Attempt where
  redundant := couldBeBitflip (orig ^^^ value) || couldBeArith orig value blen ||
    couldBeInterest orig value blen checkLe
  value := value

/-- The two byte orders of a value. -/
def interestAttempts (blen orig value swapped : ℕ) : List Attempt :=
  interestAttempt blen orig value false ::
    (if value ≠ swapped then [interestAttempt blen orig swapped true] else [])

def interest16 : Stage where
  width := 2
  groups orig := [interesting16.flatMap fun x =>
    interestAttempts 2 orig (unsigned 16 x) (swap16 (unsigned 16 x))]

def interest32 : Stage where
  width := 4
  groups orig := [interesting32.flatMap fun x =>
    interestAttempts 4 orig (unsigned 32 x) (swap32 (unsigned 32 x))]

def runAttempt (w i : ℕ) (s : Run) (a : Attempt) : Run :=
  let candidate := write w s.buf i a.value
  if a.redundant then { s with events := s.events ++ [.skipped candidate] }
  else execute { s with buf := candidate }

def runGroup (w i orig : ℕ) (s : Run) (attempts : List Attempt) : Run :=
  let s := attempts.foldl (runAttempt w i) s
  { s with buf := write w s.buf i orig }

def runStage (st : Stage) (s : Run) : Run :=
  (List.range (s.buf.length - (st.width - 1))).foldl (fun s i =>
    let orig := window st.width s.buf i
    (st.groups orig).foldl (runGroup st.width i orig) s) s

def arithmetic (s : Run) : Run :=
  let s := runStage arith8 s
  if s.buf.length < 2 then s
  else
    let s := runStage arith16 s
    if s.buf.length < 4 then s else runStage arith32 s

def interestingValues (s : Run) : Run :=
  let s := runStage interest8 s
  if s.buf.length < 2 then s
  else
    let s := runStage interest16 s
    if s.buf.length < 4 then s else runStage interest32 s

/-- The bit flips, the arithmetic and the interesting values of `fuzz_one_original`. -/
def detStages (input : Bytes) : Run := interestingValues (arithmetic (bitflips ⟨input, []⟩))

/-! ## What the stages list -/

/-- A loop whose body leaves the buffer as it was. -/
theorem foldl_events {α : Type} {body : Run → α → Run} {buf : Bytes} {E : α → List Event}
    {l : List α} (h : ∀ a ∈ l, ∀ ev, body ⟨buf, ev⟩ a = ⟨buf, ev ++ E a⟩) (ev : List Event) :
    l.foldl body ⟨buf, ev⟩ = ⟨buf, ev ++ l.flatMap E⟩ := by
  induction l generalizing ev with
  | nil => rw [List.foldl_nil, List.flatMap_nil, List.append_nil]
  | cons a l ih =>
    rw [List.foldl_cons, h a List.mem_cons_self,
      ih fun b hb => h b (List.mem_cons_of_mem a hb), List.flatMap_cons, List.append_assoc]

/-- The bits that `FLIP_BIT` flips in the number of the buffer. -/
def place (b : ℕ) : ℕ := 8 * (b / 8) + (7 - b % 8)

def bitsMask (n b : ℕ) : ℕ := (List.range n).foldl (fun m t => m ^^^ 2 ^ place (b + t)) 0

theorem length_flip {w i : ℕ} {buf : Bytes} (h : i + w ≤ buf.length) (mask : ℕ) :
    (flip w buf i mask).length = buf.length := length_write h _

theorem value_flip {w i mask : ℕ} {buf : Bytes} (h : i + w ≤ buf.length) (hmask : mask < 256 ^ w) :
    value (flip w buf i mask) = value buf ^^^ (mask <<< (8 * i)) := by
  have hw := window_lt h
  rw [pow256] at hw hmask
  rw [flip, value_write h (by rw [pow256]; exact Nat.xor_lt_two_pow hw hmask), ← Nat.xor_assoc,
    Nat.xor_self, Nat.zero_xor]

theorem value_flipBit {b : ℕ} {buf : Bytes} (h : b < 8 * buf.length) :
    (flipBit buf b).length = buf.length ∧ value (flipBit buf b) = value buf ^^^ 2 ^ place b := by
  have hi : b / 8 + 1 ≤ buf.length := by omega
  have hshift : 128 >>> (b % 8) = 2 ^ (7 - b % 8) := by
    have hlt : b % 8 < 8 := Nat.mod_lt b (by decide)
    generalize b % 8 = r at hlt
    interval_cases r <;> rfl
  have hmask : 128 >>> (b % 8) < 256 ^ 1 := by
    rw [Nat.shiftRight_eq_div_pow]
    exact (Nat.div_le_self _ _).trans_lt (by decide)
  refine ⟨length_flip hi _, ?_⟩
  rw [flipBit, value_flip hi hmask, hshift, Nat.shiftLeft_eq, ← Nat.pow_add, place, Nat.add_comm]

theorem value_flipBits {n b : ℕ} {buf : Bytes} (h : b + n ≤ 8 * buf.length) :
    (flipBits n buf b).length = buf.length ∧
      value (flipBits n buf b) = value buf ^^^ bitsMask n b := by
  induction n with
  | zero => exact ⟨rfl, (Nat.xor_zero _).symm⟩
  | succ n ih =>
    obtain ⟨hlen, hvalue⟩ := ih (by omega)
    have hflip : flipBits (n + 1) buf b = flipBit (flipBits n buf b) (b + n) := by
      rw [flipBits, List.range_succ, List.foldl_append]
      rfl
    have hmask : bitsMask (n + 1) b = bitsMask n b ^^^ 2 ^ place (b + n) := by
      rw [bitsMask, List.range_succ, List.foldl_append]
      rfl
    obtain ⟨hlen', hvalue'⟩ := @value_flipBit (b + n) (flipBits n buf b) (by omega)
    rw [hflip, hmask, hvalue', hvalue, Nat.xor_assoc]
    exact ⟨hlen'.trans hlen, rfl⟩

/-- To flip the same bits again restores the buffer. -/
theorem flipBits_flipBits {n b : ℕ} {buf : Bytes} (h : b + n ≤ 8 * buf.length) :
    flipBits n (flipBits n buf b) b = buf := by
  obtain ⟨hlen, hvalue⟩ := value_flipBits h
  obtain ⟨hlen', hvalue'⟩ := @value_flipBits n b (flipBits n buf b) (by omega)
  refine value_inj (hlen'.trans hlen) ?_
  rw [hvalue', hvalue, Nat.xor_assoc, Nat.xor_self, Nat.xor_zero]

theorem flip_flip {w i : ℕ} {buf : Bytes} (h : i + w ≤ buf.length) :
    flip w (flip w buf i (256 ^ w - 1)) i (256 ^ w - 1) = buf := by
  have hmask : 256 ^ w - 1 < 256 ^ w := Nat.sub_lt (Nat.pow_pos (by decide)) (by decide)
  have hlen := length_flip h (256 ^ w - 1)
  have hi : i + w ≤ (flip w buf i (256 ^ w - 1)).length := by rwa [hlen]
  refine value_inj ((length_flip hi _).trans hlen) ?_
  rw [value_flip hi hmask, value_flip h hmask, Nat.xor_assoc, Nat.xor_self, Nat.xor_zero]

/-- What bitflip `n`/1 adds. -/
def bitsEvents (n : ℕ) (input : Bytes) : List Event :=
  (List.range (8 * input.length - (n - 1))).map fun b => .executed (flipBits n input b)

/-- What bitflip 8, 16 or 32/8 adds. -/
def bytesEvents (w : ℕ) (input : Bytes) : List Event :=
  (List.range (input.length - (w - 1))).map fun i => .executed (flip w input i (256 ^ w - 1))

theorem walkBits_events {n : ℕ} (hn : 0 < n) (input : Bytes) (ev : List Event) :
    walkBits n ⟨input, ev⟩ = ⟨input, ev ++ bitsEvents n input⟩ := by
  rw [bitsEvents, List.map_eq_flatMap]
  refine foldl_events (fun b hb ev => ?_) ev
  have hb : b < 8 * input.length - (n - 1) := List.mem_range.mp hb
  show (⟨flipBits n (flipBits n input b) b, _⟩ : Run) = _
  rw [flipBits_flipBits (by omega)]
  rfl

theorem walkBytes_events {w : ℕ} (hw : 0 < w) (input : Bytes) (ev : List Event) :
    walkBytes w ⟨input, ev⟩ = ⟨input, ev ++ bytesEvents w input⟩ := by
  rw [bytesEvents, List.map_eq_flatMap]
  refine foldl_events (fun i hi ev => ?_) ev
  have hi : i < input.length - (w - 1) := List.mem_range.mp hi
  show (⟨flip w (flip w input i (256 ^ w - 1)) i (256 ^ w - 1), _⟩ : Run) = _
  rw [flip_flip (by omega)]
  rfl

/-- What an attempt adds. -/
def Attempt.event (a : Attempt) (w i : ℕ) (input : Bytes) : Event :=
  if a.redundant then .skipped (write w input i a.value) else .executed (write w input i a.value)

theorem runAttempt_write {w i : ℕ} {input : Bytes} (h : i + w ≤ input.length) (a : Attempt)
    (v : ℕ) (ev : List Event) : runAttempt w i ⟨write w input i v, ev⟩ a =
      ⟨write w input i (if a.redundant then v else a.value), ev ++ [a.event w i input]⟩ := by
  rw [runAttempt, Attempt.event, write_write h]
  split_ifs
  · rfl
  · rfl

/-- The attempts of a group; the buffer is the input but for the window. -/
theorem foldl_runAttempt {w i : ℕ} {input : Bytes} (h : i + w ≤ input.length)
    (attempts : List Attempt) (v : ℕ) (ev : List Event) :
    ∃ v', attempts.foldl (runAttempt w i) ⟨write w input i v, ev⟩ =
      ⟨write w input i v', ev ++ attempts.map fun a => a.event w i input⟩ := by
  induction attempts generalizing v ev with
  | nil =>
    refine ⟨v, ?_⟩
    rw [List.map_nil, List.append_nil]
    rfl
  | cons a attempts ih =>
    obtain ⟨v', heq⟩ := ih (if a.redundant then v else a.value) (ev ++ [a.event w i input])
    refine ⟨v', ?_⟩
    rw [List.foldl_cons, runAttempt_write h, heq, List.append_assoc]
    rfl

theorem runGroup_events {w i : ℕ} {input : Bytes} (h : i + w ≤ input.length)
    (attempts : List Attempt) (ev : List Event) :
    runGroup w i (window w input i) ⟨input, ev⟩ attempts =
      ⟨input, ev ++ attempts.map fun a => a.event w i input⟩ := by
  obtain ⟨v, heq⟩ := foldl_runAttempt h attempts (window w input i) ev
  rw [write_window h] at heq
  rw [runGroup, heq]
  show (⟨write w (write w input i v) i (window w input i), _⟩ : Run) = _
  rw [write_write h, write_window h]

/-- What a stage adds. -/
def stageEvents (st : Stage) (input : Bytes) : List Event :=
  (List.range (input.length - (st.width - 1))).flatMap fun i =>
    (st.groups (window st.width input i)).flatMap fun g => g.map fun a => a.event st.width i input

theorem runStage_events (st : Stage) (hw : 0 < st.width) (input : Bytes) (ev : List Event) :
    runStage st ⟨input, ev⟩ = ⟨input, ev ++ stageEvents st input⟩ := by
  refine foldl_events (fun i hi ev => ?_) ev
  have hi : i < input.length - (st.width - 1) := List.mem_range.mp hi
  have hle : i + st.width ≤ input.length := by omega
  exact foldl_events (fun g _ ev => runGroup_events hle g ev) ev

theorem bytesEvents_eq_nil {w : ℕ} {input : Bytes} (h : input.length < w) :
    bytesEvents w input = [] := by
  rw [bytesEvents, Nat.sub_eq_zero_of_le (Nat.le_sub_one_of_lt h)]
  rfl

theorem stageEvents_eq_nil (st : Stage) {input : Bytes} (h : input.length < st.width) :
    stageEvents st input = [] := by
  rw [stageEvents, Nat.sub_eq_zero_of_le (Nat.le_sub_one_of_lt h)]
  rfl

/-- Passes of one, two and four bytes, each made only where the input is long enough for it. -/
theorem passes_events {f₁ f₂ f₄ : Run → Run} {E₁ E₂ E₄ : List Event} {input : Bytes}
    (h₁ : ∀ ev, f₁ ⟨input, ev⟩ = ⟨input, ev ++ E₁⟩) (h₂ : ∀ ev, f₂ ⟨input, ev⟩ = ⟨input, ev ++ E₂⟩)
    (h₄ : ∀ ev, f₄ ⟨input, ev⟩ = ⟨input, ev ++ E₄⟩) (hnil₂ : input.length < 2 → E₂ = [])
    (hnil₄ : input.length < 4 → E₄ = []) (ev : List Event) :
    (let s := f₁ ⟨input, ev⟩
      if s.buf.length < 2 then s
      else
        let s := f₂ s
        if s.buf.length < 4 then s else f₄ s) = ⟨input, ev ++ (E₁ ++ E₂ ++ E₄)⟩ := by
  simp only [h₁, h₂, h₄]
  split_ifs with hlt₂ hlt₄
  · rw [hnil₂ hlt₂, hnil₄ (by omega), List.append_nil, List.append_nil]
  · rw [hnil₄ hlt₄, List.append_nil, List.append_assoc]
  · rw [List.append_assoc, List.append_assoc, List.append_assoc]

theorem bitflips_events (input : Bytes) (ev : List Event) :
    bitflips ⟨input, ev⟩ = ⟨input, ev ++ (.executed input :: (bitsEvents 1 input ++
      bitsEvents 2 input ++ bitsEvents 4 input ++ bytesEvents 1 input ++ bytesEvents 2 input ++
      bytesEvents 4 input))⟩ := by
  have hpasses := passes_events (walkBytes_events (w := 1) (by decide) input)
    (walkBytes_events (w := 2) (by decide) input) (walkBytes_events (w := 4) (by decide) input)
    bytesEvents_eq_nil bytesEvents_eq_nil
  unfold bitflips
  rw [execute, walkBits_events (by decide), walkBits_events (by decide),
    walkBits_events (by decide), hpasses]
  simp

theorem arithmetic_events (input : Bytes) (ev : List Event) :
    arithmetic ⟨input, ev⟩ = ⟨input, ev ++ (stageEvents arith8 input ++
      stageEvents arith16 input ++ stageEvents arith32 input)⟩ :=
  passes_events (runStage_events arith8 (by decide) input)
    (runStage_events arith16 (by decide) input) (runStage_events arith32 (by decide) input)
    (stageEvents_eq_nil arith16) (stageEvents_eq_nil arith32) ev

theorem interestingValues_events (input : Bytes) (ev : List Event) :
    interestingValues ⟨input, ev⟩ = ⟨input, ev ++ (stageEvents interest8 input ++
      stageEvents interest16 input ++ stageEvents interest32 input)⟩ :=
  passes_events (runStage_events interest8 (by decide) input)
    (runStage_events interest16 (by decide) input) (runStage_events interest32 (by decide) input)
    (stageEvents_eq_nil interest16) (stageEvents_eq_nil interest32) ev

def stages : List Stage := [arith8, arith16, arith32, interest8, interest16, interest32]

theorem detStages_events (input : Bytes) :
    (detStages input).events = .executed input :: ([1, 2, 4].flatMap (bitsEvents · input) ++
      [1, 2, 4].flatMap (bytesEvents · input) ++ stages.flatMap (stageEvents · input)) := by
  rw [detStages, bitflips_events, arithmetic_events, interestingValues_events]
  simp [stages]

/-- What happens in a pass. -/
inductive Happens (input : Bytes) : Event → Prop where
  | start : Happens input (.executed input)
  | bits (n b : ℕ) (hn : n = 1 ∨ n = 2 ∨ n = 4) (hb : b + n ≤ 8 * input.length) :
      Happens input (.executed (flipBits n input b))
  | bytes (w i : ℕ) (hw : w = 1 ∨ w = 2 ∨ w = 4) (hi : i + w ≤ input.length) :
      Happens input (.executed (flip w input i (256 ^ w - 1)))
  | attempt (st : Stage) (hst : st ∈ stages) (i : ℕ) (hi : i + st.width ≤ input.length)
      (a : Attempt) (ha : a ∈ (st.groups (window st.width input i)).flatten) :
      Happens input (a.event st.width i input)

theorem width_pos {st : Stage} (h : st ∈ stages) : 0 < st.width := by
  revert st
  simp [stages, arith8, arith16, arith32, interest8, interest16, interest32]

theorem mem_events (input : Bytes) (e : Event) :
    e ∈ (detStages input).events ↔ Happens input e := by
  rw [detStages_events]
  constructor
  · intro h
    rcases List.mem_cons.mp h with rfl | h
    · exact .start
    · rcases List.mem_append.mp h with h | h
      · rcases List.mem_append.mp h with h | h
        · obtain ⟨n, hn, h⟩ := List.mem_flatMap.mp h
          obtain ⟨b, hb, rfl⟩ := List.mem_map.mp h
          have hb := List.mem_range.mp hb
          have hn : n = 1 ∨ n = 2 ∨ n = 4 := by simpa using hn
          exact .bits n b hn (by omega)
        · obtain ⟨w, hw, h⟩ := List.mem_flatMap.mp h
          obtain ⟨i, hi, rfl⟩ := List.mem_map.mp h
          have hi := List.mem_range.mp hi
          have hw : w = 1 ∨ w = 2 ∨ w = 4 := by simpa using hw
          exact .bytes w i hw (by omega)
      · obtain ⟨st, hst, h⟩ := List.mem_flatMap.mp h
        obtain ⟨i, hi, h⟩ := List.mem_flatMap.mp h
        obtain ⟨g, hg, h⟩ := List.mem_flatMap.mp h
        obtain ⟨a, ha, rfl⟩ := List.mem_map.mp h
        have hi := List.mem_range.mp hi
        have hwidth := width_pos hst
        exact .attempt st hst i (by omega) a (List.mem_flatten.mpr ⟨g, hg, ha⟩)
  · intro h
    cases h with
    | start => exact List.mem_cons_self
    | bits n b hn hb =>
      refine List.mem_cons_of_mem _ (List.mem_append_left _ (List.mem_append_left _ ?_))
      exact List.mem_flatMap.mpr ⟨n, by simpa using hn,
        List.mem_map.mpr ⟨b, List.mem_range.mpr (by omega), rfl⟩⟩
    | bytes w i hw hi =>
      refine List.mem_cons_of_mem _ (List.mem_append_left _ (List.mem_append_right _ ?_))
      exact List.mem_flatMap.mpr ⟨w, by simpa using hw,
        List.mem_map.mpr ⟨i, List.mem_range.mpr (by omega), rfl⟩⟩
    | attempt st hst i hi a ha =>
      have hwidth := width_pos hst
      obtain ⟨g, hg, ha⟩ := List.mem_flatten.mp ha
      refine List.mem_cons_of_mem _ (List.mem_append_right _ ?_)
      exact List.mem_flatMap.mpr ⟨st, hst, List.mem_flatMap.mpr
        ⟨i, List.mem_range.mpr (by omega), List.mem_flatMap.mpr
          ⟨g, hg, List.mem_map.mpr ⟨a, ha, rfl⟩⟩⟩⟩

end AflNv.DetDedup
