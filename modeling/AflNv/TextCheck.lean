import AflNv.CBase
import Mathlib.Algebra.Order.Ring.Nat

/-!
# Is a queue entry text?

`check_if_text` and `check_if_text_buf` (afl-fuzz-queue.c) walk over a content, one character or
one stray byte at a time, and count what could be ASCII and what could be UTF-8.  The first divides
the UTF-8 count by `comp`, which starts as the number of bytes and is lowered for every byte of a
character after the first.

Reading a byte behind the content gives `none`, and so do a loop that runs out of fuel and a
division by zero.

* `step_spec` says what one iteration can do.
* `textLoop_spec` carries it through the loop: `comp` ends as the number of iterations.
-/

namespace AflNv.TextCheck

/-- `AFL_TXT_MIN_LEN` -/
def aflTxtMinLen : ℕ := 12

/-- `AFL_TXT_MAX_LEN` -/
def aflTxtMaxLen : ℕ := 65535

/-- `AFL_TXT_MIN_PERCENT` -/
def aflTxtMinPercent : ℕ := 99

/-- `MAX_FILE` -/
def maxFile : ℕ := 1024 * 1024

/-- The variables of the loop.  `check_if_text_buf` has no `comp`; nothing it returns depends on
it. -/
structure Scan where
  offset : ℕ
  ascii : ℕ
  utf8 : ℕ
  comp : ℤ
  deriving DecidableEq

/-! ## The conditions -/

/-- `lo <= buf[i] && buf[i] <= hi` -/
def between (buf : Bytes) (i : ℕ) (lo hi : UInt8) : Option Bool :=
  buf[i]?.map fun b => lo ≤ b && b ≤ hi

/-- The bytes that count for both.  The comment of the source, "ASCII: <= 0x7F", is one byte
further. -/
def plain (b : UInt8) : Bool :=
  b = 0x09 || b = 0x0A || b = 0x0D || (0x20 ≤ b && b ≤ 0x7E)

/-- `isascii` -/
def isascii (b : UInt8) : Bool := b ≤ 0x7F

/-- `isprint` in the C locale. -/
def isprint (b : UInt8) : Bool := 0x20 ≤ b && b ≤ 0x7E

/-- "non-overlong 2-byte" -/
def twoByte (buf : Bytes) (i : ℕ) : Option Bool :=
  pure (decide (buf.length - i > 1)) <&&> between buf i 0xC2 0xDF <&&>
    between buf (i + 1) 0x80 0xBF

/-- "excluding overlongs", "straight 3-byte", "excluding surrogates" -/
def threeByte (buf : Bytes) (i : ℕ) : Option Bool :=
  pure (decide (buf.length - i > 2)) <&&>
    ((between buf i 0xE0 0xE0 <&&> between buf (i + 1) 0xA0 0xBF <&&>
        between buf (i + 2) 0x80 0xBF) <||>
      ((between buf i 0xE1 0xEC <||> between buf i 0xEE 0xEE <||> between buf i 0xEF 0xEF) <&&>
        between buf (i + 1) 0x80 0xBF <&&> between buf (i + 2) 0x80 0xBF) <||>
      (between buf i 0xED 0xED <&&> between buf (i + 1) 0x80 0x9F <&&>
        between buf (i + 2) 0x80 0xBF))

/-- "planes 1-3", "planes 4-15", "plane 16" -/
def fourByte (buf : Bytes) (i : ℕ) : Option Bool :=
  pure (decide (buf.length - i > 3)) <&&>
    ((between buf i 0xF0 0xF0 <&&> between buf (i + 1) 0x90 0xBF <&&>
        between buf (i + 2) 0x80 0xBF <&&> between buf (i + 3) 0x80 0xBF) <||>
      (between buf i 0xF1 0xF3 <&&> between buf (i + 1) 0x80 0xBF <&&>
        between buf (i + 2) 0x80 0xBF <&&> between buf (i + 3) 0x80 0xBF) <||>
      (between buf i 0xF4 0xF4 <&&> between buf (i + 1) 0x80 0x8F <&&>
        between buf (i + 2) 0x80 0xBF <&&> between buf (i + 3) 0x80 0xBF))

/-! ## The loop -/

/-- A character of `size` bytes. -/
def Scan.character (s : Scan) (size : ℕ) : Scan :=
  { s with offset := s.offset + size, utf8 := s.utf8 + 1, comp := s.comp - (size - 1 : ℕ) }

/-- One iteration. -/
def step (buf : Bytes) (s : Scan) : Option Scan := do
  let b ← buf[s.offset]?
  if plain b then
    return { s with offset := s.offset + 1, utf8 := s.utf8 + 1, ascii := s.ascii + 1 }
  else
    -- we continue though as it can also be a valid utf8
    let t := if isascii b || isprint b then { s with ascii := s.ascii + 1 } else s
    if ← twoByte buf t.offset then return t.character 2
    else if ← threeByte buf t.offset then return t.character 3
    else if ← fourByte buf t.offset then return t.character 4
    else return { t with offset := t.offset + 1 }

/-- `while (offset < len)`, with the number of iterations. -/
def textLoop (buf : Bytes) : ℕ → Scan → Option (Scan × ℕ)
  | 0, s => if s.offset < buf.length then none else some (s, 0)
  | fuel + 1, s =>
    if s.offset < buf.length then do
      let s' ← step buf s
      let (out, count) ← textLoop buf fuel s'
      return (out, count + 1)
    else some (s, 0)

/-- The variables before the loop. -/
def start (buf : Bytes) : Scan := ⟨0, 0, 0, buf.length⟩

/-- `check_if_text_buf`; it returns a `u8`. -/
def checkIfTextBuf (buf : Bytes) : Option ℕ := do
  let (s, _) ← textLoop buf buf.length (start buf)
  return (if s.utf8 > s.ascii then s.utf8 else s.ascii) % 2 ^ 8

/-- `(utf8 * 100) / comp`: the product is a `u32`, the quotient an `ssize_t`. -/
def percentUtf8 (s : Scan) : ℕ :=
  (((s.utf8 * 100 % 2 ^ 32 : ℕ) : ℤ).tdiv s.comp % 2 ^ 32).toNat

/-- `(ascii * 100) / len` -/
def percentAscii (s : Scan) (len : ℕ) : ℕ := s.ascii * 100 % 2 ^ 32 / len

/-- The class of an entry: 2 for UTF-8, 1 for ASCII, 0 for neither. -/
def verdict (s : Scan) (len : ℕ) : ℕ :=
  if percentUtf8 s ≥ percentAscii s len ∧ percentUtf8 s ≥ aflTxtMinPercent then 2
  else if percentAscii s len ≥ aflTxtMinPercent then 1
  else 0

/-- `check_if_text`, with what `read` delivers of the file; `none` when it cannot be opened or
read. -/
def checkIfText (qLen : ℕ) (file : Option Bytes) : Option ℕ :=
  if qLen < aflTxtMinLen ∨ qLen > aflTxtMaxLen then some 0
  else
    let len := if qLen ≥ maxFile then maxFile - 1 else qLen
    match file with
    | none => some 0
    | some buf =>
      if buf.length ≠ len then some 0
      else do
        let (s, _) ← textLoop buf len (start buf)
        if s.comp = 0 ∨ len = 0 then none else return verdict s len

/-! ## What is read -/

section Reads

variable {buf : Bytes} {i : ℕ}

theorem isSome_andM {x y : Option Bool} (hx : x.isSome) (hy : x = some true → y.isSome) :
    (x <&&> y).isSome := by
  cases x with
  | none => cases hx
  | some b =>
    cases b with
    | true => exact hy rfl
    | false => rfl

theorem isSome_orM {x y : Option Bool} (hx : x.isSome) (hy : y.isSome) : (x <||> y).isSome := by
  cases x with
  | none => cases hx
  | some b =>
    cases b with
    | true => rfl
    | false => exact hy

theorem isSome_between (hi : i < buf.length) (lo hi' : UInt8) : (between buf i lo hi').isSome := by
  rw [between, List.getElem?_eq_getElem hi]
  rfl

/-- A condition that looks at `len - offset` first reads no byte behind the content. -/
theorem isSome_guarded {n : ℕ} {x : Option Bool} (hx : buf.length - i > n → x.isSome) :
    (pure (decide (buf.length - i > n)) <&&> x).isSome :=
  isSome_andM rfl fun hn => hx (of_decide_eq_true (Option.some.inj hn))

theorem isSome_twoByte : (twoByte buf i).isSome := by
  unfold twoByte
  apply isSome_guarded
  intro hn
  have h₀ := @isSome_between buf i (by omega)
  have h₁ := @isSome_between buf (i + 1) (by omega)
  exact isSome_andM (h₀ _ _) fun _ => h₁ _ _

theorem isSome_threeByte : (threeByte buf i).isSome := by
  unfold threeByte
  apply isSome_guarded
  intro hn
  have h₀ := @isSome_between buf i (by omega)
  have h₁ := @isSome_between buf (i + 1) (by omega)
  have h₂ := @isSome_between buf (i + 2) (by omega)
  have hform {x : Option Bool} (hx : x.isSome) (lo hi : UInt8) :
      (x <&&> between buf (i + 1) lo hi <&&> between buf (i + 2) 0x80 0xBF).isSome :=
    isSome_andM hx fun _ => isSome_andM (h₁ _ _) fun _ => h₂ _ _
  exact isSome_orM (hform (h₀ _ _) _ _) (isSome_orM
    (hform (isSome_orM (h₀ _ _) (isSome_orM (h₀ _ _) (h₀ _ _))) _ _) (hform (h₀ _ _) _ _))

theorem isSome_fourByte : (fourByte buf i).isSome := by
  unfold fourByte
  apply isSome_guarded
  intro hn
  have h₀ := @isSome_between buf i (by omega)
  have h₁ := @isSome_between buf (i + 1) (by omega)
  have h₂ := @isSome_between buf (i + 2) (by omega)
  have h₃ := @isSome_between buf (i + 3) (by omega)
  have hform (lo hi lo' hi' : UInt8) : (between buf i lo hi <&&> between buf (i + 1) lo' hi' <&&>
      between buf (i + 2) 0x80 0xBF <&&> between buf (i + 3) 0x80 0xBF).isSome :=
    isSome_andM (h₀ _ _) fun _ => isSome_andM (h₁ _ _) fun _ => isSome_andM (h₂ _ _) fun _ => h₃ _ _
  exact isSome_orM (hform _ _ _ _) (isSome_orM (hform _ _ _ _) (hform _ _ _ _))

/-- A character is read where all its bytes are. -/
theorem lt_of_guarded {n : ℕ} {x : Option Bool}
    (h : (pure (decide (buf.length - i > n)) <&&> x) = some true) : i + n < buf.length := by
  by_cases hn : buf.length - i > n
  · omega
  · rw [decide_eq_false hn] at h
    cases h

end Reads

/-! ## One iteration -/

/-- What an iteration does: it consumes bytes of the content, lowers `comp` by all of them but one,
and raises each counter by one at most. -/
structure Advance (len : ℕ) (s s' : Scan) : Prop where
  consumes : s.offset < s'.offset
  inside : s'.offset ≤ len
  comp : s'.comp + s'.offset = s.comp + s.offset + 1
  ascii : s'.ascii ≤ s.ascii + 1
  utf8 : s'.utf8 ≤ s.utf8 + 1

section Iteration

variable {buf : Bytes} {s : Scan}

theorem advance_character {t : Scan} (hoffset : t.offset = s.offset) (hcomp : t.comp = s.comp)
    (hascii : t.ascii ≤ s.ascii + 1) (hutf8 : t.utf8 = s.utf8) {size : ℕ} (hsize : 0 < size)
    (hinside : t.offset + (size - 1) < buf.length) :
    Advance buf.length s (t.character size) where
  consumes := by simp only [Scan.character]; omega
  inside := by simp only [Scan.character]; omega
  comp := by simp only [Scan.character]; omega
  ascii := hascii
  utf8 := by simp only [Scan.character]; omega

/-- An iteration inside the content reads no byte behind it. -/
theorem step_spec (h : s.offset < buf.length) :
    ∃ s', step buf s = some s' ∧ Advance buf.length s s' := by
  obtain ⟨two, htwo⟩ := Option.isSome_iff_exists.mp (@isSome_twoByte buf s.offset)
  obtain ⟨three, hthree⟩ :=
    Option.isSome_iff_exists.mp (@isSome_threeByte buf s.offset)
  obtain ⟨four, hfour⟩ := Option.isSome_iff_exists.mp (@isSome_fourByte buf s.offset)
  unfold step
  rw [List.getElem?_eq_getElem h]
  simp only [Option.bind_eq_bind, Option.bind_some]
  by_cases hplain : plain buf[s.offset] = true
  · rw [if_pos hplain]
    refine ⟨_, rfl, ?_, ?_, ?_, ?_, ?_⟩ <;> dsimp only <;> omega
  rw [if_neg hplain]
  -- the count of a byte that is ASCII without being plain
  generalize ht : (if (isascii buf[s.offset] || isprint buf[s.offset]) = true
    then { s with ascii := s.ascii + 1 } else s) = t
  have hoffset : t.offset = s.offset := by rw [← ht]; split <;> rfl
  have hcomp : t.comp = s.comp := by rw [← ht]; split <;> rfl
  have hutf8 : t.utf8 = s.utf8 := by rw [← ht]; split <;> rfl
  have hascii : t.ascii ≤ s.ascii + 1 := by rw [← ht]; split <;> simp
  have hcharacter {size : ℕ} (hsize : 0 < size) (hinside : s.offset + (size - 1) < buf.length) :
      Advance buf.length s (t.character size) :=
    advance_character hoffset hcomp hascii hutf8 hsize (by omega)
  rw [hoffset, htwo, hthree, hfour]
  simp only [Option.bind_some]
  cases two with
  | true => exact ⟨_, rfl, hcharacter (by decide) (lt_of_guarded htwo)⟩
  | false =>
    cases three with
    | true => exact ⟨_, rfl, hcharacter (by decide) (lt_of_guarded hthree)⟩
    | false =>
      cases four with
      | true => exact ⟨_, rfl, hcharacter (by decide) (lt_of_guarded hfour)⟩
      | false =>
        refine ⟨_, rfl, ?_, ?_, ?_, ?_, ?_⟩ <;> dsimp only <;> omega

end Iteration

/-! ## The loop ends -/

/-- With as much fuel as there are bytes left the loop ends, behind the last byte. -/
theorem textLoop_spec {buf : Bytes} (fuel : ℕ) {s : Scan}
    (hinside : s.offset ≤ buf.length) (hfuel : buf.length ≤ s.offset + fuel) :
    ∃ out count, textLoop buf fuel s = some (out, count) ∧
      out.comp + buf.length = s.comp + s.offset + count ∧ s.offset + count ≤ buf.length ∧
      out.ascii ≤ s.ascii + count ∧ out.utf8 ≤ s.utf8 + count ∧
      (s.offset < buf.length → 0 < count) := by
  induction fuel generalizing s with
  | zero =>
    have hend : ¬ s.offset < buf.length := by omega
    refine ⟨s, 0, if_neg hend, ?_, ?_, le_rfl, le_rfl, fun h => absurd h hend⟩ <;> omega
  | succ fuel ih =>
    by_cases hmore : s.offset < buf.length
    · obtain ⟨s', hstep, hadvance⟩ := @step_spec _ _ hmore
      have hconsumes := hadvance.consumes
      obtain ⟨out, count, hloop, hcomp, hcount, hascii, hutf8, -⟩ :=
        ih hadvance.inside (by omega)
      have hstepComp := hadvance.comp
      have hstepAscii := hadvance.ascii
      have hstepUtf8 := hadvance.utf8
      refine ⟨out, count + 1, ?_, ?_, ?_, ?_, ?_, fun _ => Nat.succ_pos count⟩
      · rw [textLoop, if_pos hmore, hstep]
        show (textLoop buf fuel s').bind _ = _
        rw [hloop]
        rfl
      all_goals omega
    · refine ⟨s, 0, if_neg hmore, ?_, ?_, le_rfl, le_rfl, fun h => absurd h hmore⟩ <;> omega

/-- Every byte of a plain text counts for both. -/
theorem textLoop_plain {buf : Bytes} (hplain : ∀ b ∈ buf, plain b = true)
    (fuel : ℕ) {s : Scan} (hinside : s.offset ≤ buf.length)
    (hfuel : buf.length ≤ s.offset + fuel) :
    textLoop buf fuel s = some (⟨buf.length, s.ascii + (buf.length - s.offset),
      s.utf8 + (buf.length - s.offset), s.comp⟩, buf.length - s.offset) := by
  induction fuel generalizing s with
  | zero =>
    have hend : s.offset = buf.length := by omega
    rw [textLoop, if_neg (by omega), ← hend, Nat.sub_self]
    rfl
  | succ fuel ih =>
    by_cases hmore : s.offset < buf.length
    · have hstep : step buf s = some ⟨s.offset + 1, s.ascii + 1, s.utf8 + 1, s.comp⟩ := by
        unfold step
        rw [List.getElem?_eq_getElem hmore]
        exact if_pos (hplain _ (List.getElem_mem hmore))
      rw [textLoop, if_pos hmore, hstep]
      show (textLoop buf fuel _).bind _ = _
      rw [ih (by dsimp only; omega) (by dsimp only; omega)]
      have hleft : buf.length - s.offset = buf.length - (s.offset + 1) + 1 := by omega
      show some _ = some _
      rw [hleft, Nat.add_assoc s.ascii, Nat.add_comm 1, Nat.add_assoc s.utf8, Nat.add_comm 1]
    · have hend : s.offset = buf.length := by omega
      rw [textLoop, if_neg hmore, ← hend, Nat.sub_self]
      rfl

/-! ## The classification -/

theorem percent_le {count total : ℕ} (hcount : count ≤ total) (htotal : 0 < total)
    (hmax : total ≤ aflTxtMaxLen) : count * 100 % 2 ^ 32 / total ≤ 100 := by
  have hbound : count * 100 < 2 ^ 32 := by
    have : count ≤ 65535 := hcount.trans hmax
    omega
  rw [Nat.mod_eq_of_lt hbound]
  calc count * 100 / total
    _ ≤ total * 100 / total := Nat.div_le_div_right (Nat.mul_le_mul_right _ hcount)
    _ = 100 := Nat.mul_div_cancel_left _ htotal

theorem percentUtf8_eq {s : Scan} {total : ℕ} (hcomp : s.comp = total)
    (hsmall : s.utf8 * 100 % 2 ^ 32 / total < 2 ^ 32) :
    percentUtf8 s = s.utf8 * 100 % 2 ^ 32 / total := by
  have hdiv : ((s.utf8 * 100 % 2 ^ 32 : ℕ) : ℤ).tdiv s.comp =
      (s.utf8 * 100 % 2 ^ 32 / total : ℕ) := by
    rw [hcomp]
    exact (Int.ofNat_tdiv _ _).symm
  rw [percentUtf8, hdiv]
  have hnat (n : ℕ) (hn : n < 2 ^ 32) : (((n : ℕ) : ℤ) % 2 ^ 32).toNat = n := by omega
  exact hnat _ hsmall

/-- A content that is read completely is classified: the loop ends without a read behind the
content, `comp` is then the number of its iterations, and the percentages are at most 100.  The
buffer version returns the larger counter in eight bits. -/
theorem checkIfText_arithmetic {data : Bytes} (hmin : aflTxtMinLen ≤ data.length)
    (hmax : data.length ≤ aflTxtMaxLen) :
    ∃ s count, textLoop data data.length (start data) = some (s, count) ∧
      s.comp = count ∧ 1 ≤ s.comp ∧
      percentUtf8 s ≤ 100 ∧ percentAscii s data.length ≤ 100 ∧
      checkIfText data.length (some data) = some (verdict s data.length) ∧
      checkIfTextBuf data = some (max s.utf8 s.ascii % 2 ^ 8) := by
  have hpos : 0 < data.length := Nat.lt_of_lt_of_le (by decide) hmin
  obtain ⟨s, count, hloop, hcomp, hcount, hascii, hutf8, hiterates⟩ :=
    @textLoop_spec data data.length (start data) (Nat.zero_le _)
      (by simp only [start]; omega)
  simp only [start, Nat.zero_add] at hcomp hcount hascii hutf8 hiterates
  have hsome := hiterates hpos
  have hs : s.comp = count := by omega
  have hutf8Percent : percentUtf8 s ≤ 100 := by
    have hle := percent_le hutf8 hsome (hcount.trans hmax)
    rw [percentUtf8_eq hs (by omega)]
    exact hle
  refine ⟨s, count, hloop, hs, by omega, hutf8Percent,
    percent_le (hascii.trans hcount) hpos hmax, ?_, ?_⟩
  · have hlen : ¬ maxFile ≤ data.length := Nat.not_le.mpr (hmax.trans_lt (by decide))
    unfold checkIfText
    rw [if_neg (not_or.mpr ⟨Nat.not_lt.mpr hmin, Nat.not_lt.mpr hmax⟩)]
    simp only [ge_iff_le, if_neg hlen, ne_eq, not_true_eq_false, if_false, hloop]
    have hdivides : ¬ (s.comp = 0 ∨ data.length = 0) := by omega
    exact if_neg hdivides
  · have hlarger : (if s.utf8 > s.ascii then s.utf8 else s.ascii) = max s.utf8 s.ascii := by
      split <;> omega
    rw [checkIfTextBuf, hloop, ← hlarger]
    rfl

/-- Ten letters and two characters of two bytes. -/
theorem checkIfText_arithmetic_twoBytes :
    ∃ s count, textLoop (ascii "abcdefghij" ++ [0xC3, 0xA9, 0xC3, 0xBC]) 14
        (start (ascii "abcdefghij" ++ [0xC3, 0xA9, 0xC3, 0xBC])) = some (s, count) ∧
      s.comp = count ∧ 1 ≤ s.comp ∧
      percentUtf8 s ≤ 100 ∧ percentAscii s 14 ≤ 100 ∧
      checkIfText 14 (some (ascii "abcdefghij" ++ [0xC3, 0xA9, 0xC3, 0xBC])) =
        some (verdict s 14) ∧
      checkIfTextBuf (ascii "abcdefghij" ++ [0xC3, 0xA9, 0xC3, 0xBC]) =
        some (max s.utf8 s.ascii % 2 ^ 8) :=
  @checkIfText_arithmetic (ascii "abcdefghij" ++ [0xC3, 0xA9, 0xC3, 0xBC]) (by decide)
    (by decide)

/-- On 256 letters the larger counter does not fit a `u8`. -/
theorem checkIfTextBuf_truncates :
    ¬ ∀ data : Bytes, aflTxtMinLen ≤ data.length → data.length ≤ aflTxtMaxLen →
      (∀ b ∈ data, b ≠ 0x7F) → ∀ s count,
      textLoop data data.length (start data) = some (s, count) →
      checkIfTextBuf data = some (max s.utf8 s.ascii) := by
  intro hclaim
  have hletter {b : UInt8} (hb : b ∈ List.replicate 256 (0x61 : UInt8)) : b = 0x61 :=
    List.eq_of_mem_replicate hb
  have hlen : (List.replicate 256 (0x61 : UInt8)).length = 256 := List.length_replicate
  have hplain :=
    @textLoop_plain (List.replicate 256 0x61) (fun b hb => by rw [hletter hb]; decide)
      (List.replicate 256 (0x61 : UInt8)).length (start (List.replicate 256 0x61)) (Nat.zero_le _)
      (by simp only [start]; omega)
  have hbuf := hclaim _ (by rw [hlen]; decide) (by rw [hlen]; decide)
    (fun b hb => by rw [hletter hb]; decide) _ _ hplain
  have hsame : (if 0 + (256 - 0) > 0 + (256 - 0) then 0 + (256 - 0) else 0 + (256 - 0)) % 2 ^ 8 =
      max (0 + (256 - 0)) (0 + (256 - 0)) := by
    rw [checkIfTextBuf, hplain] at hbuf
    simp only [hlen] at hbuf
    exact Option.some.inj hbuf
  omega

end AflNv.TextCheck
