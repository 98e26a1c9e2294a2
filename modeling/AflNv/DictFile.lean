import AflNv.MabConfig

/-!
# The dictionary file

`load_extras_file` (afl-fuzz-extras.c) reads the tokens of a `-x` file line by line.  A line is
blank, a comment, or a pair `name@level = "value"`, whose value is written with `\xNN`, `\\` and
`\"`; a pair above the requested level is passed over.  Anything else costs a warning, and some of
it still gives a token.

* `Entry` is the form of a pair and `Quiet` the form of a line; `loadLine_eq_iff` says that these
  are the lines that are read without a warning, and what is read from them.
* `Item` is a line of a file that somebody writes after the documentation, with any token in it;
  `loadExtrasFile_render` reads its tokens back.  `Line.ofToken` is such a line for any token.
-/

namespace AflNv.DictFile

open AflNv.Lib AflNv.Lib.Numeral AflNv.MabConfig

/-- `MAX_LINE` -/
def maxLine : ℕ := 8192

/-- `MAX_DICT_FILE` -/
def maxDictFile : ℕ := 128

/-! ## The C library -/

/-- `isalnum` in the C locale. -/
def isalnum (b : UInt8) : Bool :=
  isDigit b || (65 ≤ b && b ≤ 90) || (97 ≤ b && b ≤ 122)

/-- `isxdigit` -/
def isxdigit (b : UInt8) : Bool := isHexDigit b

/-- `atoi` is `strtol` within its bounds, cut down to an `int`. -/
def atoi (text : Bytes) : ℤ :=
  match strtol text with
  | none => 0
  | some r => (max (-(2 ^ 63)) (min r.value (2 ^ 63 - 1))).bmod (2 ^ 32)

/-- `fgets` with room for `n` bytes and a NUL: the bytes up to a newline, and what follows. -/
def fgets : ℕ → Bytes → Bytes × Bytes
  | 0, file => ([], file)
  | _ + 1, [] => ([], [])
  | n + 1, b :: file => if b = nl then ([b], file) else (b :: (fgets n file).1, (fgets n file).2)

theorem length_fgets (n : ℕ) (file : Bytes) : (fgets n file).2.length ≤ file.length := by
  induction file generalizing n with
  | nil => cases n <;> exact Nat.le_refl _
  | cons b file ih =>
    cases n with
    | zero => exact Nat.le_refl _
    | succ n =>
      have := ih n
      unfold fgets
      split_ifs <;> simp only [List.length_cons] <;> omega

/-- The buffers that `fgets` fills until it returns NULL. -/
def fgetsLines : Bytes → List Bytes
  | [] => []
  | b :: file =>
    (fgets (maxLine - 1) (b :: file)).1 :: fgetsLines (fgets (maxLine - 1) (b :: file)).2
termination_by file => file.length
decreasing_by
  have hstep : (fgets (maxLine - 1) (b :: file)).2.length ≤ file.length := by
    have := length_fgets (maxLine - 2) file
    simp only [maxLine, fgets]
    split_ifs
    · exact Nat.le_refl _
    · exact this
  exact Nat.lt_succ_of_le hstep

/-! ## One line -/

/-- What is written to the terminal about a line. -/
inductive Warning
  /-- `Malformed name="value" pair` -/
  | malformedValue
  /-- `Malformed name="keyword" pair` -/
  | malformedKeyword
  | emptyKeyword
  | nonPrintable
  /-- `Invalid escaping (not \xNN)` -/
  | invalidEscaping
  | tooBig (klen : ℕ)
  deriving DecidableEq

/-- The place of a digit in `hexdigits`. -/
def hexVal (b : UInt8) : ℕ := (ascii "0123456789abcdef").idxOf (tolower b)

def hexByte (a b : UInt8) : UInt8 := UInt8.ofNat (hexVal a * 16 + hexVal b)

/-- `case 1 ... 31` and `case 128 ... 255` -/
def unprintable (c : UInt8) : Bool := (1 ≤ c && c ≤ 31) || 128 ≤ c

def put (c : UInt8) (r : Bytes × List Warning) : Bytes × List Warning := (c :: r.1, r.2)

def warn (w : Warning) (r : Bytes × List Warning) : Bytes × List Warning := (r.1, w :: r.2)

/-- The loop over the bytes between the quotes.  A backslash that starts no escape is skipped, and
so is a byte that should have been escaped. -/
def decodeValue : Bytes → Bytes × List Warning
  | [] => ([], [])
  | c :: s =>
    if unprintable c then warn .nonPrintable (decodeValue s)
    else if c = 92 then
      match s with
      | [] => warn .invalidEscaping (decodeValue [])
      | d :: s₁ =>
        if d = 92 ∨ d = 34 then put d (decodeValue s₁)
        else match s₁ with
          | a :: b :: s₂ =>
            if d = 120 ∧ isxdigit a ∧ isxdigit b then put (hexByte a b) (decodeValue s₂)
            else warn .invalidEscaping (decodeValue (d :: a :: b :: s₂))
          | [a] => warn .invalidEscaping (decodeValue [d, a])
          | [] => warn .invalidEscaping (decodeValue [d])
    else put c (decodeValue s)

/-- A byte of a name. -/
def isLabel (b : UInt8) : Bool := isalnum b || b = 95

/-- A byte between the name and the value. -/
def isSep (b : UInt8) : Bool := isspace b || b = 61

/-- `@number`; `none` where the level is above the requested one. -/
def skipLevel (dictLevel : ℤ) : Bytes → Option Bytes
  | [] => some []
  | b :: s =>
    if b = 64 then if dictLevel < atoi s then none else some (s.dropWhile isDigit)
    else some (b :: s)

/-- `[number]`; the closing bracket may be missing. -/
def skipIndex : Bytes → Bytes
  | [] => []
  | b :: s =>
    if b = 91 then
      if (s.dropWhile isDigit).head? = some 93 then (s.dropWhile isDigit).tail
      else s.dropWhile isDigit
    else b :: s

/-- From the first byte behind the opening quote on. -/
def loadKeyword (text : Bytes) : Option Bytes × List Warning :=
  if text = [] then (none, [.emptyKeyword])
  else
    let value := decodeValue text
    if maxDictFile < value.1.length then (none, value.2 ++ [.tooBig value.1.length])
    else (some value.1, value.2)

/-- A line without the closing quote. -/
def loadPair (dictLevel : ℤ) (text : Bytes) : Option Bytes × List Warning :=
  match skipLevel dictLevel (text.dropWhile isLabel) with
  | none => (none, [])
  | some rest =>
    match (skipIndex rest).dropWhile isSep with
    | [] => (none, [.malformedKeyword])
    | c :: value => if c = 34 then loadKeyword value else (none, [.malformedKeyword])

/-- One pass of the loop of `load_extras_file`, with the buffer that `fgets` filled: the token, and
the warnings. -/
def loadLine (dictLevel : ℤ) (buf : Bytes) : Option Bytes × List Warning :=
  let line := trimSpace (cstr buf)
  if line = [] ∨ line.head? = some 35 then (none, [])
  else if line.getLast? ≠ some 34 then (none, [.malformedValue])
  else loadPair dictLevel line.dropLast

/-- What `load_extras_file` adds to `extras`, and the warnings with the numbers of their lines. -/
structure Loaded where
  tokens : List Bytes
  warnings : List (ℕ × Warning)
  deriving DecidableEq

/-- `load_extras_file` on the content of the file. -/
def loadExtrasFile (dictLevel : ℤ) (file : Bytes) : Loaded where
  tokens := (fgetsLines file).filterMap fun buf => (loadLine dictLevel buf).1
  warnings := ((fgetsLines file).zipIdx 1).flatMap fun l =>
    (loadLine dictLevel l.1).2.map fun w => (l.2, w)

/-! ## The value -/

@[simp] theorem put_fst (c : UInt8) (r : Bytes × List Warning) : (put c r).1 = c :: r.1 := rfl

@[simp] theorem put_snd (c : UInt8) (r : Bytes × List Warning) : (put c r).2 = r.2 := rfl

@[simp] theorem warn_snd (w : Warning) (r : Bytes × List Warning) : (warn w r).2 = w :: r.2 := rfl

/-- How one byte of a token is written. -/
inductive Chunk
  | plain (b : UInt8) (h : unprintable b = false ∧ b ≠ 92 ∧ b ≠ 0)
  | escaped (b : UInt8) (h : b = 92 ∨ b = 34)
  | hex (a b : UInt8) (h : isxdigit a = true ∧ isxdigit b = true)

namespace Chunk

def text : Chunk → Bytes
  | plain b _ => [b]
  | escaped b _ => [92, b]
  | hex a b _ => [92, 120, a, b]

def value : Chunk → UInt8
  | plain b _ => b
  | escaped b _ => b
  | hex a b _ => hexByte a b

end Chunk

theorem decodeValue_text (chunks : List Chunk) :
    decodeValue (chunks.flatMap Chunk.text) = (chunks.map Chunk.value, []) := by
  induction chunks with
  | nil => rfl
  | cons chunk chunks ih =>
    rw [List.flatMap_cons, List.map_cons]
    cases chunk with
    | plain b h =>
      simp only [Chunk.text, Chunk.value, List.singleton_append]
      unfold decodeValue
      simp [h.1, h.2.1, ih, put]
    | escaped b h =>
      have h92 : unprintable 92 = false := by decide
      simp only [Chunk.text, Chunk.value, List.cons_append, List.nil_append]
      unfold decodeValue
      simp [h92, h, ih, put]
    | hex a b h =>
      have h92 : unprintable 92 = false := by decide
      simp only [Chunk.text, Chunk.value, List.cons_append, List.nil_append]
      unfold decodeValue
      simp [h92, h.1, h.2, ih, put]

/-- A value that is read without a warning is made of chunks. -/
theorem exists_chunks {s : Bytes} (h0 : 0 ∉ s) (hquiet : (decodeValue s).2 = []) :
    ∃ chunks : List Chunk, s = chunks.flatMap Chunk.text := by
  fun_induction decodeValue s with
  | case1 => exact ⟨[], rfl⟩
  | case2 c s hc ih => exact absurd hquiet (List.cons_ne_nil _ _)
  | case3 hc ih => exact absurd hquiet (List.cons_ne_nil _ _)
  | case4 d s₁ hd hc ih =>
    obtain ⟨chunks, rfl⟩ := ih (fun h => h0 (by simp [h])) hquiet
    exact ⟨.escaped d hd :: chunks, rfl⟩
  | case5 d hd a b s₂ hx hc ih =>
    obtain ⟨rfl, hhex⟩ := hx
    obtain ⟨chunks, rfl⟩ := ih (fun h => h0 (by simp [h])) hquiet
    exact ⟨.hex a b hhex :: chunks, rfl⟩
  | case6 d hd a b s₂ hx hc ih => exact absurd hquiet (List.cons_ne_nil _ _)
  | case7 d hd a hc ih => exact absurd hquiet (List.cons_ne_nil _ _)
  | case8 d hd hc ih => exact absurd hquiet (List.cons_ne_nil _ _)
  | case9 c s hc hne ih =>
    have hzero : c ≠ 0 := fun h => h0 (by simp [h])
    obtain ⟨chunks, rfl⟩ := ih (fun h => h0 (by simp [h])) hquiet
    exact ⟨.plain c ⟨Bool.eq_false_iff.mpr hc, hne, hzero⟩ :: chunks, rfl⟩

/-- A raw byte and an escape that is cut off are dropped, and the token stays. -/
example : decodeValue [97, 9, 92] = ([97], [.nonPrintable, .invalidEscaping]) := by decide

/-! ## The level -/

/-- Behind these bytes a number ends, and no number begins behind their blanks. -/
def NoNumber (rest : Bytes) : Prop :=
  ∀ b ∈ (rest.dropWhile isspace).head?, isDigit b = false ∧ b ≠ 45 ∧ b ≠ 43

theorem isspace_not_isDigit {b : UInt8} (h : isspace b = true) : isDigit b = false := by
  simp only [isspace, isDigit, Bool.or_eq_true, Bool.and_eq_true, decide_eq_true_eq,
    Bool.and_eq_false_iff, decide_eq_false_iff_not, UInt8.le_iff_toNat_le] at h ⊢
  rcases h with rfl | h
  · decide
  · have h13 : b.toNat ≤ 13 := h.2
    have h48 : (48 : UInt8).toNat = 48 := rfl
    omega

theorem NoNumber.head {rest : Bytes} (h : NoNumber rest) : ∀ b ∈ rest.head?, isDigit b = false := by
  cases rest with
  | nil =>
    intro b hb
    exact absurd hb (by simp)
  | cons c rest =>
    intro b hb
    obtain rfl : c = b := by simpa using hb
    by_cases hc : isspace c = true
    · exact isspace_not_isDigit hc
    · rw [NoNumber, List.dropWhile_cons_of_neg hc] at h
      exact (h c rfl).1

/-- `atoi` reads no further than the digits. -/
theorem atoi_append {ds rest : Bytes} (hds : ∀ b ∈ ds, isDigit b = true) (hrest : NoNumber rest) :
    atoi (ds ++ rest) = atoi ds := by
  cases ds with
  | nil =>
    have hnone : strtol rest = none := by
      unfold strtol
      cases htail : rest.dropWhile isspace with
      | nil => rfl
      | cons b tail =>
        obtain ⟨hdigit, hminus, hplus⟩ := hrest b (by rw [htail]; rfl)
        simp [scanSign, hminus, hplus, scanDigits, hdigit]
    rw [List.nil_append, atoi, hnone, atoi, strtol_nil]
  | cons d ds =>
    have hd : isDigit d = true := hds d (List.mem_cons_self ..)
    have hspace : isspace d = false := by
      by_contra h
      have := isspace_not_isDigit (Bool.not_eq_false _ ▸ h)
      rw [hd] at this
      exact absurd this (by decide)
    have hsign := no_sign_of_isDigit hd
    have hread (tail : Bytes) : strtol (d :: tail) =
        some ⟨natOf (scanDigits (d :: tail)).1, (scanDigits (d :: tail)).2⟩ := by
      unfold strtol
      simp [hspace, scanSign, hsign, scanDigits, hd]
    have happ : scanDigits (d :: (ds ++ rest)) = (d :: ds, rest) :=
      scanDigits_append hds hrest.head
    have hself : scanDigits (d :: ds) = (d :: ds, []) := by
      have hend : ∀ b ∈ ([] : Bytes).head?, isDigit b = false := by simp
      have := scanDigits_append hds hend
      rwa [List.append_nil] at this
    rw [List.cons_append, atoi, hread, happ, atoi, hread, hself]

/-! ## The pair -/

def levelText : Option Bytes → Bytes
  | none => []
  | some ds => 64 :: ds

/-- The digits between brackets, and whether the second bracket is there. -/
def indexText : Option (Bytes × Bool) → Bytes
  | none => []
  | some (ds, closed) => 91 :: (ds ++ if closed then [93] else [])

/-- A pair that is well formed. -/
structure Entry where
  label : Bytes
  level : Option Bytes
  index : Option (Bytes × Bool)
  seps : Bytes
  chunks : List Chunk
  label_ok : ∀ b ∈ label, isLabel b = true
  level_ok : ∀ ds ∈ level, ∀ b ∈ ds, isDigit b = true
  index_ok : ∀ i ∈ index, ∀ b ∈ i.1, isDigit b = true
  seps_ok : ∀ b ∈ seps, isSep b = true
  chunks_ne : chunks ≠ []

namespace Entry

/-- The text up to the closing quote. -/
def body (e : Entry) : Bytes :=
  e.label ++ (levelText e.level ++ (indexText e.index ++
    (e.seps ++ 34 :: e.chunks.flatMap Chunk.text)))

def text (e : Entry) : Bytes := e.body ++ [34]

/-- The token. -/
def value (e : Entry) : Bytes := e.chunks.map Chunk.value

/-- The pair is not above the requested level. -/
def Loads (e : Entry) (dictLevel : ℤ) : Prop := ∀ ds ∈ e.level, atoi ds ≤ dictLevel

end Entry

/-- A byte that stands directly before the value. -/
def isMark (b : UInt8) : Bool := isSep b || b = 34

theorem isMark_spec {b : UInt8} (h : isMark b = true) :
    isDigit b = false ∧ isLabel b = false ∧ b ≠ 35 ∧ b ≠ 43 ∧ b ≠ 45 ∧ b ≠ 64 ∧ b ≠ 91 ∧
      b ≠ 93 := by
  have hcases : b = 32 ∨ b = 61 ∨ b = 34 ∨ (9 ≤ b.toNat ∧ b.toNat ≤ 13) := by
    simp only [isMark, isSep, isspace, Bool.or_eq_true, Bool.and_eq_true, decide_eq_true_eq,
      UInt8.le_iff_toNat_le] at h
    rcases h with ((h | h) | h) | h
    · exact .inl h
    · exact .inr (.inr (.inr h))
    · exact .inr (.inl h)
    · exact .inr (.inr (.inl h))
  rcases hcases with rfl | rfl | rfl | ⟨h9, h13⟩
  · decide
  · decide
  · decide
  · have hne (c : UInt8) (hc : 13 < c.toNat) : b ≠ c := by
      rintro rfl
      omega
    have hlt (c : UInt8) (hc : 13 < c.toNat) : ¬ c ≤ b := by
      rw [UInt8.le_iff_toNat_le]
      omega
    refine ⟨?_, ?_, hne _ (by decide), hne _ (by decide), hne _ (by decide), hne _ (by decide),
      hne _ (by decide), hne _ (by decide)⟩
    · simp [isDigit, hlt 48 (by decide)]
    · simp [isLabel, isalnum, isDigit, hlt 48 (by decide), hlt 65 (by decide), hlt 97 (by decide),
        hne 95 (by decide)]

section Value

variable {seps : Bytes} (hseps : ∀ b ∈ seps, isSep b = true) (v : Bytes)

include hseps

theorem head_seps : ∀ b ∈ (seps ++ 34 :: v).head?, isMark b = true := by
  intro b hb
  cases seps with
  | nil =>
    obtain rfl : (34 : UInt8) = b := by simpa using hb
    decide
  | cons c seps =>
    obtain rfl : c = b := by simpa using hb
    rw [isMark, hseps c (List.mem_cons_self ..), Bool.true_or]

theorem noNumber_seps : NoNumber (seps ++ 34 :: v) := by
  induction seps with
  | nil =>
    intro b hb
    obtain rfl : (34 : UInt8) = b := by simpa [isspace] using hb
    decide
  | cons c seps ih =>
    by_cases hc : isspace c = true
    · rw [NoNumber, List.cons_append, List.dropWhile_cons_of_pos hc]
      exact ih fun b hb => hseps b (List.mem_cons_of_mem c hb)
    · rw [NoNumber, List.cons_append, List.dropWhile_cons_of_neg hc]
      intro b hb
      have hmark := head_seps hseps v b hb
      have hspec := isMark_spec hmark
      exact ⟨hspec.1, hspec.2.2.2.2.1, hspec.2.2.2.1⟩

theorem dropWhile_seps : (seps ++ 34 :: v).dropWhile isSep = 34 :: v := by
  rw [List.dropWhile_append_of_pos hseps, List.dropWhile_cons_of_neg (by decide)]

end Value

/-! ### The index -/

theorem noNumber_index (index : Option (Bytes × Bool)) {rest : Bytes} (hrest : NoNumber rest) :
    NoNumber (indexText index ++ rest) := by
  cases index with
  | none => exact hrest
  | some i =>
    intro b hb
    obtain rfl : (91 : UInt8) = b := by simpa [indexText, isspace] using hb
    decide

theorem skipIndex_text {index : Option (Bytes × Bool)} {rest : Bytes}
    (hindex : ∀ i ∈ index, ∀ b ∈ i.1, isDigit b = true)
    (hrest : ∀ b ∈ rest.head?, isMark b = true) : skipIndex (indexText index ++ rest) = rest := by
  cases index with
  | none =>
    cases rest with
    | nil => rfl
    | cons b rest =>
      have hb := isMark_spec (hrest b rfl)
      simp [indexText, skipIndex, hb.2.2.2.2.2.2.1]
  | some i =>
    obtain ⟨ds, closed⟩ := i
    have hds : ∀ b ∈ ds, isDigit b = true := hindex (ds, closed) rfl
    cases closed with
    | true =>
      have hdrop : (ds ++ 93 :: rest).dropWhile isDigit = 93 :: rest := by
        rw [List.dropWhile_append_of_pos hds, List.dropWhile_cons_of_neg (by decide)]
      simp [indexText, skipIndex, hdrop]
    | false =>
      have hdrop : (ds ++ rest).dropWhile isDigit = rest := by
        have := scanDigits_append hds fun b hb => (isMark_spec (hrest b hb)).1
        exact congrArg Prod.snd this
      have hhead : rest.head? ≠ some 93 := fun h => (isMark_spec (hrest 93 h)).2.2.2.2.2.2.2 rfl
      simp [indexText, skipIndex, hdrop, hhead]

theorem exists_index (text : Bytes) : ∃ index : Option (Bytes × Bool),
    (∀ i ∈ index, ∀ b ∈ i.1, isDigit b = true) ∧ text = indexText index ++ skipIndex text := by
  unfold skipIndex
  split
  · exact ⟨none, by simp, rfl⟩
  · rename_i b s
    have hds : ∀ b ∈ s.takeWhile isDigit, isDigit b = true := fun b hb => List.mem_takeWhile_imp hb
    have hsplit := List.takeWhile_append_dropWhile (p := isDigit) (l := s)
    split_ifs with hb hclosed
    · refine ⟨some (s.takeWhile isDigit, true), by simpa using hds, ?_⟩
      have htail : 93 :: (s.dropWhile isDigit).tail = s.dropWhile isDigit :=
        List.cons_head?_tail hclosed
      simp only [indexText, if_true, List.cons_append, List.append_assoc, List.nil_append]
      rw [htail, hsplit, hb]
    · refine ⟨some (s.takeWhile isDigit, false), by simpa using hds, ?_⟩
      simp only [indexText, Bool.false_eq_true, if_false, List.append_nil, List.cons_append]
      rw [hsplit, hb]
    · exact ⟨none, by simp, rfl⟩

/-! ### The level -/

theorem skipLevel_eq_none {dictLevel : ℤ} {text : Bytes} :
    skipLevel dictLevel text = none ↔ ∃ rest, text = 64 :: rest ∧ dictLevel < atoi rest := by
  cases text with
  | nil => simp [skipLevel]
  | cons b s =>
    rw [skipLevel]
    split_ifs with hb hlevel
    · simp [hb, hlevel]
    · simp [hb, hlevel]
    · simp [hb]

theorem skipLevel_text {level : Option Bytes} {dictLevel : ℤ} {rest : Bytes}
    (hlevel : ∀ ds ∈ level, ∀ b ∈ ds, isDigit b = true) (hrest : NoNumber rest)
    (hhead : rest.head? ≠ some 64) :
    skipLevel dictLevel (levelText level ++ rest) = some rest ↔
      ∀ ds ∈ level, atoi ds ≤ dictLevel := by
  cases level with
  | none =>
    cases rest with
    | nil => simp [levelText, skipLevel]
    | cons b rest =>
      have hb : b ≠ 64 := fun h => hhead (by rw [h]; rfl)
      simp [levelText, skipLevel, hb]
  | some ds =>
    have hds : ∀ b ∈ ds, isDigit b = true := hlevel ds rfl
    have hdrop : (ds ++ rest).dropWhile isDigit = rest :=
      congrArg Prod.snd (scanDigits_append hds hrest.head)
    simp [levelText, skipLevel, atoi_append hds hrest, hdrop]

theorem exists_level {dictLevel : ℤ} {text rest : Bytes}
    (h : skipLevel dictLevel text = some rest) : ∃ level : Option Bytes,
      (∀ ds ∈ level, ∀ b ∈ ds, isDigit b = true) ∧ text = levelText level ++ rest := by
  cases text with
  | nil => exact ⟨none, by simp, by simpa [skipLevel, levelText] using h⟩
  | cons b s =>
    rw [skipLevel] at h
    split_ifs at h with hb hlevel
    · obtain rfl := Option.some.inj h
      refine ⟨some (s.takeWhile isDigit), ?_, ?_⟩
      · intro ds hds b hb
        obtain rfl := Option.some.inj hds
        exact List.mem_takeWhile_imp hb
      · rw [levelText, List.cons_append, List.takeWhile_append_dropWhile, hb]
    · exact ⟨none, by simp, Option.some.inj h⟩

/-! ### The pair as a whole -/

namespace Entry

variable (e : Entry)

theorem head_body : ∀ b ∈ e.body.head?, b ≠ 35 := by
  intro b hb
  unfold body at hb
  cases hlabel : e.label with
  | cons c label =>
    obtain rfl : c = b := by simpa [hlabel] using hb
    have hc := e.label_ok c (by rw [hlabel]; exact List.mem_cons_self ..)
    rintro rfl
    exact absurd hc (by decide)
  | nil =>
    rw [hlabel, List.nil_append] at hb
    cases hlevel : e.level with
    | some ds =>
      obtain rfl : (64 : UInt8) = b := by simpa [hlevel, levelText] using hb
      decide
    | none =>
      rw [hlevel, levelText, List.nil_append] at hb
      cases hindex : e.index with
      | some i =>
        obtain rfl : (91 : UInt8) = b := by simpa [hindex, indexText] using hb
        decide
      | none =>
        rw [hindex, indexText, List.nil_append] at hb
        exact (isMark_spec (head_seps e.seps_ok _ b hb)).2.2.1

theorem dropWhile_label : e.body.dropWhile isLabel = levelText e.level ++
    (indexText e.index ++ (e.seps ++ 34 :: e.chunks.flatMap Chunk.text)) := by
  rw [body, List.dropWhile_append_of_pos e.label_ok]
  cases e.level with
  | some ds => rfl
  | none =>
    rw [levelText, List.nil_append]
    cases e.index with
    | some i => rfl
    | none =>
      rw [indexText, List.nil_append]
      have hhead := head_seps e.seps_ok (e.chunks.flatMap Chunk.text)
      cases hrest : e.seps ++ 34 :: e.chunks.flatMap Chunk.text with
      | nil => rfl
      | cons b rest =>
        have hb := isMark_spec (hhead b (by rw [hrest]; rfl))
        rw [List.dropWhile_cons_of_neg (by simp [hb.2.1])]

theorem flatMap_chunks_ne : e.chunks.flatMap Chunk.text ≠ [] := by
  cases hchunks : e.chunks with
  | nil => exact absurd hchunks e.chunks_ne
  | cons chunk chunks =>
    rw [List.flatMap_cons]
    cases chunk with
    | plain b h => exact List.cons_ne_nil _ _
    | escaped b h => exact List.cons_ne_nil _ _
    | hex a b h => exact List.cons_ne_nil _ _

theorem loadPair_body {dictLevel : ℤ} (h : e.Loads dictLevel)
    (hlen : e.value.length ≤ maxDictFile) : loadPair dictLevel e.body = (some e.value, []) := by
  have hnumber : NoNumber (indexText e.index ++ (e.seps ++ 34 :: e.chunks.flatMap Chunk.text)) :=
    noNumber_index e.index (noNumber_seps e.seps_ok _)
  have hmark := head_seps e.seps_ok (e.chunks.flatMap Chunk.text)
  have hhead : (indexText e.index ++
      (e.seps ++ 34 :: e.chunks.flatMap Chunk.text)).head? ≠ some 64 := by
    cases e.index with
    | some i =>
      intro hi
      simp [indexText] at hi
    | none =>
      intro hi
      exact (isMark_spec (hmark 64 hi)).2.2.2.2.2.1 rfl
  have hlevel := (skipLevel_text e.level_ok hnumber hhead).mpr h
  have hbig : ¬ maxDictFile < (e.chunks.map Chunk.value).length := Nat.not_lt.mpr hlen
  rw [loadPair, dropWhile_label, hlevel]
  simp only [skipIndex_text e.index_ok hmark, dropWhile_seps e.seps_ok, if_true]
  rw [loadKeyword, if_neg e.flatMap_chunks_ne, decodeValue_text]
  simp only [hbig, if_false]
  rfl

end Entry

/-- What a pair without its closing quote is, when it is read without a warning. -/
theorem loadPair_quiet {dictLevel : ℤ} {text : Bytes} {r : Option Bytes} (h0 : 0 ∉ text)
    (h : loadPair dictLevel text = (r, [])) :
    (r = none ∧ ∃ label rest, (∀ b ∈ label, isLabel b = true) ∧ text = label ++ 64 :: rest ∧
      dictLevel < atoi rest) ∨
    ∃ e : Entry, text = e.body ∧ e.Loads dictLevel ∧ e.value.length ≤ maxDictFile ∧
      r = some e.value := by
  have hlabel : ∀ b ∈ text.takeWhile isLabel, isLabel b = true :=
    fun b hb => List.mem_takeWhile_imp hb
  have hsplit := List.takeWhile_append_dropWhile (p := isLabel) (l := text)
  unfold loadPair at h
  cases hlevel : skipLevel dictLevel (text.dropWhile isLabel) with
  | none =>
    obtain ⟨rest, hrest, hlt⟩ := skipLevel_eq_none.mp hlevel
    simp only [hlevel, Prod.mk.injEq, and_true] at h
    exact .inl ⟨h.symm, text.takeWhile isLabel, rest, hlabel, by rw [← hrest, hsplit], hlt⟩
  | some rest =>
    obtain ⟨level, hlevel_ok, htext⟩ := exists_level hlevel
    obtain ⟨index, hindex_ok, hindex⟩ := exists_index rest
    have hseps : ∀ b ∈ (skipIndex rest).takeWhile isSep, isSep b = true :=
      fun b hb => List.mem_takeWhile_imp hb
    have hrest := List.takeWhile_append_dropWhile (p := isSep) (l := skipIndex rest)
    simp only [hlevel] at h
    cases hvalue : (skipIndex rest).dropWhile isSep with
    | nil =>
      rw [hvalue] at h
      exact absurd (congrArg Prod.snd h) (List.cons_ne_nil _ _)
    | cons c value =>
      rw [hvalue] at h hrest
      simp only at h
      split_ifs at h with hc
      · subst hc
        have hform : text = text.takeWhile isLabel ++ (levelText level ++ (indexText index ++
            ((skipIndex rest).takeWhile isSep ++ 34 :: value))) := by
          rw [hrest, ← hindex, ← htext, hsplit]
        unfold loadKeyword at h
        split_ifs at h with hnil
        · exact absurd (congrArg Prod.snd h) (List.cons_ne_nil _ _)
        · by_cases hbig : maxDictFile < (decodeValue value).1.length
          · simp only [hbig, if_true] at h
            exact absurd (congrArg Prod.snd h) (by simp)
          · simp only [hbig, if_false, Prod.mk.injEq] at h
            have hzero : 0 ∉ value := by
              intro hmem
              apply h0
              rw [hform]
              simp [hmem]
            obtain ⟨chunks, rfl⟩ := exists_chunks hzero h.2
            rw [decodeValue_text] at h hbig
            have hne : chunks ≠ [] := by
              rintro rfl
              exact hnil rfl
            refine .inr ⟨⟨_, level, index, _, chunks, hlabel, hlevel_ok, hindex_ok, hseps, hne⟩,
              hform, ?_, Nat.not_lt.mp hbig, h.1.symm⟩
            have hmark := head_seps hseps (chunks.flatMap Chunk.text)
            rw [hrest] at hmark
            have hnumber := noNumber_index index (noNumber_seps hseps (chunks.flatMap Chunk.text))
            rw [hrest, ← hindex] at hnumber
            by_cases hhead : rest.head? = some 64
            · -- no index and no separator begins with this byte
              exfalso
              rw [hindex] at hhead
              cases index with
              | some i => simp [indexText] at hhead
              | none => exact (isMark_spec (hmark 64 hhead)).2.2.2.2.2.1 rfl
            · rw [htext] at hlevel
              exact (skipLevel_text hlevel_ok hnumber hhead).mp hlevel
      · exact absurd (congrArg Prod.snd h) (List.cons_ne_nil _ _)

/-! ## The line -/

/-- The form of a line between its blanks, and what is read from it. -/
inductive Quiet (dictLevel : ℤ) : Bytes → Option Bytes → Prop
  | empty : Quiet dictLevel [] none
  | comment (text : Bytes) : Quiet dictLevel (35 :: text) none
  /-- What follows the number of a pair that is passed over does not matter. -/
  | higher (label rest : Bytes) (hlabel : ∀ b ∈ label, isLabel b = true)
      (hlevel : dictLevel < atoi rest) : Quiet dictLevel (label ++ 64 :: rest ++ [34]) none
  | pair (e : Entry) (hlevel : e.Loads dictLevel) (hlen : e.value.length ≤ maxDictFile) :
      Quiet dictLevel e.text (some e.value)

theorem not_mem_cstr (buf : Bytes) : 0 ∉ cstr buf := by
  intro h
  have := List.mem_takeWhile_imp h
  simp at this

theorem not_mem_trimSpace (buf : Bytes) : 0 ∉ trimSpace (cstr buf) := fun h =>
  not_mem_cstr buf ((Substring.trim_infix isspace (cstr buf)).subset h)

/-- The lines that are read without a warning. -/
theorem loadLine_eq_iff {dictLevel : ℤ} {buf : Bytes} {r : Option Bytes} :
    loadLine dictLevel buf = (r, []) ↔ Quiet dictLevel (trimSpace (cstr buf)) r := by
  have h0 := not_mem_trimSpace buf
  unfold loadLine
  generalize trimSpace (cstr buf) = line at h0
  constructor
  · intro h
    simp only at h
    split_ifs at h with hskip hlast
    · obtain rfl : none = r := congrArg Prod.fst h
      cases line with
      | nil => exact .empty
      | cons b text =>
        obtain rfl : b = 35 := by simpa using hskip
        exact .comment text
    · exact absurd (congrArg Prod.snd h) (List.cons_ne_nil _ _)
    · have hlast : line.getLast? = some 34 := not_not.mp hlast
      have hline : line.dropLast ++ [34] = line := List.dropLast_append_getLast? 34 hlast
      have hzero : 0 ∉ line.dropLast := fun hmem => h0 (List.dropLast_subset line hmem)
      rcases loadPair_quiet hzero h with ⟨rfl, label, rest, hlabel, htext, hlevel⟩ |
        ⟨e, htext, hloads, hlen, rfl⟩
      · rw [← hline, htext]
        exact .higher label rest hlabel hlevel
      · rw [← hline, htext]
        exact .pair e hloads hlen
  · intro h
    cases h with
    | empty => simp
    | comment text => simp
    | higher label rest hlabel hlevel =>
      have hhead : (label ++ 64 :: rest ++ [34]).head? ≠ some 35 := by
        cases label with
        | nil => simp
        | cons b label =>
          intro hb
          obtain rfl : b = 35 := by simpa using hb
          exact absurd (hlabel 35 (List.mem_cons_self ..)) (by decide)
      have hnone : skipLevel dictLevel (64 :: rest) = none :=
        skipLevel_eq_none.mpr ⟨rest, rfl, hlevel⟩
      have hpair : loadPair dictLevel (label ++ 64 :: rest) = (none, []) := by
        rw [loadPair, List.dropWhile_append_of_pos hlabel,
          List.dropWhile_cons_of_neg (by decide), hnone]
      simp only [hhead, List.dropLast_concat, hpair, List.getLast?_concat]
      simp
    | pair e hlevel hlen =>
      have hhead : (e.body ++ [34]).head? ≠ some 35 := by
        intro hb
        rw [List.head?_append] at hb
        cases hbody : e.body.head? with
        | none =>
          rw [hbody] at hb
          exact absurd hb (by simp)
        | some c =>
          rw [hbody] at hb
          exact e.head_body c hbody (by simpa using hb)
      simp only [Entry.text, hhead, List.dropLast_concat, e.loadPair_body hlevel hlen,
        List.getLast?_concat]
      simp

/-- A token is never too big. -/
theorem length_of_loadLine {dictLevel : ℤ} {buf token : Bytes}
    (h : (loadLine dictLevel buf).1 = some token) : token.length ≤ maxDictFile := by
  have hkeyword (text : Bytes) (h : (loadKeyword text).1 = some token) :
      token.length ≤ maxDictFile := by
    unfold loadKeyword at h
    split_ifs at h
    simp only at h
    split_ifs at h with hbig
    obtain rfl := Option.some.inj h
    exact Nat.not_lt.mp hbig
  unfold loadLine at h
  simp only at h
  split_ifs at h
  unfold loadPair at h
  split at h
  · exact absurd h (by simp)
  · split at h
    · exact absurd h (by simp)
    · split_ifs at h
      exact hkeyword _ h

/-! ## The file -/

theorem reduceOption_map_eq {α β : Type} (f : α → Option β) (l : List α) :
    (l.map f).reduceOption = l.filterMap f := by
  change (l.map f).filterMap id = l.filterMap f
  rw [List.filterMap_map]
  rfl

/-- The files that are read without a warning: every line has the form of a line, and the tokens
are those of the lines. -/
theorem loadExtrasFile_quiet_iff {dictLevel : ℤ} {file : Bytes} {tokens : List Bytes} :
    loadExtrasFile dictLevel file = ⟨tokens, []⟩ ↔
      ∃ rs, List.Forall₂ (fun buf r => Quiet dictLevel (trimSpace (cstr buf)) r)
        (fgetsLines file) rs ∧ tokens = rs.reduceOption := by
  unfold loadExtrasFile
  generalize fgetsLines file = bufs
  rw [Loaded.mk.injEq]
  constructor
  · rintro ⟨rfl, hquiet⟩
    refine ⟨bufs.map fun buf => (loadLine dictLevel buf).1, ?_, ?_⟩
    · rw [List.forall₂_map_right_iff, List.forall₂_same]
      intro buf hbuf
      obtain ⟨k, hk, rfl⟩ := List.mem_iff_getElem.mp hbuf
      have hmem : (bufs[k], 1 + k) ∈ bufs.zipIdx 1 := by
        rw [List.mk_add_mem_zipIdx_iff_getElem?]
        exact List.getElem?_eq_getElem hk
      have hnone := List.flatMap_eq_nil_iff.mp hquiet _ hmem
      have hwarn : (loadLine dictLevel bufs[k]).2 = [] := List.map_eq_nil_iff.mp hnone
      exact loadLine_eq_iff.mp (Prod.ext rfl hwarn)
    · exact (reduceOption_map_eq _ _).symm
  · rintro ⟨rs, hread, rfl⟩
    have hrs : List.Forall₂ (fun buf r => loadLine dictLevel buf = (r, [])) bufs rs :=
      hread.imp fun buf r h => loadLine_eq_iff.mpr h
    have hmap : bufs.map (loadLine dictLevel) = rs.map fun r => (r, []) := by
      clear hread
      induction hrs with
      | nil => rfl
      | cons h _ ih => rw [List.map_cons, List.map_cons, h, ih]
    constructor
    · have hfst : bufs.map (fun buf => (loadLine dictLevel buf).1) = rs := by
        have := congrArg (List.map Prod.fst) hmap
        simpa [List.map_map, Function.comp_def] using this
      rw [← hfst, reduceOption_map_eq]
    · rw [List.flatMap_eq_nil_iff]
      rintro ⟨buf, n⟩ hmem
      have hbuf : loadLine dictLevel buf ∈ bufs.map (loadLine dictLevel) :=
        List.mem_map_of_mem (List.fst_mem_of_mem_zipIdx hmem)
      rw [hmap] at hbuf
      obtain ⟨r, -, hr⟩ := List.mem_map.mp hbuf
      simp only [← hr, List.map_nil]

/-! ## A file that is written after the documentation -/

def hexDigit (n : ℕ) : UInt8 := (ascii "0123456789abcdef").getD n 48

theorem hexDigit_spec {n : ℕ} (h : n < 16) :
    isxdigit (hexDigit n) = true ∧ hexVal (hexDigit n) = n := by
  have : ∀ m < 16, isxdigit (hexDigit m) = true ∧ hexVal (hexDigit m) = m := by decide
  exact this n h

theorem plain_of_printable {b : UInt8} (hspecial : ¬ (b = 92 ∨ b = 34)) (h : 32 ≤ b ∧ b ≤ 126) :
    unprintable b = false ∧ b ≠ 92 ∧ b ≠ 0 := by
  have h32 : 32 ≤ b.toNat := UInt8.le_iff_toNat_le.mp h.1
  have h126 : b.toNat ≤ 126 := UInt8.le_iff_toNat_le.mp h.2
  refine ⟨?_, fun hb => hspecial (.inl hb), ?_⟩
  · have h31 : (31 : UInt8).toNat = 31 := rfl
    have h128 : (128 : UInt8).toNat = 128 := rfl
    simp only [unprintable, Bool.or_eq_false_iff, Bool.and_eq_false_iff, decide_eq_false_iff_not,
      UInt8.le_iff_toNat_le]
    omega
  · rintro rfl
    exact absurd h32 (by decide)

/-- Hex escaping for everything that is not printable, and the two shorthands. -/
def Chunk.ofByte (b : UInt8) : Chunk :=
  if hspecial : b = 92 ∨ b = 34 then .escaped b hspecial
  else if hplain : 32 ≤ b ∧ b ≤ 126 then .plain b (plain_of_printable hspecial hplain)
  else .hex (hexDigit (b.toNat / 16)) (hexDigit (b.toNat % 16))
    ⟨(hexDigit_spec (Nat.div_lt_of_lt_mul b.toNat_lt)).1,
      (hexDigit_spec (Nat.mod_lt _ (Nat.succ_pos 15))).1⟩

theorem Chunk.value_ofByte (b : UInt8) : (Chunk.ofByte b).value = b := by
  unfold Chunk.ofByte
  split_ifs
  · rfl
  · rfl
  · have hhigh := (hexDigit_spec (n := b.toNat / 16) (Nat.div_lt_of_lt_mul b.toNat_lt)).2
    have hlow := (hexDigit_spec (n := b.toNat % 16) (Nat.mod_lt _ (Nat.succ_pos 15))).2
    rw [Chunk.value, hexByte, hhigh, hlow, Nat.div_add_mod', UInt8.ofNat_toNat]

/-- `name@level = "value"`, where the value stands for any token. -/
structure Pair where
  label : Bytes
  level : Option Bytes
  seps : Bytes
  token : Bytes
  label_ok : ∀ b ∈ label, isLabel b = true
  level_ok : ∀ ds ∈ level, ∀ b ∈ ds, isDigit b = true
  seps_ok : ∀ b ∈ seps, isSep b = true
  /-- A pair without a name is only its value. -/
  named : label = [] → level = none → seps = []
  token_ne : token ≠ []
  token_le : token.length ≤ maxDictFile

def Pair.entry (p : Pair) : Entry where
  label := p.label
  level := p.level
  index := none
  seps := p.seps
  chunks := p.token.map Chunk.ofByte
  label_ok := p.label_ok
  level_ok := p.level_ok
  index_ok := by simp
  seps_ok := p.seps_ok
  chunks_ne := fun h => p.token_ne (List.map_eq_nil_iff.mp h)

inductive Item
  | blank
  | comment (text : Bytes)
  | pair (p : Pair)

def Item.text : Item → Bytes
  | blank => []
  | comment text => 35 :: text
  | pair p => p.entry.text

/-- The token that a line gives at the level `dictLevel`. -/
def Item.token (dictLevel : ℤ) : Item → Option Bytes
  | blank => none
  | comment _ => none
  | pair p => if ∀ ds ∈ p.level, atoi ds ≤ dictLevel then some p.token else none

/-- A line between blanks that fits into the buffer. -/
structure Line where
  lead : Bytes
  item : Item
  trail : Bytes
  lead_ok : ∀ b ∈ lead, isspace b = true
  trail_ok : ∀ b ∈ trail, isspace b = true
  clean : ∀ b ∈ lead ++ (item.text ++ trail), b ≠ nl ∧ b ≠ 0
  fits : (lead ++ (item.text ++ trail)).length + 2 ≤ maxLine

/-- The line with its newline. -/
def Line.text (l : Line) : Bytes := l.lead ++ (l.item.text ++ l.trail) ++ [nl]

theorem Pair.value_entry (p : Pair) : p.entry.value = p.token := by
  rw [Entry.value, Pair.entry, List.map_map]
  exact (List.map_congr_left fun b _ => Chunk.value_ofByte b).trans (List.map_id _)

theorem Pair.head_text (p : Pair) : ∀ b ∈ p.entry.text.head?, isspace b = false := by
  intro b hb
  have hlabel (c : UInt8) (hc : isLabel c = true) : isspace c = false := by
    by_contra h
    have hmark : isMark c = true := by
      rw [isMark, isSep, eq_true_of_ne_false h, Bool.true_or, Bool.true_or]
    have := (isMark_spec hmark).2.1
    rw [hc] at this
    exact absurd this (by decide)
  rw [Entry.text, Entry.body] at hb
  change b ∈ (p.label ++ (levelText p.level ++ (indexText none ++ (p.seps ++ 34 ::
    (p.token.map Chunk.ofByte).flatMap Chunk.text))) ++ [34]).head? at hb
  cases hname : p.label with
  | cons c label =>
    obtain rfl : c = b := by simpa [hname] using hb
    exact hlabel c (p.label_ok c (by rw [hname]; exact List.mem_cons_self ..))
  | nil =>
    cases hlevel : p.level with
    | some ds =>
      obtain rfl : (64 : UInt8) = b := by simpa [hname, hlevel, levelText] using hb
      decide
    | none =>
      obtain rfl : (34 : UInt8) = b := by
        simpa [hname, hlevel, levelText, indexText, p.named hname hlevel] using hb
      decide

/-- The line is cut down to what stands between its blanks; a comment may end in more of them. -/
theorem quiet_line (dictLevel : ℤ) (l : Line) :
    Quiet dictLevel (trimSpace (cstr l.text)) (l.item.token dictLevel) := by
  have hcstr : cstr l.text = l.lead ++ (l.item.text ++ (l.trail ++ [nl])) := by
    have hall : ∀ b ∈ l.text, decide (b ≠ 0) = true := by
      intro b hb
      rcases List.mem_append.mp hb with hb | hb
      · exact decide_eq_true (l.clean b hb).2
      · obtain rfl := List.mem_singleton.mp hb
        decide
    rw [cstr, List.takeWhile_eq_self_iff.mpr hall, Line.text, List.append_assoc, List.append_assoc]
  have htrail : ∀ b ∈ l.trail ++ [nl], isspace b = true := by
    intro b hb
    rcases List.mem_append.mp hb with hb | hb
    · exact l.trail_ok b hb
    · obtain rfl := List.mem_singleton.mp hb
      decide
  rw [hcstr]
  change Quiet dictLevel (Substring.trim isspace _) _
  cases l.item with
  | blank =>
    have hnil : (l.lead ++ (Item.blank.text ++ (l.trail ++ [nl]))).dropWhile isspace = [] := by
      rw [List.dropWhile_append_of_pos l.lead_ok]
      exact List.dropWhile_eq_nil_iff.mpr htrail
    rw [Substring.trim, hnil, List.rdropWhile_nil]
    exact .empty
  | comment text =>
    have hdrop : (l.lead ++ ((Item.comment text).text ++ (l.trail ++ [nl]))).dropWhile isspace =
        35 :: (text ++ (l.trail ++ [nl])) := by
      rw [List.dropWhile_append_of_pos l.lead_ok]
      rfl
    rw [Substring.trim, hdrop]
    obtain ⟨rest, hrest⟩ := List.rdropWhile_prefix isspace (35 :: (text ++ (l.trail ++ [nl])))
    cases hline : (35 :: (text ++ (l.trail ++ [nl]))).rdropWhile isspace with
    | nil =>
      have hall := List.rdropWhile_eq_nil_iff.mp hline 35 (List.mem_cons_self ..)
      exact absurd hall (by decide)
    | cons b line =>
      rw [hline, List.cons_append, List.cons.injEq] at hrest
      rw [hrest.1]
      exact .comment line
  | pair p =>
    have hne : p.entry.text ≠ [] := by simp [Entry.text]
    have hlast : ∀ b ∈ p.entry.text.getLast?, isspace b = false := by
      intro b hb
      obtain rfl : (34 : UInt8) = b := by simpa [Entry.text] using hb
      decide
    rw [Item.text, Substring.trim_append isspace l.lead_ok htrail hne p.head_text hlast, Item.token]
    split_ifs with hlevel
    · have := Quiet.pair p.entry hlevel (p.value_entry ▸ p.token_le)
      rwa [p.value_entry] at this
    · cases hds : p.level with
      | none =>
        rw [hds] at hlevel
        exact absurd (fun _ h => absurd h (by simp)) hlevel
      | some ds =>
        have hlt : dictLevel < atoi ds := by
          rw [hds] at hlevel
          simpa using hlevel
        have hrest := atoi_append (p.level_ok ds hds)
          (noNumber_seps p.seps_ok ((p.token.map Chunk.ofByte).flatMap Chunk.text))
        have htext : p.entry.text = p.label ++ 64 :: (ds ++ (p.seps ++ 34 ::
            (p.token.map Chunk.ofByte).flatMap Chunk.text)) ++ [34] := by
          rw [Entry.text, Entry.body]
          change p.label ++ (levelText p.level ++ (indexText none ++ (p.seps ++ 34 ::
            (p.token.map Chunk.ofByte).flatMap Chunk.text))) ++ [34] = _
          rw [hds]
          rfl
        rw [htext]
        exact .higher p.label _ p.label_ok (hrest.symm ▸ hlt)

theorem fgets_line {n : ℕ} {line : Bytes} (hnl : nl ∉ line) (hlen : line.length < n)
    (rest : Bytes) : fgets n (line ++ nl :: rest) = (line ++ [nl], rest) := by
  induction line generalizing n with
  | nil =>
    obtain ⟨m, rfl⟩ := Nat.exists_eq_succ_of_ne_zero (Nat.ne_of_gt hlen)
    rw [List.nil_append, fgets, if_pos rfl]
    rfl
  | cons b line ih =>
    rw [List.length_cons] at hlen
    obtain ⟨m, rfl⟩ := Nat.exists_eq_succ_of_ne_zero (Nat.ne_of_gt (Nat.zero_lt_of_lt hlen))
    have hb : b ≠ nl := fun h => hnl (h ▸ List.mem_cons_self ..)
    have hrest := ih (fun h => hnl (List.mem_cons_of_mem b h)) (Nat.lt_of_succ_lt_succ hlen)
    rw [List.cons_append, fgets, if_neg hb, hrest]
    rfl

/-- Every line fills the buffer once. -/
theorem fgetsLines_render (lines : List Line) :
    fgetsLines (lines.flatMap Line.text) = lines.map Line.text := by
  induction lines with
  | nil =>
    unfold fgetsLines
    rfl
  | cons l lines ih =>
    have hnl : nl ∉ l.lead ++ (l.item.text ++ l.trail) := fun h => (l.clean nl h).1 rfl
    have hlen : (l.lead ++ (l.item.text ++ l.trail)).length < maxLine - 1 := by
      have := l.fits
      have hmax : maxLine = 8192 := rfl
      omega
    have hread := fgets_line hnl hlen (lines.flatMap Line.text)
    have hfile : (l :: lines).flatMap Line.text =
        l.lead ++ (l.item.text ++ l.trail) ++ nl :: lines.flatMap Line.text := by
      rw [List.flatMap_cons, Line.text, List.append_assoc _ [nl]]
      rfl
    rw [hfile]
    cases hcons : l.lead ++ (l.item.text ++ l.trail) ++ nl :: lines.flatMap Line.text with
    | nil => exact absurd hcons (by simp)
    | cons b file =>
      rw [fgetsLines, ← hcons, hread, ih]
      rfl

/-- What is written after the documentation is read back, with no warning. -/
theorem loadExtrasFile_render (dictLevel : ℤ) (lines : List Line) :
    loadExtrasFile dictLevel (lines.flatMap Line.text) =
      ⟨lines.filterMap fun l => l.item.token dictLevel, []⟩ := by
  rw [loadExtrasFile_quiet_iff, fgetsLines_render]
  refine ⟨lines.map fun l => l.item.token dictLevel, ?_, ?_⟩
  · rw [List.forall₂_map_left_iff, List.forall₂_map_right_iff, List.forall₂_same]
    exact fun l _ => quiet_line dictLevel l
  · exact (reduceOption_map_eq _ _).symm

/-! ### A line for every token -/

theorem Chunk.clean_ofByte (b : UInt8) : ∀ c ∈ (Chunk.ofByte b).text, c ≠ nl ∧ c ≠ 0 := by
  have hdigit (n : ℕ) : hexDigit n ≠ nl ∧ hexDigit n ≠ 0 := by
    have hlow : ∀ m < 16, hexDigit m ≠ nl ∧ hexDigit m ≠ 0 := by decide
    by_cases hn : n < 16
    · exact hlow n hn
    · have hout : hexDigit n = 48 := by
        have hnone : (ascii "0123456789abcdef")[n]? = none :=
          List.getElem?_eq_none (Nat.not_lt.mp hn)
        rw [hexDigit, List.getD_eq_getElem?_getD, hnone]
        rfl
      rw [hout]
      decide
  unfold Chunk.ofByte
  split_ifs with hspecial hplain
  · obtain rfl | rfl := hspecial <;> exact forall_mem_of_all (by decide)
  · intro c hc
    obtain rfl := List.mem_singleton.mp hc
    constructor
    · rintro rfl
      exact absurd hplain.1 (by decide)
    · rintro rfl
      exact absurd hplain.1 (by decide)
  · intro c hc
    simp only [Chunk.text, List.mem_cons, List.not_mem_nil, or_false] at hc
    obtain rfl | rfl | rfl | rfl := hc
    · decide
    · decide
    · exact hdigit _
    · exact hdigit _

theorem Chunk.length_ofByte (b : UInt8) : (Chunk.ofByte b).text.length ≤ 4 := by
  unfold Chunk.ofByte
  split_ifs <;> exact Nat.le_of_ble_eq_true rfl

theorem length_flatMap_ofByte (token : Bytes) :
    ((token.map Chunk.ofByte).flatMap Chunk.text).length ≤ 4 * token.length := by
  induction token with
  | nil => exact Nat.le_refl _
  | cons b token ih =>
    rw [List.map_cons, List.flatMap_cons, List.length_append, List.length_cons]
    have := Chunk.length_ofByte b
    omega

theorem isLabel_clean {b : UInt8} (h : isLabel b = true) : b ≠ nl ∧ b ≠ 0 := by
  constructor
  · rintro rfl
    exact absurd h (by decide)
  · rintro rfl
    exact absurd h (by decide)

theorem isDigit_clean {b : UInt8} (h : isDigit b = true) : b ≠ nl ∧ b ≠ 0 :=
  isLabel_clean (by simp [isLabel, isalnum, h])

theorem Pair.text_eq (p : Pair) : p.entry.text = p.label ++ (levelText p.level ++ (p.seps ++
    34 :: (p.token.map Chunk.ofByte).flatMap Chunk.text)) ++ [34] := rfl

theorem Pair.clean_text (p : Pair) (hseps : nl ∉ p.seps) :
    ∀ b ∈ p.entry.text, b ≠ nl ∧ b ≠ 0 := by
  intro b hb
  rw [p.text_eq] at hb
  simp only [List.mem_append, List.mem_cons, List.mem_flatMap, List.mem_map, List.not_mem_nil,
    or_false, exists_exists_and_eq_and] at hb
  obtain (hlabel | hlevel | hsep | rfl | ⟨c, -, hc⟩) | rfl := hb
  · exact isLabel_clean (p.label_ok b hlabel)
  · cases hds : p.level with
    | none =>
      rw [hds] at hlevel
      cases hlevel
    | some ds =>
      rw [hds] at hlevel
      obtain rfl | hdigit := List.mem_cons.mp hlevel
      · decide
      · exact isDigit_clean (p.level_ok ds hds b hdigit)
  · refine ⟨fun h => hseps (h ▸ hsep), ?_⟩
    rintro rfl
    exact absurd (p.seps_ok 0 hsep) (by decide)
  · decide
  · exact Chunk.clean_ofByte c b hc
  · decide

/-- A pair on a line of its own.  What stands before the value must leave room for it. -/
def Line.ofPair (p : Pair) (hseps : nl ∉ p.seps)
    (hshort : (p.label ++ (levelText p.level ++ p.seps)).length ≤ 7676) : Line where
  lead := []
  item := .pair p
  trail := []
  lead_ok _ hb := by cases hb
  trail_ok _ hb := by cases hb
  clean b hb := p.clean_text hseps b (by rwa [List.nil_append, List.append_nil] at hb)
  fits := by
    have hvalue := length_flatMap_ofByte p.token
    have htoken : p.token.length ≤ 128 := p.token_le
    have hmax : maxLine = 8192 := rfl
    rw [List.nil_append, List.append_nil, Item.text, p.text_eq]
    simp only [List.length_append, List.length_cons, List.length_nil] at hshort ⊢
    omega

/-- What a dictionary can hold. -/
structure Token where
  bytes : Bytes
  ne : bytes ≠ []
  le : bytes.length ≤ maxDictFile

/-- `"value"` -/
def Pair.ofToken (t : Token) : Pair where
  label := []
  level := none
  seps := []
  token := t.bytes
  label_ok _ hb := by cases hb
  level_ok _ hds := by cases hds
  seps_ok _ hb := by cases hb
  named _ _ := rfl
  token_ne := t.ne
  token_le := t.le

/-- Every token has a line. -/
def Line.ofToken (t : Token) : Line :=
  .ofPair (.ofToken t) List.not_mem_nil (Nat.zero_le _)

theorem loadExtrasFile_ofToken (dictLevel : ℤ) (tokens : List Token) :
    loadExtrasFile dictLevel ((tokens.map Line.ofToken).flatMap Line.text) =
      ⟨tokens.map Token.bytes, []⟩ := by
  have htoken (t : Token) : (Line.ofToken t).item.token dictLevel = some t.bytes := by
    have hlow : ∀ ds ∈ (Pair.ofToken t).level, atoi ds ≤ dictLevel := fun _ hds => by cases hds
    change (if ∀ ds ∈ (Pair.ofToken t).level, atoi ds ≤ dictLevel then some t.bytes else none) = _
    rw [if_pos hlow]
  rw [loadExtrasFile_render, List.filterMap_map]
  simp only [Function.comp_def, htoken, List.filterMap_eq_map']

/-- The form of the files that are read without a warning; what is read from a file that is written
after the documentation, in lines that fit into the buffer; and that every list of tokens has such a
file. -/
theorem dictFile_spec (dictLevel : ℤ) :
    (∀ file tokens, loadExtrasFile dictLevel file = ⟨tokens, []⟩ ↔
      ∃ rs, List.Forall₂ (fun buf r => Quiet dictLevel (trimSpace (cstr buf)) r)
        (fgetsLines file) rs ∧ tokens = rs.reduceOption) ∧
    (∀ lines : List Line, loadExtrasFile dictLevel (lines.flatMap Line.text) =
      ⟨lines.filterMap fun l => l.item.token dictLevel, []⟩) ∧
    ∀ tokens : List Token, loadExtrasFile dictLevel ((tokens.map Line.ofToken).flatMap Line.text) =
      ⟨tokens.map Token.bytes, []⟩ :=
  ⟨fun _ _ => loadExtrasFile_quiet_iff, loadExtrasFile_render dictLevel,
    loadExtrasFile_ofToken dictLevel⟩

/-- `deep@2 = "x"` -/
def deepPair : Pair where
  label := ascii "deep"
  level := some (ascii "2")
  seps := ascii " = "
  token := ascii "x"
  label_ok := forall_mem_of_all (by decide)
  level_ok ds hds := by
    obtain rfl := Option.some.inj hds
    exact forall_mem_of_all (by decide)
  seps_ok := forall_mem_of_all (by decide)
  named h := by cases h
  token_ne := by decide
  token_le := by decide

/-- A comment behind blanks, a pair of level 2, a blank line, and a token with three bytes that are
escaped. -/
def fourLines : List Line :=
  [⟨ascii "  ", .comment (ascii " tokens"), [], forall_mem_of_all (by decide),
      forall_mem_of_all (by decide), forall_mem_of_all (by decide), by decide⟩,
    .ofPair deepPair (by decide) (by decide),
    ⟨[], .blank, [9], forall_mem_of_all (by decide), forall_mem_of_all (by decide),
      forall_mem_of_all (by decide), by decide⟩,
    .ofToken ⟨[0, 97, 34, 255], by decide, by decide⟩]

theorem dictFile_fourLines :
    fourLines.flatMap Line.text = ascii "  # tokens\ndeep@2 = \"x\"\n\t\n\"\\x00a\\\"\\xff\"\n" ∧
    loadExtrasFile 1 (fourLines.flatMap Line.text) = ⟨[[0, 97, 34, 255]], []⟩ ∧
    loadExtrasFile 2 (fourLines.flatMap Line.text) = ⟨[ascii "x", [0, 97, 34, 255]], []⟩ :=
  ⟨by decide, (dictFile_spec 1).2.1 fourLines, (dictFile_spec 2).2.1 fourLines⟩

end AflNv.DictFile
