import Mathlib.Data.List.Chain
import Mathlib.Data.List.Nodup
import Mathlib.Tactic.IntervalCases

/-!
# Writing JSON and reading it back

The JSON texts of Python's `json` module.  A text is a list of code points, surrogates
included: a string may hold one of its own, and an escape `\u` of a high surrogate is
joined with the next one when that is a low one.  A repeated key overwrites the member,
which keeps its place.  `Infinity`, `-Infinity` and `NaN` are numbers.

* `dumps` writes a value, `read` reads a whole text.
* `Value.Wf` says of a value that it can be read from a text: its keys differ, and no
  string holds two surrogates that would be joined.
* `read_dumps` is the round trip, and `read_wf` says that what is read is well formed.
-/

namespace AflNv.Lib.JsonCodec

/-- A text as code points. -/
abbrev Text := List ℕ

/-- Named, so that a definition that needs it holds the same term in every module. -/
instance instLawfulBEqText : LawfulBEq Text := inferInstance

/-- The text of a literal. -/
def chars (s : String) : Text := s.toList.map Char.toNat

/-- A JSON value; `F` holds the floats. -/
inductive Value (F : Type) where
  | null
  | bool (b : Bool)
  | int (i : ℤ)
  | float (x : F)
  | str (s : Text)
  | list (items : List (Value F))
  | dict (members : List (Text × Value F))

/-! ## Tokens -/

def isWs (c : ℕ) : Bool := c = 32 || c = 9 || c = 10 || c = 13

def skipWs (text : Text) : Text := text.dropWhile isWs

/-- What follows the character `c`, behind white space. -/
def token (c : ℕ) (text : Text) : Option Text :=
  match skipWs text with
  | [] => none
  | d :: rest => if d = c then some rest else none

def isDigit (c : ℕ) : Bool := 48 ≤ c && c ≤ 57

/-- A character of a number: a digit or one of `-`, `+`, `.`, `e` and `E`. -/
def isNumberChar (c : ℕ) : Bool :=
  isDigit c || c = 45 || c = 43 || c = 46 || c = 101 || c = 69

def isDigits (text : Text) : Bool := text ≠ [] && text.all isDigit

/-- `-?(0|[1-9][0-9]*)` -/
def isInt (text : Text) : Bool :=
  let ds := if text.head? = some 45 then text.tail else text
  isDigits ds && (ds.length = 1 || ds.head? ≠ some 48)

/-- `([eE][-+]?[0-9]+)?` -/
def isExponent : Text → Bool
  | [] => true
  | _ :: text =>
    isDigits (if text.head? = some 45 || text.head? = some 43 then text.tail else text)

/-- `(\.[0-9]+)?` -/
def isFraction : Text → Bool
  | [] => true
  | _ :: text => isDigits text

/-- A number with a fraction or an exponent. -/
def isFloat (text : Text) : Bool :=
  let mantissa := text.takeWhile fun c => c ≠ 101 && c ≠ 69
  let whole := mantissa.takeWhile (· ≠ 46)
  isInt whole && isFraction (mantissa.drop whole.length) &&
    isExponent (text.drop mantissa.length) && !isInt text

/-- `NaN` -/
def nanText : Text := [78, 97, 78]

/-- `Infinity` -/
def infText : Text := [73, 110, 102, 105, 110, 105, 116, 121]

/-- `-Infinity` -/
def negInfText : Text := 45 :: infText

/-- The floats: the values of the three names, and how the other values are written and
read back. -/
structure Floats (F : Type) where
  nan : F
  inf : F
  negInf : F
  write : F → Text
  read : Text → F
  write_chars : ∀ x, x ≠ nan → x ≠ inf → x ≠ negInf → ∀ c ∈ write x, isNumberChar c = true
  write_isFloat : ∀ x, x ≠ nan → x ≠ inf → x ≠ negInf → isFloat (write x) = true
  read_write : ∀ x, x ≠ nan → x ≠ inf → x ≠ negInf → read (write x) = x
  write_nan : write nan = nanText
  write_inf : write inf = infText
  write_negInf : write negInf = negInfText

/-- The floats that have names. -/
inductive Special where
  | nan
  | inf
  | negInf
  deriving DecidableEq

/-- The names alone. -/
def Special.floats : Floats Special where
  nan := .nan
  inf := .inf
  negInf := .negInf
  write
    | .nan => nanText
    | .inf => infText
    | .negInf => negInfText
  read _ := .inf
  write_chars x hnan hinf hneg := by cases x <;> contradiction
  write_isFloat x hnan hinf hneg := by cases x <;> contradiction
  read_write x hnan hinf hneg := by cases x <;> contradiction
  write_nan := rfl
  write_inf := rfl
  write_negInf := rfl

def showNat (n : ℕ) : Text := (Nat.toDigits 10 n).map Char.toNat

def readNat (text : Text) : ℕ := text.foldl (fun n c => 10 * n + (c - 48)) 0

def showInt : ℤ → Text
  | .ofNat n => showNat n
  | .negSucc n => 45 :: showNat (n + 1)

def readInt (text : Text) : ℤ :=
  if text.head? = some 45 then -(readNat text.tail : ℤ) else readNat text

variable {F : Type}

/-- The value of a whole number token. -/
def number (N : Floats F) (text : Text) : Option (Value F) :=
  if isInt text then some (.int (readInt text))
  else if isFloat text then some (.float (N.read text))
  else none

/-- The names. -/
def names (N : Floats F) : List (Text × Value F) :=
  [([110, 117, 108, 108], .null), ([116, 114, 117, 101], .bool true),
    ([102, 97, 108, 115, 101], .bool false), (nanText, .float N.nan), (infText, .float N.inf),
    (negInfText, .float N.negInf)]

/-- A name or a number at the front of a text. -/
def atom (N : Floats F) (text : Text) : Option (Value F × Text) :=
  match (names N).find? fun name => name.1.isPrefixOf text with
  | some (name, v) => some (v, text.drop name.length)
  | none =>
    let tok := text.takeWhile isNumberChar
    (number N tok).map fun v => (v, text.drop tok.length)

/-! ## Strings -/

def isHigh (c : ℕ) : Bool := 0xD800 ≤ c && c < 0xDC00

def isLow (c : ℕ) : Bool := 0xDC00 ≤ c && c < 0xE000

/-- The code point of two surrogates. -/
def join (hi lo : ℕ) : ℕ := 0x10000 + (hi - 0xD800) * 1024 + (lo - 0xDC00)

def hexDigit (n : ℕ) : ℕ := if n < 10 then 48 + n else 87 + n

def hexValue (c : ℕ) : Option ℕ :=
  if 48 ≤ c ∧ c ≤ 57 then some (c - 48)
  else if 97 ≤ c ∧ c ≤ 102 then some (c - 87)
  else if 65 ≤ c ∧ c ≤ 70 then some (c - 55)
  else none

/-- `\u` and four hexadecimal digits. -/
def unicodeEscape (c : ℕ) : Text :=
  [92, 117, hexDigit (c / 4096), hexDigit (c / 256 % 16), hexDigit (c / 16 % 16), hexDigit (c % 16)]

/-- The four digits behind `\u`. -/
def hex4 : Text → Option (ℕ × Text)
  | a :: b :: c :: d :: rest =>
    match hexValue a, hexValue b, hexValue c, hexValue d with
    | some a, some b, some c, some d => some (((a * 16 + b) * 16 + c) * 16 + d, rest)
    | _, _, _, _ => none
  | _ => none

/-- What the characters behind a backslash stand for. -/
def unescape (c : ℕ) : Option ℕ :=
  [(34, 34), (92, 92), (47, 47), (98, 8), (102, 12), (110, 10), (114, 13), (116, 9)].lookup c

/-- The escape of a low surrogate. -/
def scanLow : Text → Option (ℕ × Text)
  | 92 :: 117 :: rest =>
    match hex4 rest with
    | some (c, rest) => if isLow c then some (c, rest) else none
    | none => none
  | _ => none

/-- One escape, behind its backslash. -/
def scanEscape : Text → Option (ℕ × Text)
  | [] => none
  | c :: rest =>
    if c = 117 then
      match hex4 rest with
      | none => none
      | some (u, rest) =>
        if isHigh u then
          match scanLow rest with
          | some (lo, rest) => some (join u lo, rest)
          | none => some (u, rest)
        else some (u, rest)
    else (unescape c).map fun e => (e, rest)

/-- The content of a string behind its opening quote, and what follows it; the first
argument bounds the recursion. -/
def scanString : ℕ → Text → Option (Text × Text)
  | 0, _ => none
  | _ + 1, [] => none
  | n + 1, c :: rest =>
    if c = 34 then some ([], rest)
    else if c = 92 then
      match scanEscape rest with
      | none => none
      | some (e, rest) => (scanString n rest).map fun r => (e :: r.1, r.2)
    else if c < 32 then none
    else (scanString n rest).map fun r => (c :: r.1, r.2)

/-- How a text is written: with escapes for all but ASCII or not, and with a blank behind
the commas and the colons or not. -/
structure Style where
  ensureAscii : Bool
  spaced : Bool

def Style.gap (w : Style) : Text := if w.spaced then [32] else []

def escape (w : Style) (c : ℕ) : Text :=
  if c = 34 then [92, 34]
  else if c = 92 then [92, 92]
  else if c = 10 then [92, 110]
  else if c = 13 then [92, 114]
  else if c = 9 then [92, 116]
  else if c = 12 then [92, 102]
  else if c = 8 then [92, 98]
  else if c < 32 ∨ (w.ensureAscii = true ∧ 126 < c) then
    if c < 0x10000 then unicodeEscape c
    else unicodeEscape (0xD800 + (c - 0x10000) / 1024) ++ unicodeEscape (0xDC00 + (c - 0x10000) % 1024)
  else [c]

def quote (w : Style) (s : Text) : Text := 34 :: (s.flatMap (escape w) ++ [34])

/-! ## Values -/

section Write

variable (N : Floats F) (w : Style)

mutual

def dumps : Value F → Text
  | .null => [110, 117, 108, 108]
  | .bool true => [116, 114, 117, 101]
  | .bool false => [102, 97, 108, 115, 101]
  | .int i => showInt i
  | .float x => N.write x
  | .str s => quote w s
  | .list [] => [91, 93]
  | .list (v :: vs) => 91 :: (dumps v ++ dumpsItems vs)
  | .dict [] => [123, 125]
  | .dict ((key, v) :: ms) => 123 :: (quote w key ++ 58 :: (w.gap ++ (dumps v ++ dumpsMembers ms)))

/-- The further items of a list, with the closing bracket. -/
def dumpsItems : List (Value F) → Text
  | [] => [93]
  | v :: vs => 44 :: (w.gap ++ (dumps v ++ dumpsItems vs))

/-- The further members of an object, with the closing brace. -/
def dumpsMembers : List (Text × Value F) → Text
  | [] => [125]
  | (key, v) :: ms => 44 :: (w.gap ++ (quote w key ++ 58 :: (w.gap ++ (dumps v ++ dumpsMembers ms))))

end

end Write

/-- Set the member `key`. -/
def setItem {α : Type} (members : List (Text × α)) (key : Text) (v : α) : List (Text × α) :=
  if members.any (·.1 = key) then members.map fun m => if m.1 = key then (key, v) else m
  else members ++ [(key, v)]

mutual

/-- The value at the front of a text; the first argument bounds the recursion. -/
def value (N : Floats F) : ℕ → Text → Option (Value F × Text)
  | 0, _ => none
  | _ + 1, [] => none
  | n + 1, c :: rest =>
    if c = 34 then (scanString (rest.length + 1) rest).map fun r => (.str r.1, r.2)
    else if c = 123 then
      match token 125 rest with
      | some rest => some (.dict [], rest)
      | none => (members N n rest []).map fun r => (.dict r.1, r.2)
    else if c = 91 then
      match token 93 rest with
      | some rest => some (.list [], rest)
      | none => (items N n rest).map fun r => (.list r.1, r.2)
    else atom N (c :: rest)

/-- The members of an object up to its closing brace, added to those read. -/
def members (N : Floats F) :
    ℕ → Text → List (Text × Value F) → Option (List (Text × Value F) × Text)
  | 0, _, _ => none
  | n + 1, text, acc => do
    let rest ← token 34 text
    let (key, rest) ← scanString (rest.length + 1) rest
    let rest ← token 58 rest
    let (v, rest) ← value N n (skipWs rest)
    match token 44 rest with
    | some rest => members N n rest (setItem acc key v)
    | none => do
      let rest ← token 125 rest
      some (setItem acc key v, rest)

/-- The items of an array up to its closing bracket. -/
def items (N : Floats F) : ℕ → Text → Option (List (Value F) × Text)
  | 0, _ => none
  | n + 1, text => do
    let (v, rest) ← value N n (skipWs text)
    match token 44 rest with
    | some rest => do
      let (vs, rest) ← items N n rest
      some (v :: vs, rest)
    | none => do
      let rest ← token 93 rest
      some ([v], rest)

end

/-- The value of a whole text. -/
def read (N : Floats F) (text : Text) : Option (Value F) := do
  let (v, rest) ← value N text.length (skipWs text)
  if skipWs rest = [] then some v else none

/-! ## Well-formed values -/

/-- A text that a string can hold: no high surrogate is followed by a low one. -/
structure IsStr (s : Text) : Prop where
  range : ∀ c ∈ s, c < 0x110000
  unpaired : s.IsChain fun c d => ¬ (isHigh c = true ∧ isLow d = true)

mutual

/-- A value that a text denotes. -/
def Value.Wf : Value F → Prop
  | .str s => IsStr s
  | .list vs => WfItems vs
  | .dict ms => (ms.map Prod.fst).Nodup ∧ WfMembers ms
  | .null | .bool _ | .int _ | .float _ => True

def WfItems : List (Value F) → Prop
  | [] => True
  | v :: vs => v.Wf ∧ WfItems vs

def WfMembers : List (Text × Value F) → Prop
  | [] => True
  | (key, v) :: ms => IsStr key ∧ v.Wf ∧ WfMembers ms

end

/-! ## Reading what was written: strings -/

theorem hexValue_hexDigit {n : ℕ} (h : n < 16) : hexValue (hexDigit n) = some n := by
  interval_cases n <;> rfl

theorem hex4_unicodeEscape {c : ℕ} (h : c < 0x10000) (rest : Text) :
    hex4 (hexDigit (c / 4096) :: hexDigit (c / 256 % 16) :: hexDigit (c / 16 % 16) ::
      hexDigit (c % 16) :: rest) = some (c, rest) := by
  rw [hex4, hexValue_hexDigit (by omega), hexValue_hexDigit (by omega), hexValue_hexDigit (by omega),
    hexValue_hexDigit (by omega)]
  simp only [Option.some.injEq, Prod.mk.injEq, and_true]
  omega

theorem isHigh_iff {c : ℕ} : isHigh c = true ↔ 0xD800 ≤ c ∧ c < 0xDC00 := by simp [isHigh]

theorem isLow_iff {c : ℕ} : isLow c = true ↔ 0xDC00 ≤ c ∧ c < 0xE000 := by simp [isLow]

/-- The characters with an escape of two characters, and the second of the two. -/
def shortEscapes : List (ℕ × ℕ) :=
  [(34, 34), (92, 92), (10, 110), (13, 114), (9, 116), (12, 102), (8, 98)]

theorem escape_short (w : Style) {c e : ℕ} (h : (c, e) ∈ shortEscapes) : escape w c = [92, e] := by
  have hall : ∀ p ∈ shortEscapes, escape w p.1 = [92, p.2] := by
    simp only [shortEscapes, List.forall_mem_cons]
    exact ⟨rfl, rfl, rfl, rfl, rfl, rfl, rfl, fun _ h => absurd h List.not_mem_nil⟩
  exact hall _ h

/-- What a character is written as. -/
theorem escape_cases (w : Style) (c : ℕ) :
    (∃ e, (c, e) ∈ shortEscapes ∧ escape w c = [92, e]) ∨
      ((c < 32 ∨ (w.ensureAscii = true ∧ 126 < c)) ∧ c < 0x10000 ∧
        escape w c = unicodeEscape c) ∨
      (w.ensureAscii = true ∧ 0x10000 ≤ c ∧
        escape w c = unicodeEscape (0xD800 + (c - 0x10000) / 1024) ++
          unicodeEscape (0xDC00 + (c - 0x10000) % 1024)) ∨
      (c ≠ 34 ∧ c ≠ 92 ∧ 32 ≤ c ∧ (w.ensureAscii = true → c ≤ 126) ∧ escape w c = [c]) := by
  by_cases hshort : ∃ e, (c, e) ∈ shortEscapes
  · obtain ⟨e, he⟩ := hshort
    exact .inl ⟨e, he, escape_short w he⟩
  have hne : ∀ p ∈ shortEscapes, c ≠ p.1 := fun p hp hc => hshort ⟨p.2, hc ▸ hp⟩
  simp only [shortEscapes, List.forall_mem_cons] at hne
  obtain ⟨h1, h2, h3, h4, h5, h6, h7, -⟩ := hne
  rw [escape, if_neg h1, if_neg h2, if_neg h3, if_neg h4, if_neg h5, if_neg h6, if_neg h7]
  by_cases h8 : c < 32 ∨ (w.ensureAscii = true ∧ 126 < c)
  · rw [if_pos h8]
    by_cases h9 : c < 0x10000
    · exact .inr (.inl ⟨h8, h9, if_pos h9⟩)
    · have hascii := (h8.resolve_left (by omega)).1
      exact .inr (.inr (.inl ⟨hascii, by omega, if_neg h9⟩))
  · have hlow : 32 ≤ c := by
      by_contra hlt
      exact h8 (.inl (by omega))
    have hhigh : w.ensureAscii = true → c ≤ 126 := by
      intro hw
      by_contra hlt
      exact h8 (.inr ⟨hw, by omega⟩)
    exact .inr (.inr (.inr ⟨h1, h2, hlow, hhigh, if_neg h8⟩))

theorem scanLow_unicodeEscape {c : ℕ} (h : c < 0x10000) (rest : Text) :
    scanLow (unicodeEscape c ++ rest) = if isLow c then some (c, rest) else none := by
  show (match hex4 (hexDigit (c / 4096) :: hexDigit (c / 256 % 16) :: hexDigit (c / 16 % 16) ::
    hexDigit (c % 16) :: rest) with
    | some (c, rest) => if isLow c then some (c, rest) else none
    | none => none) = _
  rw [hex4_unicodeEscape h]

/-- Behind a high surrogate the text of any character but a low one is not taken for a
low one. -/
theorem scanLow_escape (w : Style) {c : ℕ} (hc : c < 0x110000) (hlow : isLow c = false) (rest : Text) :
    scanLow (escape w c ++ rest) = none := by
  obtain ⟨e, he, hescape⟩ | ⟨-, h9, hescape⟩ | ⟨-, -, hescape⟩ | ⟨-, h2, -, -, hescape⟩ :=
    escape_cases w c
  · have hnot : ∀ p ∈ shortEscapes, p.2 ≠ 117 := by decide
    have he := hnot _ he
    rw [hescape]
    show scanLow (92 :: e :: rest) = none
    unfold scanLow
    split
    · rename_i heq
      exact absurd (List.cons.inj (List.cons.inj heq).2).1 he
    · rfl
  · rw [hescape, scanLow_unicodeEscape h9, hlow]
    rfl
  · have hhigh : isLow (0xD800 + (c - 0x10000) / 1024) = false := by
      rw [Bool.eq_false_iff, ne_eq, isLow_iff]
      omega
    rw [hescape, List.append_assoc, scanLow_unicodeEscape (by omega), hhigh]
    rfl
  · rw [hescape, List.singleton_append]
    unfold scanLow
    split
    · rename_i heq
      exact absurd (List.cons.inj heq).1 h2
    · rfl

/-- One character of a string is read back. -/
theorem scanString_escape (w : Style) {c : ℕ} (hc : c < 0x110000) {rest : Text}
    (hrest : isHigh c = true → scanLow rest = none) (n : ℕ) :
    scanString (n + 1) (escape w c ++ rest) = (scanString n rest).map fun r => (c :: r.1, r.2) := by
  obtain ⟨e, he, hescape⟩ | ⟨-, h9, hescape⟩ | ⟨-, hge, hescape⟩ | ⟨h1, h2, h32, -, hescape⟩ :=
    escape_cases w c
  · have hall : ∀ p ∈ shortEscapes, p.2 ≠ 117 ∧ unescape p.2 = some p.1 := by decide
    obtain ⟨hne, hunescape⟩ := hall _ he
    have hscan : scanEscape (e :: rest) = some (c, rest) := by
      rw [scanEscape, if_neg hne, hunescape]
      rfl
    rw [hescape]
    show scanString (n + 1) (92 :: e :: rest) = _
    rw [scanString, if_neg (show (92 : ℕ) ≠ 34 by decide), if_pos rfl, hscan]
  · have hscan : scanEscape (117 :: hexDigit (c / 4096) :: hexDigit (c / 256 % 16) ::
        hexDigit (c / 16 % 16) :: hexDigit (c % 16) :: rest) = some (c, rest) := by
      rw [scanEscape, if_pos rfl, hex4_unicodeEscape h9]
      dsimp only
      split_ifs with hhigh
      · rw [hrest hhigh]
      · rfl
    rw [hescape]
    show scanString (n + 1) (92 :: 117 :: hexDigit (c / 4096) :: hexDigit (c / 256 % 16) ::
      hexDigit (c / 16 % 16) :: hexDigit (c % 16) :: rest) = _
    rw [scanString, if_neg (show (92 : ℕ) ≠ 34 by decide), if_pos rfl, hscan]
  · set hi := 0xD800 + (c - 0x10000) / 1024 with hhi
    set lo := 0xDC00 + (c - 0x10000) % 1024 with hlo
    have hjoin : join hi lo = c := by
      unfold join
      omega
    have hhigh : isHigh hi = true := by
      rw [isHigh_iff]
      omega
    have hlow : isLow lo = true := by
      rw [isLow_iff]
      omega
    have hscan : scanEscape (117 :: hexDigit (hi / 4096) :: hexDigit (hi / 256 % 16) ::
        hexDigit (hi / 16 % 16) :: hexDigit (hi % 16) :: (unicodeEscape lo ++ rest)) =
          some (c, rest) := by
      rw [scanEscape, if_pos rfl, hex4_unicodeEscape (by omega)]
      dsimp only
      rw [if_pos hhigh, scanLow_unicodeEscape (by omega), if_pos hlow]
      dsimp only
      rw [hjoin]
    rw [hescape, List.append_assoc]
    show scanString (n + 1) (92 :: 117 :: hexDigit (hi / 4096) :: hexDigit (hi / 256 % 16) ::
      hexDigit (hi / 16 % 16) :: hexDigit (hi % 16) :: (unicodeEscape lo ++ rest)) = _
    rw [scanString, if_neg (show (92 : ℕ) ≠ 34 by decide), if_pos rfl, hscan]
  · rw [hescape, List.singleton_append, scanString, if_neg h1, if_neg h2, if_neg (by omega)]

theorem escape_ne_nil (w : Style) (c : ℕ) : escape w c ≠ [] := by
  obtain ⟨e, -, hescape⟩ | ⟨-, -, hescape⟩ | ⟨-, -, hescape⟩ | ⟨-, -, -, -, hescape⟩ :=
    escape_cases w c <;>
  · rw [hescape]
    exact List.cons_ne_nil _ _

theorem length_le_escaped (w : Style) (s : Text) : s.length ≤ (s.flatMap (escape w)).length := by
  induction s with
  | nil => exact Nat.le_refl _
  | cons c s ih =>
    have hpos := List.length_pos_iff.mpr (escape_ne_nil w c)
    rw [List.flatMap_cons, List.length_append, List.length_cons]
    omega

theorem scanString_flatMap (w : Style) {s : Text} (hs : IsStr s) (rest : Text) {n : ℕ}
    (hn : s.length < n) : scanString n (s.flatMap (escape w) ++ 34 :: rest) = some (s, rest) := by
  induction s generalizing n with
  | nil =>
    obtain ⟨m, rfl⟩ := Nat.exists_eq_succ_of_ne_zero (Nat.ne_of_gt hn)
    rfl
  | cons c s ih =>
    obtain ⟨hrange, hchain⟩ := hs
    rw [List.forall_mem_cons] at hrange
    obtain ⟨m, rfl⟩ := Nat.exists_eq_succ_of_ne_zero (Nat.ne_of_gt (Nat.zero_lt_of_lt hn))
    have htail : IsStr s := ⟨hrange.2, (List.isChain_cons.mp hchain).2⟩
    rw [List.flatMap_cons, List.append_assoc, scanString_escape w hrange.1 _ m,
      ih htail (Nat.lt_of_succ_lt_succ hn)]
    · rfl
    · intro hhigh
      cases s with
      | nil => rfl
      | cons d s =>
        have hlow : isLow d = false := by
          rw [List.isChain_cons_cons] at hchain
          exact Bool.eq_false_iff.mpr fun h => hchain.1 ⟨hhigh, h⟩
        rw [List.flatMap_cons, List.append_assoc]
        exact scanLow_escape w (hrange.2 d List.mem_cons_self) hlow _


theorem scanString_quote (w : Style) {s : Text} (hs : IsStr s) (rest : Text) {n : ℕ}
    (hn : s.length < n) : scanString n ((s.flatMap (escape w) ++ [34]) ++ rest) = some (s, rest) := by
  rw [List.append_assoc]
  exact scanString_flatMap w hs rest hn

/-! ## Reading what was written: names and numbers -/

/-- A number token ends here. -/
def Ends (rest : Text) : Prop := ∀ c ∈ rest.head?, isNumberChar c = false

theorem takeWhile_number {tok rest : Text} (htok : ∀ c ∈ tok, isNumberChar c = true)
    (hrest : Ends rest) : (tok ++ rest).takeWhile isNumberChar = tok := by
  rw [List.takeWhile_append_of_pos htok]
  cases rest with
  | nil => rw [List.takeWhile_nil, List.append_nil]
  | cons c rest =>
    have hc : isNumberChar c = false := hrest c rfl
    rw [List.takeWhile_cons, hc]
    exact List.append_nil tok

theorem isDigit_iff {c : ℕ} : isDigit c = true ↔ 48 ≤ c ∧ c ≤ 57 := by simp [isDigit]

/-- How a number starts. -/
def StartsNumber : Text → Prop
  | [] => False
  | c :: rest => isDigit c = true ∨ (c = 45 ∧ ∃ d ∈ rest.head?, isDigit d = true)

theorem StartsNumber.append {text : Text} (h : StartsNumber text) (rest : Text) :
    StartsNumber (text ++ rest) := by
  cases text with
  | nil => exact h.elim
  | cons c text =>
    rcases h with hc | ⟨hc, d, hd, hdigit⟩
    · exact .inl hc
    · refine .inr ⟨hc, d, ?_, hdigit⟩
      cases text with
      | nil => exact absurd hd (by simp)
      | cons e text => exact hd

theorem digit_of_isDigits {text : Text} (h : isDigits text = true) :
    ∃ d ∈ text.head?, isDigit d = true := by
  cases text with
  | nil => exact absurd h (by decide)
  | cons d text =>
    simp only [isDigits, List.all_cons, Bool.and_eq_true] at h
    exact ⟨d, rfl, h.2.1⟩

theorem startsNumber_of_isInt {text : Text} (h : isInt text = true) : StartsNumber text := by
  simp only [isInt, Bool.and_eq_true] at h
  obtain ⟨d, hd, hdigit⟩ := digit_of_isDigits h.1
  cases text with
  | nil => exact absurd hd (by simp)
  | cons c text =>
    split_ifs at hd with hsign
    · exact .inr ⟨Option.some.inj hsign, d, hd, hdigit⟩
    · obtain rfl : c = d := Option.some.inj hd
      exact .inl hdigit

theorem startsNumber_of_isFloat {text : Text} (h : isFloat text = true) : StartsNumber text := by
  simp only [isFloat, Bool.and_eq_true] at h
  have hwhole := startsNumber_of_isInt h.1.1.1
  obtain ⟨rest, hrest⟩ := (List.takeWhile_prefix (fun c : ℕ => decide (c ≠ 46))
    (l := text.takeWhile fun c => c ≠ 101 && c ≠ 69)).trans (List.takeWhile_prefix _)
  rw [← hrest]
  exact hwhole.append rest

/-- No name is read where a number starts. -/
theorem find?_names (N : Floats F) {text : Text} (h : StartsNumber text) :
    ((names N).find? fun name => name.1.isPrefixOf text) = none := by
  have hlead : ∀ c d : ℕ, ∀ name : Text, isDigit c = false → (c = 45 → isDigit d = false) →
      (c :: d :: name).isPrefixOf text = false := by
    intro c d name hc hd
    rw [Bool.eq_false_iff, ne_eq, List.isPrefixOf_iff_prefix]
    rintro ⟨rest, rfl⟩
    rcases h with h | ⟨h, e, he, hdigit⟩
    · exact absurd h (by simp [hc])
    · obtain rfl : d = e := Option.some.inj he
      exact absurd hdigit (by simp [hd h])
  simp only [names, nanText, infText, negInfText, List.find?_cons, List.find?_nil]
  rw [hlead 110 117 _ rfl (by decide), hlead 116 114 _ rfl (by decide),
    hlead 102 97 _ rfl (by decide), hlead 78 97 _ rfl (by decide), hlead 73 110 _ rfl (by decide),
    hlead 45 73 _ rfl (fun _ => rfl)]

theorem atom_number (N : Floats F) {tok rest : Text} {v : Value F}
    (htok : ∀ c ∈ tok, isNumberChar c = true) (hstart : StartsNumber tok)
    (hread : number N tok = some v) (hrest : Ends rest) : atom N (tok ++ rest) = some (v, rest) := by
  rw [atom, find?_names N (hstart.append rest), takeWhile_number htok hrest]
  dsimp only
  rw [hread, List.drop_left]
  rfl

theorem atom_name (N : Floats F) {name : Text} {v : Value F} (h : (name, v) ∈ names N) (rest : Text) :
    atom N (name ++ rest) = some (v, rest) := by
  simp only [names, List.mem_cons, Prod.mk.injEq, List.not_mem_nil, or_false] at h
  rcases h with ⟨rfl, rfl⟩ | ⟨rfl, rfl⟩ | ⟨rfl, rfl⟩ | ⟨rfl, rfl⟩ | ⟨rfl, rfl⟩ | ⟨rfl, rfl⟩
  iterate 6 rfl

theorem digitChar {n : ℕ} {c : Char} (h : c ∈ Nat.toDigits 10 n) : 48 ≤ c.toNat ∧ c.toNat ≤ 57 :=
  Char.isDigit_iff_toNat.mp (Nat.isDigit_of_mem_toDigits (by decide) (by decide) h)

theorem showNat_isDigit {n c : ℕ} (h : c ∈ showNat n) : isDigit c = true := by
  obtain ⟨d, hd, rfl⟩ := List.mem_map.mp h
  exact isDigit_iff.mpr (digitChar hd)

theorem showNat_ne_nil (n : ℕ) : showNat n ≠ [] := by
  rw [showNat, ne_eq, List.map_eq_nil_iff]
  exact Nat.toDigits_ne_nil

theorem isDigits_showNat (n : ℕ) : isDigits (showNat n) = true := by
  simp only [isDigits, Bool.and_eq_true, decide_eq_true_eq, List.all_eq_true]
  exact ⟨showNat_ne_nil n, fun c hc => showNat_isDigit hc⟩

theorem readNat_showNat (n : ℕ) : readNat (showNat n) = n := by
  have hfold : ∀ (cs : List Char) (acc : ℕ),
      (cs.map Char.toNat).foldl (fun n c => 10 * n + (c - 48)) acc = Nat.ofDigitChars 10 cs acc := by
    intro cs
    induction cs with
    | nil => intro acc; simp
    | cons c cs ih =>
      intro acc
      rw [List.map_cons, List.foldl_cons, ih, Nat.ofDigitChars_cons]
      rfl
  rw [readNat, showNat, hfold, Nat.ofDigitChars_ten_toDigits]

/-- A positive number is written without a leading zero. -/
theorem head?_showNat {n : ℕ} (h : 0 < n) : (showNat n).head? ≠ some 48 := by
  induction n using Nat.strong_induction_on with
  | _ n ih =>
    by_cases hn : n < 10
    · interval_cases n <;> decide
    · have hsplit : showNat n = showNat (n / 10) ++ [(n % 10).digitChar.toNat] := by
        rw [showNat, Nat.toDigits_of_base_le (by decide) (by omega), List.map_append]
        rfl
      rw [hsplit, List.head?_append_of_ne_nil _ (showNat_ne_nil _)]
      exact ih (n / 10) (by omega) (by omega)

theorem unsigned_showNat (n : ℕ) : (showNat n).head? ≠ some 45 := by
  intro h
  exact absurd (showNat_isDigit (List.mem_of_mem_head? h)) (by decide)

theorem isInt_showInt (i : ℤ) : isInt (showInt i) = true := by
  cases i with
  | ofNat n =>
    have hzero : (showNat n).length = 1 ∨ (showNat n).head? ≠ some 48 := by
      rcases Nat.eq_zero_or_pos n with rfl | hn
      · exact .inl rfl
      · exact .inr (head?_showNat hn)
    rw [showInt, isInt, if_neg (unsigned_showNat n), isDigits_showNat]
    simpa using hzero
  | negSucc n =>
    rw [showInt, isInt, List.head?_cons, if_pos rfl, List.tail_cons, isDigits_showNat]
    simpa using Or.inr (head?_showNat (Nat.succ_pos n))

theorem readInt_showInt (i : ℤ) : readInt (showInt i) = i := by
  cases i with
  | ofNat n =>
    rw [showInt, readInt, if_neg (unsigned_showNat n), readNat_showNat]
    rfl
  | negSucc n =>
    rw [showInt, readInt, List.head?_cons, if_pos rfl, List.tail_cons, readNat_showNat]
    rfl

theorem showNat_isNumberChar {n c : ℕ} (h : c ∈ showNat n) : isNumberChar c = true := by
  simp [isNumberChar, showNat_isDigit h]

theorem showInt_isNumberChar (i : ℤ) : ∀ c ∈ showInt i, isNumberChar c = true := by
  cases i with
  | ofNat n => exact fun c hc => showNat_isNumberChar hc
  | negSucc n =>
    intro c hc
    rcases List.mem_cons.mp hc with rfl | hc
    · rfl
    · exact showNat_isNumberChar hc

theorem atom_showInt (N : Floats F) (i : ℤ) {rest : Text} (hrest : Ends rest) :
    atom N (showInt i ++ rest) = some (.int i, rest) := by
  refine atom_number N (showInt_isNumberChar i) (startsNumber_of_isInt (isInt_showInt i)) ?_ hrest
  rw [number, if_pos (isInt_showInt i), readInt_showInt]

theorem atom_write (N : Floats F) (x : F) {rest : Text} (hrest : Ends rest) :
    atom N (N.write x ++ rest) = some (.float x, rest) := by
  by_cases hnan : x = N.nan
  · rw [hnan, N.write_nan]
    exact atom_name N (by simp [names]) rest
  by_cases hinf : x = N.inf
  · rw [hinf, N.write_inf]
    exact atom_name N (by simp [names]) rest
  by_cases hneg : x = N.negInf
  · rw [hneg, N.write_negInf]
    exact atom_name N (by simp [names]) rest
  have hfloat := N.write_isFloat x hnan hinf hneg
  have hint : ¬ isInt (N.write x) = true := by
    simp only [isFloat, Bool.and_eq_true, Bool.not_eq_true'] at hfloat
    simp [hfloat.2]
  refine atom_number N (N.write_chars x hnan hinf hneg) (startsNumber_of_isFloat hfloat) ?_ hrest
  rw [number, if_neg hint, if_pos hfloat, N.read_write x hnan hinf hneg]

/-! ## Reading what was written: values -/

theorem token_of_skipWs {c d : ℕ} {text rest : Text} (h : skipWs text = d :: rest) :
    token c text = if d = c then some rest else none := by
  rw [token, h]

theorem skipWs_cons {c : ℕ} (h : isWs c = false) (rest : Text) : skipWs (c :: rest) = c :: rest := by
  rw [skipWs, List.dropWhile_cons, h]
  rfl

@[simp] theorem skipWs_gap (w : Style) (text : Text) : skipWs (w.gap ++ text) = skipWs text := by
  rw [Style.gap]
  split_ifs <;> rfl

theorem value_of_atom {N : Floats F} {text : Text} {r : Value F × Text} (h : atom N text = some r)
    (n : ℕ) : value N (n + 1) text = some r := by
  cases text with
  | nil => exact absurd (h : (none : Option (Value F × Text)) = some r) nofun
  | cons c rest =>
    have hne : ∀ d, atom N (d :: rest) = none → c ≠ d := by
      intro d hnone hc
      rw [hc, hnone] at h
      exact absurd h nofun
    rw [value, if_neg (hne 34 rfl), if_neg (hne 123 rfl), if_neg (hne 91 rfl)]
    exact h

/-- The first character of a written value. -/
structure Opens (text : Text) : Prop where
  ne_nil : text ≠ []
  noWs : ∀ c ∈ text.head?, isWs c = false
  noBracket : ∀ c ∈ text.head?, c ≠ 93

theorem opens_cons {c : ℕ} {rest : Text} (hws : isWs c = false) (hne : c ≠ 93) :
    Opens (c :: rest) where
  ne_nil := List.cons_ne_nil c rest
  noWs _ hd := Option.some.inj hd ▸ hws
  noBracket _ hd := Option.some.inj hd ▸ hne

theorem opens_of_startsNumber {text : Text} (h : StartsNumber text) : Opens text := by
  cases text with
  | nil => exact h.elim
  | cons c rest =>
    have hc : c = 45 ∨ 48 ≤ c ∧ c ≤ 57 := h.symm.imp (fun h => h.1) fun h => isDigit_iff.mp h
    refine opens_cons ?_ (by omega)
    simp only [isWs, Bool.or_eq_false_iff, decide_eq_false_iff_not]
    omega

theorem opens_write (N : Floats F) (x : F) : Opens (N.write x) := by
  by_cases hnan : x = N.nan
  · rw [hnan, N.write_nan]
    exact opens_cons rfl (by decide)
  by_cases hinf : x = N.inf
  · rw [hinf, N.write_inf]
    exact opens_cons rfl (by decide)
  by_cases hneg : x = N.negInf
  · rw [hneg, N.write_negInf]
    exact opens_cons rfl (by decide)
  exact opens_of_startsNumber (startsNumber_of_isFloat (N.write_isFloat x hnan hinf hneg))

theorem setItem_new {α : Type} {acc : List (Text × α)} {key : Text} (h : key ∉ acc.map Prod.fst)
    (v : α) : setItem acc key v = acc ++ [(key, v)] := by
  have hany : ¬ (acc.any (·.1 = key)) = true := by
    rw [List.any_eq_true]
    rintro ⟨m, hm, heq⟩
    exact h (of_decide_eq_true heq ▸ List.mem_map_of_mem hm)
  rw [setItem, if_neg hany]

/-! ## Layouts -/

/-- Where a writer leaves white space: in front of the first item of a list or an object whose items
stand at a depth, behind a comma, in front of the closing bracket, and behind a colon. -/
structure Layout where
  first : ℕ → Text
  next : ℕ → Text
  last : ℕ → Text
  colon : Text
  first_ws : ∀ d, ∀ c ∈ first d, isWs c = true
  next_ws : ∀ d, ∀ c ∈ next d, isWs c = true
  last_ws : ∀ d, ∀ c ∈ last d, isWs c = true
  colon_ws : ∀ c ∈ colon, isWs c = true

variable (N : Floats F) (w : Style) (L : Layout)

mutual

/-- A value, written at a depth. -/
def layout (d : ℕ) : Value F → Text
  | .null => [110, 117, 108, 108]
  | .bool true => [116, 114, 117, 101]
  | .bool false => [102, 97, 108, 115, 101]
  | .int i => showInt i
  | .float x => N.write x
  | .str s => quote w s
  | .list [] => [91, 93]
  | .list (v :: vs) => 91 :: (L.first (d + 1) ++ (layout (d + 1) v ++ layoutItems d vs))
  | .dict [] => [123, 125]
  | .dict ((key, v) :: ms) => 123 :: (L.first (d + 1) ++ (quote w key ++ 58 :: (L.colon ++
      (layout (d + 1) v ++ layoutMembers d ms))))

/-- The further items of a list at a depth, with the closing bracket. -/
def layoutItems (d : ℕ) : List (Value F) → Text
  | [] => L.last d ++ [93]
  | v :: vs => 44 :: (L.next (d + 1) ++ (layout (d + 1) v ++ layoutItems d vs))

/-- The further members of an object at a depth, with the closing brace. -/
def layoutMembers (d : ℕ) : List (Text × Value F) → Text
  | [] => L.last d ++ [125]
  | (key, v) :: ms => 44 :: (L.next (d + 1) ++ (quote w key ++ 58 :: (L.colon ++
      (layout (d + 1) v ++ layoutMembers d ms))))

end

theorem skipWs_append {ws : Text} (h : ∀ c ∈ ws, isWs c = true) (text : Text) :
    skipWs (ws ++ text) = skipWs text := by
  rw [skipWs, List.dropWhile_append_of_pos h, skipWs]

theorem token_append {ws : Text} (h : ∀ c ∈ ws, isWs c = true) (c : ℕ) (text : Text) :
    token c (ws ++ text) = token c text := by
  rw [token, skipWs_append h, token]

theorem ends_append {ws : Text} (h : ∀ c ∈ ws, isWs c = true) {c : ℕ} (hc : isNumberChar c = false)
    (text : Text) : Ends (ws ++ c :: text) := by
  cases ws with
  | nil =>
    intro d hd
    obtain rfl : c = d := Option.some.inj hd
    exact hc
  | cons b ws =>
    intro d hd
    obtain rfl : b = d := Option.some.inj hd
    have hb := h b List.mem_cons_self
    simp only [isWs, Bool.or_eq_true, decide_eq_true_eq] at hb
    rcases hb with ((rfl | rfl) | rfl) | rfl
    iterate 4 rfl

theorem opens_layout (d : ℕ) (v : Value F) : Opens (layout N w L d v) := by
  cases v with
  | null => exact opens_cons rfl (by decide)
  | bool b => cases b <;> exact opens_cons rfl (by decide)
  | int i => exact opens_of_startsNumber (startsNumber_of_isInt (isInt_showInt i))
  | float x => exact opens_write N x
  | str s => exact opens_cons rfl (by decide)
  | list vs => cases vs <;> exact opens_cons rfl (by decide)
  | dict ms => cases ms <;> exact opens_cons rfl (by decide)

theorem Opens.skipWs_eq {text : Text} (h : Opens text) (rest : Text) :
    skipWs (text ++ rest) = text ++ rest := by
  cases text with
  | nil => exact absurd rfl h.ne_nil
  | cons c text => exact skipWs_cons (h.noWs c rfl) _

/-- A written value is not taken for the end of an array. -/
theorem Opens.token_eq {text : Text} (h : Opens text) (rest : Text) :
    token 93 (text ++ rest) = none := by
  cases text with
  | nil => exact absurd rfl h.ne_nil
  | cons c text => rw [token_of_skipWs (h.skipWs_eq rest), if_neg (h.noBracket c rfl)]

theorem layout_length_pos (d : ℕ) (v : Value F) : 0 < (layout N w L d v).length :=
  List.length_pos_iff.mpr (opens_layout N w L d v).ne_nil

theorem layoutItems_length_pos (d : ℕ) (vs : List (Value F)) :
    0 < (layoutItems N w L d vs).length := by
  cases vs with
  | nil =>
    rw [layoutItems, List.length_append]
    exact Nat.succ_pos _
  | cons v vs => exact Nat.succ_pos _

theorem ends_layoutItems (d : ℕ) (vs : List (Value F)) (rest : Text) :
    Ends (layoutItems N w L d vs ++ rest) := by
  cases vs with
  | nil =>
    rw [layoutItems, List.append_assoc]
    exact ends_append (L.last_ws d) rfl rest
  | cons v vs => exact fun _ hc => Option.some.inj hc ▸ rfl

theorem ends_layoutMembers (d : ℕ) (ms : List (Text × Value F)) (rest : Text) :
    Ends (layoutMembers N w L d ms ++ rest) := by
  cases ms with
  | nil =>
    rw [layoutMembers, List.append_assoc]
    exact ends_append (L.last_ws d) rfl rest
  | cons m ms => exact fun _ hc => Option.some.inj hc ▸ rfl

mutual

theorem value_layout (d : ℕ) (v : Value F) (hv : v.Wf) {rest : Text} (hrest : Ends rest) {n : ℕ}
    (hn : (layout N w L d v).length ≤ n) : value N n (layout N w L d v ++ rest) = some (v, rest) := by
  obtain ⟨m, rfl⟩ := Nat.exists_eq_succ_of_ne_zero
    (Nat.ne_of_gt (Nat.lt_of_lt_of_le (layout_length_pos N w L d v) hn))
  match v with
  | .null => exact value_of_atom (atom_name N (by simp [names, layout]) rest) m
  | .bool true => exact value_of_atom (atom_name N (by simp [names, layout]) rest) m
  | .bool false => exact value_of_atom (atom_name N (by simp [names, layout]) rest) m
  | .int i => exact value_of_atom (atom_showInt N i hrest) m
  | .float x => exact value_of_atom (atom_write N x hrest) m
  | .str s =>
    have hs : IsStr s := hv
    have hlen := length_le_escaped w s
    rw [layout, quote, List.cons_append, value, if_pos rfl, scanString_quote w hs]
    · rfl
    · simp only [List.length_append]
      omega
  | .list [] => rfl
  | .list (x :: xs) =>
    have hitems : x.Wf ∧ WfItems xs := hv
    have hopens := opens_layout N w L (d + 1) x
    rw [layout, List.length_cons, List.length_append, List.length_append] at hn
    rw [layout, List.cons_append, List.append_assoc, List.append_assoc, value,
      if_neg (by decide), if_neg (by decide), if_pos rfl, token_append (L.first_ws _),
      hopens.token_eq]
    dsimp only
    have hskip : skipWs (L.first (d + 1) ++ (layout N w L (d + 1) x ++
        (layoutItems N w L d xs ++ rest))) =
        layout N w L (d + 1) x ++ (layoutItems N w L d xs ++ rest) := by
      rw [skipWs_append (L.first_ws _), hopens.skipWs_eq]
    rw [items_layout d x xs hitems.1 hitems.2 hskip (by omega)]
    rfl
  | .dict [] => rfl
  | .dict ((key, x) :: ms) =>
    have hmem : ((key :: ms.map Prod.fst).Nodup) ∧ IsStr key ∧ x.Wf ∧ WfMembers ms := hv
    rw [layout, List.length_cons, List.length_append, List.length_append, List.length_cons,
      List.length_append, List.length_append] at hn
    have htext : (L.first (d + 1) ++ (quote w key ++ 58 :: (L.colon ++ (layout N w L (d + 1) x ++
        layoutMembers N w L d ms)))) ++ rest =
        L.first (d + 1) ++ (quote w key ++ 58 :: (L.colon ++ (layout N w L (d + 1) x ++
          (layoutMembers N w L d ms ++ rest)))) := by
      simp only [List.append_assoc, List.cons_append]
    have htoken : token 125 (quote w key ++ 58 :: (L.colon ++ (layout N w L (d + 1) x ++
        (layoutMembers N w L d ms ++ rest)))) = none := rfl
    have hskip : skipWs (L.first (d + 1) ++ (quote w key ++ 58 :: (L.colon ++
        (layout N w L (d + 1) x ++ (layoutMembers N w L d ms ++ rest))))) =
        quote w key ++ 58 :: (L.colon ++ (layout N w L (d + 1) x ++
          (layoutMembers N w L d ms ++ rest))) := by
      rw [skipWs_append (L.first_ws _)]
      rfl
    rw [layout, List.cons_append, htext, value, if_neg (by decide), if_pos rfl,
      token_append (L.first_ws _), htoken]
    dsimp only
    have hnew : ∀ k ∈ ([] : List (Text × Value F)).map Prod.fst, k ∉ key :: ms.map Prod.fst :=
      fun _ h => nomatch h
    rw [members_layout d key x ms hmem.2.1 hmem.2.2.1 hmem.2.2.2 hmem.1 hnew hskip (by omega)]
    rfl
termination_by n

theorem items_layout (d : ℕ) (v : Value F) (vs : List (Value F)) (hv : v.Wf) (hvs : WfItems vs)
    {text rest : Text}
    (htext : skipWs text = layout N w L (d + 1) v ++ (layoutItems N w L d vs ++ rest)) {n : ℕ}
    (hn : (layout N w L (d + 1) v).length + (layoutItems N w L d vs).length ≤ n) :
    items N n text = some (v :: vs, rest) := by
  have hpos := layout_length_pos N w L (d + 1) v
  have hitems := layoutItems_length_pos N w L d vs
  obtain ⟨m, rfl⟩ := Nat.exists_eq_succ_of_ne_zero (show n ≠ 0 by omega)
  rw [items, htext, value_layout (d + 1) v hv (ends_layoutItems N w L d vs rest) (by omega)]
  match vs with
  | [] =>
    simp only [layoutItems, Option.bind_eq_bind, Option.bind_some, List.append_assoc,
      token_append (L.last_ws d)]
    rfl
  | x :: xs =>
    have hlen : (layout N w L (d + 1) x).length + (layoutItems N w L d xs).length <
        (layoutItems N w L d (x :: xs)).length := by
      simp only [layoutItems, List.length_cons, List.length_append]
      omega
    have hskip : skipWs (L.next (d + 1) ++ (layout N w L (d + 1) x ++
        (layoutItems N w L d xs ++ rest))) =
        layout N w L (d + 1) x ++ (layoutItems N w L d xs ++ rest) := by
      rw [skipWs_append (L.next_ws _), (opens_layout N w L (d + 1) x).skipWs_eq]
    have htoken : token 44 (layoutItems N w L d (x :: xs) ++ rest) =
        some (L.next (d + 1) ++ (layout N w L (d + 1) x ++ (layoutItems N w L d xs ++ rest))) := by
      rw [layoutItems, List.cons_append, List.append_assoc, List.append_assoc]
      rfl
    simp only [Option.bind_eq_bind, Option.bind_some, htoken]
    rw [items_layout d x xs hvs.1 hvs.2 hskip (by omega)]
    rfl
termination_by n

theorem members_layout (d : ℕ) (key : Text) (v : Value F) (ms : List (Text × Value F))
    (hkey : IsStr key) (hv : v.Wf) (hms : WfMembers ms) (hnodup : (key :: ms.map Prod.fst).Nodup)
    {acc : List (Text × Value F)} (hacc : ∀ k ∈ acc.map Prod.fst, k ∉ key :: ms.map Prod.fst)
    {text rest : Text}
    (htext : skipWs text = quote w key ++ 58 :: (L.colon ++ (layout N w L (d + 1) v ++
      (layoutMembers N w L d ms ++ rest)))) {n : ℕ}
    (hn : (quote w key).length + (layout N w L (d + 1) v).length +
      (layoutMembers N w L d ms).length ≤ n) :
    members N n text acc = some (acc ++ (key, v) :: ms, rest) := by
  have hpos := layout_length_pos N w L (d + 1) v
  have hesc := length_le_escaped w key
  have hkeypos : 0 < (quote w key).length := Nat.succ_pos _
  obtain ⟨m, rfl⟩ := Nat.exists_eq_succ_of_ne_zero (show n ≠ 0 by omega)
  rw [quote, List.cons_append] at htext
  have hquote := token_of_skipWs (c := 34) htext
  rw [if_pos rfl] at hquote
  have hset : setItem acc key v = acc ++ [(key, v)] :=
    setItem_new (fun h => hacc key h List.mem_cons_self) v
  have hcolon : token 58 (58 :: (L.colon ++ (layout N w L (d + 1) v ++
      (layoutMembers N w L d ms ++ rest)))) =
      some (L.colon ++ (layout N w L (d + 1) v ++ (layoutMembers N w L d ms ++ rest))) := rfl
  rw [members, hquote]
  simp only [Option.bind_eq_bind, Option.bind_some]
  rw [scanString_quote w hkey _ (by simp only [List.length_append]; omega)]
  simp only [Option.bind_some]
  rw [hcolon]
  simp only [Option.bind_some]
  rw [skipWs_append L.colon_ws, (opens_layout N w L (d + 1) v).skipWs_eq,
    value_layout (d + 1) v hv (ends_layoutMembers N w L d ms rest) (by omega)]
  simp only [Option.bind_some]
  match ms with
  | [] =>
    simp only [layoutMembers, List.append_assoc, token_append (L.last_ws d)]
    rw [hset]
    rfl
  | (key', x) :: ms =>
    have hlen : (quote w key').length + (layout N w L (d + 1) x).length +
        (layoutMembers N w L d ms).length < (layoutMembers N w L d ((key', x) :: ms)).length := by
      simp only [layoutMembers, List.length_cons, List.length_append]
      omega
    have hskip : skipWs (L.next (d + 1) ++ (quote w key' ++ 58 :: (L.colon ++
        (layout N w L (d + 1) x ++ (layoutMembers N w L d ms ++ rest))))) =
        quote w key' ++ 58 :: (L.colon ++ (layout N w L (d + 1) x ++
          (layoutMembers N w L d ms ++ rest))) := by
      rw [skipWs_append (L.next_ws _)]
      rfl
    have htoken : token 44 (layoutMembers N w L d ((key', x) :: ms) ++ rest) =
        some (L.next (d + 1) ++ (quote w key' ++ 58 :: (L.colon ++ (layout N w L (d + 1) x ++
          (layoutMembers N w L d ms ++ rest))))) := by
      simp only [layoutMembers, List.cons_append, List.append_assoc]
      rfl
    have hacc' : ∀ k ∈ (acc ++ [(key, v)]).map Prod.fst, k ∉ key' :: ms.map Prod.fst := by
      intro k hk
      rw [List.map_append, List.mem_append] at hk
      rcases hk with hk | hk
      · exact fun h => hacc k hk (List.mem_cons_of_mem key h)
      · obtain rfl : k = key := List.mem_singleton.mp hk
        exact (List.nodup_cons.mp hnodup).1
    rw [htoken, hset]
    dsimp only
    rw [members_layout d key' x ms hms.1 hms.2.1 hms.2.2 (List.nodup_cons.mp hnodup).2 hacc' hskip
      (by omega), List.append_assoc]
    rfl
termination_by n

end

theorem ends_of_ws {ws : Text} (h : ∀ c ∈ ws, isWs c = true) : Ends ws := by
  intro c hc
  have hws := ends_append h (c := 44) rfl []
  cases ws with
  | nil => cases hc
  | cons b ws => exact hws c hc

/-- What is written in a layout is read back, also with white space behind it. -/
theorem read_layout (d : ℕ) {v : Value F} (hv : v.Wf) {tail : Text}
    (htail : ∀ c ∈ tail, isWs c = true) : read N (layout N w L d v ++ tail) = some v := by
  have hlen : (layout N w L d v).length ≤ (layout N w L d v ++ tail).length := by
    rw [List.length_append]
    exact Nat.le_add_right _ _
  have hrest : skipWs tail = [] := by
    have h := skipWs_append htail []
    rwa [List.append_nil] at h
  rw [read, (opens_layout N w L d v).skipWs_eq tail,
    value_layout N w L d v hv (ends_of_ws htail) hlen]
  simp only [Option.bind_eq_bind, Option.bind_some, hrest, if_true]

/-! ## One line -/

theorem gap_ws : ∀ c ∈ w.gap, isWs c = true := by
  unfold Style.gap
  split_ifs
  · decide
  · exact fun _ h => absurd h List.not_mem_nil

/-- The layout of `dumps`. -/
def oneLine : Layout where
  first _ := []
  next _ := w.gap
  last _ := []
  colon := w.gap
  first_ws _ _ h := absurd h List.not_mem_nil
  next_ws _ := gap_ws w
  last_ws _ _ h := absurd h List.not_mem_nil
  colon_ws := gap_ws w

mutual

theorem layout_oneLine (d : ℕ) : ∀ v : Value F, layout N w (oneLine w) d v = dumps N w v
  | .null | .bool true | .bool false | .int _ | .float _ | .str _ | .list [] | .dict [] => rfl
  | .list (v :: vs) => by
    rw [layout, dumps, layout_oneLine (d + 1) v, layoutItems_oneLine d vs]
    rfl
  | .dict ((key, v) :: ms) => by
    rw [layout, dumps, layout_oneLine (d + 1) v, layoutMembers_oneLine d ms]
    rfl

theorem layoutItems_oneLine (d : ℕ) :
    ∀ vs : List (Value F), layoutItems N w (oneLine w) d vs = dumpsItems N w vs
  | [] => rfl
  | v :: vs => by
    rw [layoutItems, dumpsItems, layout_oneLine (d + 1) v, layoutItems_oneLine d vs]
    rfl

theorem layoutMembers_oneLine (d : ℕ) :
    ∀ ms : List (Text × Value F), layoutMembers N w (oneLine w) d ms = dumpsMembers N w ms
  | [] => rfl
  | (key, v) :: ms => by
    rw [layoutMembers, dumpsMembers, layout_oneLine (d + 1) v, layoutMembers_oneLine d ms]
    rfl

end

theorem opens_dumps (v : Value F) : Opens (dumps N w v) :=
  layout_oneLine N w 0 v ▸ opens_layout N w (oneLine w) 0 v

theorem skipWs_dumps (v : Value F) (rest : Text) :
    skipWs (dumps N w v ++ rest) = dumps N w v ++ rest := (opens_dumps N w v).skipWs_eq rest

theorem dumps_length_pos (v : Value F) : 0 < (dumps N w v).length :=
  List.length_pos_iff.mpr (opens_dumps N w v).ne_nil

theorem value_dumps (v : Value F) (hv : v.Wf) {rest : Text} (hrest : Ends rest) {n : ℕ}
    (hn : (dumps N w v).length ≤ n) : value N n (dumps N w v ++ rest) = some (v, rest) := by
  rw [← layout_oneLine N w 0] at hn ⊢
  exact value_layout N w (oneLine w) 0 v hv hrest hn

theorem members_dumps (key : Text) (v : Value F) (ms : List (Text × Value F)) (hkey : IsStr key)
    (hv : v.Wf) (hms : WfMembers ms) (hnodup : (key :: ms.map Prod.fst).Nodup)
    {acc : List (Text × Value F)} (hacc : ∀ k ∈ acc.map Prod.fst, k ∉ key :: ms.map Prod.fst)
    {text rest : Text}
    (htext : skipWs text = quote w key ++ 58 :: (w.gap ++ (dumps N w v ++
      (dumpsMembers N w ms ++ rest)))) {n : ℕ}
    (hn : (quote w key).length + (dumps N w v).length + (dumpsMembers N w ms).length ≤ n) :
    members N n text acc = some (acc ++ (key, v) :: ms, rest) := by
  rw [← layout_oneLine N w 1, ← layoutMembers_oneLine N w 0] at htext hn
  exact members_layout N w (oneLine w) 0 key v ms hkey hv hms hnodup hacc htext hn

/-- What is written is read back. -/
theorem read_dumps {v : Value F} (hv : v.Wf) : read N (dumps N w v) = some v := by
  have htail : ∀ c ∈ ([] : Text), isWs c = true := fun _ h => absurd h List.not_mem_nil
  have h := read_layout N w (oneLine w) 0 hv htail
  rwa [List.append_nil, layout_oneLine] at h

/-! ## What is written with escapes is ASCII -/

def Ascii (text : Text) : Prop := ∀ c ∈ text, c < 128

theorem ascii_append {a b : Text} (ha : Ascii a) (hb : Ascii b) : Ascii (a ++ b) :=
  List.forall_mem_append.mpr ⟨ha, hb⟩

theorem ascii_cons {c : ℕ} {text : Text} (hc : c < 128) (ht : Ascii text) : Ascii (c :: text) :=
  List.forall_mem_cons.mpr ⟨hc, ht⟩

theorem ascii_number {text : Text} (h : ∀ c ∈ text, isNumberChar c = true) : Ascii text := by
  intro c hc
  have hchar := h c hc
  simp only [isNumberChar, isDigit, Bool.or_eq_true, Bool.and_eq_true, decide_eq_true_eq] at hchar
  omega

theorem ascii_unicodeEscape {c : ℕ} (h : c < 0x10000) : Ascii (unicodeEscape c) := by
  have hdigit : ∀ {n : ℕ}, n < 16 → hexDigit n < 128 := by
    intro n hn
    rw [hexDigit]
    split_ifs <;> omega
  refine ascii_cons (by decide) (ascii_cons (by decide) (ascii_cons (hdigit (by omega))
    (ascii_cons (hdigit (by omega)) (ascii_cons (hdigit (by omega)) (ascii_cons (hdigit (by omega)) ?_)))))
  exact fun _ h => (nomatch h)

theorem ascii_short {c e : ℕ} (h : (c, e) ∈ shortEscapes) : Ascii [92, e] := by
  have hall : ∀ p ∈ shortEscapes, p.2 < 128 := by decide
  exact ascii_cons (by decide) (ascii_cons (hall _ h) fun _ h => (nomatch h))

variable {w}

theorem ascii_escape (hw : w.ensureAscii = true) {c : ℕ} (hc : c < 0x110000) : Ascii (escape w c) := by
  obtain ⟨e, he, hescape⟩ | ⟨-, h9, hescape⟩ | ⟨-, -, hescape⟩ | ⟨-, -, -, hle, hescape⟩ :=
    escape_cases w c
  · rw [hescape]
    exact ascii_short he
  · rw [hescape]
    exact ascii_unicodeEscape h9
  · rw [hescape]
    exact ascii_append (ascii_unicodeEscape (by omega)) (ascii_unicodeEscape (by omega))
  · rw [hescape]
    refine ascii_cons ?_ fun _ h => (nomatch h)
    have hle := hle hw
    omega

theorem ascii_quote (hw : w.ensureAscii = true) {s : Text} (hs : IsStr s) : Ascii (quote w s) := by
  refine ascii_cons (by decide) (ascii_append ?_ (ascii_cons (by decide) fun _ h => (nomatch h)))
  intro c hc
  obtain ⟨d, hd, hmem⟩ := List.mem_flatMap.mp hc
  exact ascii_escape hw (hs.range d hd) c hmem

theorem ascii_gap : Ascii w.gap := by
  rw [Style.gap]
  split_ifs <;> (unfold Ascii; decide)

theorem ascii_write (x : F) : Ascii (N.write x) := by
  by_cases hnan : x = N.nan
  · rw [hnan, N.write_nan]
    unfold Ascii
    decide
  by_cases hinf : x = N.inf
  · rw [hinf, N.write_inf]
    unfold Ascii
    decide
  by_cases hneg : x = N.negInf
  · rw [hneg, N.write_negInf]
    unfold Ascii
    decide
  exact ascii_number (N.write_chars x hnan hinf hneg)

mutual

theorem dumps_ascii (hw : w.ensureAscii = true) (v : Value F) (hv : v.Wf) : Ascii (dumps N w v) := by
  match v with
  | .null | .bool true | .bool false | .list [] | .dict [] =>
    rw [dumps]
    unfold Ascii
    decide
  | .int i => exact ascii_number (showInt_isNumberChar i)
  | .float x => exact ascii_write N x
  | .str s => exact ascii_quote hw hv
  | .list (x :: xs) =>
    exact ascii_cons (by decide) (ascii_append (dumps_ascii hw x hv.1) (dumpsItems_ascii hw xs hv.2))
  | .dict ((key, x) :: ms) =>
    exact ascii_cons (by decide) (ascii_append (ascii_quote hw hv.2.1) (ascii_cons (by decide)
      (ascii_append ascii_gap (ascii_append (dumps_ascii hw x hv.2.2.1)
        (dumpsMembers_ascii hw ms hv.2.2.2)))))

theorem dumpsItems_ascii (hw : w.ensureAscii = true) (vs : List (Value F)) (hvs : WfItems vs) :
    Ascii (dumpsItems N w vs) := by
  match vs with
  | [] => exact ascii_cons (by decide) fun _ h => (nomatch h)
  | v :: vs =>
    exact ascii_cons (by decide) (ascii_append ascii_gap (ascii_append (dumps_ascii hw v hvs.1)
      (dumpsItems_ascii hw vs hvs.2)))

theorem dumpsMembers_ascii (hw : w.ensureAscii = true) (ms : List (Text × Value F))
    (hms : WfMembers ms) : Ascii (dumpsMembers N w ms) := by
  match ms with
  | [] => exact ascii_cons (by decide) fun _ h => (nomatch h)
  | (key, v) :: ms =>
    exact ascii_cons (by decide) (ascii_append ascii_gap (ascii_append (ascii_quote hw hms.1)
      (ascii_cons (by decide) (ascii_append ascii_gap (ascii_append (dumps_ascii hw v hms.2.1)
        (dumpsMembers_ascii hw ms hms.2.2))))))

end

/-! ## What is read is well formed -/

/-- A text without surrogates. -/
def Plain (text : Text) : Prop := ∀ c ∈ text, c < 0x110000 ∧ isHigh c = false ∧ isLow c = false

theorem Plain.of_suffix {text rest : Text} (h : Plain text) (hs : rest <:+ text) : Plain rest :=
  fun c hc => h c (hs.subset hc)

theorem suffix_skipWs (text : Text) : skipWs text <:+ text := List.dropWhile_suffix _

theorem suffix_token {c : ℕ} {text rest : Text} (h : token c text = some rest) : rest <:+ text := by
  rw [token] at h
  cases hskip : skipWs text with
  | nil =>
    rw [hskip] at h
    exact absurd h nofun
  | cons d tail =>
    rw [hskip] at h
    have hif : (if d = c then some tail else none) = some rest := h
    split_ifs at hif
    have hsuffix := suffix_skipWs text
    rw [hskip, Option.some.inj hif] at hsuffix
    exact (List.suffix_cons d rest).trans hsuffix

theorem hexValue_lt {c n : ℕ} (h : hexValue c = some n) : n < 16 := by
  rw [hexValue] at h
  split_ifs at h
  all_goals
    have hn := Option.some.inj h
    omega

theorem hex4_spec {text rest : Text} {u : ℕ} (h : hex4 text = some (u, rest)) :
    u < 0x10000 ∧ rest <:+ text := by
  rw [hex4.eq_def] at h
  split at h
  · rename_i a b c d tail
    split at h
    · rename_i ha hb hc hd
      have hlt := hexValue_lt ha
      have hlt := hexValue_lt hb
      have hlt := hexValue_lt hc
      have hlt := hexValue_lt hd
      obtain ⟨rfl, rfl⟩ := Prod.mk.inj (Option.some.inj h)
      refine ⟨by omega, ?_⟩
      exact (List.suffix_append [a, b, c, d] tail)
    · exact absurd h nofun
  · exact absurd h nofun

theorem scanLow_spec {text rest : Text} {lo : ℕ} (h : scanLow text = some (lo, rest)) :
    isLow lo = true ∧ rest <:+ text := by
  rw [scanLow.eq_def] at h
  split at h
  · rename_i tail
    split at h
    · rename_i u rest' hhex
      split_ifs at h with hlow
      obtain ⟨rfl, rfl⟩ := Prod.mk.inj (Option.some.inj h)
      exact ⟨hlow, (hex4_spec hhex).2.trans (List.suffix_append [92, 117] tail)⟩
    · exact absurd h nofun
  · exact absurd h nofun

/-- What an escape can stand for. -/
inductive Escaped (text rest : Text) (e : ℕ) : Prop where
  | char (hc : isHigh e = false) (hlow : isLow e = false)
  | high (h : scanLow rest = none) (hlow : isLow e = false)
  | low (h : scanLow (92 :: text) ≠ none) (hc : isHigh e = false)

theorem unescape_lt {c e : ℕ} (h : unescape c = some e) : e < 128 := by
  obtain ⟨l, r, hl, -⟩ := List.lookup_eq_some_iff.mp h
  have hmem : (c, e) ∈ [(34, 34), (92, 92), (47, 47), (98, 8), (102, 12), (110, 10), (114, 13), (116, 9)] := by
    rw [hl]
    simp
  have hall : ∀ p ∈ [(34, 34), (92, 92), (47, 47), (98, 8), (102, 12), (110, 10), (114, 13), (116, 9)],
      p.2 < 128 := by decide
  exact hall _ hmem

theorem char_of_lt {c : ℕ} (h : c < 0xD800) : isHigh c = false ∧ isLow c = false := by
  simp only [isHigh, isLow, Bool.and_eq_false_iff, decide_eq_false_iff_not]
  omega

theorem scanEscape_spec {text rest : Text} {e : ℕ} (h : scanEscape text = some (e, rest)) :
    e < 0x110000 ∧ rest <:+ text ∧ Escaped text rest e := by
  cases text with
  | nil => exact absurd h nofun
  | cons c text =>
    rw [scanEscape] at h
    split_ifs at h with hc
    · subst hc
      cases hhex : hex4 text with
      | none =>
        rw [hhex] at h
        exact absurd h nofun
      | some r =>
        obtain ⟨u, tail⟩ := r
        rw [hhex] at h
        dsimp only at h
        obtain ⟨hu, htail⟩ := hex4_spec hhex
        have hsuffix : tail <:+ 117 :: text := htail.trans (List.suffix_cons 117 text)
        split_ifs at h with hhigh
        · cases hscan : scanLow tail with
          | none =>
            rw [hscan] at h
            obtain ⟨rfl, rfl⟩ := Prod.mk.inj (Option.some.inj h)
            refine ⟨by omega, hsuffix, .high hscan ?_⟩
            rw [isHigh_iff] at hhigh
            rw [Bool.eq_false_iff, ne_eq, isLow_iff]
            omega
          | some r =>
            obtain ⟨lo, tail'⟩ := r
            rw [hscan] at h
            obtain ⟨hlow, htail'⟩ := scanLow_spec hscan
            obtain ⟨rfl, rfl⟩ := Prod.mk.inj (Option.some.inj h)
            rw [isHigh_iff] at hhigh
            rw [isLow_iff] at hlow
            refine ⟨by unfold join; omega, htail'.trans hsuffix, .char ?_ ?_⟩
            · rw [Bool.eq_false_iff, ne_eq, isHigh_iff]
              unfold join
              omega
            · rw [Bool.eq_false_iff, ne_eq, isLow_iff]
              unfold join
              omega
        · obtain ⟨rfl, rfl⟩ := Prod.mk.inj (Option.some.inj h)
          refine ⟨by omega, hsuffix, ?_⟩
          have hnot : isHigh u = false := Bool.eq_false_iff.mpr hhigh
          cases hlow : isLow u with
          | false => exact .char hnot hlow
          | true =>
            refine .low ?_ hnot
            rw [scanLow, hhex]
            dsimp only
            rw [if_pos hlow]
            exact nofun
    · obtain ⟨e', he, heq⟩ := Option.map_eq_some_iff.mp h
      obtain ⟨rfl, rfl⟩ := Prod.mk.inj heq
      have hlt := unescape_lt he
      have hchar := char_of_lt (show e' < 0xD800 by omega)
      exact ⟨by omega, List.suffix_cons c text, .char hchar.1 hchar.2⟩

theorem isStr_nil : IsStr [] := ⟨fun _ h => (nomatch h), .nil⟩

/-- A string that is read is one, and it starts with a low surrogate only where the escape
of one stands. -/
theorem scanString_spec {n : ℕ} {text s rest : Text} (h : scanString n text = some (s, rest))
    (hplain : Plain text) :
    IsStr s ∧ rest <:+ text ∧ (scanLow text = none → ∀ c ∈ s.head?, isLow c = false) := by
  induction n generalizing text s rest with
  | zero => exact absurd h nofun
  | succ n ih =>
    cases text with
    | nil => exact absurd h nofun
    | cons c text =>
      have hcons : ∀ {e : ℕ} {s' : Text}, e < 0x110000 → IsStr s' →
          (isHigh e = true → ∀ d ∈ s'.head?, isLow d = false) → IsStr (e :: s') := by
        intro e s' he hs' hnext
        refine ⟨List.forall_mem_cons.mpr ⟨he, hs'.range⟩, List.isChain_cons.mpr ⟨?_, hs'.unpaired⟩⟩
        intro d hd hpair
        exact absurd hpair.2 (by rw [hnext hpair.1 d hd]; decide)
      rw [scanString] at h
      split_ifs at h with hquote hslash hctrl
      · obtain ⟨rfl, rfl⟩ := Prod.mk.inj (Option.some.inj h)
        exact ⟨isStr_nil, List.suffix_cons c text, fun _ _ hd => nomatch hd⟩
      · subst hslash
        cases hesc : scanEscape text with
        | none =>
          rw [hesc] at h
          exact absurd h nofun
        | some r =>
          obtain ⟨e, tail⟩ := r
          rw [hesc] at h
          obtain ⟨⟨s', rest'⟩, hscan, heq⟩ := Option.map_eq_some_iff.mp h
          obtain ⟨rfl, rfl⟩ := Prod.mk.inj heq
          obtain ⟨he, htail, hkind⟩ := scanEscape_spec hesc
          have hsuffix : tail <:+ 92 :: text := htail.trans (List.suffix_cons 92 text)
          obtain ⟨hs', hrest, hhead⟩ := ih hscan (hplain.of_suffix hsuffix)
          refine ⟨hcons he hs' ?_, hrest.trans hsuffix, ?_⟩
          · intro hhigh d hd
            cases hkind with
            | char hc _ => exact absurd hhigh (by rw [hc]; decide)
            | high hlow _ => exact hhead hlow d hd
            | low _ hc => exact absurd hhigh (by rw [hc]; decide)
          · intro hnone d hd
            obtain rfl : e = d := Option.some.inj hd
            cases hkind with
            | char _ hlow => exact hlow
            | high _ hlow => exact hlow
            | low hlow _ => exact absurd hnone hlow
      · obtain ⟨⟨s', rest'⟩, hscan, heq⟩ := Option.map_eq_some_iff.mp h
        obtain ⟨rfl, rfl⟩ := Prod.mk.inj heq
        have hc := hplain c List.mem_cons_self
        obtain ⟨hs', hrest, -⟩ := ih hscan (hplain.of_suffix (List.suffix_cons c text))
        refine ⟨hcons hc.1 hs' ?_, hrest.trans (List.suffix_cons c text), ?_⟩
        · exact fun hhigh => absurd hhigh (by rw [hc.2.1]; decide)
        · intro _ d hd
          obtain rfl : c = d := Option.some.inj hd
          exact hc.2.2

theorem suffix_atom {N : Floats F} {text rest : Text} {v : Value F} (h : atom N text = some (v, rest)) :
    v.Wf ∧ rest <:+ text := by
  rw [atom] at h
  cases hname : (names N).find? fun name => name.1.isPrefixOf text with
  | some name =>
    rw [hname] at h
    obtain ⟨rfl, rfl⟩ := Prod.mk.inj (Option.some.inj h)
    have hmem := List.mem_of_find?_eq_some hname
    refine ⟨?_, List.drop_suffix _ _⟩
    simp only [names, List.mem_cons, List.not_mem_nil, or_false] at hmem
    rcases hmem with rfl | rfl | rfl | rfl | rfl | rfl <;> exact trivial
  | none =>
    rw [hname] at h
    obtain ⟨v', hnum, heq⟩ := Option.map_eq_some_iff.mp h
    obtain ⟨rfl, rfl⟩ := Prod.mk.inj heq
    refine ⟨?_, List.drop_suffix _ _⟩
    rw [number] at hnum
    split_ifs at hnum
    · exact Option.some.inj hnum ▸ trivial
    · exact Option.some.inj hnum ▸ trivial

theorem wfMembers_iff {ms : List (Text × Value F)} :
    WfMembers ms ↔ ∀ m ∈ ms, IsStr m.1 ∧ m.2.Wf := by
  induction ms with
  | nil => simp [WfMembers]
  | cons m ms ih => rw [WfMembers, ih, List.forall_mem_cons, and_assoc]

theorem wfItems_iff {vs : List (Value F)} : WfItems vs ↔ ∀ v ∈ vs, v.Wf := by
  induction vs with
  | nil => simp [WfItems]
  | cons v vs ih => rw [WfItems, ih, List.forall_mem_cons]

theorem nodup_setItem {α : Type} {acc : List (Text × α)} (h : (acc.map Prod.fst).Nodup)
    (key : Text) (v : α) : ((setItem acc key v).map Prod.fst).Nodup := by
  by_cases hmem : key ∈ acc.map Prod.fst
  · have hany : (acc.any (·.1 = key)) = true := by
      obtain ⟨m, hm, heq⟩ := List.mem_map.mp hmem
      exact List.any_eq_true.mpr ⟨m, hm, decide_eq_true heq⟩
    have hkeys : (acc.map fun m => if m.1 = key then (key, v) else m).map Prod.fst =
        acc.map Prod.fst := by
      rw [List.map_map]
      refine List.map_congr_left fun m _ => ?_
      show (if m.1 = key then (key, v) else m).1 = m.1
      split_ifs with heq
      · exact heq.symm
      · rfl
    rw [setItem, if_pos hany, hkeys]
    exact h
  · rw [setItem_new hmem, List.map_append, List.nodup_append]
    refine ⟨h, List.nodup_singleton key, ?_⟩
    intro k hk k' hk'
    obtain rfl : k' = key := List.mem_singleton.mp hk'
    exact fun heq => hmem (heq ▸ hk)

/-- The members read so far. -/
structure WfAcc (acc : List (Text × Value F)) : Prop where
  nodup : (acc.map Prod.fst).Nodup
  members : WfMembers acc

theorem wfAcc_nil : WfAcc ([] : List (Text × Value F)) := ⟨List.nodup_nil, trivial⟩

theorem WfAcc.setItem {acc : List (Text × Value F)} (h : WfAcc acc) {key : Text} {v : Value F}
    (hkey : IsStr key) (hv : v.Wf) : WfAcc (setItem acc key v) := by
  have hacc := wfMembers_iff.mp h.members
  refine ⟨nodup_setItem h.nodup key v, wfMembers_iff.mpr fun m hm => ?_⟩
  rw [JsonCodec.setItem] at hm
  split at hm
  · obtain ⟨m', hm', rfl⟩ := List.mem_map.mp hm
    split_ifs
    · exact ⟨hkey, hv⟩
    · exact hacc m' hm'
  · rcases List.mem_append.mp hm with hm | hm
    · exact hacc m hm
    · exact List.mem_singleton.mp hm ▸ ⟨hkey, hv⟩

mutual

theorem value_wf {n : ℕ} {text rest : Text} {v : Value F} (hplain : Plain text)
    (h : value N n text = some (v, rest)) : v.Wf ∧ rest <:+ text := by
  match n, text with
  | 0, _ => exact absurd h nofun
  | _ + 1, [] => exact absurd h nofun
  | n + 1, c :: text =>
    have htext : Plain text := hplain.of_suffix (List.suffix_cons c text)
    rw [value] at h
    split_ifs at h with hquote hbrace hbracket
    · obtain ⟨⟨s, rest'⟩, hscan, heq⟩ := Option.map_eq_some_iff.mp h
      obtain ⟨rfl, rfl⟩ := Prod.mk.inj heq
      obtain ⟨hs, hrest, -⟩ := scanString_spec hscan htext
      exact ⟨hs, hrest.trans (List.suffix_cons c text)⟩
    · cases htoken : token 125 text with
      | some tail =>
        rw [htoken] at h
        obtain ⟨rfl, rfl⟩ := Prod.mk.inj (Option.some.inj h)
        exact ⟨⟨List.nodup_nil, trivial⟩, (suffix_token htoken).trans (List.suffix_cons c text)⟩
      | none =>
        rw [htoken] at h
        obtain ⟨⟨ms, rest'⟩, hmem, heq⟩ := Option.map_eq_some_iff.mp h
        obtain ⟨rfl, rfl⟩ := Prod.mk.inj heq
        obtain ⟨hms, hrest⟩ := members_wf htext wfAcc_nil hmem
        exact ⟨⟨hms.nodup, hms.members⟩, hrest.trans (List.suffix_cons c text)⟩
    · cases htoken : token 93 text with
      | some tail =>
        rw [htoken] at h
        obtain ⟨rfl, rfl⟩ := Prod.mk.inj (Option.some.inj h)
        exact ⟨trivial, (suffix_token htoken).trans (List.suffix_cons c text)⟩
      | none =>
        rw [htoken] at h
        obtain ⟨⟨vs, rest'⟩, hitems, heq⟩ := Option.map_eq_some_iff.mp h
        obtain ⟨rfl, rfl⟩ := Prod.mk.inj heq
        obtain ⟨hvs, hrest⟩ := items_wf htext hitems
        exact ⟨hvs, hrest.trans (List.suffix_cons c text)⟩
    · exact suffix_atom h
termination_by n

theorem members_wf {n : ℕ} {text rest : Text} {acc ms : List (Text × Value F)} (hplain : Plain text)
    (hacc : WfAcc acc) (h : members N n text acc = some (ms, rest)) : WfAcc ms ∧ rest <:+ text := by
  match n with
  | 0 => exact absurd h nofun
  | n + 1 =>
    rw [members] at h
    obtain ⟨text₁, h₁, h⟩ := Option.bind_eq_some_iff.mp h
    obtain ⟨⟨key, text₂⟩, h₂, h⟩ := Option.bind_eq_some_iff.mp h
    obtain ⟨text₃, h₃, h⟩ := Option.bind_eq_some_iff.mp h
    obtain ⟨⟨v, text₄⟩, h₄, h⟩ := Option.bind_eq_some_iff.mp h
    have hs₁ := suffix_token h₁
    obtain ⟨hkey, hs₂, -⟩ := scanString_spec h₂ (hplain.of_suffix hs₁)
    have hs₃ := (suffix_token h₃).trans (hs₂.trans hs₁)
    have hskip := (suffix_skipWs text₃).trans hs₃
    obtain ⟨hv, hs₄⟩ := value_wf (hplain.of_suffix hskip) h₄
    have hset := hacc.setItem hkey hv
    have hsuffix := hs₄.trans hskip
    cases htoken : token 44 text₄ with
    | some tail =>
      have hrec : members N n tail (setItem acc key v) = some (ms, rest) := by
        simpa only [htoken] using h
      have htail := (suffix_token htoken).trans hsuffix
      obtain ⟨hms, hrest⟩ := members_wf (hplain.of_suffix htail) hset hrec
      exact ⟨hms, hrest.trans htail⟩
    | none =>
      have hend : (token 125 text₄ >>= fun rest => some (setItem acc key v, rest)) = some (ms, rest) := by
        simpa only [htoken] using h
      obtain ⟨tail, htail, heq⟩ := Option.bind_eq_some_iff.mp hend
      obtain ⟨rfl, rfl⟩ := Prod.mk.inj (Option.some.inj heq)
      exact ⟨hset, (suffix_token htail).trans hsuffix⟩
termination_by n

theorem items_wf {n : ℕ} {text rest : Text} {vs : List (Value F)} (hplain : Plain text)
    (h : items N n text = some (vs, rest)) : WfItems vs ∧ rest <:+ text := by
  match n with
  | 0 => exact absurd h nofun
  | n + 1 =>
    rw [items] at h
    obtain ⟨⟨v, text₁⟩, h₁, h⟩ := Option.bind_eq_some_iff.mp h
    have hskip := suffix_skipWs text
    obtain ⟨hv, hs₁⟩ := value_wf (hplain.of_suffix hskip) h₁
    have hsuffix := hs₁.trans hskip
    cases htoken : token 44 text₁ with
    | some tail =>
      have hmore : (items N n tail >>= fun r => some (v :: r.1, r.2)) = some (vs, rest) := by
        simpa only [htoken] using h
      obtain ⟨⟨vs', rest'⟩, hitems, heq⟩ := Option.bind_eq_some_iff.mp hmore
      obtain ⟨rfl, rfl⟩ := Prod.mk.inj (Option.some.inj heq)
      have htail := (suffix_token htoken).trans hsuffix
      obtain ⟨hvs, hrest⟩ := items_wf (hplain.of_suffix htail) hitems
      exact ⟨⟨hv, hvs⟩, hrest.trans htail⟩
    | none =>
      have hend : (token 93 text₁ >>= fun rest => some ([v], rest)) = some (vs, rest) := by
        simpa only [htoken] using h
      obtain ⟨tail, htail, heq⟩ := Option.bind_eq_some_iff.mp hend
      obtain ⟨rfl, rfl⟩ := Prod.mk.inj (Option.some.inj heq)
      exact ⟨⟨hv, trivial⟩, (suffix_token htail).trans hsuffix⟩
termination_by n

end

/-- What is read from a text without surrogates is well formed. -/
theorem read_wf {text : Text} {v : Value F} (hplain : Plain text) (h : read N text = some v) :
    v.Wf := by
  obtain ⟨⟨v', rest⟩, hvalue, hrest⟩ := Option.bind_eq_some_iff.mp h
  have hwf := (value_wf N (hplain.of_suffix (suffix_skipWs text)) hvalue).1
  dsimp only at hrest
  split_ifs at hrest
  exact Option.some.inj hrest ▸ hwf

end AflNv.Lib.JsonCodec
