import AflNv.CFormat
import AflNv.Lib.Json
import AflNv.Lib.JsonCodec

/-!
# The Python side

`scripts/run_alfresco_bounded_feedback.py` reads back the files that the fuzzer
writes.  This module holds the Python values its functions work on and what
they use of the standard library.  A `str` is kept as its UTF-8 bytes, a `dict`
as the list of its items in insertion order, and a call that may raise returns
`Except PyError`.

`PyLib` collects what is a parameter: `json.loads`, the decoding and splitting of
texts, `int`, `float` and the arithmetic of floats.  `PyLib.Standard` is what the
audit files rely on: short texts that the JSON reader of `Lib.Json` accepts are loaded as it
reads them, and `int` reads a printed number.
-/

namespace AflNv

open AflNv.Lib

/-- A Python `float`; the finite ones are `R`. -/
inductive PyFloat (R : Type) where
  | finite (x : R)
  | inf (neg : Bool)
  | nan
  deriving DecidableEq

/-- `math.isfinite`. -/
def PyFloat.isfinite {R : Type} : PyFloat R → Bool
  | .finite _ => true
  | _ => false

/-- What `json.loads` returns. -/
abbrev PyJson (R : Type) := Json.Value (PyFloat R)

/-- The exceptions that the audit functions raise or catch. -/
inductive PyError where
  | unicodeDecodeError
  | jsonDecodeError
  | valueError
  | typeError
  | keyError
  | attributeError
  | overflowError
  | recursionError
  | osError
  /-- `http.client.HTTPException`. -/
  | httpException
  | runtimeError (message : Bytes)
  deriving DecidableEq

/-- `except (UnicodeDecodeError, json.JSONDecodeError)`. -/
def PyError.isDecodeError : PyError → Bool
  | .unicodeDecodeError => true
  | .jsonDecodeError => true
  | _ => false

/-- `except ValueError`: the decode errors are value errors. -/
def PyError.isValueError (e : PyError) : Bool := e.isDecodeError || e = .valueError

/-- The parts of the Python library that are parameters of the model. -/
structure PyLib (R : Type) where
  /-- `json.loads` on the bytes of a text.  It raises a decode error, a
  `ValueError` or a `RecursionError`. -/
  jsonLoads : Bytes → Except PyError (PyJson R)
  /-- `json.loads` on a `str`. -/
  jsonLoadsStr : Bytes → Except PyError (PyJson R)
  /-- `data.decode("utf-8")`; `none` is a `UnicodeDecodeError`. -/
  decode : Bytes → Option Bytes
  /-- `data.decode("utf-8", errors="replace")`. -/
  decodeReplace : Bytes → Bytes
  /-- `str.splitlines()`. -/
  strSplitlines : Bytes → List Bytes
  /-- `str.strip()`. -/
  strStrip : Bytes → Bytes
  /-- `int(text)`; `none` is a `ValueError`. -/
  intOfText : Bytes → Option ℤ
  /-- `float(text)`; `none` is a `ValueError`. -/
  floatOfText : Bytes → Option (PyFloat R)
  /-- `float(i)`; `none` is an `OverflowError`. -/
  floatOfInt : ℤ → Option (PyFloat R)
  /-- `0.0`. -/
  zero : R
  /-- `int(x)` of a finite float. -/
  trunc : R → ℤ
  /-- `x == i`. -/
  eqInt : R → ℤ → Bool
  /-- `x > 0`. -/
  isPos : R → Bool
  add : PyFloat R → PyFloat R → PyFloat R
  /-- `math.isclose(x, y, abs_tol=1e-9)`. -/
  isclose : PyFloat R → PyFloat R → Bool

/-- The content of a file, or the class of the `OSError` that reading it raises. -/
abbrev FileRead := Except Bytes Bytes

/-! ## Dictionaries -/

/-- A `dict` with `str` keys. -/
abbrev PyDict (α : Type) := List (Bytes × α)

/-- `set(record) == allowed`. -/
def sameKeys {α : Type} (record : PyDict α) (allowed : List Bytes) : Bool :=
  (record.all fun item => item.1 ∈ allowed) && allowed.all fun key => record.any (·.1 = key)

/-- `record.get(key)`. -/
def getItem {R : Type} (record : PyDict (PyJson R)) (key : String) : PyJson R :=
  (record.lookup (ascii key)).getD .null

/-- `set(keys).issubset(record)`. -/
def hasKeys {α : Type} (record : PyDict α) (keys : List Bytes) : Bool :=
  keys.all fun key => record.any (·.1 = key)

theorem lookup_cons_ite {α β : Type} [DecidableEq α] [BEq α] [LawfulBEq α] (key k : α) (v : β)
    (d : List (α × β)) :
    List.lookup key ((k, v) :: d) = if key = k then some v else List.lookup key d := by
  by_cases h : key = k
  · simp [h]
  · rw [List.lookup_cons, if_neg h, beq_eq_false_iff_ne.mpr h]

/-! ## Operators on values -/

section Operators

variable {R : Type} (L : PyLib R)

/-- `int(v)`. -/
def pyInt : PyJson R → Except PyError ℤ
  | .int i => .ok i
  | .bool b => .ok (if b then 1 else 0)
  | .float (.finite x) => .ok (L.trunc x)
  | .float (.inf _) => .error .overflowError
  | .float .nan => .error .valueError
  | .str s =>
    match L.intOfText s with
    | some i => .ok i
    | none => .error .valueError
  | _ => .error .typeError

/-- `float(v)`. -/
def pyFloat : PyJson R → Except PyError (PyFloat R)
  | .int i =>
    match L.floatOfInt i with
    | some x => .ok x
    | none => .error .overflowError
  | .bool b =>
    match L.floatOfInt (if b then 1 else 0) with
    | some x => .ok x
    | none => .error .overflowError
  | .float x => .ok x
  | .str s =>
    match L.floatOfText s with
    | some x => .ok x
    | none => .error .valueError
  | _ => .error .typeError

/-- `v == i`. -/
def eqInt : PyJson R → ℤ → Bool
  | .int j, i => j = i
  | .bool b, i => (if b then 1 else 0) = i
  | .float (.finite x), i => L.eqInt x i
  | _, _ => false

/-- `bool(v)`. -/
def truthy : PyJson R → Bool
  | .null => false
  | .bool b => b
  | .int i => i ≠ 0
  | .float (.finite x) => !L.eqInt x 0
  | .float _ => true
  | .str s => s ≠ []
  | .list items => !items.isEmpty
  | .dict members => !members.isEmpty

omit L in
/-- `v == text`. -/
def eqStr : PyJson R → Bytes → Bool
  | .str s, text => s = text
  | _, _ => false

omit L in
/-- `v in texts` for a set of strings; lists and dictionaries are not hashable. -/
def inSet : PyJson R → List Bytes → Except PyError Bool
  | .str s, texts => .ok (s ∈ texts)
  | .list _, _ => .error .typeError
  | .dict _, _ => .error .typeError
  | _, _ => .ok false

omit L in
/-- `v is None`. -/
def isNull : PyJson R → Bool
  | .null => true
  | _ => false

omit L in
/-- `try: v except (TypeError, ValueError): None`. -/
def catchValue {α : Type} : Except PyError α → Except PyError (Option α)
  | .ok a => .ok (some a)
  | .error e => if e = .typeError || e.isValueError then .ok none else .error e

end Operators

/-- A `bind` that returns: its first part returned. -/
theorem bind_ok {α β : Type} {x : Except PyError α} {f : α → Except PyError β} {b : β}
    (h : x >>= f = .ok b) : ∃ a, x = .ok a ∧ f a = .ok b := by
  cases x with
  | error e => exact absurd h (by simp [bind, Except.bind])
  | ok a => exact ⟨a, rfl, h⟩

theorem exists_of_map_eq_ok {α β : Type} {x : Except PyError α} {f : α → β} {b : β}
    (h : x.map f = .ok b) : ∃ a, x = .ok a ∧ f a = b := by
  cases x with
  | error e => cases h
  | ok a => exact ⟨a, rfl, Except.ok.inj h⟩

/-! ## Lines -/

def isLineBreak (b : UInt8) : Bool := b = nl || b = 13

/-- `splitlines` behind the bytes `cur` of the current line. -/
def splitlinesFrom : Bytes → Bytes → List Bytes
  | cur, [] => if cur = [] then [] else [cur]
  | cur, [b] => if isLineBreak b then [cur] else [cur ++ [b]]
  | cur, b :: c :: rest =>
    if b = 13 && c = nl then cur :: splitlinesFrom [] rest
    else if isLineBreak b then cur :: splitlinesFrom [] (c :: rest)
    else splitlinesFrom (cur ++ [b]) (c :: rest)

/-- `bytes.splitlines()`. -/
def splitlines (data : Bytes) : List Bytes := splitlinesFrom [] data

/-- `data and not data.endswith(b"\n")`. -/
def hasPartialLine (data : Bytes) : Bool := data ≠ [] && data.getLast? ≠ some nl

/-- `enumerate(lines, 1)`. -/
def numbered (lines : List Bytes) : List (Bytes × ℕ) := lines.zipIdx 1

/-- The file that holds the given lines. -/
def lineFile (bodies : List Bytes) : Bytes := (bodies.map (· ++ [nl])).flatten

@[simp] theorem lineFile_nil : lineFile [] = [] := rfl

theorem lineFile_concat (bodies : List Bytes) (body : Bytes) :
    lineFile (bodies ++ [body]) = lineFile bodies ++ (body ++ [nl]) := by
  simp [lineFile]

/-- A text of one line. -/
def OneLine (body : Bytes) : Prop := ∀ b ∈ body, isLineBreak b = false

instance (body : Bytes) : Decidable (OneLine body) :=
  List.decidableBAll (fun b => isLineBreak b = false) body

theorem splitlinesFrom_body {body : Bytes} (h : OneLine body) (cur : Bytes) {tail : Bytes}
    (hne : tail ≠ []) : splitlinesFrom cur (body ++ tail) = splitlinesFrom (cur ++ body) tail := by
  induction body generalizing cur with
  | nil => rw [List.nil_append, List.append_nil]
  | cons b body ih =>
    have hb : isLineBreak b = false := h b (by simp)
    have hcr : b ≠ 13 := by
      rintro rfl
      exact absurd hb (by decide)
    have ih := ih (fun d hd => h d (List.mem_cons_of_mem b hd)) (cur ++ [b])
    obtain ⟨c, rest, hc⟩ : ∃ c rest, body ++ tail = c :: rest :=
      List.exists_cons_of_ne_nil (by simp [hne])
    rw [hc] at ih
    rw [List.cons_append, hc, splitlinesFrom, if_neg (by simp [hcr]), if_neg (by simp [hb]), ih,
      List.append_assoc]
    rfl

theorem splitlinesFrom_append {body : Bytes} (h : OneLine body) (cur rest : Bytes) :
    splitlinesFrom cur (body ++ nl :: rest) = (cur ++ body) :: splitlinesFrom [] rest := by
  rw [splitlinesFrom_body h cur (List.cons_ne_nil nl rest)]
  cases rest with
  | nil => simp [splitlinesFrom, isLineBreak]
  | cons c rest => simp [splitlinesFrom, isLineBreak, nl]

/-- Reading a file line by line gives the lines that were written. -/
theorem splitlines_lineFile {bodies : List Bytes} (h : ∀ body ∈ bodies, OneLine body) :
    splitlines (lineFile bodies) = bodies := by
  induction bodies with
  | nil => rfl
  | cons body bodies ih =>
    have ih := ih fun b hb => h b (List.mem_cons_of_mem body hb)
    rw [splitlines] at ih ⊢
    rw [lineFile, List.map_cons, List.flatten_cons, List.append_assoc, List.singleton_append,
      splitlinesFrom_append (h body (by simp)), ← lineFile, ih, List.nil_append]

theorem hasPartialLine_lineFile (bodies : List Bytes) : hasPartialLine (lineFile bodies) = false := by
  rcases List.eq_nil_or_concat bodies with rfl | ⟨bodies, body, rfl⟩
  · rfl
  · rw [List.concat_eq_append, lineFile_concat, hasPartialLine, ← List.append_assoc,
      List.getLast?_concat]
    simp

/-! ## The library as the audit files use it -/

/-- The numbers of a JSON text: integers are exact, and a float is what `float`
makes of its text. -/
def PyLib.numbers {R : Type} (L : PyLib R) : Json.Numbers (PyFloat R) where
  int := readInt
  float := fun text => (L.floatOfText text).getD .nan

/-- The number of brackets that a text opens, a bound on its nesting. -/
def openings (text : Bytes) : ℕ := text.countP fun b => b = 91 || b = 123

/-- What the audit files rely on. -/
structure PyLib.Standard {R : Type} (L : PyLib R) : Prop where
  /-- `json.loads` follows the standard, short of the limits of the interpreter on
  the digits of an integer and on the nesting. -/
  jsonLoads_read : ∀ (text : Bytes) (v : PyJson R), text.length < 4096 → openings text ≤ 8 →
    Json.read L.numbers text = some v → L.jsonLoads text = .ok v
  intOfText_showNat : ∀ n : ℕ, L.intOfText (showNat n) = some (n : ℤ)

/-- The library with the reader itself as its `json.loads`. -/
def PyLib.withReader {R : Type} (L : PyLib R) : PyLib R :=
  { L with
    jsonLoads := fun text =>
      match Json.read L.numbers text with
      | some v => .ok v
      | none => .error .jsonDecodeError
    intOfText := fun text => if Json.isInt text then some (readInt text) else none }

/-- A library for texts in ASCII whose floats are natural numbers. -/
def natLib : PyLib ℕ :=
  PyLib.withReader
    { jsonLoads := fun _ => .error .jsonDecodeError
      jsonLoadsStr := fun _ => .error .jsonDecodeError
      decode := some
      decodeReplace := id
      strSplitlines := splitlines
      strStrip := trimSpace
      intOfText := fun _ => none
      floatOfText := fun _ => none
      floatOfInt := fun i => some (.finite i.toNat)
      zero := 0
      trunc := fun n => n
      eqInt := fun n i => (n : ℤ) = i
      isPos := fun n => 0 < n
      add := fun x _ => x
      isclose := fun x y => x = y }

/-! ## Printed numbers are JSON numbers -/

theorem showNat_isDigit {n : ℕ} {b : UInt8} (h : b ∈ showNat n) : Json.isDigit b = true := by
  obtain ⟨hlo, hhi⟩ := showNat_digit h
  rw [Json.isDigit, Bool.and_eq_true, decide_eq_true_eq, decide_eq_true_eq]
  exact ⟨UInt8.le_iff_toNat_le.mpr hlo, UInt8.le_iff_toNat_le.mpr hhi⟩

theorem showNat_ne_nil (n : ℕ) : showNat n ≠ [] := by
  rw [showNat, ne_eq, List.map_eq_nil_iff]
  exact Nat.toDigits_ne_nil

theorem map_showNat (n : ℕ) : (showNat n).map UInt8.toNat = Lib.JsonCodec.showNat n := by
  rw [showNat, Lib.JsonCodec.showNat, List.map_map]
  exact List.map_congr_left fun c hc => (digit_toNat hc).1

theorem showNat_of_le {n : ℕ} (h : 10 ≤ n) :
    showNat n = showNat (n / 10) ++ [UInt8.ofNat (n % 10).digitChar.toNat] := by
  rw [showNat, Nat.toDigits_of_base_le (by decide) h, List.map_append]
  rfl

/-- A positive number is printed without a leading zero. -/
theorem head?_showNat {n : ℕ} (h : 0 < n) : (showNat n).head? ≠ some 48 := by
  induction n using Nat.strong_induction_on with
  | _ n ih =>
    by_cases hn : n < 10
    · interval_cases n <;> decide
    · rw [showNat_of_le (by omega), List.head?_append_of_ne_nil _ (showNat_ne_nil _)]
      exact ih (n / 10) (by omega) (by omega)

theorem isInt_showNat (n : ℕ) : Json.isInt (showNat n) = true := by
  have hdigits : Json.isDigits (showNat n) = true := by
    simp only [Json.isDigits, Bool.and_eq_true, decide_eq_true_eq, List.all_eq_true]
    exact ⟨showNat_ne_nil n, fun b hb => showNat_isDigit hb⟩
  have hsign : (showNat n).head? ≠ some 45 := by
    intro h
    exact absurd (showNat_isDigit (List.mem_of_mem_head? h)) (by decide)
  have hzero : (showNat n).length = 1 ∨ (showNat n).head? ≠ some 48 := by
    rcases Nat.eq_zero_or_pos n with rfl | hn
    · exact .inl (by decide)
    · exact .inr (head?_showNat hn)
  rw [Json.isInt, if_neg hsign, hdigits]
  simpa using hzero

theorem showNat_numberByte (n : ℕ) : ∀ b ∈ showNat n, Json.isNumberByte b = true := by
  intro b hb
  simp [Json.isNumberByte, showNat_isDigit hb]

theorem showInt_numberByte (z : ℤ) : ∀ b ∈ showInt z, Json.isNumberByte b = true := by
  cases z with
  | ofNat n => exact showNat_numberByte n
  | negSucc n =>
    intro b hb
    rcases List.mem_cons.mp hb with rfl | hb
    · rfl
    · exact showNat_numberByte _ b hb

theorem readInt_showNat (n : ℕ) : readInt (showNat n) = (n : ℤ) := readInt_showInt (n : ℤ)

theorem reads_showNat {R : Type} (L : PyLib R) (n : ℕ) :
    Json.Reads L.numbers (showNat n) (.int (n : ℤ)) := by
  refine Json.reads_number (showNat_numberByte n) ?_
  rw [Json.number, if_pos (isInt_showNat n)]
  show some (Json.Value.int (readInt (showNat n))) = _
  rw [readInt_showNat]

/-- A number has no line break. -/
theorem oneLine_of_number {text : Bytes} (h : ∀ b ∈ text, Json.isNumberByte b = true) :
    OneLine text := by
  intro b hb
  by_contra hbreak
  have hbyte := h b hb
  simp only [isLineBreak, Bool.not_eq_false, Bool.or_eq_true, decide_eq_true_eq] at hbreak
  rcases hbreak with rfl | rfl <;> exact absurd hbyte (by decide)

theorem openings_of_number {text : Bytes} (h : ∀ b ∈ text, Json.isNumberByte b = true) :
    openings text = 0 := by
  rw [openings, List.countP_eq_zero]
  intro b hb hopen
  have hbyte := h b hb
  simp only [Bool.or_eq_true, decide_eq_true_eq] at hopen
  rcases hopen with rfl | rfl <;> exact absurd hbyte (by decide)

theorem PyLib.standard_withReader {R : Type} (L : PyLib R) : L.withReader.Standard := by
  refine ⟨?_, ?_⟩
  · intro text v _ _ hread
    have hread : Json.read L.numbers text = some v := hread
    show (match Json.read L.numbers text with
      | some v => .ok v
      | none => .error PyError.jsonDecodeError) = Except.ok v
    rw [hread]
  · intro n
    show (if Json.isInt (showNat n) then some (readInt (showNat n)) else none) = _
    rw [if_pos (isInt_showNat n), readInt_showNat]

end AflNv
