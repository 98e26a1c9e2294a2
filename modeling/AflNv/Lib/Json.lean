import Mathlib.Data.List.Induction
import Mathlib.Data.Int.Notation

/-!
# Reading JSON

A reader of JSON texts in ASCII, without the escapes `\u`.  A number token is
an integer or a float by its form; what the two stand for is a parameter, since
it belongs to the program that reads.  A repeated key overwrites the member.

* `read` reads a whole text, `value` the value at the front of one.
* `Reads text v` says that `text` is read as `v` wherever a document has it.
  There is one lemma for each form of value; `reads_dict` builds an object
  from its members.
-/

namespace AflNv.Lib.Json

abbrev Text := List UInt8

/-- A JSON value; `F` holds the numbers that are not integers. -/
inductive Value (F : Type) where
  | null
  | bool (b : Bool)
  | int (i : ℤ)
  | float (x : F)
  | str (s : Text)
  | list (items : List (Value F))
  | dict (members : List (Text × Value F))

/-- What the number tokens stand for. -/
structure Numbers (F : Type) where
  int : Text → ℤ
  float : Text → F

variable {F : Type}

/-! ## Tokens -/

def isWs (b : UInt8) : Bool := b = 32 || b = 9 || b = 10 || b = 13

def skipWs (text : Text) : Text := text.dropWhile isWs

/-- What follows the byte `b`, behind white space. -/
def token (b : UInt8) (text : Text) : Option Text :=
  match skipWs text with
  | [] => none
  | c :: rest => if c = b then some rest else none

/-- What a byte behind a backslash stands for. -/
def unescape (c : UInt8) : Option UInt8 :=
  [(34, 34), (92, 92), (47, 47), (98, 8), (102, 12), (110, 10), (114, 13), (116, 9)].lookup c

/-- The content of a string behind its opening quote, and what follows it. -/
def scanString : Text → Option (Text × Text)
  | [] => none
  | [b] => if b = 34 then some ([], []) else none
  | b :: c :: rest =>
    if b = 34 then some ([], c :: rest)
    else if b = 92 then do
      let e ← unescape c
      let (s, rest) ← scanString rest
      some (e :: s, rest)
    else if b < 32 || 128 ≤ b then none
    else do
      let (s, rest) ← scanString (c :: rest)
      some (b :: s, rest)

def isDigit (b : UInt8) : Bool := 48 ≤ b && b ≤ 57

/-- A byte of a number token: a digit or one of `-`, `+`, `.`, `e` and `E`. -/
def isNumberByte (b : UInt8) : Bool :=
  isDigit b || b = 45 || b = 43 || b = 46 || b = 101 || b = 69

def isDigits (text : Text) : Bool := text ≠ [] && text.all isDigit

/-- `-?(0|[1-9][0-9]*)` -/
def isInt (text : Text) : Bool :=
  let ds := if text.head? = some 45 then text.tail else text
  isDigits ds && (ds.length = 1 || ds.head? ≠ some 48)

/-- `([eE][-+]?[0-9]+)?` -/
def isExponent : Text → Bool
  | [] => true
  | _ :: text =>
    isDigits (if text.head? = some 45 || text.head? = some 43 then text.tail else text)

/-- `(\.[0-9]+)?` -/
def isFraction : Text → Bool
  | [] => true
  | _ :: text => isDigits text

/-- A number with a fraction or an exponent. -/
def isFloat (text : Text) : Bool :=
  let mantissa := text.takeWhile fun b => b ≠ 101 && b ≠ 69
  let whole := mantissa.takeWhile (· ≠ 46)
  isInt whole && isFraction (mantissa.drop whole.length) &&
    isExponent (text.drop mantissa.length)

/-- The value of a whole number token. -/
def number (N : Numbers F) (text : Text) : Option (Value F) :=
  if isInt text then some (.int (N.int text))
  else if isFloat text then some (.float (N.float text))
  else none

/-- The three names. -/
def names : List (Text × Value F) :=
  [([110, 117, 108, 108], .null), ([116, 114, 117, 101], .bool true),
    ([102, 97, 108, 115, 101], .bool false)]

/-- A name or a number at the front of a text. -/
def atom (N : Numbers F) (text : Text) : Option (Value F × Text) :=
  match names.find? fun name => name.1.isPrefixOf text with
  | some (name, v) => some (v, text.drop name.length)
  | none =>
    let tok := text.takeWhile isNumberByte
    (number N tok).map fun v => (v, text.drop tok.length)

/-! ## Values -/

/-- Set the member `key`. -/
def setItem {α : Type} (members : List (Text × α)) (key : Text) (v : α) : List (Text × α) :=
  if members.any (·.1 = key) then members.map fun m => if m.1 = key then (key, v) else m
  else members ++ [(key, v)]

mutual

/-- The value at the front of a text; the first argument bounds the recursion. -/
def value (N : Numbers F) : ℕ → Text → Option (Value F × Text)
  | 0, _ => none
  | _ + 1, [] => none
  | n + 1, b :: rest =>
    if b = 34 then do
      let (s, rest) ← scanString rest
      some (.str s, rest)
    else if b = 123 then
      match token 125 rest with
      | some rest => some (.dict [], rest)
      | none => do
        let (ms, rest) ← members N n rest []
        some (.dict ms, rest)
    else if b = 91 then
      match token 93 rest with
      | some rest => some (.list [], rest)
      | none => do
        let (vs, rest) ← items N n rest
        some (.list vs, rest)
    else atom N (b :: rest)

/-- The members of an object up to its closing brace, added to those read. -/
def members (N : Numbers F) :
    ℕ → Text → List (Text × Value F) → Option (List (Text × Value F) × Text)
  | 0, _, _ => none
  | n + 1, text, acc => do
    let rest ← token 34 text
    let (key, rest) ← scanString rest
    let rest ← token 58 rest
    let (v, rest) ← value N n (skipWs rest)
    match token 44 rest with
    | some rest => members N n rest (setItem acc key v)
    | none => do
      let rest ← token 125 rest
      some (setItem acc key v, rest)

/-- The items of an array up to its closing bracket. -/
def items (N : Numbers F) : ℕ → Text → Option (List (Value F) × Text)
  | 0, _ => none
  | n + 1, text => do
    let (v, rest) ← value N n (skipWs text)
    match token 44 rest with
    | some rest => do
      let (vs, rest) ← items N n rest
      some (v :: vs, rest)
    | none => do
      let rest ← token 93 rest
      some ([v], rest)

end

/-- The value of a whole text. -/
def read (N : Numbers F) (text : Text) : Option (Value F) := do
  let (v, rest) ← value N text.length (skipWs text)
  if skipWs rest = [] then some v else none

/-! ## What is read where -/

/-- What may follow a value in a document: its end, a comma or a closing bracket. -/
def Ends (rest : Text) : Prop := ∀ b ∈ rest.head?, b = 44 ∨ b = 125 ∨ b = 93

/-- The text is read as the value wherever it stands. -/
structure Reads (N : Numbers F) (text : Text) (v : Value F) : Prop where
  head : ∃ b tail, text = b :: tail ∧ isWs b = false
  value_eq : ∀ (n : ℕ) (rest : Text), text.length ≤ n → Ends rest →
    value N n (text ++ rest) = some (v, rest)

/-- A string body that stands for itself. -/
def Plain (s : Text) : Prop := ∀ b ∈ s, 32 ≤ b ∧ b < 128 ∧ b ≠ 34 ∧ b ≠ 92

instance (s : Text) : Decidable (Plain s) :=
  List.decidableBAll (fun b => 32 ≤ b ∧ b < 128 ∧ b ≠ 34 ∧ b ≠ 92) s

theorem skipWs_of_head {b : UInt8} (h : isWs b = false) (rest : Text) :
    skipWs (b :: rest) = b :: rest := by
  rw [skipWs, List.dropWhile_cons_of_neg (by simp [h])]

theorem token_self {b : UInt8} (h : isWs b = false) (rest : Text) :
    token b (b :: rest) = some rest := by
  rw [token, skipWs_of_head h]
  exact if_pos rfl

theorem token_of_ne {b c : UInt8} (h : isWs c = false) (hne : c ≠ b) (rest : Text) :
    token b (c :: rest) = none := by
  rw [token, skipWs_of_head h]
  exact if_neg hne

theorem scanString_plain {s : Text} (h : Plain s) (rest : Text) :
    scanString (s ++ 34 :: rest) = some (s, rest) := by
  induction s with
  | nil =>
    cases rest with
    | nil => rfl
    | cons c rest => rfl
  | cons b s ih =>
    obtain ⟨hlo, hhi, hquote, hback⟩ := h b (by simp)
    have ih := ih fun c hc => h c (List.mem_cons_of_mem b hc)
    obtain ⟨c, tail, hc⟩ : ∃ c tail, s ++ 34 :: rest = c :: tail := by
      cases s with
      | nil => exact ⟨34, rest, rfl⟩
      | cons c s => exact ⟨c, s ++ 34 :: rest, rfl⟩
    rw [hc] at ih
    have hcontrol : ¬ ((b < 32 || 128 ≤ b) = true) := by
      simp only [Bool.or_eq_true, decide_eq_true_eq, not_or, UInt8.not_lt, UInt8.not_le]
      exact ⟨hlo, hhi⟩
    rw [List.cons_append, hc, scanString, if_neg hquote, if_neg hback, if_neg hcontrol, ih]
    rfl

theorem takeWhile_number {text rest : Text} (h : ∀ b ∈ text, isNumberByte b = true)
    (hrest : Ends rest) : (text ++ rest).takeWhile isNumberByte = text := by
  rw [List.takeWhile_append_of_pos h]
  cases rest with
  | nil => simp
  | cons b rest =>
    have hb : isNumberByte b = false := by
      rcases hrest b rfl with rfl | rfl | rfl <;> rfl
    rw [List.takeWhile_cons_of_neg (by simp [hb]), List.append_nil]

/-- A byte of a number starts no string, no object, no array and no name. -/
theorem isNumberByte_ne {b : UInt8} (h : isNumberByte b = true) :
    isWs b = false ∧ b ≠ 34 ∧ b ≠ 123 ∧ b ≠ 91 ∧ b ≠ 110 ∧ b ≠ 116 ∧ b ≠ 102 := by
  refine ⟨?_, ?_, ?_, ?_, ?_, ?_, ?_⟩
  · by_contra hws
    simp only [isWs, Bool.not_eq_false, Bool.or_eq_true, decide_eq_true_eq] at hws
    rcases hws with ((rfl | rfl) | rfl) | rfl <;> exact absurd h (by decide)
  all_goals
    rintro rfl
    exact absurd h (by decide)

theorem reads_number {N : Numbers F} {text : Text} {v : Value F}
    (h : ∀ b ∈ text, isNumberByte b = true) (hv : number N text = some v) : Reads N text v := by
  cases text with
  | nil => exact absurd hv (by simp [number, isInt, isDigits, isFloat])
  | cons b tail =>
    obtain ⟨hws, hquote, hbrace, hbracket, hn, ht, hf⟩ := isNumberByte_ne (h b (by simp))
    refine ⟨⟨b, tail, rfl, hws⟩, ?_⟩
    intro n rest hlen hrest
    cases n with
    | zero => exact absurd hlen (by simp)
    | succ n =>
      have hnames : (names (F := F)).find? (fun name => name.1.isPrefixOf (b :: tail ++ rest)) =
          none := by
        simp [names, List.isPrefixOf, hn.symm, ht.symm, hf.symm]
      rw [List.cons_append, value, if_neg hquote, if_neg hbrace, if_neg hbracket, atom,
        ← List.cons_append, hnames]
      show (number N _).map _ = _
      rw [takeWhile_number h hrest, hv]
      simp

/-! ## Objects -/

/-- The members of an object with its closing brace. -/
def membersText : List (Text × Text) → Text
  | [] => [125]
  | [(key, text)] => 34 :: key ++ 34 :: 58 :: text ++ [125]
  | (key, text) :: m :: ms => 34 :: key ++ 34 :: 58 :: text ++ 44 :: membersText (m :: ms)

/-- An object without white space. -/
def objectText (ms : List (Text × Text)) : Text := 123 :: membersText ms

/-- A key, the text of its value and the value. -/
structure Member (F : Type) where
  key : Text
  text : Text
  value : Value F

/-- The member is read as it should be. -/
def Member.Ok (N : Numbers F) (m : Member F) : Prop := Plain m.key ∧ Reads N m.text m.value

/-- The text of an object with these members. -/
def dictText (ms : List (Member F)) : Text := objectText (ms.map fun m => (m.key, m.text))

/-- The object with these members. -/
def dictOf (ms : List (Member F)) : List (Text × Value F) :=
  ms.foldl (fun acc m => setItem acc m.key m.value) []

theorem setItem_of_notMem {α : Type} {d : List (Text × α)} {key : Text}
    (h : key ∉ d.map Prod.fst) (v : α) : setItem d key v = d ++ [(key, v)] := by
  rw [setItem, if_neg]
  intro hany
  obtain ⟨item, hitem, hkey⟩ := List.any_eq_true.mp hany
  exact h (of_decide_eq_true hkey ▸ List.mem_map_of_mem hitem)

/-- A property of the bytes of an object. -/
theorem forall_mem_dictText {p : UInt8 → Prop} (hpunct : ∀ b ∈ [34, 44, 58, 123, 125], p b)
    {ms : List (Member F)} (hms : ∀ m ∈ ms, (∀ b ∈ m.key, p b) ∧ ∀ b ∈ m.text, p b) :
    ∀ b ∈ dictText ms, p b := by
  have hmembers : ∀ b ∈ membersText (ms.map fun m => (m.key, m.text)), p b := by
    induction ms with
    | nil => exact fun b hb => hpunct b (by simp [membersText] at hb; simp [hb])
    | cons m ms ih =>
      have ih := ih fun k hk => hms k (List.mem_cons_of_mem m hk)
      obtain ⟨hkey, htext⟩ := hms m (by simp)
      have hone : ∀ b ∈ 34 :: m.key ++ 34 :: 58 :: m.text, p b := by
        intro b hb
        simp only [List.cons_append, List.mem_cons, List.mem_append] at hb
        rcases hb with rfl | hb | rfl | rfl | hb
        · exact hpunct _ (by simp)
        · exact hkey b hb
        · exact hpunct _ (by simp)
        · exact hpunct _ (by simp)
        · exact htext b hb
      intro b hb
      cases ms with
      | nil =>
        rcases List.mem_append.mp hb with hb | hb
        · exact hone b hb
        · exact hpunct b (by simp [List.mem_singleton.mp hb])
      | cons m' ms =>
        rcases List.mem_append.mp hb with hb | hb
        · exact hone b hb
        · rcases List.mem_cons.mp hb with rfl | hb
          · exact hpunct _ (by simp)
          · exact ih b hb
  intro b hb
  rcases List.mem_cons.mp hb with rfl | hb
  · exact hpunct _ (by simp)
  · exact hmembers b hb

theorem ends_comma (rest : Text) : Ends (44 :: rest) := by
  intro b hb
  exact .inl (Option.some.inj hb).symm

theorem ends_brace (rest : Text) : Ends (125 :: rest) := by
  intro b hb
  exact .inr (.inl (Option.some.inj hb).symm)

/-- One member is read, up to what follows its value. -/
theorem members_cons {N : Numbers F} {m : Member F} (hm : m.Ok N) {n : ℕ}
    (hn : m.text.length ≤ n) {rest : Text} (hrest : Ends rest) (acc : List (Text × Value F)) :
    members N (n + 1) (34 :: m.key ++ 34 :: 58 :: m.text ++ rest) acc =
      match token 44 rest with
      | some rest => members N n rest (setItem acc m.key m.value)
      | none => (token 125 rest).map fun rest => (setItem acc m.key m.value, rest) := by
  obtain ⟨hkey, hvalue⟩ := hm
  obtain ⟨b, tail, htext, hws⟩ := hvalue.head
  have hskip : skipWs (m.text ++ rest) = m.text ++ rest := by
    rw [htext]
    exact skipWs_of_head hws _
  have hassoc : 34 :: m.key ++ 34 :: 58 :: m.text ++ rest =
      34 :: (m.key ++ 34 :: 58 :: (m.text ++ rest)) := by
    simp only [List.cons_append, List.append_assoc]
  have hcolon : token 58 (58 :: (m.text ++ rest)) = some (m.text ++ rest) := token_self rfl _
  rw [hassoc, members, token_self rfl]
  simp only [Option.bind_eq_bind, Option.bind_some, scanString_plain hkey, hcolon, hskip,
    hvalue.value_eq n rest hn hrest]
  cases token 44 rest with
  | some rest => rfl
  | none => cases token 125 rest <;> rfl

theorem members_dictText {N : Numbers F} (ms : List (Member F)) (hne : ms ≠ [])
    (hms : ∀ m ∈ ms, m.Ok N) (n : ℕ) (rest : Text) (acc : List (Text × Value F))
    (hn : (membersText (ms.map fun m => (m.key, m.text))).length ≤ n) :
    members N n (membersText (ms.map fun m => (m.key, m.text)) ++ rest) acc =
      some (ms.foldl (fun acc m => setItem acc m.key m.value) acc, rest) := by
  induction ms generalizing n acc with
  | nil => exact absurd rfl hne
  | cons m ms ih =>
    have hm := hms m (by simp)
    cases ms with
    | nil =>
      simp only [List.map_cons, List.map_nil, membersText] at hn ⊢
      simp only [List.length_append, List.length_cons, List.length_nil] at hn
      obtain ⟨n, rfl⟩ : ∃ k, n = k + 1 := ⟨n - 1, by omega⟩
      rw [List.append_assoc, List.singleton_append, members_cons hm (by omega) (ends_brace rest),
        token_of_ne rfl (by decide), token_self rfl]
      rfl
    | cons m' ms =>
      simp only [List.map_cons, membersText] at hn ih ⊢
      rw [List.length_append] at hn
      simp only [List.length_append, List.length_cons] at hn
      obtain ⟨n, rfl⟩ : ∃ k, n = k + 1 := ⟨n - 1, by omega⟩
      rw [List.append_assoc]
      show members N (n + 1) (34 :: m.key ++ 34 :: 58 :: m.text ++ 44 :: (_ ++ rest)) acc = _
      rw [members_cons hm (by omega) (ends_comma _), token_self rfl]
      refine ih (by simp) (fun k hk => hms k (List.mem_cons_of_mem m hk)) n _ ?_
      omega

theorem reads_dict {N : Numbers F} {ms : List (Member F)} (hms : ∀ m ∈ ms, m.Ok N) :
    Reads N (dictText ms) (.dict (dictOf ms)) := by
  refine ⟨⟨123, _, rfl, rfl⟩, ?_⟩
  intro n rest hn _
  rw [dictText, objectText, List.length_cons] at hn
  obtain ⟨n, rfl⟩ : ∃ k, n = k + 1 := ⟨n - 1, by omega⟩
  rw [dictText, objectText, List.cons_append, value, if_neg (by decide), if_pos rfl]
  cases ms with
  | nil =>
    have htoken : token 125 (125 :: rest) = some rest := token_self rfl rest
    show (match token 125 (125 :: rest) with
      | some rest => some (Value.dict [], rest)
      | none => (members N n (125 :: rest) []).bind fun m => some (.dict m.1, m.2)) = _
    rw [htoken]
    rfl
  | cons m ms =>
    have hhead : ∃ tail, membersText ((m :: ms).map fun m => (m.key, m.text)) ++ rest =
        34 :: tail := by
      cases ms with
      | nil => exact ⟨_, rfl⟩
      | cons m' ms => exact ⟨_, rfl⟩
    obtain ⟨tail, htail⟩ := hhead
    have htoken : token 125 (membersText ((m :: ms).map fun m => (m.key, m.text)) ++ rest) =
        none := by
      rw [htail, token_of_ne rfl (by decide)]
    rw [htoken]
    show (members N n _ []).bind _ = _
    rw [members_dictText (m :: ms) (by simp) hms n rest [] (by omega)]
    rfl

/-- A document that is one value. -/
theorem read_of_reads {N : Numbers F} {text : Text} {v : Value F} (h : Reads N text v) :
    read N text = some v := by
  obtain ⟨b, tail, htext, hws⟩ := h.head
  have hskip : skipWs text = text := by
    rw [htext]
    exact skipWs_of_head hws _
  have hvalue := h.value_eq text.length [] (Nat.le_refl _) fun b hb => absurd hb (by simp)
  rw [List.append_nil] at hvalue
  rw [read, hskip, hvalue]
  rfl

end AflNv.Lib.Json
