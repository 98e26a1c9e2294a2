import AflNv.Lib.JsonCodec
import AflNv.Lib.Utf8

/-!
# Percent encoding

`quote(text, safe="")`, `quote_plus` and their inverse.  A text is encoded as UTF-8; letters, digits
and `_.-~` stand for themselves, every other byte is a `%` with two digits, and `quotePlus` writes
`+` for a blank.

* `unquoteBytes_quote` and `unquotePlusBytes_quotePlus` read the bytes of the text back.
* `mem_quote` and `mem_quotePlus` say which characters occur, so that none of them is taken for
  a separator.
-/

namespace AflNv.Lib.Percent

open AflNv.Lib.JsonCodec (hexValue)

abbrev Text := List ℕ

/-- A character that stands for itself. -/
def unreserved (c : ℕ) : Bool :=
  (48 ≤ c && c ≤ 57) || (65 ≤ c && c ≤ 90) || (97 ≤ c && c ≤ 122) || c = 45 || c = 46 || c = 95 ||
    c = 126

def hexDigit (n : ℕ) : ℕ := if n < 10 then 48 + n else 55 + n

def quoteByte (b : UInt8) : Text :=
  if unreserved b.toNat then [b.toNat] else [37, hexDigit (b.toNat / 16), hexDigit (b.toNat % 16)]

/-- `quote(text, safe="")` of a text that UTF-8 encodes. -/
def quote (text : Text) : Text := (Utf8.encode text).flatMap quoteByte

def quoteBytePlus (b : UInt8) : Text := if b.toNat = 32 then [43] else quoteByte b

/-- `quote_plus(text, safe="")` of a text that UTF-8 encodes. -/
def quotePlus (text : Text) : Text := (Utf8.encode text).flatMap quoteBytePlus

/-- The bytes that a quoted text stands for.  A `%` without two digits stands for itself. -/
def unquoteBytes : Text → List UInt8
  | 37 :: a :: b :: rest =>
    match hexValue a, hexValue b with
    | some x, some y => UInt8.ofNat (x * 16 + y) :: unquoteBytes rest
    | _, _ => 37 :: unquoteBytes (a :: b :: rest)
  | c :: rest => Utf8.encode1 c ++ unquoteBytes rest
  | [] => []

/-- The bytes of a text whose blanks are written as `+`. -/
def unquotePlusBytes (text : Text) : List UInt8 :=
  unquoteBytes (text.map fun c => if c = 43 then 32 else c)

theorem unreserved_iff {c : ℕ} : unreserved c = true ↔ (48 ≤ c ∧ c ≤ 57) ∨ (65 ≤ c ∧ c ≤ 90) ∨
    (97 ≤ c ∧ c ≤ 122) ∨ c = 45 ∨ c = 46 ∨ c = 95 ∨ c = 126 := by
  simp [unreserved, or_assoc]

theorem hexValue_hexDigit {n : ℕ} (h : n < 16) : hexValue (hexDigit n) = some n := by
  interval_cases n <;> rfl

theorem unreserved_hexDigit {n : ℕ} (h : n < 16) : unreserved (hexDigit n) = true := by
  rw [unreserved_iff, hexDigit]
  split_ifs <;> omega

/-! ## What is written -/

theorem mem_quoteByte {b : UInt8} {c : ℕ} (h : c ∈ quoteByte b) : unreserved c = true ∨ c = 37 := by
  have hb := b.toNat_lt
  unfold quoteByte at h
  split_ifs at h with hfree
  · exact .inl (List.mem_singleton.mp h ▸ hfree)
  · rcases List.mem_cons.mp h with rfl | h
    · exact .inr rfl
    rcases List.mem_cons.mp h with rfl | h
    · exact .inl (unreserved_hexDigit (by omega))
    · exact .inl (List.mem_singleton.mp h ▸ unreserved_hexDigit (by omega))

theorem mem_quote {text : Text} {c : ℕ} (h : c ∈ quote text) : unreserved c = true ∨ c = 37 := by
  obtain ⟨b, -, hc⟩ := List.mem_flatMap.mp h
  exact mem_quoteByte hc

theorem mem_quotePlus {text : Text} {c : ℕ} (h : c ∈ quotePlus text) :
    unreserved c = true ∨ c = 37 ∨ c = 43 := by
  obtain ⟨b, -, hc⟩ := List.mem_flatMap.mp h
  unfold quoteBytePlus at hc
  split_ifs at hc
  · exact .inr (.inr (List.mem_singleton.mp hc))
  · exact (mem_quoteByte hc).imp_right .inl

/-! ## Reading back -/

theorem unquoteBytes_cons {c : ℕ} (h : c ≠ 37) (rest : Text) :
    unquoteBytes (c :: rest) = Utf8.encode1 c ++ unquoteBytes rest := by
  rw [unquoteBytes]
  exact fun _ _ _ hc _ => h hc

theorem unquoteBytes_ascii {c : ℕ} (h : c ≠ 37) (hc : c < 128) (rest : Text) :
    unquoteBytes (c :: rest) = UInt8.ofNat c :: unquoteBytes rest := by
  rw [unquoteBytes_cons h, Utf8.encode1_ascii hc]
  rfl

theorem unquoteBytes_quoteByte (b : UInt8) (rest : Text) :
    unquoteBytes (quoteByte b ++ rest) = b :: unquoteBytes rest := by
  have hb := b.toNat_lt
  rw [quoteByte]
  split_ifs with hfree
  · rw [unreserved_iff] at hfree
    rw [List.singleton_append, unquoteBytes_ascii (by omega) (by omega), UInt8.ofNat_toNat]
  · show unquoteBytes (37 :: hexDigit (b.toNat / 16) :: hexDigit (b.toNat % 16) :: rest) = _
    have hval : b.toNat / 16 * 16 + b.toNat % 16 = b.toNat := by omega
    rw [unquoteBytes, hexValue_hexDigit (by omega), hexValue_hexDigit (by omega)]
    dsimp only
    rw [hval, UInt8.ofNat_toNat]

theorem unquoteBytes_quote (text : Text) : unquoteBytes (quote text) = Utf8.encode text := by
  rw [quote]
  induction Utf8.encode text with
  | nil => rfl
  | cons b bs ih => rw [List.flatMap_cons, unquoteBytes_quoteByte, ih]

theorem map_plus_quoteByte (b : UInt8) :
    ((quoteByte b).map fun c => if c = 43 then 32 else c) = quoteByte b := by
  have hkeep : ∀ c ∈ quoteByte b, (if c = 43 then 32 else c) = id c := by
    intro c hc
    refine if_neg ?_
    rintro rfl
    rcases mem_quoteByte hc with h | h
    · exact absurd h (by decide)
    · exact absurd h (by decide)
  rw [List.map_congr_left hkeep, List.map_id]

theorem unquoteBytes_quoteBytePlus (b : UInt8) (rest : Text) :
    unquoteBytes (((quoteBytePlus b).map fun c => if c = 43 then 32 else c) ++ rest) =
      b :: unquoteBytes rest := by
  rw [quoteBytePlus]
  split_ifs with hblank
  · have hb : b = 32 := UInt8.toNat_inj.mp hblank
    show unquoteBytes (32 :: rest) = _
    rw [unquoteBytes_ascii (by decide) (by decide), hb]
    rfl
  · rw [map_plus_quoteByte, unquoteBytes_quoteByte]

theorem unquotePlusBytes_quotePlus (text : Text) :
    unquotePlusBytes (quotePlus text) = Utf8.encode text := by
  rw [quotePlus, unquotePlusBytes]
  induction Utf8.encode text with
  | nil => rfl
  | cons b bs ih => rw [List.flatMap_cons, List.map_append, unquoteBytes_quoteBytePlus, ih]

end AflNv.Lib.Percent
