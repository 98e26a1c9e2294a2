import Mathlib.Data.List.Basic
import Mathlib.Tactic.IntervalCases

/-!
# Base64

`encode` writes three bytes as four characters and pads the end with `=`.  `decodeFrom` is the
lenient reader of `binascii.a2b_base64`: it skips what is no character of the alphabet;
`decodeStrict` takes groups of four with the padding in the last one and nothing else.
`decode_encode` and `decodeStrict_encode` are the round trips, `encode_mem` says which characters
are written, and `encode_eq_append` where the padding is.
-/

namespace AflNv.Lib.Base64

/-- The character of six bits. -/
def char (n : ℕ) : UInt8 :=
  if n < 26 then UInt8.ofNat (n + 65)
  else if n < 52 then UInt8.ofNat (n + 71)
  else if n < 62 then UInt8.ofNat (n - 4)
  else if n = 62 then 43
  else 47

/-- The six bits of a character. -/
def value (b : UInt8) : Option ℕ :=
  let n := b.toNat
  if 65 ≤ n ∧ n ≤ 90 then some (n - 65)
  else if 97 ≤ n ∧ n ≤ 122 then some (n - 71)
  else if 48 ≤ n ∧ n ≤ 57 then some (n + 4)
  else if n = 43 then some 62
  else if n = 47 then some 63
  else none

def encode : List UInt8 → List UInt8
  | [] => []
  | [a] => [char (a.toNat / 4), char (a.toNat % 4 * 16), 61, 61]
  | [a, b] =>
    [char (a.toNat / 4), char (a.toNat % 4 * 16 + b.toNat / 16), char (b.toNat % 16 * 4), 61]
  | a :: b :: c :: rest =>
    char (a.toNat / 4) :: char (a.toNat % 4 * 16 + b.toNat / 16) ::
      char (b.toNat % 16 * 4 + c.toNat / 64) :: char (c.toNat % 64) :: encode rest

/-- Read on, with the number of characters of the current group, the bits left of them, and the
number of pads; `none` is an incomplete group. -/
def decodeFrom (quad left pads : ℕ) : List UInt8 → Option (List UInt8)
  | [] => if quad = 0 then some [] else none
  | ch :: rest =>
    if ch = 61 then
      if 2 ≤ quad then
        if 4 ≤ quad + (pads + 1) then some [] else decodeFrom quad left (pads + 1) rest
      else decodeFrom quad left pads rest
    else
      match value ch with
      | none => decodeFrom quad left pads rest
      | some v =>
        match quad with
        | 0 => decodeFrom 1 v 0 rest
        | 1 => (decodeFrom 2 (v % 16) 0 rest).map (UInt8.ofNat (left * 4 + v / 16) :: ·)
        | 2 => (decodeFrom 3 (v % 4) 0 rest).map (UInt8.ofNat (left * 16 + v / 4) :: ·)
        | _ => (decodeFrom 0 0 0 rest).map (UInt8.ofNat (left * 64 + v) :: ·)

/-- `binascii.a2b_base64` -/
def decode (text : List UInt8) : Option (List UInt8) := decodeFrom 0 0 0 text

/-- A character of the alphabet stands for its bits, and is neither a pad nor special in JSON. -/
theorem char_spec : ∀ n < 64, value (char n) = some n ∧ char n ≠ 61 ∧
    32 ≤ (char n).toNat ∧ (char n).toNat ≤ 126 ∧ (char n).toNat ≠ 34 ∧ (char n).toNat ≠ 92 := by
  decide

section Step

variable {n : ℕ} (hn : n < 64) (left pads : ℕ) (rest : List UInt8)

include hn

theorem decodeFrom_first :
    decodeFrom 0 left pads (char n :: rest) = decodeFrom 1 n 0 rest := by
  rw [decodeFrom, if_neg (char_spec n hn).2.1, (char_spec n hn).1]
  rfl

theorem decodeFrom_second : decodeFrom 1 left pads (char n :: rest) =
    (decodeFrom 2 (n % 16) 0 rest).map (UInt8.ofNat (left * 4 + n / 16) :: ·) := by
  rw [decodeFrom, if_neg (char_spec n hn).2.1, (char_spec n hn).1]
  rfl

theorem decodeFrom_third : decodeFrom 2 left pads (char n :: rest) =
    (decodeFrom 3 (n % 4) 0 rest).map (UInt8.ofNat (left * 16 + n / 4) :: ·) := by
  rw [decodeFrom, if_neg (char_spec n hn).2.1, (char_spec n hn).1]
  rfl

theorem decodeFrom_fourth : decodeFrom 3 left pads (char n :: rest) =
    (decodeFrom 0 0 0 rest).map (UInt8.ofNat (left * 64 + n) :: ·) := by
  rw [decodeFrom, if_neg (char_spec n hn).2.1, (char_spec n hn).1]
  rfl

end Step

/-- The two parts of a byte. -/
theorem ofNat_eq {b : UInt8} {n : ℕ} (h : n = b.toNat) : UInt8.ofNat n = b := by
  rw [h, UInt8.ofNat_toNat]

/-- What is encoded is decoded again. -/
theorem decode_encode (data : List UInt8) : decode (encode data) = some data := by
  unfold decode
  induction data using encode.induct with
  | case1 => rfl
  | case2 a =>
    have ha := a.toNat_lt
    rw [encode, decodeFrom_first (by omega), decodeFrom_second (by omega),
      ofNat_eq (b := a) (by omega)]
    rfl
  | case3 a b =>
    have ha := a.toNat_lt
    have hb := b.toNat_lt
    rw [encode, decodeFrom_first (by omega), decodeFrom_second (by omega),
      decodeFrom_third (by omega), ofNat_eq (b := a) (by omega), ofNat_eq (b := b) (by omega)]
    rfl
  | case4 a b c rest ih =>
    have ha := a.toNat_lt
    have hb := b.toNat_lt
    have hc := c.toNat_lt
    rw [encode, decodeFrom_first (by omega), decodeFrom_second (by omega),
      decodeFrom_third (by omega), decodeFrom_fourth (by omega), ih, ofNat_eq (b := a) (by omega),
      ofNat_eq (b := b) (by omega), ofNat_eq (b := c) (by omega)]
    rfl

/-- The characters that are written: printable ASCII without quotes and backslashes. -/
theorem encode_mem {data : List UInt8} {ch : UInt8} (h : ch ∈ encode data) :
    32 ≤ ch.toNat ∧ ch.toNat ≤ 126 ∧ ch.toNat ≠ 34 ∧ ch.toNat ≠ 92 := by
  have hchar {n : ℕ} (hn : n < 64) : 32 ≤ (char n).toNat ∧ (char n).toNat ≤ 126 ∧
      (char n).toNat ≠ 34 ∧ (char n).toNat ≠ 92 := (char_spec n hn).2.2
  have hpad : 32 ≤ (61 : UInt8).toNat ∧ (61 : UInt8).toNat ≤ 126 ∧ (61 : UInt8).toNat ≠ 34 ∧
      (61 : UInt8).toNat ≠ 92 := by decide
  induction data using encode.induct with
  | case1 => cases h
  | case2 a =>
    have ha := a.toNat_lt
    simp only [encode, List.mem_cons, List.not_mem_nil, or_false] at h
    rcases h with rfl | rfl | rfl | rfl
    · exact hchar (by omega)
    · exact hchar (by omega)
    · exact hpad
    · exact hpad
  | case3 a b =>
    have ha := a.toNat_lt
    have hb := b.toNat_lt
    simp only [encode, List.mem_cons, List.not_mem_nil, or_false] at h
    rcases h with rfl | rfl | rfl | rfl
    · exact hchar (by omega)
    · exact hchar (by omega)
    · exact hchar (by omega)
    · exact hpad
  | case4 a b c rest ih =>
    have ha := a.toNat_lt
    have hb := b.toNat_lt
    have hc := c.toNat_lt
    simp only [encode, List.mem_cons] at h
    rcases h with rfl | rfl | rfl | rfl | h
    · exact hchar (by omega)
    · exact hchar (by omega)
    · exact hchar (by omega)
    · exact hchar (by omega)
    · exact ih h

/-! ## Strict reading -/

/-- The three bytes of four characters. -/
def fullGroup (a b c d : UInt8) : Option (List UInt8) := do
  let x ← value a
  let y ← value b
  let z ← value c
  let w ← value d
  some [UInt8.ofNat (x * 4 + y / 16), UInt8.ofNat (y % 16 * 16 + z / 4),
    UInt8.ofNat (z % 4 * 64 + w)]

/-- The bytes of the last four characters; the bits that a pad cuts off are 0. -/
def lastGroup (a b c d : UInt8) : Option (List UInt8) :=
  if d ≠ 61 then fullGroup a b c d
  else if c ≠ 61 then do
    let x ← value a
    let y ← value b
    let z ← value c
    if z % 4 = 0 then some [UInt8.ofNat (x * 4 + y / 16), UInt8.ofNat (y % 16 * 16 + z / 4)]
    else none
  else do
    let x ← value a
    let y ← value b
    if y % 16 = 0 then some [UInt8.ofNat (x * 4 + y / 16)] else none

def decodeStrict : List UInt8 → Option (List UInt8)
  | [] => some []
  | a :: b :: c :: d :: rest =>
    if rest = [] then lastGroup a b c d
    else (fullGroup a b c d).bind fun group => (decodeStrict rest).map (group ++ ·)
  | _ => none

theorem fullGroup_chars {x y z w : ℕ} (hx : x < 64) (hy : y < 64) (hz : z < 64) (hw : w < 64) :
    fullGroup (char x) (char y) (char z) (char w) = some [UInt8.ofNat (x * 4 + y / 16),
      UInt8.ofNat (y % 16 * 16 + z / 4), UInt8.ofNat (z % 4 * 64 + w)] := by
  rw [fullGroup, (char_spec x hx).1, (char_spec y hy).1, (char_spec z hz).1, (char_spec w hw).1]
  rfl

/-- What is encoded is accepted by the strict reader too. -/
theorem decodeStrict_encode (data : List UInt8) : decodeStrict (encode data) = some data := by
  induction data using encode.induct with
  | case1 => rfl
  | case2 a =>
    have ha := a.toNat_lt
    rw [encode, decodeStrict, if_pos rfl, lastGroup, if_neg (by decide), if_neg (by decide),
      (char_spec (a.toNat / 4) (by omega)).1, (char_spec (a.toNat % 4 * 16) (by omega)).1]
    show (if a.toNat % 4 * 16 % 16 = 0 then _ else none) = some [a]
    rw [if_pos (by omega), ofNat_eq (b := a) (by omega)]
  | case3 a b =>
    have ha := a.toNat_lt
    have hb := b.toNat_lt
    have hthird := char_spec (b.toNat % 16 * 4) (by omega)
    rw [encode, decodeStrict, if_pos rfl, lastGroup, if_neg (by decide), if_pos hthird.2.1,
      (char_spec (a.toNat / 4) (by omega)).1,
      (char_spec (a.toNat % 4 * 16 + b.toNat / 16) (by omega)).1, hthird.1]
    show (if b.toNat % 16 * 4 % 4 = 0 then _ else none) = some [a, b]
    rw [if_pos (by omega), ofNat_eq (b := a) (by omega), ofNat_eq (b := b) (by omega)]
  | case4 a b c rest ih =>
    have ha := a.toNat_lt
    have hb := b.toNat_lt
    have hc := c.toNat_lt
    have hgroup : fullGroup (char (a.toNat / 4)) (char (a.toNat % 4 * 16 + b.toNat / 16))
        (char (b.toNat % 16 * 4 + c.toNat / 64)) (char (c.toNat % 64)) = some [a, b, c] := by
      rw [fullGroup_chars (by omega) (by omega) (by omega) (by omega), ofNat_eq (b := a) (by omega),
        ofNat_eq (b := b) (by omega), ofNat_eq (b := c) (by omega)]
    rw [encode, decodeStrict]
    by_cases hrest : encode rest = []
    · rw [hrest] at ih
      rw [if_pos hrest, lastGroup, if_pos (char_spec (c.toNat % 64) (by omega)).2.1, hgroup,
        ← Option.some.inj ih]
    · rw [if_neg hrest, hgroup, ih]
      rfl

theorem length_encode (data : List UInt8) : (encode data).length = 4 * ((data.length + 2) / 3) := by
  induction data using encode.induct with
  | case1 => rfl
  | case2 a => simp [encode]
  | case3 a b => simp [encode]
  | case4 a b c rest ih =>
    simp only [encode, List.length_cons, ih]
    omega

/-- Characters of the alphabet, then the pads of an incomplete group. -/
theorem encode_eq_append (data : List UInt8) :
    ∃ body, encode data = body ++ List.replicate ((3 - data.length % 3) % 3) 61 ∧
      ∀ ch ∈ body, ∃ n < 64, ch = char n := by
  induction data using encode.induct with
  | case1 => exact ⟨[], rfl, fun ch h => absurd h List.not_mem_nil⟩
  | case2 a =>
    have ha := a.toNat_lt
    refine ⟨[char (a.toNat / 4), char (a.toNat % 4 * 16)], rfl, fun ch h => ?_⟩
    simp only [List.mem_cons, List.not_mem_nil, or_false] at h
    rcases h with rfl | rfl
    · exact ⟨_, by omega, rfl⟩
    · exact ⟨_, by omega, rfl⟩
  | case3 a b =>
    have ha := a.toNat_lt
    have hb := b.toNat_lt
    refine ⟨[char (a.toNat / 4), char (a.toNat % 4 * 16 + b.toNat / 16), char (b.toNat % 16 * 4)],
      rfl, fun ch h => ?_⟩
    simp only [List.mem_cons, List.not_mem_nil, or_false] at h
    rcases h with rfl | rfl | rfl
    · exact ⟨_, by omega, rfl⟩
    · exact ⟨_, by omega, rfl⟩
    · exact ⟨_, by omega, rfl⟩
  | case4 a b c rest ih =>
    have ha := a.toNat_lt
    have hb := b.toNat_lt
    have hc := c.toNat_lt
    obtain ⟨body, hbody, hchars⟩ := ih
    have hmod : (a :: b :: c :: rest).length % 3 = rest.length % 3 := by
      simp only [List.length_cons]
      omega
    refine ⟨char (a.toNat / 4) :: char (a.toNat % 4 * 16 + b.toNat / 16) ::
      char (b.toNat % 16 * 4 + c.toNat / 64) :: char (c.toNat % 64) :: body, ?_, fun ch h => ?_⟩
    · rw [encode, hbody, hmod]
      rfl
    · simp only [List.mem_cons] at h
      rcases h with rfl | rfl | rfl | rfl | h
      · exact ⟨_, by omega, rfl⟩
      · exact ⟨_, by omega, rfl⟩
      · exact ⟨_, by omega, rfl⟩
      · exact ⟨_, by omega, rfl⟩
      · exact hchars ch h

end AflNv.Lib.Base64
