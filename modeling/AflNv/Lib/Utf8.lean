import Mathlib.Tactic.IntervalCases

/-!
# UTF-8

Texts are lists of code points.  A `Scalar` is a code point that UTF-8 encodes; the
surrogates are none.  `decode` is the strict decoder.  `decodeIgnore` leaves out the
bytes that belong to no code point; it goes on at the next byte, which leaves out the
same bytes as going on behind the longest piece of a code point, since no byte inside a
code point starts another one.

* `decode_encode` and `decode_eq_some` say that the strict decoder is the inverse of
  `encode`.
* `decodeIgnore_append_ascii` splits a text at an ASCII byte: what is before it and what
  is behind it are decoded on their own.
-/

namespace AflNv.Lib.Utf8

/-! ## One code point -/

/-- A code point that has an encoding. -/
def Scalar (c : ℕ) : Prop := c < 0xD800 ∨ (0xE000 ≤ c ∧ c < 0x110000)

instance (c : ℕ) : Decidable (Scalar c) := inferInstanceAs (Decidable (_ ∨ _))

/-- A byte behind the first one. -/
def tailByte (c : ℕ) : UInt8 := UInt8.ofNat (0x80 + c % 64)

def isTail (b : UInt8) : Bool := 0x80 ≤ b && b < 0xC0

def encode1 (c : ℕ) : List UInt8 :=
  if c < 0x80 then [UInt8.ofNat c]
  else if c < 0x800 then [UInt8.ofNat (0xC0 + c / 64), tailByte c]
  else if c < 0x10000 then [UInt8.ofNat (0xE0 + c / 4096), tailByte (c / 64), tailByte c]
  else [UInt8.ofNat (0xF0 + c / 262144), tailByte (c / 4096), tailByte (c / 64), tailByte c]

/-- A code point of two bytes, behind its first byte. -/
def decode2 (a : ℕ) : List UInt8 → Option (ℕ × ℕ)
  | b :: _ => if isTail b then some ((a - 0xC0) * 64 + (b.toNat - 0x80), 1) else none
  | [] => none

/-- A code point of three bytes, behind its first byte. -/
def decode3 (a : ℕ) : List UInt8 → Option (ℕ × ℕ)
  | b :: c :: _ =>
    let v := (a - 0xE0) * 4096 + (b.toNat - 0x80) * 64 + (c.toNat - 0x80)
    if isTail b ∧ isTail c ∧ 0x800 ≤ v ∧ Scalar v then some (v, 2) else none
  | _ => none

/-- A code point of four bytes, behind its first byte. -/
def decode4 (a : ℕ) : List UInt8 → Option (ℕ × ℕ)
  | b :: c :: d :: _ =>
    let v := (a - 0xF0) * 262144 + (b.toNat - 0x80) * 4096 + (c.toNat - 0x80) * 64 +
      (d.toNat - 0x80)
    if isTail b ∧ isTail c ∧ isTail d ∧ 0x10000 ≤ v ∧ v < 0x110000 then some (v, 3) else none
  | _ => none

/-- The code point that starts a text, and the number of bytes behind its first one. -/
def decode1 : List UInt8 → Option (ℕ × ℕ)
  | [] => none
  | a :: rest =>
    if a.toNat < 0x80 then some (a.toNat, 0)
    else if a.toNat < 0xC2 then none
    else if a.toNat < 0xE0 then decode2 a.toNat rest
    else if a.toNat < 0xF0 then decode3 a.toNat rest
    else decode4 a.toNat rest

theorem toNat_tailByte (c : ℕ) : (tailByte c).toNat = 0x80 + c % 64 := by
  rw [tailByte, UInt8.toNat_ofNat']
  omega

theorem isTail_iff {b : UInt8} : isTail b = true ↔ 0x80 ≤ b.toNat ∧ b.toNat < 0xC0 := by
  rw [isTail, Bool.and_eq_true, decide_eq_true_iff, decide_eq_true_iff, UInt8.le_iff_toNat_le,
    UInt8.lt_iff_toNat_lt]
  exact Iff.rfl

theorem isTail_tailByte (c : ℕ) : isTail (tailByte c) = true := by
  rw [isTail_iff, toNat_tailByte]
  omega

theorem toNat_first (lead n : ℕ) (h : lead + n < 256) : (UInt8.ofNat (lead + n)).toNat = lead + n := by
  rw [UInt8.toNat_ofNat']
  exact Nat.mod_eq_of_lt h

/-- The decoder finds the code point that was encoded. -/
theorem decode1_encode1 {c : ℕ} (hc : Scalar c) (rest : List UInt8) :
    decode1 (encode1 c ++ rest) = some (c, (encode1 c).length - 1) := by
  have hlt : c < 0x110000 := by rcases hc with h | h <;> omega
  rw [encode1]
  split_ifs with h1 h2 h3
  · have hfirst : (UInt8.ofNat c).toNat = c := by
      rw [UInt8.toNat_ofNat']
      omega
    rw [List.singleton_append, decode1, hfirst, if_pos h1]
    rfl
  · have hfirst := toNat_first 0xC0 (c / 64) (by omega)
    show decode1 (UInt8.ofNat (0xC0 + c / 64) :: tailByte c :: rest) = _
    have hval : (0xC0 + c / 64 - 0xC0) * 64 + (0x80 + c % 64 - 0x80) = c := by omega
    rw [decode1, hfirst, if_neg (by omega), if_neg (by omega), if_pos (by omega), decode2,
      if_pos (isTail_tailByte c), toNat_tailByte, hval]
    rfl
  · have hfirst := toNat_first 0xE0 (c / 4096) (by omega)
    have hval : (0xE0 + c / 4096 - 0xE0) * 4096 + (0x80 + c / 64 % 64 - 0x80) * 64 +
        (0x80 + c % 64 - 0x80) = c := by omega
    show decode1 (UInt8.ofNat (0xE0 + c / 4096) :: tailByte (c / 64) :: tailByte c :: rest) = _
    rw [decode1, hfirst, if_neg (by omega), if_neg (by omega), if_neg (by omega), if_pos (by omega),
      decode3, toNat_tailByte, toNat_tailByte, hval,
      if_pos ⟨isTail_tailByte _, isTail_tailByte _, by omega, hc⟩]
    rfl
  · have hfirst := toNat_first 0xF0 (c / 262144) (by omega)
    have hval : (0xF0 + c / 262144 - 0xF0) * 262144 + (0x80 + c / 4096 % 64 - 0x80) * 4096 +
        (0x80 + c / 64 % 64 - 0x80) * 64 + (0x80 + c % 64 - 0x80) = c := by omega
    show decode1 (UInt8.ofNat (0xF0 + c / 262144) :: tailByte (c / 4096) :: tailByte (c / 64) ::
      tailByte c :: rest) = _
    rw [decode1, hfirst, if_neg (by omega), if_neg (by omega), if_neg (by omega), if_neg (by omega),
      decode4, toNat_tailByte, toNat_tailByte, toNat_tailByte, hval,
      if_pos ⟨isTail_tailByte _, isTail_tailByte _, isTail_tailByte _, by omega, hlt⟩]
    rfl

theorem ofNat_eq {b : UInt8} {n : ℕ} (h : n = b.toNat) : UInt8.ofNat n = b := by
  rw [h, UInt8.ofNat_toNat]

theorem tailByte_eq {b : UInt8} {c : ℕ} (hb : isTail b = true) (h : c % 64 = b.toNat - 0x80) :
    tailByte c = b := by
  rw [isTail_iff] at hb
  exact ofNat_eq (by omega)

/-- What the decoder finds is the encoding of a code point. -/
theorem decode1_eq_some {bs : List UInt8} {c n : ℕ} (h : decode1 bs = some (c, n)) :
    Scalar c ∧ ∃ rest, bs = encode1 c ++ rest ∧ n + 1 = (encode1 c).length := by
  cases bs with
  | nil => exact absurd h (by simp [decode1])
  | cons a rest =>
    have ha := a.toNat_lt
    rw [decode1] at h
    split_ifs at h with h1 h2 h3 h4
    · obtain ⟨rfl, rfl⟩ := Prod.mk.inj (Option.some.inj h)
      have henc : encode1 a.toNat = [a] := by rw [encode1, if_pos h1, UInt8.ofNat_toNat]
      exact ⟨.inl (by omega), rest, by rw [henc]; rfl, by rw [henc]; rfl⟩
    · cases rest with
      | nil => exact absurd h (by simp [decode2])
      | cons b rest =>
        rw [decode2] at h
        split_ifs at h with hb
        obtain ⟨rfl, rfl⟩ := Prod.mk.inj (Option.some.inj h)
        have hrange := isTail_iff.mp hb
        have henc : encode1 ((a.toNat - 0xC0) * 64 + (b.toNat - 0x80)) = [a, b] := by
          rw [encode1, if_neg (by omega), if_pos (by omega), ofNat_eq (b := a) (by omega),
            tailByte_eq hb (by omega)]
        exact ⟨.inl (by omega), rest, by rw [henc]; rfl, by rw [henc]; rfl⟩
    · cases rest with
      | nil => exact absurd h (by simp [decode3])
      | cons b rest =>
        cases rest with
        | nil => exact absurd h (by simp [decode3])
        | cons d rest =>
          rw [decode3] at h
          split_ifs at h with hcond
          obtain ⟨hb, hd, hlo, hscalar⟩ := hcond
          obtain ⟨rfl, rfl⟩ := Prod.mk.inj (Option.some.inj h)
          have hrb := isTail_iff.mp hb
          have hrd := isTail_iff.mp hd
          refine ⟨hscalar, rest, ?_⟩
          have henc : encode1 ((a.toNat - 0xE0) * 4096 + (b.toNat - 0x80) * 64 + (d.toNat - 0x80)) =
              [a, b, d] := by
            rw [encode1, if_neg (by omega), if_neg (by omega), if_pos (by omega),
              ofNat_eq (b := a) (by omega), tailByte_eq hb (by omega), tailByte_eq hd (by omega)]
          exact ⟨by rw [henc]; rfl, by rw [henc]; rfl⟩
    · cases rest with
      | nil => exact absurd h (by simp [decode4])
      | cons b rest =>
        cases rest with
        | nil => exact absurd h (by simp [decode4])
        | cons d rest =>
          cases rest with
          | nil => exact absurd h (by simp [decode4])
          | cons e rest =>
            rw [decode4] at h
            split_ifs at h with hcond
            obtain ⟨hb, hd, he, hlo, hhi⟩ := hcond
            obtain ⟨rfl, rfl⟩ := Prod.mk.inj (Option.some.inj h)
            have hrb := isTail_iff.mp hb
            have hrd := isTail_iff.mp hd
            have hre := isTail_iff.mp he
            refine ⟨.inr ⟨by omega, hhi⟩, rest, ?_⟩
            have henc : encode1 ((a.toNat - 0xF0) * 262144 + (b.toNat - 0x80) * 4096 +
                (d.toNat - 0x80) * 64 + (e.toNat - 0x80)) = [a, b, d, e] := by
              rw [encode1, if_neg (by omega), if_neg (by omega), if_neg (by omega),
                ofNat_eq (b := a) (by omega), tailByte_eq hb (by omega), tailByte_eq hd (by omega),
                tailByte_eq he (by omega)]
            exact ⟨by rw [henc]; rfl, by rw [henc]; rfl⟩

/-- An ASCII byte stands for itself. -/
theorem decode1_ascii {b : UInt8} (hb : b.toNat < 0x80) (rest : List UInt8) :
    decode1 (b :: rest) = some (b.toNat, 0) := by
  rw [decode1, if_pos hb]

theorem encode1_ascii {c : ℕ} (hc : c < 0x80) : encode1 c = [UInt8.ofNat c] := by
  rw [encode1, if_pos hc]

theorem length_encode1_pos (c : ℕ) : 0 < (encode1 c).length := by
  rw [encode1]
  split_ifs <;> exact Nat.succ_pos _

/-! ## Texts -/

def encode (s : List ℕ) : List UInt8 := s.flatMap encode1

/-- The strict decoder, behind the first byte of a code point with so many bytes to
come. -/
def decodeFrom : ℕ → List UInt8 → Option (List ℕ)
  | _, [] => some []
  | k + 1, _ :: rest => decodeFrom k rest
  | 0, b :: rest =>
    match decode1 (b :: rest) with
    | some (c, n) => (decodeFrom n rest).map fun s => c :: s
    | none => none

def decode (bs : List UInt8) : Option (List ℕ) := decodeFrom 0 bs

/-- The decoder that leaves out what is no code point. -/
def decodeIgnoreFrom : ℕ → List UInt8 → List ℕ
  | _, [] => []
  | k + 1, _ :: rest => decodeIgnoreFrom k rest
  | 0, b :: rest =>
    match decode1 (b :: rest) with
    | some (c, n) => c :: decodeIgnoreFrom n rest
    | none => decodeIgnoreFrom 0 rest

def decodeIgnore (bs : List UInt8) : List ℕ := decodeIgnoreFrom 0 bs

theorem encode_append (s t : List ℕ) : encode (s ++ t) = encode s ++ encode t := List.flatMap_append

theorem encode_cons (c : ℕ) (s : List ℕ) : encode (c :: s) = encode1 c ++ encode s := rfl

theorem encode_ne_nil {s : List ℕ} (h : s ≠ []) : encode s ≠ [] := by
  cases s with
  | nil => exact absurd rfl h
  | cons c s =>
    have hpos := length_encode1_pos c
    rw [encode_cons, ne_eq, List.append_eq_nil_iff, ← List.length_eq_zero_iff]
    omega

theorem decodeFrom_append (l rest : List UInt8) : decodeFrom l.length (l ++ rest) = decodeFrom 0 rest := by
  induction l with
  | nil => rfl
  | cons b l ih => exact ih

theorem decodeIgnoreFrom_append (l rest : List UInt8) :
    decodeIgnoreFrom l.length (l ++ rest) = decodeIgnoreFrom 0 rest := by
  induction l with
  | nil => rfl
  | cons b l ih => exact ih

/-- The first byte of an encoding and the others. -/
theorem exists_encode1_cons (c : ℕ) : ∃ b l, encode1 c = b :: l ∧ (encode1 c).length - 1 = l.length := by
  cases henc : encode1 c with
  | nil => exact absurd (length_encode1_pos c) (by simp [henc])
  | cons b l => exact ⟨b, l, rfl, rfl⟩

theorem decode_encode1_append {c : ℕ} (hc : Scalar c) (rest : List UInt8) :
    decode (encode1 c ++ rest) = (decode rest).map fun s => c :: s := by
  have hfirst := decode1_encode1 hc rest
  obtain ⟨b, l, henc, hlen⟩ := exists_encode1_cons c
  rw [hlen] at hfirst
  rw [henc, List.cons_append] at hfirst ⊢
  rw [decode, decodeFrom, hfirst]
  dsimp only
  rw [decodeFrom_append, decode]

theorem decodeIgnore_encode1_append {c : ℕ} (hc : Scalar c) (rest : List UInt8) :
    decodeIgnore (encode1 c ++ rest) = c :: decodeIgnore rest := by
  have hfirst := decode1_encode1 hc rest
  obtain ⟨b, l, henc, hlen⟩ := exists_encode1_cons c
  rw [hlen] at hfirst
  rw [henc, List.cons_append] at hfirst ⊢
  rw [decodeIgnore, decodeIgnoreFrom, hfirst]
  dsimp only
  rw [decodeIgnoreFrom_append, decodeIgnore]

/-- The strict decoder reads back what was encoded. -/
theorem decode_encode {s : List ℕ} (hs : ∀ c ∈ s, Scalar c) : decode (encode s) = some s := by
  induction s with
  | nil => rfl
  | cons c s ih =>
    rw [List.forall_mem_cons] at hs
    rw [encode_cons, decode_encode1_append hs.1, ih hs.2]
    rfl

/-- What the strict decoder accepts is the encoding of what it returns. -/
theorem decode_eq_some {bs : List UInt8} {s : List ℕ} (h : decode bs = some s) :
    (∀ c ∈ s, Scalar c) ∧ encode s = bs := by
  induction hn : bs.length using Nat.strong_induction_on generalizing bs s with
  | _ n ih =>
    cases bs with
    | nil =>
      obtain rfl := Option.some.inj h
      exact ⟨by simp, rfl⟩
    | cons b rest =>
      rw [decode, decodeFrom] at h
      cases hfirst : decode1 (b :: rest) with
      | none => simp [hfirst] at h
      | some first =>
        obtain ⟨c, k⟩ := first
        obtain ⟨hc, tail, hbs, -⟩ := decode1_eq_some hfirst
        rw [hbs] at hn ⊢
        have hdecode : decode (encode1 c ++ tail) = some s := by rw [← hbs]; exact h
        rw [decode_encode1_append hc] at hdecode
        obtain ⟨t, ht, rfl⟩ := Option.map_eq_some_iff.mp hdecode
        have hlen : tail.length < n := by
          have hpos := length_encode1_pos c
          rw [← hn, List.length_append]
          omega
        obtain ⟨hscalar, henc⟩ := ih tail.length hlen ht rfl
        exact ⟨List.forall_mem_cons.mpr ⟨hc, hscalar⟩, by rw [encode_cons, henc]⟩

theorem decodeIgnore_encode_append {s : List ℕ} (hs : ∀ c ∈ s, Scalar c) (rest : List UInt8) :
    decodeIgnore (encode s ++ rest) = s ++ decodeIgnore rest := by
  induction s with
  | nil => rfl
  | cons c s ih =>
    obtain ⟨hc, hs⟩ := List.forall_mem_cons.mp hs
    rw [encode_cons, List.append_assoc, decodeIgnore_encode1_append hc, ih hs]
    rfl

theorem decodeIgnore_encode {s : List ℕ} (hs : ∀ c ∈ s, Scalar c) : decodeIgnore (encode s) = s := by
  induction s with
  | nil => rfl
  | cons c s ih =>
    rw [List.forall_mem_cons] at hs
    rw [encode_cons, decodeIgnore_encode1_append hs.1, ih hs.2]

/-- On a valid text the two decoders agree. -/
theorem decodeIgnore_of_decode {bs : List UInt8} {s : List ℕ} (h : decode bs = some s) :
    decodeIgnore bs = s := by
  obtain ⟨hs, rfl⟩ := decode_eq_some h
  exact decodeIgnore_encode hs

theorem decodeIgnore_cons_of_none {b : UInt8} {rest : List UInt8} (h : decode1 (b :: rest) = none) :
    decodeIgnore (b :: rest) = decodeIgnore rest := by
  rw [decodeIgnore, decodeIgnoreFrom, h]
  rfl

/-- A code point of a text ends before the next ASCII byte. -/
theorem decode1_append_ascii {a : List UInt8} {b : UInt8} (hb : b.toNat < 0x80) (rest : List UInt8)
    (ha : a ≠ []) : decode1 (a ++ b :: rest) = decode1 a := by
  have hnot : isTail b = false := by
    rw [Bool.eq_false_iff, ne_eq, isTail_iff]
    omega
  cases a with
  | nil => exact absurd rfl ha
  | cons x a =>
    rw [List.cons_append, decode1, decode1]
    split_ifs
    · rfl
    · rfl
    · cases a with
      | nil => simp [decode2, hnot]
      | cons y a => rfl
    · cases a with
      | nil => cases rest <;> simp [decode3, hnot]
      | cons y a =>
        cases a with
        | nil => simp [decode3, hnot]
        | cons z a => rfl
    · cases a with
      | nil =>
        cases rest with
        | nil => rfl
        | cons r rest => cases rest <;> simp [decode4, hnot]
      | cons y a =>
        cases a with
        | nil => cases rest <;> simp [decode4, hnot]
        | cons z a =>
          cases a with
          | nil => simp [decode4, hnot]
          | cons w a => rfl

/-- An ASCII byte separates what is before it from what is behind it. -/
theorem decodeIgnore_append_ascii (a : List UInt8) {b : UInt8} (hb : b.toNat < 0x80)
    (rest : List UInt8) :
    decodeIgnore (a ++ b :: rest) = decodeIgnore a ++ b.toNat :: decodeIgnore rest := by
  induction hn : a.length using Nat.strong_induction_on generalizing a with
  | _ n ih =>
    cases a with
    | nil =>
      rw [List.nil_append, decodeIgnore, decodeIgnoreFrom, decode1_ascii hb]
      rfl
    | cons x a =>
      have hfirst := decode1_append_ascii hb rest (List.cons_ne_nil x a)
      cases hx : decode1 (x :: a) with
      | none =>
        rw [hx, List.cons_append] at hfirst
        rw [decodeIgnore_cons_of_none hx, List.cons_append, decodeIgnore_cons_of_none hfirst]
        exact ih a.length (by rw [← hn]; exact Nat.lt_succ_self _) a rfl
      | some first =>
        obtain ⟨c, k⟩ := first
        obtain ⟨hc, tail, hbs, -⟩ := decode1_eq_some hx
        have hlen : tail.length < n := by
          have hpos := length_encode1_pos c
          rw [← hn, hbs, List.length_append]
          omega
        rw [hbs, List.append_assoc, decodeIgnore_encode1_append hc, decodeIgnore_encode1_append hc,
          ih tail.length hlen tail rfl]
        rfl

/-- ASCII bytes are their own code points. -/
theorem decodeIgnore_of_ascii {bs : List UInt8} (h : ∀ b ∈ bs, b.toNat < 0x80) :
    decodeIgnore bs = bs.map UInt8.toNat := by
  induction bs with
  | nil => rfl
  | cons b bs ih =>
    obtain ⟨hb, hrest⟩ := List.forall_mem_cons.mp h
    have happend := decodeIgnore_append_ascii [] hb bs
    rw [List.nil_append] at happend
    rw [happend, ih hrest]
    rfl

theorem encode_of_ascii {bs : List UInt8} (h : ∀ b ∈ bs, b.toNat < 0x80) :
    encode (bs.map UInt8.toNat) = bs := by
  induction bs with
  | nil => rfl
  | cons b bs ih =>
    obtain ⟨hb, hrest⟩ := List.forall_mem_cons.mp h
    rw [List.map_cons, encode_cons, encode1_ascii hb, ih hrest, UInt8.ofNat_toNat]
    rfl

theorem decode_of_ascii {bs : List UInt8} (h : ∀ b ∈ bs, b.toNat < 0x80) :
    decode bs = some (bs.map UInt8.toNat) := by
  have hscalar : ∀ c ∈ bs.map UInt8.toNat, Scalar c := by
    intro c hc
    obtain ⟨b, hb, rfl⟩ := List.mem_map.mp hc
    have hlt := h b hb
    exact .inl (by omega)
  have hdecode := decode_encode hscalar
  rwa [encode_of_ascii h] at hdecode

end AflNv.Lib.Utf8
