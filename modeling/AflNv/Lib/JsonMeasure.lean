import AflNv.Lib.JsonCodec
import AflNv.Lib.Utf8

/-!
# How many bytes a JSON value needs

A scanner of the bytes of a text is `outside` or `inside` a string, or behind a backslash.  A
`Measure` adds up over a text that is scanned, and no way to write a string measures less than
`quote`:

* `weights` counts what is neither white space nor a part of a number;
* `contents` counts the bytes in strings.

`total` is the measure of a value, its white space and its numbers left out.  `total_le_of_read`
says that a text that is read as a value measures at least that.
-/

namespace AflNv.Lib.JsonMeasure

open AflNv.Lib.JsonCodec AflNv.Lib.Utf8

/-! ## Scanning bytes -/

inductive Place where
  | outside
  | inside
  | escaped
  deriving DecidableEq

def Place.step : Place → UInt8 → Place
  | .outside, b => if b = 34 then .inside else .outside
  | .inside, b => if b = 34 then .outside else if b = 92 then .escaped else .inside
  | .escaped, _ => .inside

def run (p : Place) (bs : List UInt8) : Place := bs.foldl Place.step p

theorem run_append (p : Place) (a b : List UInt8) : run p (a ++ b) = run (run p a) b :=
  List.foldl_append

/-- White space and the characters of numbers. -/
def isFree (b : UInt8) : Bool := isWs b.toNat || isNumberChar b.toNat

def weigh (b : UInt8) : ℕ := if isFree b then 0 else if b = 92 then 2 else 1

def weight (bs : List UInt8) : ℕ := (bs.map weigh).sum

theorem weight_append (a b : List UInt8) : weight (a ++ b) = weight a + weight b := by
  rw [weight, List.map_append, List.sum_append, weight, weight]

/-- The number of bytes in strings, with the closing quotes. -/
def content : Place → List UInt8 → ℕ
  | _, [] => 0
  | p, b :: bs => (if p = .outside then 0 else 1) + content (p.step b) bs

theorem content_append (p : Place) (a b : List UInt8) :
    content p (a ++ b) = content p a + content (run p a) b := by
  induction a generalizing p with
  | nil => exact (Nat.zero_add _).symm
  | cons x a ih =>
    rw [List.cons_append, content, content, ih, Nat.add_assoc]
    rfl

/-- Nothing but quotes leads into a string. -/
theorem run_outside {bs : List UInt8} (h : ∀ b ∈ bs, b ≠ 34) :
    run .outside bs = .outside ∧ content .outside bs = 0 := by
  induction bs with
  | nil => exact ⟨rfl, rfl⟩
  | cons b bs ih =>
    rw [List.forall_mem_cons] at h
    have hstep : Place.outside.step b = .outside := if_neg h.1
    obtain ⟨hrun, hcontent⟩ := ih h.2
    refine ⟨?_, ?_⟩
    · show run (Place.outside.step b) bs = _
      rw [hstep, hrun]
    · rw [content, hstep, hcontent]
      rfl

/-- Nothing but quotes leads out of a string. -/
theorem run_inside {bs : List UInt8} (h : ∀ b ∈ bs, b ≠ 34 ∧ b ≠ 92) :
    run .inside bs = .inside ∧ content .inside bs = bs.length := by
  induction bs with
  | nil => exact ⟨rfl, rfl⟩
  | cons b bs ih =>
    rw [List.forall_mem_cons] at h
    have hstep : Place.inside.step b = .inside := by
      rw [Place.step, if_neg h.1.1, if_neg h.1.2]
    obtain ⟨hrun, hcontent⟩ := ih h.2
    refine ⟨?_, ?_⟩
    · show run (Place.inside.step b) bs = _
      rw [hstep, hrun]
    · rw [content, hstep, hcontent, List.length_cons, Nat.add_comm]
      rfl

/-! ## The bytes of a string -/

/-- No more is escaped than must be. -/
def plain : Style := ⟨false, true⟩

theorem mem_encode1 {c : ℕ} (hc : c < 0x110000) {b : UInt8} (hb : b ∈ encode1 c) :
    b.toNat = c ∨ 128 ≤ c ∧ 128 ≤ b.toNat := by
  rw [encode1] at hb
  split_ifs at hb with h1 h2 h3
  · rw [List.mem_singleton.mp hb, UInt8.toNat_ofNat_of_lt' (by show c < 256; omega)]
    exact .inl rfl
  · refine .inr ⟨by omega, ?_⟩
    simp only [List.mem_cons, List.not_mem_nil, or_false] at hb
    rcases hb with rfl | rfl
    · rw [toNat_first _ _ (by omega)]
      omega
    · rw [toNat_tailByte]
      omega
  · refine .inr ⟨by omega, ?_⟩
    simp only [List.mem_cons, List.not_mem_nil, or_false] at hb
    rcases hb with rfl | rfl | rfl
    · rw [toNat_first _ _ (by omega)]
      omega
    iterate 2
      rw [toNat_tailByte]
      omega
  · refine .inr ⟨by omega, ?_⟩
    simp only [List.mem_cons, List.not_mem_nil, or_false] at hb
    rcases hb with rfl | rfl | rfl | rfl
    · rw [toNat_first _ _ (by omega)]
      omega
    iterate 3
      rw [toNat_tailByte]
      omega

theorem ne_of_mem_encode1 {c : ℕ} (hc : c < 0x110000) {b x : UInt8} (hb : b ∈ encode1 c)
    (hx : x.toNat < 128) (hne : c ≠ x.toNat) : b ≠ x := by
  rintro rfl
  rcases mem_encode1 hc hb with h | h <;> omega

/-- What is scanned as the content of a string, without its quotes. -/
structure Scans (s used : Text) : Prop where
  range : ∀ c ∈ s, c < 0x110000
  run_eq : run .inside (encode used) = .inside
  content_eq : content .inside (encode used) = (encode used).length
  weight_le : weight (encode (s.flatMap (escape plain))) ≤ weight (encode used)
  length_le : (encode (s.flatMap (escape plain))).length ≤ (encode used).length

theorem Scans.append {s s' used used' : Text} (h : Scans s used) (h' : Scans s' used') :
    Scans (s ++ s') (used ++ used') where
  range := List.forall_mem_append.mpr ⟨h.range, h'.range⟩
  run_eq := by rw [encode_append, run_append, h.run_eq, h'.run_eq]
  content_eq := by
    rw [encode_append, content_append, h.run_eq, h.content_eq, h'.content_eq, List.length_append]
  weight_le := by
    rw [List.flatMap_append, encode_append, encode_append, weight_append, weight_append]
    exact Nat.add_le_add h.weight_le h'.weight_le
  length_le := by
    rw [List.flatMap_append, encode_append, encode_append, List.length_append, List.length_append]
    exact Nat.add_le_add h.length_le h'.length_le

theorem scans_nil : Scans [] [] where
  range _ h := absurd h List.not_mem_nil
  run_eq := rfl
  content_eq := rfl
  weight_le := Nat.le_refl _
  length_le := Nat.le_refl _

/-- The style does not escape the character. -/
theorem escape_plain {c : ℕ} (hquote : c ≠ 34) (hslash : c ≠ 92) (hctrl : 32 ≤ c) :
    escape plain c = [c] := by
  have hlow : ¬ (c < 32 ∨ (plain.ensureAscii = true ∧ 126 < c)) := by
    rintro (h | h)
    · omega
    · exact Bool.false_ne_true h.1
  rw [escape, if_neg hquote, if_neg hslash, if_neg (by omega), if_neg (by omega), if_neg (by omega),
    if_neg (by omega), if_neg (by omega), if_neg hlow]

theorem scans_char {c : ℕ} (hc : c < 0x110000) (hquote : c ≠ 34) (hslash : c ≠ 92)
    (hctrl : 32 ≤ c) : Scans [c] [c] := by
  have hbytes : encode [c] = encode1 c := List.append_nil _
  have hescape : [c].flatMap (escape plain) = [c] := by
    rw [List.flatMap_singleton, escape_plain hquote hslash hctrl]
  have hbytes' : ∀ b ∈ encode1 c, b ≠ 34 ∧ b ≠ 92 := fun b hb =>
    ⟨ne_of_mem_encode1 hc hb (by decide) hquote, ne_of_mem_encode1 hc hb (by decide) hslash⟩
  have hinside := run_inside hbytes'
  rw [← hbytes] at hinside
  exact ⟨List.forall_mem_singleton.mpr hc, hinside.1, hinside.2, by rw [hescape], by rw [hescape]⟩

theorem scans_short {c e : ℕ} (h : unescape c = some e) : Scans [e] [92, c] := by
  obtain ⟨l, r, hl, -⟩ := List.lookup_eq_some_iff.mp h
  have hmem : (c, e) ∈ [(34, 34), (92, 92), (47, 47), (98, 8), (102, 12), (110, 10), (114, 13),
      (116, 9)] := by
    rw [hl]
    exact List.mem_append_right _ List.mem_cons_self
  simp only [List.mem_cons, Prod.mk.injEq, List.not_mem_nil, or_false] at hmem
  rcases hmem with h | h | h | h | h | h | h | h
  iterate 8
    rw [h.1, h.2]
    exact ⟨by decide, by decide, by decide, by decide, by decide⟩

theorem hexValue_bounds {h d : ℕ} (hh : hexValue h = some d) :
    d < 16 ∧ h < 128 ∧ h ≠ 34 ∧ h ≠ 92 ∧
      weigh (UInt8.ofNat (JsonCodec.hexDigit d)) ≤ weigh (UInt8.ofNat h) := by
  rw [hexValue] at hh
  split_ifs at hh with h1 h2 h3
  · obtain ⟨hlo, hhi⟩ := h1
    obtain rfl := Option.some.inj hh
    interval_cases h <;> decide
  · obtain ⟨hlo, hhi⟩ := h2
    obtain rfl := Option.some.inj hh
    interval_cases h <;> decide
  · obtain ⟨hlo, hhi⟩ := h3
    obtain rfl := Option.some.inj hh
    interval_cases h <;> decide

/-- Four hexadecimal digits and their value. -/
structure Hex (u a b c d : ℕ) : Prop where
  digits : ∃ a' b' c' d', hexValue a = some a' ∧ hexValue b = some b' ∧ hexValue c = some c' ∧
    hexValue d = some d' ∧ u = ((a' * 16 + b') * 16 + c') * 16 + d'

theorem Hex.lt {u a b c d : ℕ} (h : Hex u a b c d) : u < 0x10000 := by
  obtain ⟨a', b', c', d', ha, hb, hc, hd, rfl⟩ := h.digits
  have ha' := (hexValue_bounds ha).1
  have hb' := (hexValue_bounds hb).1
  have hc' := (hexValue_bounds hc).1
  have hd' := (hexValue_bounds hd).1
  omega

/-- The digits that are written. -/
theorem hex_unicodeEscape {u : ℕ} (hu : u < 0x10000) : Hex u (JsonCodec.hexDigit (u / 4096))
    (JsonCodec.hexDigit (u / 256 % 16)) (JsonCodec.hexDigit (u / 16 % 16))
    (JsonCodec.hexDigit (u % 16)) :=
  ⟨_, _, _, _, hexValue_hexDigit (by omega), hexValue_hexDigit (by omega),
    hexValue_hexDigit (by omega), hexValue_hexDigit (by omega), by omega⟩

theorem hex4_digits {text rest : Text} {u : ℕ} (h : hex4 text = some (u, rest)) :
    ∃ a b c d, text = a :: b :: c :: d :: rest ∧ Hex u a b c d := by
  rw [hex4.eq_def] at h
  split at h
  · rename_i a b c d tail
    split at h
    · rename_i a' b' c' d' ha hb hc hd
      obtain ⟨rfl, rfl⟩ := Prod.mk.inj (Option.some.inj h)
      exact ⟨a, b, c, d, rfl, a', b', c', d', ha, hb, hc, hd, rfl⟩
    · cases h
  · cases h

theorem encode_ascii {text : Text} (h : ∀ c ∈ text, c < 128) :
    encode text = text.map UInt8.ofNat := by
  induction text with
  | nil => rfl
  | cons c text ih =>
    rw [List.forall_mem_cons] at h
    rw [encode_cons, encode1_ascii h.1, ih h.2]
    rfl

theorem ofNat_ne {c : ℕ} (hc : c < 128) {x : UInt8} (hne : c ≠ x.toNat) : UInt8.ofNat c ≠ x := by
  rintro rfl
  exact hne (UInt8.toNat_ofNat_of_lt' (by show c < 256; omega)).symm

/-- The bytes of the escape `\u`. -/
theorem Hex.bytes {u a b c d : ℕ} (h : Hex u a b c d) :
    run .inside (encode [92, 117, a, b, c, d]) = .inside ∧
      content .inside (encode [92, 117, a, b, c, d]) = 6 ∧
      (encode [92, 117, a, b, c, d]).length = 6 ∧
      weight (encode [92, 117, a, b, c, d]) = 3 + weigh (UInt8.ofNat a) + weigh (UInt8.ofNat b) +
        weigh (UInt8.ofNat c) + weigh (UInt8.ofNat d) := by
  obtain ⟨a', b', c', d', ha, hb, hc, hd, -⟩ := h.digits
  obtain ⟨-, ha, haq, has, -⟩ := hexValue_bounds ha
  obtain ⟨-, hb, hbq, hbs, -⟩ := hexValue_bounds hb
  obtain ⟨-, hc, hcq, hcs, -⟩ := hexValue_bounds hc
  obtain ⟨-, hd, hdq, hds, -⟩ := hexValue_bounds hd
  have hbytes : encode [92, 117, a, b, c, d] = [92, 117] ++ [UInt8.ofNat a, UInt8.ofNat b,
      UInt8.ofNat c, UInt8.ofNat d] := by
    rw [encode_ascii]
    · rfl
    · simp [ha, hb, hc, hd]
  have hplain : ∀ x ∈ [UInt8.ofNat a, UInt8.ofNat b, UInt8.ofNat c, UInt8.ofNat d],
      x ≠ 34 ∧ x ≠ 92 := by
    simp only [List.forall_mem_cons]
    exact ⟨⟨ofNat_ne ha haq, ofNat_ne ha has⟩, ⟨ofNat_ne hb hbq, ofNat_ne hb hbs⟩,
      ⟨ofNat_ne hc hcq, ofNat_ne hc hcs⟩, ⟨ofNat_ne hd hdq, ofNat_ne hd hds⟩,
      fun x hx => absurd hx List.not_mem_nil⟩
  have hinside := run_inside hplain
  have hfront : run .inside [92, 117] = .inside := rfl
  rw [hbytes]
  refine ⟨?_, ?_, rfl, ?_⟩
  · rw [run_append, hfront, hinside.1]
  · rw [content_append, hfront, hinside.2]
    rfl
  · rw [weight_append]
    show 3 + (weigh (UInt8.ofNat a) + (weigh (UInt8.ofNat b) + (weigh (UInt8.ofNat c) +
      (weigh (UInt8.ofNat d) + 0)))) = _
    omega

theorem weight_le_length {bs : List UInt8} (h : ∀ b ∈ bs, b ≠ 92) : weight bs ≤ bs.length := by
  induction bs with
  | nil => exact Nat.le_refl _
  | cons b bs ih =>
    rw [List.forall_mem_cons] at h
    have hb : weigh b ≤ 1 := by
      rw [weigh, if_neg h.1]
      split <;> omega
    have htail := ih h.2
    show weigh b + weight bs ≤ bs.length + 1
    omega

theorem length_encode1_le (c : ℕ) : (encode1 c).length ≤ 4 := by
  rw [encode1]
  split_ifs <;> simp only [List.length_cons, List.length_nil] <;> omega

theorem length_encode1_of_lt {c : ℕ} (h : c < 0x10000) : (encode1 c).length ≤ 3 := by
  rw [encode1, if_pos h]
  split_ifs <;> simp only [List.length_cons, List.length_nil] <;> omega

/-- A character that is written as it is weighs no more than an escape `\u`. -/
theorem size_raw {c : ℕ} (hc : c < 0x110000) (hquote : c ≠ 34) (hslash : c ≠ 92)
    (hctrl : 32 ≤ c) : (encode (escape plain c)).length = (encode1 c).length ∧
      weight (encode (escape plain c)) ≤ (encode1 c).length := by
  have hbytes : encode (escape plain c) = encode1 c := by
    rw [escape_plain hquote hslash hctrl]
    exact List.append_nil _
  rw [hbytes]
  exact ⟨rfl, weight_le_length fun b hb => ne_of_mem_encode1 hc hb (by decide) hslash⟩

theorem size_unicode {u a b c d : ℕ} (h : Hex u a b c d) :
    (encode (escape plain u)).length ≤ 6 ∧
      weight (encode (escape plain u)) ≤ weight (encode [92, 117, a, b, c, d]) := by
  obtain ⟨a', b', c', d', ha, hb, hc, hd, hu⟩ := h.digits
  obtain ⟨ha', -, -, -, ha⟩ := hexValue_bounds ha
  obtain ⟨hb', -, -, -, hb⟩ := hexValue_bounds hb
  obtain ⟨hc', -, -, -, hc⟩ := hexValue_bounds hc
  obtain ⟨hd', -, -, -, hd⟩ := hexValue_bounds hd
  rw [h.bytes.2.2.2]
  obtain ⟨e, he, hescape⟩ | ⟨-, h9, hescape⟩ | ⟨hw, -⟩ | ⟨h1, h2, h3, -⟩ := escape_cases plain u
  · have hall : ∀ p ∈ shortEscapes, (encode [92, p.2]).length ≤ 6 ∧
        weight (encode [92, p.2]) ≤ if p.1 = 92 then 4 else 3 := by decide
    obtain ⟨hlen, hweight⟩ := hall _ he
    rw [hescape]
    refine ⟨hlen, Nat.le_trans hweight ?_⟩
    split_ifs with h92
    · -- the backslash: its last digit is a letter
      have hd12 : d' = 12 := by
        simp only at h92
        omega
      have hlast : 1 ≤ weigh (UInt8.ofNat d) := by
        rw [hd12] at hd
        exact hd
      omega
    · omega
  · have hself := hex_unicodeEscape h.lt
    rw [hescape, unicodeEscape, hself.bytes.2.2.1, hself.bytes.2.2.2, show u / 4096 = a' by omega,
      show u / 256 % 16 = b' by omega, show u / 16 % 16 = c' by omega, show u % 16 = d' by omega]
    exact ⟨Nat.le_refl _, by omega⟩
  · exact absurd hw Bool.false_ne_true
  · obtain ⟨hlen, hweight⟩ := size_raw (by omega) h1 h2 h3
    have hle := length_encode1_of_lt (c := u) (by omega)
    exact ⟨by omega, by omega⟩

theorem scans_unicode {u a b c d : ℕ} (h : Hex u a b c d) : Scans [u] [92, 117, a, b, c, d] := by
  obtain ⟨hrun, hcontent, hlength, -⟩ := h.bytes
  obtain ⟨hlen, hweight⟩ := size_unicode h
  have hrange := h.lt
  refine ⟨List.forall_mem_singleton.mpr (by omega), hrun, hcontent.trans hlength.symm, ?_, ?_⟩
  · rwa [List.flatMap_singleton]
  · rwa [List.flatMap_singleton, hlength]

theorem scans_pair {hi lo a b c d a' b' c' d' : ℕ} (h : Hex hi a b c d) (h' : Hex lo a' b' c' d')
    (hhi : isHigh hi = true) (hlo : isLow lo = true) :
    Scans [join hi lo] ([92, 117, a, b, c, d] ++ [92, 117, a', b', c', d']) := by
  obtain ⟨hrun, hcontent, hlength, hweight⟩ := h.bytes
  obtain ⟨hrun', hcontent', hlength', hweight'⟩ := h'.bytes
  rw [isHigh_iff] at hhi
  rw [isLow_iff] at hlo
  have hjoin : 0x10000 ≤ join hi lo ∧ join hi lo < 0x110000 := by
    unfold join
    omega
  obtain ⟨hlen, hle⟩ := size_raw hjoin.2 (by omega) (by omega) (by omega)
  have hmax := length_encode1_le (join hi lo)
  refine ⟨List.forall_mem_singleton.mpr hjoin.2, ?_, ?_, ?_, ?_⟩
  · rw [encode_append, run_append, hrun, hrun']
  · rw [encode_append, content_append, hrun, hcontent, hcontent', List.length_append, hlength,
      hlength']
  · rw [List.flatMap_singleton, encode_append, weight_append]
    omega
  · rw [List.flatMap_singleton, encode_append, List.length_append]
    omega

theorem scans_escaped {s : Text} (h : ∀ c ∈ s, c < 0x110000) :
    Scans s (s.flatMap (escape plain)) := by
  induction s with
  | nil => exact scans_nil
  | cons c s ih =>
    rw [List.forall_mem_cons] at h
    have hchar : Scans [c] (escape plain c) := by
      obtain ⟨e, he, hescape⟩ | ⟨-, h9, hescape⟩ | ⟨hw, -⟩ | ⟨h1, h2, h3, -, hescape⟩ :=
        escape_cases plain c
      · have hall : ∀ p ∈ shortEscapes, unescape p.2 = some p.1 := by decide
        rw [hescape]
        exact scans_short (hall _ he)
      · rw [hescape]
        exact scans_unicode (hex_unicodeEscape h9)
      · exact absurd hw Bool.false_ne_true
      · rw [hescape]
        exact scans_char h.1 h1 h2 h3
    exact hchar.append (ih h.2)

theorem scans_escape {text rest : Text} {e : ℕ} (h : scanEscape text = some (e, rest)) :
    ∃ used, text = used ++ rest ∧ Scans [e] (92 :: used) := by
  cases text with
  | nil => cases h
  | cons c text =>
    rw [scanEscape] at h
    split_ifs at h with hc
    · subst hc
      cases hhex : hex4 text with
      | none =>
        rw [hhex] at h
        cases h
      | some r =>
        obtain ⟨u, tail⟩ := r
        rw [hhex] at h
        dsimp only at h
        obtain ⟨a, b, c, d, rfl, hdigits⟩ := hex4_digits hhex
        have halone : Option.some (u, tail) = some (e, rest) → ∃ used,
            117 :: a :: b :: c :: d :: tail = used ++ rest ∧ Scans [e] (92 :: used) := by
          intro heq
          obtain ⟨rfl, rfl⟩ := Prod.mk.inj (Option.some.inj heq)
          exact ⟨[117, a, b, c, d], rfl, scans_unicode hdigits⟩
        split_ifs at h with hhigh
        · cases hscan : scanLow tail with
          | none =>
            rw [hscan] at h
            exact halone h
          | some r =>
            obtain ⟨lo, tail'⟩ := r
            rw [hscan] at h
            obtain ⟨rfl, rfl⟩ := Prod.mk.inj (Option.some.inj h)
            rw [scanLow.eq_def] at hscan
            split at hscan
            · rename_i tail
              cases hhex' : hex4 tail with
              | none =>
                rw [hhex'] at hscan
                cases hscan
              | some r =>
                obtain ⟨u', tail''⟩ := r
                rw [hhex'] at hscan
                dsimp only at hscan
                split_ifs at hscan with hlow
                obtain ⟨rfl, rfl⟩ := Prod.mk.inj (Option.some.inj hscan)
                obtain ⟨a', b', c', d', rfl, hdigits'⟩ := hex4_digits hhex'
                exact ⟨[117, a, b, c, d, 92, 117, a', b', c', d'], rfl,
                  scans_pair hdigits hdigits' hhigh hlow⟩
            · cases hscan
        · exact halone h
    · obtain ⟨e', he, heq⟩ := Option.map_eq_some_iff.mp h
      obtain ⟨rfl, rfl⟩ := Prod.mk.inj heq
      exact ⟨[c], rfl, scans_short he⟩

theorem scans_string {n : ℕ} {text s rest : Text} (h : scanString n text = some (s, rest))
    (htext : ∀ c ∈ text, c < 0x110000) :
    ∃ used, text = used ++ 34 :: rest ∧ Scans s used := by
  induction n generalizing text s with
  | zero => cases h
  | succ n ih =>
    cases text with
    | nil => cases h
    | cons c text =>
      rw [scanString] at h
      split_ifs at h with hquote hslash hctrl
      · obtain ⟨rfl, rfl⟩ := Prod.mk.inj (Option.some.inj h)
        exact ⟨[], by rw [hquote]; rfl, scans_nil⟩
      · cases hesc : scanEscape text with
        | none =>
          rw [hesc] at h
          cases h
        | some r =>
          obtain ⟨e, tail⟩ := r
          rw [hesc] at h
          obtain ⟨⟨s', rest'⟩, hscan, heq⟩ := Option.map_eq_some_iff.mp h
          obtain ⟨rfl, rfl⟩ := Prod.mk.inj heq
          obtain ⟨used, rfl, hused⟩ := scans_escape hesc
          obtain ⟨used', rfl, hused'⟩ := ih hscan fun d hd =>
            htext d (List.mem_cons_of_mem c (List.mem_append_right used hd))
          exact ⟨92 :: used ++ used', by rw [hslash]; simp, hused.append hused'⟩
      · obtain ⟨⟨s', rest'⟩, hscan, heq⟩ := Option.map_eq_some_iff.mp h
        obtain ⟨rfl, rfl⟩ := Prod.mk.inj heq
        obtain ⟨used, rfl, hused⟩ := ih hscan fun d hd => htext d (List.mem_cons_of_mem c hd)
        have hc := scans_char (htext c List.mem_cons_self) hquote hslash (by omega)
        exact ⟨c :: used, rfl, hc.append hused⟩

/-! ## Measures -/

/-- The bytes between strings that do not vary: comma, colon, brackets and braces. -/
def marks : List UInt8 := [44, 58, 91, 93, 123, 125]

/-- A number for a text that is scanned from a place on; `mark` is that of a mark. -/
structure Measure where
  mark : ℕ
  of : Place → List UInt8 → ℕ
  append : ∀ p a b, of p (a ++ b) = of p a + of (run p a) b
  of_mark : ∀ b ∈ marks, of .outside [b] = mark
  of_free : ∀ b, isFree b = true → of .outside [b] = 0
  of_string : ∀ s used, Scans s used →
    of .outside (encode (quote plain s)) ≤ of .outside (encode (34 :: (used ++ [34])))

theorem encode_quoted (s : Text) : encode (34 :: (s ++ [34])) = 34 :: (encode s ++ [34]) := by
  rw [encode_cons, encode_append]
  rfl

def weights : Measure where
  mark := 1
  of _ bs := weight bs
  append _ := weight_append
  of_mark b hb := by
    simp only [marks, List.mem_cons, List.not_mem_nil, or_false] at hb
    rcases hb with rfl | rfl | rfl | rfl | rfl | rfl <;> rfl
  of_free b hb := by
    show weigh b + 0 = 0
    rw [weigh, if_pos hb]
  of_string s used h := by
    have hle := h.weight_le
    have hquoted : ∀ bs, weight (34 :: (bs ++ [34])) = weight bs + 2 := by
      intro bs
      show 1 + weight (bs ++ [34]) = _
      rw [weight_append, Nat.add_comm]
      rfl
    rw [quote, encode_quoted, encode_quoted, hquoted, hquoted]
    exact Nat.add_le_add_right hle 2

def contents : Measure where
  mark := 0
  of := content
  append := content_append
  of_mark b hb := by
    simp only [marks, List.mem_cons, List.not_mem_nil, or_false] at hb
    rcases hb with rfl | rfl | rfl | rfl | rfl | rfl <;> rfl
  of_free b _ := rfl
  of_string s used h := by
    have hself := scans_escaped h.range
    have hquoted : ∀ {used}, Scans s used →
        content .outside (34 :: (encode used ++ [34])) = (encode used).length + 1 := by
      intro used hused
      show 0 + content .inside (encode used ++ [34]) = _
      rw [content_append, hused.content_eq, hused.run_eq, Nat.zero_add]
      rfl
    rw [quote, encode_quoted, encode_quoted, hquoted h, hquoted hself]
    exact Nat.add_le_add_right h.length_le 1

variable {F : Type} (M : Measure)

/-- The measure of a string. -/
def Measure.str (s : Text) : ℕ := M.of .outside (encode (quote plain s))

mutual

/-- The measure of a value, its white space and its numbers left out. -/
def total : Value F → ℕ
  | .str s => M.str s
  | .list vs => M.mark + totalItems vs
  | .dict ms => M.mark + totalMembers ms
  | .null | .bool _ | .int _ | .float _ => 0

/-- Each item with the comma or the bracket behind it. -/
def totalItems : List (Value F) → ℕ
  | [] => 0
  | v :: vs => total v + M.mark + totalItems vs

/-- Each member with the comma or the brace behind it. -/
def totalMembers : List (Text × Value F) → ℕ
  | [] => 0
  | (key, v) :: ms => M.str key + M.mark + total v + M.mark + totalMembers ms

end

/-! ## What a text must hold -/

/-- The text begins with a part of that measure, which ends outside of strings. -/
def Consumes (a : ℕ) (text rest : Text) : Prop :=
  ∃ used, text = used ++ rest ∧ run .outside (encode used) = .outside ∧
    a ≤ M.of .outside (encode used)

variable {M} {a b : ℕ} {text rest tail : Text}

theorem Consumes.trans (h : Consumes M a text rest) (h' : Consumes M b rest tail) :
    Consumes M (a + b) text tail := by
  obtain ⟨used, rfl, hrun, hle⟩ := h
  obtain ⟨used', rfl, hrun', hle'⟩ := h'
  refine ⟨used ++ used', (List.append_assoc _ _ _).symm, ?_, ?_⟩
  · rw [encode_append, run_append, hrun, hrun']
  · rw [encode_append, M.append, hrun]
    exact Nat.add_le_add hle hle'

theorem Consumes.mono (h : Consumes M a text rest) (hle : b ≤ a) : Consumes M b text rest := by
  obtain ⟨used, htext, hrun, hused⟩ := h
  exact ⟨used, htext, hrun, Nat.le_trans hle hused⟩

theorem Consumes.range (h : Consumes M a text rest) (htext : ∀ c ∈ text, c < 0x110000) :
    ∀ c ∈ rest, c < 0x110000 := by
  obtain ⟨used, rfl, -⟩ := h
  exact fun c hc => htext c (List.mem_append_right used hc)

/-- A text without quotes in front of the rest. -/
theorem consumes_quiet {used : Text} (h : ∀ c ∈ used, c < 128 ∧ c ≠ 34) (rest : Text) :
    Consumes M 0 (used ++ rest) rest := by
  refine ⟨used, rfl, (run_outside fun b hb => ?_).1, Nat.zero_le _⟩
  rw [encode_ascii fun c hc => (h c hc).1] at hb
  obtain ⟨c, hc, rfl⟩ := List.mem_map.mp hb
  exact ofNat_ne (h c hc).1 (h c hc).2

theorem consumes_skipWs (text : Text) : Consumes M 0 text (skipWs text) := by
  have hsplit := List.takeWhile_append_dropWhile (p := isWs) (l := text)
  have hquiet : ∀ c ∈ text.takeWhile isWs, c < 128 ∧ c ≠ 34 := by
    intro c hc
    have hws := List.all_eq_true.mp List.all_takeWhile c hc
    simp only [isWs, Bool.or_eq_true, decide_eq_true_eq] at hws
    omega
  have h := consumes_quiet (M := M) hquiet (skipWs text)
  rw [skipWs, hsplit] at h
  exact h

/-- A mark at the front. -/
theorem consumes_mark {c : ℕ} (hc : c < 128) (hmark : UInt8.ofNat c ∈ marks) (rest : Text) :
    Consumes M M.mark (c :: rest) rest := by
  refine ⟨[c], rfl, ?_, ?_⟩
  · rw [encode_ascii (List.forall_mem_singleton.mpr hc)]
    refine (run_outside (List.forall_mem_singleton.mpr ?_)).1
    intro hquote
    rw [hquote] at hmark
    exact absurd hmark (by decide)
  · rw [encode_ascii (List.forall_mem_singleton.mpr hc)]
    exact Nat.le_of_eq (M.of_mark _ hmark).symm

theorem consumes_token {c : ℕ} (hc : c < 128) (hmark : UInt8.ofNat c ∈ marks)
    (h : token c text = some rest) : Consumes M M.mark text rest := by
  rw [token] at h
  cases hskip : skipWs text with
  | nil =>
    rw [hskip] at h
    cases h
  | cons d tail =>
    rw [hskip] at h
    dsimp only at h
    split_ifs at h with hd
    obtain rfl := Option.some.inj h
    have hws := consumes_skipWs (M := M) text
    rw [hskip, hd] at hws
    have hall := hws.trans (consumes_mark hc hmark tail)
    rwa [Nat.zero_add] at hall

/-- A string behind its opening quote. -/
theorem consumes_quote {n : ℕ} {s : Text} (htext : ∀ c ∈ text, c < 0x110000)
    (h : scanString n text = some (s, rest)) : Consumes M (M.str s) (34 :: text) rest := by
  obtain ⟨used, rfl, hused⟩ := scans_string h htext
  refine ⟨34 :: (used ++ [34]), by simp, ?_, M.of_string s used hused⟩
  rw [encode_quoted]
  show run .inside (encode used ++ [34]) = _
  rw [run_append, hused.run_eq]
  rfl

theorem consumes_string {n : ℕ} {s : Text} (htext : ∀ c ∈ text, c < 0x110000)
    (hquote : token 34 text = some tail) (h : scanString n tail = some (s, rest)) :
    Consumes M (M.str s) text rest := by
  rw [token] at hquote
  have hskip := consumes_skipWs (M := M) text
  cases hws : skipWs text with
  | nil =>
    rw [hws] at hquote
    cases hquote
  | cons d tail' =>
    rw [hws] at hquote hskip
    dsimp only at hquote
    split_ifs at hquote with hd
    obtain rfl := Option.some.inj hquote
    rw [hd] at hskip
    have hrange := hskip.range htext
    have hall := hskip.trans (consumes_quote (M := M)
      (fun c hc => hrange c (List.mem_cons_of_mem 34 hc)) h)
    rwa [Nat.zero_add] at hall

/-- A name or a number has no measure. -/
theorem consumes_atom {N : Floats F} {v : Value F} (h : atom N text = some (v, rest)) :
    total M v = 0 ∧ Consumes M 0 text rest := by
  rw [atom] at h
  split at h
  · rename_i name v' hfind
    obtain ⟨rfl, rfl⟩ := Prod.mk.inj (Option.some.inj h)
    have hmem := List.mem_of_find?_eq_some hfind
    have hprefix := List.find?_some hfind
    obtain ⟨rest, rfl⟩ := List.isPrefixOf_iff_prefix.mp hprefix
    simp only [names, List.mem_cons, Prod.mk.injEq, List.not_mem_nil, or_false] at hmem
    rw [List.drop_left]
    refine ⟨?_, consumes_quiet ?_ rest⟩
    · rcases hmem with ⟨-, rfl⟩ | ⟨-, rfl⟩ | ⟨-, rfl⟩ | ⟨-, rfl⟩ | ⟨-, rfl⟩ | ⟨-, rfl⟩
      iterate 6 rfl
    · rcases hmem with ⟨rfl, -⟩ | ⟨rfl, -⟩ | ⟨rfl, -⟩ | ⟨rfl, -⟩ | ⟨rfl, -⟩ | ⟨rfl, -⟩
      iterate 6
        dsimp only
        decide
  · obtain ⟨v', hnumber, heq⟩ := Option.map_eq_some_iff.mp h
    obtain ⟨rfl, rfl⟩ := Prod.mk.inj heq
    refine ⟨?_, ?_⟩
    · rw [number] at hnumber
      split_ifs at hnumber
      · obtain rfl := Option.some.inj hnumber
        rfl
      · obtain rfl := Option.some.inj hnumber
        rfl
    · have hquiet : ∀ c ∈ text.takeWhile isNumberChar, c < 128 ∧ c ≠ 34 := by
        intro c hc
        have hchar := List.all_eq_true.mp List.all_takeWhile c hc
        simp only [isNumberChar, isDigit, Bool.or_eq_true, Bool.and_eq_true,
          decide_eq_true_eq] at hchar
        omega
      have h := consumes_quiet (M := M) hquiet (text.drop (text.takeWhile isNumberChar).length)
      rwa [List.prefix_iff_eq_append.mp (List.takeWhile_prefix isNumberChar)] at h

theorem totalMembers_append (ms ms' : List (Text × Value F)) :
    totalMembers M (ms ++ ms') = totalMembers M ms + totalMembers M ms' := by
  induction ms with
  | nil => exact (Nat.zero_add _).symm
  | cons m ms ih =>
    rw [List.cons_append, totalMembers, totalMembers, ih]
    omega

theorem totalMembers_replace {acc : List (Text × Value F)} (hacc : (acc.map Prod.fst).Nodup)
    (key : Text) (v : Value F) :
    totalMembers M (acc.map fun m => if m.1 = key then (key, v) else m) ≤
      totalMembers M acc + totalMembers M [(key, v)] := by
  induction acc with
  | nil => exact Nat.zero_le _
  | cons m acc ih =>
    rw [List.map_cons, List.nodup_cons] at hacc
    rw [List.map_cons]
    split
    · next hm =>
      have hsame : acc.map (fun m => if m.1 = key then (key, v) else m) = acc := by
        conv_rhs => rw [← List.map_id acc]
        refine List.map_congr_left fun m' hm' => if_neg fun hkey => hacc.1 ?_
        rw [hm, ← hkey]
        exact List.mem_map_of_mem hm'
      rw [hsame, totalMembers, totalMembers, totalMembers, totalMembers]
      omega
    · have hrest := ih hacc.2
      rw [totalMembers, totalMembers]
      omega

/-- A member that is set again takes the place of the old one. -/
theorem totalMembers_setItem {acc : List (Text × Value F)} (hacc : (acc.map Prod.fst).Nodup)
    (key : Text) (v : Value F) : totalMembers M (setItem acc key v) ≤
      totalMembers M acc + totalMembers M [(key, v)] := by
  rw [setItem]
  split
  · exact totalMembers_replace hacc key v
  · rw [totalMembers_append]

theorem consumes_value_step {N : Floats F} {n : ℕ}
    (hmembers : ∀ text acc ms rest, (∀ c ∈ text, c < 0x110000) → (acc.map Prod.fst).Nodup →
      members N n text acc = some (ms, rest) → ∃ a, Consumes M a text rest ∧
        totalMembers M ms ≤ totalMembers M acc + a)
    (hitems : ∀ text vs rest, (∀ c ∈ text, c < 0x110000) → items N n text = some (vs, rest) →
      Consumes M (totalItems M vs) text rest)
    {v : Value F} (htext : ∀ c ∈ text, c < 0x110000)
    (h : value N (n + 1) text = some (v, rest)) : Consumes M (total M v) text rest := by
  cases text with
  | nil => cases h
  | cons c text =>
    have htail : ∀ d ∈ text, d < 0x110000 := fun d hd => htext d (List.mem_cons_of_mem c hd)
    rw [value] at h
    split_ifs at h with hquote hbrace hbracket
    · obtain ⟨⟨s, rest'⟩, hscan, heq⟩ := Option.map_eq_some_iff.mp h
      obtain ⟨rfl, rfl⟩ := Prod.mk.inj heq
      rw [hquote]
      exact consumes_quote htail hscan
    · have hopen := consumes_mark (M := M) (c := 123) (by decide) (by decide) text
      rw [hbrace]
      cases htoken : token 125 text with
      | some tail =>
        rw [htoken] at h
        obtain ⟨rfl, rfl⟩ := Prod.mk.inj (Option.some.inj h)
        exact (hopen.trans (consumes_token (by decide) (by decide) htoken)).mono
          (Nat.le_add_right _ _)
      | none =>
        rw [htoken] at h
        obtain ⟨⟨ms, rest'⟩, hms, heq⟩ := Option.map_eq_some_iff.mp h
        obtain ⟨rfl, rfl⟩ := Prod.mk.inj heq
        obtain ⟨a, hconsumes, hle⟩ := hmembers text [] ms _ htail List.nodup_nil hms
        refine (hopen.trans hconsumes).mono ?_
        show M.mark + totalMembers M ms ≤ M.mark + a
        rw [totalMembers] at hle
        omega
    · have hopen := consumes_mark (M := M) (c := 91) (by decide) (by decide) text
      rw [hbracket]
      cases htoken : token 93 text with
      | some tail =>
        rw [htoken] at h
        obtain ⟨rfl, rfl⟩ := Prod.mk.inj (Option.some.inj h)
        exact (hopen.trans (consumes_token (by decide) (by decide) htoken)).mono
          (Nat.le_add_right _ _)
      | none =>
        rw [htoken] at h
        obtain ⟨⟨vs, rest'⟩, hvs, heq⟩ := Option.map_eq_some_iff.mp h
        obtain ⟨rfl, rfl⟩ := Prod.mk.inj heq
        exact hopen.trans (hitems text vs _ htail hvs)
    · obtain ⟨hzero, hconsumes⟩ := consumes_atom (M := M) h
      rw [hzero]
      exact hconsumes

theorem consumes_members_step {N : Floats F} {n : ℕ}
    (hvalue : ∀ text v rest, (∀ c ∈ text, c < 0x110000) → value N n text = some (v, rest) →
      Consumes M (total M v) text rest)
    (hmembers : ∀ text acc ms rest, (∀ c ∈ text, c < 0x110000) → (acc.map Prod.fst).Nodup →
      members N n text acc = some (ms, rest) → ∃ a, Consumes M a text rest ∧
        totalMembers M ms ≤ totalMembers M acc + a)
    {acc ms : List (Text × Value F)} (htext : ∀ c ∈ text, c < 0x110000)
    (hacc : (acc.map Prod.fst).Nodup) (h : members N (n + 1) text acc = some (ms, rest)) :
    ∃ a, Consumes M a text rest ∧ totalMembers M ms ≤ totalMembers M acc + a := by
  rw [members] at h
  obtain ⟨t₁, hquote, h⟩ := Option.bind_eq_some_iff.mp h
  obtain ⟨⟨key, t₂⟩, hkey, h⟩ := Option.bind_eq_some_iff.mp h
  obtain ⟨t₃, hcolon, h⟩ := Option.bind_eq_some_iff.mp h
  obtain ⟨⟨v, t₄⟩, hv, h⟩ := Option.bind_eq_some_iff.mp h
  dsimp only at hcolon hv h
  have hkey := consumes_string (M := M) htext hquote hkey
  have hcolon := consumes_token (M := M) (by decide) (by decide) hcolon
  have hfront := (hkey.trans hcolon).trans (consumes_skipWs t₃)
  have hv := hvalue _ v t₄ (hfront.range htext) hv
  have hmember := hfront.trans hv
  have hset := totalMembers_setItem (M := M) hacc key v
  rw [totalMembers, totalMembers] at hset
  cases hcomma : token 44 t₄ with
  | some tail =>
    rw [hcomma] at h
    have hcomma := hmember.trans (consumes_token (M := M) (by decide) (by decide) hcomma)
    obtain ⟨a, hconsumes, hle⟩ := hmembers tail _ ms rest (hcomma.range htext)
      (nodup_setItem hacc key v) h
    exact ⟨_, hcomma.trans hconsumes, by omega⟩
  | none =>
    rw [hcomma] at h
    obtain ⟨tail, hbrace, h⟩ := Option.bind_eq_some_iff.mp h
    obtain ⟨rfl, rfl⟩ := Prod.mk.inj (Option.some.inj h)
    exact ⟨_, hmember.trans (consumes_token (by decide) (by decide) hbrace), by omega⟩

theorem consumes_items_step {N : Floats F} {n : ℕ}
    (hvalue : ∀ text v rest, (∀ c ∈ text, c < 0x110000) → value N n text = some (v, rest) →
      Consumes M (total M v) text rest)
    (hitems : ∀ text vs rest, (∀ c ∈ text, c < 0x110000) → items N n text = some (vs, rest) →
      Consumes M (totalItems M vs) text rest)
    {vs : List (Value F)} (htext : ∀ c ∈ text, c < 0x110000)
    (h : items N (n + 1) text = some (vs, rest)) : Consumes M (totalItems M vs) text rest := by
  rw [items] at h
  obtain ⟨⟨v, t₁⟩, hv, h⟩ := Option.bind_eq_some_iff.mp h
  dsimp only at h
  have hskip := consumes_skipWs (M := M) text
  have hv := hskip.trans (hvalue _ v t₁ (hskip.range htext) hv)
  cases hcomma : token 44 t₁ with
  | some tail =>
    rw [hcomma] at h
    obtain ⟨⟨vs', rest'⟩, hvs, h⟩ := Option.bind_eq_some_iff.mp h
    obtain ⟨rfl, rfl⟩ := Prod.mk.inj (Option.some.inj h)
    have hfront := hv.trans (consumes_token (M := M) (by decide) (by decide) hcomma)
    refine (hfront.trans (hitems tail vs' _ (hfront.range htext) hvs)).mono ?_
    show total M v + M.mark + totalItems M vs' ≤ _
    omega
  | none =>
    rw [hcomma] at h
    obtain ⟨tail, hbracket, h⟩ := Option.bind_eq_some_iff.mp h
    obtain ⟨rfl, rfl⟩ := Prod.mk.inj (Option.some.inj h)
    refine (hv.trans (consumes_token (by decide) (by decide) hbracket)).mono ?_
    rw [totalItems, totalItems]
    omega

theorem consumes_read (N : Floats F) (n : ℕ) :
    (∀ text v rest, (∀ c ∈ text, c < 0x110000) → value N n text = some (v, rest) →
      Consumes M (total M v) text rest) ∧
    (∀ text acc ms rest, (∀ c ∈ text, c < 0x110000) → (acc.map Prod.fst).Nodup →
      members N n text acc = some (ms, rest) → ∃ a, Consumes M a text rest ∧
        totalMembers M ms ≤ totalMembers M acc + a) ∧
    (∀ text vs rest, (∀ c ∈ text, c < 0x110000) → items N n text = some (vs, rest) →
      Consumes M (totalItems M vs) text rest) := by
  induction n with
  | zero =>
    refine ⟨fun _ _ _ _ h => ?_, fun _ _ _ _ _ _ h => ?_, fun _ _ _ _ h => ?_⟩
    iterate 3 cases h
  | succ n ih =>
    obtain ⟨hvalue, hmembers, hitems⟩ := ih
    exact ⟨fun _ _ _ htext h => consumes_value_step hmembers hitems htext h,
      fun _ _ _ _ htext hacc h => consumes_members_step hvalue hmembers htext hacc h,
      fun _ _ _ htext h => consumes_items_step hvalue hitems htext h⟩

/-- A text that is read as a value has at least its measure. -/
theorem total_le_of_read {N : Floats F} {v : Value F} (htext : ∀ c ∈ text, c < 0x110000)
    (h : JsonCodec.read N text = some v) : total M v ≤ M.of .outside (encode text) := by
  rw [JsonCodec.read] at h
  obtain ⟨⟨v', rest⟩, hv, h⟩ := Option.bind_eq_some_iff.mp h
  dsimp only at h
  split_ifs at h
  obtain rfl := Option.some.inj h
  have hskip := consumes_skipWs (M := M) text
  obtain ⟨used, rfl, -, hle⟩ :=
    hskip.trans ((consumes_read N _).1 _ _ _ (hskip.range htext) hv)
  rw [encode_append, M.append]
  omega

end AflNv.Lib.JsonMeasure
