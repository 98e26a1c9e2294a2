import AflNv.EvalReport

/-!
# The writes of the evaluation report

What a reader makes of the report when some of its writes are cut short.  Outside of its strings and
inside of them each byte that a write loses is missed: by the measures of `Lib.JsonMeasure` where
the text is still read, and in the one write that ends in a number by the number.

* `StrictLine`: how the writes of a line can be cut without a change of the measures.
* `enable_cut`: what a cut leaves of the number at the end of the task.
* `eval_report`: the report is as before or is read as the document of the state if and only if the
  file is not opened or not renamed, or no write loses more than its line feed, or the same bytes
  were there before.
-/

namespace AflNv.EvalReport

open AflNv.Lib AflNv.Lib.JsonCodec AflNv.Lib.Utf8 AflNv.Lib.JsonMeasure AflNv.Lib.JsonText

/-! ## The lines and their writes -/

/-- The write is whole, or its line feed is missing. -/
def Harmless (k t : Bytes) : Prop := t = k ∨ t = k ++ [10]

theorem encode_snoc (text : Text) : encode (text ++ [10]) = encode text ++ [10] := by
  rw [encode_append]
  rfl

/-- What is left of a line after harmless losses. -/
structure HarmlessLine (core : Text) (L : List Bytes) : Prop where
  flatten_eq : L.flatten = encode (core ++ [10])
  kept : ∀ ks, List.Forall₂ Harmless ks L →
    ∃ nl, (nl = [] ∨ nl = [10]) ∧ ks.flatten = encode (core ++ nl)

theorem forall₂_append {α β : Type} {r : α → β → Prop} {ks : List α} {a b : List β}
    (h : List.Forall₂ r ks (a ++ b)) :
    ∃ ka kb, ks = ka ++ kb ∧ List.Forall₂ r ka a ∧ List.Forall₂ r kb b := by
  induction a generalizing ks with
  | nil => exact ⟨[], ks, rfl, .nil, h⟩
  | cons t a ih =>
    cases h with
    | @cons k _ ks _ hhead htail =>
      obtain ⟨ka, kb, rfl, ha, hb⟩ := ih htail
      exact ⟨k :: ka, kb, rfl, .cons hhead ha, hb⟩

theorem harmless_of_last {ks init : List Bytes} (hinit : ∀ t ∈ init, t.getLast? ≠ some 10)
    (h : List.Forall₂ Harmless ks init) : ks = init := by
  induction h with
  | nil => rfl
  | @cons k t ks init hhead _ ih =>
    obtain ⟨ht, hinit⟩ := List.forall_mem_cons.mp hinit
    rcases hhead with rfl | rfl
    · rw [ih hinit]
    · exact absurd (List.getLast?_concat) ht

theorem harmlessLine_of_last {core : Text} {init : List Bytes} {last : Bytes}
    (hinit : ∀ t ∈ init, t.getLast? ≠ some 10) (htext : init.flatten ++ last = encode core) :
    HarmlessLine core (init ++ [last ++ [10]]) where
  flatten_eq := by
    rw [encode_snoc, ← htext, List.flatten_append, List.flatten_singleton, List.append_assoc]
  kept ks h := by
    obtain ⟨ka, kb, rfl, ha, hb⟩ := forall₂_append h
    rw [harmless_of_last hinit ha]
    cases hb with
    | @cons k _ _ _ hhead htail =>
      cases htail
      rw [List.flatten_append, List.flatten_singleton]
      rcases hhead with hk | hk
      · refine ⟨[10], .inr rfl, ?_⟩
        rw [encode_snoc, ← htext, ← hk, List.append_assoc]
      · refine ⟨[], .inl rfl, ?_⟩
        rw [List.append_nil, ← htext, List.append_cancel_right hk]

theorem harmlessLine_line (core : Text) : HarmlessLine core (line core) := by
  have h : HarmlessLine core ([] ++ [encode core ++ [10]]) :=
    harmlessLine_of_last (fun _ ht => absurd ht List.not_mem_nil) rfl
  rwa [← encode_snoc] at h

/-- All lines together. -/
theorem kept_lines {cores : List Text} {lines : List (List Bytes)}
    (h : List.Forall₂ HarmlessLine cores lines) {ks : List Bytes}
    (hks : List.Forall₂ Harmless ks lines.flatten) :
    ∃ nl : ℕ → Text, (∀ i, nl i = [] ∨ nl i = [10]) ∧ ks.flatten = encode (joined nl cores) := by
  induction h generalizing ks with
  | nil =>
    cases hks
    exact ⟨fun _ => [], fun _ => .inl rfl, rfl⟩
  | cons hline _ ih =>
    rw [List.flatten_cons] at hks
    obtain ⟨ka, kb, rfl, ha, hb⟩ := forall₂_append hks
    obtain ⟨nl, hnl, htext⟩ := hline.kept ka ha
    obtain ⟨nl', hnl', htext'⟩ := ih hb
    refine ⟨fun i => Nat.casesOn i nl nl', fun i => ?_, ?_⟩
    · cases i with
      | zero => exact hnl
      | succ i => exact hnl' i
    · rw [List.flatten_append, htext, htext', ← encode_append, joined, List.append_assoc]
      rfl

theorem flatten_lines {cores : List Text} {lines : List (List Bytes)}
    (h : List.Forall₂ HarmlessLine cores lines) :
    lines.flatten.flatten = encode (joined (fun _ => [10]) cores) := by
  induction h with
  | nil => rfl
  | cons hline _ ih =>
    rw [List.flatten_cons, List.flatten_append, hline.flatten_eq, ih, ← encode_append, joined,
      List.append_assoc]

/-! ## Strict lines -/

/-- A text that ends with a character that weighs. -/
def EndsFirm (text : Text) : Prop := ∃ a c, text = a ++ [c] ∧ c < 128 ∧ 0 < weigh (UInt8.ofNat c)

/-- The line is scanned from outside of strings to outside, and loses nothing but its line feed
without losing weight. -/
structure StrictLine (core : Text) (L : List Bytes) : Prop extends HarmlessLine core L where
  sound : ∀ Loose, Sound Loose .outside L
  run_eq : run .outside L.flatten = .outside
  harmless : ∀ w, ¬ Firm w → w.getLast? = some 10 → ∀ ks, List.Forall₂ (Cut (· = w)) ks L →
    List.Forall₂ Harmless ks L

theorem firm_encode {text : Text} (h : EndsFirm text) : Firm (encode text) := by
  obtain ⟨a, c, rfl, hc, hweigh⟩ := h
  refine ⟨encode a, UInt8.ofNat c, hweigh, .inl ?_⟩
  rw [encode_append, encode_ascii (List.forall_mem_singleton.mpr hc)]
  rfl

theorem firm_line {text : Text} (h : EndsFirm text) : Firm (encode (text ++ [10])) := by
  obtain ⟨a, c, rfl, hc, hweigh⟩ := h
  refine ⟨encode a, UInt8.ofNat c, hweigh, .inr ?_⟩
  rw [encode_snoc, encode_append, encode_ascii (List.forall_mem_singleton.mpr hc),
    List.append_assoc]
  rfl

theorem fit_bytes {text : Text} (h : Fit text) : ∀ b ∈ encode text, b ≠ 92 ∧ b ≠ 10 := by
  intro b hb
  have hascii : ∀ c ∈ text, c < 128 := by
    intro c hc
    have hbounds := h c hc
    omega
  rw [encode_ascii hascii] at hb
  obtain ⟨c, hc, rfl⟩ := List.mem_map.mp hb
  obtain ⟨hlo, hhi, hslash⟩ := h c hc
  have hten : c ≠ (10 : UInt8).toNat := by
    show c ≠ 10
    omega
  exact ⟨ofNat_ne (hascii c hc) hslash, ofNat_ne (hascii c hc) hten⟩

theorem no_slash_line {text : Text} (h : Fit text) : 92 ∉ encode (text ++ [10]) := by
  rw [encode_snoc, List.mem_append, not_or]
  exact ⟨fun hmem => (fit_bytes h 92 hmem).1 rfl, by decide⟩

/-- Only one write is loose, and it is none of these. -/
theorem harmless_of_cut {w : Bytes} (hw : ¬ Firm w) (hlast : w.getLast? = some 10)
    {ks ts : List Bytes} (ht : ∀ t ∈ ts, Firm t ∨ t.getLast? ≠ some 10)
    (h : List.Forall₂ (Cut (· = w)) ks ts) : List.Forall₂ Harmless ks ts := by
  induction h with
  | nil => exact .nil
  | cons hhead _ ih =>
    obtain ⟨hfirst, hrest⟩ := List.forall_mem_cons.mp ht
    refine .cons ?_ (ih hrest)
    rcases hhead with h | h | ⟨rfl, -⟩
    · exact .inl h
    · exact .inr h
    · rcases hfirst with hfirm | hother
      · exact absurd hfirm hw
      · exact absurd hlast hother

theorem strict_line {core : Text} (hfit : Fit core) (hend : EndsFirm core)
    (hrun : run .outside (encode core) = .outside) : StrictLine core (line core) where
  toHarmlessLine := harmlessLine_line core
  sound Loose := ⟨.inl ⟨Place.noConfusion, no_slash_line hfit, .inl (firm_line hend)⟩, trivial⟩
  run_eq := by
    rw [line, List.flatten_singleton, encode_snoc, run_append, hrun]
    rfl
  harmless w hw hlast ks h :=
    harmless_of_cut hw hlast (List.forall_mem_singleton.mpr (.inl (firm_line hend))) h

/-! ### Lines with an escaped string -/

/-- The bytes that one byte is escaped to. -/
theorem piece_of_split {u d : Bytes} (hrun : run .inside u = .inside)
    (hcontent : content .inside u = u.length)
    (hlast : u = [] ∨ ∃ a b, u = a ++ [b] ∧ 0 < weigh b) (hd : ∀ b ∈ d, b ≠ 34 ∧ b ≠ 92) :
    Piece (u ++ d) := by
  intro k l hkl hl
  obtain ⟨d', rfl, rfl⟩ := append_of_light hlast hkl hl
  have hd' : ∀ b ∈ d', b ≠ 34 ∧ b ≠ 92 := fun b hb => hd b (List.mem_append_left l hb)
  obtain ⟨hrun', hcontent'⟩ := run_inside hd'
  refine ⟨?_, ?_⟩
  · rw [run_append, hrun, hrun']
  · rw [content_append, hcontent, hrun, hcontent', List.length_append]

theorem piece_pair {x : UInt8} (hx : 0 < weigh x) : Piece [92, x] :=
  piece_of_split (u := [92, x]) (d := []) rfl rfl (.inr ⟨[92], x, rfl, hx⟩)
    fun _ hb => absurd hb List.not_mem_nil

theorem hexDigit_byte {n : ℕ} (hn : n < 16) : UInt8.ofNat (JsonCodec.hexDigit n) ≠ 34 ∧
    UInt8.ofNat (JsonCodec.hexDigit n) ≠ 92 ∧ UInt8.ofNat (JsonCodec.hexDigit n) ≠ 10 := by
  obtain ⟨-, hlt, hquote, hslash, -⟩ := hexValue_bounds (hexValue_hexDigit hn)
  have hten : JsonCodec.hexDigit n ≠ (10 : UInt8).toNat := by
    rw [JsonCodec.hexDigit]
    show _ ≠ 10
    split <;> omega
  exact ⟨ofNat_ne hlt hquote, ofNat_ne hlt hslash, ofNat_ne hlt hten⟩

theorem piece_escapeByte (c : UInt8) :
    Piece (escapeByte c) ∧ (escapeByte c).getLast? ≠ some 10 := by
  rw [escapeByte]
  split_ifs with h1 h2 h3 h4 h5 h6 h7 h8
  iterate 7 exact ⟨piece_pair (by decide), by decide⟩
  · have hc : c.toNat < 32 := UInt8.lt_iff_toNat_lt.mp h8
    have hhi := hexDigit_byte (n := c.toNat / 16) (by omega)
    have hlo := hexDigit_byte (n := c.toNat % 16) (by omega)
    refine ⟨piece_of_split (u := [92, 117]) (d := [48, 48, _, _]) rfl rfl
      (.inr ⟨[92], 117, rfl, by decide⟩) ?_, ?_⟩
    · simp only [List.forall_mem_cons]
      exact ⟨by decide, by decide, ⟨hhi.1, hhi.2.1⟩, ⟨hlo.1, hlo.2.1⟩,
        fun _ hb => absurd hb List.not_mem_nil⟩
    · show some (UInt8.ofNat (JsonCodec.hexDigit (c.toNat % 16))) ≠ some 10
      exact fun h => hlo.2.2 (Option.some.inj h)
  · refine ⟨piece_of_split (u := []) (d := [c]) rfl rfl (.inl rfl)
      (List.forall_mem_singleton.mpr ⟨h2, h1⟩), ?_⟩
    exact fun h => h5 (Option.some.inj h)

theorem escapeByte_self {b : UInt8} (hlo : 32 ≤ b.toNat) (hquote : b.toNat ≠ 34)
    (hslash : b.toNat ≠ 92) : escapeByte b = [b] := by
  have hne : ∀ x : UInt8, b.toNat ≠ x.toNat → b ≠ x := fun x h heq => h (heq ▸ rfl)
  have hctrl : ¬ b < 0x20 := fun h => by
    have hlt := UInt8.lt_iff_toNat_lt.mp h
    have hval : (0x20 : UInt8).toNat = 32 := rfl
    omega
  have h8 : b ≠ 8 := hne 8 (by show b.toNat ≠ 8; omega)
  have h12 : b ≠ 12 := hne 12 (by show b.toNat ≠ 12; omega)
  have h10 : b ≠ 10 := hne 10 (by show b.toNat ≠ 10; omega)
  have h13 : b ≠ 13 := hne 13 (by show b.toNat ≠ 13; omega)
  have h9 : b ≠ 9 := hne 9 (by show b.toNat ≠ 9; omega)
  rw [escapeByte, if_neg (hne 92 hslash), if_neg (hne 34 hquote), if_neg h8, if_neg h12,
    if_neg h10, if_neg h13, if_neg h9, if_neg hctrl]

theorem flatMap_self {bs : Bytes} (h : ∀ b ∈ bs, escapeByte b = [b]) :
    bs.flatMap escapeByte = bs := by
  induction bs with
  | nil => rfl
  | cons b bs ih =>
    obtain ⟨hb, hbs⟩ := List.forall_mem_cons.mp h
    rw [List.flatMap_cons, hb, ih hbs]
    rfl

/-- Escaping the bytes is escaping the characters. -/
theorem escapeByte_encode {s : Text} (hs : ∀ c ∈ s, Scalar c) :
    (encode s).flatMap escapeByte = encode (s.flatMap (escape plain)) := by
  induction s with
  | nil => rfl
  | cons c s ih =>
    obtain ⟨hc, hs⟩ := List.forall_mem_cons.mp hs
    have hchar : (encode1 c).flatMap escapeByte = encode (escape plain c) := by
      by_cases hraw : c ≠ 34 ∧ c ≠ 92 ∧ 32 ≤ c
      · have hrange : c < 0x110000 := by
          unfold Scalar at hc
          omega
        rw [escape_plain hraw.1 hraw.2.1 hraw.2.2, flatMap_self]
        · exact (List.append_nil _).symm
        · intro b hb
          have hbounds := mem_encode1 hrange hb
          exact escapeByte_self (by omega) (by omega) (by omega)
      · have hcases : c = 34 ∨ c = 92 ∨ c < 32 := by omega
        rcases hcases with rfl | rfl | hlt
        · decide
        · decide
        · interval_cases c <;> decide
    rw [encode_cons, List.flatMap_append, hchar, ih hs, List.flatMap_cons, encode_append]

theorem sized_name {key : String} (hkey : Clean (chars key)) :
    Sized (fun M => M.str (chars key) + M.mark) (named key []) := by
  rw [named_eq hkey]
  have hcolon : Sized (fun M => M.mark) [58, 32] :=
    (sized_mark (c := 58) (by decide) (by decide)).append sized_blank
  exact (sized_quote hkey.scalar).append hcolon

theorem named_append (key : String) (text : Text) : named key text = named key [] ++ text := by
  simp only [named, List.append_assoc, List.append_nil]

theorem run_stringPrefix {key : String} (hkey : Clean (chars key)) :
    run .outside (encode (chars "    " ++ named key (chars "\""))) = .inside := by
  have hblanks : Sized (fun _ => 0) (chars "    ") := sized_ws (by decide)
  have hname := (hblanks.append (sized_name hkey)).run_eq
  rw [named_append, ← List.append_assoc, encode_append, run_append, hname]
  rfl

theorem strict_stringLine {key : String} (hkey : Clean (chars key)) {s : Text}
    (hs : ∀ c ∈ s, Scalar c) : StrictLine (stringCore key s) (stringLine key (encode s)) := by
  have hpieces : ∀ t ∈ (encode s).map escapeByte, Piece t ∧ t.getLast? ≠ some 10 := by
    intro t ht
    obtain ⟨c, -, rfl⟩ := List.mem_map.mp ht
    exact piece_escapeByte c
  have hfit : Fit (chars "    " ++ named key (chars "\"")) :=
    Fit.append (by decide) (fit_named hkey (by decide))
  have hslash : 92 ∉ encode (chars "    " ++ named key (chars "\"")) := fun hmem =>
    (fit_bytes hfit 92 hmem).1 rfl
  have hfirm : Firm (encode (chars "    " ++ named key (chars "\""))) := by
    refine firm_encode ⟨chars "    " ++ (chars "\"" ++ (chars key ++ chars "\": ")), 34, ?_,
      by decide, by decide⟩
    simp only [named, List.append_assoc]
    rfl
  have hpre := run_stringPrefix hkey
  have hpost : Fit (chars "\",") := by decide
  have hend : EndsFirm (chars "\",") := ⟨[34], 44, rfl, by decide, by decide⟩
  have hrun := run_pieces fun t ht => (hpieces t ht).1
  have hsplit : stringLine key (encode s) = ([encode (chars "    " ++ named key (chars "\""))] ++
      (encode s).map escapeByte) ++ [encode (chars "\",") ++ [10]] := by
    rw [stringLine, nvJsonPutsEscaped, line, encode_snoc, List.append_assoc]
  have htext : ([encode (chars "    " ++ named key (chars "\""))] ++
      (encode s).map escapeByte).flatten ++ encode (chars "\",") = encode (stringCore key s) := by
    have hflat : ((encode s).map escapeByte).flatten = encode (s.flatMap (escape plain)) :=
      escapeByte_encode hs
    rw [List.flatten_append, List.flatten_singleton, hflat, ← encode_append, ← encode_append,
      stringCore, quote]
    congr 1
    simp only [named, List.append_assoc, List.cons_append, List.nil_append]
    rfl
  have hinit : ∀ t ∈ [encode (chars "    " ++ named key (chars "\""))] ++
      (encode s).map escapeByte, t.getLast? ≠ some 10 := by
    refine List.forall_mem_append.mpr ⟨List.forall_mem_singleton.mpr fun hlast => ?_,
      fun t ht => (hpieces t ht).2⟩
    exact (fit_bytes hfit 10 (List.mem_of_getLast? hlast)).2 rfl
  rw [hsplit]
  refine ⟨harmlessLine_of_last hinit htext, fun Loose => ?_, ?_, fun w hw hlast ks h => ?_⟩
  · have hinside : run .outside ([encode (chars "    " ++ named key (chars "\""))] ++
        (encode s).map escapeByte).flatten = .inside := by
      rw [List.flatten_append, List.flatten_singleton, run_append, hpre, hrun]
    refine sound_append ⟨.inl ⟨Place.noConfusion, hslash, .inl hfirm⟩, ?_⟩ ?_
    · rw [hpre]
      exact sound_pieces Loose fun t ht => (hpieces t ht).1
    · rw [hinside, ← encode_snoc]
      exact ⟨.inl ⟨Place.noConfusion, no_slash_line hpost, .inl (firm_line hend)⟩, trivial⟩
  · rw [List.flatten_append, List.flatten_singleton, List.flatten_append, List.flatten_singleton,
      run_append, run_append, run_append, hpre, hrun]
    rfl
  · refine harmless_of_cut hw hlast (List.forall_mem_append.mpr ⟨fun t ht => .inr (hinit t ht),
      List.forall_mem_singleton.mpr (.inl ?_)⟩) h
    rw [← encode_snoc]
    exact firm_line hend

/-! ### Lines of one write, and the arms -/

section Lines

variable {D : Type} (R : Doubles D) (st : State D) (ctx : Context D)

/-- The text is scanned from outside of strings to outside. -/
def Balanced (text : Text) : Prop := run .outside (encode text) = .outside

theorem Balanced.append {a b : Text} (ha : Balanced a) (hb : Balanced b) : Balanced (a ++ b) := by
  unfold Balanced at ha hb ⊢
  rw [encode_append, run_append, ha, hb]

theorem balanced_named {key : String} (hkey : Clean (chars key)) {text : Text}
    (htext : Balanced text) : Balanced (named key text) := by
  rw [named_append]
  exact Balanced.append (sized_name hkey).run_eq htext

theorem balanced_arg {arg : Arg D} (h : arg.Clean) : Balanced (arg.text R) :=
  (renders_arg Special.floats R h).sized.run_eq

theorem balanced_fields {f : String × Arg D} {fs : List (String × Arg D)} (h : Fields f fs) :
    Balanced (fields R f fs) := by
  have hfield : ∀ g ∈ f :: fs, Balanced (field R g) := fun g hg =>
    balanced_named (h.key g hg) (balanced_arg R (h.args g hg))
  obtain ⟨hf, hfs⟩ := List.forall_mem_cons.mp hfield
  have hmore : Balanced (fs.flatMap fun g => chars ", " ++ field R g) := by
    clear h hfield hf
    induction fs with
    | nil => exact rfl
    | cons g fs ih =>
      obtain ⟨hg, hfs⟩ := List.forall_mem_cons.mp hfs
      have hcomma : Balanced (chars ", ") := by
        unfold Balanced
        decide
      exact (hcomma.append hg).append (ih hfs)
  exact hf.append hmore

theorem balanced_inline {f : String × Arg D} {fs : List (String × Arg D)} (h : Fields f fs) :
    Balanced (inlineObject R f fs) := (renders_inline Special.floats R h).sized.run_eq

theorem fit_comma {comma : Text} (h : comma = chars "," ∨ comma = []) :
    Fit comma ∧ Balanced comma := by
  unfold Balanced
  rcases h with rfl | rfl <;> decide

theorem balanced_argCore {key : String} (hkey : Clean (chars key)) {arg : Arg D}
    (harg : arg.Clean) {comma : Text} (hcomma : comma = chars "," ∨ comma = []) :
    Balanced (argCore R key arg comma) :=
  Balanced.append (a := chars "    ") (by unfold Balanced; decide)
    ((balanced_named hkey (balanced_arg R harg)).append (fit_comma hcomma).2)

theorem fit_argCore {key : String} (hkey : Clean (chars key)) {arg : Arg D}
    (harg : arg.Clean) {comma : Text} (hcomma : comma = chars "," ∨ comma = []) :
    Fit (argCore R key arg comma) :=
  Fit.append (by decide) (Fit.append (fit_named hkey (fit_arg R harg)) (fit_comma hcomma).1)

theorem strict_argLine {key : String} (hkey : Clean (chars key)) {arg : Arg D} (harg : arg.Clean) :
    StrictLine (argCore R key arg (chars ",")) (argLine R key arg (chars ",")) := by
  refine strict_line (fit_argCore R hkey harg (.inl rfl))
    ⟨chars "    " ++ named key (arg.text R), 44, ?_, by decide, by decide⟩
    (balanced_argCore R hkey harg (.inl rfl))
  rw [argCore, List.append_assoc]
  rfl

theorem endsFirm_append (a : Text) {b : Text} (h : EndsFirm b) : EndsFirm (a ++ b) := by
  obtain ⟨b, c, rfl, hc, hweigh⟩ := h
  exact ⟨a ++ b, c, by rw [List.append_assoc], hc, hweigh⟩

theorem endsFirm_inline (f : String × Arg D) (fs : List (String × Arg D)) :
    EndsFirm (inlineObject R f fs) :=
  endsFirm_append _ (endsFirm_append _ ⟨[], 125, rfl, by decide, by decide⟩)

theorem strict_objectLine {key : String} (hkey : Clean (chars key)) {f : String × Arg D}
    {fs : List (String × Arg D)} (h : Fields f fs) {comma : Text}
    (hcomma : comma = chars "," ∨ comma = []) :
    StrictLine (objectCore R key f fs comma) (objectLine R key f fs comma) := by
  have hblanks : Balanced (chars "  ") := by
    unfold Balanced
    decide
  refine strict_line (Fit.append (by decide) (Fit.append (fit_named hkey (fit_inline R h))
    (fit_comma hcomma).1)) (endsFirm_append _ ?_)
    (hblanks.append ((balanced_named hkey (balanced_inline R h)).append (fit_comma hcomma).2))
  rcases hcomma with rfl | rfl
  · exact endsFirm_append _ ⟨[], 44, rfl, by decide, by decide⟩
  · rw [List.append_nil]
    exact endsFirm_append _ (endsFirm_append _ (endsFirm_append _ (endsFirm_inline R f fs)))

theorem encode_flatMap {α : Type} (l : List α) (f : α → Text) :
    encode (l.flatMap f) = (l.map fun a => encode (f a)).flatten := by
  rw [encode, List.flatMap_assoc, List.flatMap_def]
  rfl

theorem fit_mabHead : Fit (mabHead R st) := by
  have hmab : Clean (chars "mab") := by decide
  have harms : Clean (chars "arms") := by decide
  exact Fit.append (by decide) (fit_named hmab (Fit.append (by decide)
    (Fit.append (fit_fields R (fields_mab st))
      (Fit.append (by decide) (fit_named harms (by decide))))))

theorem balanced_mabHead : Balanced (mabHead R st) := by
  have hmab : Clean (chars "mab") := by decide
  have harms : Clean (chars "arms") := by decide
  have hconst : Balanced (chars "  ") ∧ Balanced (chars "\x7b") ∧ Balanced (chars ", ") ∧
      Balanced (chars "[") := by
    unfold Balanced
    decide
  obtain ⟨hblanks, hopen, hcomma, hbracket⟩ := hconst
  have hfields := balanced_fields R (fields_mab st)
  exact hblanks.append (balanced_named hmab (hopen.append (hfields.append
    (hcomma.append (balanced_named harms hbracket)))))

/-- What is written of an arm. -/
def armText (a : Fin nvArmMax) : Text :=
  (if a.val ≠ 0 then chars ", " else []) ++ armObject R a.val (st.arms a)

theorem arm_spec (a : Fin nvArmMax) :
    Fit (armText R st a) ∧ Balanced (armText R st a) ∧ EndsFirm (armText R st a) := by
  have harm := fields_arm a.val (st.arms a)
  have hcomma : Fit (if a.val ≠ 0 then chars ", " else []) ∧
      Balanced (if a.val ≠ 0 then chars ", " else []) := by
    unfold Balanced
    split <;> decide
  exact ⟨Fit.append hcomma.1 (fit_inline R harm), hcomma.2.append (balanced_inline R harm),
    endsFirm_append _ (endsFirm_inline R _ _)⟩

/-- Firm writes that are balanced. -/
theorem sound_firm (Loose : Bytes → Prop) {ts : List Bytes}
    (h : ∀ t ∈ ts, 92 ∉ t ∧ Firm t ∧ run .outside t = .outside) :
    Sound Loose .outside ts ∧ run .outside ts.flatten = .outside := by
  induction ts with
  | nil => exact ⟨trivial, rfl⟩
  | cons t ts ih =>
    obtain ⟨⟨hslash, hfirm, hrun⟩, hts⟩ := List.forall_mem_cons.mp h
    obtain ⟨hsound, hrest⟩ := ih hts
    refine ⟨⟨.inl ⟨Place.noConfusion, hslash, .inl hfirm⟩, ?_⟩, ?_⟩
    · rw [hrun]
      exact hsound
    · rw [List.flatten_cons, run_append, hrun, hrest]

theorem strict_mabLine : StrictLine (mabCore R st) (mabLine R st) := by
  have hpost : Fit (chars "]\x7d,") ∧ Balanced (chars "]\x7d,") := by
    unfold Balanced
    decide
  have hend : EndsFirm (chars "]\x7d,") := ⟨[93, 125], 44, rfl, by decide, by decide⟩
  have hhead : EndsFirm (mabHead R st) :=
    endsFirm_append _ (endsFirm_append _ (endsFirm_append _ (endsFirm_append _ (endsFirm_append _
      (endsFirm_append _ (endsFirm_append _ (endsFirm_append _ (endsFirm_append _ (endsFirm_append _
        ⟨[], 91, rfl, by decide, by decide⟩)))))))))
  have hinit : ∀ t ∈ [encode (mabHead R st)] ++ (List.finRange nvArmMax).map (armWrite R st),
      (92 ∉ t ∧ Firm t ∧ run .outside t = .outside) ∧ t.getLast? ≠ some 10 := by
    have hwrite : ∀ {text : Text}, Fit text → Balanced text → EndsFirm text →
        (92 ∉ encode text ∧ Firm (encode text) ∧ run .outside (encode text) = .outside) ∧
          (encode text).getLast? ≠ some 10 := fun hfit hbalanced hend =>
      ⟨⟨fun hmem => (fit_bytes hfit 92 hmem).1 rfl, firm_encode hend, hbalanced⟩,
        fun hlast => (fit_bytes hfit 10 (List.mem_of_getLast? hlast)).2 rfl⟩
    refine List.forall_mem_append.mpr ⟨List.forall_mem_singleton.mpr
      (hwrite (fit_mabHead R st) (balanced_mabHead R st) hhead), fun t ht => ?_⟩
    obtain ⟨a, -, rfl⟩ := List.mem_map.mp ht
    obtain ⟨hfit, hbalanced, hend⟩ := arm_spec R st a
    exact hwrite hfit hbalanced hend
  have hsplit : mabLine R st = ([encode (mabHead R st)] ++
      (List.finRange nvArmMax).map (armWrite R st)) ++ [encode (chars "]\x7d,") ++ [10]] := by
    rw [mabLine, line, encode_snoc, List.append_assoc]
  have htext : ([encode (mabHead R st)] ++ (List.finRange nvArmMax).map (armWrite R st)).flatten ++
      encode (chars "]\x7d,") = encode (mabCore R st) := by
    have hflat : ((List.finRange nvArmMax).map (armWrite R st)).flatten =
        encode (armsText R st) := (encode_flatMap _ _).symm
    rw [List.flatten_append, List.flatten_singleton, hflat, ← encode_append, ← encode_append,
      mabCore, List.append_assoc]
  obtain ⟨-, hrun⟩ := sound_firm (fun _ => False) fun t ht => (hinit t ht).1
  rw [hsplit]
  refine ⟨harmlessLine_of_last (fun t ht => (hinit t ht).2) htext, fun Loose => ?_, ?_,
    fun w hw hlast ks h => ?_⟩
  · refine sound_append (sound_firm Loose fun t ht => (hinit t ht).1).1 ?_
    rw [hrun, ← encode_snoc]
    exact ⟨.inl ⟨Place.noConfusion, no_slash_line hpost.1, .inl (firm_line hend)⟩, trivial⟩
  · have hpostrun : run .outside (encode (chars "]\x7d,")) = .outside := hpost.2
    rw [List.flatten_append, run_append, hrun, List.flatten_singleton, run_append, hpostrun]
    rfl
  · refine harmless_of_cut hw hlast (List.forall_mem_append.mpr
      ⟨fun t ht => .inr (hinit t ht).2, List.forall_mem_singleton.mpr (.inl ?_)⟩) h
    rw [← encode_snoc]
    exact firm_line hend

/-! ### All lines -/

/-- The write of the member that ends with a number. -/
def enableCore : Text := argCore R "enable_validity" (.nat st.enableValidity.toNat) []

/-- The lines with another text in place of that member. -/
def linesWith (e : Text) : List (List Bytes) :=
  (lines R st ctx).take 13 ++ line e :: (lines R st ctx).drop 14

def coresWith (e : Text) : List Text :=
  (cores R st ctx).take 13 ++ e :: (cores R st ctx).drop 14

theorem lines_eq : lines R st ctx = linesWith R st ctx (enableCore R st) := rfl

theorem taskString_eq {s : Option CString} (h : hasNvTask st = false → CString.textOf s = []) :
    taskString st s = encode (CString.textOf s) := by
  rw [taskString]
  cases htask : hasNvTask st with
  | false =>
    rw [h htask]
    rfl
  | true =>
    cases s with
    | none => rfl
    | some s => exact (decode_eq_some s.decodes).2.symm

theorem textOf_of_no_task (h : hasNvTask st = false) : CString.textOf st.nvTaskPath = [] ∧
    CString.textOf st.targetEndpoint = [] ∧ CString.textOf st.seedSource = [] ∧
      CString.textOf st.seedLocation = [] := by
  have hpath : ∀ path ∈ st.nvTaskPath, path.bytes = [] := by
    intro path hpath
    rw [hasNvTask, show st.nvTaskPath = some path from hpath] at h
    simpa using h
  obtain ⟨hendpoint, hsource, hlocation⟩ := st.task_of_strings hpath
  refine ⟨?_, ?_⟩
  · cases hcase : st.nvTaskPath with
    | none => rfl
    | some path =>
      have hdecodes := path.decodes
      rw [hpath path hcase] at hdecodes
      exact (Option.some.inj hdecodes).symm
  · rw [hendpoint, hsource, hlocation]
    exact ⟨rfl, rfl, rfl⟩

theorem strict_taskString {key : String} (hkey : Clean (chars key)) {s : Option CString}
    (h : hasNvTask st = false → CString.textOf s = []) :
    StrictLine (stringCore key (CString.textOf s)) (stringLine key (taskString st s)) := by
  rw [taskString_eq st h]
  exact strict_stringLine hkey (scalar_textOf s)

theorem strict_const {core : Text} (h : Fit core ∧ Balanced core) (hend : EndsFirm core) :
    StrictLine core (line core) := strict_line h.1 hend h.2

instance (text : Text) : Decidable (Balanced text) :=
  inferInstanceAs (Decidable (run .outside (encode text) = .outside))

theorem strict_front :
    List.Forall₂ StrictLine ((cores R st ctx).take 13) ((lines R st ctx).take 13) :=
  .cons (strict_const (by decide) ⟨[], 123, rfl, by decide, by decide⟩)
  (.cons (strict_const (by decide) ⟨chars "  \"task\": ", 123, rfl, by decide, by decide⟩)
  (.cons (strict_argLine R (by decide) (clean_taskSource st))
  (.cons (strict_stringLine (by decide) (scalar_sourceNote st))
  (.cons (strict_taskString st (by decide) fun h => (textOf_of_no_task st h).1)
  (.cons (strict_argLine R (by decide) (clean_name _))
  (.cons (strict_argLine R (by decide) trivial)
  (.cons (strict_taskString st (by decide) fun h => (textOf_of_no_task st h).2.1)
  (.cons (strict_taskString st (by decide) fun h => (textOf_of_no_task st h).2.2.1)
  (.cons (strict_taskString st (by decide) fun h => (textOf_of_no_task st h).2.2.2)
  (.cons (strict_argLine R (by decide) trivial)
  (.cons (strict_argLine R (by decide) trivial)
  (.cons (strict_argLine R (by decide) trivial) .nil))))))))))))

theorem strict_back :
    List.Forall₂ StrictLine ((cores R st ctx).drop 14) ((lines R st ctx).drop 14) :=
  .cons (strict_const (by decide) ⟨[32, 32, 125], 44, rfl, by decide, by decide⟩)
  (.cons (strict_objectLine R (by decide) (fields_cov ctx) (.inl rfl))
  (.cons (strict_objectLine R (by decide) (fields_securityStateCov st) (.inl rfl))
  (.cons (strict_mabLine R st)
  (.cons (strict_objectLine R (by decide) (fields_mabJournal st ctx) (.inl rfl))
  (.cons (strict_objectLine R (by decide) (fields_validity R st) (.inl rfl))
  (.cons (strict_objectLine R (by decide) (fields_err R st) (.inl rfl))
  (.cons (strict_objectLine R (by decide) (fields_recovery R st) (.inl rfl))
  (.cons (strict_objectLine R (by decide) (fields_exec st) (.inr rfl))
  (.cons (strict_const (by decide) ⟨[], 125, rfl, by decide, by decide⟩) .nil)))))))))

theorem harmless_with (e : Text) :
    List.Forall₂ HarmlessLine (coresWith R st ctx e) (linesWith R st ctx e) :=
  List.rel_append ((strict_front R st ctx).imp fun _ _ h => h.toHarmlessLine)
    (.cons (harmlessLine_line e) ((strict_back R st ctx).imp fun _ _ h => h.toHarmlessLine))

theorem sound_lines (Loose : Bytes → Prop) {cores : List Text} {lines : List (List Bytes)}
    (h : List.Forall₂ StrictLine cores lines) :
    Sound Loose .outside lines.flatten ∧ run .outside lines.flatten.flatten = .outside := by
  induction h with
  | nil => exact ⟨trivial, rfl⟩
  | cons hline _ ih =>
    obtain ⟨hsound, hrun⟩ := ih
    refine ⟨?_, ?_⟩
    · rw [List.flatten_cons]
      refine sound_append (hline.sound Loose) ?_
      rw [hline.run_eq]
      exact hsound
    · rw [List.flatten_cons, List.flatten_append, run_append, hline.run_eq, hrun]

theorem harmless_lines {w : Bytes} (hw : ¬ Firm w) (hlast : w.getLast? = some 10)
    {cores : List Text} {lines : List (List Bytes)} (h : List.Forall₂ StrictLine cores lines)
    {ks : List Bytes} (hks : List.Forall₂ (Cut (· = w)) ks lines.flatten) :
    List.Forall₂ Harmless ks lines.flatten := by
  induction h generalizing ks with
  | nil => cases hks; exact .nil
  | cons hline _ ih =>
    rw [List.flatten_cons] at hks ⊢
    obtain ⟨ka, kb, rfl, ha, hb⟩ := forall₂_append hks
    exact List.rel_append (hline.harmless w hw hlast ka ha) (ih hb)

/-! ## The number at the end of a line -/

/-- A front part of a number is a smaller number. -/
theorem prefix_showNat {n : ℕ} {p l : Text} (h : JsonCodec.showNat n = p ++ l) (hp : p ≠ [])
    (hl : l ≠ []) : ∃ m < n, p = JsonCodec.showNat m := by
  induction n using Nat.strong_induction_on generalizing l with
  | _ n ih =>
    by_cases hn : n < 10
    · have hlen : (JsonCodec.showNat n).length = 1 := by
        interval_cases n <;> rfl
      have hp := List.length_pos_iff.mpr hp
      have hl := List.length_pos_iff.mpr hl
      rw [h, List.length_append] at hlen
      omega
    · have hsplit : JsonCodec.showNat n =
          JsonCodec.showNat (n / 10) ++ [(n % 10).digitChar.toNat] := by
        rw [JsonCodec.showNat, Nat.toDigits_of_base_le (by decide) (by omega), List.map_append]
        rfl
      rcases List.eq_nil_or_concat l with rfl | ⟨l', d, rfl⟩
      · exact absurd rfl hl
      · rw [List.concat_eq_append, ← List.append_assoc, hsplit] at h
        have hfront := (List.append_inj' h rfl).1
        by_cases hl' : l' = []
        · rw [hl', List.append_nil] at hfront
          exact ⟨n / 10, by omega, hfront.symm⟩
        · obtain ⟨m, hm, hpm⟩ := ih (n / 10) (by omega) hfront hl'
          exact ⟨m, by omega, hpm⟩

/-- The line without its number. -/
def bareCore (ws : Text) : Text :=
  chars "    " ++ (quote plain (chars "enable_validity") ++ 58 :: ws)

theorem enableCore_eq (n : ℕ) : argCore R "enable_validity" (.nat n) [] =
    bareCore (32 :: JsonCodec.showNat n) := by
  have hkey : Clean (chars "enable_validity") := by decide
  rw [argCore, named_eq hkey, List.append_nil]
  rfl

theorem bareCore_append (ws text : Text) : bareCore (ws ++ text) = bareCore ws ++ text := by
  simp only [bareCore, List.append_assoc, List.cons_append]

/-- What is left of the write, if it loses no weight. -/
theorem enable_cut {k l : Bytes} {n : ℕ}
    (h : encode (argCore R "enable_validity" (.nat n) [] ++ [10]) = k ++ l) (hl : weight l = 0) :
    Harmless k (encode (argCore R "enable_validity" (.nat n) [] ++ [10])) ∨
      (∃ m < n, k = encode (argCore R "enable_validity" (.nat m) [])) ∨
        ∃ ws, (ws = [] ∨ ws = [32]) ∧ k = encode (bareCore ws) := by
  have hascii : ∀ c ∈ 32 :: JsonCodec.showNat n ++ [10], c < 128 := by
    refine List.forall_mem_cons.mpr ⟨by decide, List.forall_mem_append.mpr ⟨fun c hc => ?_,
      by decide⟩⟩
    have hbounds := fit_showNat n c hc
    omega
  have hbytes : encode (argCore R "enable_validity" (.nat n) [] ++ [10]) =
      encode (bareCore []) ++ (32 :: JsonCodec.showNat n ++ [10]).map UInt8.ofNat := by
    rw [enableCore_eq, ← encode_ascii hascii, ← encode_append]
    congr 1
  have hfirm : ∃ a b, encode (bareCore []) = a ++ [b] ∧ 0 < weigh b := by
    refine ⟨encode (chars "    " ++ quote plain (chars "enable_validity")), 58, ?_, by decide⟩
    decide
  rw [hbytes] at h
  obtain ⟨d, rfl, hd⟩ := append_of_light (.inr hfirm) h hl
  obtain ⟨p, q, hpq, rfl, rfl⟩ := List.map_eq_append_iff.mp hd
  have hkept : encode (bareCore []) ++ p.map UInt8.ofNat = encode (bareCore p) := by
    rw [← encode_ascii fun c hc => hascii c (hpq ▸ List.mem_append_left q hc), ← encode_append,
      ← bareCore_append]
    rfl
  rw [hkept]
  cases p with
  | nil => exact .inr (.inr ⟨[], .inl rfl, rfl⟩)
  | cons c p =>
    rw [List.cons_append, List.cons_append] at hpq
    obtain ⟨hc, htail⟩ := List.cons.inj hpq
    rw [← hc]
    rcases List.eq_nil_or_concat q with rfl | ⟨q, x, rfl⟩
    · rw [List.append_nil] at htail
      refine .inl (.inl ?_)
      rw [← htail, enableCore_eq, ← bareCore_append]
      rfl
    · rw [List.concat_eq_append, ← List.append_assoc] at htail
      obtain ⟨hdigits, -⟩ := List.append_inj' htail rfl
      by_cases hq : q = []
      · rw [hq, List.append_nil] at hdigits
        refine .inl (.inr ?_)
        rw [encode_snoc, enableCore_eq, hdigits]
      · by_cases hp : p = []
        · exact .inr (.inr ⟨[32], .inr rfl, by rw [hp]⟩)
        · obtain ⟨m, hm, rfl⟩ := prefix_showNat hdigits hp hq
          exact .inr (.inl ⟨m, hm, by rw [enableCore_eq]⟩)

theorem enable_not_firm (n : ℕ) :
    ¬ Firm (encode (argCore R "enable_validity" (.nat n) [] ++ [10])) := by
  rintro ⟨a, b, hb, h | h⟩
  · rw [encode_snoc] at h
    have hten := (List.append_inj' h rfl).2
    rw [List.cons.injEq] at hten
    rw [← hten.1] at hb
    exact absurd hb (by decide)
  · have hsplit : encode (argCore R "enable_validity" (.nat n) []) = a ++ [b] := by
      have hconcat : a ++ [b, 10] = (a ++ [b]) ++ [10] := by rw [List.append_assoc]; rfl
      rw [encode_snoc, hconcat] at h
      exact List.append_cancel_right h
    have hlast : b ∈ encode (JsonCodec.showNat n) := by
      obtain ⟨ds, d, hds⟩ : ∃ ds d, JsonCodec.showNat n = ds ++ [d] := by
        rcases List.eq_nil_or_concat (JsonCodec.showNat n) with hnil | ⟨ds, d, hds⟩
        · exact absurd hnil (JsonCodec.showNat_ne_nil n)
        · exact ⟨ds, d, by rw [hds, List.concat_eq_append]⟩
      have hd : d < 128 := by
        have hbounds := fit_showNat n d (by rw [hds]; simp)
        omega
      have hend : encode [d] = [UInt8.ofNat d] := encode_ascii (List.forall_mem_singleton.mpr hd)
      rw [enableCore_eq, ← List.singleton_append, bareCore_append, hds, ← List.append_assoc,
        encode_append, hend] at hsplit
      have hb := (List.append_inj' hsplit rfl).2
      rw [List.cons.injEq] at hb
      rw [← hb.1, hds, encode_append, hend]
      exact List.mem_append_right _ List.mem_cons_self
    have hascii : ∀ c ∈ JsonCodec.showNat n, c < 128 := by
      intro c hc
      have hbounds := fit_showNat n c hc
      omega
    rw [encode_ascii hascii] at hlast
    obtain ⟨d, hd, rfl⟩ := List.mem_map.mp hlast
    have hfree : isFree (UInt8.ofNat d) = true := by
      have hlt := hascii d hd
      rw [isFree, UInt8.toNat_ofNat_of_lt' (by show d < 256; omega),
        JsonCodec.showNat_isNumberChar hd, Bool.or_true]
    rw [weigh, if_pos hfree] at hb
    exact absurd hb (by decide)

/-! ## What is left is read back -/

variable {F : Type} (N : Floats F)

theorem ws_of_newline {nl : ℕ → Text} (h : ∀ i, nl i = [] ∨ nl i = [10]) :
    ∀ i, ∀ c ∈ nl i, isWs c = true := by
  intro i
  rcases h i with h | h
  · rw [h]
    exact fun c hc => absurd hc List.not_mem_nil
  · rw [h]
    decide

/-- The bytes of the lines, whatever white space stands for the line feeds. -/
theorem read_lines {nl : ℕ → Text} (hnl : ∀ i, ∀ c ∈ nl i, isWs c = true) :
    readReport N (encode (joined nl (cores R st ctx))) = some (document N R st ctx) := by
  have hrenders := renders_report N R st ctx hnl
  have hscalar : ∀ c ∈ joined nl (cores R st ctx), Scalar c := by
    rw [joined_cores N R st ctx nl]
    exact List.forall_mem_append.mpr ⟨hrenders.sized.scalar, (sized_ws (hnl 23)).scalar⟩
  rw [readReport, decode_encode hscalar, Option.bind_some, joined_cores N R st ctx nl]
  exact hrenders.read_eq (hnl 23)

theorem forall_harmless (e : Text) {ks : List Bytes}
    (h : List.Forall₂ Harmless ks (linesWith R st ctx e).flatten) :
    ∃ nl : ℕ → Text, (∀ i, ∀ c ∈ nl i, isWs c = true) ∧
      ks.flatten = encode (joined nl (coresWith R st ctx e)) := by
  obtain ⟨nl, hnl, htext⟩ := kept_lines (harmless_with R st ctx e) h
  exact ⟨nl, ws_of_newline hnl, htext⟩

/-- Nothing but line feeds is missing. -/
theorem read_of_harmless {ks : List Bytes} (h : List.Forall₂ Harmless ks (writes R st ctx)) :
    readReport N ks.flatten = some (document N R st ctx) := by
  obtain ⟨nl, hnl, htext⟩ := forall_harmless R st ctx (enableCore R st) h
  rw [htext]
  exact read_lines R st ctx N hnl

/-- The number lacks digits. -/
theorem read_of_less {m : ℕ} (hm : m < st.enableValidity.toNat) {ks : List Bytes}
    (h : List.Forall₂ Harmless ks
      (linesWith R st ctx (argCore R "enable_validity" (.nat m) [])).flatten) :
    readReport N ks.flatten ≠ some (document N R st ctx) := by
  have hsmall := st.enableValidity.toNat_lt
  have hm256 : (UInt8.ofNat m).toNat = m := UInt8.toNat_ofNat_of_lt' (by show m < 256; omega)
  have hlines : linesWith R st ctx (argCore R "enable_validity" (.nat m) []) =
      lines R { st with enableValidity := UInt8.ofNat m } ctx := by
    have hcore : argCore R "enable_validity" (.nat m) [] =
        enableCore R { st with enableValidity := UInt8.ofNat m } := by
      rw [enableCore]
      dsimp only
      rw [hm256]
    rw [hcore]
    rfl
  rw [hlines] at h
  rw [read_of_harmless R { st with enableValidity := UInt8.ofNat m } ctx N h]
  intro heq
  have hreport := Value.dict.inj (Option.some.inj heq)
  have htask := Value.dict.inj (Prod.mk.inj (List.cons.inj hreport).1).2
  have hlast : some (chars "enable_validity", Value.int ((UInt8.ofNat m).toNat : ℤ)) =
      some (chars "enable_validity", (Value.int (st.enableValidity.toNat : ℤ) : Value F)) :=
    congrArg List.getLast? htask
  have hnumber := Value.int.inj (Prod.mk.inj (Option.some.inj hlast)).2
  rw [hm256] at hnumber
  omega

/-- The members of the task in front of the last one. -/
def frontMembers (nl : ℕ → Text) : List (Member F) :=
  (sourceMember N R st nl :: taskMembers N R st nl).take 11

/-- The report from the last member of the task on. -/
def bareTail (ws : Text) (nl : ℕ → Text) : Text :=
  (nl 12 ++ chars "    ") ++ (quote plain (chars "enable_validity") ++
    58 :: (ws ++ (nl 13 ++ chars "  ") ++ 125 :: 44 ::
      (nl 14 ++ joined (fun i => nl (i + 15)) ((cores R st ctx).drop 15))))

theorem joined_bare (ws : Text) (nl : ℕ → Text) :
    joined nl (coresWith R st ctx (bareCore ws)) = 123 :: ((nl 0 ++ chars "  ") ++
      (quote plain (chars "task") ++ 58 :: (32 :: 123 ::
        (frontText (frontMembers R st N nl) ++ bareTail R st ctx ws nl)))) := by
  simp only [coresWith, cores, List.take_succ_cons, List.take_zero, List.drop_succ_cons,
    List.drop_zero, joined, frontMembers, sourceMember, taskMembers, frontText, List.flatMap_cons,
    List.flatMap_nil, argMember, stringMember, argCore, stringCore, fieldMember, bareTail, bareCore,
    List.cons_append, List.nil_append]
  simp (disch := decide) only [shown_named]
  have hopen : chars "\x7b" = [123] := by decide
  have hcomma : chars "," = [44] := by decide
  have hname : chars "  \"task\": \x7b" =
      chars "  " ++ (quote plain (chars "task") ++ [58, 32, 123]) := by
    decide
  have hend : chars "  \x7d," = chars "  " ++ [125, 44] := by decide
  rw [hopen, hcomma, hname, hend]
  simp only [List.append_assoc, List.cons_append, List.nil_append]

/-- Without the number nothing is read. -/
theorem read_bare {ws : Text} (hws : ∀ c ∈ ws, isWs c = true) {nl : ℕ → Text}
    (hnl : ∀ i, ∀ c ∈ nl i, isWs c = true) :
    JsonCodec.read N (joined nl (coresWith R st ctx (bareCore ws))) = none := by
  have henable : Clean (chars "enable_validity") := by decide
  have htask : Clean (chars "task") := by decide
  have hgap := ws_gap hnl 13 "  " (by decide)
  have htail : ∀ n acc, (bareTail R st ctx ws nl).length ≤ n →
      members N n (bareTail R st ctx ws nl) acc = none := by
    intro n acc hn
    refine members_refuse (ws_gap hnl 12 "    " (by decide)) henable.scalar (fun k _ => ?_) hn acc
    rw [List.append_assoc, skipWs_append hws, skipWs_append hgap]
    exact value_brace k _
  have hok : ∀ m ∈ frontMembers R st N nl, m.Ok N := fun m hm =>
    ok_task N R st hnl m (List.mem_of_mem_take hm)
  rw [joined_bare R st ctx N]
  generalize bareTail R st ctx ws nl = tail at htail ⊢
  have hobject : ∀ n, (123 :: (frontText (frontMembers R st N nl) ++ tail)).length ≤ n →
      value N n (123 :: (frontText (frontMembers R st N nl) ++ tail)) = none := by
    intro n hn
    exact value_refuse (token_front (hok _ List.mem_cons_self) _ tail)
      (fun k acc hk => members_front hok htail hk acc) hn
  have hblanks := ws_gap hnl 0 "  " (by decide)
  have hbad : ∀ i, (32 :: 123 :: (frontText (frontMembers R st N nl) ++ tail)).length ≤ i →
      value N i (skipWs (32 :: 123 :: (frontText (frontMembers R st N nl) ++ tail))) = none := by
    intro i hi
    rw [List.length_cons] at hi
    exact hobject i (Nat.le_of_succ_le hi)
  rw [JsonCodec.read, skipWs_cons (by decide), value_refuse (token_quoted hblanks (chars "task") _)
    (fun k acc hk => members_refuse hblanks htask.scalar hbad hk acc) (Nat.le_refl _)]
  rfl

theorem mem_joined {nl : ℕ → Text} {cores : List Text} {c : ℕ} :
    c ∈ joined nl cores → (∃ core ∈ cores, c ∈ core) ∨ ∃ i, c ∈ nl i := by
  induction cores generalizing nl with
  | nil => exact fun h => absurd h List.not_mem_nil
  | cons core cores ih =>
    intro h
    rcases List.mem_append.mp h with h | h
    · exact .inl ⟨core, List.mem_cons_self, h⟩
    · rcases List.mem_append.mp h with h | h
      · exact .inr ⟨0, h⟩
      · rcases ih h with ⟨core', hcore, h⟩ | ⟨i, h⟩
        · exact .inl ⟨core', List.mem_cons_of_mem core hcore, h⟩
        · exact .inr ⟨i + 1, h⟩

theorem mem_joined_of_core (nl : ℕ → Text) {cores : List Text} {core : Text} (h : core ∈ cores)
    {c : ℕ} (hc : c ∈ core) : c ∈ joined nl cores := by
  induction cores generalizing nl with
  | nil => exact absurd h List.not_mem_nil
  | cons core' cores ih =>
    rcases List.mem_cons.mp h with rfl | h
    · exact List.mem_append_left _ hc
    · exact List.mem_append_right _ (List.mem_append_right _ (ih _ h))

/-- The number is missing. -/
theorem read_of_bare {ws : Text} (hws : ws = [] ∨ ws = [32]) {ks : List Bytes}
    (h : List.Forall₂ Harmless ks (linesWith R st ctx (bareCore ws)).flatten) :
    readReport N ks.flatten = none := by
  obtain ⟨nl, hnl, htext⟩ := forall_harmless R st ctx (bareCore ws) h
  have hwhite : ∀ c ∈ ws, isWs c = true := by
    rcases hws with rfl | rfl <;> decide
  have hcores : ∀ core ∈ cores R st ctx, ∀ c ∈ core, Scalar c := by
    intro core hcore c hc
    have hmem := mem_joined_of_core nl hcore hc
    rw [joined_cores Special.floats R st ctx nl] at hmem
    refine List.forall_mem_append.mpr ⟨(renders_report Special.floats R st ctx hnl).sized.scalar,
      (sized_ws (hnl 23)).scalar⟩ c hmem
  have hscalar : ∀ c ∈ joined nl (coresWith R st ctx (bareCore ws)), Scalar c := by
    intro c hc
    rcases mem_joined hc with ⟨core, hcore, hc⟩ | ⟨i, hc⟩
    · rcases List.mem_append.mp hcore with hcore | hcore
      · exact hcores core (List.mem_of_mem_take hcore) c hc
      · rcases List.mem_cons.mp hcore with rfl | hcore
        · rcases hws with rfl | rfl
          · exact (show ∀ c ∈ bareCore [], Scalar c by decide) c hc
          · exact (show ∀ c ∈ bareCore [32], Scalar c by decide) c hc
        · exact hcores core (List.mem_of_mem_drop hcore) c hc
    · exact (sized_ws (hnl i)).scalar c hc
  rw [htext, readReport, decode_encode hscalar, Option.bind_some]
  exact read_bare R st ctx N hwhite hnl

/-! ## The report -/

/-- The write of the member that ends with a number. -/
def enableWrite : Bytes := encode (enableCore R st ++ [10])

theorem writes_eq : writes R st ctx = ((lines R st ctx).take 13).flatten ++
    enableWrite R st :: ((lines R st ctx).drop 14).flatten := by
  rw [writes, lines_eq, linesWith, List.flatten_append, List.flatten_cons]
  rfl

theorem sound_writes : Sound (· = enableWrite R st) .outside (writes R st ctx) := by
  obtain ⟨hfront, hrun⟩ := sound_lines (· = enableWrite R st) (strict_front R st ctx)
  have henable : Clean (chars "enable_validity") := by decide
  have hclean : (Arg.nat st.enableValidity.toNat : Arg D).Clean := trivial
  have hfit : Fit (enableCore R st) := fit_argCore R henable hclean (.inr rfl)
  have hbalanced : run .outside (encode (enableCore R st)) = .outside :=
    balanced_argCore R henable hclean (.inr rfl)
  rw [writes_eq]
  refine sound_append hfront ?_
  rw [hrun]
  refine ⟨.inl ⟨Place.noConfusion, no_slash_line hfit, .inr rfl⟩, ?_⟩
  have hnext : run .outside (enableWrite R st) = .outside := by
    rw [enableWrite, encode_snoc, run_append, hbalanced]
    rfl
  rw [hnext]
  exact (sound_lines _ (strict_back R st ctx)).1

/-- A cut that loses no weight and that is read as the document loses line feeds only. -/
theorem harmless_of_read {ks : List Bytes}
    (h : List.Forall₂ (Cut (· = enableWrite R st)) ks (writes R st ctx))
    (hread : readReport N ks.flatten = some (document N R st ctx)) :
    List.Forall₂ Harmless ks (writes R st ctx) := by
  have hfirm : ¬ Firm (enableWrite R st) := enable_not_firm R _
  have hlast : (enableWrite R st).getLast? = some 10 := by
    rw [enableWrite, encode_snoc]
    exact List.getLast?_concat
  rw [writes_eq] at h ⊢
  obtain ⟨ka, kb, rfl, hfront, hb⟩ := forall₂_append h
  have hfront := harmless_lines hfirm hlast (strict_front R st ctx) hfront
  cases hb with
  | @cons k _ kb _ hcut hback =>
    have hback := harmless_lines hfirm hlast (strict_back R st ctx) hback
    have hother : ∀ e, k = encode e → List.Forall₂ Harmless (ka ++ k :: kb)
        (linesWith R st ctx e).flatten := by
      intro e hk
      rw [linesWith, List.flatten_append, List.flatten_cons]
      refine List.rel_append hfront (.cons (.inr ?_) hback)
      rw [hk]
      exact encode_snoc e
    have hhead : Harmless k (enableWrite R st) := by
      rcases hcut with hk | hk | ⟨-, l, hkl, hl⟩
      · exact .inl hk
      · exact .inr hk
      · rcases enable_cut R hkl hl with hk | ⟨m, hm, hk⟩ | ⟨ws, hws, hk⟩
        · exact hk
        · exact absurd hread (read_of_less R st ctx N hm (hother _ hk))
        · rw [read_of_bare R st ctx N hws (hother _ hk)] at hread
          cases hread
    exact List.rel_append hfront (.cons hhead hback)

theorem kept_cut (o : Outcome) (t : Bytes) : o.kept t <+: t := by
  cases o with
  | complete => exact List.prefix_refl t
  | short n => exact List.take_prefix n t
  | failed => exact List.nil_prefix

theorem surviving_cut (outcome : ℕ → Outcome) (i : ℕ) (ts : List Bytes) :
    List.Forall₂ (fun k t => k <+: t) (surviving outcome i ts) ts := by
  induction ts generalizing i with
  | nil => exact .nil
  | cons t ts ih => exact .cons (kept_cut _ t) (ih (i + 1))

/-- What is left of the writes is read as the document if and only if nothing but line feeds is
missing. -/
theorem read_iff {ks : List Bytes} (hcut : List.Forall₂ (fun k t => k <+: t) ks (writes R st ctx)) :
    readReport N ks.flatten = some (document N R st ctx) ↔
      List.Forall₂ Harmless ks (writes R st ctx) := by
  refine ⟨fun hread => ?_, read_of_harmless R st ctx N⟩
  have hwhole : (writes R st ctx).flatten = encode (joined (fun _ => [10]) (cores R st ctx)) :=
    flatten_lines (harmless_with R st ctx (enableCore R st))
  have hnl : ∀ i, ∀ c ∈ (fun _ : ℕ => ([10] : Text)) i, isWs c = true :=
    ws_of_newline fun _ => .inr rfl
  have hrenders := renders_report N R st ctx hnl
  have hsized := hrenders.sized.append (sized_ws (hnl 23))
  have hmeasure : ∀ M : Measure, M.of .outside (writes R st ctx).flatten ≤
      M.of .outside ks.flatten := by
    intro M
    rw [hwhole, joined_cores N, hsized.of_eq M]
    obtain ⟨text, hdecode, htext⟩ := Option.bind_eq_some_iff.mp hread
    obtain ⟨hscalar, hbytes⟩ := decode_eq_some hdecode
    rw [← hbytes]
    refine total_le_of_read (fun c hc => ?_) htext
    have hc := hscalar c hc
    unfold Scalar at hc
    omega
  have hkept := (cut_of_measures (sound_writes R st ctx) hcut (hmeasure weights)).2
    (hmeasure contents)
  exact harmless_of_read R st ctx N hkept hread

end Lines

/-- The report is as before or is read as the document if and only if the file is not opened or not
renamed, or no write loses more than its line feed, or the report held the same bytes before. -/
theorem eval_report {D F : Type} (N : Floats F) (R : Doubles D) (calls : Calls) (st : State D)
    (ctx : Context D) (files : Files) :
    ((nvWriteEvalReportJson R calls st ctx files).report = files.report ∨
      ∃ bytes, (nvWriteEvalReportJson R calls st ctx files).report = some bytes ∧
        readReport N bytes = some (document N R st ctx)) ↔
    calls.opened = false ∨ calls.renamed = false ∨
      List.Forall₂ Harmless (surviving calls.outcome 0 (writes R st ctx)) (writes R st ctx) ∨
      files.report = some (surviving calls.outcome 0 (writes R st ctx)).flatten := by
  have hread := read_iff R st ctx N (surviving_cut calls.outcome 0 (writes R st ctx))
  rw [nvWriteEvalReportJson]
  cases hopened : calls.opened with
  | false => exact ⟨fun _ => .inl rfl, fun _ => .inl rfl⟩
  | true =>
    cases hrenamed : calls.renamed with
    | false => exact ⟨fun _ => .inr (.inl rfl), fun _ => .inl rfl⟩
    | true =>
      simp only [if_true, Bool.true_eq_false, false_or]
      refine ⟨fun h => ?_, fun h => ?_⟩
      · rcases h with h | ⟨bytes, hbytes, h⟩
        · exact .inr h.symm
        · rw [← Option.some.inj hbytes] at h
          exact .inl (hread.mp h)
      · rcases h with h | h
        · exact .inr ⟨_, rfl, hread.mpr h⟩
        · exact .inl h.symm

/-- The numbers without fractions. -/
def wholeNumbers : Doubles ℕ where
  ofNat n := n
  div a b := a / b
  isNegative _ := false
  scaled k x := x * 10 ^ k

/-- A state without a task, before its first execution. -/
def freshState : State ℕ where
  nvTaskPath := none
  targetType := .unknown
  targetEndpoint := none
  seedSource := none
  seedLocation := none
  mutationScope := 0
  maxTestCases := 0
  timeBudgetSec := 0
  enableValidity := 0
  nvCovUsed := 0
  nvSecStateNewTotal := 0
  nvSecStateDeltaLast := 0
  nvSecStateObs := 0
  nvSecStateSeedCredit := 0
  nvCovCap := 0
  nvSecStateSaturated := 0
  nvSecStateDropped := 0
  nvSecStateReplays := 0
  nvSecStateRewardSrcSeq := 0
  mabC := 0
  minExplore := 0
  totalPulls := 0
  coldStartPicks := 0
  ucbPicks := 0
  arms _ := ⟨0, 0, 0, 0⟩
  nvMabJournalEnabled := 0
  nvMabJournalRecordCount := 0
  nvMabJournalErrorCount := 0
  nvMabJournalAuditInvalid := 0
  nvValidCnt := 0
  nvInvalidCnt := 0
  nvInvalidParseCnt := 0
  nvInvalidRuleCnt := 0
  nvInvalidRpcFailCnt := 0
  nvErrExec := 0
  nvRecTotal := 0
  nvRecSuccess := 0
  nvRecTimeSumMs := 0
  nvTotalValidExec := 0
  totalExecs := 0
  task_of_strings _ := ⟨rfl, rfl, rfl⟩

/-- `é/a"b\`, and a line feed behind it. -/
def quotedPath : CString where
  bytes := [195, 169] ++ ascii "/a\"b\\\n"
  text := 233 :: chars "/a\"b\\\n"
  decodes := by decide
  noNul := by decide

/-- A state with a task whose strings need escapes. -/
def quotedState : State ℕ :=
  { freshState with
    nvTaskPath := some quotedPath
    seedSource := some quotedPath
    totalExecs := 3
    task_of_strings := fun h => absurd (h quotedPath rfl) (by decide) }

theorem surviving_complete (i : ℕ) (ts : List Bytes) :
    surviving (fun _ => .complete) i ts = ts := by
  induction ts generalizing i with
  | nil => rfl
  | cons t ts ih => exact congrArg (t :: ·) (ih (i + 1))

/-- The report of this state is read back, strings and all. -/
theorem eval_report_quoted :
    ∃ bytes, (nvWriteEvalReportJson wholeNumbers ⟨true, fun _ => .complete, true⟩ quotedState
        ⟨0, 0, none⟩ ⟨none, none⟩).report = some bytes ∧
      readReport Special.floats bytes =
        some (document Special.floats wholeNumbers quotedState ⟨0, 0, none⟩) := by
  have hwhole : List.Forall₂ Harmless
      (surviving (fun _ => .complete) 0 (writes wholeNumbers quotedState ⟨0, 0, none⟩))
      (writes wholeNumbers quotedState ⟨0, 0, none⟩) := by
    rw [surviving_complete]
    exact List.forall₂_same.mpr fun _ _ => .inl rfl
  obtain h | h := (eval_report Special.floats wholeNumbers ⟨true, fun _ => .complete, true⟩
    quotedState ⟨0, 0, none⟩ ⟨none, none⟩).mpr (.inr (.inr (.inl hwhole)))
  · cases h
  · exact h

theorem surviving_failed (i : ℕ) (ts : List Bytes) :
    (surviving (fun _ => .failed) i ts).flatten = [] := by
  induction ts generalizing i with
  | nil => rfl
  | cons t ts ih => exact ih (i + 1)

/-- On a full disk an empty file takes the place of the report. -/
theorem full_disk_empties_report :
    ¬ ((nvWriteEvalReportJson wholeNumbers ⟨true, fun _ => .failed, true⟩ freshState ⟨0, 0, none⟩
        ⟨some (encode (chars "\x7b\x7d")), none⟩).report = some (encode (chars "\x7b\x7d")) ∨
      ∃ bytes, (nvWriteEvalReportJson wholeNumbers ⟨true, fun _ => .failed, true⟩ freshState
          ⟨0, 0, none⟩ ⟨some (encode (chars "\x7b\x7d")), none⟩).report = some bytes ∧
        readReport Special.floats bytes =
          some (document Special.floats wholeNumbers freshState ⟨0, 0, none⟩)) := by
  simp only [nvWriteEvalReportJson, if_true, surviving_failed, Option.some.injEq]
  rintro (h | ⟨bytes, rfl, h⟩)
  · exact absurd h (by decide)
  · cases h

end AflNv.EvalReport
