import AflNv.Lib.JsonMeasure
import AflNv.Lib.JsonRaw

/-!
# Texts of JSON values, and documents with cut writes

* `Renders` says that a text is read as a value, whatever follows it, and has just the measure of
  the value.  Numbers, strings, objects with any white space and arrays on one line have it.
* A document is written piece by piece, and each write can be cut short.  `Sound` says of the
  writes that they end with a byte that weighs, or with a line feed behind one, and that the
  characters of strings are written in strings.
* `cut_of_measures`: if the cut writes measure as much as the whole ones, then each of them is whole
  or lacks a line feed at its end.
-/

namespace AflNv.Lib.JsonText

open AflNv.Lib.JsonCodec AflNv.Lib.Utf8 AflNv.Lib.JsonMeasure

/-! ## Texts of a value -/

/-- A text outside of strings, and its measure. -/
structure Sized (size : Measure → ℕ) (text : Text) : Prop where
  scalar : ∀ c ∈ text, Scalar c
  run_eq : run .outside (encode text) = .outside
  of_eq : ∀ M : Measure, M.of .outside (encode text) = size M

theorem Sized.append {f g : Measure → ℕ} {a b : Text} (ha : Sized f a) (hb : Sized g b) :
    Sized (fun M => f M + g M) (a ++ b) where
  scalar := List.forall_mem_append.mpr ⟨ha.scalar, hb.scalar⟩
  run_eq := by rw [encode_append, run_append, ha.run_eq, hb.run_eq]
  of_eq M := by rw [encode_append, M.append, ha.run_eq, ha.of_eq, hb.of_eq]

theorem Sized.congr {f g : Measure → ℕ} {text : Text} (h : Sized f text) (hfg : ∀ M, f M = g M) :
    Sized g text := ⟨h.scalar, h.run_eq, fun M => (h.of_eq M).trans (hfg M)⟩

theorem of_nil (M : Measure) : M.of .outside [] = 0 := by
  have h := M.append .outside [] []
  rw [List.append_nil, run, List.foldl_nil] at h
  omega

theorem of_free_bytes (M : Measure) {bs : List UInt8} (h : ∀ b ∈ bs, isFree b = true) :
    M.of .outside bs = 0 := by
  induction bs with
  | nil => exact of_nil M
  | cons b bs ih =>
    rw [List.forall_mem_cons] at h
    have hquote : b ≠ 34 := by
      rintro rfl
      exact absurd h.1 (by decide)
    have hrun := (run_outside (List.forall_mem_singleton.mpr hquote)).1
    rw [← List.singleton_append, M.append, M.of_free b h.1, hrun, ih h.2]

theorem sized_free {text : Text} (h : ∀ c ∈ text, (isWs c || isNumberChar c) = true) :
    Sized (fun _ => 0) text := by
  have hrange : ∀ c ∈ text, c < 128 ∧ c ≠ 34 := by
    intro c hc
    have hchar := h c hc
    simp only [isWs, isNumberChar, isDigit, Bool.or_eq_true, Bool.and_eq_true,
      decide_eq_true_eq] at hchar
    omega
  have hbytes := encode_ascii fun c hc => (hrange c hc).1
  have hfree : ∀ b ∈ encode text, isFree b = true ∧ b ≠ 34 := by
    intro b hb
    rw [hbytes] at hb
    obtain ⟨c, hc, rfl⟩ := List.mem_map.mp hb
    obtain ⟨hlt, hne⟩ := hrange c hc
    refine ⟨?_, ofNat_ne hlt hne⟩
    rw [isFree, UInt8.toNat_ofNat_of_lt' (by show c < 256; omega)]
    exact h c hc
  refine ⟨fun c hc => .inl ?_, (run_outside fun b hb => (hfree b hb).2).1,
    fun M => of_free_bytes M fun b hb => (hfree b hb).1⟩
  have hlt := (hrange c hc).1
  omega

theorem sized_ws {ws : Text} (h : ∀ c ∈ ws, isWs c = true) : Sized (fun _ => 0) ws :=
  sized_free fun c hc => by rw [h c hc, Bool.true_or]

theorem sized_blank : Sized (fun _ => 0) [32] := sized_ws (by decide)

theorem sized_mark {c : ℕ} (hc : c < 128) (hmark : UInt8.ofNat c ∈ marks) :
    Sized (fun M => M.mark) [c] := by
  have hbytes := encode_ascii (List.forall_mem_singleton.mpr hc)
  refine ⟨List.forall_mem_singleton.mpr (.inl (by omega)), ?_, fun M => ?_⟩
  · rw [hbytes]
    refine (run_outside (List.forall_mem_singleton.mpr ?_)).1
    intro hquote
    rw [hquote] at hmark
    exact absurd hmark (by decide)
  · rw [hbytes]
    exact M.of_mark _ hmark

/-- The text is read as the value, whatever follows it, and has just its measure. -/
structure Renders {F : Type} (N : Floats F) (v : Value F) (text : Text) : Prop where
  opens : Opens text
  reads : ∀ rest n, Ends rest → text.length ≤ n → value N n (text ++ rest) = some (v, rest)
  sized : Sized (fun M => total M v) text

variable {F : Type} {N : Floats F}

theorem value_atom {text rest : Text} {v : Value F} (hne : text ≠ [])
    (h : atom N (text ++ rest) = some (v, rest)) {n : ℕ} (hn : text.length ≤ n) :
    value N n (text ++ rest) = some (v, rest) := by
  have hpos := List.length_pos_iff.mpr hne
  obtain ⟨m, rfl⟩ := Nat.exists_eq_succ_of_ne_zero (show n ≠ 0 by omega)
  exact value_of_atom h m

theorem renders_int (N : Floats F) (i : ℤ) : Renders N (.int i) (JsonCodec.showInt i) := by
  have hopens := opens_of_startsNumber (startsNumber_of_isInt (JsonCodec.isInt_showInt i))
  exact ⟨hopens, fun rest n hrest hn => value_atom hopens.ne_nil (atom_showInt N i hrest) hn,
    sized_free fun c hc => by rw [showInt_isNumberChar i c hc, Bool.or_true]⟩

theorem renders_nat (N : Floats F) (n : ℕ) : Renders N (.int n) (JsonCodec.showNat n) :=
  renders_int N n

theorem renders_float (N : Floats F) {text : Text} (hchars : ∀ c ∈ text, isNumberChar c = true)
    (hfloat : isFloat text = true) : Renders N (.float (N.read text)) text := by
  have hstart := startsNumber_of_isFloat hfloat
  have hint : ¬ isInt text = true := by
    simp only [isFloat, Bool.and_eq_true, Bool.not_eq_true'] at hfloat
    simp [hfloat.2]
  have hnumber : number N text = some (.float (N.read text)) := by
    rw [number, if_neg hint, if_pos hfloat]
  have hopens := opens_of_startsNumber hstart
  exact ⟨hopens, fun rest n hrest hn =>
    value_atom hopens.ne_nil (atom_number N hchars hstart hnumber hrest) hn,
    sized_free fun c hc => by rw [hchars c hc, Bool.or_true]⟩

theorem isStr_of_scalar {s : Text} (h : ∀ c ∈ s, Scalar c) : IsStr s where
  range c hc := by
    have hscalar := h c hc
    unfold Scalar at hscalar
    omega
  unpaired := by
    refine (List.pairwise_iff_forall_sublist.mpr fun {a b} hab hpair => ?_).isChain
    have hscalar := h a (hab.subset List.mem_cons_self)
    have hhigh := isHigh_iff.mp hpair.1
    unfold Scalar at hscalar
    omega

theorem scalar_of_ascii {text : Text} (h : Ascii text) : ∀ c ∈ text, Scalar c := by
  intro c hc
  have hlt := h c hc
  exact .inl (by omega)

theorem scalar_escape {c : ℕ} (hc : Scalar c) : ∀ d ∈ escape plain c, Scalar d := by
  obtain ⟨e, he, hescape⟩ | ⟨-, h9, hescape⟩ | ⟨hw, -⟩ | ⟨-, -, -, -, hescape⟩ :=
    escape_cases plain c
  · rw [hescape]
    exact scalar_of_ascii (ascii_short he)
  · rw [hescape]
    exact scalar_of_ascii (ascii_unicodeEscape h9)
  · exact absurd hw Bool.false_ne_true
  · rw [hescape]
    exact List.forall_mem_singleton.mpr hc

theorem sized_quote {s : Text} (h : ∀ c ∈ s, Scalar c) :
    Sized (fun M => M.str s) (quote plain s) := by
  have hself := scans_escaped (isStr_of_scalar h).range
  refine ⟨?_, ?_, fun M => rfl⟩
  · refine List.forall_mem_cons.mpr ⟨by decide, List.forall_mem_append.mpr ⟨?_, by decide⟩⟩
    intro d hd
    obtain ⟨c, hc, hmem⟩ := List.mem_flatMap.mp hd
    exact scalar_escape (h c hc) d hmem
  · rw [quote, encode_quoted]
    show run .inside (encode (s.flatMap (escape plain)) ++ [34]) = _
    rw [run_append, hself.run_eq]
    rfl

theorem renders_str (N : Floats F) {s : Text} (h : ∀ c ∈ s, Scalar c) :
    Renders N (.str s) (quote plain s) := by
  refine ⟨opens_cons rfl (by decide), fun rest n hrest hn => ?_, sized_quote h⟩
  have hlayout := value_layout N plain (oneLine plain) 0 (.str s) (isStr_of_scalar h) hrest hn
  exact hlayout

/-- A member of an object: the white space in front of it, its key and its text. -/
structure Member (F : Type) where
  gap : Text
  key : Text
  text : Text
  value : Value F

namespace Member

def pair (m : Member F) : Text × Value F := (m.key, m.value)

def shown (m : Member F) : Text := m.gap ++ (quote plain m.key ++ 58 :: 32 :: m.text)

structure Ok (N : Floats F) (m : Member F) : Prop where
  gap : ∀ c ∈ m.gap, isWs c = true
  key : ∀ c ∈ m.key, Scalar c
  renders : Renders N m.value m.text

end Member

/-- The further members of an object, and its end. -/
def moreText (last : Text) : List (Member F) → Text
  | [] => last ++ [125]
  | m :: ms => 44 :: (m.shown ++ moreText last ms)

def objectText (m : Member F) (ms : List (Member F)) (last : Text) : Text :=
  123 :: (m.shown ++ moreText last ms)

theorem ends_moreText {last : Text} (hlast : ∀ c ∈ last, isWs c = true) (ms : List (Member F))
    (rest : Text) : Ends (moreText last ms ++ rest) := by
  cases ms with
  | nil =>
    rw [moreText, List.append_assoc]
    exact ends_append hlast rfl rest
  | cons m ms => exact fun _ hc => Option.some.inj hc ▸ rfl

/-- One member is read. -/
theorem members_member {m : Member F} (hm : m.Ok N) {acc : List (Text × Value F)}
    (hnew : m.key ∉ acc.map Prod.fst) {tail : Text} (htail : Ends tail) {n : ℕ}
    (hn : m.text.length ≤ n) : members N (n + 1) (m.shown ++ tail) acc =
      moreMembers N n tail (acc ++ [m.pair]) := by
  have hskip : skipWs (m.shown ++ tail) =
      quote plain m.key ++ 58 :: (32 :: (m.text ++ tail)) := by
    rw [Member.shown, List.append_assoc, skipWs_append hm.gap, List.append_assoc]
    rfl
  have hvalue : skipWs (32 :: (m.text ++ tail)) = m.text ++ tail :=
    hm.renders.opens.skipWs_eq tail
  rw [members_eq (isStr_of_scalar hm.key) hskip, hvalue, hm.renders.reads tail n htail hn,
    Option.bind_some, setItem_new hnew]
  rfl

theorem members_shown {last : Text} (hlast : ∀ c ∈ last, isWs c = true) {m : Member F}
    {ms : List (Member F)} (hms : ∀ m' ∈ m :: ms, m'.Ok N) {acc : List (Text × Value F)}
    (hnodup : (acc.map Prod.fst ++ (m :: ms).map Member.key).Nodup) (rest : Text) {n : ℕ}
    (hn : (m.shown ++ moreText last ms).length ≤ n) :
    members N n (m.shown ++ (moreText last ms ++ rest)) acc =
      some (acc ++ (m :: ms).map Member.pair, rest) := by
  induction ms generalizing m acc n with
  | nil =>
    have hm := hms m List.mem_cons_self
    have hnew : m.key ∉ acc.map Prod.fst := fun h =>
      (List.nodup_append.mp hnodup).2.2 m.key h m.key List.mem_cons_self rfl
    simp only [Member.shown, quote, List.length_append, List.length_cons] at hn
    obtain ⟨k, rfl⟩ := Nat.exists_eq_succ_of_ne_zero (show n ≠ 0 by omega)
    rw [members_member hm hnew (ends_moreText hlast [] rest) (by omega), moreText, moreMembers,
      List.append_assoc, token_append hlast, token_append hlast]
    rfl
  | cons m' ms ih =>
    obtain ⟨hm, hms⟩ := List.forall_mem_cons.mp hms
    have hnew : m.key ∉ acc.map Prod.fst := fun h =>
      (List.nodup_append.mp hnodup).2.2 m.key h m.key List.mem_cons_self rfl
    have hnodup' : ((acc ++ [m.pair]).map Prod.fst ++ (m' :: ms).map Member.key).Nodup := by
      rw [List.map_append, List.append_assoc]
      exact hnodup
    simp only [Member.shown, quote, moreText, List.length_append, List.length_cons] at hn
    obtain ⟨k, rfl⟩ := Nat.exists_eq_succ_of_ne_zero (show n ≠ 0 by omega)
    rw [members_member hm hnew (ends_moreText hlast (m' :: ms) rest) (by omega), moreMembers]
    have htoken : token 44 (moreText last (m' :: ms) ++ rest) =
        some (m'.shown ++ (moreText last ms ++ rest)) := by
      rw [moreText, List.cons_append, List.append_assoc]
      rfl
    rw [htoken]
    dsimp only
    rw [ih hms hnodup' (by
      simp only [Member.shown, quote, List.length_append, List.length_cons]
      omega), List.append_assoc]
    rfl

theorem sized_shown {m : Member F} (hm : m.Ok N) :
    Sized (fun M => M.str m.key + M.mark + total M m.value) m.shown := by
  have hcolon : Sized (fun M => M.mark) [58, 32] :=
    (sized_mark (c := 58) (by decide) (by decide)).append sized_blank
  have hall := (sized_ws hm.gap).append
    ((sized_quote hm.key).append (hcolon.append hm.renders.sized))
  refine Sized.congr hall fun M => ?_
  omega

theorem sized_moreText {last : Text} (hlast : ∀ c ∈ last, isWs c = true) {ms : List (Member F)}
    (hms : ∀ m ∈ ms, m.Ok N) :
    Sized (fun M => M.mark + totalMembers M (ms.map Member.pair)) (moreText last ms) := by
  induction ms with
  | nil =>
    have hend := (sized_ws hlast).append (sized_mark (c := 125) (by decide) (by decide))
    refine hend.congr fun M => ?_
    show 0 + M.mark = M.mark + 0
    omega
  | cons m ms ih =>
    obtain ⟨hm, hms⟩ := List.forall_mem_cons.mp hms
    have hall := (sized_mark (c := 44) (by decide) (by decide)).append
      ((sized_shown hm).append (ih hms))
    refine Sized.congr hall fun M => ?_
    show _ = M.mark + (M.str m.key + M.mark + total M m.value + M.mark +
      totalMembers M (ms.map Member.pair))
    omega

theorem renders_object {last : Text} (hlast : ∀ c ∈ last, isWs c = true) {m : Member F}
    {ms : List (Member F)} (hms : ∀ m' ∈ m :: ms, m'.Ok N)
    (hnodup : ((m :: ms).map Member.key).Nodup) :
    Renders N (.dict ((m :: ms).map Member.pair)) (objectText m ms last) := by
  obtain ⟨hm, htail⟩ := List.forall_mem_cons.mp hms
  refine ⟨opens_cons rfl (by decide), fun rest n hrest hn => ?_, ?_⟩
  · rw [objectText, List.length_cons] at hn
    obtain ⟨k, rfl⟩ := Nat.exists_eq_succ_of_ne_zero (show n ≠ 0 by omega)
    have htoken : token 125 (m.shown ++ (moreText last ms ++ rest)) = none := by
      rw [Member.shown, List.append_assoc, token_append hm.gap]
      rfl
    have hnil : (([] : List (Text × Value F)).map Prod.fst ++ (m :: ms).map Member.key).Nodup :=
      hnodup
    have hread := members_shown hlast hms hnil rest (n := k) (by omega)
    rw [objectText, List.cons_append, List.append_assoc, value, if_neg (by decide), if_pos rfl,
      htoken]
    dsimp only
    rw [hread]
    rfl
  · have hall := (sized_mark (c := 123) (by decide) (by decide)).append
      ((sized_shown hm).append (sized_moreText hlast htail))
    refine Sized.congr hall fun M => ?_
    show _ = M.mark + (M.str m.key + M.mark + total M m.value + M.mark +
      totalMembers M (ms.map Member.pair))
    omega

/-- The further items of an array on one line, and its end. -/
def moreItemsText : List (Text × Value F) → Text
  | [] => [93]
  | i :: is => 44 :: 32 :: (i.1 ++ moreItemsText is)

def arrayText (i : Text × Value F) (is : List (Text × Value F)) : Text :=
  91 :: (i.1 ++ moreItemsText is)

theorem ends_moreItemsText (is : List (Text × Value F)) (rest : Text) :
    Ends (moreItemsText is ++ rest) := by
  cases is with
  | nil => exact fun _ hc => Option.some.inj hc ▸ rfl
  | cons i is => exact fun _ hc => Option.some.inj hc ▸ rfl

theorem items_shown {i : Text × Value F} {is : List (Text × Value F)}
    (his : ∀ j ∈ i :: is, Renders N j.2 j.1) (text rest : Text)
    (htext : skipWs text = i.1 ++ (moreItemsText is ++ rest)) {n : ℕ}
    (hn : (i.1 ++ moreItemsText is).length ≤ n) :
    items N n text = some ((i :: is).map Prod.snd, rest) := by
  induction is generalizing i text n with
  | nil =>
    have hi := his i List.mem_cons_self
    simp only [moreItemsText, List.length_append, List.length_cons] at hn
    obtain ⟨k, rfl⟩ := Nat.exists_eq_succ_of_ne_zero (show n ≠ 0 by omega)
    rw [items, htext, hi.reads _ k (ends_moreItemsText [] rest) (by omega)]
    rfl
  | cons j is ih =>
    obtain ⟨hi, hjs⟩ := List.forall_mem_cons.mp his
    have hj := hjs j List.mem_cons_self
    simp only [moreItemsText, List.length_append, List.length_cons] at hn
    obtain ⟨k, rfl⟩ := Nat.exists_eq_succ_of_ne_zero (show n ≠ 0 by omega)
    have hskip : skipWs (32 :: (j.1 ++ (moreItemsText is ++ rest))) =
        j.1 ++ (moreItemsText is ++ rest) := hj.opens.skipWs_eq _
    have htoken : token 44 (moreItemsText (j :: is) ++ rest) =
        some (32 :: (j.1 ++ (moreItemsText is ++ rest))) := by
      rw [moreItemsText, List.cons_append, List.cons_append, List.append_assoc]
      rfl
    rw [items, htext, hi.reads _ k (ends_moreItemsText (j :: is) rest) (by omega)]
    simp only [Option.bind_eq_bind, Option.bind_some, htoken]
    rw [ih hjs _ hskip (by rw [List.length_append]; omega)]
    rfl

theorem sized_moreItemsText {is : List (Text × Value F)} (his : ∀ i ∈ is, Renders N i.2 i.1) :
    Sized (fun M => M.mark + totalItems M (is.map Prod.snd)) (moreItemsText is) := by
  induction is with
  | nil => exact (sized_mark (c := 93) (by decide) (by decide)).congr fun M => rfl
  | cons i is ih =>
    obtain ⟨hi, his⟩ := List.forall_mem_cons.mp his
    have hcomma : Sized (fun M => M.mark) [44, 32] :=
      (sized_mark (c := 44) (by decide) (by decide)).append sized_blank
    have hall := hcomma.append (hi.sized.append (ih his))
    refine Sized.congr hall fun M => ?_
    show _ = M.mark + (total M i.2 + M.mark + totalItems M (is.map Prod.snd))
    omega

theorem renders_array {i : Text × Value F} {is : List (Text × Value F)}
    (his : ∀ j ∈ i :: is, Renders N j.2 j.1) :
    Renders N (.list ((i :: is).map Prod.snd)) (arrayText i is) := by
  obtain ⟨hi, htail⟩ := List.forall_mem_cons.mp his
  refine ⟨opens_cons rfl (by decide), fun rest n hrest hn => ?_, ?_⟩
  · rw [arrayText, List.length_cons] at hn
    obtain ⟨k, rfl⟩ := Nat.exists_eq_succ_of_ne_zero (show n ≠ 0 by omega)
    have hread := items_shown his _ rest (hi.opens.skipWs_eq _) (n := k) (by omega)
    rw [arrayText, List.cons_append, List.append_assoc, value, if_neg (by decide),
      if_neg (by decide), if_pos rfl, hi.opens.token_eq]
    dsimp only
    rw [hread]
    rfl
  · have hall := (sized_mark (c := 91) (by decide) (by decide)).append
      (hi.sized.append (sized_moreItemsText htail))
    refine Sized.congr hall fun M => ?_
    show _ = M.mark + (total M i.2 + M.mark + totalItems M (is.map Prod.snd))
    omega

/-- A document is read back, with white space behind it. -/
theorem Renders.read_eq {v : Value F} {text : Text} (h : Renders N v text) {tail : Text}
    (htail : ∀ c ∈ tail, isWs c = true) : JsonCodec.read N (text ++ tail) = some v := by
  have hlen : text.length ≤ (text ++ tail).length := by
    rw [List.length_append]
    exact Nat.le_add_right _ _
  have hskip : skipWs tail = [] := by
    have hskip := skipWs_append htail []
    rwa [List.append_nil] at hskip
  rw [JsonCodec.read, h.opens.skipWs_eq tail, h.reads tail _ (ends_of_ws htail) hlen]
  simp only [Option.bind_eq_bind, Option.bind_some, hskip, if_true]

/-! ## A member without a value -/

/-- Members, each with its comma. -/
def frontText (ms : List (Member F)) : Text := ms.flatMap fun m => m.shown ++ [44]

/-- The members in front do not help. -/
theorem members_front {ms : List (Member F)} (hms : ∀ m ∈ ms, m.Ok N) {tail : Text}
    (htail : ∀ n acc, tail.length ≤ n → members N n tail acc = none) {n : ℕ}
    (hn : (frontText ms ++ tail).length ≤ n) (acc : List (Text × Value F)) :
    members N n (frontText ms ++ tail) acc = none := by
  induction ms generalizing n acc with
  | nil => exact htail n acc hn
  | cons m ms ih =>
    obtain ⟨hm, hms⟩ := List.forall_mem_cons.mp hms
    have htext : frontText (m :: ms) ++ tail = m.shown ++ 44 :: (frontText ms ++ tail) := by
      rw [frontText, List.flatMap_cons, ← frontText]
      simp only [List.append_assoc, List.cons_append, List.nil_append]
    rw [htext] at hn ⊢
    have hends : Ends (44 :: (frontText ms ++ tail)) := fun _ hc => Option.some.inj hc ▸ rfl
    simp only [Member.shown, quote, List.length_append, List.length_cons] at hn
    obtain ⟨k, rfl⟩ := Nat.exists_eq_succ_of_ne_zero (show n ≠ 0 by omega)
    have hskip : skipWs (m.shown ++ 44 :: (frontText ms ++ tail)) =
        quote plain m.key ++ 58 :: (32 :: (m.text ++ 44 :: (frontText ms ++ tail))) := by
      rw [Member.shown, List.append_assoc, skipWs_append hm.gap, List.append_assoc]
      rfl
    have hvalue : skipWs (32 :: (m.text ++ 44 :: (frontText ms ++ tail))) =
        m.text ++ 44 :: (frontText ms ++ tail) := hm.renders.opens.skipWs_eq _
    rw [members_eq (isStr_of_scalar hm.key) hskip, hvalue,
      hm.renders.reads _ k hends (by omega), Option.bind_some]
    exact ih hms (by rw [List.length_append]; omega) _

/-- A member whose value is not read. -/
theorem members_refuse {gap key text : Text} (hgap : ∀ c ∈ gap, isWs c = true)
    (hkey : ∀ c ∈ key, Scalar c)
    (htext : ∀ n, text.length ≤ n → value N n (skipWs text) = none) {n : ℕ}
    (hn : (gap ++ (quote plain key ++ 58 :: text)).length ≤ n) (acc : List (Text × Value F)) :
    members N n (gap ++ (quote plain key ++ 58 :: text)) acc = none := by
  simp only [quote, List.length_append, List.length_cons] at hn
  obtain ⟨k, rfl⟩ := Nat.exists_eq_succ_of_ne_zero (show n ≠ 0 by omega)
  have hskip : skipWs (gap ++ (quote plain key ++ 58 :: text)) = quote plain key ++ 58 :: text := by
    rw [skipWs_append hgap]
    rfl
  rw [members_eq (isStr_of_scalar hkey) hskip, htext k (by omega)]
  rfl

theorem token_quoted {gap : Text} (hgap : ∀ c ∈ gap, isWs c = true) (key text : Text) :
    token 125 (gap ++ (quote plain key ++ text)) = none := by
  rw [token_append hgap]
  rfl

theorem token_front {m : Member F} (hm : m.Ok N) (ms : List (Member F)) (tail : Text) :
    token 125 (frontText (m :: ms) ++ tail) = none := by
  rw [frontText, List.flatMap_cons, Member.shown]
  simp only [List.append_assoc]
  exact token_quoted hm.gap m.key _

theorem value_refuse {text : Text} (htoken : token 125 text = none)
    (htext : ∀ n acc, text.length ≤ n → members N n text acc = none) {n : ℕ}
    (hn : (123 :: text).length ≤ n) : value N n (123 :: text) = none := by
  rw [List.length_cons] at hn
  obtain ⟨k, rfl⟩ := Nat.exists_eq_succ_of_ne_zero (show n ≠ 0 by omega)
  rw [value, if_neg (by decide), if_pos rfl, htoken]
  dsimp only
  rw [htext k [] (by omega)]
  rfl

/-- A brace is no value. -/
theorem value_brace (n : ℕ) (rest : Text) : value N n (125 :: rest) = none := by
  cases n with
  | zero => rfl
  | succ n => rfl

/-! ## Writes that are cut short -/

/-- The write ends with a byte that weighs, or with a line feed behind one. -/
def Firm (t : List UInt8) : Prop := ∃ a b, 0 < weigh b ∧ (t = a ++ [b] ∨ t = a ++ [b, 10])

/-- What weighs of the write of a character in a string keeps the scanner in the string. -/
def Piece (t : List UInt8) : Prop :=
  ∀ k l, t = k ++ l → weight l = 0 → run .inside k = .inside ∧ content .inside k = k.length

/-- The writes from a place on: pieces stand in strings only, and `Loose` writes may end with bytes
that do not weigh. -/
def Sound (Loose : List UInt8 → Prop) : Place → List (List UInt8) → Prop
  | _, [] => True
  | p, t :: ts => (p ≠ .escaped ∧ 92 ∉ t ∧ (Firm t ∨ Loose t) ∨ p = .inside ∧ Piece t) ∧
      Sound Loose (run p t) ts

theorem sound_append {Loose : List UInt8 → Prop} {p : Place} {ts ts' : List (List UInt8)}
    (h : Sound Loose p ts) (h' : Sound Loose (run p ts.flatten) ts') :
    Sound Loose p (ts ++ ts') := by
  induction ts generalizing p with
  | nil => exact h'
  | cons t ts ih =>
    rw [List.flatten_cons, run_append] at h'
    exact ⟨h.1, ih h.2 h'⟩

theorem Piece.run_eq {t : List UInt8} (h : Piece t) : run .inside t = .inside :=
  (h t [] (List.append_nil t).symm rfl).1

theorem run_pieces {ts : List (List UInt8)} (h : ∀ t ∈ ts, Piece t) :
    run .inside ts.flatten = .inside := by
  induction ts with
  | nil => rfl
  | cons t ts ih =>
    obtain ⟨ht, hts⟩ := List.forall_mem_cons.mp h
    rw [List.flatten_cons, run_append, ht.run_eq, ih hts]

theorem sound_pieces (Loose : List UInt8 → Prop) {ts : List (List UInt8)}
    (h : ∀ t ∈ ts, Piece t) : Sound Loose .inside ts := by
  induction ts with
  | nil => exact trivial
  | cons t ts ih =>
    obtain ⟨ht, hts⟩ := List.forall_mem_cons.mp h
    refine ⟨.inr ⟨rfl, ht⟩, ?_⟩
    rw [ht.run_eq]
    exact ih hts

theorem weigh_eq_zero {bs : List UInt8} (h : weight bs = 0) : ∀ b ∈ bs, weigh b = 0 := by
  induction bs with
  | nil => exact fun b hb => absurd hb List.not_mem_nil
  | cons b bs ih =>
    have hsum : weigh b + weight bs = 0 := h
    exact List.forall_mem_cons.mpr ⟨by omega, ih (by omega)⟩

/-- A part that does not weigh lies behind the last byte that does. -/
theorem append_of_light {u d k l : List UInt8}
    (hlast : u = [] ∨ ∃ a b, u = a ++ [b] ∧ 0 < weigh b) (h : u ++ d = k ++ l)
    (hl : weight l = 0) : ∃ d', k = u ++ d' ∧ d = d' ++ l := by
  rcases List.append_eq_append_iff.mp h with ⟨a, rfl, rfl⟩ | ⟨a, rfl, rfl⟩
  · exact ⟨a, rfl, rfl⟩
  · rcases hlast with hnil | ⟨v, b, hv, hb⟩
    · obtain ⟨rfl, rfl⟩ := List.append_eq_nil_iff.mp hnil
      exact ⟨[], rfl, rfl⟩
    · rcases List.eq_nil_or_concat a with rfl | ⟨a', x, rfl⟩
      · exact ⟨[], by simp, rfl⟩
      · rw [List.concat_eq_append, ← List.append_assoc] at hv
        have hx := (List.append_inj' hv rfl).2
        rw [List.cons.injEq] at hx
        have hzero := weigh_eq_zero hl x (by simp)
        rw [hx.1] at hzero
        omega

theorem not_escaped {p : Place} (hp : p ≠ .escaped) {bs : List UInt8} (h : 92 ∉ bs) :
    run p bs ≠ .escaped := by
  induction bs generalizing p with
  | nil => exact hp
  | cons b bs ih =>
    rw [List.mem_cons, not_or] at h
    refine ih (p := p.step b) ?_ h.2
    cases p with
    | outside => rw [Place.step]; split <;> exact Place.noConfusion
    | inside =>
      rw [Place.step, if_neg (Ne.symm h.1)]
      split <;> exact Place.noConfusion
    | escaped => exact Place.noConfusion

/-- A firm write loses a line feed, if what it loses does not weigh. -/
theorem Firm.lost {t k l : List UInt8} (h : Firm t) (ht : t = k ++ l) (hl : weight l = 0) :
    l = [] ∨ l = [10] := by
  obtain ⟨a, b, hb, hend⟩ := h
  have hzero := weigh_eq_zero hl
  rcases hend with hend | hend
  · rw [hend] at ht
    rcases List.eq_nil_or_concat l with rfl | ⟨l', x, rfl⟩
    · exact .inl rfl
    · rw [List.concat_eq_append, ← List.append_assoc] at ht
      have hx := (List.append_inj' ht rfl).2
      rw [List.cons.injEq] at hx
      have hzero := hzero x (by simp)
      rw [← hx.1] at hzero
      omega
  · rw [hend] at ht
    rcases List.eq_nil_or_concat l with rfl | ⟨l', x, rfl⟩
    · exact .inl rfl
    · rw [List.concat_eq_append, ← List.append_assoc] at ht
      have hsplit : (a ++ [b]) ++ [10] = (k ++ l') ++ [x] := by rw [← ht]; simp
      obtain ⟨hfront, hx⟩ := List.append_inj' hsplit rfl
      rcases List.eq_nil_or_concat l' with rfl | ⟨l'', y, rfl⟩
      · exact .inr hx.symm
      · rw [List.concat_eq_append, ← List.append_assoc] at hfront
        have hy := (List.append_inj' hfront rfl).2
        rw [List.cons.injEq] at hy
        have hzero := hzero y (by simp)
        rw [← hy.1] at hzero
        omega

/-- Bytes that do not weigh lead neither into a string nor out of one. -/
theorem run_light {p : Place} (hp : p ≠ .escaped) {l : List UInt8} (hl : weight l = 0) :
    run p l = p := by
  induction l with
  | nil => rfl
  | cons b l ih =>
    have hzero := weigh_eq_zero hl
    obtain ⟨hb, -⟩ := List.forall_mem_cons.mp hzero
    have hquote : b ≠ 34 := by
      rintro rfl
      exact absurd hb (by decide)
    have hslash : b ≠ 92 := by
      rintro rfl
      exact absurd hb (by decide)
    have hstep : p.step b = p := by
      cases p with
      | outside => exact if_neg hquote
      | inside => rw [Place.step, if_neg hquote, if_neg hslash]
      | escaped => exact absurd rfl hp
    have hrest : weight l = 0 := by
      have hsum : weigh b + weight l = 0 := hl
      omega
    show run (p.step b) l = p
    rw [hstep]
    exact ih hrest

/-- What a cut write lacks: nothing, a line feed, or bytes of a loose write that do not weigh. -/
def Cut (Loose : List UInt8 → Prop) (k t : List UInt8) : Prop :=
  t = k ∨ t = k ++ [10] ∨ Loose t ∧ ∃ l, t = k ++ l ∧ weight l = 0

/-- One write: what it loses does not weigh. -/
theorem cut_write {Loose : List UInt8 → Prop} {p : Place} {t k l : List UInt8}
    (h : p ≠ .escaped ∧ 92 ∉ t ∧ (Firm t ∨ Loose t) ∨ p = .inside ∧ Piece t) (ht : t = k ++ l)
    (hl : weight l = 0) : run p k = run p t ∧ content p k ≤ content p t ∧
      (content p t ≤ content p k → Cut Loose k t) := by
  rcases h with ⟨hp, hslash, hend⟩ | ⟨rfl, hpiece⟩
  · have hk : run p k ≠ .escaped := by
      refine not_escaped hp fun hmem => hslash ?_
      rw [ht]
      exact List.mem_append_left _ hmem
    refine ⟨?_, ?_, fun _ => ?_⟩
    · rw [ht, run_append, run_light hk hl]
    · rw [ht, content_append]
      exact Nat.le_add_right _ _
    · rcases hend with hfirm | hloose
      · rcases hfirm.lost ht hl with rfl | rfl
        · exact .inl (ht.trans (List.append_nil k))
        · exact .inr (.inl ht)
      · exact .inr (.inr ⟨hloose, l, ht, hl⟩)
  · obtain ⟨hrun, hcontent⟩ := hpiece k l ht hl
    obtain ⟨hrun', hcontent'⟩ := hpiece t [] (List.append_nil t).symm rfl
    have hlength : t.length = k.length + l.length := by rw [ht, List.length_append]
    refine ⟨hrun.trans hrun'.symm, by omega, fun hle => .inl ?_⟩
    have hnil : l = [] := List.length_eq_zero_iff.mp (by omega)
    rw [ht, hnil, List.append_nil]

theorem weight_le_of_cut {ks ts : List (List UInt8)}
    (h : List.Forall₂ (fun k t => k <+: t) ks ts) : weight ks.flatten ≤ weight ts.flatten := by
  induction h with
  | nil => exact Nat.le_refl _
  | cons hhead _ ih =>
    obtain ⟨l, rfl⟩ := hhead
    rw [List.flatten_cons, List.flatten_cons, weight_append, weight_append, weight_append]
    omega

/-- If the cut writes measure as much as the whole ones, each of them is whole or lacks a line feed
at its end, loose ones apart. -/
theorem cut_of_measures {Loose : List UInt8 → Prop} {p : Place} {ks ts : List (List UInt8)}
    (hsound : Sound Loose p ts) (hcut : List.Forall₂ (fun k t => k <+: t) ks ts)
    (hweight : weight ts.flatten ≤ weight ks.flatten) :
    content p ks.flatten ≤ content p ts.flatten ∧
      (content p ts.flatten ≤ content p ks.flatten → List.Forall₂ (Cut Loose) ks ts) := by
  induction hcut generalizing p with
  | nil => exact ⟨Nat.le_refl _, fun _ => .nil⟩
  | @cons k t ks ts hhead htail ih =>
    obtain ⟨l, hl⟩ := hhead
    have hle := weight_le_of_cut htail
    rw [List.flatten_cons, List.flatten_cons, weight_append, weight_append, ← hl,
      weight_append] at hweight
    obtain ⟨hrun, hcontent, hwhole⟩ := cut_write hsound.1 hl.symm (by omega)
    obtain ⟨hrest, hall⟩ := ih hsound.2 (by omega)
    rw [List.flatten_cons, List.flatten_cons, content_append, content_append, hrun]
    exact ⟨by omega, fun h => .cons (hwhole (by omega)) (hall (by omega))⟩

end AflNv.Lib.JsonText
