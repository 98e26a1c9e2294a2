import Mathlib.Data.List.DropRight
import Mathlib.Data.List.Infix

/-!
# Cutting a text at a separator

`cut` finds the first place where a separator stands, `split` cuts at every place, from the
left; a piece starts behind the separator that ends the piece before.  `trim` takes away
what stands at the two ends.

* `cut_eq_some` says what a cut returns: the separator is nowhere earlier.
* `not_infix_guard` keeps a separator from reaching across a character that it does not
  have; with it `cut_append` and `split_append` compute the cuts of a text that was put
  together from pieces.
-/

namespace AflNv.Lib.Substring

variable {α : Type}

/-! ## One element as a separator -/

/-- The front of a list up to the first `a` determines it. -/
theorem append_cons_inj_left {a : α} {x y u v : List α} (hx : a ∉ x) (hy : a ∉ y)
    (h : x ++ a :: u = y ++ a :: v) : x = y ∧ u = v := by
  induction x generalizing y with
  | nil =>
    cases y with
    | nil => exact ⟨rfl, (List.cons.inj h).2⟩
    | cons b y => exact absurd (List.mem_cons.mpr (.inl (List.cons.inj h).1)) hy
  | cons b x ih =>
    cases y with
    | nil => exact absurd (List.mem_cons.mpr (.inl (List.cons.inj h).1.symm)) hx
    | cons c y =>
      obtain ⟨rfl, htail⟩ := List.cons.inj h
      obtain ⟨rfl, rfl⟩ :=
        ih (List.not_mem_of_not_mem_cons hx) (List.not_mem_of_not_mem_cons hy) htail
      exact ⟨rfl, rfl⟩

/-- The back of a list behind the last `a` determines it. -/
theorem append_cons_inj_right {a : α} {x y u v : List α} (hu : a ∉ u) (hv : a ∉ v)
    (h : x ++ a :: u = y ++ a :: v) : x = y ∧ u = v := by
  have hrev := congrArg List.reverse h
  simp only [List.reverse_append, List.reverse_cons, List.append_assoc, List.singleton_append]
    at hrev
  obtain ⟨huv, hxy⟩ := append_cons_inj_left (List.mem_reverse.not.mpr hu)
    (List.mem_reverse.not.mpr hv) hrev
  exact ⟨List.reverse_inj.mp hxy, List.reverse_inj.mp huv⟩

/-! ## The ends -/

section Trim

variable (p : α → Bool)

/-- The text without what `p` holds of at its two ends. -/
def trim (text : List α) : List α := (text.dropWhile p).rdropWhile p

theorem trim_infix (text : List α) : trim p text <:+: text :=
  (List.rdropWhile_prefix p _).isInfix.trans (List.dropWhile_suffix p).isInfix

theorem getLast?_trim (text : List α) : ∀ c ∈ (trim p text).getLast?, p c = false := by
  intro c hc
  have hne : trim p text ≠ [] := by
    intro h
    rw [h] at hc
    exact absurd hc nofun
  have hlast := List.rdropWhile_last_not p (text.dropWhile p) hne
  rw [List.getLast?_eq_some_getLast hne] at hc
  rw [← Option.some.inj hc]
  exact Bool.eq_false_iff.mpr hlast

theorem head?_trim (text : List α) : ∀ c ∈ (trim p text).head?, p c = false := by
  intro c hc
  have hne : trim p text ≠ [] := by
    intro h
    rw [h] at hc
    exact absurd hc nofun
  obtain ⟨rest, hrest⟩ := List.rdropWhile_prefix p (text.dropWhile p)
  have hhead : c ∈ (text.dropWhile p).head? := by
    rw [← hrest]
    exact (List.head?_append_of_ne_nil _ hne).symm ▸ hc
  have hnot := List.head?_dropWhile_not p text
  rw [Option.mem_def.mp hhead] at hnot
  simpa using hnot

/-- What is left of a text between two ends that go. -/
theorem trim_append {lead text trail : List α} (hlead : ∀ c ∈ lead, p c = true)
    (htrail : ∀ c ∈ trail, p c = true) (hne : text ≠ []) (hhead : ∀ c ∈ text.head?, p c = false)
    (hlast : ∀ c ∈ text.getLast?, p c = false) : trim p (lead ++ (text ++ trail)) = text := by
  cases text with
  | nil => exact absurd rfl hne
  | cons c text =>
    have hc : p c = false := hhead c rfl
    rw [trim, List.dropWhile_append_of_pos hlead, List.cons_append, List.dropWhile_cons_of_neg
      (by simp [hc]), ← List.cons_append, List.rdropWhile, List.reverse_append,
      List.dropWhile_append_of_pos (fun d hd => htrail d (List.mem_reverse.mp hd))]
    cases hrev : (c :: text).reverse with
    | nil => exact absurd (List.reverse_eq_nil_iff.mp hrev) hne
    | cons d rest =>
      have hd : p d = false := by
        refine hlast d ?_
        rw [List.getLast?_eq_head?_reverse, hrev]
        rfl
      rw [List.dropWhile_cons_of_neg (by simp [hd]), ← hrev, List.reverse_reverse]

theorem trim_eq_self {text : List α} (hhead : ∀ c ∈ text.head?, p c = false)
    (hlast : ∀ c ∈ text.getLast?, p c = false) : trim p text = text := by
  cases text with
  | nil => rfl
  | cons c text =>
    have hnone : ∀ c ∈ ([] : List α), p c = true := fun _ h => nomatch h
    have htrim := trim_append p hnone hnone (List.cons_ne_nil c text) hhead hlast
    rwa [List.append_nil] at htrim

/-- A character that is dropped in front of a text that begins and ends with one that stays. -/
theorem trim_cons {c : α} {text : List α} (hc : p c = true) (hne : text ≠ [])
    (hhead : ∀ c ∈ text.head?, p c = false) (hlast : ∀ c ∈ text.getLast?, p c = false) :
    trim p (c :: text) = text := by
  have hnone : ∀ c ∈ ([] : List α), p c = true := fun _ h => nomatch h
  have hlead : ∀ d ∈ [c], p d = true := fun _ hd => List.mem_singleton.mp hd ▸ hc
  have htrim := trim_append p hlead hnone hne hhead hlast
  rwa [List.append_nil] at htrim

end Trim

/-! ## Where a text does not stand -/

/-- No separator reaches across a character that it does not have. -/
theorem not_infix_guard {sep a b : List α} {c : α} (hc : c ∉ sep) (ha : ¬ sep <:+: a)
    (hb : ¬ sep <:+: b) : ¬ sep <:+: a ++ c :: b := by
  have hstart : ∀ a' : List α, ¬ sep <:+: a' → ¬ sep <+: a' ++ c :: b := by
    intro a' ha' hpre
    rcases Nat.lt_or_ge a'.length sep.length with hlt | hge
    · obtain ⟨rest, hrest⟩ := hpre
      have hget : sep[a'.length]? = some c := by
        have hleft : (sep ++ rest)[a'.length]? = sep[a'.length]? := List.getElem?_append_left hlt
        rw [← hleft, hrest, List.getElem?_append_right (Nat.le_refl _), Nat.sub_self]
        rfl
      exact hc (List.mem_of_getElem? hget)
    · exact ha' (List.prefix_of_prefix_length_le hpre (List.prefix_append a' _) hge).isInfix
  induction a with
  | nil =>
    rw [List.nil_append, List.infix_cons_iff, not_or]
    exact ⟨hstart [] ha, hb⟩
  | cons x a ih =>
    rw [List.cons_append, List.infix_cons_iff, not_or]
    exact ⟨hstart (x :: a) ha, ih fun h => ha (h.trans (List.suffix_cons x a).isInfix)⟩

theorem not_infix_dropLast {sep : List α} (hsep : sep ≠ []) : ¬ sep <:+: sep.dropLast := by
  intro h
  have hle := h.length_le
  have hpos := List.length_pos_iff.mpr hsep
  rw [List.length_dropLast] at hle
  omega

/-- A separator that starts with a character that the text does not have. -/
theorem not_infix_of_head {s : α} {tail a b : List α} (ha : s ∉ a)
    (hb : ¬ s :: tail <:+: b) : ¬ s :: tail <:+: a ++ b := by
  induction a with
  | nil => exact hb
  | cons x a ih =>
    rw [List.mem_cons, not_or] at ha
    rw [List.cons_append, List.infix_cons_iff, not_or]
    exact ⟨fun hpre => ha.1 (List.cons_prefix_cons.mp hpre).1, ih ha.2⟩

variable [DecidableEq α]

/-! ## Cuts -/

/-- What is before and behind the first place where `sep` stands. -/
def cut (sep : List α) : List α → Option (List α × List α)
  | [] => none
  | a :: text =>
    if sep.isPrefixOf (a :: text) then some ([], (a :: text).drop sep.length)
    else (cut sep text).map fun r => (a :: r.1, r.2)

/-- The pieces between the separators, at most `n` of them cut off. -/
def splitFrom (sep : List α) : ℕ → List α → List (List α)
  | 0, text => [text]
  | n + 1, text =>
    match cut sep text with
    | none => [text]
    | some (piece, rest) => piece :: splitFrom sep n rest

def split (sep text : List α) : List (List α) := splitFrom sep text.length text

/-! ## The first place -/

theorem cut_eq_none_iff {sep : List α} (hsep : sep ≠ []) {text : List α} :
    cut sep text = none ↔ ¬ sep <:+: text := by
  induction text with
  | nil => simpa [cut] using hsep
  | cons a text ih =>
    rw [cut, List.infix_cons_iff, not_or]
    split_ifs with hstart
    · exact iff_of_false nofun fun h => h.1 (List.isPrefixOf_iff_prefix.mp hstart)
    · rw [Option.map_eq_none_iff, ih, List.isPrefixOf_iff_prefix] at *
      exact ⟨fun h => ⟨hstart, h⟩, fun h => h.2⟩

theorem isSome_cut_iff {sep : List α} (hsep : sep ≠ []) {text : List α} :
    (cut sep text).isSome = true ↔ sep <:+: text := by
  rw [← not_iff_not, Bool.not_eq_true, Option.isSome_eq_false_iff, Option.isNone_iff_eq_none,
    cut_eq_none_iff hsep]

/-- A place before `b` and the separator that starts there are in the text up to the end of
the first separator. -/
theorem cut_append {sep : List α} (hsep : sep ≠ []) {a : List α}
    (h : ¬ sep <:+: a ++ sep.dropLast) (b : List α) : cut sep (a ++ (sep ++ b)) = some (a, b) := by
  induction a with
  | nil =>
    cases hs : sep with
    | nil => exact absurd hs hsep
    | cons s tail =>
      have hstart : (s :: tail).isPrefixOf (s :: tail ++ b) = true :=
        List.isPrefixOf_iff_prefix.mpr (List.prefix_append _ _)
      rw [List.nil_append, List.cons_append, cut, if_pos (by exact hstart), ← List.cons_append,
        List.drop_left]
  | cons x a ih =>
    rw [List.cons_append, List.infix_cons_iff, not_or] at h
    have hnot : ¬ sep.isPrefixOf (x :: (a ++ (sep ++ b))) = true := by
      rw [List.isPrefixOf_iff_prefix]
      intro hstart
      refine h.1 (List.prefix_of_prefix_length_le hstart ?_ ?_)
      · refine List.cons_prefix_cons.mpr ⟨rfl, List.prefix_append_right_inj a |>.mpr ?_⟩
        exact (List.dropLast_prefix sep).trans (List.prefix_append sep b)
      · have hpos := List.length_pos_iff.mpr hsep
        simp only [List.length_cons, List.length_append, List.length_dropLast]
        omega
    rw [List.cons_append, cut, if_neg hnot, ih h.2]
    rfl

theorem cut_eq_some {sep : List α} (hsep : sep ≠ []) {text a b : List α}
    (h : cut sep text = some (a, b)) : text = a ++ (sep ++ b) ∧ ¬ sep <:+: a ++ sep.dropLast := by
  induction text generalizing a with
  | nil => exact absurd h nofun
  | cons x text ih =>
    rw [cut] at h
    split_ifs at h with hstart
    · obtain ⟨rfl, rfl⟩ := Prod.mk.inj (Option.some.inj h)
      obtain ⟨rest, hrest⟩ := List.isPrefixOf_iff_prefix.mp hstart
      refine ⟨by rw [← hrest, List.drop_left]; rfl, fun hinfix => ?_⟩
      have hle := hinfix.length_le
      have hpos := List.length_pos_iff.mpr hsep
      rw [List.nil_append, List.length_dropLast] at hle
      omega
    · obtain ⟨⟨a', b'⟩, hcut, heq⟩ := Option.map_eq_some_iff.mp h
      obtain ⟨rfl, rfl⟩ := Prod.mk.inj heq
      obtain ⟨htext, hnot⟩ := ih hcut
      refine ⟨by rw [htext]; rfl, fun hinfix => ?_⟩
      rw [List.cons_append, List.infix_cons_iff] at hinfix
      refine hinfix.elim (fun hpre => hstart (List.isPrefixOf_iff_prefix.mpr (hpre.trans ?_))) hnot
      rw [htext]
      exact List.cons_prefix_cons.mpr ⟨rfl, (List.prefix_append_right_inj a').mpr
        ((List.dropLast_prefix sep).trans (List.prefix_append sep b'))⟩

/-- A cut at a single character. -/
theorem cut_single {x : α} {a : List α} (h : x ∉ a) (b : List α) :
    cut [x] (a ++ x :: b) = some (a, b) := by
  refine cut_append (List.cons_ne_nil _ _) (fun hin => ?_) b
  rw [List.dropLast_singleton, List.append_nil] at hin
  exact h (hin.subset (List.mem_singleton.mpr rfl))

/-! ## The pieces -/

theorem splitFrom_eq {sep : List α} (hsep : sep ≠ []) {n : ℕ} {text : List α}
    (hn : text.length ≤ n) : splitFrom sep n text = split sep text := by
  have hgen : ∀ (k : ℕ) (text : List α) (n m : ℕ), text.length ≤ k → k ≤ n → k ≤ m →
      splitFrom sep n text = splitFrom sep m text := by
    intro k
    induction k with
    | zero =>
      intro text n m hk _ _
      obtain rfl := List.length_eq_zero_iff.mp (Nat.le_zero.mp hk)
      cases n <;> cases m <;> rfl
    | succ k ih =>
      intro text n m hk hn hm
      obtain ⟨n, rfl⟩ := Nat.exists_eq_succ_of_ne_zero (show n ≠ 0 by omega)
      obtain ⟨m, rfl⟩ := Nat.exists_eq_succ_of_ne_zero (show m ≠ 0 by omega)
      rw [splitFrom, splitFrom]
      cases hcut : cut sep text with
      | none => rfl
      | some r =>
        obtain ⟨a, b⟩ := r
        have hlen := congrArg List.length (cut_eq_some hsep hcut).1
        have hpos := List.length_pos_iff.mpr hsep
        simp only [List.length_append] at hlen
        dsimp only
        rw [ih b n m (by omega) (by omega) (by omega)]
  exact hgen text.length text n text.length (Nat.le_refl _) hn (Nat.le_refl _)

theorem split_of_free {sep : List α} (hsep : sep ≠ []) {text : List α} (h : ¬ sep <:+: text) :
    split sep text = [text] := by
  rw [split]
  cases text with
  | nil => rfl
  | cons a text => rw [List.length_cons, splitFrom, (cut_eq_none_iff hsep).mpr h]

/-- A piece of a text that was put together is cut off. -/
theorem split_append {sep : List α} (hsep : sep ≠ []) {a : List α}
    (h : ¬ sep <:+: a ++ sep.dropLast) (b : List α) :
    split sep (a ++ (sep ++ b)) = a :: split sep b := by
  have hpos := List.length_pos_iff.mpr hsep
  have hlen : (a ++ (sep ++ b)).length = (a ++ (sep ++ b)).length - 1 + 1 := by
    simp only [List.length_append]
    omega
  rw [split, hlen, splitFrom, cut_append hsep h]
  dsimp only
  rw [splitFrom_eq hsep]
  simp only [List.length_append]
  omega

/-- A piece is a part of the text, and the separator is nowhere in it. -/
theorem mem_split {sep : List α} (hsep : sep ≠ []) {text piece : List α}
    (h : piece ∈ split sep text) : piece <:+: text ∧ ¬ sep <:+: piece := by
  induction hn : text.length using Nat.strong_induction_on generalizing text with
  | _ n ih =>
    cases hcut : cut sep text with
    | none =>
      have hnot := (cut_eq_none_iff hsep).mp hcut
      rw [split_of_free hsep hnot] at h
      obtain rfl := List.mem_singleton.mp h
      exact ⟨List.infix_rfl, hnot⟩
    | some r =>
      obtain ⟨a, b⟩ := r
      obtain ⟨htext, hnot⟩ := cut_eq_some hsep hcut
      have hpos := List.length_pos_iff.mpr hsep
      have hlen := congrArg List.length htext
      simp only [List.length_append] at hlen
      rw [htext, split_append hsep hnot] at h
      rcases List.mem_cons.mp h with rfl | h
      · refine ⟨htext ▸ (List.prefix_append _ _).isInfix, fun hinfix => hnot ?_⟩
        exact hinfix.trans (List.prefix_append _ _).isInfix
      · obtain ⟨hpart, hfree⟩ := ih b.length (by omega) h rfl
        refine ⟨hpart.trans ?_, hfree⟩
        rw [htext, ← List.append_assoc]
        exact (List.suffix_append _ _).isInfix

/-- A text that was put together from pieces with a character between them. -/
theorem splitOn_flatMap {β : Type} {x : α} {a : List α} {ps : List β} {g : β → List α} (ha : x ∉ a)
    (hps : ∀ p ∈ ps, x ∉ g p) :
    (a ++ ps.flatMap fun p => x :: g p).splitOn x = a :: ps.map g := by
  induction ps generalizing a with
  | nil =>
    rw [List.flatMap_nil, List.append_nil]
    exact List.splitOn_eq_singleton ha
  | cons p ps ih =>
    obtain ⟨hp, hrest⟩ := List.forall_mem_cons.mp hps
    rw [List.flatMap_cons, List.cons_append, List.splitOn_append_cons_self,
      List.splitOn_eq_singleton ha, ih hp hrest]
    rfl

/-- A piece between single characters. -/
theorem mem_splitOn {x : α} {text piece : List α} (h : piece ∈ text.splitOn x) :
    piece <:+: text ∧ x ∉ piece := by
  induction hn : text.length using Nat.strong_induction_on generalizing text with
  | _ n ih =>
    by_cases hmem : x ∈ text
    · obtain ⟨l, r, htext, hl⟩ := List.eq_append_cons_of_mem hmem
      rw [htext, List.splitOn_append_cons_self, List.splitOn_eq_singleton hl,
        List.singleton_append] at h
      rcases List.mem_cons.mp h with rfl | h
      · exact ⟨htext ▸ (List.prefix_append _ _).isInfix, hl⟩
      · have hlen := congrArg List.length htext
        rw [List.length_append, List.length_cons] at hlen
        obtain ⟨hpart, hfree⟩ := ih r.length (by omega) h rfl
        refine ⟨hpart.trans ?_, hfree⟩
        rw [htext, ← List.singleton_append, ← List.append_assoc]
        exact (List.suffix_append _ r).isInfix
    · rw [List.splitOn_eq_singleton hmem] at h
      obtain rfl := List.mem_singleton.mp h
      exact ⟨List.infix_rfl, hmem⟩

/-- A text without the separator lands in one piece, whatever stands on its two sides. -/
theorem splitOn_middle (x : α) (pre post : List α) : ∃ l a b r, ∀ mid, x ∉ mid →
    (pre ++ (mid ++ post)).splitOn x = l ++ (a ++ (mid ++ b)) :: r := by
  have hpost : ∃ b r, ∀ text, x ∉ text → (text ++ post).splitOn x = (text ++ b) :: r := by
    by_cases hmem : x ∈ post
    · obtain ⟨b, rest, rfl, hb⟩ := List.eq_append_cons_of_mem hmem
      refine ⟨b, rest.splitOn x, fun text htext => ?_⟩
      rw [← List.append_assoc, List.splitOn_append_cons_self, List.splitOn_eq_singleton]
      · rfl
      · exact fun h => (List.mem_append.mp h).elim htext hb
    · refine ⟨post, [], fun text htext => List.splitOn_eq_singleton fun h => ?_⟩
      exact (List.mem_append.mp h).elim htext hmem
  obtain ⟨b, r, hpost⟩ := hpost
  induction hn : pre.length using Nat.strong_induction_on generalizing pre with
  | _ n ih =>
    by_cases hmem : x ∈ pre
    · obtain ⟨first, rest, rfl, hfirst⟩ := List.eq_append_cons_of_mem hmem
      rw [List.length_append, List.length_cons] at hn
      obtain ⟨l, a, b, r, h⟩ := ih rest.length (by omega) rest rfl
      refine ⟨first :: l, a, b, r, fun mid hmid => ?_⟩
      rw [List.append_assoc, List.cons_append, List.splitOn_append_cons_self,
        List.splitOn_eq_singleton hfirst, h mid hmid]
      rfl
    · refine ⟨[], pre, b, r, fun mid hmid => ?_⟩
      have hfree : x ∉ pre ++ mid := fun h => (List.mem_append.mp h).elim hmem hmid
      rw [← List.append_assoc, hpost _ hfree, List.append_assoc]
      rfl

end AflNv.Lib.Substring
