import Mathlib.Data.List.Infix

/-!
# Replacing the matches of a rule, from left to right

A rule says of a text whether it starts with a match, how long the match is and what takes its
place.  `rewrite` goes through a text from the left; it looks for the next match behind the one that
it has replaced.

* `rewrite_pieces`: of a text that is put together from pieces, exactly some pieces are replaced, if
  the rule matches each of these as a whole and matches nowhere in the others.
* `onlyAt` decides the second of these conditions.
* `rewrite_of_same`: a rule that puts back what it matches changes nothing.
-/

namespace AflNv.Lib.Rewriting

variable {α ι : Type}

/-- The length of the match at the start of a text, and its replacement. -/
abbrev Rule (α : Type) := List α → Option (ℕ × List α)

/-- The text with its matches replaced, without the symbols that still belong to the last match. -/
def rewrite (rule : Rule α) : ℕ → List α → List α
  | _, [] => []
  | k + 1, _ :: text => rewrite rule k text
  | 0, a :: text =>
    match rule (a :: text) with
    | some (n, out) => out ++ rewrite rule (n - 1) text
    | none => a :: rewrite rule 0 text

theorem rewrite_skip (rule : Rule α) (a b : List α) :
    rewrite rule a.length (a ++ b) = rewrite rule 0 b := by
  induction a with
  | nil => rfl
  | cons x a ih => exact ih

/-- A match at the start. -/
theorem rewrite_match {rule : Rule α} {a b out : List α} (ha : a ≠ [])
    (h : rule (a ++ b) = some (a.length, out)) :
    rewrite rule 0 (a ++ b) = out ++ rewrite rule 0 b := by
  cases a with
  | nil => exact absurd rfl ha
  | cons x a =>
    rw [List.cons_append] at h ⊢
    rw [rewrite, h]
    show out ++ rewrite rule a.length (a ++ b) = _
    rw [rewrite_skip]

/-- No match in the first part of a text. -/
theorem rewrite_keep {rule : Rule α} {a b : List α}
    (h : ∀ s, s ≠ [] → s <:+ a → rule (s ++ b) = none) :
    rewrite rule 0 (a ++ b) = a ++ rewrite rule 0 b := by
  induction a with
  | nil => rfl
  | cons x a ih =>
    have hhead := h (x :: a) (List.cons_ne_nil x a) (List.suffix_refl _)
    rw [List.cons_append] at hhead ⊢
    rw [rewrite, hhead]
    show x :: rewrite rule 0 (a ++ b) = _
    rw [ih fun s hs hsuffix => h s hs (hsuffix.trans (List.suffix_cons x a))]
    rfl

theorem rewrite_of_none {rule : Rule α} {text : List α}
    (h : ∀ s, s ≠ [] → s <:+ text → rule s = none) : rewrite rule 0 text = text := by
  have hnone : ∀ s, s ≠ [] → s <:+ text → rule (s ++ []) = none := by
    intro s hs hsuffix
    rw [List.append_nil]
    exact h s hs hsuffix
  have hkeep := rewrite_keep hnone
  rw [List.append_nil] at hkeep
  rw [hkeep]
  exact List.append_nil text

/-- A rule that puts back what it matches changes nothing. -/
theorem rewrite_of_same {rule : Rule α}
    (h : ∀ text n out, rule text = some (n, out) → 0 < n ∧ n ≤ text.length ∧ out = text.take n)
    (text : List α) : rewrite rule 0 text = text := by
  induction hlen : text.length using Nat.strong_induction_on generalizing text with
  | h k ih =>
    cases text with
    | nil => rfl
    | cons a text =>
      rw [List.length_cons] at hlen
      cases hrule : rule (a :: text) with
      | none =>
        rw [rewrite, hrule]
        show a :: rewrite rule 0 text = a :: text
        rw [ih text.length (by omega) text rfl]
      | some found =>
        obtain ⟨n, out⟩ := found
        obtain ⟨hpos, hle, hout⟩ := h (a :: text) n out hrule
        have hsplit : (a :: text).take n ++ (a :: text).drop n = a :: text :=
          List.take_append_drop n _
        have htake : ((a :: text).take n).length = n := List.length_take_of_le hle
        have hne : (a :: text).take n ≠ [] := by
          intro hnil
          rw [hnil] at htake
          exact absurd htake (Nat.ne_of_lt hpos)
        have hmatch : rule ((a :: text).take n ++ (a :: text).drop n) =
            some (((a :: text).take n).length, out) := by
          rw [hsplit, htake, hrule]
        have hdrop : ((a :: text).drop n).length < k := by
          rw [List.length_drop, List.length_cons]
          omega
        calc rewrite rule 0 (a :: text)
            = rewrite rule 0 ((a :: text).take n ++ (a :: text).drop n) := by rw [hsplit]
          _ = out ++ rewrite rule 0 ((a :: text).drop n) := rewrite_match hne hmatch
          _ = (a :: text).take n ++ (a :: text).drop n := by rw [hout, ih _ hdrop _ rfl]
          _ = a :: text := hsplit

/-! ## Texts in pieces -/

/-- No piece but the `places` has a match that starts in it. -/
def onlyAt (found : List α → Bool) (text : ι → List α) (places : ι → Bool) : List ι → Bool
  | [] => true
  | p :: ps =>
    (places p || (text p).tails.all fun s => s.isEmpty || !found (s ++ ps.flatMap text)) &&
      onlyAt found text places ps

theorem onlyAt_cons {found : List α → Bool} {text : ι → List α} {places : ι → Bool} {p : ι}
    {ps : List ι} (h : onlyAt found text places (p :: ps) = true) :
    (places p = false → ∀ s, s ≠ [] → s <:+ text p → found (s ++ ps.flatMap text) = false) ∧
      onlyAt found text places ps = true := by
  rw [onlyAt, Bool.and_eq_true] at h
  refine ⟨fun hp s hs hsuffix => ?_, h.2⟩
  have hall := h.1
  rw [hp, Bool.false_or, List.all_eq_true] at hall
  have hfound := hall s ((List.mem_tails s (text p)).mpr hsuffix)
  rw [List.isEmpty_eq_false_iff.mpr hs, Bool.false_or, Bool.not_eq_true'] at hfound
  exact hfound

/-- The places are replaced and nothing else is. -/
theorem rewrite_pieces {rule : Rule α} {found : List α → Bool} {old new : ι → List α}
    {places : ι → Bool} (hfound : ∀ text, found text = false → rule text = none)
    (hnew : ∀ p, places p = false → new p = old p) {ps : List ι}
    (hplaces : ∀ p ∈ ps, places p = true → old p ≠ [] ∧
      ∀ rest, rule (old p ++ rest) = some ((old p).length, new p))
    (h : onlyAt found old places ps = true) :
    rewrite rule 0 (ps.flatMap old) = ps.flatMap new := by
  induction ps with
  | nil => rfl
  | cons p ps ih =>
    obtain ⟨hhead, htail⟩ := onlyAt_cons h
    have ih := ih (fun q hq => hplaces q (List.mem_cons_of_mem p hq)) htail
    rw [List.flatMap_cons, List.flatMap_cons, ← ih]
    cases hp : places p with
    | true =>
      obtain ⟨hne, hmatch⟩ := hplaces p List.mem_cons_self hp
      exact rewrite_match hne (hmatch _)
    | false =>
      rw [hnew p hp]
      exact rewrite_keep fun s hs hsuffix => hfound _ (hhead hp s hs hsuffix)

end AflNv.Lib.Rewriting
