import Mathlib.Tactic.Common

/-!
# Filling a template and reading it back

A template is the list of literal texts around a number of holes, as the
format string of a `printf` has it: one literal before each hole and one behind
the last.  `fill` writes values into the holes.  `scan` is a reader that knows
only the literals: it strips a literal, takes the hole's value up to the first
symbol of the next literal, and goes on.

`scan_fill` reads back what `fill` wrote, for values that do not hold the symbol
that ends their hole.  `scan_eq_none_of_not_prefix` rejects a text that starts
differently.
-/

namespace AflNv.Lib.Template

variable {α : Type*} [DecidableEq α]

omit [DecidableEq α] in
/-- The literals with the values in between.  A missing value is empty. -/
def fill : List (List α) → List (List α) → List α
  | [], _ => []
  | [l], _ => l
  | l :: l' :: ls, [] => l ++ fill (l' :: ls) []
  | l :: l' :: ls, v :: vs => l ++ v ++ fill (l' :: ls) vs

/-- The values of the holes, if the text is an instance of the template. -/
def scan : List (List α) → List α → Option (List (List α))
  | [], text => if text = [] then some [] else none
  | [l], text => if text = l then some [] else none
  | l :: l' :: ls, text =>
    if l.isPrefixOf text then
      let rest := text.drop l.length
      let value := rest.takeWhile fun a => l'.head? ≠ some a
      (scan (l' :: ls) (rest.drop value.length)).map (value :: ·)
    else none

/-- The values fit the template: one for each hole, each without the symbol
that the next literal starts with. -/
def Fits : List (List α) → List (List α) → Prop
  | _ :: l' :: ls, v :: vs => (∃ a, l'.head? = some a ∧ a ∉ v) ∧ Fits (l' :: ls) vs
  | [_], [] => True
  | _, _ => False

omit [DecidableEq α] in
/-- Values fit when a predicate tells their symbols from the first symbols of
the literals. -/
theorem fits_of_forall (p : α → Bool) {l : List α} {ls vs : List (List α)}
    (hlen : ls.length = vs.length)
    (hls : ∀ l ∈ ls, l.head?.any p = true)
    (hvs : ∀ v ∈ vs, ∀ a ∈ v, p a = false) : Fits (l :: ls) vs := by
  induction ls generalizing l vs with
  | nil =>
    cases vs with
    | nil => trivial
    | cons v vs => simp at hlen
  | cons l' ls ih =>
    cases vs with
    | nil => simp at hlen
    | cons v vs =>
      obtain ⟨a, hhead, ha⟩ := (Option.any_eq_true p l'.head?).mp (hls l' (by simp))
      refine ⟨⟨a, hhead, fun hmem => ?_⟩, ?_⟩
      · exact Bool.noConfusion ((hvs v (by simp) a hmem).symm.trans ha)
      · exact ih (by simpa using hlen) (fun m hm => hls m (List.mem_cons_of_mem l' hm))
          (fun w hw => hvs w (List.mem_cons_of_mem v hw))

omit [DecidableEq α] in
/-- The end of the last literal is the end of the text. -/
theorem fill_concat (ls : List (List α)) (l t : List α) (vs : List (List α)) :
    fill (ls ++ [l ++ t]) vs = fill (ls ++ [l]) vs ++ t := by
  induction ls generalizing vs with
  | nil => rfl
  | cons m ls ih =>
    have hcons : ∀ last : List α, ∃ m' ms, ls ++ [last] = m' :: ms := by
      intro last
      cases ls with
      | nil => exact ⟨last, [], rfl⟩
      | cons m' ms => exact ⟨m', ms ++ [last], rfl⟩
    obtain ⟨m₁, ms₁, h₁⟩ := hcons (l ++ t)
    obtain ⟨m₂, ms₂, h₂⟩ := hcons l
    rw [List.cons_append, List.cons_append]
    cases vs with
    | nil =>
      rw [h₁, h₂, fill, fill, ← h₁, ← h₂, ih, List.append_assoc]
    | cons v vs =>
      rw [h₁, h₂, fill, fill, ← h₁, ← h₂, ih]
      simp only [List.append_assoc]

omit [DecidableEq α] in
/-- A filled template starts with its first literal. -/
theorem fill_eq_append (l : List α) (ls vs : List (List α)) :
    ∃ rest, fill (l :: ls) vs = l ++ rest := by
  cases ls with
  | nil => exact ⟨[], by rw [fill, List.append_nil]⟩
  | cons l' ls =>
    cases vs with
    | nil => exact ⟨_, by rw [fill]⟩
    | cons v vs => exact ⟨v ++ fill (l' :: ls) vs, by rw [fill, List.append_assoc]⟩

theorem takeWhile_value {v rest : List α} {a : α} (ha : a ∉ v) :
    (v ++ a :: rest).takeWhile (fun b => some a ≠ some b) = v := by
  induction v with
  | nil => simp
  | cons b v ih =>
    rw [List.mem_cons, not_or] at ha
    have hne : (some a : Option α) ≠ some b := fun h => ha.1 (Option.some.inj h)
    rw [List.cons_append, List.takeWhile_cons_of_pos (by simpa using hne), ih ha.2]

/-- Reading back a filled template. -/
theorem scan_fill {ls vs : List (List α)} (h : Fits ls vs) : scan ls (fill ls vs) = some vs := by
  induction ls generalizing vs with
  | nil => exact absurd h (by simp [Fits])
  | cons l ls ih =>
    cases ls with
    | nil =>
      cases vs with
      | nil => rw [fill, scan, if_pos rfl]
      | cons v vs => exact absurd h (by simp [Fits])
    | cons l' ls =>
      cases vs with
      | nil => exact absurd h (by simp [Fits])
      | cons v vs =>
        obtain ⟨⟨a, hhead, ha⟩, hfits⟩ := h
        obtain ⟨rest, hrest⟩ := fill_eq_append l' ls vs
        obtain ⟨tail, rfl⟩ : ∃ tail, l' = a :: tail := by
          cases l' with
          | nil => simp at hhead
          | cons b tail => exact ⟨tail, by rw [Option.some.inj hhead]⟩
        have hvalue : (v ++ fill ((a :: tail) :: ls) vs).takeWhile (fun b => some a ≠ some b) =
            v := by
          rw [hrest, List.cons_append]
          exact takeWhile_value ha
        rw [fill, scan, List.append_assoc, if_pos (by simp), List.drop_left, List.head?_cons]
        dsimp only
        rw [hvalue, List.drop_left, ih hfits]
        rfl

/-- A text with another start is not an instance of the template. -/
theorem scan_eq_none_of_not_prefix {l l' : List α} {ls : List (List α)} {text : List α}
    (h : ¬ l <+: text) : scan (l :: l' :: ls) text = none := by
  rw [scan, if_neg]
  rwa [List.isPrefixOf_iff_prefix]

omit [DecidableEq α] in
/-- A symbol of a filled template comes from a literal or from a value. -/
theorem mem_fill {ls vs : List (List α)} {a : α} (h : a ∈ fill ls vs) :
    (∃ l ∈ ls, a ∈ l) ∨ ∃ v ∈ vs, a ∈ v := by
  induction ls generalizing vs with
  | nil => simp [fill] at h
  | cons l ls ih =>
    cases ls with
    | nil => exact .inl ⟨l, by simp, by simpa [fill] using h⟩
    | cons l' ls =>
      cases vs with
      | nil =>
        rw [fill, List.mem_append] at h
        rcases h with h | h
        · exact .inl ⟨l, by simp, h⟩
        · rcases ih h with ⟨m, hm, ha⟩ | ⟨v, hv, ha⟩
          · exact .inl ⟨m, List.mem_cons_of_mem l hm, ha⟩
          · exact .inr ⟨v, hv, ha⟩
      | cons v vs =>
        rw [fill, List.append_assoc, List.mem_append, List.mem_append] at h
        rcases h with h | h | h
        · exact .inl ⟨l, by simp, h⟩
        · exact .inr ⟨v, by simp, h⟩
        · rcases ih h with ⟨m, hm, ha⟩ | ⟨w, hw, ha⟩
          · exact .inl ⟨m, List.mem_cons_of_mem l hm, ha⟩
          · exact .inr ⟨w, List.mem_cons_of_mem v hw, ha⟩

end AflNv.Lib.Template
