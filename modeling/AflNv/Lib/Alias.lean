import Mathlib.Algebra.Order.Field.Basic
import Mathlib.Algebra.Order.BigOperators.Group.List
import Mathlib.Tactic.Linarith
import Mathlib.Tactic.Ring

/-!
# The alias method

A table for drawing from a distribution on `0 … n - 1`: every place has a probability and a
second index, and a draw takes a place uniformly and then the place itself or the second
index.  The construction keeps the indexes below weight 1 and the others on two stacks; one
step closes a small index with a large one, which gives up what the small one lacks.

* `Draft` is the construction half way, `Draft.step` one step.
* `Sound` is what a step keeps: every index is in one place, and what an index has, with
  what others owe it, is its weight.
* `Sound.encodes`: if the weights sum up to `n`, then what is left on the stacks has weight
  exactly 1, and the table encodes the weights.
-/

namespace AflNv.Lib.Alias

variable {R : Type*} [Field R] [LinearOrder R]

/-! ## The construction -/

/-- The construction half way: what is left of the weights, the indexes not yet closed, the
table, and the indexes that are closed, the last one first. -/
structure Draft (R : Type*) where
  weight : ℕ → R
  small : List ℕ
  large : List ℕ
  prob : ℕ → R
  other : ℕ → ℕ
  closed : List ℕ

namespace Draft

/-- The index `s` is closed with `l`, which gives up what `s` lacks. -/
def pair (s l : ℕ) (d : Draft R) : Draft R :=
  { d with
    weight := Function.update d.weight l (d.weight l - (1 - d.weight s))
    prob := Function.update d.prob s (d.weight s)
    other := Function.update d.other s l
    closed := s :: d.closed }

/-- The index goes to the stack that its weight belongs to. -/
def place (i : ℕ) (d : Draft R) : Draft R :=
  if d.weight i < 1 then { d with small := i :: d.small } else { d with large := i :: d.large }

/-- One step; `none` where a stack is empty. -/
def step (d : Draft R) : Option (Draft R) :=
  match d.small, d.large with
  | s :: small, l :: large => some (place l (pair s l { d with small := small, large := large }))
  | _, _ => none

/-- The steps, at most `k` of them. -/
def run : ℕ → Draft R → Draft R
  | 0, d => d
  | k + 1, d =>
    match d.step with
    | none => d
    | some d' => run k d'

/-- The beginning: the indexes below `n` are put on the stacks, the last one first. -/
def start (n : ℕ) (w : ℕ → R) : Draft R :=
  (List.range n).foldr place ⟨w, [], [], fun _ => 0, fun _ => 0, []⟩

/-- The index `i` is closed on its own. -/
def close (i : ℕ) (d : Draft R) : Draft R :=
  { d with prob := Function.update d.prob i 1, closed := i :: d.closed }

/-- What is left on the stacks is closed, the small indexes first. -/
def finish (d : Draft R) : Draft R :=
  (d.small ++ d.large).foldl (fun d i => d.close i) { d with small := [], large := [] }

@[simp] theorem place_weight (i : ℕ) (d : Draft R) : (place i d).weight = d.weight := by
  unfold place; split <;> rfl

@[simp] theorem place_prob (i : ℕ) (d : Draft R) : (place i d).prob = d.prob := by
  unfold place; split <;> rfl

@[simp] theorem place_other (i : ℕ) (d : Draft R) : (place i d).other = d.other := by
  unfold place; split <;> rfl

@[simp] theorem place_closed (i : ℕ) (d : Draft R) : (place i d).closed = d.closed := by
  unfold place; split <;> rfl

theorem place_perm (i : ℕ) (d : Draft R) :
    ((place i d).small ++ (place i d).large).Perm (i :: (d.small ++ d.large)) := by
  unfold place
  split
  · exact List.Perm.refl _
  · exact List.perm_middle

theorem place_length (i : ℕ) (d : Draft R) :
    (place i d).small.length + (place i d).large.length =
      d.small.length + d.large.length + 1 := by
  have h := (place_perm i d).length_eq
  simpa using h

end Draft

/-! ## What a step keeps -/

/-- What the closed indexes owe to `i`. -/
def owed (d : Draft R) (i : ℕ) : R :=
  ((d.closed.filter fun j => d.other j = i).map fun j => 1 - d.prob j).sum

/-- The table of `d` is on the way to the weights `w` of `n` indexes. -/
structure Sound (n : ℕ) (w : ℕ → R) (d : Draft R) : Prop where
  perm : (d.small ++ d.large ++ d.closed).Perm (List.range n)
  small : ∀ i ∈ d.small, 0 ≤ d.weight i ∧ d.weight i < 1
  large : ∀ i ∈ d.large, 1 ≤ d.weight i
  prob : ∀ i ∈ d.closed, 0 ≤ d.prob i ∧ d.prob i < 1
  other : ∀ i, d.other i < n
  mass : ((d.small ++ d.large).map d.weight).sum + d.closed.length =
    ((List.range n).map w).sum
  account : ∀ i < n, (if i ∈ d.closed then d.prob i else d.weight i) + owed d i = w i


section Step

variable {n : ℕ} {w : ℕ → R} {d d' : Draft R}

theorem Sound.nodup (h : Sound n w d) : (d.small ++ d.large ++ d.closed).Nodup :=
  h.perm.nodup_iff.mpr List.nodup_range

theorem Sound.mem_lt (h : Sound n w d) {i : ℕ} (hi : i ∈ d.small ++ d.large ++ d.closed) :
    i < n :=
  List.mem_range.mp (h.perm.mem_iff.mp hi)

theorem Sound.length_eq (h : Sound n w d) :
    d.small.length + d.large.length + d.closed.length = n := by
  have hlen := h.perm.length_eq
  simpa [add_assoc] using hlen

/-- What a step is. -/
theorem Draft.step_cases (h : d.step = some d') :
    ∃ s small l large, d.small = s :: small ∧ d.large = l :: large ∧
      d' = Draft.place l (Draft.pair s l { d with small := small, large := large }) := by
  unfold Draft.step at h
  split at h
  next s small l large hs hl =>
    exact ⟨s, small, l, large, hs, hl, (Option.some.inj h).symm⟩
  next => exact absurd h (by simp)

theorem Draft.step_eq_none (h : d.step = none) : d.small = [] ∨ d.large = [] := by
  cases hs : d.small with
  | nil => exact Or.inl rfl
  | cons s small =>
    cases hl : d.large with
    | nil => exact Or.inr rfl
    | cons l large => exact absurd h (by simp [Draft.step, hs, hl])

/-- A step closes one index. -/
theorem Draft.step_length (h : d.step = some d') :
    d'.small.length + d'.large.length + 1 = d.small.length + d.large.length := by
  obtain ⟨s, small, l, large, hs, hl, rfl⟩ := Draft.step_cases h
  rw [Draft.place_length, hs, hl]
  simp only [Draft.pair, List.length_cons]
  omega

omit [LinearOrder R] in
/-- What the closed indexes owe after one more is closed. -/
theorem owed_pair {s l : ℕ} (hs : s ∉ d.closed) (small large : List ℕ) (i : ℕ) :
    owed (Draft.pair s l { d with small := small, large := large }) i =
      (if l = i then 1 - d.weight s else 0) + owed d i := by
  have hne : ∀ j ∈ d.closed, j ≠ s := fun j hj h => hs (h ▸ hj)
  have hother : ∀ j ∈ d.closed, Function.update d.other s l j = d.other j :=
    fun j hj => Function.update_of_ne (hne j hj) _ _
  have hfilter : (d.closed.filter fun j => Function.update d.other s l j = i) =
      d.closed.filter fun j => d.other j = i :=
    List.filter_congr fun j hj => by simp only [hother j hj]
  have hmap : ((d.closed.filter fun j => d.other j = i).map
      fun j => 1 - Function.update d.prob s (d.weight s) j) =
      (d.closed.filter fun j => d.other j = i).map fun j => 1 - d.prob j :=
    List.map_congr_left fun j hj => by
      rw [Function.update_of_ne (hne j (List.mem_of_mem_filter hj))]
  show (((s :: d.closed).filter fun j => Function.update d.other s l j = i).map
    fun j => 1 - Function.update d.prob s (d.weight s) j).sum = _ + (List.map _ _).sum
  by_cases h : l = i
  · rw [List.filter_cons_of_pos (by simp [h]), hfilter, List.map_cons, List.sum_cons, hmap,
      if_pos h, Function.update_self]
  · rw [List.filter_cons_of_neg (by simp [h]), hfilter, hmap, if_neg h, zero_add]

theorem owed_place (l : ℕ) (d : Draft R) (i : ℕ) : owed (Draft.place l d) i = owed d i := by
  simp [owed]

/-- An index that is on no stack is put where its weight belongs. -/
theorem Sound.place {l : ℕ} (small large : List ℕ)
    (hperm : (l :: (small ++ large) ++ d.closed).Perm (List.range n))
    (hsmall : ∀ i ∈ small, 0 ≤ d.weight i ∧ d.weight i < 1)
    (hlarge : ∀ i ∈ large, 1 ≤ d.weight i) (hl : 0 ≤ d.weight l)
    (hprob : ∀ i ∈ d.closed, 0 ≤ d.prob i ∧ d.prob i < 1)
    (hother : ∀ i, d.other i < n)
    (hmass : ((l :: (small ++ large)).map d.weight).sum + d.closed.length =
      ((List.range n).map w).sum)
    (haccount : ∀ i < n, (if i ∈ d.closed then d.prob i else d.weight i) + owed d i = w i)
    (hd₁ : d.small = small) (hd₂ : d.large = large) : Sound n w (d.place l) := by
  have hstacks := Draft.place_perm l d
  rw [hd₁, hd₂] at hstacks
  refine ⟨?_, ?_, ?_, ?_, ?_, ?_, ?_⟩
  · rw [Draft.place_closed]
    exact (hstacks.append_right _).trans hperm
  · rw [Draft.place_weight]
    unfold Draft.place
    split
    next hlt =>
      intro i hi
      rcases List.mem_cons.mp hi with rfl | hi
      · exact ⟨hl, hlt⟩
      · exact hsmall i (hd₁ ▸ hi)
    next => exact fun i hi => hsmall i (hd₁ ▸ hi)
  · rw [Draft.place_weight]
    unfold Draft.place
    split
    next => exact fun i hi => hlarge i (hd₂ ▸ hi)
    next hlt =>
      intro i hi
      rcases List.mem_cons.mp hi with rfl | hi
      · exact not_lt.mp hlt
      · exact hlarge i (hd₂ ▸ hi)
  · rw [Draft.place_closed, Draft.place_prob]
    exact hprob
  · rw [Draft.place_other]
    exact hother
  · rw [Draft.place_weight, Draft.place_closed, (hstacks.map _).sum_eq]
    exact hmass
  · intro i hi
    rw [owed_place, Draft.place_closed, Draft.place_prob, Draft.place_weight]
    exact haccount i hi

end Step

section Run

variable [IsStrictOrderedRing R] {n : ℕ} {w : ℕ → R} {d d' : Draft R}

/-- One step keeps what the table is on the way to. -/
theorem Sound.step (h : Sound n w d) (hstep : d.step = some d') : Sound n w d' := by
  obtain ⟨s, small, l, large, hs, hl, rfl⟩ := Draft.step_cases hstep
  have hnodup := h.nodup
  have hperm := h.perm
  have hmass := h.mass
  rw [hs, hl] at hnodup hperm hmass
  have hsmem : s ∈ d.small := by simp [hs]
  have hlmem : l ∈ d.large := by simp [hl]
  have hsl : s ≠ l ∧ s ∉ d.closed := by
    simp only [List.cons_append, List.nodup_cons, List.mem_append, List.mem_cons, not_or] at hnodup
    exact ⟨hnodup.1.1.2.1, hnodup.1.2⟩
  have hperm' : (l :: (small ++ large) ++ s :: d.closed).Perm
      (s :: small ++ l :: large ++ d.closed) := by
    refine List.perm_middle.trans (List.Perm.cons s ?_)
    have hmid : (l :: (small ++ large)).Perm (small ++ l :: large) := List.perm_middle.symm
    exact hmid.append_right _
  have hlout : l ∉ small ∧ l ∉ large ∧ l ∉ d.closed := by
    have hnd := hperm'.nodup_iff.mpr hnodup
    simp only [List.cons_append, List.nodup_cons, List.mem_append, List.mem_cons, not_or] at hnd
    exact ⟨hnd.1.1.1, hnd.1.1.2, hnd.1.2.2⟩
  have hsw := h.small s hsmem
  have hlw := h.large l hlmem
  have hkeep : ∀ i, i ≠ l → (Draft.pair s l { d with small, large }).weight i = d.weight i :=
    fun i hi => Function.update_of_ne hi _ _
  have hgive : (Draft.pair s l { d with small, large }).weight l =
      d.weight l - (1 - d.weight s) := Function.update_self ..
  refine Sound.place small large (hperm'.trans hperm) ?_ ?_ ?_ ?_ ?_ ?_ ?_
    rfl rfl
  · intro i hi
    rw [hkeep i fun h => hlout.1 (h ▸ hi)]
    exact h.small i (by simp [hs, hi])
  · intro i hi
    rw [hkeep i fun h => hlout.2.1 (h ▸ hi)]
    exact h.large i (by simp [hl, hi])
  · rw [hgive]
    linarith
  · intro i hi
    rcases List.mem_cons.mp hi with rfl | hi
    · show 0 ≤ Function.update d.prob _ _ _ ∧ Function.update d.prob _ _ _ < 1
      rw [Function.update_self]
      exact hsw
    · have hne : i ≠ s := fun h => hsl.2 (h ▸ hi)
      show 0 ≤ Function.update d.prob _ _ _ ∧ Function.update d.prob _ _ _ < 1
      rw [Function.update_of_ne hne]
      exact h.prob i hi
  · intro i
    show Function.update d.other s l i < n
    by_cases his : i = s
    · rw [his, Function.update_self]
      exact h.mem_lt (by simp [hlmem])
    · rw [Function.update_of_ne his]
      exact h.other i
  · have hrest : ((small ++ large).map (Draft.pair s l { d with small, large }).weight).sum =
        ((small ++ large).map d.weight).sum := by
      refine congrArg List.sum (List.map_congr_left fun i hi => hkeep i ?_)
      rintro rfl
      rcases List.mem_append.mp hi with hi | hi
      · exact hlout.1 hi
      · exact hlout.2.1 hi
    rw [List.map_cons, List.sum_cons, hrest, hgive]
    show _ + ((s :: d.closed).length : R) = _
    simp only [List.map_append, List.sum_append, List.map_cons, List.sum_cons, List.length_cons,
      Nat.cast_add, Nat.cast_one] at hmass ⊢
    linarith
  · intro i hi
    rw [owed_pair hsl.2 small large]
    have hold := h.account i hi
    show (if i ∈ s :: d.closed then Function.update d.prob s (d.weight s) i
      else Function.update d.weight l (d.weight l - (1 - d.weight s)) i) + _ = _
    -- The index is the one that is closed, the one that gives, or another one.
    by_cases his : i = s
    · subst his
      rw [if_neg hsl.2] at hold
      rw [if_pos List.mem_cons_self, Function.update_self, if_neg (Ne.symm hsl.1), zero_add]
      exact hold
    · by_cases hil : i = l
      · subst hil
        rw [if_neg hlout.2.2] at hold
        rw [if_neg (by simp [his, hlout.2.2]), Function.update_self, if_pos rfl, ← hold]
        show _ + (1 - d.weight s + owed d i) = _
        ring
      · rw [Function.update_of_ne his, Function.update_of_ne hil, if_neg (Ne.symm hil), zero_add]
        simp only [List.mem_cons, his, false_or]
        exact hold

theorem Sound.run (h : Sound n w d) (k : ℕ) : Sound n w (d.run k) := by
  induction k generalizing d with
  | zero => exact h
  | succ k ih =>
    unfold Draft.run
    split
    next => exact h
    next d' hstep => exact ih (h.step hstep)

omit [IsStrictOrderedRing R] in
/-- As many steps as there are indexes on the stacks empty one of them. -/
theorem Draft.run_stops (d : Draft R) {k : ℕ} (hk : d.small.length + d.large.length ≤ k) :
    (d.run k).small = [] ∨ (d.run k).large = [] := by
  induction k generalizing d with
  | zero => exact Or.inl (List.length_eq_zero_iff.mp (by omega : d.small.length = 0))
  | succ k ih =>
    unfold Draft.run
    split
    next hstep => exact Draft.step_eq_none hstep
    next d' hstep =>
      have hlen := Draft.step_length hstep
      exact ih d' (by omega)

end Run

/-! ## The beginning -/

section Start

variable {n : ℕ} {w : ℕ → R}

/-- The stacks when the indexes of a list have been put on them. -/
theorem start_list (l : List ℕ) (hw : ∀ i, 0 ≤ w i) :
    let d := l.foldr Draft.place (⟨w, [], [], fun _ => 0, fun _ => 0, []⟩ : Draft R)
    d.weight = w ∧ d.prob = (fun _ => 0) ∧ d.other = (fun _ => 0) ∧ d.closed = [] ∧
      (d.small ++ d.large).Perm l ∧ (∀ i ∈ d.small, 0 ≤ w i ∧ w i < 1) ∧
      ∀ i ∈ d.large, 1 ≤ w i := by
  induction l with
  | nil => simp
  | cons i l ih =>
    rw [List.foldr_cons]
    generalize List.foldr Draft.place (⟨w, [], [], fun _ => 0, fun _ => 0, []⟩ : Draft R) l = d
      at ih ⊢
    obtain ⟨hweight, hprob, hother, hclosed, hperm, hsmall, hlarge⟩ := ih
    refine ⟨by rw [Draft.place_weight, hweight], by rw [Draft.place_prob, hprob],
      by rw [Draft.place_other, hother], by rw [Draft.place_closed, hclosed],
      (Draft.place_perm i _).trans (hperm.cons i), ?_, ?_⟩
    · unfold Draft.place
      split
      next hlt =>
        rw [hweight] at hlt
        exact List.forall_mem_cons.mpr ⟨⟨hw i, hlt⟩, hsmall⟩
      next => exact hsmall
    · unfold Draft.place
      split
      next => exact hlarge
      next hlt =>
        rw [hweight] at hlt
        exact List.forall_mem_cons.mpr ⟨not_lt.mp hlt, hlarge⟩

theorem sound_start (hn : 0 < n) (hw : ∀ i, 0 ≤ w i) : Sound n w (Draft.start n w) := by
  obtain ⟨hweight, hprob, hother, hclosed, hperm, hsmall, hlarge⟩ :=
    start_list (List.range n) hw
  refine ⟨?_, ?_, ?_, ?_, ?_, ?_, ?_⟩
  · show (_ ++ (Draft.start n w).closed).Perm _
    rw [Draft.start, hclosed, List.append_nil]
    exact hperm
  · rw [Draft.start, hweight]
    exact hsmall
  · rw [Draft.start, hweight]
    exact hlarge
  · rw [Draft.start, hclosed]
    simp
  · rw [Draft.start, hother]
    exact fun _ => hn
  · rw [Draft.start, hweight, hclosed, (hperm.map w).sum_eq]
    simp
  · intro i _
    rw [owed, Draft.start, hclosed, hweight]
    simp

end Start

/-! ## The end -/

/-- The table gives every index its weight. -/
def Encodes (n : ℕ) (w prob : ℕ → R) (other : ℕ → ℕ) : Prop :=
  ∀ i < n, prob i + (((List.range n).filter fun j => other j = i ∧ prob j < 1).map
    fun j => 1 - prob j).sum = w i

section End

variable {n : ℕ} {w : ℕ → R} {d : Draft R}

omit [LinearOrder R] in
theorem close_list (l : List ℕ) (d : Draft R) :
    (l.foldl (fun d i => Draft.close i d) d).other = d.other ∧
      (l.foldl (fun d i => Draft.close i d) d).closed = l.reverse ++ d.closed ∧
      ∀ i, (l.foldl (fun d i => Draft.close i d) d).prob i = if i ∈ l then 1 else d.prob i := by
  induction l generalizing d with
  | nil => simp
  | cons j l ih =>
    obtain ⟨hother, hclosed, hprob⟩ := ih (d.close j)
    rw [List.foldl_cons]
    refine ⟨hother, ?_, fun i => ?_⟩
    · rw [hclosed, List.reverse_cons, List.append_assoc]
      rfl
    · rw [hprob i]
      show (if i ∈ l then 1 else Function.update d.prob j 1 i) = _
      by_cases hij : i = j
      · rw [hij, Function.update_self]
        simp
      · rw [Function.update_of_ne hij]
        simp [hij]

omit [LinearOrder R] in
theorem close_list_large (l large : List ℕ) (d : Draft R) :
    l.foldl (fun d i => Draft.close i d) { d with large := large } =
      { l.foldl (fun d i => Draft.close i d) d with large := large } := by
  induction l generalizing d with
  | nil => rfl
  | cons j l ih => exact ih (d.close j)

variable [IsStrictOrderedRing R]

/-- Terms that lie below others with no greater sum are these others. -/
theorem eq_of_sum_le {f g : ℕ → R} {l : List ℕ} (hfg : ∀ i ∈ l, f i ≤ g i)
    (hsum : (l.map g).sum ≤ (l.map f).sum) : ∀ i ∈ l, f i = g i := by
  induction l with
  | nil => simp
  | cons j l ih =>
    obtain ⟨hj, hl⟩ := List.forall_mem_cons.mp hfg
    have hle : (l.map f).sum ≤ (l.map g).sum := List.sum_le_sum hl
    simp only [List.map_cons, List.sum_cons] at hsum
    exact List.forall_mem_cons.mpr ⟨by linarith, ih hl (by linarith)⟩

/-- If the weights sum up to `n`, then the weights that are left are 1. -/
theorem Sound.left_one (h : Sound n w d) (hstop : d.small = [] ∨ d.large = [])
    (hsum : ((List.range n).map w).sum = n) : ∀ i ∈ d.small ++ d.large, d.weight i = 1 := by
  have hlen : ((d.small ++ d.large).length : R) + d.closed.length = n := by
    have hlen := h.length_eq
    rw [← Nat.cast_add, List.length_append, hlen]
  have hmass : ((d.small ++ d.large).map d.weight).sum =
      ((d.small ++ d.large).map fun _ => (1 : R)).sum := by
    have hmass := h.mass
    rw [hsum, ← hlen] at hmass
    simpa using hmass
  rcases hstop with hs | hl
  · rw [hs, List.nil_append] at hmass ⊢
    intro i hi
    exact (eq_of_sum_le (f := fun _ => (1 : R)) h.large hmass.le i hi).symm
  · rw [hl, List.append_nil] at hmass ⊢
    exact eq_of_sum_le (fun i hi => (h.small i hi).2.le) hmass.ge

/-- The finished table of weights that sum up to `n`. -/
theorem Sound.encodes (h : Sound n w d) (hstop : d.small = [] ∨ d.large = [])
    (hsum : ((List.range n).map w).sum = n) :
    Encodes n w d.finish.prob d.finish.other ∧ d.finish.closed.Perm (List.range n) ∧
      (∀ i < n, 0 ≤ d.finish.prob i ∧ d.finish.prob i ≤ 1) ∧ ∀ i, d.finish.other i < n := by
  have hone := h.left_one hstop hsum
  obtain ⟨hother, hclosed, hprob⟩ :=
    close_list (d.small ++ d.large) { d with small := [], large := [] }
  have hnodup := h.nodup
  have hout : ∀ i ∈ d.closed, i ∉ d.small ++ d.large :=
    fun i hi hi' => (List.nodup_append.mp hnodup).2.2 i hi' i hi rfl
  have hcases : ∀ i < n, i ∈ d.small ++ d.large ∨ i ∈ d.closed := by
    intro i hi
    exact List.mem_append.mp (h.perm.mem_iff.mpr (List.mem_range.mpr hi))
  have hcloses : ∀ i ∈ d.closed, d.finish.prob i = d.prob i := by
    intro i hi
    rw [Draft.finish, hprob i, if_neg (hout i hi)]
  have hleft : ∀ i ∈ d.small ++ d.large, d.finish.prob i = 1 := by
    intro i hi
    rw [Draft.finish, hprob i, if_pos hi]
  have hfother : d.finish.other = d.other := hother
  refine ⟨?_, ?_, ?_, ?_⟩
  · intro i hi
    -- What is left owes nothing, so the debts are those of the closed indexes.
    have hdebts : ((List.range n).filter fun j => d.finish.other j = i ∧ d.finish.prob j < 1).Perm
        (d.closed.filter fun j => d.other j = i) := by
      refine (h.perm.symm.filter _).trans ?_
      rw [List.filter_append]
      have hnil : ((d.small ++ d.large).filter
          fun j => d.finish.other j = i ∧ d.finish.prob j < 1) = [] :=
        List.filter_eq_nil_iff.mpr fun j hj => by simp [hleft j hj]
      have hsame : (d.closed.filter fun j => d.finish.other j = i ∧ d.finish.prob j < 1) =
          d.closed.filter fun j => d.other j = i :=
        List.filter_congr fun j hj => by
          rw [hfother, hcloses j hj]
          simp [(h.prob j hj).2]
      rw [hnil, hsame, List.nil_append]
    have howed : (((List.range n).filter fun j => d.finish.other j = i ∧ d.finish.prob j < 1).map
        fun j => 1 - d.finish.prob j).sum = owed d i := by
      rw [(hdebts.map _).sum_eq, owed]
      exact congrArg List.sum (List.map_congr_left fun j hj => by
        rw [hcloses j (List.mem_of_mem_filter hj)])
    rw [howed, ← h.account i hi]
    rcases hcases i hi with hi | hi
    · rw [hleft i hi, if_neg fun hi' => hout i hi' hi, hone i hi]
    · rw [hcloses i hi, if_pos hi]
  · rw [Draft.finish, hclosed]
    exact ((List.reverse_perm _).append_right _).trans h.perm
  · intro i hi
    rcases hcases i hi with hi | hi
    · rw [hleft i hi]
      exact ⟨zero_le_one, le_refl 1⟩
    · rw [hcloses i hi]
      exact ⟨(h.prob i hi).1, (h.prob i hi).2.le⟩
  · intro i
    rw [hfother]
    exact h.other i

end End

end AflNv.Lib.Alias
