import Mathlib.Algebra.BigOperators.Group.Finset.Piecewise
import Mathlib.Data.Finset.Option
import Mathlib.Data.Nat.ModEq
import Mathlib.Tactic.Ring
import Mathlib.Tactic.Linarith

/-!
# Open addressing with linear probing

A table of `cap` cells, each empty or holding one key.  `home` sends a key to
the index its probe starts at; the probe then walks the indices upwards and
wraps around at `cap`.  The table is a function of the index, so that a model
over an array, a list or a pointer can be read as one.

* `scan` is the probe: it stops at the first empty cell, at the cell that holds
  the key, or after the steps it was given.
* `WellProbed` is the invariant.  A stored key is reached from its home index
  without crossing an empty cell, and no key is stored twice.
* `scan_free`, `scan_found` and `scan_full` say what a full sweep decides in a
  well-probed table, and `WellProbed.update` keeps the invariant.
-/

namespace AflNv.Lib.Probe

variable {K : Type*}

/-- What a probe finds. -/
inductive Outcome where
  /-- Every visited cell holds another key. -/
  | full
  /-- The first empty cell. -/
  | free (i : ℕ)
  /-- The cell that holds the key. -/
  | found (i : ℕ)
  deriving DecidableEq, Repr

section Scan

variable [DecidableEq K]

/-- Walk at most `n` cells from index `i`. -/
def scan (t : ℕ → Option K) (cap : ℕ) (k : K) : ℕ → ℕ → Outcome
  | 0, _ => .full
  | n + 1, i =>
    match t i with
    | none => .free i
    | some k' => if k' = k then .found i else scan t cap k n ((i + 1) % cap)

/-- The cells the first `d` probes from `i` visit all hold keys other than `k`. -/
def Passed (t : ℕ → Option K) (cap : ℕ) (k : K) (i d : ℕ) : Prop :=
  ∀ e < d, ∃ k', k' ≠ k ∧ t ((i + e) % cap) = some k'

theorem scan_zero (t : ℕ → Option K) (cap : ℕ) (k : K) (i : ℕ) :
    scan t cap k 0 i = .full := rfl

theorem scan_succ_none {t : ℕ → Option K} {i : ℕ} (cap : ℕ) (k : K) (n : ℕ)
    (h : t i = none) : scan t cap k (n + 1) i = .free i := by
  simp [scan, h]

theorem scan_succ_self {t : ℕ → Option K} {i : ℕ} (cap : ℕ) {k : K} (n : ℕ)
    (h : t i = some k) : scan t cap k (n + 1) i = .found i := by
  simp [scan, h]

theorem scan_succ_other {t : ℕ → Option K} {i : ℕ} (cap : ℕ) {k k' : K} (n : ℕ)
    (h : t i = some k') (hne : k' ≠ k) :
    scan t cap k (n + 1) i = scan t cap k n ((i + 1) % cap) := by
  simp [scan, h, hne]

/-- The three ways a probe of `n` cells can end. -/
theorem scan_cases (t : ℕ → Option K) {cap : ℕ} (k : K) (n : ℕ) {i : ℕ}
    (hi : i < cap) :
    (scan t cap k n i = .full ∧ Passed t cap k i n) ∨
    (∃ d < n, scan t cap k n i = .free ((i + d) % cap) ∧
      t ((i + d) % cap) = none ∧ Passed t cap k i d) ∨
    (∃ d < n, scan t cap k n i = .found ((i + d) % cap) ∧
      t ((i + d) % cap) = some k ∧ Passed t cap k i d) := by
  have hcap : 0 < cap := by omega
  induction n generalizing i with
  | zero => exact .inl ⟨scan_zero t cap k i, by intro e he; omega⟩
  | succ n ih =>
    have hself : (i + 0) % cap = i := by rw [Nat.add_zero, Nat.mod_eq_of_lt hi]
    rcases hcell : t i with _ | k'
    · refine .inr (.inl ⟨0, by omega, ?_, ?_, ?_⟩)
      · rw [hself, scan_succ_none cap k n hcell]
      · rw [hself, hcell]
      · intro e he; omega
    by_cases hk : k' = k
    · subst hk
      refine .inr (.inr ⟨0, by omega, ?_, ?_, ?_⟩)
      · rw [hself, scan_succ_self cap n hcell]
      · rw [hself, hcell]
      · intro e he; omega
    -- The head cell holds another key: the walk goes on from the next index.
    have hshift : ∀ d, ((i + 1) % cap + d) % cap = (i + (d + 1)) % cap := by
      intro d
      rw [Nat.mod_add_mod, Nat.add_assoc, Nat.add_comm 1 d]
    have hpassed : ∀ d, Passed t cap k ((i + 1) % cap) d → Passed t cap k i (d + 1) := by
      intro d hd e he
      rcases e with _ | e
      · exact ⟨k', hk, by rw [hself, hcell]⟩
      · rw [← hshift e]
        exact hd e (by omega)
    rw [scan_succ_other cap n hcell hk]
    rcases ih (Nat.mod_lt (i + 1) hcap) with ⟨hs, hp⟩ | ⟨d, hd, hs, ht, hp⟩ | ⟨d, hd, hs, ht, hp⟩
    · exact .inl ⟨hs, hpassed n hp⟩
    · rw [hshift] at hs ht
      exact .inr (.inl ⟨d + 1, by omega, hs, ht, hpassed d hp⟩)
    · rw [hshift] at hs ht
      exact .inr (.inr ⟨d + 1, by omega, hs, ht, hpassed d hp⟩)

end Scan

/-! ## The invariant -/

/-- Every stored key is reached from its home index without crossing an empty
cell, and no key is stored twice. -/
structure WellProbed (home : K → ℕ) (cap : ℕ) (t : ℕ → Option K) : Prop where
  reach : ∀ i < cap, ∀ k, t i = some k →
    ∃ d < cap, i = (home k % cap + d) % cap ∧
      ∀ e < d, t ((home k % cap + e) % cap) ≠ none
  inj : ∀ i < cap, ∀ j < cap, ∀ k, t i = some k → t j = some k → i = j

/-- A table of empty cells is well probed. -/
theorem WellProbed.empty (home : K → ℕ) (cap : ℕ) :
    WellProbed home cap (fun _ => none) where
  reach := by intro i _ k h; simp at h
  inj := by intro i _ j _ k h; simp at h

/-- A sweep of `cap` cells from any index visits every cell. -/
theorem exists_probe_eq {cap : ℕ} (h : ℕ) {i : ℕ} (hi : i < cap) :
    ∃ d < cap, i = (h % cap + d) % cap := by
  have hh : h % cap < cap := Nat.mod_lt h (by omega)
  by_cases hle : h % cap ≤ i
  · exact ⟨i - h % cap, by omega, by rw [Nat.add_sub_cancel' hle, Nat.mod_eq_of_lt hi]⟩
  · refine ⟨i + cap - h % cap, by omega, ?_⟩
    rw [Nat.add_sub_cancel' (by omega), Nat.add_mod_right, Nat.mod_eq_of_lt hi]

section Decide

variable {home : K → ℕ} {cap : ℕ} {t : ℕ → Option K}

/-- A key that a walk has not met before an empty cell is not in the table. -/
theorem WellProbed.not_mem_of_passed (h : WellProbed home cap t) {k : K} {d : ℕ}
    (hp : Passed t cap k (home k % cap) d)
    (hend : cap ≤ d ∨ t ((home k % cap + d) % cap) = none) :
    ∀ j < cap, t j ≠ some k := by
  intro j hj hkj
  obtain ⟨d', hd', rfl, hreach⟩ := h.reach j hj k hkj
  rcases lt_trichotomy d' d with hlt | heq | hgt
  · obtain ⟨k', hne, hk'⟩ := hp d' hlt
    rw [hkj, Option.some.injEq] at hk'
    exact hne hk'.symm
  · rcases hend with hcap | hnone
    · omega
    · rw [heq, hnone] at hkj
      simp at hkj
  · rcases hend with hcap | hnone
    · omega
    · exact hreach d hgt hnone

variable [DecidableEq K]

/-- A full sweep that stops at an empty cell: the key is absent, and the cell
is reached from the key's home index without crossing an empty cell. -/
theorem WellProbed.scan_free (h : WellProbed home cap t) (hcap : 0 < cap) {k : K} {i : ℕ}
    (hs : scan t cap k cap (home k % cap) = .free i) :
    i < cap ∧ t i = none ∧ (∀ j < cap, t j ≠ some k) ∧
      ∃ d < cap, i = (home k % cap + d) % cap ∧
        ∀ e < d, t ((home k % cap + e) % cap) ≠ none := by
  rcases scan_cases t k cap (Nat.mod_lt (home k) hcap) with
    ⟨hs', _⟩ | ⟨d, hd, hs', ht, hp⟩ | ⟨d, _, hs', _⟩
  · rw [hs] at hs'; simp at hs'
  · rw [hs, Outcome.free.injEq] at hs'
    subst hs'
    refine ⟨Nat.mod_lt _ hcap, ht, h.not_mem_of_passed hp (.inr ht), d, hd, rfl, ?_⟩
    intro e he hnone
    obtain ⟨k', _, hk'⟩ := hp e he
    rw [hnone] at hk'
    simp at hk'
  · rw [hs] at hs'; simp at hs'

/-- A full sweep that finds the key. -/
theorem scan_found {k : K} {i start : ℕ} (hstart : start < cap)
    (hs : scan t cap k cap start = .found i) : i < cap ∧ t i = some k := by
  rcases scan_cases t k cap hstart with
    ⟨hs', _⟩ | ⟨d, _, hs', _⟩ | ⟨d, _, hs', ht, _⟩
  · rw [hs] at hs'; simp at hs'
  · rw [hs] at hs'; simp at hs'
  · rw [hs, Outcome.found.injEq] at hs'
    subst hs'
    exact ⟨Nat.mod_lt _ (by omega), ht⟩

/-- A full sweep that finds neither the key nor an empty cell: the key is
absent and no cell is empty. -/
theorem WellProbed.scan_full (h : WellProbed home cap t) (hcap : 0 < cap) {k : K}
    (hs : scan t cap k cap (home k % cap) = .full) :
    (∀ j < cap, t j ≠ some k) ∧ ∀ j < cap, t j ≠ none := by
  rcases scan_cases t k cap (Nat.mod_lt (home k) hcap) with
    ⟨_, hp⟩ | ⟨d, _, hs', _⟩ | ⟨d, _, hs', _⟩
  · refine ⟨h.not_mem_of_passed hp (.inl (Nat.le_refl cap)), ?_⟩
    intro j hj hnone
    obtain ⟨d, hd, rfl⟩ := exists_probe_eq (home k) hj
    obtain ⟨k', _, hk'⟩ := hp d hd
    rw [hnone] at hk'
    simp at hk'
  · rw [hs] at hs'; simp at hs'
  · rw [hs] at hs'; simp at hs'

end Decide

/-- Storing a new key in the empty cell its probe stops at keeps the
invariant.  No cell becomes empty, so the other keys stay reachable. -/
theorem WellProbed.update [DecidableEq K] {home : K → ℕ} {cap : ℕ} {t : ℕ → Option K}
    (h : WellProbed home cap t) {k : K} {i : ℕ} (hnew : ∀ j < cap, t j ≠ some k)
    (hreach : ∃ d < cap, i = (home k % cap + d) % cap ∧
      ∀ e < d, t ((home k % cap + e) % cap) ≠ none) :
    WellProbed home cap (Function.update t i (some k)) := by
  have hsome : ∀ j, t j ≠ none → Function.update t i (some k) j ≠ none := by
    intro j hj
    by_cases hji : j = i
    · simp [hji]
    · rwa [Function.update_of_ne hji]
  constructor
  · intro j hj k' hk'
    by_cases hji : j = i
    · rw [hji, Function.update_self, Option.some.injEq] at hk'
      subst hk' hji
      obtain ⟨d, hd, hdi, hpass⟩ := hreach
      exact ⟨d, hd, hdi, fun e he => hsome _ (hpass e he)⟩
    · rw [Function.update_of_ne hji] at hk'
      obtain ⟨d, hd, hdj, hpass⟩ := h.reach j hj k' hk'
      exact ⟨d, hd, hdj, fun e he => hsome _ (hpass e he)⟩
  · intro a ha b hb k' hka hkb
    by_cases hai : a = i <;> by_cases hbi : b = i
    · rw [hai, hbi]
    · rw [hai, Function.update_self, Option.some.injEq] at hka
      rw [Function.update_of_ne hbi, ← hka] at hkb
      exact absurd hkb (hnew b hb)
    · rw [hbi, Function.update_self, Option.some.injEq] at hkb
      rw [Function.update_of_ne hai, ← hkb] at hka
      exact absurd hka (hnew a ha)
    · rw [Function.update_of_ne hai] at hka
      rw [Function.update_of_ne hbi] at hkb
      exact h.inj a ha b hb k' hka hkb

/-! ## The stored keys -/

section Keys

variable [DecidableEq K] {home : K → ℕ} {cap : ℕ} {t : ℕ → Option K}

/-- The keys the table holds. -/
def keys (cap : ℕ) (t : ℕ → Option K) : Finset K :=
  (Finset.range cap).biUnion fun i => (t i).toFinset

@[simp] theorem mem_keys {k : K} : k ∈ keys cap t ↔ ∃ i < cap, t i = some k := by
  simp [keys]

theorem keys_empty (cap : ℕ) : keys cap (fun _ => (none : Option K)) = ∅ := by
  ext k; simp

theorem keys_update {k : K} {i : ℕ} (hi : i < cap) (hfree : t i = none) :
    keys cap (Function.update t i (some k)) = insert k (keys cap t) := by
  ext k'
  rw [mem_keys, Finset.mem_insert, mem_keys]
  constructor
  · rintro ⟨j, hj, hk'⟩
    by_cases hji : j = i
    · rw [hji, Function.update_self, Option.some.injEq] at hk'
      exact .inl hk'.symm
    · rw [Function.update_of_ne hji] at hk'
      exact .inr ⟨j, hj, hk'⟩
  · rintro (rfl | ⟨j, hj, hk'⟩)
    · exact ⟨i, hi, Function.update_self ..⟩
    · have hji : j ≠ i := by
        rintro rfl
        rw [hfree] at hk'
        simp at hk'
      exact ⟨j, hj, by rw [Function.update_of_ne hji, hk']⟩

/-- The keys are as many as the cells in use. -/
theorem WellProbed.card_keys (h : WellProbed home cap t) :
    (keys cap t).card = ((Finset.range cap).filter fun i => t i ≠ none).card := by
  have hone : ∀ o : Option K, o.toFinset.card = if o ≠ none then 1 else 0 := by
    intro o
    cases o <;> simp
  rw [keys, Finset.card_biUnion, Finset.card_filter]
  · exact Finset.sum_congr rfl fun i _ => hone (t i)
  · intro i hi j hj hij
    rw [Function.onFun, Finset.disjoint_left]
    intro k hki hkj
    rw [Option.mem_toFinset, Option.mem_def] at hki hkj
    exact hij (h.inj i (Finset.mem_range.mp hi) j (Finset.mem_range.mp hj) k hki hkj)

/-- At most `cap` keys are stored. -/
theorem WellProbed.card_keys_le (h : WellProbed home cap t) : (keys cap t).card ≤ cap := by
  rw [h.card_keys]
  exact (Finset.card_filter_le _ _).trans (Finset.card_range cap).le

/-- A table with no empty cell holds `cap` keys. -/
theorem WellProbed.card_keys_of_full (h : WellProbed home cap t)
    (hfull : ∀ j < cap, t j ≠ none) : (keys cap t).card = cap := by
  rw [h.card_keys, Finset.filter_true_of_mem fun i hi => hfull i (Finset.mem_range.mp hi),
    Finset.card_range]

/-- A table with an empty cell holds fewer than `cap` keys. -/
theorem WellProbed.card_keys_lt (h : WellProbed home cap t) {i : ℕ} (hi : i < cap)
    (hfree : t i = none) : (keys cap t).card < cap := by
  rw [h.card_keys]
  refine (Finset.card_lt_card ?_).trans_eq (Finset.card_range cap)
  refine Finset.filter_ssubset.mpr ⟨i, Finset.mem_range.mpr hi, ?_⟩
  simpa using hfree

end Keys

end AflNv.Lib.Probe
