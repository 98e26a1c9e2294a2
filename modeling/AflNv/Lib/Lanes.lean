import Mathlib.Data.List.Basic

/-!
# Lanes of a list

A list whose length is a multiple of `n` is a sequence of blocks of length `n`.  Lane `r` holds the
elements at the place `r` of every block, and `spread` puts a list on one lane, with a fixed element
on the others.

* `lane_block` takes a list apart block by block, and `block_induction` is the induction that goes
  with it.
* `lane_spread` and `spread_lane` say when the two are inverse to each other.
-/

namespace AflNv.Lib.Lanes

variable {α : Type*}

/-- The elements whose indices leave the remainder `r`; the first element has the index `j`. -/
def laneFrom (n r : ℕ) : ℕ → List α → List α
  | _, [] => []
  | j, a :: l => if j % n = r then a :: laneFrom n r (j + 1) l else laneFrom n r (j + 1) l

def lane (n r : ℕ) (l : List α) : List α := laneFrom n r 0 l

/-- The elements of `l` on lane `r`, and `z` on every other lane. -/
def spread (z : α) (n r : ℕ) (l : List α) : List α :=
  l.flatMap fun a => (List.replicate n z).set r a

@[simp] theorem lane_nil (n r : ℕ) : lane n r ([] : List α) = [] := rfl

/-! ## Blocks -/

section Blocks

variable {n r : ℕ}

/-- The indices count modulo `n`. -/
theorem laneFrom_add (n r j : ℕ) (l : List α) : laneFrom n r (j + n) l = laneFrom n r j l := by
  induction l generalizing j with
  | nil => rfl
  | cons a l ih =>
    have hnext : j + n + 1 = j + 1 + n := by omega
    rw [laneFrom, laneFrom, Nat.add_mod_right, hnext, ih]

theorem laneFrom_append (n r j : ℕ) (a b : List α) :
    laneFrom n r j (a ++ b) = laneFrom n r j a ++ laneFrom n r (j + a.length) b := by
  induction a generalizing j with
  | nil => rfl
  | cons x a ih =>
    have hnext : j + 1 + a.length = j + (a.length + 1) := by omega
    rw [List.cons_append, laneFrom, laneFrom, ih, List.length_cons, hnext]
    split_ifs <;> rfl

/-- A part of one block holds at most one element of a lane. -/
theorem laneFrom_part {j : ℕ} {a : List α} (h : j + a.length ≤ n) :
    laneFrom n r j a = if j ≤ r then a[r - j]?.toList else [] := by
  induction a generalizing j with
  | nil =>
    rw [laneFrom]
    split_ifs <;> rfl
  | cons x a ih =>
    rw [List.length_cons] at h
    have hmod : j % n = j := Nat.mod_eq_of_lt (by omega)
    rw [laneFrom, hmod, ih (by omega)]
    by_cases heq : j = r
    · subst heq
      rw [if_pos rfl, if_neg (by omega), if_pos (Nat.le_refl j), Nat.sub_self]
      rfl
    · rw [if_neg heq]
      by_cases hle : j ≤ r
      · have hsub : r - j = r - (j + 1) + 1 := by omega
        rw [if_pos (by omega), if_pos hle, hsub, List.getElem?_cons_succ]
      · rw [if_neg (by omega), if_neg hle]

/-- A lane takes one element of each block. -/
theorem lane_block {blk : List α} (hblk : blk.length = n) (rest : List α) :
    lane n r (blk ++ rest) = blk[r]?.toList ++ lane n r rest := by
  have hpart := laneFrom_part (n := n) (r := r) (j := 0) (a := blk) (by omega)
  rw [if_pos (Nat.zero_le r), Nat.sub_zero] at hpart
  have hnext : 0 + blk.length = 0 + n := by rw [hblk]
  rw [lane, laneFrom_append, hpart, hnext, laneFrom_add]
  rfl

theorem block_induction {motive : List α → Prop} (nil : motive [])
    (block : ∀ blk rest, blk.length = n → n ∣ rest.length → motive rest → motive (blk ++ rest))
    {l : List α} (hl : n ∣ l.length) : motive l := by
  obtain ⟨k, hk⟩ := hl
  induction k generalizing l with
  | zero =>
    have : l = [] := List.eq_nil_of_length_eq_zero (by rw [hk, Nat.mul_zero])
    exact this ▸ nil
  | succ k ih =>
    rw [Nat.mul_succ] at hk
    have hrest : (l.drop n).length = n * k := by
      rw [List.length_drop]
      omega
    have hblk : (l.take n).length = n := by
      rw [List.length_take]
      omega
    have := block (l.take n) (l.drop n) hblk ⟨k, hrest⟩ (ih hrest)
    rwa [List.take_append_drop] at this

theorem length_lane (hr : r < n) {l : List α} (hl : n ∣ l.length) :
    n * (lane n r l).length = l.length := by
  refine block_induction (motive := fun l => n * (lane n r l).length = l.length)
    rfl ?_ hl
  intro blk rest hblk _ ih
  have hone : blk[r]?.toList.length = 1 := by
    rw [List.getElem?_eq_getElem (by omega)]
    rfl
  rw [lane_block hblk, List.length_append, List.length_append, hone, Nat.mul_add, ih, hblk,
    Nat.mul_one]

end Blocks

/-! ## Spreading -/

section Spread

variable {n r : ℕ} (z : α)

theorem length_spread (n r : ℕ) (l : List α) : (spread z n r l).length = n * l.length := by
  induction l with
  | nil => rfl
  | cons a l ih =>
    rw [spread, List.flatMap_cons, List.length_append, List.length_set, List.length_replicate]
    rw [spread] at ih
    rw [ih, List.length_cons, Nat.mul_succ, Nat.add_comm]

theorem lane_spread (hr : r < n) (l : List α) : lane n r (spread z n r l) = l := by
  induction l with
  | nil => rfl
  | cons a l ih =>
    have hlen : ((List.replicate n z).set r a).length = n := by simp
    have hget : ((List.replicate n z).set r a)[r]? = some a := by simp [hr]
    rw [spread, List.flatMap_cons, lane_block hlen, hget]
    exact congrArg (a :: ·) ih

theorem lane_spread_of_ne {s : ℕ} (hs : s < n) (hne : s ≠ r) (l : List α) :
    lane n s (spread z n r l) = List.replicate l.length z := by
  induction l with
  | nil => rfl
  | cons a l ih =>
    have hlen : ((List.replicate n z).set r a).length = n := by simp
    have hget : ((List.replicate n z).set r a)[s]? = some z := by
      rw [List.getElem?_set_ne (Ne.symm hne), List.getElem?_replicate_of_lt hs]
    rw [spread, List.flatMap_cons, lane_block hlen, hget, List.length_cons, List.replicate_succ]
    exact congrArg (z :: ·) ih

/-- A list that holds `z` on every other lane is the spread of its lane `r`. -/
theorem spread_lane (hr : r < n) {l : List α} (hl : n ∣ l.length)
    (hz : ∀ s < n, s ≠ r → ∀ a ∈ lane n s l, a = z) : spread z n r (lane n r l) = l := by
  revert hz
  refine block_induction (motive := fun l =>
    (∀ s < n, s ≠ r → ∀ a ∈ lane n s l, a = z) → spread z n r (lane n r l) = l)
    (fun _ => rfl) ?_ hl
  intro blk rest hblk _ ih hz
  have hget (s : ℕ) (hs : s < n) : blk[s]?.toList = [blk[s]] := by
    rw [List.getElem?_eq_getElem (by omega)]
    rfl
  have hrest := ih fun s hs hne a ha => hz s hs hne a (by
    rw [lane_block hblk]
    exact List.mem_append_right _ ha)
  have hset : (List.replicate n z).set r blk[r] = blk := by
    apply List.ext_getElem
    · rw [List.length_set, List.length_replicate, hblk]
    · intro s hs hs'
      rw [List.getElem_set]
      split_ifs with heq
      · subst heq
        rfl
      · have hmem : blk[s] ∈ lane n s (blk ++ rest) := by
          rw [lane_block hblk, hget s (by omega)]
          exact List.mem_append_left _ (List.mem_singleton_self _)
        rw [List.getElem_replicate]
        exact (hz s (by omega) (Ne.symm heq) _ hmem).symm
  rw [lane_block hblk, hget r hr, List.singleton_append, spread, List.flatMap_cons, hset]
  exact congrArg (blk ++ ·) hrest

end Spread

end AflNv.Lib.Lanes
