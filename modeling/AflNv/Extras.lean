import AflNv.CBase
import AflNv.Lib.FirstSeen

/-!
# The extra tokens and their duplicates

`load_extras` fills `extras` with the tokens of the dictionary files, sorts them by length and calls
`dedup_extras` (afl-fuzz-extras.c).  `dedupExtras` is that function with its two loop indices: the
outer loop stands at `i`, the inner one looks at `j` and, where it removes an entry, at the same `j`
again.

* `dedupEntry_eq` says what one pass of the inner loop removes from a list that is sorted by length.
* `dedupRows_eq` is the outer loop, and `dedupExtras_eq` the function: it keeps the first entry of
  every token.
-/

namespace AflNv.Extras

open AflNv.Lib.FirstSeen

/-- `struct extra_data`; `len` counts the bytes behind `data`. -/
structure ExtraData where
  data : Bytes
  hitCnt : UInt32
  deriving DecidableEq

def ExtraData.len (e : ExtraData) : ℕ := e.data.length

/-- `compare_extras_len` lets the entries stand in this order. -/
def SortedByLen (extras : List ExtraData) : Prop := extras.Pairwise fun a b => a.len ≤ b.len

instance (extras : List ExtraData) : Decidable (SortedByLen extras) :=
  inferInstanceAs (Decidable (extras.Pairwise fun a b => a.len ≤ b.len))

/-- `memmove(&extras[j], &extras[j + 1], ..)` over the `extras_cnt` entries, and `--extras_cnt`. -/
def dropEntry (extras : List ExtraData) (j : ℕ) : List ExtraData :=
  extras.take j ++ extras.drop (j + 1)

theorem length_dropEntry {extras : List ExtraData} {j : ℕ} (hj : j < extras.length) :
    (dropEntry extras j).length + 1 = extras.length := by
  rw [dropEntry, List.length_append, List.length_take, List.length_drop]
  omega

/-- The inner loop, from `restart_dedup` with the indices `i` and `j`. -/
def dedupEntry (i j : ℕ) (hij : i < j) (extras : List ExtraData) : List ExtraData :=
  if hj : j < extras.length then
    if extras[i].len ≠ extras[j].len then extras
    else if extras[i].data = extras[j].data then dedupEntry i j hij (dropEntry extras j)
    else dedupEntry i (j + 1) (by omega) extras
  else extras
termination_by extras.length - j
decreasing_by
  · have := length_dropEntry hj
    omega
  · omega

theorem length_dedupEntry_le (i j : ℕ) (hij : i < j) (extras : List ExtraData) :
    (dedupEntry i j hij extras).length ≤ extras.length := by
  fun_induction dedupEntry i j hij extras with
  | case1 => exact Nat.le_refl _
  | case2 j hij extras hj _ _ ih =>
    have := length_dropEntry hj
    omega
  | case3 j hij extras hj _ _ ih => exact ih
  | case4 => exact Nat.le_refl _

/-- The outer loop. -/
def dedupRows (i : ℕ) (extras : List ExtraData) : List ExtraData :=
  if i < extras.length - 1 then
    dedupRows (i + 1) (dedupEntry i (i + 1) (Nat.lt_succ_self i) extras)
  else extras
termination_by extras.length - i
decreasing_by
  have := length_dedupEntry_le i (i + 1) (Nat.lt_succ_self i) extras
  omega

/-- `dedup_extras`; the reallocation at its end changes no entry. -/
def dedupExtras (extras : List ExtraData) : List ExtraData :=
  if extras.length < 2 then extras else dedupRows 0 extras

/-! ## One pass of the inner loop -/

theorem sorted_dropEntry {extras : List ExtraData} (h : SortedByLen extras) (j : ℕ) :
    SortedByLen (dropEntry extras j) := by
  refine List.Pairwise.sublist ?_ h
  have hsub : (extras.take j ++ extras.drop (j + 1)).Sublist (extras.take j ++ extras.drop j) :=
    (List.drop_sublist_drop_left extras (Nat.le_succ j)).append_left _
  rwa [List.take_append_drop] at hsub

/-- A pass removes from `j` on the entries that hold the token of entry `i`. -/
theorem dedupEntry_eq {i j : ℕ} (hij : i < j) {extras : List ExtraData} {e : ExtraData}
    (he : extras[i]? = some e) (hsorted : SortedByLen extras) :
    dedupEntry i j hij extras =
      extras.take j ++ (extras.drop j).filter fun b => decide (b.data ≠ e.data) := by
  fun_induction dedupEntry i j hij extras with
  | case1 j hij extras hj hlen =>
    obtain ⟨hi, rfl⟩ := List.getElem?_eq_some_iff.mp he
    -- every later entry is longer than entry `i`
    have hkeep : (extras.drop j).filter (fun b => decide (b.data ≠ extras[i].data)) =
        extras.drop j := by
      rw [List.filter_eq_self]
      intro b hb
      obtain ⟨k, hk, rfl⟩ := List.mem_drop_iff_getElem.mp hb
      have hle := List.pairwise_iff_getElem.mp hsorted
      have hfirst : extras[i].len ≤ extras[j].len := hle i j hi hj hij
      have hrest : extras[j].len ≤ extras[j + k].len := by
        rcases Nat.eq_zero_or_pos k with rfl | hpos
        · exact Nat.le_refl _
        · exact hle j (j + k) hj (by omega) (by omega)
      apply decide_eq_true
      intro hdata
      have : extras[j + k].len = extras[i].len := congrArg List.length hdata
      omega
    rw [hkeep, List.take_append_drop]
  | case2 j hij extras hj _ hdata ih =>
    obtain ⟨hi, rfl⟩ := List.getElem?_eq_some_iff.mp he
    have hget : (dropEntry extras j)[i]? = some extras[i] := by
      rw [dropEntry, List.getElem?_append_left (by simp; omega), List.getElem?_take_of_lt hij,
        List.getElem?_eq_getElem hi]
    rw [ih hget (sorted_dropEntry hsorted j), List.drop_eq_getElem_cons hj,
      List.filter_cons_of_neg (by simp [hdata])]
    simp only [dropEntry]
    rw [List.take_append_of_le_length (by simp; omega), List.take_take, Nat.min_self,
      List.drop_append_of_le_length (by simp; omega), List.drop_take, Nat.sub_self, List.take_zero,
      List.nil_append]
  | case3 j hij extras hj _ hdata ih =>
    obtain ⟨hi, rfl⟩ := List.getElem?_eq_some_iff.mp he
    rw [ih he hsorted, List.drop_eq_getElem_cons hj,
      List.filter_cons_of_pos (by simpa using fun h => hdata h.symm), List.take_succ_eq_append_getElem hj,
      List.append_assoc]
    rfl
  | case4 j hij extras hj =>
    rw [List.drop_eq_nil_of_le (by omega), List.take_of_length_le (by omega)]
    simp

/-! ## The function -/

/-- From `i` on, what is left are the first entries of their tokens. -/
theorem dedupRows_eq (i : ℕ) {extras : List ExtraData} (hsorted : SortedByLen extras) :
    dedupRows i extras = extras.take i ++ firsts ExtraData.data (extras.drop i) := by
  fun_induction dedupRows i extras with
  | case1 i extras hi ih =>
    have hlt : i < extras.length := by omega
    have hpass := dedupEntry_eq (Nat.lt_succ_self i) (List.getElem?_eq_getElem hlt) hsorted
    have hsub : (dedupEntry i (i + 1) (Nat.lt_succ_self i) extras).Sublist extras := by
      rw [hpass]
      have := (List.filter_sublist (p := fun b => decide (b.data ≠ extras[i].data))
        (l := extras.drop (i + 1))).append_left (extras.take (i + 1))
      rwa [List.take_append_drop] at this
    have hlen : (extras.take (i + 1)).length = i + 1 := by
      rw [List.length_take]
      omega
    rw [ih (hsorted.sublist hsub), hpass, List.take_left' hlen, List.drop_left' hlen,
      List.drop_eq_getElem_cons hlt, firsts_cons, List.take_succ_eq_append_getElem hlt,
      List.append_assoc]
    rfl
  | case2 i extras hi =>
    have hdrop : (extras.drop i).length ≤ 1 := by
      rw [List.length_drop]
      omega
    rw [firsts_of_length_le_one ExtraData.data hdrop, List.take_append_drop]

theorem dedupExtras_eq {extras : List ExtraData} (hsorted : SortedByLen extras) :
    dedupExtras extras = firsts ExtraData.data extras := by
  unfold dedupExtras
  split_ifs with hlen
  · exact (firsts_of_length_le_one _ (by omega)).symm
  · rw [dedupRows_eq 0 hsorted]
    rfl

/-- The list that `dedup_extras` leaves is sorted by length, holds no token twice, and its tokens
are those of the list in the order of their first occurrence; each is held by the entry that held it
first. -/
theorem dedupExtras_spec {extras : List ExtraData} (hsorted : SortedByLen extras) :
    SortedByLen (dedupExtras extras) ∧
      ((dedupExtras extras).map ExtraData.data).Nodup ∧
      (∀ token, token ∈ (dedupExtras extras).map ExtraData.data ↔
        token ∈ extras.map ExtraData.data) ∧
      (dedupExtras extras).map ExtraData.data = (extras.map ExtraData.data).eraseDups ∧
      (dedupExtras extras).Sublist extras ∧
      ∀ e ∈ dedupExtras extras, extras.find? (fun b => decide (b.data = e.data)) = some e := by
  rw [dedupExtras_eq hsorted, map_firsts]
  have hsub := firsts_sublist ExtraData.data extras
  refine ⟨hsorted.sublist hsub, nodup_eraseDups _, fun token => List.mem_eraseDups, rfl, hsub, ?_⟩
  exact fun e => find?_of_mem_firsts

/-- Duplicates in a row, apart from each other, and at the end of the list. -/
theorem dedupExtras_spec_rows :
    (dedupExtras [⟨[1], 0⟩, ⟨[2], 0⟩, ⟨[2], 4⟩, ⟨[2], 0⟩, ⟨[1], 0⟩, ⟨[1, 2], 0⟩,
      ⟨[1, 2], 3⟩]).map ExtraData.data = [[1], [2], [1, 2]] :=
  (dedupExtras_spec (by decide)).2.2.2.1.trans (by decide)

end AflNv.Extras
