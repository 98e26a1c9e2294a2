import AflNv.Lib.ChainedSet
import Mathlib.Data.Nat.Bitwise
import Mathlib.Tactic.NormNum

/-!
# The map of seen comparison values

The comparison logger asks `hashmap_search_and_add` (hashmap.c) whether it has already worked on a
value.  The function merges the width class of the value, its `type`, and the value into one 64-bit
word: the type takes the bits 56 to 58, which the mask clears in the value.

* `merge_inj` says which pairs of type and value share a word.
* `answers_reset` says what the calls after a reset answer.
-/

namespace AflNv.Hashmap

open AflNv.Lib

/-- `TABLE_SIZE` -/
def tableSize : ℕ := 10007

/-- `HashMap`: the chains of its nodes, the newest node first. -/
structure HashMap where
  table : ChainedSet.Table UInt64 tableSize

/-- `hash` -/
def hash (key : UInt64) : Fin tableSize := ⟨key.toNat % tableSize, Nat.mod_lt _ (by decide)⟩

/-- `hashmap_reset`, with the map that `_hashmap` points to: an allocated and cleared table, or the
table with its nodes freed. -/
def hashmapReset : Option HashMap → HashMap
  | none => ⟨.empty UInt64 tableSize⟩
  | some m => ⟨m.table.map fun _ => []⟩

/-- The bits of a key that get into the word. -/
def keyMask : UInt64 := 0xf8ffffffffffffff

/-- `(key & 0xf8ffffffffffffff) + ((uint64_t)type << 56)` -/
def merge (type : UInt8) (key : UInt64) : UInt64 := (key &&& keyMask) + (type.toUInt64 <<< 56)

/-- `hashmap_search_and_add` -/
def hashmapSearchAndAdd (m : HashMap) (type : UInt8) (key : UInt64) : Bool × HashMap :=
  if 8 ≤ type then (false, m)
  else
    let (found, table) := ChainedSet.searchAndAdd hash m.table (merge type key)
    (found, ⟨table⟩)

/-- What a sequence of calls returns. -/
def answers : HashMap → List (UInt8 × UInt64) → List Bool
  | _, [] => []
  | m, (type, key) :: calls =>
    (hashmapSearchAndAdd m type key).1 :: answers (hashmapSearchAndAdd m type key).2 calls

/-! ## The merged word -/

theorem toNat_masked (key : UInt64) :
    (key &&& keyMask).toNat = key.toNat / 2 ^ 59 * 2 ^ 59 + key.toNat % 2 ^ 56 := by
  have hlow : (key.toNat &&& keyMask.toNat) % 2 ^ 59 = key.toNat % 2 ^ 56 := by
    rw [Nat.and_mod_two_pow, show keyMask.toNat % 2 ^ 59 = 2 ^ 56 - 1 from rfl,
      Nat.and_two_pow_sub_one_eq_mod]
    omega
  have hhigh : (key.toNat &&& keyMask.toNat) / 2 ^ 59 = key.toNat / 2 ^ 59 := by
    have hlt := key.toNat_lt
    rw [Nat.and_div_two_pow, show keyMask.toNat / 2 ^ 59 = 2 ^ 5 - 1 from rfl,
      Nat.and_two_pow_sub_one_eq_mod]
    omega
  rw [UInt64.toNat_and]
  omega

theorem toNat_merge {type : UInt8} (htype : type < 8) (key : UInt64) :
    (merge type key).toNat = (key &&& keyMask).toNat + type.toNat * 2 ^ 56 := by
  have hlt := key.toNat_lt
  have h8 : type.toNat < 8 := htype
  have hmasked := toNat_masked key
  have hshift : (type.toUInt64 <<< 56).toNat = type.toNat * 2 ^ 56 := by
    rw [UInt64.toNat_shiftLeft]
    simp [Nat.shiftLeft_eq]
    omega
  rw [merge, UInt64.toNat_add, hshift]
  omega

/-- Pairs share a word exactly when they agree in the type and in the masked key. -/
theorem merge_inj {type type' : UInt8} (h : type < 8) (h' : type' < 8) (key key' : UInt64) :
    merge type key = merge type' key' ↔ type = type' ∧ key &&& keyMask = key' &&& keyMask := by
  constructor
  · intro heq
    have hnat := congrArg UInt64.toNat heq
    rw [toNat_merge h, toNat_merge h'] at hnat
    have hmasked := toNat_masked key
    have hmasked' := toNat_masked key'
    have h8 : type.toNat < 8 := h
    have h8' : type'.toNat < 8 := h'
    exact ⟨UInt8.toNat_inj.mp (by omega), UInt64.toNat_inj.mp (by omega)⟩
  · rintro ⟨rfl, hkey⟩
    rw [merge, merge, hkey]

theorem and_keyMask_of_lt {key : UInt64} (h : key.toNat < 2 ^ 56) : key &&& keyMask = key := by
  apply UInt64.toNat_inj.mp
  rw [toNat_masked]
  omega

/-! ## Calls after a reset -/

theorem table_reset (m : Option HashMap) :
    (hashmapReset m).table = ChainedSet.Table.empty UInt64 tableSize := by
  cases m with
  | none => rfl
  | some m =>
    apply Vector.ext
    intro i hi
    simp [hashmapReset, ChainedSet.Table.empty]

theorem answers_eq {m : HashMap} {calls : List (UInt8 × UInt64)} (h : ∀ c ∈ calls, c.1 < 8) :
    answers m calls = ChainedSet.answers hash m.table (calls.map fun c => merge c.1 c.2) := by
  induction calls generalizing m with
  | nil => rfl
  | cons c calls ih =>
    have hc : ¬ 8 ≤ c.1 := UInt8.not_le.mpr (h c List.mem_cons_self)
    rw [answers, ih fun d hd => h d (List.mem_cons_of_mem _ hd), List.map_cons,
      ChainedSet.answers]
    simp only [hashmapSearchAndAdd, if_neg hc]

/-- An operand that another one is taken for: the same type, and the same value but for the bits
that the type takes. -/
def SameWord (c d : UInt8 × UInt64) : Prop := c.1 = d.1 ∧ c.2 &&& keyMask = d.2 &&& keyMask

theorem answers_reset (m : Option HashMap) {calls : List (UInt8 × UInt64)}
    (h : ∀ c ∈ calls, c.1 < 8) {i : ℕ} {c : UInt8 × UInt64} (hc : calls[i]? = some c) :
    ∃ found, (answers (hashmapReset m) calls)[i]? = some found ∧
      (found = true ↔ ∃ d ∈ calls.take i, SameWord d c) := by
  have hmem : c ∈ calls := List.mem_of_getElem? hc
  rw [answers_eq h, ChainedSet.answers_getElem?, List.getElem?_map, hc, table_reset]
  refine ⟨_, rfl, ?_⟩
  rw [decide_eq_true_iff, or_iff_left (ChainedSet.not_mem_empty _ _), ← List.map_take,
    List.mem_map]
  refine exists_congr fun d => and_congr_right fun hd => ?_
  exact merge_inj (h d (List.mem_of_mem_take hd)) (h c hmem) d.2 c.2

theorem SameWord.eq_of_lt {c d : UInt8 × UInt64} (h : SameWord d c) (hc : c.2.toNat < 2 ^ 56)
    (hd : d.2.toNat < 2 ^ 56) : d = c := by
  obtain ⟨htype, hkey⟩ := h
  rw [and_keyMask_of_lt hc, and_keyMask_of_lt hd] at hkey
  exact Prod.ext htype hkey

/-- After a reset a call finds its operand exactly when an earlier call brought one with the same
type and the same value but for the bits that the type takes.  Among the operands of a type whose
values stay below `2 ^ 56` that is the operand itself. -/
theorem hashmap_seen (m : Option HashMap) {calls : List (UInt8 × UInt64)}
    (h : ∀ c ∈ calls, c.1 < 8) {i : ℕ} {c : UInt8 × UInt64} (hc : calls[i]? = some c) :
    ∃ found, (answers (hashmapReset m) calls)[i]? = some found ∧
      (found = true ↔ ∃ d ∈ calls.take i, SameWord d c) ∧
      ((∀ d ∈ calls, d.1 = c.1 → d.2.toNat < 2 ^ 56) → (found = true ↔ c ∈ calls.take i)) := by
  obtain ⟨found, hanswer, hfound⟩ := answers_reset m h hc
  refine ⟨found, hanswer, hfound, fun hshort => ?_⟩
  have hclt := hshort c (List.mem_of_getElem? hc) rfl
  rw [hfound]
  constructor
  · rintro ⟨d, hd, hword⟩
    have hdlt := hshort d (List.mem_of_mem_take hd) hword.1
    rwa [← hword.eq_of_lt hclt hdlt]
  · exact fun hmem => ⟨c, hmem, rfl, rfl⟩

theorem hashmap_seen_short :
    ∃ found, (answers (hashmapReset none) [(3, 7), (1, 7), (3, 7)])[2]? = some found ∧
      (found = true ↔ (3, 7) ∈ [((3 : UInt8), (7 : UInt64)), (1, 7)]) := by
  have hlast : [((3 : UInt8), (7 : UInt64)), (1, 7), (3, 7)][2]? = some (3, 7) := rfl
  obtain ⟨found, hanswer, -, hexact⟩ := hashmap_seen none (by simp) hlast
  exact ⟨found, hanswer, hexact (by simp)⟩

/-- Of two full values that differ in bit 56 only, the second is taken as seen. -/
theorem full_value_taken_as_seen :
    ((7 : UInt8), (0x100000000000000 : UInt64)) ∉ [((7 : UInt8), (0 : UInt64))] ∧
      (answers (hashmapReset none) [(7, 0), (7, 0x100000000000000)])[1]? = some true := by
  have hlast : [((7 : UInt8), (0 : UInt64)), (7, 0x100000000000000)][1]? =
      some (7, 0x100000000000000) := rfl
  obtain ⟨found, hanswer, hfound⟩ := answers_reset none (by simp) hlast
  refine ⟨by decide, ?_⟩
  rw [hanswer, hfound.mpr ⟨(7, 0), by decide, rfl, rfl⟩]

end AflNv.Hashmap
