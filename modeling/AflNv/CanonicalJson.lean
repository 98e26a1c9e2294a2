import AflNv.Lib.JsonIndent
import AflNv.PythonJson

/-!
# The canonical serialization

`json.dumps(v, ensure_ascii=False, sort_keys=True, indent=2) + "\n"`, as the protocol and the secret
guard write their reports.  `encodes_canonicalText` says which values the encoding of that text
raises for, and `read_canonicalText` that the text is read back with the keys sorted.
-/

namespace AflNv.CanonicalJson

open AflNv.Lib AflNv.Lib.JsonCodec AflNv.PythonJson

variable {F : Type} (N : Floats F)

/-! ## Values with distinct keys -/

mutual

/-- No object of the value has two members with one key. -/
def keysDistinct : Value F → Bool
  | .list vs => keysDistinctItems vs
  | .dict ms => decide (ms.map Prod.fst).Nodup && keysDistinctMembers ms
  | _ => true

def keysDistinctItems : List (Value F) → Bool
  | [] => true
  | v :: vs => keysDistinct v && keysDistinctItems vs

def keysDistinctMembers : List (Text × Value F) → Bool
  | [] => true
  | (_, v) :: ms => keysDistinct v && keysDistinctMembers ms

end

theorem keysDistinctItems_iff {vs : List (Value F)} :
    keysDistinctItems vs = true ↔ ∀ v ∈ vs, keysDistinct v = true := by
  induction vs with
  | nil => exact iff_of_true rfl fun _ h => absurd h List.not_mem_nil
  | cons v vs ih => rw [keysDistinctItems, Bool.and_eq_true, ih, List.forall_mem_cons]

mutual

/-- Without surrogates and with distinct keys a value is well-formed. -/
theorem wf_of_encodable :
    ∀ {v : Value F}, encodable v = true → keysDistinct v = true → v.Wf
  | .null, _, _ | .bool _, _, _ | .int _, _, _ | .float _, _, _ => trivial
  | .str _, henc, _ => isStr_of_encodes henc
  | .list _, henc, hkeys => wf_itemsOfEncodable henc hkeys
  | .dict _, henc, hkeys => by
    rw [keysDistinct, Bool.and_eq_true, decide_eq_true_eq] at hkeys
    exact ⟨hkeys.1, wf_membersOfEncodable henc hkeys.2⟩

theorem wf_itemsOfEncodable : ∀ {vs : List (Value F)}, encodableItems vs = true →
    keysDistinctItems vs = true → WfItems vs
  | [], _, _ => trivial
  | _ :: _, henc, hkeys => by
    rw [encodableItems, Bool.and_eq_true] at henc
    rw [keysDistinctItems, Bool.and_eq_true] at hkeys
    exact ⟨wf_of_encodable henc.1 hkeys.1, wf_itemsOfEncodable henc.2 hkeys.2⟩

theorem wf_membersOfEncodable : ∀ {ms : List (Text × Value F)}, encodableMembers ms = true →
    keysDistinctMembers ms = true → WfMembers ms
  | [], _, _ => trivial
  | (_, _) :: _, henc, hkeys => by
    rw [encodableMembers, Bool.and_eq_true, Bool.and_eq_true] at henc
    rw [keysDistinctMembers, Bool.and_eq_true] at hkeys
    exact ⟨isStr_of_encodes henc.1.1, wf_of_encodable henc.1.2 hkeys.1,
      wf_membersOfEncodable henc.2 hkeys.2⟩

end

/-! ## The text -/

def canonicalText (v : Value F) : Text :=
  dumpsIndent N.write plainStyle 2 0 (sortKeys v) ++ [10]

theorem newline_isWs : ∀ c ∈ ([10] : Text), isWs c = true := by decide

theorem read_canonicalText {v : Value F} (hv : v.Wf) :
    read N (canonicalText N v) = some (sortKeys v) :=
  read_dumpsIndent plainStyle 2 N (wf_sortKeys hv) newline_isWs

mutual

theorem encodable_sortKeys : ∀ v : Value F, encodable (sortKeys v) = encodable v
  | .null | .bool _ | .int _ | .float _ | .str _ => rfl
  | .list vs => encodable_sortItems vs
  | .dict ms => by
    have hsorted : encodableMembers ((sortMembers ms).mergeSort keyLe) =
        encodableMembers (sortMembers ms) := by
      rw [Bool.eq_iff_iff, encodableMembers_iff, encodableMembers_iff]
      simp only [(List.mergeSort_perm (sortMembers ms) keyLe).mem_iff]
    exact hsorted.trans (encodable_sortMembers ms)

theorem encodable_sortItems :
    ∀ vs : List (Value F), encodableItems (sortItems vs) = encodableItems vs
  | [] => rfl
  | v :: vs => by
    rw [sortItems, encodableItems, encodableItems, encodable_sortKeys v, encodable_sortItems vs]

theorem encodable_sortMembers :
    ∀ ms : List (Text × Value F), encodableMembers (sortMembers ms) = encodableMembers ms
  | [] => rfl
  | (key, v) :: ms => by
    rw [sortMembers, encodableMembers, encodableMembers, encodable_sortKeys v,
      encodable_sortMembers ms]

end

/-- The text can be encoded when no string of the value holds a surrogate. -/
theorem encodes_canonicalText (v : Value F) : encodes (canonicalText N v) = encodable v := by
  rw [canonicalText, encodes_append, encodes_of_ws newline_isWs, Bool.and_true,
    ← layout_indented plainStyle 2 N 0, encodes_layout (w := plainStyle) rfl, encodable_sortKeys]

end AflNv.CanonicalJson
