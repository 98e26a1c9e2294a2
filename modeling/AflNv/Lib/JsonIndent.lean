import AflNv.Lib.JsonCodec
import Mathlib.Data.List.Sort

/-!
# Indented JSON

The writer of `json.dumps` with an `indent`: every item and every member stands on a line of its
own, indented by its depth, and the floats are written by a function that is given.  With
`sort_keys`, the value that is written is `sortKeys v`.

`read_dumpsIndent` reads back what was written, and `wf_sortKeys` says that sorting keeps a value
well-formed.
-/

namespace AflNv.Lib.JsonCodec

variable {F : Type} (write : F → Text) (w : Style) (indent : ℕ)

/-- A line end and the indentation of a depth. -/
def newline (depth : ℕ) : Text := 10 :: List.replicate (indent * depth) 32

mutual

/-- `json.dumps(v, indent=indent)`, at a depth. -/
def dumpsIndent (depth : ℕ) : Value F → Text
  | .null => [110, 117, 108, 108]
  | .bool true => [116, 114, 117, 101]
  | .bool false => [102, 97, 108, 115, 101]
  | .int i => showInt i
  | .float x => write x
  | .str s => quote w s
  | .list [] => [91, 93]
  | .list (v :: vs) =>
    91 :: (newline indent (depth + 1) ++ (dumpsIndent (depth + 1) v ++ indentItems depth vs))
  | .dict [] => [123, 125]
  | .dict ((key, v) :: ms) =>
    123 :: (newline indent (depth + 1) ++ (quote w key ++ 58 :: 32 ::
      (dumpsIndent (depth + 1) v ++ indentMembers depth ms)))

/-- The further items of a list at a depth, with the closing bracket. -/
def indentItems (depth : ℕ) : List (Value F) → Text
  | [] => newline indent depth ++ [93]
  | v :: vs =>
    44 :: (newline indent (depth + 1) ++ (dumpsIndent (depth + 1) v ++ indentItems depth vs))

/-- The further members of an object at a depth, with the closing brace. -/
def indentMembers (depth : ℕ) : List (Text × Value F) → Text
  | [] => newline indent depth ++ [125]
  | (key, v) :: ms =>
    44 :: (newline indent (depth + 1) ++ (quote w key ++ 58 :: 32 ::
      (dumpsIndent (depth + 1) v ++ indentMembers depth ms)))

end

/-! ## Reading back -/

section Read

theorem newline_ws (depth : ℕ) : ∀ c ∈ newline indent depth, isWs c = true := by
  intro c hc
  rcases List.mem_cons.mp hc with rfl | hc
  · rfl
  · obtain rfl := List.eq_of_mem_replicate hc
    rfl

/-- The layout of `dumpsIndent`. -/
def indented : Layout where
  first := newline indent
  next := newline indent
  last := newline indent
  colon := [32]
  first_ws := newline_ws indent
  next_ws := newline_ws indent
  last_ws := newline_ws indent
  colon_ws := by decide

variable (N : Floats F)

mutual

theorem layout_indented (d : ℕ) :
    ∀ v : Value F, layout N w (indented indent) d v = dumpsIndent N.write w indent d v
  | .null | .bool true | .bool false | .int _ | .float _ | .str _ | .list [] | .dict [] => rfl
  | .list (v :: vs) => by
    rw [layout, dumpsIndent, layout_indented (d + 1) v, layoutItems_indented d vs]
    rfl
  | .dict ((key, v) :: ms) => by
    rw [layout, dumpsIndent, layout_indented (d + 1) v, layoutMembers_indented d ms]
    rfl

theorem layoutItems_indented (d : ℕ) : ∀ vs : List (Value F),
    layoutItems N w (indented indent) d vs = indentItems N.write w indent d vs
  | [] => rfl
  | v :: vs => by
    rw [layoutItems, indentItems, layout_indented (d + 1) v, layoutItems_indented d vs]
    rfl

theorem layoutMembers_indented (d : ℕ) : ∀ ms : List (Text × Value F),
    layoutMembers N w (indented indent) d ms = indentMembers N.write w indent d ms
  | [] => rfl
  | (key, v) :: ms => by
    rw [layoutMembers, indentMembers, layout_indented (d + 1) v, layoutMembers_indented d ms]
    rfl

end

/-- What is written with an indent is read back. -/
theorem read_dumpsIndent {v : Value F} (hv : v.Wf) {tail : Text}
    (htail : ∀ c ∈ tail, isWs c = true) :
    read N (dumpsIndent N.write w indent 0 v ++ tail) = some v := by
  rw [← layout_indented]
  exact read_layout N w (indented indent) 0 hv htail

end Read

/-! ## Sorted keys -/

/-- The order of the members by their keys. -/
def keyLe (m m' : Text × Value F) : Bool := decide (m.1 ≤ m'.1)

mutual

/-- The value with the members of every object in the order of their keys. -/
def sortKeys : Value F → Value F
  | .list vs => .list (sortItems vs)
  | .dict ms => .dict ((sortMembers ms).mergeSort keyLe)
  | v => v

def sortItems : List (Value F) → List (Value F)
  | [] => []
  | v :: vs => sortKeys v :: sortItems vs

def sortMembers : List (Text × Value F) → List (Text × Value F)
  | [] => []
  | (key, v) :: ms => (key, sortKeys v) :: sortMembers ms

end

theorem keys_sortMembers (ms : List (Text × Value F)) :
    (sortMembers ms).map Prod.fst = ms.map Prod.fst := by
  induction ms with
  | nil => rfl
  | cons m ms ih => rw [sortMembers, List.map_cons, ih, List.map_cons]

mutual

theorem wf_sortKeys : ∀ {v : Value F}, v.Wf → (sortKeys v).Wf
  | .null, h | .bool _, h | .int _, h | .float _, h | .str _, h => h
  | .list vs, h => wf_sortItems h
  | .dict ms, h => by
    have hperm := List.mergeSort_perm (sortMembers ms) keyLe
    refine ⟨?_, wfMembers_iff.mpr fun m hm => ?_⟩
    · rw [(hperm.map Prod.fst).nodup_iff, keys_sortMembers]
      exact h.1
    · exact wfMembers_iff.mp (wf_sortMembers h.2) m (hperm.mem_iff.mp hm)

theorem wf_sortItems : ∀ {vs : List (Value F)}, WfItems vs → WfItems (sortItems vs)
  | [], _ => trivial
  | _ :: _, h => ⟨wf_sortKeys h.1, wf_sortItems h.2⟩

theorem wf_sortMembers : ∀ {ms : List (Text × Value F)}, WfMembers ms → WfMembers (sortMembers ms)
  | [], _ => trivial
  | (_, _) :: _, h => ⟨h.1, wf_sortKeys h.2.1, wf_sortMembers h.2.2⟩

end

end AflNv.Lib.JsonCodec
