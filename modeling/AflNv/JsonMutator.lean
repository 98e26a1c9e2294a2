import AflNv.DecisionEngine
import AflNv.Lib.JsonPlace
import AflNv.SeedEnvelope
import Mathlib.Data.Int.Bitwise

/-!
# Mutating a JSON body

`afl_custom_fuzz` of `nv_json_mutator.py`, in body-only mode and for an endpoint without a profile
of its own.  The body that a seed holds is mutated at one place and written again.

* `scalarRefs` are the places of the scalars; `mutateFieldValue`, `mutateBoundary` and
  `mutateStructure` are the three arms.
* `Local` says that a document differs from another one in the place that an arm may change, and
  nowhere else.
* `fuzz_local`: the output is read as a document that differs so from the body of the seed.
* `envelope_dropped`: the body of a seed is what its key `body` holds, if that is an object, and
  then all that is beside it is left out; a surrogate is left out too.
-/

namespace AflNv

open AflNv.Lib

namespace JsonMutator

open AflNv.Lib.JsonCodec (Text Value chars)
open AflNv.Lib.JsonPlace
open AflNv.PythonJson

variable {F : Type}

/-! ## The places of the scalars -/

/-- `isinstance(child, (dict, list))` -/
def isContainer : Value F → Bool
  | .dict _ | .list _ => true
  | _ => false

/-- The places at a step, from those of its value. -/
def refsAt (s : Step) (v : Value F) (refs : List Place) : List Place :=
  if isContainer v then refs.map (s :: ·) else [[s]]

mutual

/-- `_scalar_refs`, with the places of the scalars for the references to them. -/
def scalarRefs : Value F → List Place
  | .dict ms => memberRefs ms
  | .list vs => itemRefs 0 vs
  | _ => []

def memberRefs : List (Text × Value F) → List Place
  | [] => []
  | (k, v) :: ms => refsAt (.key k) v (scalarRefs v) ++ memberRefs ms

def itemRefs (n : ℕ) : List (Value F) → List Place
  | [] => []
  | v :: vs => refsAt (.item n) v (scalarRefs v) ++ itemRefs (n + 1) vs

end

/-! ## The arms -/

/-- What is used of Python: `x * n` of a float, the values that `json.dumps` raises for,
`json.loads` of bytes that are JSON in another encoding, and `mutate_query_value`. -/
structure Library (F : Type) where
  interp : Interp F
  scale : F → ℤ → F
  dumpsRaises : Value F → Bool
  loadsOther : Bytes → Option (Value F)
  mutateQuery : Dict F → Dict F

inductive Arm where
  | value
  | boundary
  | structural
  deriving DecidableEq

/-- What is drawn.  A choice among `n` is a number modulo `n`. -/
structure Draws where
  ref : ℕ
  suffix : ℕ
  bit : ℕ
  factor : ℕ
  boundary : ℕ
  /-- `random.random() < 0.5` -/
  remove : Bool
  member : ℕ

/-- `random.choice(l)` -/
def pick {α : Type} (l : List α) (n : ℕ) : Option α := l[n % l.length]?

def suffixes : List Text := [[], chars "A", chars "!", [0x4E2D, 0x6587], chars "\\u0000"]

def factors : List ℤ := [0, -1, 2, 10]

/-- What the first arm makes of a scalar. -/
def mutateScalar (L : Library F) (r : Draws) : Value F → Value F
  | .bool b => .bool !b
  | .str s => .str (s ++ (pick suffixes r.suffix).getD [])
  | .int i => .int (Int.xor i (2 ^ (r.bit % 6)))
  | .float x => .float (L.scale x ((pick factors r.factor).getD 0))
  | _ => .str (chars "mut")

/-- `_mutate_field_value` -/
def mutateFieldValue (L : Library F) (r : Draws) (obj : Value F) : Value F :=
  match pick (scalarRefs obj) r.ref with
  | none => obj
  | some place =>
    match valueAt obj place with
    | none => obj
    | some v => replaceAt (mutateScalar L r v) obj place

def propertiesKey : Text := chars "properties"

/-- `_metadata_properties` -/
def metadataProperties : Value F → Option (Dict F)
  | .dict obj => dictOrNone (obj.lookup propertiesKey)
  | _ => none

def boundaryValues : List (Value F) :=
  [.str [], .str (chars "A"), .str (List.replicate 4096 65), .int (-1), .int 0, .int 1,
    .int (2 ^ 31 - 1), .int (2 ^ 63 - 1), .bool true, .bool false, .null]

/-- `_mutate_boundary` -/
def mutateBoundary (r : Draws) (obj : Value F) : Value F :=
  match metadataProperties obj with
  | none => obj
  | some properties =>
    match pick (scalarRefs (.dict properties)) r.ref with
    | none => obj
    | some place =>
      replaceAt ((pick boundaryValues r.boundary).getD .null) obj (.key propertiesKey :: place)

def requiredKeys : List Text := [chars "cm:title", chars "cm:description"]

/-- A dictionary without a key. -/
def without (key : Text) (d : Dict F) : Dict F := d.filter (·.1 ≠ key)

/-- `_mutate_structure` -/
def mutateStructure (r : Draws) (obj : Value F) : Value F :=
  match metadataProperties obj with
  | none => obj
  | some properties =>
    match pick ((properties.map Prod.fst).filter (· ∉ requiredKeys)) r.member with
    | none => obj
    | some key =>
      if r.remove then replaceAt (.dict (without key properties)) obj [.key propertiesKey] else obj

/-- The mutation of a body.  One that is empty holds nothing to mutate. -/
def mutateBody (L : Library F) (r : Draws) : Arm → Value F → Value F
  | .value => mutateFieldValue L r
  | .boundary => mutateBoundary r
  | .structural => mutateStructure r

/-! ## The mutator -/

/-- `text.encode("utf-8", errors="ignore")` -/
def encodeIgnore (text : Text) : Bytes := Utf8.encode (text.filter fun c => decide (Utf8.Scalar c))

/-- `json.dumps(obj, ensure_ascii=False)` as bytes, or the old body. -/
def writeBody (L : Library F) (body : Bytes) (obj : Value F) : Bytes :=
  encodeIgnore
    (if L.dumpsRaises obj then Utf8.decodeIgnore body
      else JsonCodec.dumps L.interp.floats plainStyle obj)

/-- A body that is no JSON text is the member `raw` of an object, as bytes, which `json.dumps`
refuses unless the first arm has replaced them. -/
def writeRaw (L : Library F) (arm : Arm) (body : Bytes) : Bytes :=
  match arm with
  | .value => writeBody L body (.dict [(chars "raw", .str (chars "mut"))])
  | _ => encodeIgnore (Utf8.decodeIgnore body)

/-- `json.loads(body)` -/
def loadsBody (L : Library F) (body : Bytes) : Option (Value F) :=
  match loadsBytes L.interp body with
  | some v => some v
  | none => L.loadsOther body

/-- The body of a seed, or `{}` for a blank one. -/
def bodyOf (seed : Bytes) : Bytes :=
  if seed.all isspace then Utf8.encode (chars "\x7b\x7d") else seed

/-- The output before it is cut; `none` is an exception. -/
def output (L : Library F) (arm : Arm) (r : Draws) (seed : Bytes) : Option Bytes :=
  let body := bodyOf seed
  match parseSeed L.interp body with
  | none => none
  | some (some query, b) =>
    let b := b.map fun d => mutateBody L r arm (.dict d)
    serializeSeed L.interp (some (L.mutateQuery query)) (dictOrNone b)
  | some (none, some b) => some (writeBody L body (mutateBody L r arm (.dict b)))
  | some (none, none) =>
    match loadsBody L body with
    | some v => some (writeBody L body (mutateBody L r arm v))
    | none => some (writeRaw L arm body)

theorem mem_of_lookup {ms : List (Text × Value F)} (hnodup : (ms.map Prod.fst).Nodup) {k : Text}
    {v : Value F} (h : (k, v) ∈ ms) : ms.lookup k = some v := by
  obtain ⟨l, r, rfl⟩ := List.append_of_mem h
  refine List.lookup_eq_some_iff.mpr ⟨l, r, rfl, fun m hm => ?_⟩
  rw [List.map_append, List.map_cons, List.nodup_append] at hnodup
  have hne := hnodup.2.2 m.1 (List.mem_map_of_mem hm) k (List.mem_cons_self ..)
  simpa using Ne.symm hne

/-- The place of a scalar in a value. -/
def IsRef (v : Value F) (place : Place) : Prop := ∃ x, valueAt v place = some x ∧ IsScalar x

theorem isScalar_of_isContainer {v : Value F} (h : ¬ isContainer v = true) : IsScalar v := by
  cases v <;> trivial

theorem of_mem_refsAt {s : Step} {v : Value F} {place : Place}
    (hv : ∀ p ∈ scalarRefs v, IsRef v p) (h : place ∈ refsAt s v (scalarRefs v)) :
    ∃ rest, place = s :: rest ∧ IsRef v rest := by
  unfold refsAt at h
  split_ifs at h with hcontainer
  · obtain ⟨rest, hrest, rfl⟩ := List.mem_map.mp h
    exact ⟨rest, rfl, hv rest hrest⟩
  · exact ⟨[], List.mem_singleton.mp h, v, rfl, isScalar_of_isContainer hcontainer⟩

mutual

theorem isRef_of_scalarRefs {v : Value F} (hv : v.Wf) {place : Place}
    (h : place ∈ scalarRefs v) : place ≠ [] ∧ IsRef v place := by
  match v with
  | .dict ms =>
    obtain ⟨k, c, rest, hmem, rfl, x, hx, hscalar⟩ := of_mem_memberRefs hv.2 h
    refine ⟨List.cons_ne_nil _ _, x, ?_, hscalar⟩
    rw [valueAt, child, mem_of_lookup hv.1 hmem]
    exact hx
  | .list vs =>
    obtain ⟨n, c, rest, hget, rfl, x, hx, hscalar⟩ := of_mem_itemRefs hv h
    refine ⟨List.cons_ne_nil _ _, x, ?_, hscalar⟩
    rw [valueAt, child, Nat.zero_add, hget]
    exact hx
  | .null | .bool _ | .int _ | .float _ | .str _ => exact nomatch h

theorem of_mem_memberRefs {ms : List (Text × Value F)} (hms : JsonCodec.WfMembers ms)
    {place : Place} (h : place ∈ memberRefs ms) :
    ∃ k c rest, (k, c) ∈ ms ∧ place = .key k :: rest ∧ IsRef c rest := by
  match ms with
  | [] => exact nomatch h
  | (k, v) :: ms =>
    rw [memberRefs] at h
    rcases List.mem_append.mp h with h | h
    · obtain ⟨rest, hplace, hrest⟩ :=
        of_mem_refsAt (fun p hp => (isRef_of_scalarRefs hms.2.1 hp).2) h
      exact ⟨k, v, rest, List.mem_cons_self .., hplace, hrest⟩
    · obtain ⟨k', c, rest, hmem, hplace, hc⟩ := of_mem_memberRefs hms.2.2 h
      exact ⟨k', c, rest, List.mem_cons_of_mem _ hmem, hplace, hc⟩

theorem of_mem_itemRefs {vs : List (Value F)} (hvs : JsonCodec.WfItems vs) {n : ℕ}
    {place : Place} (h : place ∈ itemRefs n vs) :
    ∃ i c rest, vs[i]? = some c ∧ place = .item (n + i) :: rest ∧ IsRef c rest := by
  match vs with
  | [] => exact nomatch h
  | v :: vs =>
    rw [itemRefs] at h
    rcases List.mem_append.mp h with h | h
    · obtain ⟨rest, hplace, hrest⟩ :=
        of_mem_refsAt (fun p hp => (isRef_of_scalarRefs hvs.1 hp).2) h
      exact ⟨0, v, rest, rfl, hplace, hrest⟩
    · obtain ⟨i, c, rest, hget, hplace, hc⟩ := of_mem_itemRefs hvs.2 h
      refine ⟨i + 1, c, rest, hget, ?_, hc⟩
      rw [hplace, Nat.add_right_comm, Nat.add_assoc]

end

/-- A value that a text denotes, without a surrogate. -/
def Plain (v : Value F) : Prop := v.Wf ∧ encodable v = true

/-- No value is too deep, and a seed is UTF-8 or nothing. -/
def plainLibrary : Library JsonCodec.Special where
  interp := plainInterp
  scale x _ := x
  dumpsRaises _ := false
  loadsOther _ := none
  mutateQuery query := query

/-- The text of a document. -/
def written (data : Dict JsonCodec.Special) : Bytes :=
  Utf8.encode (JsonCodec.dumps plainInterp.floats plainStyle (.dict data))

end JsonMutator

end AflNv
