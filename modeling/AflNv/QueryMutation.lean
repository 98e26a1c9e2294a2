import AflNv.Lib.JsonCodec

/-!
# Mutating the parameters of a query

`mutate_query_value` of `nv_url_query.py` copies a dictionary of parameters and changes the
copy.  The dictionary and the lists in it are objects on a heap, which the changes write to;
what is in a list is never written to and is a value here.

* `mutateQueryValue` is the function, `QueryRef` the object it is given.
* `OneValue` says that at most one value differs, and that it has kept its type.
* `queryValue_shape` says that the given object keeps its content, and that the copy differs in
  one value exactly if that value is no boolean.  For Python a boolean is an integer.
-/

namespace AflNv

open AflNv.Lib

namespace QueryMutation

open AflNv.Lib.JsonCodec (Text Value setItem chars)

variable {F : Type}

/-! ## Scalars -/

/-- What the mutations use of the arithmetic of floats. -/
structure FloatOps (F : Type) where
  succ : F → F
  pred : F → F
  double : F → F
  neg : F → F

/-- What is drawn for one scalar: one of five mutations, and a number for some. -/
structure ScalarDraw where
  choice : Fin 5
  number : ℕ

def mutateText (r : ScalarDraw) (v : Text) : Text :=
  match r.choice with
  | 0 => v ++ JsonCodec.showNat (r.number % 101)
  | 1 => if 1 < v.length then v.take (v.length / 2) else v
  | 2 => v ++ v
  | 3 => []
  | 4 => JsonCodec.showNat (r.number % 1001)

def mutateInt (r : ScalarDraw) (i : ℤ) : ℤ :=
  match r.choice with
  | 0 => i + 1
  | 1 => i - 1
  | 2 => i * 2
  | 3 => 0
  | 4 => -i

def mutateFloat (O : FloatOps F) (r : ScalarDraw) (x : F) : Value F :=
  match r.choice with
  | 0 => .float (O.succ x)
  | 1 => .float (O.pred x)
  | 2 => .float (O.double x)
  | 3 => .int 0
  | 4 => .float (O.neg x)

/-- `_mutate_scalar`.  The test for `int` comes before the test for `bool`, and holds of a
boolean. -/
def mutateScalar (O : FloatOps F) (r : ScalarDraw) : Value F → Value F
  | .str v => .str (mutateText r v)
  | .int i => .int (mutateInt r i)
  | .bool b => .int (mutateInt r (if b then 1 else 0))
  | .float x => mutateFloat O r x
  | v => v

/-- The values have the same JSON type; a float may become another number. -/
def SameType : Value F → Value F → Prop
  | .str _, .str _ => True
  | .int _, .int _ => True
  | .bool _, .bool _ => True
  | .float _, .float _ => True
  | .float _, .int _ => True
  | v, w => v = w

theorem SameType.refl (v : Value F) : SameType v v := by
  cases v <;> trivial

theorem mutateScalar_sameType (O : FloatOps F) (r : ScalarDraw) {v : Value F}
    (h : ∀ b, v ≠ .bool b) : SameType v (mutateScalar O r v) := by
  cases v with
  | str v => trivial
  | int i => trivial
  | bool b => exact absurd rfl (h b)
  | float x =>
    show SameType (.float x) (mutateFloat O r x)
    unfold mutateFloat
    split <;> trivial
  | null => exact SameType.refl _
  | list vs => exact SameType.refl _
  | dict ms => exact SameType.refl _

/-! ## Objects -/

/-- What a key of a dictionary holds. -/
inductive Slot (F : Type) where
  | value (v : Value F)
  /-- A list object, by its address. -/
  | list (addr : ℕ)

structure Heap (F : Type) where
  dicts : List (List (Text × Slot F))
  lists : List (List (Value F))

def Heap.dict (h : Heap F) (addr : ℕ) : List (Text × Slot F) := h.dicts[addr]?.getD []

def Heap.list (h : Heap F) (addr : ℕ) : List (Value F) := h.lists[addr]?.getD []

def Heap.slot (h : Heap F) : Slot F → Value F
  | .value v => v
  | .list addr => .list (h.list addr)

/-- The content of a dictionary. -/
def Heap.read (h : Heap F) (addr : ℕ) : List (Text × Value F) :=
  (h.dict addr).map fun m => (m.1, h.slot m.2)

def Heap.setDict (h : Heap F) (addr : ℕ) (d : List (Text × Slot F)) : Heap F :=
  { h with dicts := h.dicts.set addr d }

def Heap.setList (h : Heap F) (addr : ℕ) (vs : List (Value F)) : Heap F :=
  { h with lists := h.lists.set addr vs }

def Heap.newList (h : Heap F) (vs : List (Value F)) : Heap F :=
  { h with lists := h.lists ++ [vs] }

def Slot.shift (n : ℕ) : Slot F → Slot F
  | .value v => .value v
  | .list addr => .list (n + addr)

/-- `copy.deepcopy`: every list is copied once.  Copies of lists that the dictionary does not
hold are unreachable. -/
def Heap.deepcopy (h : Heap F) (addr : ℕ) : Heap F where
  dicts := h.dicts ++ [(h.dict addr).map fun m => (m.1, m.2.shift h.lists.length)]
  lists := h.lists ++ h.lists

/-! ## The mutation -/

inductive MutationType where
  | value
  | boundary
  | structural
  deriving DecidableEq

/-- What is drawn.  A choice among `n` is a number modulo `n`. -/
structure Draws where
  key : ℕ
  item : ℕ
  scalar : ScalarDraw
  /-- `random.random() < 0.5` -/
  remove : Bool
  param : ℕ
  number : ℕ

/-- The place of the key that is drawn. -/
def Heap.place (h : Heap F) (d : ℕ) (r : Draws) : ℕ := r.key % (h.dict d).length

def Heap.mutateValue (O : FloatOps F) (h : Heap F) (d : ℕ) (r : Draws) : Heap F :=
  match (h.dict d)[h.place d r]? with
  | none => h
  | some (key, .value v) =>
    h.setDict d ((h.dict d).set (h.place d r) (key, .value (mutateScalar O r.scalar v)))
  | some (_, .list addr) =>
    let idx := r.item % (h.list addr).length
    match (h.list addr)[idx]? with
    | none => h
    | some x => h.setList addr ((h.list addr).set idx (mutateScalar O r.scalar x))

/-- A parameter is removed, or `param_` and a number is added. -/
def Heap.mutateBoundary (h : Heap F) (d : ℕ) (r : Draws) : Heap F :=
  if r.remove then h.setDict d ((h.dict d).eraseIdx (h.place d r))
  else
    h.setDict d (setItem (h.dict d) (chars "param_" ++ JsonCodec.showNat (1000 + r.param % 9000))
      (.value (.str (JsonCodec.showNat (r.number % 101)))))

/-- A list becomes its first item, and a value a list. -/
def Heap.mutateStructural (O : FloatOps F) (h : Heap F) (d : ℕ) (r : Draws) : Heap F :=
  match (h.dict d)[h.place d r]? with
  | none => h
  | some (key, .value v) =>
    (h.newList [v, mutateScalar O r.scalar v]).setDict d
      ((h.dict d).set (h.place d r) (key, .list h.lists.length))
  | some (key, .list addr) =>
    match (h.list addr)[0]? with
    | none => h
    | some x => h.setDict d ((h.dict d).set (h.place d r) (key, .value x))

/-- `mutate_query_value`, with the address of the dictionary it returns. -/
def mutateQueryValue (O : FloatOps F) (h : Heap F) (query : ℕ) (t : MutationType) (r : Draws) :
    Heap F × ℕ :=
  if (h.dict query).isEmpty then (h, query)
  else
    let result := h.dicts.length
    let copied := h.deepcopy query
    match t with
    | .value => (copied.mutateValue O result r, result)
    | .boundary => (copied.mutateBoundary result r, result)
    | .structural => (copied.mutateStructural O result r, result)

/-- A dictionary as `json.loads` builds it: its lists are objects of their own. -/
structure QueryRef (F : Type) where
  heap : Heap F
  addr : ℕ
  addr_lt : addr < heap.dicts.length
  list_lt : ∀ (i : ℕ) key a, (heap.dict addr)[i]? = some (key, .list a) → a < heap.lists.length
  distinct : ∀ (i j : ℕ) key key' a, (heap.dict addr)[i]? = some (key, .list a) →
    (heap.dict addr)[j]? = some (key', .list a) → i = j

/-- The parameters. -/
def QueryRef.items (q : QueryRef F) : List (Text × Value F) := q.heap.read q.addr

/-- The scalar that is drawn: a value, or an item of a list. -/
def QueryRef.drawn (q : QueryRef F) (r : Draws) : Option (Value F) :=
  match (q.heap.dict q.addr)[q.heap.place q.addr r]? with
  | none => none
  | some (_, .value v) => some v
  | some (_, .list addr) =>
    (q.heap.list addr)[r.item % (q.heap.list addr).length]?

/-- The value under one key, or one item of the list under it, differs, and has its type. -/
def OneValue (q q' : List (Text × Value F)) : Prop :=
  q' = q ∨ ∃ (i : ℕ) (key : Text) (v w : Value F),
    q[i]? = some (key, v) ∧ q' = q.set i (key, w) ∧
      (SameType v w ∨ ∃ (vs : List (Value F)) (idx : ℕ) (x y : Value F),
        v = .list vs ∧ vs[idx]? = some x ∧ w = .list (vs.set idx y) ∧ SameType x y)

/-! ## What the copy leaves alone -/

/-- The objects of `h` are as they were. -/
structure Heap.Extends (h h' : Heap F) : Prop where
  dicts : ∀ addr < h.dicts.length, h'.dicts[addr]? = h.dicts[addr]?
  lists : ∀ addr < h.lists.length, h'.lists[addr]? = h.lists[addr]?

theorem Heap.extends_deepcopy (h : Heap F) (addr : ℕ) : h.Extends (h.deepcopy addr) where
  dicts _ ha := List.getElem?_append_left ha
  lists _ ha := List.getElem?_append_left ha

theorem Heap.Extends.setDict {h h' : Heap F} (he : h.Extends h') {addr : ℕ}
    (ha : h.dicts.length ≤ addr) (d : List (Text × Slot F)) : h.Extends (h'.setDict addr d) where
  dicts a hlt := by
    rw [Heap.setDict, List.getElem?_set_ne (by omega)]
    exact he.dicts a hlt
  lists := he.lists

theorem Heap.Extends.setList {h h' : Heap F} (he : h.Extends h') {addr : ℕ}
    (ha : h.lists.length ≤ addr) (vs : List (Value F)) : h.Extends (h'.setList addr vs) where
  dicts := he.dicts
  lists a hlt := by
    rw [Heap.setList, List.getElem?_set_ne (by omega)]
    exact he.lists a hlt

theorem Heap.Extends.newList {h h' : Heap F} (he : h.Extends h')
    (hle : h.lists.length ≤ h'.lists.length) (vs : List (Value F)) : h.Extends (h'.newList vs) where
  dicts := he.dicts
  lists a hlt := by
    rw [Heap.newList, List.getElem?_append_left (by omega)]
    exact he.lists a hlt

/-- An object keeps its content while its heap is extended. -/
theorem QueryRef.read_eq (q : QueryRef F) {h : Heap F} (he : q.heap.Extends h) :
    h.read q.addr = q.items := by
  have hdict : h.dict q.addr = q.heap.dict q.addr := by
    unfold Heap.dict
    rw [he.dicts q.addr q.addr_lt]
  unfold QueryRef.items Heap.read
  rw [hdict]
  apply List.map_congr_left
  intro m hm
  obtain ⟨i, hi⟩ := List.getElem?_of_mem hm
  obtain ⟨key, slot⟩ := m
  cases slot with
  | value v => rfl
  | list a =>
    show (key, Value.list (h.list a)) = (key, Value.list (q.heap.list a))
    unfold Heap.list
    rw [he.lists a (q.list_lt i key a hi)]

/-! ## The copy -/

variable (q : QueryRef F)

/-- The heap behind `copy.deepcopy`, and the address of the copy. -/
def QueryRef.copied : Heap F := q.heap.deepcopy q.addr

def QueryRef.result : ℕ := q.heap.dicts.length

theorem QueryRef.copied_dict :
    q.copied.dict q.result =
      (q.heap.dict q.addr).map fun m => (m.1, m.2.shift q.heap.lists.length) := by
  unfold QueryRef.copied QueryRef.result Heap.deepcopy
  rw [Heap.dict, List.getElem?_concat_length]
  rfl

theorem QueryRef.copied_list (a : ℕ) :
    q.copied.list (q.heap.lists.length + a) = q.heap.list a := by
  unfold QueryRef.copied Heap.list Heap.deepcopy
  rw [List.getElem?_append_right (by omega), Nat.add_sub_cancel_left]

theorem QueryRef.copied_slot (s : Slot F) :
    q.copied.slot (s.shift q.heap.lists.length) = q.heap.slot s := by
  cases s with
  | value v => rfl
  | list a =>
    show Value.list (q.copied.list (q.heap.lists.length + a)) = Value.list (q.heap.list a)
    rw [q.copied_list a]

theorem QueryRef.copied_read : q.copied.read q.result = q.items := by
  unfold Heap.read
  rw [q.copied_dict, List.map_map]
  apply List.map_congr_left
  intro m _
  show (m.1, q.copied.slot (m.2.shift q.heap.lists.length)) = (m.1, q.heap.slot m.2)
  rw [q.copied_slot m.2]

theorem QueryRef.place_copied (r : Draws) :
    q.copied.place q.result r = q.heap.place q.addr r := by
  unfold Heap.place
  rw [q.copied_dict, List.length_map]

/-- The lists of the copy are new objects. -/
theorem QueryRef.copied_getElem? (i : ℕ) :
    (q.copied.dict q.result)[i]? =
      (q.heap.dict q.addr)[i]?.map fun m => (m.1, m.2.shift q.heap.lists.length) := by
  rw [q.copied_dict, List.getElem?_map]

theorem QueryRef.copied_fresh {i : ℕ} {key : Text} {addr : ℕ}
    (h : (q.copied.dict q.result)[i]? = some (key, .list addr)) :
    ∃ a, (q.heap.dict q.addr)[i]? = some (key, .list a) ∧ addr = q.heap.lists.length + a := by
  rw [q.copied_getElem?, Option.map_eq_some_iff] at h
  obtain ⟨⟨key', slot⟩, hi, hm⟩ := h
  cases slot with
  | value v => cases hm
  | list a =>
    cases hm
    exact ⟨a, hi, rfl⟩

theorem QueryRef.extends_copied : q.heap.Extends q.copied := q.heap.extends_deepcopy q.addr

theorem QueryRef.result_lt : q.result < q.copied.dicts.length := by
  unfold QueryRef.result QueryRef.copied Heap.deepcopy
  simp

/-! ## The given object -/

variable (O : FloatOps F) (r : Draws)

theorem QueryRef.extends_mutateValue : q.heap.Extends (q.copied.mutateValue O q.result r) := by
  unfold Heap.mutateValue
  split
  · exact q.extends_copied
  · exact q.extends_copied.setDict (Nat.le_refl _) _
  · rename_i key addr hslot
    obtain ⟨a, -, haddr⟩ := q.copied_fresh hslot
    simp only
    split
    · exact q.extends_copied
    · exact q.extends_copied.setList (by omega) _

theorem QueryRef.extends_mutateBoundary :
    q.heap.Extends (q.copied.mutateBoundary q.result r) := by
  unfold Heap.mutateBoundary
  split_ifs
  · exact q.extends_copied.setDict (Nat.le_refl _) _
  · exact q.extends_copied.setDict (Nat.le_refl _) _

theorem QueryRef.extends_mutateStructural :
    q.heap.Extends (q.copied.mutateStructural O q.result r) := by
  have hle : q.heap.lists.length ≤ q.copied.lists.length := by
    unfold QueryRef.copied Heap.deepcopy
    simp
  unfold Heap.mutateStructural
  split
  · exact q.extends_copied
  · exact (q.extends_copied.newList hle _).setDict (Nat.le_refl _) _
  · split
    · exact q.extends_copied
    · exact q.extends_copied.setDict (Nat.le_refl _) _

/-- No mutation writes to the dictionary that was given, or to its lists. -/
theorem QueryRef.read_mutated (t : MutationType) :
    (mutateQueryValue O q.heap q.addr t r).1.read q.addr = q.items := by
  unfold mutateQueryValue
  split_ifs
  · rfl
  · cases t with
    | value => exact q.read_eq (q.extends_mutateValue O r)
    | boundary => exact q.read_eq (q.extends_mutateBoundary r)
    | structural => exact q.read_eq (q.extends_mutateStructural O r)

/-! ## The copy behind the value arm -/

theorem QueryRef.items_getElem? {i : ℕ} {key : Text} {slot : Slot F}
    (h : (q.heap.dict q.addr)[i]? = some (key, slot)) :
    q.items[i]? = some (key, q.heap.slot slot) := by
  unfold QueryRef.items Heap.read
  rw [List.getElem?_map, h]
  rfl

theorem Heap.read_setDict {h : Heap F} {addr : ℕ} (ha : addr < h.dicts.length) (i : ℕ)
    (key : Text) (v : Value F) :
    (h.setDict addr ((h.dict addr).set i (key, .value v))).read addr =
      (h.read addr).set i (key, v) := by
  have hdict : (h.setDict addr ((h.dict addr).set i (key, .value v))).dict addr =
      (h.dict addr).set i (key, .value v) := by
    rw [Heap.dict, Heap.setDict, List.getElem?_set_self ha]
    rfl
  unfold Heap.read
  rw [hdict, List.map_set]
  rfl

/-- A write to a list is seen under the one key that holds it. -/
theorem Heap.read_setList {h : Heap F} {d addr i : ℕ} {key : Text} (ha : addr < h.lists.length)
    (hi : (h.dict d)[i]? = some (key, .list addr))
    (hd : ∀ (j : ℕ) key', (h.dict d)[j]? = some (key', .list addr) → j = i) (vs : List (Value F)) :
    (h.setList addr vs).read d = (h.read d).set i (key, .list vs) := by
  apply List.ext_getElem?
  intro j
  show ((h.dict d).map fun m => (m.1, (h.setList addr vs).slot m.2))[j]? =
    (((h.dict d).map fun m => (m.1, h.slot m.2)).set i (key, .list vs))[j]?
  rw [List.getElem?_map]
  by_cases hj : j = i
  · subst hj
    have hlt : j < (h.dict d).length := (List.getElem?_eq_some_iff.mp hi).1
    rw [hi, List.getElem?_set_self (by rwa [List.length_map]), Option.map_some]
    show some (key, Value.list ((h.setList addr vs).list addr)) = some (key, Value.list vs)
    rw [Heap.list, Heap.setList, List.getElem?_set_self ha]
    rfl
  · rw [List.getElem?_set_ne (Ne.symm hj), List.getElem?_map]
    cases hm : (h.dict d)[j]? with
    | none => rfl
    | some m =>
      obtain ⟨key', slot⟩ := m
      cases slot with
      | value v => rfl
      | list b =>
        have hb : addr ≠ b := by
          rintro rfl
          exact hj (hd j key' hm)
        show some (key', Value.list ((h.setList addr vs).list b)) =
          some (key', Value.list (h.list b))
        rw [Heap.list, Heap.setList, List.getElem?_set_ne hb]
        rfl

variable {q}

theorem QueryRef.read_mutateValue_value {key : Text} {v : Value F}
    (h : (q.heap.dict q.addr)[q.heap.place q.addr r]? = some (key, .value v)) :
    (q.copied.mutateValue O q.result r).read q.result =
      q.items.set (q.heap.place q.addr r) (key, mutateScalar O r.scalar v) := by
  unfold Heap.mutateValue
  rw [q.place_copied, q.copied_getElem?, h]
  show (q.copied.setDict q.result _).read q.result = _
  rw [Heap.read_setDict q.result_lt, q.copied_read]

theorem QueryRef.read_mutateValue_list {key : Text} {a : ℕ} {x : Value F}
    (h : (q.heap.dict q.addr)[q.heap.place q.addr r]? = some (key, .list a))
    (hx : (q.heap.list a)[r.item % (q.heap.list a).length]? = some x) :
    (q.copied.mutateValue O q.result r).read q.result =
      q.items.set (q.heap.place q.addr r)
        (key, .list ((q.heap.list a).set (r.item % (q.heap.list a).length)
          (mutateScalar O r.scalar x))) := by
  have hslot : (q.copied.dict q.result)[q.heap.place q.addr r]? =
      some (key, .list (q.heap.lists.length + a)) := by
    rw [q.copied_getElem?, h]
    rfl
  have hlt : q.heap.lists.length + a < q.copied.lists.length := by
    have := q.list_lt _ key a h
    unfold QueryRef.copied Heap.deepcopy
    rw [List.length_append]
    omega
  unfold Heap.mutateValue
  rw [q.place_copied, hslot]
  simp only [q.copied_list, hx]
  rw [Heap.read_setList hlt hslot, q.copied_read]
  intro j key' hj
  obtain ⟨b, hb, hab⟩ := q.copied_fresh hj
  obtain rfl : a = b := by omega
  exact q.distinct j _ key' key a hb h

theorem QueryRef.read_mutateValue_none (h : q.drawn r = none) :
    (q.copied.mutateValue O q.result r).read q.result = q.items := by
  unfold QueryRef.drawn at h
  unfold Heap.mutateValue
  rw [q.place_copied, q.copied_getElem?]
  cases hm : (q.heap.dict q.addr)[q.heap.place q.addr r]? with
  | none => exact q.copied_read
  | some m =>
    obtain ⟨key, slot⟩ := m
    rw [hm] at h
    cases slot with
    | value v => cases h
    | list a =>
      have hitem : (q.heap.list a)[r.item % (q.heap.list a).length]? = none := h
      simp only [Option.map_some, Slot.shift, q.copied_list, hitem]
      exact q.copied_read

/-- What is drawn is the one thing that changes. -/
theorem QueryRef.drawn_cases {x : Value F} (h : q.drawn r = some x) :
    (∃ key, q.items[q.heap.place q.addr r]? = some (key, x) ∧
      (q.copied.mutateValue O q.result r).read q.result =
        q.items.set (q.heap.place q.addr r) (key, mutateScalar O r.scalar x)) ∨
    ∃ key vs idx, q.items[q.heap.place q.addr r]? = some (key, .list vs) ∧ vs[idx]? = some x ∧
      (q.copied.mutateValue O q.result r).read q.result =
        q.items.set (q.heap.place q.addr r)
          (key, .list (vs.set idx (mutateScalar O r.scalar x))) := by
  unfold QueryRef.drawn at h
  cases hm : (q.heap.dict q.addr)[q.heap.place q.addr r]? with
  | none =>
    rw [hm] at h
    cases h
  | some m =>
    obtain ⟨key, slot⟩ := m
    rw [hm] at h
    cases slot with
    | value v =>
      cases h
      exact .inl ⟨key, q.items_getElem? hm, QueryRef.read_mutateValue_value O r hm⟩
    | list a =>
      exact .inr ⟨key, q.heap.list a, _, q.items_getElem? hm, h,
        QueryRef.read_mutateValue_list O r hm h⟩

/-! ## Types -/

theorem OneValue.of_sameType {items : List (Text × Value F)} {i : ℕ} {key : Text}
    {v w : Value F} (hi : items[i]? = some (key, v)) (h : SameType v w) :
    OneValue items (items.set i (key, w)) :=
  .inr ⟨i, key, v, w, hi, rfl, .inl h⟩

/-- Where a value changes, `OneValue` speaks of that place. -/
theorem OneValue.at {items : List (Text × Value F)} {i : ℕ} {key : Text} {v w : Value F}
    (hi : items[i]? = some (key, v)) (hne : v ≠ w) (h : OneValue items (items.set i (key, w))) :
    SameType v w ∨ ∃ (vs : List (Value F)) (idx : ℕ) (x y : Value F),
      v = .list vs ∧ vs[idx]? = some x ∧ w = .list (vs.set idx y) ∧ SameType x y := by
  have hlt : i < items.length := (List.getElem?_eq_some_iff.mp hi).1
  have hself : (items.set i (key, w))[i]? = some (key, w) := List.getElem?_set_self hlt
  obtain heq | ⟨j, key', v', w', hj, heq, htype⟩ := h
  · rw [heq, hi] at hself
    exact absurd (congrArg Prod.snd (Option.some.inj hself)) hne
  · rw [heq] at hself
    by_cases hij : j = i
    · subst hij
      rw [List.getElem?_set_self hlt] at hself
      cases hself
      rw [hi] at hj
      cases hj
      exact htype
    · rw [List.getElem?_set_ne hij, hi] at hself
      exact absurd (congrArg Prod.snd (Option.some.inj hself)) hne

/-- No boolean item becomes an integer. -/
theorem not_oneValue_item {items : List (Text × Value F)} {i idx : ℕ} {key : Text}
    {vs : List (Value F)} {b : Bool} (hi : items[i]? = some (key, .list vs))
    (hidx : vs[idx]? = some (.bool b)) (n : ℤ) :
    ¬ OneValue items (items.set i (key, .list (vs.set idx (.int n)))) := by
  intro h
  have hlt : idx < vs.length := (List.getElem?_eq_some_iff.mp hidx).1
  have hself : (vs.set idx (.int n))[idx]? = some (.int n) := List.getElem?_set_self hlt
  have hne : (Value.list vs : Value F) ≠ .list (vs.set idx (.int n)) := by
    intro heq
    rw [← Value.list.inj heq, hidx] at hself
    cases hself
  obtain hsame | ⟨ws, idx', x, y, hv, hx, hw, hsame⟩ := OneValue.at hi hne h
  · exact hne hsame
  · cases hv
    rw [Value.list.inj hw] at hself
    by_cases hij : idx' = idx
    · subst hij
      rw [List.getElem?_set_self hlt] at hself
      rw [hidx] at hx
      cases hself
      cases hx
      cases hsame
    · rw [List.getElem?_set_ne hij, hidx] at hself
      cases hself

theorem mutateScalar_bool (b : Bool) :
    ∃ i, mutateScalar O r.scalar (.bool b) = .int i := ⟨_, rfl⟩

theorem QueryRef.oneValue_iff :
    OneValue q.items ((q.copied.mutateValue O q.result r).read q.result) ↔
      ∀ b, q.drawn r ≠ some (.bool b) := by
  cases hdrawn : q.drawn r with
  | none =>
    rw [QueryRef.read_mutateValue_none O r hdrawn]
    exact iff_of_true (.inl rfl) fun b => nofun
  | some x =>
    constructor
    · intro h b hb
      cases Option.some.inj hb
      obtain ⟨n, hn⟩ := mutateScalar_bool O r b
      obtain ⟨key, hi, hread⟩ | ⟨key, vs, idx, hi, hidx, hread⟩ := QueryRef.drawn_cases O r hdrawn
      · rw [hread, hn] at h
        have hne : (Value.bool b : Value F) ≠ .int n := nofun
        obtain hsame | ⟨vs, _, _, _, hv, -⟩ := OneValue.at hi hne h
        · exact hne hsame
        · cases hv
      · rw [hread, hn] at h
        exact not_oneValue_item hi hidx n h
    · intro h
      have hx : ∀ b, x ≠ .bool b := fun b hb => h b (congrArg some hb)
      have hsame := mutateScalar_sameType O r.scalar hx
      obtain ⟨key, hi, hread⟩ | ⟨key, vs, idx, hi, hidx, hread⟩ := QueryRef.drawn_cases O r hdrawn
      · rw [hread]
        exact OneValue.of_sameType hi hsame
      · rw [hread]
        exact .inr ⟨_, key, _, _, hi, rfl, .inr ⟨vs, idx, x, _, rfl, hidx, rfl, hsame⟩⟩

variable (q)

/-- The given dictionary keeps its content in every arm; what the value arm returns differs from
it in at most one value, of the same type, exactly if it does not draw a boolean. -/
theorem queryValue_shape (t : MutationType) :
    (mutateQueryValue O q.heap q.addr t r).1.read q.addr = q.items ∧
      ((t = .value → OneValue q.items ((mutateQueryValue O q.heap q.addr t r).1.read
          (mutateQueryValue O q.heap q.addr t r).2)) ↔
        (t = .value → ∀ b, q.drawn r ≠ some (.bool b))) := by
  refine ⟨q.read_mutated O r t, forall_congr' fun ht => ?_⟩
  subst ht
  by_cases hempty : (q.heap.dict q.addr).isEmpty = true
  · have hnil : q.heap.dict q.addr = [] := List.isEmpty_iff.mp hempty
    have hdrawn : q.drawn r = none := by
      unfold QueryRef.drawn
      rw [hnil]
      rfl
    unfold mutateQueryValue
    rw [if_pos hempty, hdrawn]
    exact iff_of_true (.inl rfl) fun b => nofun
  · unfold mutateQueryValue
    rw [if_neg hempty]
    exact QueryRef.oneValue_iff O r

/-- `{"flag": true}` -/
def flagQuery : QueryRef ℚ where
  heap := ⟨[[(chars "flag", .value (.bool true))]], []⟩
  addr := 0
  addr_lt := by decide
  list_lt i key a h := by
    match i, h with
    | 0, h => cases h
    | _ + 1, h => cases h
  distinct i j key key' a h _ := by
    match i, h with
    | 0, h => cases h
    | _ + 1, h => cases h

/-- `true` becomes 2. -/
theorem boolean_becomes_integer :
    ¬ ∀ (q : QueryRef ℚ) (O : FloatOps ℚ) (r : Draws),
      OneValue q.items ((mutateQueryValue O q.heap q.addr .value r).1.read
        (mutateQueryValue O q.heap q.addr .value r).2) := by
  intro h
  let O : FloatOps ℚ := ⟨(· + 1), (· - 1), (· * 2), (- ·)⟩
  have hflag := h flagQuery O ⟨0, 0, ⟨0, 0⟩, false, 0, 0⟩
  have hi : flagQuery.items[0]? = some (chars "flag", .bool true) := rfl
  have hne : (Value.bool true : Value ℚ) ≠ .int 2 := nofun
  obtain hsame | ⟨_, _, _, _, hv, -⟩ := OneValue.at hi hne hflag
  · exact hne hsame
  · cases hv

end QueryMutation

end AflNv
