import AflNv.Lib.JsonCodec
import AflNv.Lib.Unicode

/-!
# The rules of a body

The validators of `nv_body_valid.py` check a JSON value against a rule schema.  A schema has
keywords, a schema for each named property and one for the items of an array.

* `validateBody` is the sequence of validators that `body_validate` runs.
* `satisfies` is the meaning of a schema by recursion, for a table of the keywords that are
  looked at.  A value is at the top, under a property or in an array.
* `validateBody_iff`: the validators accept what satisfies the schema with the table `enforced`.
  Not all keywords are looked at everywhere (`nested_minItems_ignored`).
-/

namespace AflNv

open AflNv.Lib

namespace BodyRules

open AflNv.Lib.JsonCodec (Text Value chars)

variable {F : Type}

/-! ## Python's comparison of values -/

/-- The comparisons of floats: with a float, by `is` or `==`, and with an integer. -/
structure FloatEq (F : Type) where
  eq : F → F → Bool
  eqInt : F → ℤ → Bool

/-- Booleans are integers. -/
def asInt : Value F → Option ℤ
  | .bool b => some (if b then 1 else 0)
  | .int i => some i
  | _ => none

def eqNumber (E : FloatEq F) (v w : Value F) : Bool :=
  match asInt v, asInt w, v, w with
  | some i, some j, _, _ => i = j
  | some i, none, _, .float y => E.eqInt y i
  | none, some j, .float x, _ => E.eqInt x j
  | none, none, .float x, .float y => E.eq x y
  | _, _, _, _ => false

mutual

/-- `v == w` -/
def pyEq (E : FloatEq F) : Value F → Value F → Bool
  | .null, .null => true
  | .str s, .str t => s = t
  | .list vs, .list ws => pyEqItems E vs ws
  | .dict ms, .dict ns => ms.length = ns.length && pyEqMembers E ms ns
  | v, w => eqNumber E v w

def pyEqItems (E : FloatEq F) : List (Value F) → List (Value F) → Bool
  | [], [] => true
  | v :: vs, w :: ws => pyEq E v w && pyEqItems E vs ws
  | _, _ => false

def pyEqMembers (E : FloatEq F) : List (Text × Value F) → List (Text × Value F) → Bool
  | [], _ => true
  | (key, v) :: ms, ns =>
    (match ns.lookup key with
      | some w => pyEq E v w
      | none => false) && pyEqMembers E ms ns

end

/-- `v in ws` -/
def pyIn (E : FloatEq F) (v : Value F) (ws : List (Value F)) : Bool := ws.any (pyEq E v)

/-! ## Schemas -/

/-- The keywords of a schema but for `properties` and `items`.  A bound of 0 stands for one that
is not given. -/
structure Keywords (F : Type) where
  type : Option Text
  types : List Text
  required : List Text
  forbidden : List Text
  allowUnknown : Bool
  minProperties : ℤ
  minLength : ℤ
  maxLength : ℤ
  nonBlank : Bool
  enum : Option (List (Value F))
  minItems : ℤ
  maxItems : ℤ

def Keywords.none : Keywords F := ⟨.none, [], [], [], true, 0, 0, 0, false, .none, 0, 0⟩

inductive Schema (F : Type) where
  | mk (keywords : Keywords F) (properties : List (Text × Schema F)) (items : Option (Schema F))

def checkType (value : Value F) (typ : Text) : Bool :=
  if typ = chars "object" then value matches .dict _
  else if typ = chars "array" then value matches .list _
  else if typ = chars "string" then value matches .str _
  else if typ = chars "number" then value matches .int _ || value matches .float _
  else if typ = chars "integer" then value matches .int _
  else if typ = chars "boolean" then value matches .bool _
  else if typ = chars "null" then value matches .null
  else true

/-- `maximum > 0 and n > maximum` -/
def exceeds (maximum : ℤ) (n : ℕ) : Bool := 0 < maximum && maximum < n

/-- `minimum > 0 and n < minimum` -/
def below (minimum : ℤ) (n : ℕ) : Bool := 0 < minimum && (n : ℤ) < minimum

/-! ## The validators -/

/-- A reason to reject, or none. -/
abbrev Check := Except Text Unit

def reject (b : Bool) (reason : String) : Check := if b then .error (chars reason) else .ok ()

def typeMismatch (k : Keywords F) (value : Value F) : Bool :=
  k.type.any fun typ => !checkType value typ

def typesMismatch (k : Keywords F) (value : Value F) : Bool :=
  k.types ≠ [] && !k.types.any (checkType value)

def tooFewProperties (k : Keywords F) : Value F → Bool
  | .dict ms => below k.minProperties ms.length
  | _ => false

def tooLong (k : Keywords F) : Value F → Bool
  | .str s => exceeds k.maxLength s.length
  | _ => false

def tooShort (k : Keywords F) : Value F → Bool
  | .str s => below k.minLength s.length
  | _ => false

def blank (k : Keywords F) : Value F → Bool
  | .str s => k.nonBlank && Unicode.strip s = []
  | _ => false

def enumMismatch (E : FloatEq F) (k : Keywords F) (value : Value F) : Bool :=
  k.enum.any fun values => !pyIn E value values

def tooManyItems (k : Keywords F) : Value F → Bool
  | .list vs => exceeds k.maxItems vs.length
  | _ => false

def tooFewItems (k : Keywords F) : Value F → Bool
  | .list vs => below k.minItems vs.length
  | _ => false

/-- The type is not checked when it is the empty string, which is no type either. -/
def validateEndpointType (obj : Value F) (k : Keywords F) : Check := do
  reject (typeMismatch k obj) "wrong_top_type"
  reject (tooFewProperties k obj) "too_few_properties"

def validateRequiredFields (obj : Value F) (k : Keywords F) : Check :=
  if k.required = [] then .ok ()
  else match obj with
    | .dict ms => reject (!k.required.all (· ∈ ms.map Prod.fst)) "missing_required"
    | _ => .error (chars "missing_required")

def validateForbiddenFields (obj : Value F) (k : Keywords F) : Check :=
  match obj with
  | .dict ms => reject (k.forbidden.any (· ∈ ms.map Prod.fst)) "forbidden_field"
  | _ => .ok ()

def validateUnknownFields (obj : Value F) (k : Keywords F) (properties : List (Text × Schema F)) :
    Check :=
  match obj with
  | .dict ms =>
    reject (!k.allowUnknown && !ms.all (·.1 ∈ properties.map Prod.fst)) "unknown_field"
  | _ => .ok ()

/-- The validators of a nested object, but for that of its properties. -/
def validateObject (obj : Value F) (k : Keywords F) (properties : List (Text × Schema F)) :
    Check := do
  validateRequiredFields obj k
  validateForbiddenFields obj k
  validateUnknownFields obj k properties

/-- The checks of the value of a property. -/
def checkField (E : FloatEq F) (k : Keywords F) (value : Value F) : Check := do
  reject (typeMismatch k value) "field_type_mismatch"
  reject (typesMismatch k value) "field_type_mismatch"
  reject (tooLong k value) "field_too_long"
  reject (tooShort k value) "field_too_short"
  reject (blank k value) "field_blank"
  reject (enumMismatch E k value) "field_enum_mismatch"
  reject (tooManyItems k value) "field_too_many_items"
  reject (tooFewItems k value) "field_too_few_items"

/-- The checks of an item of an array. -/
def checkItem (E : FloatEq F) (k : Keywords F) (item : Value F) : Check := do
  reject (typeMismatch k item) "field_item_type_mismatch"
  reject (tooLong k item) "field_item_too_long"
  reject (tooShort k item) "field_item_too_short"
  reject (blank k item) "field_item_blank"
  reject (enumMismatch E k item) "field_item_enum_mismatch"

mutual

/-- The loop of `validate_properties`. -/
def validateFields (E : FloatEq F) : List (Text × Schema F) → List (Text × Value F) → Check
  | [], _ => .ok ()
  | (field, pr) :: properties, ms =>
    (match ms.lookup field with
      | none => .ok ()
      | some value => validateField E pr value) >>= fun _ => validateFields E properties ms

/-- The body of the loop, for a property that is there. -/
def validateField (E : FloatEq F) : Schema F → Value F → Check
  | .mk k properties items, value => do
    checkField E k value
    match value with
    | .list vs => validateItems E items vs
    | .dict ms => do
      validateObject value k properties
      validateFields E properties ms
    | _ => .ok ()

def validateItems (E : FloatEq F) : Option (Schema F) → List (Value F) → Check
  | none, _ => .ok ()
  | some rules, vs => vs.forM (validateItem E rules)

def validateItem (E : FloatEq F) : Schema F → Value F → Check
  | .mk k properties _, item => do
    checkItem E k item
    match item with
    | .dict ms => do
      validateObject item k properties
      validateFields E properties ms
    | _ => .ok ()

end

def validateProperties (E : FloatEq F) (obj : Value F) : Schema F → Check
  | .mk _ properties _ =>
    match obj with
    | .dict ms => validateFields E properties ms
    | _ => .ok ()

/-- The validators in the order of `body_validate`. -/
def validateBody (E : FloatEq F) (obj : Value F) : Schema F → Check
  | .mk k properties items => do
    validateEndpointType obj k
    validateRequiredFields obj k
    validateForbiddenFields obj k
    validateUnknownFields obj k properties
    validateProperties E obj (.mk k properties items)

/-! ## The meaning of a schema -/

inductive Keyword where
  | type
  | types
  | required
  | forbidden
  | allowUnknown
  | properties
  | minProperties
  | minLength
  | maxLength
  | nonBlank
  | enum
  | items
  | minItems
  | maxItems
  deriving DecidableEq

/-- Where a value stands. -/
inductive Position where
  | top
  | field
  | item
  deriving DecidableEq

/-- The keywords that are looked at in a value, by where it stands. -/
abbrev Table (F : Type) := Position → Value F → Keyword → Bool

/-- All of them. -/
def every : Table F := fun _ _ _ => true

/-- The keywords that the validators look at.  Under a property `minProperties` is not looked at;
in an array neither are the keywords of arrays, nor `types`.  Outside of the top, the keywords
of objects are looked at in objects only: there, `required` does not reject other values. -/
def enforced : Table F := fun pos v kw =>
  match pos, kw with
  | .top, .type => true
  | .top, .minProperties => true
  | .top, .required => true
  | .top, .forbidden => true
  | .top, .allowUnknown => true
  | .top, .properties => true
  | .top, _ => false
  | _, .minProperties => false
  | _, .required => (v matches .dict _)
  | .item, .types => false
  | .item, .items => false
  | .item, .minItems => false
  | .item, .maxItems => false
  | _, _ => true

/-- The names that an object has, and none for another value. -/
def keysOf : Value F → List Text
  | .dict ms => ms.map Prod.fst
  | _ => []

def membersOf : Value F → List (Text × Value F)
  | .dict ms => ms
  | _ => []

def itemsOf : Value F → List (Value F)
  | .list vs => vs
  | _ => []

/-- What one keyword asks of a value; `properties` and `items` ask it of what is in the value. -/
def Keywords.holds (E : FloatEq F) (k : Keywords F) (names : List Text) (v : Value F) :
    Keyword → Bool
  | .type => !typeMismatch k v
  | .types => !typesMismatch k v
  | .required => k.required.all (· ∈ keysOf v)
  | .forbidden => k.forbidden.all (· ∉ keysOf v)
  | .allowUnknown => k.allowUnknown || (keysOf v).all (· ∈ names)
  | .minProperties => !tooFewProperties k v
  | .minLength => !tooShort k v
  | .maxLength => !tooLong k v
  | .nonBlank => !blank k v
  | .enum => !enumMismatch E k v
  | .minItems => !tooFewItems k v
  | .maxItems => !tooManyItems k v
  | .properties => true
  | .items => true

def keywords : List Keyword :=
  [.type, .types, .required, .forbidden, .allowUnknown, .properties, .minProperties, .minLength,
    .maxLength, .nonBlank, .enum, .items, .minItems, .maxItems]

mutual

/-- The value satisfies the schema, as far as the table goes. -/
def satisfies (E : FloatEq F) (T : Table F) (pos : Position) : Schema F → Value F → Bool
  | .mk k properties items, v =>
    (keywords.all fun kw => !T pos v kw || k.holds E (properties.map Prod.fst) v kw) &&
      (!T pos v .properties || satisfiesMembers E T properties (membersOf v)) &&
      (!T pos v .items || satisfiesItems E T items (itemsOf v))

def satisfiesMembers (E : FloatEq F) (T : Table F) :
    List (Text × Schema F) → List (Text × Value F) → Bool
  | [], _ => true
  | (field, pr) :: properties, ms =>
    (match ms.lookup field with
      | none => true
      | some v => satisfies E T .field pr v) && satisfiesMembers E T properties ms

def satisfiesItems (E : FloatEq F) (T : Table F) : Option (Schema F) → List (Value F) → Bool
  | none, _ => true
  | some rules, vs => vs.all (satisfies E T .item rules)

end

/-! ## What a validator accepts -/

theorem reject_bind_ok {α : Type} {b : Bool} {reason : String} {f : Unit → Except Text α} {x : α} :
    reject b reason >>= f = .ok x ↔ b = false ∧ f () = .ok x := by
  cases b with
  | true => exact iff_of_false (fun h => nomatch h) fun h => nomatch h.1
  | false => exact ⟨fun h => ⟨rfl, h⟩, fun h => h.2⟩

@[simp] theorem isOk_reject (b : Bool) (reason : String) : (reject b reason).isOk = !b := by
  cases b <;> rfl

@[simp] theorem isOk_ok : (Except.ok () : Check).isOk = true := rfl

@[simp] theorem isOk_bind (c : Check) (f : Unit → Check) :
    (c >>= f).isOk = (c.isOk && (f ()).isOk) := by
  cases c <;> rfl

theorem isOk_forM (f : Value F → Check) (vs : List (Value F)) :
    (vs.forM f).isOk = vs.all fun v => (f v).isOk := by
  induction vs with
  | nil => rfl
  | cons v vs ih =>
    show (f v >>= fun _ => vs.forM f).isOk = _
    rw [isOk_bind, ih, List.all_cons]

theorem isOk_validateEndpointType (k : Keywords F) (v : Value F) :
    (validateEndpointType v k).isOk = (!typeMismatch k v && !tooFewProperties k v) := by
  simp [validateEndpointType]

theorem isOk_validateRequiredFields (k : Keywords F) (v : Value F) :
    (validateRequiredFields v k).isOk = k.required.all (· ∈ keysOf v) := by
  unfold validateRequiredFields
  split_ifs with h
  · rw [h]
    rfl
  · cases v with
    | dict ms => rw [isOk_reject, Bool.not_not]; rfl
    | _ =>
      show false = k.required.all fun key => decide (key ∈ ([] : List Text))
      obtain ⟨key, rest, hr⟩ := List.exists_cons_of_ne_nil h
      simp [hr]

theorem isOk_validateForbiddenFields (k : Keywords F) (v : Value F) :
    (validateForbiddenFields v k).isOk = k.forbidden.all (· ∉ keysOf v) := by
  cases v with
  | dict ms =>
    show (reject (k.forbidden.any (· ∈ ms.map Prod.fst)) "forbidden_field").isOk =
      k.forbidden.all fun key => decide (key ∉ ms.map Prod.fst)
    rw [isOk_reject, List.not_any_eq_all_not]
    congr 1
    funext key
    exact decide_not.symm
  | _ =>
    show true = k.forbidden.all fun key => decide (key ∉ ([] : List Text))
    simp

theorem isOk_validateUnknownFields (k : Keywords F) (properties : List (Text × Schema F))
    (v : Value F) :
    (validateUnknownFields v k properties).isOk =
      (k.allowUnknown || (keysOf v).all (· ∈ properties.map Prod.fst)) := by
  cases v with
  | dict ms =>
    show (reject (!k.allowUnknown && !ms.all fun m => decide (m.1 ∈ properties.map Prod.fst))
      "unknown_field").isOk = (k.allowUnknown || (ms.map Prod.fst).all fun key =>
        decide (key ∈ properties.map Prod.fst))
    rw [isOk_reject, List.all_map, Bool.not_and, Bool.not_not, Bool.not_not]
    rfl
  | _ =>
    show true = (k.allowUnknown || [].all _)
    simp

theorem isOk_checkField (E : FloatEq F) (k : Keywords F) (v : Value F) :
    (checkField E k v).isOk = (!typeMismatch k v && (!typesMismatch k v && (!tooLong k v &&
      (!tooShort k v && (!blank k v && (!enumMismatch E k v && (!tooManyItems k v &&
        !tooFewItems k v))))))) := by
  simp [checkField]

theorem isOk_checkItem (E : FloatEq F) (k : Keywords F) (v : Value F) :
    (checkItem E k v).isOk = (!typeMismatch k v && (!tooLong k v && (!tooShort k v &&
      (!blank k v && !enumMismatch E k v)))) := by
  simp [checkItem]

/-! ## The validators and the meaning -/

theorem all_true {α : Type} (l : List α) : (l.all fun _ => true) = true :=
  List.all_eq_true.mpr fun _ _ => rfl

theorem isOk_validateObject (k : Keywords F) (properties : List (Text × Schema F)) (v : Value F) :
    (validateObject v k properties).isOk = (k.required.all (· ∈ keysOf v) &&
      (k.forbidden.all (· ∉ keysOf v) &&
        (k.allowUnknown || (keysOf v).all (· ∈ properties.map Prod.fst)))) := by
  unfold validateObject
  rw [isOk_bind, isOk_bind, isOk_validateRequiredFields, isOk_validateForbiddenFields,
    isOk_validateUnknownFields]

/-- What the keywords ask of the value of a property. -/
theorem all_field (E : FloatEq F) (k : Keywords F) (properties : List (Text × Schema F))
    (v : Value F) :
    (keywords.all fun kw =>
        !enforced .field v kw || k.holds E (properties.map Prod.fst) v kw) =
      ((checkField E k v).isOk &&
        (!(v matches .dict _) || (validateObject v k properties).isOk)) := by
  rw [isOk_checkField, isOk_validateObject]
  cases v <;> simp [keywords, enforced, Keywords.holds, keysOf, all_true] <;> ac_rfl

/-- What the keywords ask of an item of an array. -/
theorem all_item (E : FloatEq F) (k : Keywords F) (properties : List (Text × Schema F))
    (v : Value F) :
    (keywords.all fun kw =>
        !enforced .item v kw || k.holds E (properties.map Prod.fst) v kw) =
      ((checkItem E k v).isOk &&
        (!(v matches .dict _) || (validateObject v k properties).isOk)) := by
  rw [isOk_checkItem, isOk_validateObject]
  cases v <;> simp [keywords, enforced, Keywords.holds, keysOf, all_true] <;> ac_rfl

theorem all_top (E : FloatEq F) (k : Keywords F) (properties : List (Text × Schema F))
    (v : Value F) :
    (keywords.all fun kw =>
        !enforced .top v kw || k.holds E (properties.map Prod.fst) v kw) =
      ((validateEndpointType v k).isOk && (validateObject v k properties).isOk) := by
  rw [isOk_validateEndpointType, isOk_validateObject]
  simp only [keywords, enforced, Keywords.holds, List.all_cons, List.all_nil, Bool.not_true,
    Bool.not_false, Bool.false_or, Bool.true_or, Bool.and_true, Bool.true_and]
  ac_rfl

theorem satisfiesMembers_nil (E : FloatEq F) (T : Table F) (properties : List (Text × Schema F)) :
    satisfiesMembers E T properties [] = true := by
  induction properties with
  | nil => rfl
  | cons p properties ih =>
    obtain ⟨field, pr⟩ := p
    rw [satisfiesMembers, ih]
    rfl

theorem satisfiesItems_nil (E : FloatEq F) (T : Table F) (items : Option (Schema F)) :
    satisfiesItems E T items [] = true := by
  cases items <;> rfl

mutual

theorem isOk_validateFields (E : FloatEq F) : ∀ (properties : List (Text × Schema F))
    (ms : List (Text × Value F)),
    (validateFields E properties ms).isOk = satisfiesMembers E enforced properties ms
  | [], _ => rfl
  | (field, pr) :: properties, ms => by
    rw [validateFields, satisfiesMembers, isOk_bind, isOk_validateFields E properties ms]
    congr 1
    cases ms.lookup field with
    | none => rfl
    | some v => exact isOk_validateField E pr v

theorem isOk_validateField (E : FloatEq F) : ∀ (s : Schema F) (v : Value F),
    (validateField E s v).isOk = satisfies E enforced .field s v
  | .mk k properties items, v => by
    have hitems := isOk_validateItems E items
    have hmembers := isOk_validateFields E properties
    have hnone := satisfiesMembers_nil E enforced properties
    have hnil := satisfiesItems_nil E enforced items
    rw [satisfies, all_field]
    cases v with
    | list vs =>
      rw [validateField, isOk_bind, hitems]
      simp [enforced, membersOf, itemsOf, hnone]
    | dict ms =>
      rw [validateField, isOk_bind]
      simp [enforced, membersOf, itemsOf, hnil, hmembers, Bool.and_assoc]
    | _ => simp [validateField, enforced, membersOf, itemsOf, hnone, hnil]

theorem isOk_validateItems (E : FloatEq F) : ∀ (items : Option (Schema F)) (vs : List (Value F)),
    (validateItems E items vs).isOk = satisfiesItems E enforced items vs
  | none, _ => rfl
  | some rules, vs => by
    rw [validateItems, satisfiesItems, isOk_forM]
    congr 1
    funext v
    exact isOk_validateItem E rules v

theorem isOk_validateItem (E : FloatEq F) : ∀ (s : Schema F) (v : Value F),
    (validateItem E s v).isOk = satisfies E enforced .item s v
  | .mk k properties items, v => by
    have hmembers := isOk_validateFields E properties
    have hnone := satisfiesMembers_nil E enforced properties
    rw [satisfies, all_item]
    cases v with
    | dict ms =>
      rw [validateItem, isOk_bind]
      simp [enforced, membersOf, hmembers, Bool.and_assoc]
    | _ => simp [validateItem, enforced, membersOf, hnone]

end

theorem isOk_validateProperties (E : FloatEq F) (k : Keywords F)
    (properties : List (Text × Schema F)) (items : Option (Schema F)) (v : Value F) :
    (validateProperties E v (.mk k properties items)).isOk =
      satisfiesMembers E enforced properties (membersOf v) := by
  cases v with
  | dict ms => exact isOk_validateFields E properties ms
  | _ => exact (satisfiesMembers_nil E enforced properties).symm

/-- The validators accept what satisfies the schema as far as each keyword is looked at. -/
theorem validateBody_iff (E : FloatEq F) (s : Schema F) (v : Value F) :
    (validateBody E v s).isOk = true ↔ satisfies E enforced .top s v = true := by
  obtain ⟨k, properties, items⟩ := s
  have hbody : (validateBody E v (.mk k properties items)).isOk =
      ((validateEndpointType v k).isOk && ((validateObject v k properties).isOk &&
        (validateProperties E v (.mk k properties items)).isOk)) := by
    rw [validateBody, isOk_validateObject]
    simp only [isOk_bind, isOk_validateRequiredFields, isOk_validateForbiddenFields,
      isOk_validateUnknownFields]
    ac_rfl
  rw [hbody, satisfies, all_top, isOk_validateProperties]
  simp [enforced, Bool.and_assoc]

/-- `{"properties": {"rows": {"items": {"minItems": 1}}}}` -/
def rowsSchema : Schema Empty :=
  .mk .none [(chars "rows", .mk .none []
    (some (.mk { (Keywords.none : Keywords Empty) with minItems := 1 } [] none)))] none

/-- An empty row is accepted: arrays in arrays are not checked. -/
theorem nested_minItems_ignored :
    ¬ ∀ (E : FloatEq Empty) (s : Schema Empty) (v : Value Empty),
      (validateBody E v s).isOk = true ↔ satisfies E every .top s v = true := by
  intro h
  have hrows := h ⟨Empty.elim, Empty.elim⟩ rowsSchema
    (.dict [(chars "rows", .list [.list []])])
  exact absurd (hrows.mp (by decide)) (by decide)

end BodyRules

end AflNv
