import AflNv.DecisionEngine
import AflNv.SeedEnvelope
import AflNv.Lib.JsonPlace
import AflNv.Lib.Percent

/-!
# Values bound at run time

`bind_runtime_body_parameter` of `nv_http_harness.py` puts the values of environment variables into
a JSON body, each at a path where the body holds the marker of the variable.
`resolve_named_endpoint` puts one value into the path of an endpoint.

* `Bound` relates a document to the one in which a list of bindings is replaced one after another,
  each where the document holds its marker at that moment.
* `Bound.exact`: when no two bindings denote one place, each place held its marker from the start
  and holds its value at the end, and nothing else is changed.  Bindings of one place act on each
  other (`marker_from_binding`).
* `runtime_binding_spec` says this of the two functions.
-/

namespace AflNv

open AflNv.Lib

namespace RuntimeBinding

open AflNv.Lib.JsonCodec (Text Value IsStr chars)
open AflNv.Lib.JsonPlace
open AflNv.Lib.Percent (quote)
open AflNv.PythonJson

variable {F : Type}

/-! ## Paths -/

/-- A part of a path: the key of an object, or an index that may be negative. -/
inductive Part where
  | key (k : Text)
  | index (i : ℤ)

/-- The position that an index stands for in a sequence. -/
def position (length : ℕ) (i : ℤ) : Option ℕ :=
  if 0 ≤ i ∧ i < length then some i.toNat
  else if i < 0 ∧ 0 ≤ i + length then some (i + length).toNat
  else none

/-- `parent[part]`; `none` is a `KeyError`, an `IndexError` or a `TypeError`.  The items of a string
are its characters. -/
def getItem (parent : Value F) (part : Part) : Option (Value F) :=
  match parent, part with
  | .dict ms, .key k => ms.lookup k
  | .list vs, .index i => (position vs.length i).bind (vs[·]?)
  | .str s, .index i => ((position s.length i).bind (s[·]?)).map fun c => .str [c]
  | _, _ => none

/-- The step that a part of a path stands for. -/
def stepOf : Value F → Part → Option Step
  | .dict ms, .key k => if k ∈ ms.map Prod.fst then some (.key k) else none
  | .list vs, .index i => (position vs.length i).map .item
  | _, _ => none

/-- The place that a path denotes in a document. -/
def placeOf : Value F → List Part → Option Place
  | _, [] => some []
  | v, part :: rest =>
    (stepOf v part).bind fun s => (child v s).bind fun c => (placeOf c rest).map (s :: ·)

/-- The value that a path leads to, by way of the characters of strings too. -/
def walk : Value F → List Part → Option (Value F)
  | v, [] => some v
  | v, part :: rest => (getItem v part).bind fun c => walk c rest

/-! ## What is used of Python and of the environment -/

inductive Reason where
  | invalidBinding
  | invalidPathBindings
  | notAnObject
  | invalidPathBinding
  | required (name : Text)
  | markerMissing (path : List Part)
  | invalidEndpointBinding
  | requiredForEndpoint
  | endpointNotFound

inductive BindError where
  | runtimeError (reason : Reason)
  | typeError
  | raised (e : Raised)

/-- `str(v)` of a value that is no string, `not v` of a float, and the variables of the environment,
whose values hold no surrogate pairs. -/
structure Env (F : Type) where
  str : Value F → Text
  isZero : F → Bool
  environ : Text → Option Text
  environ_isStr : ∀ name v, environ name = some v → IsStr v

/-- `str(v)` -/
def Env.text (e : Env F) : Value F → Text
  | .str s => s
  | v => e.str v

/-- `str(d.get(key, default)).strip()` -/
def Env.field (e : Env F) (d : Dict F) (key : String) (default : Text) : Text :=
  Unicode.strip (((d.get (chars key)).map e.text).getD default)

/-- `not v` -/
def Env.isFalsy (e : Env F) : Value F → Bool
  | .null => true
  | .bool b => !b
  | .int i => i = 0
  | .float x => e.isZero x
  | .str s => s = []
  | .list vs => vs.isEmpty
  | .dict ms => ms.isEmpty

/-- The value of a variable without the white space at its ends, unless nothing is left. -/
def Env.value (e : Env F) (name : Text) : Option Text :=
  ((e.environ name).map Unicode.strip).filter (· ≠ [])

/-- `d.get(key)`, with `none` for `None` too. -/
def getSome (d : Dict F) (key : String) : Option (Value F) :=
  (d.get (chars key)).filter fun v => !(v matches .null)

/-! ## Binding a body -/

/-- `parent[leaf] = v`, of an item that can be read.  Those of a string cannot be set. -/
def assign (parent : Value F) (leaf : Part) (v : Value F) : Except BindError (Value F) :=
  match parent with
  | .str _ => .error .typeError
  | _ => .ok ((stepOf parent leaf).elim parent fun s => setChild parent s v)

/-- The walk to the parent of the leaf and the replacement of the marker. -/
def bindLeaf (path : List Part) (marker value : Text) :
    Value F → List Part → Part → Except BindError (Value F)
  | parent, [], leaf =>
    match getItem parent leaf with
    | some (.str current) =>
      if current = marker then assign parent leaf (.str value)
      else .error (.runtimeError (.markerMissing path))
    | _ => .error (.runtimeError (.markerMissing path))
  | parent, part :: rest, leaf =>
    match getItem parent part with
    | none => .error (.runtimeError (.markerMissing path))
    | some c => do
      let c' ← bindLeaf path marker value c rest leaf
      .ok ((stepOf parent part).elim parent fun s => setChild parent s c')

structure Binding (F : Type) where
  spec : Dict F
  parents : List Part
  leaf : Part

def Binding.path (b : Binding F) : List Part := b.parents ++ [b.leaf]

/-- The marker, a text that is not empty. -/
def Binding.marker (b : Binding F) : Option Text :=
  match b.spec.get (chars "marker") with
  | some (.str s) => if s = [] then none else some s
  | _ => none

def Binding.envName (e : Env F) (b : Binding F) : Text := e.field b.spec "env" []

/-- The body of the loop over the bindings. -/
def bindOne (e : Env F) (obj : Value F) (b : Binding F) : Except BindError (Value F) :=
  match b.marker with
  | none => .error (.runtimeError .invalidBinding)
  | some marker =>
    if b.envName e = [] then .error (.runtimeError .invalidBinding)
    else match e.value (b.envName e) with
      | none => .error (.runtimeError (.required (b.envName e)))
      | some value => bindLeaf b.path marker value obj b.parents b.leaf

/-- A part of a configured path; a boolean is none. -/
def partOf : Value F → Option Part
  | .str s => some (.key s)
  | .int i => some (.index i)
  | _ => none

def fieldBinding (e : Env F) (d : Dict F) : Except BindError (Binding F) :=
  let field := e.field d "field" []
  if field = [] then .error (.runtimeError .invalidBinding) else .ok ⟨d, [], .key field⟩

def pathBinding (d : Dict F) : Except BindError (Binding F) :=
  match d.get (chars "path") with
  | some (.list vs) =>
    match vs.mapM partOf with
    | some parts =>
      match parts.getLast? with
      | some leaf => .ok ⟨d, parts.dropLast, leaf⟩
      | none => .error (.runtimeError .invalidPathBinding)
    | none => .error (.runtimeError .invalidPathBinding)
  | _ => .error (.runtimeError .invalidPathBinding)

def asDict : Value F → Option (Dict F)
  | .dict ms => some ms
  | _ => none

/-- The configured bindings, if they are dictionaries. -/
def bindingDicts (binding : Option (Value F)) (paths : Value F) :
    Except BindError (Option (Dict F) × List (Dict F)) :=
  match binding, paths with
  | none, .list vs =>
    match vs.mapM asDict with
    | some ds => .ok (none, ds)
    | none => .error (.runtimeError .invalidPathBindings)
  | some (.dict d), .list vs =>
    match vs.mapM asDict with
    | some ds => .ok (some d, ds)
    | none => .error (.runtimeError .invalidPathBindings)
  | some (.dict _), _ | none, _ => .error (.runtimeError .invalidPathBindings)
  | some _, _ => .error (.runtimeError .invalidBinding)

/-- The list `bindings`. -/
def bindingsOf (e : Env F) (binding : Option (Dict F)) (paths : List (Dict F)) :
    Except BindError (List (Binding F)) :=
  match binding with
  | none => paths.mapM pathBinding
  | some d => do
    let first ← fieldBinding e d
    let rest ← paths.mapM pathBinding
    .ok (first :: rest)

def loadsObject (I : Interp F) (raw : Bytes) : Except BindError (Value F) :=
  match loadsBytes I raw with
  | some (.dict ms) => .ok (.dict ms)
  | _ => .error (.runtimeError .notAnObject)

def dumpsBound (I : Interp F) (v : Value F) : Except BindError Bytes :=
  (dumpsBytes I .bindDumps v).mapError .raised

def bindRuntimeBodyParameter (I : Interp F) (e : Env F) (config : Dict F) (raw : Bytes) :
    Except BindError Bytes :=
  let binding := getSome config "runtime_body_parameter"
  let paths := (config.get (chars "runtime_body_path_parameters")).getD (.list [])
  if binding.isNone ∧ e.isFalsy paths then .ok raw
  else do
    let (d, ds) ← bindingDicts binding paths
    let obj ← loadsObject I raw
    let bs ← bindingsOf e d ds
    let w ← bs.foldlM (bindOne e) obj
    dumpsBound I w

/-! ## Resolving an endpoint -/

/-- The path that an endpoint is configured with. -/
def templateOf (e : Env F) (ep : Dict F) : Text :=
  let path := e.field ep "path" [47]
  if path.head? = some 47 then path else 47 :: path

/-- What is before and behind a placeholder that occurs once. -/
def cutOnce (placeholder path : Text) : Option (Text × Text) :=
  (Substring.cut placeholder path).filter fun r => (Substring.cut placeholder r.2).isNone

/-- The value of a path binding: that of a variable, or the one in the run's context.  Without a
context path there is no context. -/
def pathValue (e : Env F) (context : Option (Dict F)) (envName contextKey : Text) :
    Except BindError (Option Text) :=
  if envName ≠ [] then .ok (e.environ envName)
  else match context with
    | none => .error (.runtimeError .requiredForEndpoint)
    | some d =>
      match d.get contextKey with
      | none | some .null => .ok none
      | some v => .ok (some (e.text v))

/-- The path with the value in place of the placeholder. -/
def bindPath (e : Env F) (context : Option (Dict F)) (path : Text) (binding : Dict F) :
    Except BindError Text :=
  let placeholder := e.field binding "placeholder" []
  let envName := e.field binding "env" []
  let contextKey := e.field binding "context" []
  if placeholder = [] ∨ (envName = [] ↔ contextKey = []) then
    .error (.runtimeError .invalidEndpointBinding)
  else match cutOnce placeholder path with
    | none => .error (.runtimeError .invalidEndpointBinding)
    | some (pre, post) => do
      let value ← pathValue e context envName contextKey
      let value := Unicode.strip (value.getD [])
      if value = [] then .error (.runtimeError .requiredForEndpoint)
      else if encodes value then .ok (pre ++ (quote value ++ post))
      else .error (.raised .unicodeEncodeError)

/-- `resolve_named_endpoint`, without the method. -/
def resolveNamedEndpoint (e : Env F) (endpoints : List (Value F)) (context : Option (Dict F))
    (name : Text) : Except BindError (Text × Dict F) :=
  match (endpoints.filterMap asDict).find? fun ep => e.field ep "name" [] = name with
  | none => .error (.runtimeError .endpointNotFound)
  | some ep =>
    match getSome ep "runtime_path_parameter" with
    | none => .ok (templateOf e ep, ep)
    | some (.dict binding) => do
      let path ← bindPath e context (templateOf e ep) binding
      .ok (path, ep)
    | some _ => .error (.runtimeError .invalidEndpointBinding)

/-! ## One binding -/

theorem stepOf_of_getItem {v c : Value F} {part : Part} (hv : ∀ s, v ≠ .str s)
    (h : getItem v part = some c) : ∃ s, stepOf v part = some s ∧ child v s = some c := by
  match v, part with
  | .dict ms, .key k =>
    have hlookup : ms.lookup k = some c := h
    have hmem : k ∈ ms.map Prod.fst := by
      obtain ⟨l, r, rfl, -⟩ := List.lookup_eq_some_iff.mp hlookup
      simp
    exact ⟨.key k, if_pos hmem, hlookup⟩
  | .list vs, .index i =>
    obtain ⟨n, hn, hc⟩ := Option.bind_eq_some_iff.mp h
    refine ⟨.item n, ?_, hc⟩
    rw [stepOf, hn]
    rfl
  | .str s, _ => exact absurd rfl (hv s)
  | .dict _, .index _ | .list _, .key _ | .null, _ | .bool _, _ | .int _, _ | .float _, _ =>
    exact nomatch h

/-- Nothing is bound in a string. -/
theorem bindLeaf_str {path : List Part} {marker value s : Text} {parents : List Part} {leaf : Part}
    {w : Value F} : bindLeaf path marker value (.str s) parents leaf ≠ .ok w := by
  intro h
  induction parents generalizing s w with
  | nil =>
    rw [bindLeaf] at h
    split at h
    · split_ifs at h
      exact nomatch h
    · exact nomatch h
  | cons part rest ih =>
    rw [bindLeaf] at h
    cases hitem : getItem (.str s : Value F) part with
    | none =>
      rw [hitem] at h
      exact nomatch h
    | some c =>
      rw [hitem] at h
      obtain ⟨c', hc', -⟩ := bind_eq_ok.mp h
      cases part with
      | key k => exact nomatch hitem
      | index i =>
        obtain ⟨ch, -, rfl⟩ := Option.map_eq_some_iff.mp hitem
        exact ih hc'

/-- A binding that succeeds replaces a marker at the place of its path. -/
theorem bindLeaf_ok {path : List Part} {marker value : Text} {v w : Value F} {parents : List Part}
    {leaf : Part} (h : bindLeaf path marker value v parents leaf = .ok w) :
    ∃ place, placeOf v (parents ++ [leaf]) = some place ∧
      valueAt v place = some (.str marker) ∧ w = replaceAt (.str value) v place := by
  have hv : ∀ s, v ≠ .str s := by
    rintro s rfl
    exact bindLeaf_str h
  induction parents generalizing v w with
  | nil =>
    rw [bindLeaf] at h
    split at h
    · rename_i current hitem
      split_ifs at h with hmarker
      obtain ⟨s, hs, hchild⟩ := stepOf_of_getItem hv hitem
      have hw : w = setChild v s (.str value) := by
        rw [assign.eq_def] at h
        split at h
        · cases h
        · rw [hs] at h
          exact (Except.ok.inj h).symm
      refine ⟨[s], ?_, ?_, ?_⟩
      · rw [List.nil_append, placeOf, hs, Option.bind_some, hchild]
        rfl
      · rw [valueAt, hchild, ← hmarker]
        rfl
      · rw [hw, replaceAt, hchild]
        rfl
    · cases h
  | cons part rest ih =>
    rw [bindLeaf] at h
    cases hitem : getItem v part with
    | none =>
      rw [hitem] at h
      cases h
    | some c =>
      rw [hitem] at h
      obtain ⟨c', hc', hw⟩ := bind_eq_ok.mp h
      obtain ⟨s, hs, hchild⟩ := stepOf_of_getItem hv hitem
      have hstr : ∀ t, c ≠ .str t := by
        rintro t rfl
        exact bindLeaf_str hc'
      obtain ⟨place, hplace, hat, rfl⟩ := ih hc' hstr
      rw [hs] at hw
      refine ⟨s :: place, ?_, ?_, ?_⟩
      · rw [List.cons_append, placeOf, hs, Option.bind_some, hchild, Option.bind_some, hplace]
        rfl
      · rw [valueAt, hchild]
        exact hat
      · rw [replaceAt, hchild]
        exact (Except.ok.inj hw).symm

/-- A binding raises `RuntimeError`, or `TypeError` when its path leads into a string. -/
theorem bindLeaf_error {path : List Part} {marker value : Text} {v : Value F} {parents : List Part}
    {leaf : Part} {err : BindError} (h : bindLeaf path marker value v parents leaf = .error err) :
    (∃ reason, err = .runtimeError reason) ∨
      (err = .typeError ∧ ∃ s, walk v parents = some (.str s)) := by
  induction parents generalizing v with
  | nil =>
    rw [bindLeaf] at h
    split at h
    · split_ifs at h
      · rw [assign.eq_def] at h
        split at h
        · exact .inr ⟨(Except.error.inj h).symm, _, rfl⟩
        · exact nomatch h
      · exact .inl ⟨_, (Except.error.inj h).symm⟩
    · exact .inl ⟨_, (Except.error.inj h).symm⟩
  | cons part rest ih =>
    rw [bindLeaf] at h
    cases hitem : getItem v part with
    | none =>
      rw [hitem] at h
      exact .inl ⟨_, (Except.error.inj h).symm⟩
    | some c =>
      rw [hitem] at h
      rcases bind_eq_error.mp h with hc | ⟨c', -, h⟩
      · rw [walk, hitem]
        exact ih hc
      · exact nomatch h

/-! ## A list of bindings -/

/-- Replacing the markers of the bindings one after another leads from a document to another. -/
inductive Bound (e : Env F) : Value F → List (Binding F) → Value F → Prop where
  | nil (v : Value F) : Bound e v [] v
  | cons {v w : Value F} {b : Binding F} {bs : List (Binding F)} {marker value : Text}
      {place : Place} (hmarker : b.marker = some marker)
      (hvalue : e.value (b.envName e) = some value)
      (hplace : placeOf v b.path = some place) (hat : valueAt v place = some (.str marker))
      (hrest : Bound e (replaceAt (.str value) v place) bs w) : Bound e v (b :: bs) w

theorem bindOne_ok {e : Env F} {v w : Value F} {b : Binding F} (h : bindOne e v b = .ok w) :
    ∃ marker value place, b.marker = some marker ∧ e.value (b.envName e) = some value ∧
      placeOf v b.path = some place ∧ valueAt v place = some (.str marker) ∧
      w = replaceAt (.str value) v place := by
  rw [bindOne] at h
  split at h
  · exact nomatch h
  · rename_i marker hmarker
    split_ifs at h
    split at h
    · exact nomatch h
    · rename_i value hvalue
      obtain ⟨place, hplace, hat, hw⟩ := bindLeaf_ok h
      exact ⟨marker, value, place, hmarker, hvalue, hplace, hat, hw⟩

theorem bindOne_error {e : Env F} {v : Value F} {b : Binding F} {err : BindError}
    (h : bindOne e v b = .error err) :
    (∃ reason, err = .runtimeError reason) ∨
      (err = .typeError ∧ ∃ s, walk v b.parents = some (.str s)) := by
  rw [bindOne] at h
  split at h
  · exact .inl ⟨_, (Except.error.inj h).symm⟩
  · split_ifs at h
    · exact .inl ⟨_, (Except.error.inj h).symm⟩
    · split at h
      · exact .inl ⟨_, (Except.error.inj h).symm⟩
      · exact bindLeaf_error h

theorem bound_of_foldlM {e : Env F} {bs : List (Binding F)} {v w : Value F}
    (h : bs.foldlM (bindOne e) v = .ok w) : Bound e v bs w := by
  induction bs generalizing v with
  | nil => exact Except.ok.inj h ▸ .nil v
  | cons b bs ih =>
    obtain ⟨v', hone, hrest⟩ := bind_eq_ok.mp h
    obtain ⟨marker, value, place, hmarker, hvalue, hplace, hat, rfl⟩ := bindOne_ok hone
    exact .cons hmarker hvalue hplace hat (ih hrest)

/-- The document that a binding finds is that of the bindings before it. -/
theorem error_of_foldlM {e : Env F} {bs : List (Binding F)} {v : Value F} {err : BindError}
    (h : bs.foldlM (bindOne e) v = .error err) :
    (∃ reason, err = .runtimeError reason) ∨ (err = .typeError ∧ ∃ done b rest v' s,
      bs = done ++ b :: rest ∧ Bound e v done v' ∧ walk v' b.parents = some (.str s)) := by
  induction bs generalizing v with
  | nil => exact nomatch h
  | cons b bs ih =>
    rcases bind_eq_error.mp h with hone | ⟨v', hone, hrest⟩
    · rcases bindOne_error hone with hreason | ⟨herr, s, hs⟩
      · exact .inl hreason
      · exact .inr ⟨herr, [], b, bs, v, s, rfl, .nil v, hs⟩
    · obtain ⟨marker, value, place, hmarker, hvalue, hplace, hat, rfl⟩ := bindOne_ok hone
      rcases ih hrest with hreason | ⟨herr, done, b', rest, v'', s, rfl, hdone, hs⟩
      · exact .inl hreason
      · exact .inr ⟨herr, b :: done, b', rest, v'', s, rfl,
          .cons hmarker hvalue hplace hat hdone, hs⟩

/-! ## Bindings of different places -/

theorem stepOf_of_label {v w : Value F} (h : label v = label w) (part : Part) :
    stepOf v part = stepOf w part := by
  cases v <;> cases w <;> simp only [label, Label.dict.injEq, Label.list.injEq, reduceCtorEq,
    Label.scalar.injEq, Value.bool.injEq, Value.int.injEq, Value.float.injEq, Value.str.injEq] at h
  all_goals first
    | rfl
    | (cases part <;> simp only [stepOf, h])

/-- A string in place of a string changes no other place's path. -/
theorem placeOf_replaceAt {v : Value F} {old new : Text} {place : Place}
    (h : valueAt v place = some (.str old)) (path : List Part) :
    placeOf (replaceAt (.str new) v place) path = placeOf v path := by
  induction place generalizing v path with
  | nil =>
    obtain rfl := Option.some.inj h
    cases path with
    | nil => rfl
    | cons part rest => rfl
  | cons s place ih =>
    obtain ⟨c, hc, hat⟩ := Option.bind_eq_some_iff.mp h
    cases path with
    | nil => rfl
    | cons part rest =>
      rw [replaceAt, hc]
      dsimp only
      rw [placeOf, placeOf, stepOf_of_label (label_setChild hc _)]
      refine congrArg _ (funext fun t => ?_)
      rw [child_setChild hc]
      split_ifs with ht
      · rw [ht, hc, Option.bind_some, Option.bind_some, ih hat]
      · rfl

theorem str_of_label {v w : Value F} {place : Place} {s : Text}
    (h : (valueAt w place).map label = (valueAt v place).map label)
    (hv : valueAt v place = some (.str s)) : valueAt w place = some (.str s) := by
  rw [hv] at h
  obtain ⟨x, hx, hlabel⟩ := Option.map_eq_some_iff.mp h
  rw [hx]
  cases x <;> simp_all [label]

/-- What a binding did at its place. -/
def Exact (e : Env F) (v w : Value F) (b : Binding F) (place : Place) : Prop :=
  placeOf v b.path = some place ∧ ∃ marker value, b.marker = some marker ∧
    e.value (b.envName e) = some value ∧ valueAt v place = some (.str marker) ∧
    valueAt w place = some (.str value)

theorem forall₂_imp_of_mem {α β : Type} {R S : α → β → Prop} {as : List α} {bs : List β}
    (h : List.Forall₂ R as bs) (himp : ∀ a b, b ∈ bs → R a b → S a b) : List.Forall₂ S as bs := by
  induction h with
  | nil => exact .nil
  | cons hab _ ih =>
    exact .cons (himp _ _ (List.mem_cons_self ..) hab)
      (ih fun a b hb => himp a b (List.mem_cons_of_mem _ hb))

/-- Bindings of different places replace the markers that were there, and nothing else. -/
theorem Bound.exact {e : Env F} {v w : Value F} {bs : List (Binding F)} (h : Bound e v bs w) :
    ∃ places, List.Forall₂ (fun b place => placeOf v b.path = some place) bs places ∧
      (places.Nodup → List.Forall₂ (Exact e v w) bs places ∧
        ∀ q, q ∉ places → (valueAt w q).map label = (valueAt v q).map label) := by
  induction h with
  | nil v => exact ⟨[], .nil, fun _ => ⟨.nil, fun _ _ => rfl⟩⟩
  | @cons v w b bs marker value place hmarker hvalue hplace hat hrest ih =>
    obtain ⟨places, hplaces, hexact⟩ := ih
    have hlabel {q : Place} (hq : q ≠ place) :
        (valueAt (replaceAt (.str value) v place) q).map label = (valueAt v q).map label :=
      label_replaceAt_other hat trivial trivial hq
    refine ⟨place :: places, .cons hplace ?_, fun hnodup => ?_⟩
    · exact hplaces.imp fun b p hp => (placeOf_replaceAt hat _).symm.trans hp
    · obtain ⟨hfresh, hnodup⟩ := List.nodup_cons.mp hnodup
      obtain ⟨hbs, hframe⟩ := hexact hnodup
      refine ⟨.cons ?_ ?_, fun q hq => ?_⟩
      · exact ⟨hplace, marker, value, hmarker, hvalue, hat,
          str_of_label (hframe place hfresh) (valueAt_replaceAt_self hat)⟩
      · refine forall₂_imp_of_mem hbs fun b' p hp hb' => ?_
        obtain ⟨hp', m, x, hm, hx, hmark, hval⟩ := hb'
        have hne : p ≠ place := fun h => hfresh (h ▸ hp)
        exact ⟨(placeOf_replaceAt hat _).symm.trans hp', m, x, hm, hx,
          str_of_label (hlabel hne).symm hmark, hval⟩
      · obtain ⟨hne, hq⟩ := not_or.mp fun h => hq (List.mem_cons.mpr h)
        exact (hframe q hq).trans (hlabel hne)

/-! ## Binding a body, as a whole -/

/-- The bindings that a configuration asks for. -/
def configured (e : Env F) (config : Dict F) : Except BindError (List (Binding F)) := do
  let (d, ds) ← bindingDicts (getSome config "runtime_body_parameter")
    ((config.get (chars "runtime_body_path_parameters")).getD (.list []))
  bindingsOf e d ds

theorem isStr_strip {s : Text} (h : IsStr s) : IsStr (Unicode.strip s) where
  range c hc := h.range c ((Substring.trim_infix _ s).subset hc)
  unpaired := h.unpaired.infix (Substring.trim_infix _ s)

theorem isStr_value {e : Env F} {name value : Text} (h : e.value name = some value) :
    IsStr value := by
  obtain ⟨hmap, -⟩ := Option.filter_eq_some_iff.mp h
  obtain ⟨v, hv, rfl⟩ := Option.map_eq_some_iff.mp hmap
  exact isStr_strip (e.environ_isStr name v hv)

theorem Bound.wf {e : Env F} {v w : Value F} {bs : List (Binding F)} (h : Bound e v bs w)
    (hv : v.Wf) : w.Wf := by
  induction h with
  | nil v => exact hv
  | cons hmarker hvalue hplace hat hrest ih => exact ih (wf_replaceAt hv hat (isStr_value hvalue))

theorem loadsObject_ok {I : Interp F} {raw : Bytes} {obj : Value F}
    (h : loadsObject I raw = .ok obj) : loadsBytes I raw = some obj := by
  rw [loadsObject] at h
  split at h
  · rename_i ms hms
    exact hms.trans (congrArg some (Except.ok.inj h))
  · exact nomatch h

/-- No binding is configured. -/
def Unbound (e : Env F) (config : Dict F) : Prop :=
  getSome config "runtime_body_parameter" = none ∧
    e.isFalsy ((config.get (chars "runtime_body_path_parameters")).getD (.list [])) = true

/-- What a call of `bind_runtime_body_parameter` comes to. -/
def BodyOutcome (I : Interp F) (e : Env F) (config : Dict F) (raw : Bytes) :
    Except BindError Bytes → Prop
  | .ok out => Unbound e config ∧ out = raw ∨
      ¬ Unbound e config ∧ ∃ obj bs w, loadsBytes I raw = some obj ∧
        configured e config = .ok bs ∧ Bound e obj bs w ∧
        (I.refuses (JsonCodec.dumps I.floats utf8Style w) = false → loadsBytes I out = some w)
  | .error (.runtimeError _) => ¬ Unbound e config
  | .error .typeError => ∃ obj bs done b rest v s, loadsBytes I raw = some obj ∧
      configured e config = .ok bs ∧ bs = done ++ b :: rest ∧ Bound e obj done v ∧
      walk v b.parents = some (.str s)
  | .error (.raised _) => ∃ obj bs w, loadsBytes I raw = some obj ∧
      configured e config = .ok bs ∧ Bound e obj bs w ∧
      (I.overflows .bindDumps w = true ∨ encodable w = false)

theorem bindingDicts_error {binding : Option (Value F)} {paths : Value F} {err : BindError}
    (h : bindingDicts binding paths = .error err) : ∃ reason, err = .runtimeError reason := by
  unfold bindingDicts at h
  split at h
  · split at h
    · exact nomatch h
    · exact ⟨_, (Except.error.inj h).symm⟩
  · split at h
    · exact nomatch h
    · exact ⟨_, (Except.error.inj h).symm⟩
  · exact ⟨_, (Except.error.inj h).symm⟩
  · exact ⟨_, (Except.error.inj h).symm⟩
  · exact ⟨_, (Except.error.inj h).symm⟩

theorem loadsObject_error {I : Interp F} {raw : Bytes} {err : BindError}
    (h : loadsObject I raw = .error err) : ∃ reason, err = .runtimeError reason := by
  rw [loadsObject] at h
  split at h
  · exact nomatch h
  · exact ⟨_, (Except.error.inj h).symm⟩

theorem mapM_pathBinding_error {paths : List (Dict F)} {err : BindError}
    (h : paths.mapM pathBinding = .error err) : ∃ reason, err = .runtimeError reason := by
  induction paths with
  | nil => exact nomatch h
  | cons d paths ih =>
    rw [List.mapM_cons] at h
    rcases bind_eq_error.mp h with h | ⟨b, -, h⟩
    · unfold pathBinding at h
      split at h
      · split at h
        · split at h
          · exact nomatch h
          · exact ⟨_, (Except.error.inj h).symm⟩
        · exact ⟨_, (Except.error.inj h).symm⟩
      · exact ⟨_, (Except.error.inj h).symm⟩
    · rcases bind_eq_error.mp h with h | ⟨_, -, h⟩
      · exact ih h
      · exact nomatch h

theorem bindingsOf_error {e : Env F} {binding : Option (Dict F)} {paths : List (Dict F)}
    {err : BindError} (h : bindingsOf e binding paths = .error err) :
    ∃ reason, err = .runtimeError reason := by
  cases binding with
  | none => exact mapM_pathBinding_error h
  | some d =>
    rcases bind_eq_error.mp h with h | ⟨b, -, h⟩
    · unfold fieldBinding at h
      dsimp only at h
      split_ifs at h
      exact ⟨_, (Except.error.inj h).symm⟩
    · rcases bind_eq_error.mp h with h | ⟨_, -, h⟩
      · exact mapM_pathBinding_error h
      · exact nomatch h

theorem outcome_of_runtimeError {I : Interp F} {e : Env F} {config : Dict F} {raw : Bytes}
    {err : BindError} (hbound : ¬ Unbound e config) (h : ∃ reason, err = .runtimeError reason) :
    BodyOutcome I e config raw (.error err) := by
  obtain ⟨reason, rfl⟩ := h
  exact hbound

theorem outcome_dumpsBound {I : Interp F} {e : Env F} {config : Dict F} {raw : Bytes}
    {obj w : Value F} {bs : List (Binding F)} (hsome : ¬ Unbound e config)
    (hobj : loadsBytes I raw = some obj) (hbs : configured e config = .ok bs)
    (hbound : Bound e obj bs w) : BodyOutcome I e config raw (dumpsBound I w) := by
  have hwf := hbound.wf (loadsBytes_wf hobj)
  rw [dumpsBound, dumpsBytes_eq]
  split_ifs with hdeep henc
  · exact ⟨obj, bs, w, hobj, hbs, hbound, .inl hdeep⟩
  · refine .inr ⟨hsome, obj, bs, w, hobj, hbs, hbound, fun hrefuses => ?_⟩
    rw [loadsBytes_encode I hwf henc, hrefuses]
    rfl
  · exact ⟨obj, bs, w, hobj, hbs, hbound, .inr (Bool.eq_false_iff.mpr henc)⟩

theorem bindRuntimeBodyParameter_outcome (I : Interp F) (e : Env F) (config : Dict F)
    (raw : Bytes) : BodyOutcome I e config raw (bindRuntimeBodyParameter I e config raw) := by
  rw [bindRuntimeBodyParameter]
  dsimp only
  split_ifs with hnone
  · exact .inl ⟨⟨Option.isNone_iff_eq_none.mp hnone.1, hnone.2⟩, rfl⟩
  have hsome : ¬ Unbound e config := fun h =>
    hnone ⟨Option.isNone_iff_eq_none.mpr h.1, h.2⟩
  cases hdicts : bindingDicts (getSome config "runtime_body_parameter")
      ((config.get (chars "runtime_body_path_parameters")).getD (.list [])) with
  | error err => exact outcome_of_runtimeError hsome (bindingDicts_error hdicts)
  | ok dicts =>
    cases hobj : loadsObject I raw with
    | error err => exact outcome_of_runtimeError hsome (loadsObject_error hobj)
    | ok obj =>
      have hloads := loadsObject_ok hobj
      cases hbs : bindingsOf e dicts.1 dicts.2 with
      | error err =>
        show BodyOutcome I e config raw (bindingsOf e dicts.1 dicts.2 >>= _)
        rw [hbs]
        exact outcome_of_runtimeError hsome (bindingsOf_error hbs)
      | ok bs =>
        have hconfigured : configured e config = .ok bs := by
          rw [configured, hdicts]
          exact hbs
        show BodyOutcome I e config raw (bindingsOf e dicts.1 dicts.2 >>= _)
        rw [hbs]
        show BodyOutcome I e config raw (bs.foldlM (bindOne e) obj >>= dumpsBound I)
        cases hw : bs.foldlM (bindOne e) obj with
        | error err =>
          rcases error_of_foldlM hw with hreason | ⟨rfl, done, b, rest, v, s, hsplit, hdone, hs⟩
          · exact outcome_of_runtimeError hsome hreason
          · exact ⟨obj, bs, done, b, rest, v, s, hloads, hconfigured, hsplit, hdone, hs⟩
        | ok w => exact outcome_dumpsBound hsome hloads hconfigured (bound_of_foldlM hw)

/-! ## The path of an endpoint -/

theorem quote_inj {a b : Text} (ha : encodes a = true) (hb : encodes b = true)
    (h : quote a = quote b) : a = b := by
  have hbytes := congrArg Percent.unquoteBytes h
  rw [Percent.unquoteBytes_quote, Percent.unquoteBytes_quote] at hbytes
  have hdecode := congrArg Utf8.decode hbytes
  rw [Utf8.decode_encode (encodes_iff.mp ha), Utf8.decode_encode (encodes_iff.mp hb)] at hdecode
  exact Option.some.inj hdecode

/-- A quoted value holds no separator, and it is no dot segment unless the value is one. -/
theorem quote_confined {value : Text} (h : encodes value = true) :
    (∀ c ∈ quote value, c ≠ 47 ∧ c ≠ 63 ∧ c ≠ 35) ∧
      (quote value = [46] → value = [46]) ∧ (quote value = [46, 46] → value = [46, 46]) := by
  refine ⟨fun c hc => ?_, fun hdot => ?_, fun hdots => ?_⟩
  · have := Percent.mem_quote hc
    rw [Percent.unreserved_iff] at this
    omega
  · exact quote_inj h (by decide) (hdot.trans (by decide))
  · exact quote_inj h (by decide) (hdots.trans (by decide))

theorem cutOnce_eq_some {placeholder path pre post : Text} (hne : placeholder ≠ [])
    (h : cutOnce placeholder path = some (pre, post)) : path = pre ++ (placeholder ++ post) := by
  obtain ⟨hcut, -⟩ := Option.filter_eq_some_iff.mp h
  exact (Substring.cut_eq_some hne hcut).1

/-- The segments of a path. -/
def segments (path : Text) : List Text := path.splitOn 47

/-- A segment with a quoted value in it is no dot segment, unless the value is one. -/
theorem value_of_dots {a b value : Text} (henc : encodes value = true) (hne : value ≠ [])
    (h : a ++ (quote value ++ b) = [46] ∨ a ++ (quote value ++ b) = [46, 46]) :
    value = [46] ∨ value = [46, 46] := by
  have hquote : quote value ≠ [] := fun hnil => hne (quote_inj henc rfl hnil)
  have hinfix : quote value <:+: [46, 46] := by
    have hself : quote value <:+: a ++ (quote value ++ b) :=
      ⟨a, b, List.append_assoc ..⟩
    rcases h with h | h
    · exact (h ▸ hself).trans ⟨[], [46], rfl⟩
    · exact h ▸ hself
  obtain ⟨-, hdot, hdots⟩ := quote_confined henc
  have hall : ∀ c ∈ quote value, c = 46 := fun c hc => by
    simpa using hinfix.subset hc
  have hlen : (quote value).length ≤ 2 := hinfix.length_le
  match hq : quote value with
  | [] => exact absurd hq hquote
  | [c] =>
    rw [hq] at hall
    exact .inl (hdot (by rw [hq, hall c (by simp)]))
  | [c, d] =>
    rw [hq] at hall
    exact .inr (hdots (by rw [hq, hall c (by simp), hall d (by simp)]))
  | _ :: _ :: _ :: _ =>
    rw [hq] at hlen
    simp at hlen

/-- A path that was bound keeps the segments of its template, except the one with the value. -/
structure Confined (template placeholder value path : Text) : Prop where
  occurs : ∃ pre post, template = pre ++ (placeholder ++ post) ∧
    path = pre ++ (quote value ++ post)
  segment : 47 ∉ placeholder → ∃ l a b r, segments template = l ++ (a ++ (placeholder ++ b)) :: r ∧
    segments path = l ++ (a ++ (quote value ++ b)) :: r ∧
    (a ++ (quote value ++ b) = [46] ∨ a ++ (quote value ++ b) = [46, 46] →
      value = [46] ∨ value = [46, 46])
  separators : ∀ c ∈ quote value, c ≠ 47 ∧ c ≠ 63 ∧ c ≠ 35
  faithful : Percent.unquoteBytes (quote value) = Utf8.encode value

theorem confined_of_cut {placeholder value template pre post : Text} (hne : placeholder ≠ [])
    (henc : encodes value = true) (hvalue : value ≠ [])
    (hcut : cutOnce placeholder template = some (pre, post)) :
    Confined template placeholder value (pre ++ (quote value ++ post)) := by
  have htemplate := cutOnce_eq_some hne hcut
  have hfree : 47 ∉ quote value := fun h => ((quote_confined henc).1 47 h).1 rfl
  refine ⟨⟨pre, post, htemplate, rfl⟩, fun hplaceholder => ?_, (quote_confined henc).1,
    Percent.unquoteBytes_quote value⟩
  obtain ⟨l, a, b, r, h⟩ := Substring.splitOn_middle 47 pre post
  refine ⟨l, a, b, r, ?_, h _ hfree, value_of_dots henc hvalue⟩
  rw [htemplate]
  exact h _ hplaceholder

/-- What a call of `resolve_named_endpoint` comes to. -/
def PathOutcome (e : Env F) (endpoints : List (Value F)) (context : Option (Dict F)) :
    Except BindError (Text × Dict F) → Prop
  | .ok (path, ep) => .dict ep ∈ endpoints ∧
      ((getSome ep "runtime_path_parameter" = none ∧ path = templateOf e ep) ∨
        ∃ binding v, getSome ep "runtime_path_parameter" = some (.dict binding) ∧
          pathValue e context (e.field binding "env" []) (e.field binding "context" []) =
            .ok (some v) ∧
          Confined (templateOf e ep) (e.field binding "placeholder" []) (Unicode.strip v) path)
  | .error err => (∃ reason, err = .runtimeError reason) ∨
      (err = .raised .unicodeEncodeError ∧ ∃ envName contextKey v,
        pathValue e context envName contextKey = .ok (some v) ∧ encodes (Unicode.strip v) = false)

theorem pathValue_error {e : Env F} {context : Option (Dict F)} {envName contextKey : Text}
    {err : BindError} (h : pathValue e context envName contextKey = .error err) :
    ∃ reason, err = .runtimeError reason := by
  unfold pathValue at h
  split_ifs at h
  split at h
  · exact ⟨_, (Except.error.inj h).symm⟩
  · split at h <;> exact nomatch h

theorem strip_getD_ne_nil {value : Option Text} (h : Unicode.strip (value.getD []) ≠ []) :
    ∃ v, value = some v ∧ Unicode.strip (value.getD []) = Unicode.strip v := by
  cases value with
  | none => exact absurd rfl h
  | some v => exact ⟨v, rfl, rfl⟩

theorem bindPath_ok {e : Env F} {context : Option (Dict F)} {template path : Text}
    {binding : Dict F} (h : bindPath e context template binding = .ok path) :
    ∃ v, pathValue e context (e.field binding "env" []) (e.field binding "context" []) =
        .ok (some v) ∧
      Confined template (e.field binding "placeholder" []) (Unicode.strip v) path := by
  rw [bindPath] at h
  dsimp only at h
  split_ifs at h with hspec
  split at h
  · exact nomatch h
  · rename_i pre post hcut
    obtain ⟨value, hvalue, h⟩ := bind_eq_ok.mp h
    split_ifs at h with hnil henc
    obtain ⟨v, rfl, hstrip⟩ := strip_getD_ne_nil hnil
    rw [hstrip] at h hnil henc
    rw [← Except.ok.inj h]
    exact ⟨v, hvalue, confined_of_cut (fun h => hspec (.inl h)) henc hnil hcut⟩

theorem bindPath_error {e : Env F} {context : Option (Dict F)} {template : Text}
    {binding : Dict F} {err : BindError} (h : bindPath e context template binding = .error err) :
    (∃ reason, err = .runtimeError reason) ∨
      (err = .raised .unicodeEncodeError ∧ ∃ envName contextKey v,
        pathValue e context envName contextKey = .ok (some v) ∧
          encodes (Unicode.strip v) = false) := by
  rw [bindPath] at h
  dsimp only at h
  split_ifs at h with hspec
  · exact .inl ⟨_, (Except.error.inj h).symm⟩
  · split at h
    · exact .inl ⟨_, (Except.error.inj h).symm⟩
    · rcases bind_eq_error.mp h with h | ⟨value, hvalue, h⟩
      · exact .inl (pathValue_error h)
      · split_ifs at h with hnil henc
        · exact .inl ⟨_, (Except.error.inj h).symm⟩
        · obtain ⟨v, rfl, hstrip⟩ := strip_getD_ne_nil hnil
          rw [hstrip] at henc
          exact .inr ⟨(Except.error.inj h).symm, _, _, v, hvalue, Bool.eq_false_iff.mpr henc⟩

theorem resolveNamedEndpoint_outcome (e : Env F) (endpoints : List (Value F))
    (context : Option (Dict F)) (name : Text) :
    PathOutcome e endpoints context (resolveNamedEndpoint e endpoints context name) := by
  rw [resolveNamedEndpoint]
  split
  · exact .inl ⟨_, rfl⟩
  · rename_i ep hep
    have hmem : .dict ep ∈ endpoints := by
      obtain ⟨v, hv, hdict⟩ := List.mem_filterMap.mp (List.mem_of_find?_eq_some hep)
      cases v with
      | dict ms => exact Option.some.inj hdict ▸ hv
      | _ => exact nomatch hdict
    split
    · rename_i hnone
      exact ⟨hmem, .inl ⟨hnone, rfl⟩⟩
    · rename_i binding hbinding
      cases hpath : bindPath e context (templateOf e ep) binding with
      | ok path =>
        obtain ⟨v, hv, hconfined⟩ := bindPath_ok hpath
        exact ⟨hmem, .inr ⟨binding, v, hbinding, hv, hconfined⟩⟩
      | error err => exact bindPath_error hpath
    · exact .inl ⟨_, rfl⟩

/-- The two functions on all inputs.  The bindings of a body replace the markers that they find, and
those of different places find the markers of the body that was given. -/
theorem runtime_binding_spec (I : Interp F) (e : Env F) :
    (∀ config raw, BodyOutcome I e config raw (bindRuntimeBodyParameter I e config raw)) ∧
    (∀ v bs w, Bound e v bs w →
      ∃ places, List.Forall₂ (fun b place => placeOf v b.path = some place) bs places ∧
        (places.Nodup → List.Forall₂ (Exact e v w) bs places ∧
          ∀ q, q ∉ places → (valueAt w q).map label = (valueAt v q).map label)) ∧
    ∀ endpoints context name,
      PathOutcome e endpoints context (resolveNamedEndpoint e endpoints context name) :=
  ⟨bindRuntimeBodyParameter_outcome I e, fun _ _ _ => Bound.exact,
    resolveNamedEndpoint_outcome e⟩

/-! ## A marker that a binding put there -/

/-- The variables `E` and `G`. -/
def twoVariables : Env JsonCodec.Special where
  str _ := []
  isZero _ := false
  environ name :=
    if name = chars "E" then some (chars "M") else if name = chars "G" then some (chars "..")
    else none
  environ_isStr name v h := by
    split_ifs at h
    all_goals
      obtain rfl := Option.some.inj h
      exact ⟨by decide, by decide⟩

/-- A binding at the key `a`. -/
def atKey (env marker : String) : Dict JsonCodec.Special :=
  [(chars "path", .list [.str (chars "a")]), (chars "env", .str (chars env)),
    (chars "marker", .str (chars marker))]

/-- The variable `E`, whose value is the marker of the variable `G`. -/
def chained : Dict JsonCodec.Special :=
  [(chars "runtime_body_path_parameters", .list [.dict (atKey "E" "N"), .dict (atKey "G" "M")])]

/-- `{"a": s}` -/
def single (s : String) : Value JsonCodec.Special := .dict [(chars "a", .str (chars s))]

/-- The text of a document. -/
def written (v : Value JsonCodec.Special) : Bytes :=
  Utf8.encode (JsonCodec.dumps plainInterp.floats utf8Style v)

/-- An endpoint `/a/{id}` whose parameter is the variable `G`. -/
def item : Dict JsonCodec.Special :=
  [(chars "name", .str (chars "item")), (chars "path", .str (chars "/a/{id}")),
    (chars "runtime_path_parameter", .dict
      [(chars "placeholder", .str (chars "{id}")), (chars "env", .str (chars "G"))])]

/-- The second binding finds what the first one wrote, and a value `..` is a segment of its own. -/
theorem marker_from_binding :
    bindRuntimeBodyParameter plainInterp twoVariables chained
        (written (single "N")) = .ok (written (single "..")) ∧
    loadsBytes plainInterp (written (single "N")) = some (single "N") ∧
    valueAt (single "N") [.key (chars "a")] = some (.str (chars "N")) ∧
    resolveNamedEndpoint twoVariables [.dict item] none (chars "item") =
      .ok (chars "/a/..", item) := by
  have hloads : loadsBytes plainInterp (written (single "N")) = some (single "N") :=
    loadsBytes_encode plainInterp
      ⟨by decide, ⟨by decide, by decide⟩, ⟨by decide, by decide⟩, trivial⟩ (by decide)
  have hobj : loadsObject plainInterp (written (single "N")) =
      .ok (single "N") := by
    rw [loadsObject, hloads]
    rfl
  refine ⟨?_, hloads, rfl, rfl⟩
  rw [bindRuntimeBodyParameter]
  dsimp only
  rw [if_neg (by decide), hobj]
  rfl

end RuntimeBinding

end AflNv
