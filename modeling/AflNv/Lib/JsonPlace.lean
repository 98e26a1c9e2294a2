import AflNv.Lib.JsonCodec

/-!
# Places in a JSON value

A place is the list of the keys and indices that lead to a value.  The label of a place is what
stands there apart from what is in it.

* `valueAt` reads a place, `replaceAt` puts another value there.
* `valueAt_replaceAt_self` and `label_replaceAt_other`: what was put is at the place, and a scalar
  put in place of a scalar leaves the label of every other place as it was.
-/

namespace AflNv.Lib.JsonPlace

open AflNv.Lib.JsonCodec

variable {F : Type}

/-- A member of an object or an item of an array. -/
inductive Step where
  | key (k : Text)
  | item (n : ℕ)
  deriving DecidableEq

abbrev Place := List Step

def child : Value F → Step → Option (Value F)
  | .dict ms, .key k => ms.lookup k
  | .list vs, .item n => vs[n]?
  | _, _ => none

/-- The value with another child at a step. -/
def setChild (v : Value F) (s : Step) (c : Value F) : Value F :=
  match v, s with
  | .dict ms, .key k => .dict (setItem ms k c)
  | .list vs, .item n => .list (vs.set n c)
  | v, _ => v

def valueAt : Value F → Place → Option (Value F)
  | v, [] => some v
  | v, s :: place => (child v s).bind fun c => valueAt c place

def replaceAt (new : Value F) : Value F → Place → Value F
  | _, [] => new
  | v, s :: place =>
    match child v s with
    | some c => setChild v s (replaceAt new c place)
    | none => v

inductive Label (F : Type) where
  | scalar (v : Value F)
  | list (length : ℕ)
  | dict (keys : List Text)

def label : Value F → Label F
  | .list vs => .list vs.length
  | .dict ms => .dict (ms.map Prod.fst)
  | v => .scalar v

/-- Neither an object nor an array. -/
def IsScalar : Value F → Prop
  | .list _ | .dict _ => False
  | _ => True

/-! ## Children -/

theorem lookup_cons_if (key k : Text) (v : Value F) (ms : List (Text × Value F)) :
    ((k, v) :: ms).lookup key = if key = k then some v else ms.lookup key := by
  rw [List.lookup_cons]
  by_cases h : key = k
  · rw [if_pos h, beq_iff_eq.mpr h]
  · rw [if_neg h, beq_eq_false_iff_ne.mpr h]

theorem lookup_map_ite (ms : List (Text × Value F)) (k key : Text) (c : Value F) :
    (ms.map fun m => if m.1 = k then (k, c) else m).lookup key =
      if key = k then (ms.lookup k).map fun _ => c else ms.lookup key := by
  induction ms with
  | nil => simp
  | cons m ms ih =>
    obtain ⟨k', v⟩ := m
    rw [List.map_cons, lookup_cons_if, lookup_cons_if]
    by_cases hk : k' = k
    · rw [if_pos hk, lookup_cons_if, ih, hk]
      by_cases hkey : key = k
      · rw [if_pos hkey, if_pos hkey, if_pos rfl]
        rfl
      · rw [if_neg hkey, if_neg hkey, if_neg hkey, if_neg hkey]
    · rw [if_neg hk, lookup_cons_if, ih]
      by_cases hkey : key = k
      · subst hkey
        have hne : key ≠ k' := fun h => hk h.symm
        rw [if_neg hne, if_neg hne, if_pos rfl]
      · rw [if_neg hkey, if_neg hkey]

theorem any_of_lookup {ms : List (Text × Value F)} {k : Text} {v : Value F}
    (h : ms.lookup k = some v) : ms.any (·.1 = k) = true := by
  obtain ⟨l, r, rfl, -⟩ := List.lookup_eq_some_iff.mp h
  simp

theorem child_setChild {v c : Value F} {s : Step} (h : child v s = some c) (c' : Value F)
    (t : Step) : child (setChild v s c') t = if t = s then some c' else child v t := by
  match v, s, t with
  | .dict ms, .key k, .key key =>
    show (setItem ms k c').lookup key = _
    rw [setItem, if_pos (any_of_lookup h), lookup_map_ite]
    have hk : ms.lookup k = some c := h
    by_cases hkey : key = k
    · rw [if_pos hkey, if_pos (congrArg Step.key hkey), hk]
      rfl
    · rw [if_neg hkey, if_neg (fun h => hkey (Step.key.inj h))]
      rfl
  | .list vs, .item n, .item m =>
    show (vs.set n c')[m]? = _
    have hn : vs[n]? = some c := h
    have hlt : n < vs.length := (List.getElem?_eq_some_iff.mp hn).1
    rw [List.getElem?_set]
    by_cases hm : n = m
    · rw [if_pos hm, if_pos hlt, if_pos (congrArg Step.item hm.symm)]
    · rw [if_neg hm, if_neg (fun h => hm (Step.item.inj h).symm)]
      rfl
  | .dict ms, .key k, .item m => rfl
  | .list vs, .item n, .key key => rfl

theorem label_setChild {v c : Value F} {s : Step} (h : child v s = some c) (c' : Value F) :
    label (setChild v s c') = label v := by
  match v, s with
  | .dict ms, .key k =>
    show Label.dict ((setItem ms k c').map Prod.fst) = .dict (ms.map Prod.fst)
    rw [setItem, if_pos (any_of_lookup h), List.map_map]
    refine congrArg _ (List.map_congr_left fun m _ => ?_)
    show (if m.1 = k then (k, c') else m).1 = m.1
    split_ifs with hm
    · exact hm.symm
    · rfl
  | .list vs, .item n =>
    show Label.list (vs.set n c').length = .list vs.length
    rw [List.length_set]

theorem child_of_scalar {v : Value F} (h : IsScalar v) (s : Step) : child v s = none := by
  cases v <;> cases s <;> first | rfl | exact h.elim

/-! ## Places -/

theorem valueAt_replaceAt_self {v old new : Value F} {place : Place}
    (h : valueAt v place = some old) : valueAt (replaceAt new v place) place = some new := by
  induction place generalizing v with
  | nil => rfl
  | cons s place ih =>
    obtain ⟨c, hc, hat⟩ := Option.bind_eq_some_iff.mp h
    rw [replaceAt, hc, valueAt, child_setChild hc, if_pos rfl]
    exact ih hat

/-- What is below the place is below the value that was put there. -/
theorem valueAt_replaceAt_append {v old new : Value F} {place : Place}
    (h : valueAt v place = some old) (q : Place) :
    valueAt (replaceAt new v place) (place ++ q) = valueAt new q := by
  induction place generalizing v with
  | nil => rfl
  | cons s place ih =>
    obtain ⟨c, hc, hat⟩ := Option.bind_eq_some_iff.mp h
    rw [replaceAt, hc, List.cons_append, valueAt, child_setChild hc, if_pos rfl]
    exact ih hat

theorem valueAt_append {v c : Value F} {place : Place} (h : valueAt v place = some c) (q : Place) :
    valueAt v (place ++ q) = valueAt c q := by
  induction place generalizing v with
  | nil => exact Option.some.inj h ▸ rfl
  | cons s place ih =>
    obtain ⟨d, hd, hat⟩ := Option.bind_eq_some_iff.mp h
    rw [List.cons_append, valueAt, hd]
    exact ih hat

/-- A label that is not below the place stays. -/
theorem label_replaceAt_outside {v old new : Value F} {place q : Place}
    (h : valueAt v place = some old) (hq : ¬ place <+: q) :
    (valueAt (replaceAt new v place) q).map label = (valueAt v q).map label := by
  induction place generalizing v q with
  | nil => exact absurd (List.nil_prefix) hq
  | cons s place ih =>
    obtain ⟨c, hc, hat⟩ := Option.bind_eq_some_iff.mp h
    rw [replaceAt, hc]
    cases q with
    | nil => exact congrArg some (label_setChild hc _)
    | cons t q =>
      rw [valueAt, valueAt, child_setChild hc]
      by_cases ht : t = s
      · subst ht
        rw [if_pos rfl, hc]
        exact ih hat fun hq' => hq (List.cons_prefix_cons.mpr ⟨rfl, hq'⟩)
      · rw [if_neg ht]

/-- A scalar in place of a scalar changes no other label. -/
theorem label_replaceAt_other {v old new : Value F} {place q : Place}
    (h : valueAt v place = some old) (hold : IsScalar old) (hnew : IsScalar new) (hq : q ≠ place) :
    (valueAt (replaceAt new v place) q).map label = (valueAt v q).map label := by
  by_cases hpre : place <+: q
  · obtain ⟨rest, rfl⟩ := hpre
    cases rest with
    | nil => exact absurd (List.append_nil place) hq
    | cons t rest =>
      rw [valueAt_replaceAt_append h, valueAt_append h, valueAt, valueAt, child_of_scalar hnew,
        child_of_scalar hold]
  · exact label_replaceAt_outside h hpre

/-! ## Well-formed values -/

theorem wf_child {v c : Value F} {s : Step} (hv : v.Wf) (h : child v s = some c) : c.Wf := by
  match v, s with
  | .dict ms, .key k =>
    obtain ⟨l, r, rfl, -⟩ := List.lookup_eq_some_iff.mp h
    exact (wfMembers_iff.mp hv.2 (k, c) (List.mem_append_right l (List.mem_cons_self ..))).2
  | .list vs, .item n =>
    obtain ⟨hn, rfl⟩ := List.getElem?_eq_some_iff.mp h
    exact wfItems_iff.mp hv _ (List.getElem_mem hn)

theorem wf_setChild {v c c' : Value F} {s : Step} (hv : v.Wf) (h : child v s = some c)
    (hc' : c'.Wf) : (setChild v s c').Wf := by
  match v, s with
  | .dict ms, .key k =>
    obtain ⟨l, r, rfl, -⟩ := List.lookup_eq_some_iff.mp h
    have hk := (wfMembers_iff.mp hv.2 (k, c) (List.mem_append_right l (List.mem_cons_self ..))).1
    have hacc := WfAcc.setItem ⟨hv.1, hv.2⟩ hk hc'
    exact ⟨hacc.nodup, hacc.members⟩
  | .list vs, .item n =>
    refine wfItems_iff.mpr fun x hx => ?_
    rcases List.mem_or_eq_of_mem_set hx with hx | rfl
    · exact wfItems_iff.mp hv x hx
    · exact hc'

theorem wf_replaceAt {v old new : Value F} {place : Place} (hv : v.Wf)
    (h : valueAt v place = some old) (hnew : new.Wf) : (replaceAt new v place).Wf := by
  induction place generalizing v with
  | nil => exact hnew
  | cons s place ih =>
    obtain ⟨c, hc, hat⟩ := Option.bind_eq_some_iff.mp h
    rw [replaceAt, hc]
    exact wf_setChild hv hc (ih (wf_child hv hc) hat)

/-! ## Values from their labels -/

end AflNv.Lib.JsonPlace
