import AflNv.CBase
import AflNv.Lib.JsonCodec
import AflNv.Lib.Utf8

/-!
# JSON in the Python modules

What `json.loads` and `json.dumps` do beyond the format.  A text that nests too deep or holds too
long a number is refused.  A recursion on a value that nests too deep raises.  So does encoding a
text that holds a surrogate, and `\ud800` is an escape that `json.loads` accepts.

* `dumpsBytes_eq` says when `json.dumps(v, ensure_ascii=False).encode("utf-8")` raises.
* `loadsBytes_encode` reads back what was written.
* `jsonDepth`, `jsonKeyCount` and `maxStringLenInJson` are the measures of `nv_body_valid.py` and
  of `integration/decision_engine.py`.
-/

namespace AflNv

open AflNv.Lib

namespace PythonJson

open AflNv.Lib.JsonCodec

/-- The exceptions of a recursion on a value and of the encoding of a text. -/
inductive Raised where
  | recursionError
  | unicodeEncodeError
  deriving DecidableEq

/-- The calls that recurse on a value. -/
inductive Call where
  | normalizeDumps
  | commonLimits
  | sampleDumps
  | ruleDumps
  | ruleDepth
  | flowableDepth
  | bindDumps
  | seedDumps
  deriving DecidableEq

/-- The interpreter: its floats, the texts that `json.loads` refuses though they are JSON, and the
values that are beyond its limits for a call. -/
structure Interp (F : Type) where
  floats : Floats F
  refuses : Text → Bool
  overflows : Call → Value F → Bool
  overflows_nil : ∀ call, overflows call (.dict []) = false

/-- An interpreter without limits, whose floats have names. -/
def plainInterp : Interp Special where
  floats := Special.floats
  refuses _ := false
  overflows _ _ := false
  overflows_nil _ := rfl

variable {F : Type}

/-- `json.loads(text)`; `none` is an exception. -/
def loads (I : Interp F) (text : Text) : Option (Value F) :=
  if I.refuses text then none else read I.floats text

/-- `json.loads(payload.decode("utf-8"))` -/
def loadsBytes (I : Interp F) (payload : Bytes) : Option (Value F) :=
  (Utf8.decode payload).bind (loads I)

/-- `ensure_ascii=False, separators=(",", ":")` -/
def utf8Style : Style := { ensureAscii := false, spaced := false }

/-- `ensure_ascii=False` -/
def plainStyle : Style := { ensureAscii := false, spaced := true }

/-- A text that UTF-8 encodes. -/
def encodes (text : Text) : Bool := text.all fun c => Utf8.Scalar c

/-- `text.encode("utf-8")` -/
def encode (text : Text) : Except Raised Bytes :=
  if encodes text then .ok (Utf8.encode text) else .error .unicodeEncodeError

/-- `json.dumps(v, ensure_ascii=False, separators=(",", ":")).encode("utf-8")` -/
def dumpsBytes (I : Interp F) (call : Call) (v : Value F) : Except Raised Bytes :=
  if I.overflows call v then .error .recursionError
  else encode (JsonCodec.dumps I.floats utf8Style v)

/-! ## Measures -/

mutual

def jsonDepth : Value F → ℕ → ℕ
  | .dict [], d => d + 1
  | .dict ms, d => depthMembers ms (d + 1)
  | .list [], d => d + 1
  | .list vs, d => depthItems vs (d + 1)
  | _, d => d + 1

def depthItems : List (Value F) → ℕ → ℕ
  | [], _ => 0
  | v :: vs, d => max (jsonDepth v d) (depthItems vs d)

def depthMembers : List (Text × Value F) → ℕ → ℕ
  | [], _ => 0
  | (_, v) :: ms, d => max (jsonDepth v d) (depthMembers ms d)

end

mutual

def jsonKeyCount : Value F → ℕ
  | .dict ms => ms.length + countMembers ms
  | .list vs => countItems vs
  | _ => 0

def countItems : List (Value F) → ℕ
  | [] => 0
  | v :: vs => jsonKeyCount v + countItems vs

def countMembers : List (Text × Value F) → ℕ
  | [] => 0
  | (_, v) :: ms => jsonKeyCount v + countMembers ms

end

mutual

def maxStringLenInJson : Value F → ℕ
  | .dict ms => maxLenMembers ms
  | .list vs => maxLenItems vs
  | .str s => s.length
  | _ => 0

def maxLenItems : List (Value F) → ℕ
  | [] => 0
  | v :: vs => max (maxStringLenInJson v) (maxLenItems vs)

def maxLenMembers : List (Text × Value F) → ℕ
  | [] => 0
  | (key, v) :: ms => max (max key.length (maxStringLenInJson v)) (maxLenMembers ms)

end

/-! ## Sequences of checks -/

theorem bind_eq_ok {ε α β : Type} {x : Except ε α} {f : α → Except ε β} {b : β} :
    x >>= f = .ok b ↔ ∃ a, x = .ok a ∧ f a = .ok b := by
  cases x with
  | error e => exact iff_of_false (fun h => nomatch h) fun ⟨_, h, _⟩ => nomatch h
  | ok a => exact ⟨fun h => ⟨a, rfl, h⟩, fun ⟨_, ha, h⟩ => Except.ok.inj ha ▸ h⟩

theorem bind_eq_error {ε α β : Type} {x : Except ε α} {f : α → Except ε β} {e : ε} :
    x >>= f = .error e ↔ x = .error e ∨ ∃ a, x = .ok a ∧ f a = .error e := by
  cases x with
  | error e' =>
    exact ⟨fun h => .inl (congrArg _ (Except.error.inj h)), fun h => h.elim
      (fun h => congrArg _ (Except.error.inj h)) fun ⟨_, h, _⟩ => nomatch h⟩
  | ok a =>
    exact ⟨fun h => .inr ⟨a, rfl, h⟩, fun h => h.elim (fun h => nomatch h)
      fun ⟨_, ha, h⟩ => Except.ok.inj ha ▸ h⟩

/-- The call does not raise. -/
def Returns {ε α : Type} (x : Except ε α) : Prop := ∃ a, x = .ok a

@[simp] theorem returns_ok {ε α : Type} (a : α) : Returns (.ok a : Except ε α) := ⟨a, rfl⟩

@[simp] theorem not_returns_error {ε α : Type} (e : ε) : ¬ Returns (.error e : Except ε α) :=
  fun ⟨_, h⟩ => nomatch h

theorem returns_bind {ε α β : Type} {x : Except ε α} {f : α → Except ε β} :
    Returns (x >>= f) ↔ ∃ a, x = .ok a ∧ Returns (f a) := by
  simp only [Returns, bind_eq_ok]
  exact ⟨fun ⟨b, a, ha, hb⟩ => ⟨a, ha, b, hb⟩, fun ⟨a, ha, b, hb⟩ => ⟨b, a, ha, hb⟩⟩

theorem returns_bind_iff {ε α β : Type} {x : Except ε α} {f : α → Except ε β}
    (h : ∀ a, Returns (f a)) : Returns (x >>= f) ↔ Returns x := by
  rw [returns_bind]
  exact ⟨fun ⟨a, ha, _⟩ => ⟨a, ha⟩, fun ⟨a, ha⟩ => ⟨a, ha, h a⟩⟩

/-- A loop that collects results goes through when each pass does. -/
theorem mapM_eq_ok {ε α β : Type} {f : α → Except ε β} {as : List α} {bs : List β} :
    as.mapM f = .ok bs ↔ List.Forall₂ (fun a b => f a = .ok b) as bs := by
  induction as generalizing bs with
  | nil => exact ⟨fun h => Except.ok.inj h ▸ .nil, fun h => by cases h; rfl⟩
  | cons a as ih =>
    rw [List.mapM_cons, bind_eq_ok]
    constructor
    · rintro ⟨b, hb, h⟩
      obtain ⟨bs', hbs, h⟩ := bind_eq_ok.mp h
      exact Except.ok.inj h ▸ .cons hb (ih.mp hbs)
    · intro h
      cases h with
      | cons hb hbs => exact ⟨_, hb, bind_eq_ok.mpr ⟨_, ih.mpr hbs, rfl⟩⟩

/-! ## Values that can be encoded -/

mutual

/-- No string of the value holds a surrogate. -/
def encodable : Value F → Bool
  | .str s => encodes s
  | .list vs => encodableItems vs
  | .dict ms => encodableMembers ms
  | _ => true

def encodableItems : List (Value F) → Bool
  | [] => true
  | v :: vs => encodable v && encodableItems vs

def encodableMembers : List (Text × Value F) → Bool
  | [] => true
  | (key, v) :: ms => encodes key && encodable v && encodableMembers ms

end

theorem encodableItems_iff {vs : List (Value F)} :
    encodableItems vs = true ↔ ∀ v ∈ vs, encodable v = true := by
  induction vs with
  | nil => exact iff_of_true rfl fun _ h => nomatch h
  | cons v vs ih => rw [encodableItems, Bool.and_eq_true, ih, List.forall_mem_cons]

theorem encodableMembers_iff {ms : List (Text × Value F)} :
    encodableMembers ms = true ↔ ∀ m ∈ ms, encodes m.1 = true ∧ encodable m.2 = true := by
  induction ms with
  | nil => exact iff_of_true rfl fun _ h => nomatch h
  | cons m ms ih =>
    rw [encodableMembers, Bool.and_eq_true, Bool.and_eq_true, ih, List.forall_mem_cons]

theorem encodes_nil : encodes [] = true := rfl

theorem encodes_cons (c : ℕ) (text : Text) :
    encodes (c :: text) = (decide (Utf8.Scalar c) && encodes text) := rfl

theorem encodes_append (a b : Text) : encodes (a ++ b) = (encodes a && encodes b) := by
  unfold encodes
  exact List.all_append

theorem encodes_iff {text : Text} : encodes text = true ↔ ∀ c ∈ text, Utf8.Scalar c := by
  simp [encodes]

theorem encodes_of_ascii {text : Text} (h : Ascii text) : encodes text = true :=
  encodes_iff.mpr fun c hc => .inl (by have := h c hc; omega)

theorem isStr_of_encodes {text : Text} (h : encodes text = true) : IsStr text where
  range c hc := by
    have hscalar := encodes_iff.mp h c hc
    unfold Utf8.Scalar at hscalar
    omega
  unpaired := by
    refine (List.pairwise_iff_forall_sublist.mpr fun {a b} hab hsurrogates => ?_).isChain
    have hscalar := encodes_iff.mp h a (hab.subset (List.mem_cons_self ..))
    have hhigh := isHigh_iff.mp hsurrogates.1
    unfold Utf8.Scalar at hscalar
    omega

theorem encodes_escape {w : Style} (hw : w.ensureAscii = false) (c : ℕ) :
    encodes (escape w c) = decide (Utf8.Scalar c) := by
  have hsmall : ∀ {d : ℕ}, d < 128 → decide (Utf8.Scalar d) = true := fun h =>
    decide_eq_true (.inl (by omega))
  have hverbatim : ¬ (w.ensureAscii = true) := fun h => Bool.false_ne_true (hw.symm.trans h)
  obtain ⟨e, he, hescape⟩ | ⟨hctrl, h9, hescape⟩ | ⟨htrue, -⟩ | ⟨-, -, -, -, hescape⟩ :=
    escape_cases w c
  · have hall : ∀ p ∈ shortEscapes, p.1 < 128 := by decide
    rw [hescape, hsmall (hall _ he), encodes_of_ascii (ascii_short he)]
  · have hc : c < 32 := hctrl.resolve_right fun h => hverbatim h.1
    rw [hescape, hsmall (by omega), encodes_of_ascii (ascii_unicodeEscape h9)]
  · exact absurd htrue hverbatim
  · rw [hescape, encodes_cons, encodes_nil, Bool.and_true]

theorem encodes_quote {w : Style} (hw : w.ensureAscii = false) (s : Text) :
    encodes (quote w s) = encodes s := by
  have hbody : encodes (s.flatMap (escape w)) = encodes s := by
    induction s with
    | nil => rfl
    | cons c s ih => rw [List.flatMap_cons, encodes_append, encodes_escape hw, ih, encodes_cons]
  have hquote : decide (Utf8.Scalar 34) = true := rfl
  rw [quote, encodes_cons, encodes_append, encodes_cons, encodes_nil, hbody, hquote, Bool.true_and,
    Bool.and_true, Bool.and_true]

theorem encodes_of_ws {ws : Text} (h : ∀ c ∈ ws, isWs c = true) : encodes ws = true := by
  refine encodes_of_ascii fun c hc => ?_
  have hws := h c hc
  simp only [isWs, Bool.or_eq_true, decide_eq_true_eq] at hws
  omega

mutual

theorem encodes_layout {w : Style} (hw : w.ensureAscii = false) (N : Floats F) (L : Layout) (d : ℕ)
    (v : Value F) : encodes (layout N w L d v) = encodable v := by
  match v with
  | .null | .bool true | .bool false | .list [] | .dict [] => rfl
  | .int i => exact encodes_of_ascii (ascii_number (showInt_isNumberChar i))
  | .float x => exact encodes_of_ascii (ascii_write N x)
  | .str s => exact encodes_quote hw s
  | .list (x :: xs) =>
    rw [layout, encodes_cons, encodes_append, encodes_append, encodes_of_ws (L.first_ws _),
      encodes_layout hw N L (d + 1) x, encodes_layoutItems hw N L d xs, encodable, encodableItems]
    rfl
  | .dict ((key, x) :: ms) =>
    rw [layout, encodes_cons, encodes_append, encodes_append, encodes_cons, encodes_append,
      encodes_append, encodes_of_ws (L.first_ws _), encodes_quote hw, encodes_of_ws L.colon_ws,
      encodes_layout hw N L (d + 1) x, encodes_layoutMembers hw N L d ms, encodable,
      encodableMembers, Bool.and_assoc]
    rfl

theorem encodes_layoutItems {w : Style} (hw : w.ensureAscii = false) (N : Floats F) (L : Layout)
    (d : ℕ) (vs : List (Value F)) : encodes (layoutItems N w L d vs) = encodableItems vs := by
  match vs with
  | [] =>
    rw [layoutItems, encodes_append, encodes_of_ws (L.last_ws d)]
    rfl
  | v :: vs =>
    rw [layoutItems, encodes_cons, encodes_append, encodes_append, encodes_of_ws (L.next_ws _),
      encodes_layout hw N L (d + 1) v, encodes_layoutItems hw N L d vs, encodableItems]
    rfl

theorem encodes_layoutMembers {w : Style} (hw : w.ensureAscii = false) (N : Floats F) (L : Layout)
    (d : ℕ) (ms : List (Text × Value F)) :
    encodes (layoutMembers N w L d ms) = encodableMembers ms := by
  match ms with
  | [] =>
    rw [layoutMembers, encodes_append, encodes_of_ws (L.last_ws d)]
    rfl
  | (key, v) :: ms =>
    rw [layoutMembers, encodes_cons, encodes_append, encodes_append, encodes_cons, encodes_append,
      encodes_append, encodes_of_ws (L.next_ws _), encodes_quote hw, encodes_of_ws L.colon_ws,
      encodes_layout hw N L (d + 1) v, encodes_layoutMembers hw N L d ms, encodableMembers,
      Bool.and_assoc]
    rfl

end

theorem encodes_dumps {w : Style} (hw : w.ensureAscii = false) (N : Floats F) (v : Value F) :
    encodes (JsonCodec.dumps N w v) = encodable v := by
  rw [← layout_oneLine N w 0, encodes_layout hw]

/-- Writing a value as bytes raises for a value that is too deep and for one with a surrogate. -/
theorem dumpsBytes_eq (I : Interp F) (call : Call) (v : Value F) :
    dumpsBytes I call v =
      if I.overflows call v then .error .recursionError
      else if encodable v then .ok (Utf8.encode (JsonCodec.dumps I.floats utf8Style v))
      else .error .unicodeEncodeError := by
  rw [dumpsBytes, encode, encodes_dumps (w := utf8Style) rfl]

theorem dumpsBytes_eq_ok {I : Interp F} {call : Call} {v : Value F} {body : Bytes} :
    dumpsBytes I call v = .ok body ↔ (I.overflows call v = false ∧ encodable v = true) ∧
      Utf8.encode (JsonCodec.dumps I.floats utf8Style v) = body := by
  rw [dumpsBytes_eq]
  split_ifs with hdeep henc <;> simp_all

/-- The value written is read back, if its text is not refused. -/
theorem loadsBytes_dumps (I : Interp F) {w : Style} (hw : w.ensureAscii = false) {v : Value F}
    (hwf : v.Wf) (henc : encodable v = true) :
    loadsBytes I (Utf8.encode (JsonCodec.dumps I.floats w v)) =
      if I.refuses (JsonCodec.dumps I.floats w v) then none else some v := by
  have hscalar := encodes_iff.mp ((encodes_dumps hw I.floats v).trans henc)
  rw [loadsBytes, Utf8.decode_encode hscalar]
  show loads I _ = _
  rw [loads, read_dumps I.floats w hwf]

theorem loadsBytes_encode (I : Interp F) {v : Value F} (hwf : v.Wf) (henc : encodable v = true) :
    loadsBytes I (Utf8.encode (JsonCodec.dumps I.floats utf8Style v)) =
      if I.refuses (JsonCodec.dumps I.floats utf8Style v) then none else some v :=
  loadsBytes_dumps I rfl hwf henc

/-- What was decoded holds no surrogate. -/
theorem plain_of_decode {payload : Bytes} {text : Text} (h : Utf8.decode payload = some text) :
    Plain text := by
  intro c hc
  have hscalar := (Utf8.decode_eq_some h).1 c hc
  unfold Utf8.Scalar at hscalar
  refine ⟨by omega, ?_, ?_⟩
  · rw [Bool.eq_false_iff, ne_eq, isHigh_iff]
    omega
  · rw [Bool.eq_false_iff, ne_eq, isLow_iff]
    omega

theorem loadsBytes_wf {I : Interp F} {payload : Bytes} {v : Value F}
    (h : loadsBytes I payload = some v) : v.Wf := by
  obtain ⟨text, htext, hloads⟩ := Option.bind_eq_some_iff.mp h
  unfold loads at hloads
  split_ifs at hloads
  exact read_wf I.floats (plain_of_decode htext) hloads

end PythonJson

end AflNv
