import AflNv.Lib.Machine
import AflNv.Lib.Unicode
import AflNv.PythonJson
import Mathlib.Data.Finset.Sort
import Mathlib.Data.List.ProdSigma

/-!
# The state probe

`update_state` (`nv_state_probe.py`) loads the set of the state keys seen so far from a file, adds
the key of one response and saves the set again.  The harness calls it once in a process, and
processes can run at the same time.

* `step` is the machine of the calls on one file: each loads at one step and saves at another.
* `Exclusive` is the condition on the steps: nothing is loaded while a call is about to save.
* `keys_le` counts the keys of the calls that the harness makes.
* `state_accounting` says that in every run of exclusive steps the reports count the keys, no key is
  lost, and the calls of `n` endpoints stay within the size that is reported.
-/

namespace AflNv.StateProbe

open AflNv.Lib AflNv.Lib.JsonCodec AflNv.PythonJson

variable {F : Type}

/-! ## Keys -/

/-- The arguments of `update_state`. -/
structure Call where
  method : Text
  path : Text
  respClass : Text
  bizCode : Text
  extraTag : Text
  deriving DecidableEq

/-- What `update_state` uses of Python: JSON, `str.lower`, and `hashlib.sha1(data).hexdigest()`. -/
structure Runtime (F : Type) where
  interp : Interp F
  lower : Text → Text
  sha1 : Bytes → Text
  sha1_ascii : ∀ data, Ascii (sha1 data)

/-- `word in s` -/
def isIn (word : String) (s : Text) : Bool := chars word <:+: s

/-- `bucket_biz_code` -/
def bucketBizCode (lower : Text → Text) (bizCode : Text) : Text :=
  let s := lower bizCode
  if isIn "auth" s || isIn "login" s then chars "auth_fail"
  else if isIn "perm" s || isIn "forbidden" s then chars "perm_denied"
  else if isIn "valid" s || isIn "param" s then chars "validation_err"
  else if isIn "dup" s || isIn "exist" s then chars "duplicate"
  else if Unicode.strip s = [] then chars "none"
  else chars "other"

/-- The key of a call. -/
def stateKey (lower : Text → Text) (c : Call) : Text :=
  c.method ++ [32] ++ c.path ++ [124] ++ c.respClass ++ [124] ++ bucketBizCode lower c.bizCode ++
    [124] ++ c.extraTag

/-- `key.encode("utf-8", errors="ignore")` -/
def encodeIgnore (key : Text) : Bytes := Utf8.encode (key.filter Utf8.Scalar)

/-- `keyh` -/
def keyHash (P : Runtime F) (c : Call) : Text := P.sha1 (encodeIgnore (stateKey P.lower c))

/-! ## The size of the state space -/

/-- `RESP_CLASS_COUNT` -/
def respClassCount : ℕ := 6

/-- `BIZ_BUCKETS` -/
def bizBuckets : List Text :=
  ["auth_fail", "perm_denied", "validation_err", "duplicate", "not_found", "server_error", "none",
    "other"].map chars

/-- The environment, with the default of `os.getenv`. -/
structure Env where
  nvNall : Text
  nvEndpoints : Text

/-- `int(text)`, if `text.isdigit()` and the number is positive; for texts of ASCII. -/
def positive (text : Text) : Option ℕ :=
  if isDigits text && decide (0 < JsonCodec.readNat text) then some (JsonCodec.readNat text)
  else none

/-- `calc_nall` -/
def calcNall (env : Env) : ℕ :=
  match positive (Unicode.strip env.nvNall) with
  | some n => n
  | none =>
    let nEp := (positive (Unicode.strip env.nvEndpoints)).getD 1
    max 1 (nEp * respClassCount * bizBuckets.length)

/-! ## One call -/

def hashable : Value F → Bool
  | .list _ | .dict _ => false
  | _ => true

def asString : Value F → Option Text
  | .str s => some s
  | _ => none

/-- `set(value)`, and the empty set where it raises; `none` is a set with an item that is no
string. -/
def setOf : Value F → Option (Finset Text)
  | .list vs => if vs.all hashable then (vs.mapM asString).map List.toFinset else some ∅
  | .dict ms => some (ms.map Prod.fst).toFinset
  | .str s => some (s.map fun c => [c]).toFinset
  | _ => some ∅

/-- `_load_db` -/
def loadDb (I : Interp F) (file : Option Bytes) : Option (Finset Text) :=
  match file.bind (loadsBytes I) with
  | some value => setOf value
  | none => some ∅

def dbValue (db : Finset Text) : Value F := .list (db.sort.map .str)

/-- `_save_db` -/
def saveDb (I : Interp F) (db : Finset Text) : Except Raised Bytes :=
  encode (JsonCodec.dumps I.floats plainStyle (dbValue db))

/-- What `update_state` returns. -/
structure Report where
  tsMs : ℕ
  ncovTotal : ℕ
  ncovDelta : ℕ
  nall : ℕ
  deriving DecidableEq

/-- What `update_state` makes of the set it has loaded. -/
def updateState (P : Runtime F) (env : Env) (c : Call) (now : ℕ) (db : Finset Text) :
    Report × Finset Text :=
  let before := db.card
  let db := insert (keyHash P c) db
  let after := db.card
  let delta := if before < after then 1 else 0
  (⟨now, after, delta, calcNall env⟩, db)

/-! ## The calls on one file -/

/-- Where a call stands. -/
inductive Point where
  | entered
  | loaded (db : Option (Finset Text))
  | returned
  | raised

structure Proc where
  call : Call
  point : Point

/-- The call has loaded the set and not saved it. -/
def Proc.Busy (p : Proc) : Prop := ∃ db, p.point = .loaded db

/-- The file, the calls, and what those that have returned report, in order. -/
structure World where
  file : Option Bytes
  procs : List Proc
  history : List (Call × Report)

inductive Event where
  | enter (c : Call)
  | load (i : ℕ)
  | save (i : ℕ) (now : ℕ)

variable (P : Runtime F) (env : Env)

/-- A call loads the set. -/
def load (w : World) (i : ℕ) : World :=
  match w.procs[i]? with
  | some ⟨c, .entered⟩ =>
    { w with procs := w.procs.set i ⟨c, .loaded (loadDb P.interp w.file)⟩ }
  | _ => w

/-- A call saves the set and returns.  `sorted` raises for strings beside other items, and writing
raises for a lone surrogate; the file stays then. -/
def save (w : World) (i now : ℕ) : World :=
  match w.procs[i]? with
  | some ⟨c, .loaded (some db)⟩ =>
    let (report, db) := updateState P env c now db
    match saveDb P.interp db with
    | .ok file => ⟨some file, w.procs.set i ⟨c, .returned⟩, w.history ++ [(c, report)]⟩
    | .error _ => { w with procs := w.procs.set i ⟨c, .raised⟩ }
  | some ⟨c, .loaded none⟩ => { w with procs := w.procs.set i ⟨c, .raised⟩ }
  | _ => w

def step (w : World) : Event → Unit × World
  | .enter c => ((), { w with procs := w.procs ++ [⟨c, .entered⟩] })
  | .load i => ((), load P w i)
  | .save i now => ((), save P env w i now)

/-- Nobody has called. -/
def World.start : World := ⟨none, [], []⟩

/-- A call loads the set only while no other call is about to save its own. -/
def Exclusive (w : World) : Event → Prop
  | .load _ => ∀ p ∈ w.procs, ¬ p.Busy
  | _ => True

/-! ## What is saved is loaded -/

theorem mapM_asString (ss : List Text) :
    (ss.map (Value.str (F := F))).mapM asString = some ss := by
  induction ss with
  | nil => rfl
  | cons s ss ih =>
    rw [List.map_cons, List.mapM_cons, ih]
    rfl

theorem setOf_str (ss : List Text) :
    setOf (.list (ss.map (Value.str (F := F)))) = some ss.toFinset := by
  have hall : (ss.map (Value.str (F := F))).all hashable = true := by
    rw [List.all_eq_true]
    intro v hv
    obtain ⟨s, -, rfl⟩ := List.mem_map.mp hv
    rfl
  rw [setOf, if_pos hall, mapM_asString]
  rfl

theorem wfItems_str {ss : List Text} (h : ∀ s ∈ ss, Ascii s) :
    WfItems (ss.map (Value.str (F := F))) := by
  induction ss with
  | nil => trivial
  | cons s ss ih =>
    obtain ⟨hs, hss⟩ := List.forall_mem_cons.mp h
    exact ⟨isStr_of_encodes (encodes_of_ascii hs), ih hss⟩

theorem encodableItems_str {ss : List Text} (h : ∀ s ∈ ss, Ascii s) :
    encodableItems (ss.map (Value.str (F := F))) = true := by
  rw [encodableItems_iff]
  intro v hv
  obtain ⟨s, hs, rfl⟩ := List.mem_map.mp hv
  exact encodes_of_ascii (h s hs)

/-- The limits of `json.loads` leave a list of strings alone. -/
def AcceptsLists (I : Interp F) : Prop :=
  ∀ db : Finset Text, I.refuses (JsonCodec.dumps I.floats plainStyle (dbValue db)) = false

/-- A set of ASCII strings is saved, and it is what the next call loads. -/
theorem loadDb_saveDb {I : Interp F} (hI : AcceptsLists I) {db : Finset Text}
    (hdb : ∀ s ∈ db, Ascii s) :
    ∃ file, saveDb I db = .ok file ∧ loadDb I (some file) = some db := by
  have hsorted : ∀ s ∈ db.sort, Ascii s := fun s hs => hdb s (Finset.mem_sort _ |>.mp hs)
  have hwf : (dbValue db : Value F).Wf := wfItems_str hsorted
  have henc : encodable (dbValue db : Value F) = true := encodableItems_str hsorted
  have hsave : saveDb I db =
      .ok (Utf8.encode (JsonCodec.dumps I.floats plainStyle (dbValue db))) := by
    rw [saveDb, encode, encodes_dumps rfl, henc, if_pos rfl]
  refine ⟨_, hsave, ?_⟩
  rw [loadDb, Option.bind_some, loadsBytes_dumps I (w := plainStyle) rfl hwf henc, hI,
    if_neg Bool.false_ne_true]
  show setOf (.list (db.sort.map .str)) = some db
  rw [setOf_str, Finset.sort_toFinset]

/-! ## The counts -/

variable {κ : Type} [DecidableEq κ]

/-- What a call reports after the calls before it, when `key` tells their keys apart. -/
structure CountsAt (key : Call → κ) (before : List (Call × Report)) (c : Call) (r : Report) :
    Prop where
  total : r.ncovTotal = ((before.map Prod.fst ++ [c]).map key).toFinset.card
  delta : r.ncovDelta = if key c ∈ before.map fun h => key h.1 then 0 else 1

/-- Every call reports the number of keys so far, and whether its own is new. -/
def Counts (key : Call → κ) (history : List (Call × Report)) : Prop :=
  ∀ (k : ℕ) (c : Call) (r : Report), history[k]? = some (c, r) →
    CountsAt key (history.take k) c r

theorem counts_concat {key : Call → κ} {history : List (Call × Report)} {c : Call} {r : Report}
    (h : Counts key history) (hr : CountsAt key history c r) :
    Counts key (history ++ [(c, r)]) := by
  intro k c' r' hk
  rcases Nat.lt_trichotomy k history.length with hlt | rfl | hgt
  · rw [List.getElem?_append_left hlt] at hk
    rw [List.take_append_of_le_length hlt.le]
    exact h k c' r' hk
  · rw [List.getElem?_concat_length] at hk
    cases hk
    rw [List.take_left]
    exact hr
  · rw [List.getElem?_eq_none (by
      rw [List.length_append, List.length_singleton]
      exact hgt)] at hk
    cases hk

/-- Keys that are told apart alike are counted alike. -/
theorem card_map_congr {μ : Type} [DecidableEq μ] {key : Call → κ} {key' : Call → μ}
    {calls : List Call} (h : ∀ c ∈ calls, ∀ d ∈ calls, key c = key d ↔ key' c = key' d) :
    (calls.map key).toFinset.card = (calls.map key').toFinset.card := by
  induction calls with
  | nil => rfl
  | cons c calls ih =>
    have hmem : key c ∈ calls.map key ↔ key' c ∈ calls.map key' := by
      simp only [List.mem_map]
      refine exists_congr fun d => and_congr_right fun hd => ?_
      exact h d (List.mem_cons_of_mem c hd) c List.mem_cons_self
    have hrest := ih fun d hd e he => h d (List.mem_cons_of_mem c hd) e (List.mem_cons_of_mem c he)
    rw [List.map_cons, List.map_cons, List.toFinset_cons, List.toFinset_cons,
      Finset.card_insert_eq_ite, Finset.card_insert_eq_ite, hrest]
    simp only [List.mem_toFinset, hmem]

theorem exists_report {history : List (Call × Report)} {k : ℕ} {h : Call × Report} {c : Call}
    (hmem : h ∈ history) (hc : c ∈ (history.take k).map Prod.fst ++ [h.1]) :
    ∃ r, (c, r) ∈ history := by
  rcases List.mem_append.mp hc with hc | hc
  · obtain ⟨⟨c, r⟩, hr, rfl⟩ := List.mem_map.mp hc
    exact ⟨r, List.mem_of_mem_take hr⟩
  · rw [List.mem_singleton.mp hc]
    exact ⟨h.2, hmem⟩

theorem counts_congr {μ : Type} [DecidableEq μ] {key : Call → κ} {key' : Call → μ}
    {history : List (Call × Report)}
    (hkey : ∀ a ∈ history, ∀ b ∈ history, key a.1 = key b.1 ↔ key' a.1 = key' b.1)
    (h : Counts key history) : Counts key' history := by
  intro k c r hk
  have hmem : (c, r) ∈ history := List.mem_of_getElem? hk
  obtain ⟨htotal, hdelta⟩ := h k c r hk
  constructor
  · rw [htotal]
    refine card_map_congr fun d hd e he => ?_
    obtain ⟨s, hs⟩ := exists_report hmem hd
    obtain ⟨t, ht⟩ := exists_report hmem he
    exact hkey (d, s) hs (e, t) ht
  · have hnew : (key c ∈ (history.take k).map fun h => key h.1) ↔
        key' c ∈ (history.take k).map fun h => key' h.1 := by
      simp only [List.mem_map]
      refine exists_congr fun a => and_congr_right fun ha => ?_
      exact hkey a (List.mem_of_mem_take ha) (c, r) hmem
    rw [hdelta]
    simp only [hnew]

/-! ## What a run keeps -/

/-- The hashes of the calls that have returned. -/
def seen (history : List (Call × Report)) : Finset Text :=
  (history.map fun h => keyHash P h.1).toFinset

/-- The file holds what has been seen, and so does the set of the only call that may be about to
save. -/
structure Inv (w : World) : Prop where
  file : loadDb P.interp w.file = some (seen P w.history)
  busy : ∀ (i : ℕ) (c : Call) (db : Option (Finset Text)), w.procs[i]? = some ⟨c, .loaded db⟩ →
    db = some (seen P w.history) ∧ ∀ (j : ℕ) (p : Proc), w.procs[j]? = some p → p.Busy → j = i
  counts : Counts (keyHash P) w.history
  nall : ∀ h ∈ w.history, h.2.nall = calcNall env

theorem inv_start : Inv P env World.start where
  file := rfl
  busy i c db h := by cases h
  counts k c r h := by cases h
  nall h hmem := absurd hmem List.not_mem_nil

variable {P env}

theorem seen_concat (history : List (Call × Report)) (c : Call) (r : Report) :
    seen P (history ++ [(c, r)]) = insert (keyHash P c) (seen P history) := by
  rw [seen, List.map_append, List.toFinset_append, Finset.union_comm]
  rfl

theorem seen_ascii (history : List (Call × Report)) : ∀ s ∈ seen P history, Ascii s := by
  intro s hs
  obtain ⟨h, -, rfl⟩ := List.mem_map.mp (List.mem_toFinset.mp hs)
  exact P.sha1_ascii _

/-- A call that has loaded what was seen reports the counts. -/
theorem countsAt_updateState (history : List (Call × Report)) (c : Call) (now : ℕ) :
    CountsAt (keyHash P) history c (updateState P env c now (seen P history)).1 := by
  have hset : (((history.map Prod.fst ++ [c]).map (keyHash P)).toFinset) =
      insert (keyHash P c) (seen P history) := by
    rw [← seen_concat history c ⟨0, 0, 0, 0⟩, seen, List.map_append, List.map_append, List.map_map]
    rfl
  constructor
  · rw [hset]
    rfl
  · show (if (seen P history).card < (insert (keyHash P c) (seen P history)).card then 1 else 0) = _
    have hmem : keyHash P c ∈ seen P history ↔
        keyHash P c ∈ history.map fun h => keyHash P h.1 := List.mem_toFinset
    by_cases h : keyHash P c ∈ seen P history
    · rw [Finset.insert_eq_of_mem h, if_neg (Nat.lt_irrefl _), if_pos (hmem.mp h)]
    · rw [Finset.card_insert_of_notMem h, if_pos (Nat.lt_succ_self _), if_neg (mt hmem.mpr h)]

theorem not_busy_entered (c : Call) : ¬ (⟨c, .entered⟩ : Proc).Busy := fun ⟨_, h⟩ => by cases h

theorem not_busy_returned (c : Call) : ¬ (⟨c, .returned⟩ : Proc).Busy := fun ⟨_, h⟩ => by cases h

theorem inv_enter {w : World} (h : Inv P env w) (c : Call) :
    Inv P env (step P env w (.enter c)).2 := by
  have hold {j : ℕ} {p : Proc} (hj : (w.procs ++ [⟨c, .entered⟩])[j]? = some p) (hbusy : p.Busy) :
      w.procs[j]? = some p := by
    rw [List.getElem?_append] at hj
    split_ifs at hj with hlt
    · exact hj
    · have hp := List.mem_singleton.mp (List.mem_of_getElem? hj)
      exact absurd (hp ▸ hbusy) (not_busy_entered c)
  refine ⟨h.file, fun i c' db hi => ?_, h.counts, h.nall⟩
  obtain ⟨hdb, honly⟩ := h.busy i c' db (hold hi ⟨db, rfl⟩)
  exact ⟨hdb, fun j p hj hbusy => honly j p (hold hj hbusy) hbusy⟩

theorem inv_load {w : World} (h : Inv P env w) {i : ℕ} (hquiet : ∀ p ∈ w.procs, ¬ p.Busy) :
    Inv P env (load P w i) := by
  unfold load
  split
  · rename_i c hi
    have honly {j : ℕ} {p : Proc}
        (hj : (w.procs.set i ⟨c, .loaded (loadDb P.interp w.file)⟩)[j]? = some p)
        (hbusy : p.Busy) : j = i ∧ p = ⟨c, .loaded (loadDb P.interp w.file)⟩ := by
      rw [List.getElem?_set] at hj
      split_ifs at hj with hij
      · exact ⟨hij.symm, (Option.some.inj hj).symm⟩
      · exact absurd hbusy (hquiet p (List.mem_of_getElem? hj))
    refine ⟨h.file, fun j c' db hj => ?_, h.counts, h.nall⟩
    obtain ⟨rfl, hp⟩ := honly hj (Exists.intro db rfl)
    cases hp
    exact ⟨h.file, fun k p hk hbusy => (honly hk hbusy).1⟩
  · exact h

/-- A call that has loaded what was seen saves it with its own key. -/
theorem save_eq (hI : AcceptsLists P.interp) {w : World} (h : Inv P env w) {i : ℕ} {c : Call}
    {db : Option (Finset Text)} (hi : w.procs[i]? = some ⟨c, .loaded db⟩) (now : ℕ) :
    ∃ file, loadDb P.interp (some file) = some (insert (keyHash P c) (seen P w.history)) ∧
      save P env w i now = ⟨some file, w.procs.set i ⟨c, .returned⟩,
        w.history ++ [(c, (updateState P env c now (seen P w.history)).1)]⟩ := by
  obtain ⟨rfl, -⟩ := h.busy i c db hi
  have hascii : ∀ s ∈ insert (keyHash P c) (seen P w.history), Ascii s := by
    intro s hs
    rcases Finset.mem_insert.mp hs with rfl | hs
    · exact P.sha1_ascii _
    · exact seen_ascii _ s hs
  obtain ⟨file, hsave, hload⟩ := loadDb_saveDb hI hascii
  refine ⟨file, hload, ?_⟩
  rw [save, hi]
  simp only [updateState, hsave]

theorem inv_save (hI : AcceptsLists P.interp) {w : World} (h : Inv P env w) (i now : ℕ) :
    Inv P env (save P env w i now) := by
  by_cases hi : ∃ c db, w.procs[i]? = some ⟨c, .loaded db⟩
  · obtain ⟨c, db, hi⟩ := hi
    obtain ⟨-, honly⟩ := h.busy i c db hi
    obtain ⟨file, hfile, hsave⟩ := save_eq hI h hi now
    have hquiet {j : ℕ} {p : Proc} (hj : (w.procs.set i ⟨c, .returned⟩)[j]? = some p) :
        ¬ p.Busy := by
      intro hbusy
      rw [List.getElem?_set] at hj
      split_ifs at hj with hij
      · cases hj
        exact not_busy_returned c hbusy
      · exact hij (honly j p hj hbusy).symm
    rw [hsave]
    refine ⟨?_, fun j c' db hj => absurd ⟨db, rfl⟩ (hquiet hj),
      counts_concat h.counts (countsAt_updateState _ c now), ?_⟩
    · rw [seen_concat]
      exact hfile
    · intro r hr
      rcases List.mem_append.mp hr with hr | hr
      · exact h.nall r hr
      · rw [List.mem_singleton.mp hr]
        rfl
  · have hsave : save P env w i now = w := by
      unfold save
      split
      · rename_i c db hloaded
        exact absurd ⟨c, _, hloaded⟩ hi
      · rename_i c hloaded
        exact absurd ⟨c, _, hloaded⟩ hi
      · rfl
    rw [hsave]
    exact h

/-- An exclusive step keeps the invariant. -/
theorem inv_step (hI : AcceptsLists P.interp) {w : World} (h : Inv P env w) {e : Event}
    (he : Exclusive w e) : Inv P env (step P env w e).2 := by
  cases e with
  | enter c => exact inv_enter h c
  | load i => exact inv_load h he
  | save i now => exact inv_save hI h i now

/-- In every run of exclusive steps the reports count the hashes and the file holds them all. -/
theorem inv_run (hI : AcceptsLists P.interp) {w : World} (hw : Inv P env w) {es : List Event}
    (h : Machine.Meets (step P env) Exclusive w es) :
    Inv P env (Machine.run (step P env) w es) :=
  Machine.run_inv_of_meets (step P env) Exclusive (Inv P env) (fun _ _ hw he => inv_step hI hw he)
    hw h

/-! ## Calls one after the other -/

/-- Calls that do not overlap, when `k` calls have been made before. -/
def sequenceFrom (k : ℕ) : List (Call × ℕ) → List Event
  | [] => []
  | (c, now) :: rest => .enter c :: .load k :: .save k now :: sequenceFrom (k + 1) rest

/-- A whole call of a world in which no other is busy. -/
theorem run_call (hI : AcceptsLists P.interp) {w : World} (h : Inv P env w) {k : ℕ}
    (hk : w.procs.length = k) (hquiet : ∀ p ∈ w.procs, ¬ p.Busy) (c : Call) (now : ℕ) :
    Machine.Meets (step P env) Exclusive w [.enter c, .load k, .save k now] ∧
    ∃ file report, Machine.run (step P env) w [.enter c, .load k, .save k now] =
      ⟨file, w.procs ++ [⟨c, .returned⟩], w.history ++ [(c, report)]⟩ := by
  have hset (a b : Proc) : (w.procs ++ [a]).set k b = w.procs ++ [b] := by
    rw [← hk, List.set_append_right _ _ (Nat.le_refl _), Nat.sub_self]
    rfl
  have hget (a : Proc) : (w.procs ++ [a])[k]? = some a := by
    rw [← hk]
    exact List.getElem?_concat_length
  have hquiet' : ∀ p ∈ w.procs ++ [⟨c, .entered⟩], ¬ p.Busy := by
    intro p hp
    rcases List.mem_append.mp hp with hp | hp
    · exact hquiet p hp
    · rw [List.mem_singleton.mp hp]
      exact not_busy_entered c
  have hload : load P { w with procs := w.procs ++ [⟨c, .entered⟩] } k =
      { w with procs := w.procs ++ [⟨c, .loaded (loadDb P.interp w.file)⟩] } := by
    simp only [load, hget, hset]
  have hloaded := inv_load (inv_enter h c) (i := k) hquiet'
  change Inv P env (load P { w with procs := w.procs ++ [⟨c, .entered⟩] } k) at hloaded
  rw [hload] at hloaded
  obtain ⟨file, -, hsave⟩ :=
    save_eq hI hloaded (hget ⟨c, .loaded (loadDb P.interp w.file)⟩) now
  refine ⟨⟨trivial, hquiet', trivial, trivial⟩, some file,
    (updateState P env c now (seen P w.history)).1, ?_⟩
  rw [Machine.run_cons, Machine.run_cons, Machine.run_cons, Machine.run_nil]
  show save P env (load P { w with procs := w.procs ++ [⟨c, .entered⟩] } k) k now = _
  rw [hload, hsave, hset]

/-- Calls one after the other are a run of exclusive steps, and all of them return. -/
theorem run_sequenceFrom (hI : AcceptsLists P.interp) (calls : List (Call × ℕ)) :
    ∀ (w : World) (k : ℕ), Inv P env w → w.procs.length = k → (∀ p ∈ w.procs, ¬ p.Busy) →
      Machine.Meets (step P env) Exclusive w (sequenceFrom k calls) ∧
      (Machine.run (step P env) w (sequenceFrom k calls)).history.map Prod.fst =
        w.history.map Prod.fst ++ calls.map Prod.fst := by
  induction calls with
  | nil => exact fun w k _ _ _ => ⟨trivial, (List.append_nil _).symm⟩
  | cons call rest ih =>
    intro w k hw hk hquiet
    obtain ⟨c, now⟩ := call
    obtain ⟨hmeets, file, report, hrun⟩ := run_call hI hw hk hquiet c now
    have hw' := inv_run hI hw hmeets
    rw [hrun] at hw'
    have hquiet' : ∀ p ∈ w.procs ++ [⟨c, .returned⟩], ¬ p.Busy := by
      intro p hp
      rcases List.mem_append.mp hp with hp | hp
      · exact hquiet p hp
      · rw [List.mem_singleton.mp hp]
        exact not_busy_returned c
    obtain ⟨hrest, hhistory⟩ := ih ⟨file, w.procs ++ [⟨c, .returned⟩], w.history ++ [(c, report)]⟩
      (k + 1) hw' (by rw [List.length_append, hk, List.length_singleton]) hquiet'
    have hsplit : sequenceFrom k ((c, now) :: rest) =
        [.enter c, .load k, .save k now] ++ sequenceFrom (k + 1) rest := rfl
    rw [hsplit, Machine.meets_append, Machine.run_append, hrun]
    refine ⟨⟨hmeets, hrest⟩, ?_⟩
    rw [hhistory, List.map_append, List.append_assoc]
    rfl

/-! ## How many keys there can be -/

/-- `classify` of the harness -/
def classify (code : ℤ) (timeout : Bool) : Text :=
  if timeout then chars "timeout"
  else if code = -2 then chars "conn_refused"
  else if 200 ≤ code ∧ code < 300 then chars "2xx"
  else if 300 ≤ code ∧ code < 400 then chars "3xx"
  else if 400 ≤ code ∧ code < 500 then chars "4xx"
  else if 500 ≤ code ∧ code < 600 then chars "5xx"
  else chars "other"

/-- The call that the harness makes for a response of an endpoint. -/
def harnessCall (endpoint : Text × Text) (code : ℤ) (timeout : Bool) (bizCode : Text) : Call :=
  ⟨endpoint.1, endpoint.2, classify code timeout, bizCode, []⟩

def respClasses : List Text :=
  ["timeout", "conn_refused", "2xx", "3xx", "4xx", "5xx", "other"].map chars

def bizLabels : List Text :=
  ["auth_fail", "perm_denied", "validation_err", "duplicate", "none", "other"].map chars

theorem classify_mem (code : ℤ) (timeout : Bool) : classify code timeout ∈ respClasses := by
  rw [classify]
  split_ifs <;> decide

theorem bucketBizCode_mem (lower : Text → Text) (bizCode : Text) :
    bucketBizCode lower bizCode ∈ bizLabels := by
  rw [bucketBizCode]
  split_ifs <;> decide

/-- The keys of the calls of some endpoints. -/
def keysOf (endpoints : List (Text × Text)) : List Text :=
  (endpoints ×ˢ respClasses ×ˢ bizLabels).map fun l =>
    l.1.1 ++ [32] ++ l.1.2 ++ [124] ++ l.2.1 ++ [124] ++ l.2.2 ++ [124] ++ []

theorem length_keysOf (endpoints : List (Text × Text)) :
    (keysOf endpoints).length = endpoints.length * 42 := by
  have hlen : respClasses.length = 7 ∧ bizLabels.length = 6 := by decide
  rw [keysOf, List.length_map, List.length_product, List.length_product, hlen.1, hlen.2]

theorem stateKey_mem (lower : Text → Text) {endpoints : List (Text × Text)}
    {endpoint : Text × Text} (h : endpoint ∈ endpoints) (code : ℤ) (timeout : Bool)
    (bizCode : Text) :
    stateKey lower (harnessCall endpoint code timeout bizCode) ∈ keysOf endpoints := by
  refine List.mem_map.mpr ⟨(endpoint, classify code timeout, bucketBizCode lower bizCode), ?_, rfl⟩
  exact List.mem_product.mpr ⟨h, List.mem_product.mpr ⟨classify_mem code timeout,
    bucketBizCode_mem lower bizCode⟩⟩

/-- `NV_ENDPOINTS` is the number of the endpoints, and `NV_NALL` is no positive number. -/
structure CountsEndpoints (env : Env) (n : ℕ) : Prop where
  endpoints : positive (Unicode.strip env.nvEndpoints) = some n
  nall : positive (Unicode.strip env.nvNall) = none

theorem calcNall_eq {n : ℕ} (h : CountsEndpoints env n) : calcNall env = max 1 (n * 6 * 8) := by
  rw [calcNall, h.nall, h.endpoints]
  rfl

/-- The reports on calls of `n` endpoints stay within the size. -/
theorem keys_le {lower : Text → Text} {history : List (Call × Report)}
    (hcounts : Counts (stateKey lower) history) {endpoints : List (Text × Text)}
    (henv : CountsEndpoints env endpoints.length)
    (hcalls : ∀ h ∈ history, ∃ endpoint ∈ endpoints, ∃ code timeout bizCode,
      h.1 = harnessCall endpoint code timeout bizCode)
    (hnall : ∀ h ∈ history, h.2.nall = calcNall env) :
    ∀ h ∈ history, h.2.ncovTotal ≤ h.2.nall := by
  intro h hmem
  obtain ⟨k, hk⟩ := List.mem_iff_getElem?.mp hmem
  have hsub : (((history.take k).map Prod.fst ++ [h.1]).map (stateKey lower)).toFinset ⊆
      (keysOf endpoints).toFinset := by
    intro key hkey
    obtain ⟨c, hc, rfl⟩ := List.mem_map.mp (List.mem_toFinset.mp hkey)
    obtain ⟨r, hr⟩ := exists_report hmem hc
    obtain ⟨endpoint, hendpoint, code, timeout, bizCode, rfl⟩ := hcalls _ hr
    exact List.mem_toFinset.mpr (stateKey_mem lower hendpoint code timeout bizCode)
  calc h.2.ncovTotal
      = (((history.take k).map Prod.fst ++ [h.1]).map (stateKey lower)).toFinset.card :=
        (hcounts k h.1 h.2 hk).total
    _ ≤ (keysOf endpoints).length := (Finset.card_le_card hsub).trans (List.toFinset_card_le _)
    _ = endpoints.length * 42 := length_keysOf endpoints
    _ ≤ h.2.nall := by
      rw [hnall h hmem, calcNall_eq henv]
      omega

/-! ## The accounting -/

theorem encodeIgnore_inj {a b : Text} (ha : encodes a = true) (hb : encodes b = true)
    (h : encodeIgnore a = encodeIgnore b) : a = b := by
  have hfilter {key : Text} (hkey : encodes key = true) : key.filter Utf8.Scalar = key :=
    List.filter_eq_self.mpr fun c hc => decide_eq_true (encodes_iff.mp hkey c hc)
  rw [encodeIgnore, encodeIgnore, hfilter ha, hfilter hb] at h
  have hdecode := congrArg Utf8.decode h
  rw [Utf8.decode_encode (encodes_iff.mp ha), Utf8.decode_encode (encodes_iff.mp hb)] at hdecode
  exact Option.some.inj hdecode

/-- The keys can be encoded, and no two of them have one digest. -/
structure Distinguished (P : Runtime F) (calls : List Call) : Prop where
  encodes : ∀ c ∈ calls, PythonJson.encodes (stateKey P.lower c) = true
  digest : ∀ c ∈ calls, ∀ d ∈ calls, keyHash P c = keyHash P d →
    encodeIgnore (stateKey P.lower c) = encodeIgnore (stateKey P.lower d)

theorem keyHash_eq_iff {calls : List Call} (h : Distinguished P calls) {c d : Call}
    (hc : c ∈ calls) (hd : d ∈ calls) :
    keyHash P c = keyHash P d ↔ stateKey P.lower c = stateKey P.lower d := by
  constructor
  · exact fun heq => encodeIgnore_inj (h.encodes c hc) (h.encodes d hd) (h.digest c hc d hd heq)
  · intro heq
    rw [keyHash, keyHash, heq]

/-- In every run whose loads happen while no other call is about to save, the reports count the keys
and whether each is new, no key is lost, and the calls of `n` endpoints stay within the size that is
reported.  Calls one after the other are such a run. -/
theorem state_accounting (hI : AcceptsLists P.interp) :
    (∀ es, Machine.Meets (step P env) Exclusive World.start es →
      let w := Machine.run (step P env) World.start es
      Distinguished P (w.history.map Prod.fst) →
        Counts (stateKey P.lower) w.history ∧
        (loadDb P.interp w.file = some (w.history.map fun h => keyHash P h.1).toFinset) ∧
        ∀ endpoints : List (Text × Text), CountsEndpoints env endpoints.length →
          (∀ h ∈ w.history, ∃ endpoint ∈ endpoints, ∃ code timeout bizCode,
            h.1 = harnessCall endpoint code timeout bizCode) →
          ∀ h ∈ w.history, h.2.ncovTotal ≤ h.2.nall) ∧
    ∀ calls, Machine.Meets (step P env) Exclusive World.start (sequenceFrom 0 calls) ∧
      (Machine.run (step P env) World.start (sequenceFrom 0 calls)).history.map Prod.fst =
        calls.map Prod.fst := by
  refine ⟨fun es h => ?_, fun calls => ?_⟩
  · intro w hdistinguished
    have hinv : Inv P env w := inv_run hI (inv_start P env) h
    have hcounts : Counts (stateKey P.lower) w.history := by
      refine counts_congr (fun a ha b hb => ?_) hinv.counts
      exact keyHash_eq_iff hdistinguished (List.mem_map_of_mem ha) (List.mem_map_of_mem hb)
    exact ⟨hcounts, hinv.file, fun endpoints henv hcalls => keys_le hcounts henv hcalls hinv.nall⟩
  · exact run_sequenceFrom hI calls World.start 0 (inv_start P env) rfl
      fun p hp => absurd hp List.not_mem_nil

/-! ## Two calls -/

/-- Calls for the paths `/a` and `/b`. -/
def callOf (path : String) : Call :=
  harnessCall (chars "GET", chars path) 200 false (chars "http_200_2xx")

/-- The digests of two keys; anything else has none. -/
def sampleSha1 (data : Bytes) : Text :=
  if data = ascii "GET /a|2xx|other|" then chars "95959c993a30db65def13df553d3b5f43a1af092"
  else if data = ascii "GET /b|2xx|other|" then chars "0506c144bc2a3c16c6b8373f8619fa9735e360d0"
  else []

def sampleRuntime : Runtime Special where
  interp := plainInterp
  lower := id
  sha1 := sampleSha1
  sha1_ascii data := by
    unfold Ascii sampleSha1
    split_ifs <;> decide

def sampleEnv : Env := ⟨[], chars "2"⟩

theorem stateKey_callOf :
    stateKey id (callOf "/a") = chars "GET /a|2xx|other|" ∧
    stateKey id (callOf "/b") = chars "GET /b|2xx|other|" := by decide

theorem keyHash_callOf :
    keyHash sampleRuntime (callOf "/a") = chars "95959c993a30db65def13df553d3b5f43a1af092" ∧
    keyHash sampleRuntime (callOf "/b") = chars "0506c144bc2a3c16c6b8373f8619fa9735e360d0" := by
  obtain ⟨ha, hb⟩ := stateKey_callOf
  have hlower : sampleRuntime.lower = id := rfl
  rw [keyHash, keyHash, hlower, ha, hb]
  decide

/-- Three calls one after the other; the last has the key of the first. -/
theorem state_accounting_three :
    let w := Machine.run (step sampleRuntime sampleEnv) World.start
      (sequenceFrom 0 [(callOf "/a", 1), (callOf "/b", 2), (callOf "/a", 3)])
    Counts (stateKey id) w.history ∧ ∀ h ∈ w.history, h.2.ncovTotal ≤ h.2.nall := by
  intro w
  obtain ⟨hruns, hsequence⟩ := @state_accounting _ sampleRuntime sampleEnv fun _ => rfl
  obtain ⟨hmeets, hhistory⟩ := hsequence [(callOf "/a", 1), (callOf "/b", 2), (callOf "/a", 3)]
  have hcall : ∀ c ∈ [callOf "/a", callOf "/b", callOf "/a"],
      c = callOf "/a" ∨ c = callOf "/b" := by
    intro c hc
    simp only [List.mem_cons, List.not_mem_nil, or_false] at hc
    tauto
  have hdistinguished : Distinguished sampleRuntime [callOf "/a", callOf "/b", callOf "/a"] := by
    obtain ⟨ha, hb⟩ := keyHash_callOf
    have hne : chars "95959c993a30db65def13df553d3b5f43a1af092" ≠
        chars "0506c144bc2a3c16c6b8373f8619fa9735e360d0" := by decide
    refine ⟨by decide, fun c hc d hd heq => ?_⟩
    rcases hcall c hc with rfl | rfl <;> rcases hcall d hd with rfl | rfl
    · rfl
    · exact absurd (ha.symm.trans (heq.trans hb)) hne
    · exact absurd (ha.symm.trans (heq.symm.trans hb)) hne
    · rfl
  obtain ⟨hcounts, -, hbound⟩ := hruns _ hmeets (hhistory ▸ hdistinguished)
  refine ⟨hcounts, hbound [(chars "GET", chars "/a"), (chars "GET", chars "/b")]
    ⟨by decide, by decide⟩ fun h hmem => ?_⟩
  have hmem' : h.1 ∈ [callOf "/a", callOf "/b", callOf "/a"] :=
    (congrArg (h.1 ∈ ·) hhistory).mp (List.mem_map_of_mem hmem)
  rcases hcall _ hmem' with hc | hc
  · exact ⟨_, List.mem_cons_self, 200, false, chars "http_200_2xx", hc⟩
  · exact ⟨_, List.mem_cons_of_mem _ List.mem_cons_self, 200, false, chars "http_200_2xx", hc⟩

/-- Two calls at the same time: the key of the first is lost. -/
theorem key_is_lost :
    let w := Machine.run (step sampleRuntime sampleEnv) World.start
      [.enter (callOf "/a"), .enter (callOf "/b"), .load 0, .load 1, .save 0 1, .save 1 2]
    w.history.map Prod.fst = [callOf "/a", callOf "/b"] ∧
    (∃ db, loadDb sampleRuntime.interp w.file = some db ∧
      keyHash sampleRuntime (callOf "/a") ∉ db) ∧
    ¬ Counts (stateKey id) w.history := by
  intro w
  obtain ⟨ha, hb⟩ := keyHash_callOf
  have hne : chars "95959c993a30db65def13df553d3b5f43a1af092" ≠
      chars "0506c144bc2a3c16c6b8373f8619fa9735e360d0" := by decide
  have hascii (path : String) :
      ∀ s ∈ insert (keyHash sampleRuntime (callOf path)) (∅ : Finset Text), Ascii s := by
    intro s hs
    rw [insert_empty_eq, Finset.mem_singleton] at hs
    rw [hs]
    exact sampleRuntime.sha1_ascii _
  obtain ⟨fileA, hsaveA, -⟩ := loadDb_saveDb (I := sampleRuntime.interp) (fun _ => rfl)
    (hascii "/a")
  obtain ⟨fileB, hsaveB, hload⟩ := loadDb_saveDb (I := sampleRuntime.interp) (fun _ => rfl)
    (hascii "/b")
  let reportOf (path : String) (now : ℕ) : Report :=
    (updateState sampleRuntime sampleEnv (callOf path) now ∅).1
  have hw : w = ⟨some fileB, [⟨callOf "/a", .returned⟩, ⟨callOf "/b", .returned⟩],
      [(callOf "/a", reportOf "/a" 1), (callOf "/b", reportOf "/b" 2)]⟩ := by
    show save sampleRuntime sampleEnv (save sampleRuntime sampleEnv ⟨none,
      [⟨callOf "/a", .loaded (some ∅)⟩, ⟨callOf "/b", .loaded (some ∅)⟩], []⟩ 0 1) 1 2 = _
    simp only [save, List.getElem?_cons_zero, List.getElem?_cons_succ, updateState, hsaveA, hsaveB,
      List.set_cons_zero, List.set_cons_succ, List.nil_append, List.cons_append]
    rfl
  rw [hw]
  refine ⟨rfl, ⟨_, hload, ?_⟩, fun hcounts => ?_⟩
  · rw [ha, hb]
    simpa using hne
  · have htotal := (hcounts 1 _ _ rfl).total
    obtain ⟨hkeyA, hkeyB⟩ := stateKey_callOf
    have hkeys : ([(callOf "/a", reportOf "/a" 1), (callOf "/b", reportOf "/b" 2)].take 1).map
        Prod.fst ++ [callOf "/b"] = [callOf "/a", callOf "/b"] := rfl
    rw [hkeys, List.map_cons, List.map_singleton, hkeyA, hkeyB] at htotal
    have hone : (reportOf "/b" 2).ncovTotal = 1 := rfl
    rw [hone] at htotal
    exact absurd htotal (by decide)

end AflNv.StateProbe
