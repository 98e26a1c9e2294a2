import AflNv.CBase
import AflNv.Lib.Machine
import Mathlib.Data.Fintype.Card

/-!
# The maxima of IJON

`src/afl-fuzz-ijon.c`: for each slot of an array the greatest value that the target has reported,
and in a file of its own the input that reached it.

* `updateMaxDynamic`, `loadExistingState` and `getInput` are the functions on a state with `n`
  slots and on its directory; `n` is `MAP_SIZE_IJON_ENTRIES` in the code.
* `step` is the machine: an update, or a restart on the same directory.
* `Counted` is the invariant of the counter, `Tracks` that of the files.
* `Careful` is the condition under which a step keeps `Tracks`.
* `ijon_maxima` says what holds in every run, and what in a run of careful steps.
-/

namespace AflNv.IjonMax

open AflNv.Lib

variable {n : ℕ}

/-! ## The state and its directory -/

/-- `ijon_min_state`: the maxima, the length of the input of each slot, and two counters. -/
structure MinState (n : ℕ) where
  maxMap : Fin n → ℕ
  lens : Fin n → ℕ
  numEntries : ℕ
  numUpdates : ℕ

/-- `ijon_input_info`; the slot names the file. -/
structure InputInfo (n : ℕ) where
  slotId : Fin n
  len : ℕ
  deriving DecidableEq

/-- The files of the slots. -/
abbrev Dir (n : ℕ) := Fin n → Option Bytes

/-- How far the write of an input comes. -/
inductive Write where
  | done
  | notOpened
  | short
  | notRenamed
  deriving DecidableEq

/-- `infos[i]` -/
def MinState.info (s : MinState n) (i : Fin n) : InputInfo n := ⟨i, s.lens i⟩

/-- `new_ijon_min_state` -/
def newMinState : MinState n := ⟨fun _ => 0, fun _ => 0, 0, 0⟩

/-- One slot of `ijon_load_existing_state`. -/
def loadSlot (dir : Dir n) (s : MinState n) (i : Fin n) : MinState n :=
  match dir i with
  | some (b :: data) =>
    { s with
      lens := Function.update s.lens i (b :: data).length
      maxMap := Function.update s.maxMap i 1
      numEntries := s.numEntries + 1 }
  | _ => s

/-- `ijon_load_existing_state` -/
def loadExistingState (dir : Dir n) (s : MinState n) : MinState n :=
  (List.finRange n).foldl (loadSlot dir) s

/-- The loop of `ijon_get_input`. -/
def scanInput (s : MinState n) : List (Fin n) → ℕ → Option (InputInfo n)
  | [], _ => none
  | i :: rest, rnd =>
    if 0 < s.maxMap i then
      if rnd = 0 then some (s.info i) else scanInput s rest (rnd - 1)
    else scanInput s rest rnd

/-- `ijon_get_input`, for what `random` returns. -/
def getInput (s : MinState n) (random : ℕ) : Option (InputInfo n) :=
  if s.numEntries = 0 then none
  else scanInput s (List.finRange n) (random % s.numEntries)

/-- `ijon_store_max_input`; what it writes to the history is not read. -/
def storeMaxInput (s : MinState n) (dir : Dir n) (i : Fin n) (data : Bytes) (write : Write) :
    MinState n × Dir n :=
  let s := { s with lens := Function.update s.lens i data.length }
  match write with
  | .notOpened | .short => (s, dir)
  | .notRenamed => ({ s with numUpdates := s.numUpdates + 1 }, dir)
  | .done => ({ s with numUpdates := s.numUpdates + 1 }, Function.update dir i (some data))

/-- One slot of `ijon_update_max_dynamic`. -/
def updateSlot (area : Fin n → ℕ) (data : Bytes) (writes : Fin n → Write)
    (w : MinState n × Dir n) (i : Fin n) : MinState n × Dir n :=
  let s := w.1
  if s.maxMap i < area i then
    let s := if s.maxMap i = 0 then { s with numEntries := s.numEntries + 1 } else s
    let s := { s with
      maxMap := Function.update s.maxMap i (area i)
      numUpdates := s.numUpdates + 1 }
    storeMaxInput s w.2 i data (writes i)
  else w

/-- `ijon_update_max_dynamic` -/
def updateMaxDynamic (area : Fin n → ℕ) (data : Bytes) (writes : Fin n → Write)
    (s : MinState n) (dir : Dir n) : MinState n × Dir n :=
  (List.finRange n).foldl (updateSlot area data writes) (s, dir)

/-! ## Runs -/

/-- The fuzzer, its directory, and what the target has reported for which input. -/
structure World (n : ℕ) where
  state : MinState n
  dir : Dir n
  history : List ((Fin n → ℕ) × Bytes)

inductive Event (n : ℕ) where
  | update (area : Fin n → ℕ) (data : Bytes) (writes : Fin n → Write)
  | restart

def step (w : World n) : Event n → Unit × World n
  | .update area data writes =>
    let r := updateMaxDynamic area data writes w.state w.dir
    ((), ⟨r.1, r.2, w.history ++ [(area, data)]⟩)
  | .restart => ((), { w with state := loadExistingState w.dir newMinState })

/-- A new state on an empty directory. -/
def World.start : World n := ⟨newMinState, fun _ => none, []⟩

/-- The greatest value reported for a slot. -/
def greatest (history : List ((Fin n → ℕ) × Bytes)) (i : Fin n) : ℕ :=
  (history.map fun r => r.1 i).foldr max 0

/-- The file of each slot holds an input that reached the greatest value. -/
def Best (w : World n) : Prop :=
  ∀ i, greatest w.history i ≠ 0 →
    ∃ r ∈ w.history, w.dir i = some r.2 ∧ r.1 i = greatest w.history i

/-- An input is stored for each maximum. -/
def Kept (w : World n) : Prop :=
  ∀ i, w.state.maxMap i ≠ 0 → ∃ r ∈ w.history, w.dir i = some r.2 ∧ w.state.maxMap i ≤ r.1 i

/-- What a restart makes of a maximum. -/
def placeholder (dir : Dir n) (i : Fin n) : ℕ :=
  match dir i with
  | some (_ :: _) => 1
  | _ => 0

/-- In an update, each value above the maximum of its slot reaches the greatest that was ever
reported, and its input is written. -/
def Careful (w : World n) : Event n → Prop
  | .update area _ writes => ∀ i, w.state.maxMap i < area i →
      greatest w.history i ≤ area i ∧ writes i = .done
  | .restart => True

/-! ## The slots one after the other -/

/-- A loop in which the step of each index changes what belongs to this index alone. -/
theorem foldl_local {σ ι α : Type*} [DecidableEq ι] {f : σ → ι → σ} {get : σ → ι → α}
    {g : ι → α → α} (hself : ∀ s i, get (f s i) i = g i (get s i))
    (hne : ∀ s i j, j ≠ i → get (f s i) j = get s j) {l : List ι} (hl : l.Nodup) (s : σ) (i : ι) :
    get (l.foldl f s) i = if i ∈ l then g i (get s i) else get s i := by
  induction l generalizing s with
  | nil => simp
  | cons j l ih =>
    obtain ⟨hj, hl⟩ := List.nodup_cons.mp hl
    rw [List.foldl_cons, ih hl]
    by_cases hij : i = j
    · subst hij
      rw [if_neg hj, if_pos List.mem_cons_self, hself]
    · rw [hne s j i hij]
      simp [List.mem_cons, hij]

/-- A slot of the state and its file. -/
def slotOf (w : MinState n × Dir n) (i : Fin n) : ℕ × Option Bytes := (w.1.maxMap i, w.2 i)

theorem storeMaxInput_spec (s : MinState n) (dir : Dir n) (i : Fin n) (data : Bytes)
    (write : Write) :
    (storeMaxInput s dir i data write).1.maxMap = s.maxMap ∧
    (storeMaxInput s dir i data write).1.numEntries = s.numEntries ∧
    (storeMaxInput s dir i data write).2 =
      if write = .done then Function.update dir i (some data) else dir := by
  cases write with
  | done => exact ⟨rfl, rfl, (if_pos rfl).symm⟩
  | notOpened => exact ⟨rfl, rfl, (if_neg nofun).symm⟩
  | short => exact ⟨rfl, rfl, (if_neg nofun).symm⟩
  | notRenamed => exact ⟨rfl, rfl, (if_neg nofun).symm⟩

/-- A slot whose value is above its maximum. -/
theorem updateSlot_spec {area : Fin n → ℕ} (data : Bytes) (writes : Fin n → Write)
    {w : MinState n × Dir n} {i : Fin n} (h : w.1.maxMap i < area i) :
    (updateSlot area data writes w i).1.maxMap = Function.update w.1.maxMap i (area i) ∧
    (updateSlot area data writes w i).1.numEntries =
      (if w.1.maxMap i = 0 then w.1.numEntries + 1 else w.1.numEntries) ∧
    (updateSlot area data writes w i).2 =
      if writes i = .done then Function.update w.2 i (some data) else w.2 := by
  rw [updateSlot, if_pos h]
  obtain ⟨hmax, hentries, hdir⟩ := storeMaxInput_spec { (if w.1.maxMap i = 0 then
    { w.1 with numEntries := w.1.numEntries + 1 } else w.1) with
      maxMap := Function.update (if w.1.maxMap i = 0 then
        { w.1 with numEntries := w.1.numEntries + 1 } else w.1).maxMap i (area i)
      numUpdates := (if w.1.maxMap i = 0 then
        { w.1 with numEntries := w.1.numEntries + 1 } else w.1).numUpdates + 1 }
    w.2 i data (writes i)
  refine ⟨hmax.trans ?_, hentries.trans ?_, hdir⟩
  · split_ifs <;> rfl
  · split_ifs <;> rfl

theorem slotOf_updateSlot (area : Fin n → ℕ) (data : Bytes) (writes : Fin n → Write)
    (w : MinState n × Dir n) (i j : Fin n) :
    slotOf (updateSlot area data writes w i) j =
      if j = i ∧ w.1.maxMap i < area i then
        (area i, if writes i = .done then some data else w.2 i)
      else slotOf w j := by
  by_cases hlt : w.1.maxMap i < area i
  · obtain ⟨hmax, -, hdir⟩ := updateSlot_spec data writes hlt
    have hfile : (updateSlot area data writes w i).2 j =
        if j = i ∧ writes i = .done then some data else w.2 j := by
      rw [hdir]
      by_cases hdone : writes i = .done
      · simp [hdone, Function.update_apply]
      · simp [hdone]
    rw [slotOf, slotOf, hmax, hfile, Function.update_apply]
    by_cases hj : j = i
    · simp [hj, hlt]
    · simp [hj]
  · rw [updateSlot, if_neg hlt, if_neg fun h => hlt h.2]

/-- What an update makes of a slot. -/
theorem slotOf_update (area : Fin n → ℕ) (data : Bytes) (writes : Fin n → Write)
    (s : MinState n) (dir : Dir n) (i : Fin n) :
    slotOf (updateMaxDynamic area data writes s dir) i =
      if s.maxMap i < area i then (area i, if writes i = .done then some data else dir i)
      else (s.maxMap i, dir i) := by
  have h := @foldl_local _ _ _ _ (updateSlot area data writes) slotOf
    (fun i v => if v.1 < area i then (area i, if writes i = .done then some data else v.2) else v)
    (fun w i => by
      rw [slotOf_updateSlot]
      simp only [true_and, slotOf]
      rfl)
    (fun w i j hj => by rw [slotOf_updateSlot, if_neg fun h => hj h.1])
    _ (List.nodup_finRange n) (s, dir) i
  rw [if_pos (List.mem_finRange i)] at h
  exact h

theorem maxMap_loadSlot (dir : Dir n) (s : MinState n) (i j : Fin n) :
    (loadSlot dir s i).maxMap j =
      if j = i ∧ placeholder dir i = 1 then 1 else s.maxMap j := by
  rw [loadSlot, placeholder]
  cases h : dir i with
  | none => simp
  | some data =>
    cases data with
    | nil => simp
    | cons b data => simp [Function.update_apply]

/-- What a restart makes of a slot. -/
theorem maxMap_load (dir : Dir n) (i : Fin n) :
    (loadExistingState dir newMinState).maxMap i = placeholder dir i := by
  have h := @foldl_local _ _ _ _ (loadSlot dir) MinState.maxMap
    (fun i m => if placeholder dir i = 1 then 1 else m)
    (fun s i => by simp [maxMap_loadSlot])
    (fun s i j hj => by rw [maxMap_loadSlot, if_neg fun h => hj h.1])
    _ (List.nodup_finRange n) newMinState i
  rw [if_pos (List.mem_finRange i)] at h
  rw [loadExistingState, h]
  have hcases : placeholder dir i = 1 ∨ placeholder dir i = 0 := by
    rw [placeholder]
    split
    · exact .inl rfl
    · exact .inr rfl
  rcases hcases with hone | hzero
  · rw [if_pos hone, hone]
  · rw [if_neg (by omega), hzero]
    rfl

/-! ## The counter -/

/-- The active slots. -/
def active (s : MinState n) : Finset (Fin n) := Finset.univ.filter fun i => s.maxMap i ≠ 0

def Counted (s : MinState n) : Prop := s.numEntries = (active s).card

/-- A slot that becomes active is one more. -/
theorem card_active_update {s t : MinState n} {i : Fin n} {v : ℕ}
    (hmax : t.maxMap = Function.update s.maxMap i v) (hv : v ≠ 0) :
    (active t).card = if s.maxMap i = 0 then (active s).card + 1 else (active s).card := by
  have hset : active t = insert i (active s) := by
    ext j
    simp only [active, Finset.mem_filter, Finset.mem_univ, true_and, Finset.mem_insert, hmax,
      Function.update_apply]
    by_cases hj : j = i
    · simp [hj, hv]
    · simp [hj]
  have hmem : i ∈ active s ↔ s.maxMap i ≠ 0 := by simp [active]
  rw [hset, Finset.card_insert_eq_ite]
  by_cases hi : s.maxMap i = 0
  · rw [if_neg (fun h => hmem.mp h hi), if_pos hi]
  · rw [if_pos (hmem.mpr hi), if_neg hi]

theorem counted_update (area : Fin n → ℕ) (data : Bytes) (writes : Fin n → Write)
    {s : MinState n} (dir : Dir n) (h : Counted s) :
    Counted (updateMaxDynamic area data writes s dir).1 := by
  have hslot {w : MinState n × Dir n} (hw : Counted w.1) (i : Fin n) :
      Counted (updateSlot area data writes w i).1 := by
    by_cases hlt : w.1.maxMap i < area i
    · obtain ⟨hmax, hentries, -⟩ := updateSlot_spec data writes hlt
      rw [Counted, hentries, card_active_update hmax (by omega), hw]
    · rw [updateSlot, if_neg hlt]
      exact hw
  have hfold : ∀ (l : List (Fin n)) (w : MinState n × Dir n), Counted w.1 →
      Counted (l.foldl (updateSlot area data writes) w).1 := by
    intro l
    induction l with
    | nil => exact fun w hw => hw
    | cons i l ih => exact fun w hw => ih _ (hslot hw i)
  exact hfold _ _ h

theorem counted_load (dir : Dir n) : Counted (loadExistingState dir newMinState) := by
  have hfold : ∀ (l : List (Fin n)) (s : MinState n), l.Nodup → (∀ i ∈ l, s.maxMap i = 0) →
      Counted s → Counted (l.foldl (loadSlot dir) s) := by
    intro l
    induction l with
    | nil => exact fun s _ _ hs => hs
    | cons i l ih =>
      intro s hl hzero hs
      obtain ⟨hi, hl⟩ := List.nodup_cons.mp hl
      obtain ⟨hzeroI, hzero⟩ := List.forall_mem_cons.mp hzero
      refine ih _ hl (fun j hj => ?_) ?_
      · have hne : j ≠ i := fun h => hi (h ▸ hj)
        rw [maxMap_loadSlot, if_neg fun h => hne h.1]
        exact hzero j hj
      · rw [loadSlot]
        split
        · rw [Counted, card_active_update rfl one_ne_zero, if_pos hzeroI, hs]
        · exact hs
  refine hfold _ _ (List.nodup_finRange n) (fun i _ => rfl) ?_
  simp [Counted, active, newMinState]

theorem counted_run (es : List (Event n)) :
    Counted (Machine.run step World.start es).state := by
  refine Machine.run_inv step (fun w => Counted w.state) (fun w e hw => ?_) ?_ es
  · cases e with
    | update area data writes => exact counted_update area data writes w.dir hw
    | restart => exact counted_load w.dir
  · simp [Counted, active, World.start, newMinState]

/-! ## The choice of an input -/

theorem scanInput_eq (s : MinState n) (l : List (Fin n)) (rnd : ℕ) :
    scanInput s l rnd = ((l.filter fun i => s.maxMap i ≠ 0)[rnd]?).map s.info := by
  induction l generalizing rnd with
  | nil => rfl
  | cons i l ih =>
    rw [scanInput]
    by_cases hi : s.maxMap i = 0
    · rw [if_neg (by omega), ih, List.filter_cons_of_neg (by simp [hi])]
    · rw [if_pos (by omega), List.filter_cons_of_pos (by simp [hi])]
      cases rnd with
      | zero => rfl
      | succ rnd => rw [if_neg (Nat.succ_ne_zero rnd), ih, Nat.add_sub_cancel]; rfl

/-- The active slots, in the order of the scan. -/
def activeList (s : MinState n) : List (Fin n) :=
  (List.finRange n).filter fun i => s.maxMap i ≠ 0

theorem length_activeList {s : MinState n} (h : Counted s) :
    (activeList s).length = s.numEntries := by
  have hset : (activeList s).toFinset = active s := by
    ext i
    simp [activeList, active]
  have hnodup : (activeList s).Nodup := (List.nodup_finRange n).filter _
  rw [h, ← hset, List.toFinset_card_of_nodup hnodup]

theorem getInput_eq {s : MinState n} (h : Counted s) (random : ℕ) :
    getInput s random = ((activeList s)[random % s.numEntries]?).map s.info := by
  rw [getInput, scanInput_eq]
  split_ifs with hzero
  · have hnil : activeList s = [] :=
      List.eq_nil_of_length_eq_zero ((length_activeList h).trans hzero)
    rw [hnil]
    rfl
  · rfl

/-- Every active slot is chosen for exactly one index. -/
structure Chooses (s : MinState n) : Prop where
  none_iff : ∀ random, getInput s random = none ↔ s.numEntries = 0
  active : ∀ random info, getInput s random = some info →
    ∃ i, s.maxMap i ≠ 0 ∧ info = s.info i
  unique : ∀ i, s.maxMap i ≠ 0 →
    ∃ k < s.numEntries, ∀ random, getInput s random = some (s.info i) ↔ random % s.numEntries = k

theorem chooses_of_counted {s : MinState n} (h : Counted s) : Chooses s := by
  have hlen := length_activeList h
  have hmem {i : Fin n} : i ∈ activeList s ↔ s.maxMap i ≠ 0 := by simp [activeList]
  have hinj {i j : Fin n} (hij : s.info i = s.info j) : i = j :=
    congrArg InputInfo.slotId hij
  constructor
  · intro random
    rw [getInput_eq h, Option.map_eq_none_iff, List.getElem?_eq_none_iff, hlen]
    constructor
    · intro hle
      by_contra hne
      exact absurd (Nat.mod_lt random (Nat.pos_of_ne_zero hne)) (by omega)
    · intro hzero
      omega
  · intro random info hinfo
    rw [getInput_eq h, Option.map_eq_some_iff] at hinfo
    obtain ⟨i, hi, rfl⟩ := hinfo
    exact ⟨i, hmem.mp (List.mem_of_getElem? hi), rfl⟩
  · intro i hi
    obtain ⟨k, hk⟩ := List.mem_iff_getElem?.mp (hmem.mpr hi)
    have hklt : k < s.numEntries := by
      rw [← hlen]
      exact (List.getElem?_eq_some_iff.mp hk).1
    refine ⟨k, hklt, fun random => ?_⟩
    rw [getInput_eq h, Option.map_eq_some_iff]
    constructor
    · rintro ⟨j, hj, hij⟩
      obtain rfl := hinj hij
      have hnodup : (activeList s).Nodup := (List.nodup_finRange n).filter _
      have hlt : random % s.numEntries < (activeList s).length :=
        hlen ▸ Nat.mod_lt random (by omega)
      exact (List.getElem?_inj hlt hnodup).mp (hj.trans hk.symm)
    · intro hrandom
      exact ⟨i, hrandom ▸ hk, rfl⟩

/-! ## The files -/

theorem greatest_concat (history : List ((Fin n → ℕ) × Bytes)) (r : (Fin n → ℕ) × Bytes)
    (i : Fin n) : greatest (history ++ [r]) i = max (greatest history i) (r.1 i) := by
  induction history with
  | nil => exact Nat.max_comm _ _
  | cons q history ih =>
    show max (q.1 i) (greatest (history ++ [r]) i) = max (max (q.1 i) (greatest history i)) (r.1 i)
    rw [ih, Nat.max_assoc]

/-- No maximum is above the greatest value, the file of a slot holds an input that reached it, and
without one there is no file. -/
structure Tracks (w : World n) : Prop where
  max_le : ∀ i, w.state.maxMap i ≤ greatest w.history i
  best : Best w
  empty : ∀ i, greatest w.history i = 0 → w.dir i = none

theorem tracks_start : Tracks (World.start : World n) where
  max_le _ := Nat.le_refl 0
  best _ h := absurd rfl h
  empty _ _ := rfl

theorem tracks_update {w : World n} (h : Tracks w) {area : Fin n → ℕ} {data : Bytes}
    {writes : Fin n → Write} (he : Careful w (.update area data writes)) :
    Tracks (step w (.update area data writes)).2 := by
  have hslot (i : Fin n) := slotOf_update area data writes w.state w.dir i
  have hgreatest (i : Fin n) : greatest (w.history ++ [(area, data)]) i =
      max (greatest w.history i) (area i) := greatest_concat _ _ i
  have hnew {i : Fin n} (hlt : w.state.maxMap i < area i) :
      slotOf (updateMaxDynamic area data writes w.state w.dir) i = (area i, some data) ∧
        max (greatest w.history i) (area i) = area i := by
    obtain ⟨hle, hdone⟩ := he i hlt
    rw [hslot, if_pos hlt, if_pos hdone]
    exact ⟨rfl, Nat.max_eq_right hle⟩
  have hold {i : Fin n} (hlt : ¬ w.state.maxMap i < area i) :
      slotOf (updateMaxDynamic area data writes w.state w.dir) i = (w.state.maxMap i, w.dir i) ∧
        max (greatest w.history i) (area i) = greatest w.history i := by
    have hle := h.max_le i
    rw [hslot, if_neg hlt]
    exact ⟨rfl, Nat.max_eq_left (by omega)⟩
  refine ⟨fun i => ?_, fun i hi => ?_, fun i hi => ?_⟩
  · show (slotOf (updateMaxDynamic area data writes w.state w.dir) i).1 ≤
      greatest (w.history ++ [(area, data)]) i
    rw [hgreatest]
    by_cases hlt : w.state.maxMap i < area i
    · rw [(hnew hlt).1, (hnew hlt).2]
    · rw [(hold hlt).1, (hold hlt).2]
      exact h.max_le i
  · show ∃ r ∈ w.history ++ [(area, data)],
      (slotOf (updateMaxDynamic area data writes w.state w.dir) i).2 = some r.2 ∧
        r.1 i = greatest (w.history ++ [(area, data)]) i
    have hi : greatest (w.history ++ [(area, data)]) i ≠ 0 := hi
    rw [hgreatest] at hi ⊢
    by_cases hlt : w.state.maxMap i < area i
    · rw [(hnew hlt).1, (hnew hlt).2]
      exact ⟨(area, data), List.mem_append_right _ (List.mem_singleton_self _), rfl, rfl⟩
    · rw [(hold hlt).2] at hi
      rw [(hold hlt).1, (hold hlt).2]
      obtain ⟨r, hr, hfile, hvalue⟩ := h.best i hi
      exact ⟨r, List.mem_append_left _ hr, hfile, hvalue⟩
  · show (slotOf (updateMaxDynamic area data writes w.state w.dir) i).2 = none
    have hi : greatest (w.history ++ [(area, data)]) i = 0 := hi
    rw [hgreatest] at hi
    by_cases hlt : w.state.maxMap i < area i
    · rw [(hnew hlt).2] at hi
      omega
    · rw [(hold hlt).1]
      exact h.empty i (by omega)

theorem tracks_restart {w : World n} (h : Tracks w) : Tracks (step w .restart).2 := by
  refine ⟨fun i => ?_, h.best, h.empty⟩
  show (loadExistingState w.dir newMinState).maxMap i ≤ greatest w.history i
  rw [maxMap_load, placeholder]
  split
  · rename_i b data hfile
    rw [Nat.one_le_iff_ne_zero]
    intro hzero
    rw [h.empty i hzero] at hfile
    cases hfile
  · exact Nat.zero_le _

/-- A careful step keeps the files. -/
theorem tracks_step {w : World n} (h : Tracks w) {e : Event n} (he : Careful w e) :
    Tracks (step w e).2 := by
  cases e with
  | update area data writes => exact tracks_update h he
  | restart => exact tracks_restart h

theorem kept_of_tracks {w : World n} (h : Tracks w) : Kept w := by
  intro i hi
  have hle := h.max_le i
  obtain ⟨r, hr, hfile, hvalue⟩ := h.best i (by omega)
  exact ⟨r, hr, hfile, by omega⟩

/-- A step lowers no maximum exactly if it is no restart that finds one above its placeholder. -/
theorem max_mono_iff (w : World n) (e : Event n) :
    (∀ i, w.state.maxMap i ≤ (step w e).2.state.maxMap i) ↔
      (e = .restart → ∀ i, w.state.maxMap i ≤ placeholder w.dir i) := by
  cases e with
  | update area data writes =>
    refine iff_of_true (fun i => ?_) nofun
    show w.state.maxMap i ≤ (slotOf (updateMaxDynamic area data writes w.state w.dir) i).1
    rw [slotOf_update]
    by_cases hlt : w.state.maxMap i < area i
    · rw [if_pos hlt]
      exact hlt.le
    · rw [if_neg hlt]
  | restart =>
    have hload (i : Fin n) : (step w .restart).2.state.maxMap i = placeholder w.dir i :=
      maxMap_load w.dir i
    simp only [hload, true_implies]

/-! ## The runs -/

/-- In every run the counter is right and every active slot is chosen for one index, and the only
step that lowers a maximum is a restart that finds one above its placeholder.  In a run of careful
steps the file of each slot holds an input that reached the greatest value, and an input is stored
for each maximum. -/
theorem ijon_maxima (es : List (Event n)) :
    let w := Machine.run step World.start es
    w.state.numEntries = (active w.state).card ∧ Chooses w.state ∧
    (∀ e, (∀ i, w.state.maxMap i ≤ (step w e).2.state.maxMap i) ↔
      (e = .restart → ∀ i, w.state.maxMap i ≤ placeholder w.dir i)) ∧
    (Machine.Meets step Careful World.start es → Best w ∧ Kept w) := by
  intro w
  have hcounted := counted_run es
  refine ⟨hcounted, chooses_of_counted hcounted, max_mono_iff w, fun hcareful => ?_⟩
  have htracks : Tracks w := Machine.run_inv_of_meets step Careful Tracks
    (fun _ _ hw he => tracks_step hw he) tracks_start hcareful
  exact ⟨htracks.best, kept_of_tracks htracks⟩

/-! ## A maximum that is lost -/

/-- The target reports a value for one slot. -/
def reports (i : Fin n) (v : ℕ) (j : Fin n) : ℕ := if j = i then v else 0

/-- An input that reached 100, and after a restart one that reached 2. -/
def lostEvents (i : Fin n) : List (Event n) :=
  [.update (reports i 100) [65] fun _ => .done, .restart,
    .update (reports i 2) [66] fun _ => .done]

/-- The world after an update from the start. -/
def updated (i : Fin n) (v : ℕ) (data : Bytes) (write : Write) : World n :=
  (step World.start (.update (reports i v) data fun _ => write)).2

theorem slotOf_updated (i : Fin n) (v : ℕ) (data : Bytes) (write : Write) :
    ((updated i v data write).state.maxMap i, (updated i v data write).dir i) =
      if 0 < v then (v, if write = .done then some data else none) else (0, none) := by
  have hvalue : reports i v i = v := if_pos rfl
  have h := slotOf_update (reports i v) data (fun _ => write) newMinState (fun _ => none) i
  rw [hvalue] at h
  exact h

theorem max_restarted (i : Fin n) :
    (step (updated i 100 [65] .done) .restart).2.state.maxMap i = 1 := by
  have hsaved := slotOf_updated i 100 [65] .done
  rw [if_pos (by decide), if_pos rfl, Prod.mk.injEq] at hsaved
  show (loadExistingState (updated i 100 [65] .done).dir newMinState).maxMap i = 1
  rw [maxMap_load, placeholder, hsaved.2]

theorem not_best_lostEvents (i : Fin n) :
    ¬ Best (Machine.run step World.start (lostEvents i)) := by
  intro hbest
  have hvalue (v : ℕ) : reports i v i = v := if_pos rfl
  have hlast : (Machine.run step World.start (lostEvents i)).dir i = some [66] := by
    show (slotOf (updateMaxDynamic (reports i 2) [66] (fun _ => .done)
      (step (updated i 100 [65] .done) .restart).2.state _) i).2 = some [66]
    rw [slotOf_update, max_restarted, hvalue, if_pos (by decide), if_pos rfl]
  have hhistory : (Machine.run step World.start (lostEvents i)).history =
      [(reports i 100, [65]), (reports i 2, [66])] := rfl
  have hgreatest : greatest (Machine.run step World.start (lostEvents i)).history i = 100 := by
    rw [hhistory]
    show max (reports i 100 i) (max (reports i 2 i) 0) = 100
    rw [hvalue, hvalue]
    decide
  obtain ⟨r, hr, hdata, hreached⟩ := hbest i (by rw [hgreatest]; decide)
  rw [hhistory] at hr
  rw [hgreatest] at hreached
  rw [hlast] at hdata
  rcases List.mem_pair.mp hr with rfl | rfl
  · cases hdata
  · exact absurd ((hvalue 2).symm.trans hreached) (by decide)

theorem not_kept_updated (i : Fin n) : ¬ Kept (updated i 5 [65] .notOpened) := by
  intro hkept
  have hfailed := slotOf_updated i 5 [65] .notOpened
  rw [if_pos (by decide), if_neg (by decide), Prod.mk.injEq] at hfailed
  obtain ⟨r, -, hdata, -⟩ := hkept i (by rw [hfailed.1]; decide)
  rw [hfailed.2] at hdata
  cases hdata

/-- With 512 slots: the file of the input that reached 100 is overwritten after a restart by one
that reached 2; the restart lowers the maximum; and after a failed write a maximum has no input. -/
theorem maximum_is_lost :
    ¬ Best (Machine.run step World.start (lostEvents (0 : Fin 512))) ∧
    ¬ (∀ i, (updated (0 : Fin 512) 100 [65] .done).state.maxMap i ≤
      (step (updated 0 100 [65] .done) .restart).2.state.maxMap i) ∧
    ¬ Kept (updated (0 : Fin 512) 5 [65] .notOpened) := by
  refine ⟨not_best_lostEvents 0, fun hmono => ?_, not_kept_updated 0⟩
  have hle := hmono 0
  have hsaved := slotOf_updated (0 : Fin 512) 100 [65] .done
  rw [if_pos (by decide), Prod.mk.injEq] at hsaved
  rw [hsaved.1, max_restarted] at hle
  omega

end AflNv.IjonMax
