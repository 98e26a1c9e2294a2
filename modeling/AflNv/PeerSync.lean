import AflNv.CFormat
import AflNv.Lib.Machine
import AflNv.Lib.Padded
import Mathlib.Data.List.Sort

/-!
# The exchange with a peer

`src/afl-fuzz-run.c`: the findings of another instance are imported from its queue directory.  How
far the import has come is one number in a file; the directory is read in the order of the names.

* `isKnownCase`, `checkSyncFuzzers` and `syncPeer`, the part of `sync_fuzzers` for one peer, are
  the functions of the source.
* `step` is the machine of the peer, the clock and the rounds; every round is one that comes to
  this peer.
* `Inv` is the invariant, `Careful` the condition on a round: the numbers have six digits, and a
  restart is noticed.
* `peer_import` says what is executed in a run of careful steps.
-/

namespace AflNv.PeerSync

open AflNv.Lib AflNv.Lib.Padded

def maxFile : ℕ := 1024 * 1024

def syncIdMaxLen : ℕ := 50

/-- `"id:%06u"` -/
def idName (k : ℕ) : Bytes := ascii "id:" ++ padded 6 (AflNv.showNat k)

/-- An entry of the directory. -/
structure Entry where
  name : Bytes
  size : ℕ
  deriving DecidableEq

/-- `is_known_case` -/
def isKnownCase (syncId name : Bytes) : Bool :=
  let comingFromMe := (syncId ++ ascii ",").take (syncIdMaxLen + 1)
  if name.length < 15 + 4 + 6 + comingFromMe.length then false
  else if (name.drop 10).take 4 ≠ ascii "sync" then false
  else if (name.drop 15).take comingFromMe.length ≠ comingFromMe then false
  else true

/-! ## The peer and the state of the exchange -/

/-- A file of the queue; its place is the number in its name. -/
structure QueueFile where
  suffix : Bytes
  size : ℕ

/-- `hidden` are the names that begin with a dot, without it.  `synced` and `maxId` are the files
`.synced/<peer>` and `.synced/<peer>.max`, `cmdline` is the time of that file of the peer.
`incarnation` counts the restarts of the peer, `fresh` says that no round came since the last, and
`log` is what has been executed of which incarnation. -/
structure World where
  clock : ℕ
  hidden : List Bytes
  queue : List QueueFile
  cmdline : Option ℕ
  synced : Option ℕ
  maxId : Option ℕ
  incarnation : ℕ
  fresh : Bool
  log : List (ℕ × Entry)

namespace World

/-- A peer that has not started yet. -/
def start (now : ℕ) (hidden : List Bytes) : World :=
  ⟨now + 1, hidden, [], none, none, none, 0, false, []⟩

/-- The files of the queue. -/
def files (w : World) : List Entry :=
  w.queue.mapIdx fun k f => ⟨idName k ++ f.suffix, f.size⟩

/-- `scandir` with `alphasort` -/
def scandir (w : World) : List Entry :=
  (w.hidden.map (fun rest => (⟨46 :: rest, 0⟩ : Entry)) ++ w.files).insertionSort
    fun a b => a.name ≤ b.name

/-- `next_min_accept` at the beginning of a round. -/
def next (w : World) : ℕ := w.synced.getD 0

/-- The file `.last` is written before its time is read: `last_mtime` is the time of the round. -/
def resets (w : World) : Prop := w.clock ≠ 0 ∧ ∃ t ∈ w.cmdline, w.clock ≤ t

instance (w : World) : Decidable w.resets :=
  inferInstanceAs (Decidable (_ ∧ ∃ t ∈ w.cmdline, _))

end World

/-- The part of `check_sync_fuzzers` for this peer. -/
def checkSyncFuzzers (w : World) : World :=
  if w.queue.length = 0 then w else { w with maxId := some (w.queue.length - 1) }

/-- The last loop of `sync_fuzzers`: what it executes, and `next_min_accept` behind it. -/
def importFrom (syncId : Bytes) (maxStartId : ℕ) : ℕ → List Entry → List Entry × ℕ
  | next, [] => ([], next)
  | next, e :: rest =>
    let next := (next + 1) % 2 ^ 32
    let r := importFrom syncId maxStartId next rest
    if e.size ≠ 0 ∧ e.size ≤ maxFile ∧ (next < maxStartId ∨ isKnownCase syncId e.name = false) then
      (e :: r.1, r.2)
    else r

/-- The part of `sync_fuzzers` for one peer. -/
def syncPeer (syncId : Bytes) (w : World) : World :=
  let names := w.scandir
  if names.length < 1 then w
  else if w.resets then { w with synced := some 0, fresh := false }
  else
    let maxStartId := w.maxId.getD 0
    let maxId := if maxStartId < w.next then none else w.maxId
    match names.dropWhile fun e => e.name.take 9 ≠ (idName w.next).take 9 with
    | [] => { w with maxId := maxId, fresh := false }
    | found =>
      let r := importFrom syncId maxStartId w.next found
      { w with
        synced := some r.2
        maxId := maxId
        fresh := false
        log := w.log ++ r.1.map fun e => (w.incarnation, e) }

/-! ## Runs -/

inductive Event where
  | tick (seconds : ℕ)
  | grow (file : QueueFile)
  | restart
  | check
  | round

def step (syncId : Bytes) (w : World) : Event → Unit × World
  | .tick seconds => ((), { w with clock := w.clock + seconds })
  | .grow file => ((), { w with queue := w.queue ++ [file] })
  | .restart =>
    ((), { w with
      queue := []
      cmdline := some w.clock
      incarnation := w.incarnation + 1
      fresh := true })
  | .check => ((), checkSyncFuzzers w)
  | .round => ((), syncPeer syncId w)

/-- A file that the import is about. -/
def Good (e : Entry) : Prop := e.size ≠ 0 ∧ e.size ≤ maxFile

/-- A file that a round has to execute. -/
def Wanted (syncId : Bytes) (e : Entry) : Prop := Good e ∧ isKnownCase syncId e.name = false

/-- Every number has six digits, and the first round after a restart comes in the same second as
the restart, or before anything was imported. -/
def Careful (w : World) : Event → Prop
  | .round => w.next < 10 ^ 6 ∧ w.queue.length ≤ 10 ^ 6 ∧
      (w.fresh = true → w.next = 0 ∨ w.cmdline = some w.clock)
  | _ => True

instance (e : Entry) : Decidable (Good e) := inferInstanceAs (Decidable (_ ∧ _))

instance (syncId : Bytes) (e : Entry) : Decidable (Wanted syncId e) :=
  inferInstanceAs (Decidable (_ ∧ _))

instance (w : World) : (e : Event) → Decidable (Careful w e)
  | .tick _ | .grow _ | .restart | .check => inferInstanceAs (Decidable True)
  | .round => inferInstanceAs (Decidable (_ ∧ _ ∧ (_ → _)))

/-! ## The names -/

theorem length_showNat {k : ℕ} (h : k < 10 ^ 6) : (AflNv.showNat k).length ≤ 6 := by
  rw [AflNv.showNat, List.length_map]
  exact (Nat.length_toDigits_le_iff (by decide) (by decide)).mpr h

theorem showNat_digits (k : ℕ) : ∀ b ∈ AflNv.showNat k, Numeral.isDigit b = true := by
  intro b hb
  obtain ⟨hlo, hhi⟩ := AflNv.showNat_digit hb
  rw [Numeral.isDigit, Bool.and_eq_true, decide_eq_true_eq, decide_eq_true_eq]
  exact ⟨UInt8.le_iff_toNat_le.mpr hlo, UInt8.le_iff_toNat_le.mpr hhi⟩

theorem length_idName {k : ℕ} (h : k < 10 ^ 6) : (idName k).length = 9 := by
  rw [idName, List.length_append, length_padded (length_showNat h)]
  rfl

theorem idName_inj {j k : ℕ} (h : idName j = idName k) : j = k := by
  have hvalue := congrArg Numeral.natOf (List.append_cancel_left h)
  rw [natOf_padded, natOf_padded] at hvalue
  calc j = Numeral.natOf (AflNv.showNat j) := (AflNv.readNat_showNat j).symm
    _ = Numeral.natOf (AflNv.showNat k) := hvalue
    _ = k := AflNv.readNat_showNat k

/-- Up to six digits the names are in the order of the numbers, whatever follows. -/
theorem idName_lt {j k : ℕ} (hjk : j < k) (hk : k < 10 ^ 6) (x y : Bytes) :
    idName j ++ x < idName k ++ y := by
  rw [idName, idName, List.append_assoc, List.append_assoc]
  apply List.append_left_lt
  apply padded_lt (showNat_digits j) (showNat_digits k) (length_showNat (by omega))
    (length_showNat hk)
  calc Numeral.natOf (AflNv.showNat j) = j := AflNv.readNat_showNat j
    _ < k := hjk
    _ = Numeral.natOf (AflNv.showNat k) := (AflNv.readNat_showNat k).symm

theorem take_idName {k : ℕ} (h : k < 10 ^ 6) (x : Bytes) : (idName k ++ x).take 9 = idName k :=
  List.take_left' (length_idName h)

/-- With seven digits the pattern is the name of another file. -/
example : (idName 1000000).take 9 = idName 100000 := by decide

/-! ## The directory -/

/-- What is not greater than any element of a sorted list is sorted before it. -/
theorem insertionSort_append {α : Type*} (r : α → α → Prop) [DecidableRel r] {a b : List α}
    (hb : b.Pairwise r) (hab : ∀ x ∈ a, ∀ y ∈ b, r x y) :
    (a ++ b).insertionSort r = a.insertionSort r ++ b := by
  have hinsert : ∀ (x : α) (l : List α), (∀ y ∈ b, r x y) →
      (l ++ b).orderedInsert r x = l.orderedInsert r x ++ b := by
    intro x l hx
    induction l with
    | nil =>
      cases b with
      | nil => rfl
      | cons y b => exact List.orderedInsert_cons_of_le r b (hx y List.mem_cons_self)
    | cons z l ih =>
      rw [List.cons_append, List.orderedInsert_cons, List.orderedInsert_cons]
      split
      · rfl
      · rw [ih, List.cons_append]
  induction a with
  | nil => exact hb.insertionSort_eq
  | cons x a ih =>
    obtain ⟨hx, ha⟩ := List.forall_mem_cons.mp hab
    rw [List.cons_append, List.insertionSort_cons, List.insertionSort_cons, ih ha, hinsert x _ hx]

/-- The first match of a pattern is at index `n`. -/
theorem dropWhile_eq_drop {α : Type*} {p : α → Bool} {l : List α} {n : ℕ}
    (hbefore : ∀ i (h : i < l.length), i < n → p l[i] = true)
    (hat : ∀ h : n < l.length, p l[n] = false) : l.dropWhile p = l.drop n := by
  induction l generalizing n with
  | nil => rw [List.dropWhile_nil, List.drop_nil]
  | cons x l ih =>
    cases n with
    | zero =>
      have hx := hat (Nat.succ_pos _)
      rw [List.getElem_cons_zero] at hx
      rw [List.dropWhile_cons, if_neg (by rw [hx]; exact Bool.false_ne_true), List.drop_zero]
    | succ n =>
      have hx := hbefore 0 (Nat.succ_pos _) (Nat.succ_pos n)
      rw [List.getElem_cons_zero] at hx
      rw [List.dropWhile_cons, if_pos hx, List.drop_succ_cons]
      apply ih
      · intro i hi hin
        exact hbefore (i + 1) (Nat.succ_lt_succ hi) (Nat.succ_lt_succ hin)
      · intro hn
        exact hat (Nat.succ_lt_succ hn)

namespace World

variable {w : World}

theorem length_files (w : World) : w.files.length = w.queue.length := List.length_mapIdx

theorem getElem_files {k : ℕ} (h : k < w.files.length) :
    (w.files[k]).name = idName k ++ (w.queue.get ⟨k, by rwa [← length_files]⟩).suffix := by
  simp [files]

/-- The files are in the order of their names. -/
theorem pairwise_files (h : w.queue.length ≤ 10 ^ 6) :
    w.files.Pairwise fun a b => a.name < b.name := by
  rw [List.pairwise_iff_getElem]
  intro i j hi hj hij
  rw [getElem_files, getElem_files]
  rw [length_files] at hj
  exact idName_lt hij (by omega) _ _

theorem nodup_files (h : w.queue.length ≤ 10 ^ 6) : w.files.Nodup :=
  (pairwise_files h).imp fun hlt heq => absurd (heq ▸ hlt) (List.lt_irrefl _)

theorem scandir_eq (h : w.queue.length ≤ 10 ^ 6) :
    w.scandir = (w.hidden.map fun rest => (⟨46 :: rest, 0⟩ : Entry)).insertionSort
      (fun a b => a.name ≤ b.name) ++ w.files := by
  apply insertionSort_append
  · exact (pairwise_files h).imp fun hlt => List.le_of_lt hlt
  · intro x hx y hy
    obtain ⟨rest, -, rfl⟩ := List.mem_map.mp hx
    obtain ⟨k, hk, rfl⟩ := List.getElem_of_mem hy
    rw [getElem_files]
    -- the dot comes before the letter
    apply List.le_of_lt
    show 46 :: rest < 105 :: _
    exact List.cons_lt_cons_iff.mpr (.inl (by decide))

/-- The loop over the names stops at the file with the number it looks for. -/
theorem found_eq (hnext : w.next < 10 ^ 6) (hqueue : w.queue.length ≤ 10 ^ 6) :
    (w.scandir.dropWhile fun e => e.name.take 9 ≠ (idName w.next).take 9) =
      w.files.drop w.next := by
  have hpattern : (idName w.next).take 9 = idName w.next := by
    have htake := take_idName hnext []
    rwa [List.append_nil] at htake
  rw [scandir_eq hqueue, hpattern, List.dropWhile_append_of_pos]
  · apply dropWhile_eq_drop
    · intro i hi hlt
      rw [getElem_files, take_idName (by omega), decide_eq_true_eq]
      intro heq
      exact absurd (idName_inj heq) (Nat.ne_of_lt hlt)
    · intro hlt
      rw [getElem_files, take_idName hnext]
      simp
  · intro e he
    rw [List.mem_insertionSort] at he
    obtain ⟨rest, -, rfl⟩ := List.mem_map.mp he
    rw [decide_eq_true_eq]
    intro heq
    have hhead := congrArg List.head? heq
    cases hhead

end World

/-! ## What a round does -/

section Rounds

variable {syncId : Bytes}

/-- The last loop executes files of its list in their order, none that it should not, and all that
it has to. -/
theorem importFrom_spec (syncId : Bytes) (maxStartId next : ℕ) (es : List Entry) :
    (importFrom syncId maxStartId next es).1.Sublist es ∧
    (∀ e ∈ (importFrom syncId maxStartId next es).1, Good e) ∧
    (∀ e ∈ es, Wanted syncId e → e ∈ (importFrom syncId maxStartId next es).1) := by
  induction es generalizing next with
  | nil =>
    exact ⟨List.Sublist.slnil, fun e he => absurd he List.not_mem_nil,
      fun e he => absurd he List.not_mem_nil⟩
  | cons e es ih =>
    obtain ⟨hsub, hgood, hwanted⟩ := ih ((next + 1) % 2 ^ 32)
    simp only [importFrom]
    split
    · next hruns =>
      refine ⟨hsub.cons_cons e, ?_, ?_⟩
      · rw [List.forall_mem_cons]
        exact ⟨⟨hruns.1, hruns.2.1⟩, hgood⟩
      · intro f hf hwf
        rcases List.mem_cons.mp hf with heq | hf
        · rw [heq]
          exact List.mem_cons_self
        · exact List.mem_cons_of_mem e (hwanted f hf hwf)
    · next hskips =>
      refine ⟨hsub.cons e, hgood, ?_⟩
      intro f hf hwf
      rcases List.mem_cons.mp hf with heq | hf
      · rw [heq] at hwf
        exact absurd ⟨hwf.1.1, hwf.1.2, .inr hwf.2⟩ hskips
      · exact hwanted f hf hwf

/-- It counts every file. -/
theorem importFrom_next (syncId : Bytes) (maxStartId : ℕ) {next : ℕ} {es : List Entry}
    (h : next + es.length < 2 ^ 32) :
    (importFrom syncId maxStartId next es).2 = next + es.length := by
  induction es generalizing next with
  | nil => rfl
  | cons e es ih =>
    rw [List.length_cons] at h ⊢
    have hwrap : (next + 1) % 2 ^ 32 = next + 1 := Nat.mod_eq_of_lt (by omega)
    have hrest := @ih (next + 1) (by omega)
    simp only [importFrom, hwrap]
    split
    · show (importFrom syncId maxStartId (next + 1) es).2 = _
      omega
    · omega

/-- The four outcomes of a round whose numbers have six digits. -/
theorem syncPeer_cases (syncId : Bytes) {w : World} (hnext : w.next < 10 ^ 6)
    (hqueue : w.queue.length ≤ 10 ^ 6) :
    (w.files = [] ∧ syncPeer syncId w = w) ∨
    (w.resets ∧ syncPeer syncId w = { w with synced := some 0, fresh := false }) ∨
    (¬ w.resets ∧ w.queue.length ≤ w.next ∧
      ∃ maxId, syncPeer syncId w = { w with maxId := maxId, fresh := false }) ∨
    (¬ w.resets ∧ w.next < w.queue.length ∧ ∃ (maxId : Option ℕ) (ran : List Entry),
      ran.Sublist (w.files.drop w.next) ∧ (∀ e ∈ ran, Good e) ∧
      (∀ e ∈ w.files.drop w.next, Wanted syncId e → e ∈ ran) ∧
      syncPeer syncId w = { w with
        synced := some w.queue.length
        maxId := maxId
        fresh := false
        log := w.log ++ ran.map fun e => (w.incarnation, e) }) := by
  by_cases hempty : w.scandir.length < 1
  · have hfiles : w.files = [] := by
      rw [World.scandir_eq hqueue, List.length_append] at hempty
      exact List.length_eq_zero_iff.mp (by omega)
    exact .inl ⟨hfiles, by rw [syncPeer, if_pos hempty]⟩
  by_cases hreset : w.resets
  · exact .inr (.inl ⟨hreset, by rw [syncPeer, if_neg hempty, if_pos hreset]⟩)
  rw [syncPeer, if_neg hempty, if_neg hreset, World.found_eq hnext hqueue]
  have hlength : (w.files.drop w.next).length = w.queue.length - w.next := by
    rw [List.length_drop, World.length_files]
  cases hfound : w.files.drop w.next with
  | nil =>
    rw [hfound, List.length_nil] at hlength
    exact .inr (.inr (.inl ⟨hreset, by omega, _, rfl⟩))
  | cons e rest =>
    obtain ⟨hsub, hgood, hwanted⟩ := importFrom_spec syncId (w.maxId.getD 0) w.next (e :: rest)
    rw [hfound, List.length_cons] at hlength
    have hcount := @importFrom_next syncId (w.maxId.getD 0) w.next (e :: rest)
      (by rw [List.length_cons]; omega)
    rw [List.length_cons, hlength, Nat.add_sub_cancel' (by omega)] at hcount
    refine .inr (.inr (.inr ⟨hreset, by omega, if w.maxId.getD 0 < w.next then none else w.maxId, _,
      hsub, hgood, hwanted, ?_⟩))
    dsimp only
    rw [hcount]

end Rounds

/-! ## The invariant -/

/-- How many files of this incarnation the import has passed. -/
def World.covered (w : World) : ℕ := if w.fresh then 0 else w.next

structure Inv (syncId : Bytes) (w : World) : Prop where
  clock_pos : 0 < w.clock
  cmdline_le : ∀ t ∈ w.cmdline, t ≤ w.clock
  early : w.cmdline = some w.clock → w.covered = 0
  covered_le : w.covered ≤ w.queue.length
  nodup : w.log.Nodup
  good : ∀ x ∈ w.log, Good x.2
  past : ∀ x ∈ w.log, x.1 ≤ w.incarnation
  current : ∀ e, (w.incarnation, e) ∈ w.log → e ∈ w.files.take w.covered
  complete : ∀ e ∈ w.files.take w.covered, Wanted syncId e → (w.incarnation, e) ∈ w.log

section Invariant

variable {syncId : Bytes} {w : World}

theorem inv_start (syncId : Bytes) (now : ℕ) (hidden : List Bytes) :
    Inv syncId (World.start now hidden) where
  clock_pos := Nat.succ_pos now
  cmdline_le := fun t ht => by cases ht
  early := fun _ => rfl
  covered_le := Nat.le_refl 0
  nodup := List.nodup_nil
  good := fun x hx => absurd hx List.not_mem_nil
  past := fun x hx => absurd hx List.not_mem_nil
  current := fun e he => absurd he List.not_mem_nil
  complete := fun e he => absurd he List.not_mem_nil

theorem resets_iff (h : Inv syncId w) : w.resets ↔ w.cmdline = some w.clock := by
  have hpos := h.clock_pos
  constructor
  · intro ⟨_, t, ht, hle⟩
    rw [Option.mem_def.mp ht, Nat.le_antisymm (h.cmdline_le t ht) hle]
  · intro heq
    exact ⟨by omega, w.clock, heq, Nat.le_refl _⟩

theorem inv_tick (h : Inv syncId w) (seconds : ℕ) :
    Inv syncId { w with clock := w.clock + seconds } where
  clock_pos := Nat.lt_of_lt_of_le h.clock_pos (Nat.le_add_right _ _)
  cmdline_le := fun t ht => Nat.le_trans (h.cmdline_le t ht) (Nat.le_add_right _ _)
  early := fun heq => by
    have hle : w.clock + seconds ≤ w.clock := h.cmdline_le _ heq
    have hzero : seconds = 0 := by omega
    subst hzero
    exact h.early heq
  covered_le := h.covered_le
  nodup := h.nodup
  good := h.good
  past := h.past
  current := h.current
  complete := h.complete

theorem files_grow (w : World) (file : QueueFile) :
    World.files { w with queue := w.queue ++ [file] } =
      w.files ++ [⟨idName w.queue.length ++ file.suffix, file.size⟩] := by
  simp [World.files, List.mapIdx_append]

theorem inv_grow (h : Inv syncId w) (file : QueueFile) :
    Inv syncId { w with queue := w.queue ++ [file] } := by
  have htake : (World.files { w with queue := w.queue ++ [file] }).take w.covered =
      w.files.take w.covered := by
    rw [files_grow]
    apply List.take_append_of_le_length
    rw [World.length_files]
    exact h.covered_le
  exact {
    clock_pos := h.clock_pos
    cmdline_le := h.cmdline_le
    early := h.early
    covered_le := Nat.le_trans h.covered_le (by simp)
    nodup := h.nodup
    good := h.good
    past := h.past
    current := fun e he => by
      show e ∈ (World.files { w with queue := w.queue ++ [file] }).take w.covered
      rw [htake]
      exact h.current e he
    complete := fun e he => by
      replace he : e ∈ (World.files { w with queue := w.queue ++ [file] }).take w.covered := he
      rw [htake] at he
      exact h.complete e he }

theorem inv_restart (h : Inv syncId w) :
    Inv syncId { w with
      queue := []
      cmdline := some w.clock
      incarnation := w.incarnation + 1
      fresh := true } where
  clock_pos := h.clock_pos
  cmdline_le := fun _ ht => Nat.le_of_eq (Option.some.inj ht).symm
  early := fun _ => rfl
  covered_le := Nat.le_refl 0
  nodup := h.nodup
  good := h.good
  past := fun x hx => Nat.le_succ_of_le (h.past x hx)
  current := fun _ he => absurd (h.past _ he) (Nat.not_succ_le_self _)
  complete := fun _ he => absurd he List.not_mem_nil

theorem inv_check (h : Inv syncId w) : Inv syncId (checkSyncFuzzers w) := by
  unfold checkSyncFuzzers
  split
  · exact h
  · exact ⟨h.clock_pos, h.cmdline_le, h.early, h.covered_le, h.nodup, h.good, h.past, h.current,
      h.complete⟩

/-- Nothing was imported before a reset. -/
theorem inv_reset (h : Inv syncId w) (hreset : w.resets) :
    Inv syncId { w with synced := some 0, fresh := false } := by
  have hzero := h.early ((resets_iff h).mp hreset)
  have hcurrent := h.current
  rw [hzero] at hcurrent
  exact ⟨h.clock_pos, h.cmdline_le, fun _ => rfl, Nat.zero_le _, h.nodup, h.good, h.past, hcurrent,
    fun e he => absurd he List.not_mem_nil⟩

/-- A careful round that does not reset begins where the import has come to. -/
theorem covered_eq (h : Inv syncId w) (hcareful : Careful w .round) (hreset : ¬ w.resets) :
    w.covered = w.next := by
  rw [World.covered]
  split
  · next hfresh =>
    rcases hcareful.2.2 hfresh with hzero | hnow
    · exact hzero.symm
    · exact absurd ((resets_iff h).mpr hnow) hreset
  · rfl

/-- The round finds nothing new. -/
theorem inv_idle (h : Inv syncId w) (hcovered : w.covered = w.next) (maxId : Option ℕ) :
    Inv syncId { w with maxId := maxId, fresh := false } := by
  have hearly := h.early
  have hle := h.covered_le
  have hcurrent := h.current
  have hcomplete := h.complete
  rw [hcovered] at hearly hle hcurrent hcomplete
  exact ⟨h.clock_pos, h.cmdline_le, hearly, hle, h.nodup, h.good, h.past, hcurrent, hcomplete⟩

/-- The round imports all files behind the one it begins with. -/
theorem inv_import (h : Inv syncId w) (hcovered : w.covered = w.next) (hreset : ¬ w.resets)
    (hqueue : w.queue.length ≤ 10 ^ 6) (maxId : Option ℕ) {ran : List Entry}
    (hsub : ran.Sublist (w.files.drop w.next)) (hgood : ∀ e ∈ ran, Good e)
    (hwanted : ∀ e ∈ w.files.drop w.next, Wanted syncId e → e ∈ ran) :
    Inv syncId { w with
      synced := some w.queue.length
      maxId := maxId
      fresh := false
      log := w.log ++ ran.map fun e => (w.incarnation, e) } := by
  have hfiles := World.nodup_files hqueue
  have hsplit := List.take_append_drop w.next w.files
  have hall : w.files.take w.queue.length = w.files := by
    rw [← World.length_files, List.take_length]
  have hcurrent := h.current
  have hcomplete := h.complete
  rw [hcovered] at hcurrent hcomplete
  exact {
    clock_pos := h.clock_pos
    cmdline_le := h.cmdline_le
    early := fun heq => absurd ((resets_iff h).mpr heq) hreset
    covered_le := Nat.le_refl _
    nodup := by
      refine List.nodup_append.mpr ⟨h.nodup, ?_, ?_⟩
      · apply List.Nodup.map
        · intro a b hab
          exact congrArg Prod.snd hab
        · exact (hfiles.sublist (List.drop_sublist _ _)).sublist hsub
      · -- what was executed before lies in front of the files of this round
        intro x hx y hy heq
        obtain ⟨e, he, rfl⟩ := List.mem_map.mp hy
        rw [heq] at hx
        rw [← hsplit] at hfiles
        exact (List.nodup_append.mp hfiles).2.2 e (hcurrent e hx) e (hsub.subset he) rfl
    good := by
      intro x hx
      rcases List.mem_append.mp hx with hx | hx
      · exact h.good x hx
      · obtain ⟨e, he, rfl⟩ := List.mem_map.mp hx
        exact hgood e he
    past := by
      intro x hx
      rcases List.mem_append.mp hx with hx | hx
      · exact h.past x hx
      · obtain ⟨e, -, rfl⟩ := List.mem_map.mp hx
        exact Nat.le_refl _
    current := by
      intro e he
      show e ∈ w.files.take w.queue.length
      rw [hall]
      rcases List.mem_append.mp he with he | he
      · exact List.mem_of_mem_take (hcurrent e he)
      · obtain ⟨f, hf, heq⟩ := List.mem_map.mp he
        have hsame : f = e := congrArg Prod.snd heq
        rw [← hsame]
        exact List.mem_of_mem_drop (hsub.subset hf)
    complete := by
      intro e he hw
      replace he : e ∈ w.files.take w.queue.length := he
      rw [hall, ← hsplit] at he
      rcases List.mem_append.mp he with he | he
      · exact List.mem_append_left _ (hcomplete e he hw)
      · exact List.mem_append_right _ (List.mem_map.mpr ⟨e, hwanted e he hw, rfl⟩) }

theorem inv_round (h : Inv syncId w) (hcareful : Careful w .round) :
    Inv syncId (syncPeer syncId w) := by
  rcases syncPeer_cases syncId hcareful.1 hcareful.2.1 with ⟨-, heq⟩ | ⟨hreset, heq⟩ |
      ⟨hreset, -, maxId, heq⟩ | ⟨hreset, -, maxId, ran, hsub, hgood, hwanted, heq⟩
  · rw [heq]
    exact h
  · rw [heq]
    exact inv_reset h hreset
  · rw [heq]
    exact inv_idle h (covered_eq h hcareful hreset) maxId
  · rw [heq]
    exact inv_import h (covered_eq h hcareful hreset) hreset hcareful.2.1 maxId hsub hgood hwanted

theorem inv_step (h : Inv syncId w) (e : Event) (hcareful : Careful w e) :
    Inv syncId (step syncId w e).2 := by
  cases e with
  | tick seconds => exact inv_tick h seconds
  | grow file => exact inv_grow h file
  | restart => exact inv_restart h
  | check => exact inv_check h
  | round => exact inv_round h hcareful

theorem inv_run (syncId : Bytes) (now : ℕ) (hidden : List Bytes) {es : List Event}
    (h : Machine.Meets (step syncId) Careful (World.start now hidden) es) :
    Inv syncId (Machine.run (step syncId) (World.start now hidden) es) :=
  Machine.run_inv_of_meets _ Careful (Inv syncId) (fun _ e hw he => inv_step hw e he)
    (inv_start syncId now hidden) h

/-- After a round that does not reset, everything is imported. -/
theorem covered_round (syncId : Bytes) (h : Inv syncId w) (hcareful : Careful w .round)
    (hreset : ¬ w.resets) :
    (syncPeer syncId w).files = w.files ∧ (syncPeer syncId w).incarnation = w.incarnation ∧
    w.files.take (syncPeer syncId w).covered = w.files := by
  have hcovered := covered_eq h hcareful hreset
  have hle := h.covered_le
  rcases syncPeer_cases syncId hcareful.1 hcareful.2.1 with ⟨hnil, heq⟩ | ⟨hyes, -⟩ |
      ⟨-, hnext, maxId, heq⟩ | ⟨-, -, maxId, ran, -, -, -, heq⟩
  · rw [heq, hnil, List.take_nil]
    exact ⟨rfl, rfl, rfl⟩
  · exact absurd hyes hreset
  · rw [heq]
    refine ⟨rfl, rfl, ?_⟩
    show w.files.take w.next = w.files
    exact List.take_of_length_le (by rw [World.length_files]; exact hnext)
  · rw [heq]
    refine ⟨rfl, rfl, ?_⟩
    show w.files.take w.queue.length = w.files
    exact List.take_of_length_le (Nat.le_of_eq (World.length_files w))

end Invariant

/-- In a run whose rounds are careful, no file is executed twice and none that should not be, and
a round in a later second than the restart leaves every file of the queue executed, of the numbers
from 0 on, but those that may be skipped. -/
theorem peer_import (syncId : Bytes) (now : ℕ) (hidden : List Bytes) {es : List Event}
    (h : Machine.Meets (step syncId) Careful (World.start now hidden) es) :
    (∀ x, (Machine.run (step syncId) (World.start now hidden) es).log.count x ≤ 1) ∧
    (∀ x ∈ (Machine.run (step syncId) (World.start now hidden) es).log, Good x.2) ∧
    ∀ w, w = Machine.run (step syncId) (World.start now hidden) es → Careful w .round →
      w.cmdline ≠ some w.clock →
      ∀ e ∈ w.files, Wanted syncId e →
        (step syncId w .round).2.log.count (w.incarnation, e) = 1 := by
  have hinv := inv_run syncId now hidden h
  refine ⟨fun x => List.nodup_iff_count_le_one.mp hinv.nodup x, hinv.good, ?_⟩
  intro w hw hcareful hclock e he hwanted
  rw [← hw] at hinv
  have hreset : ¬ w.resets := fun hyes => hclock ((resets_iff hinv).mp hyes)
  have hround : Inv syncId (syncPeer syncId w) := inv_round hinv hcareful
  obtain ⟨hfiles, hincarnation, htake⟩ := covered_round syncId hinv hcareful hreset
  have hmem : (w.incarnation, e) ∈ (syncPeer syncId w).log := by
    rw [← hincarnation]
    apply hround.complete e _ hwanted
    rw [hfiles, htake]
    exact he
  exact List.count_eq_one_of_mem hround.nodup hmem

/-- A restart that is noticed: the second queue is imported, too. -/
theorem peer_import_restart :
    (step [97] (Machine.run (step [97]) (World.start 0 [[]]) [.restart, .grow ⟨[44], 5⟩, .tick 1,
      .round, .tick 1, .restart, .round, .grow ⟨[], 7⟩, .tick 1]) .round).2.log.count
        (2, ⟨idName 0, 7⟩) = 1 := by
  have h := @peer_import [97] 0 [[]] [.restart, .grow ⟨[44], 5⟩, .tick 1, .round, .tick 1, .restart,
    .round, .grow ⟨[], 7⟩, .tick 1] (by decide)
  exact h.2.2 _ rfl (by decide) (by decide) ⟨idName 0, 7⟩ (by decide) (by decide)

/-! ## A restart that is not noticed -/

/-- The queue has not come to the number that the import waits for. -/
def Waiting (w : World) : Prop :=
  w.next < 10 ^ 6 ∧ w.queue.length ≤ w.next ∧ ∃ t, w.cmdline = some t ∧ t < w.clock

/-- Rounds one second after the other. -/
def rounds : ℕ → List Event
  | 0 => []
  | n + 1 => .tick 1 :: .round :: rounds n

theorem waiting_round (syncId : Bytes) {w : World} (h : Waiting w) :
    Waiting (syncPeer syncId w) ∧ (syncPeer syncId w).log = w.log := by
  obtain ⟨hnext, hqueue, t, ht, hlt⟩ := h
  rcases syncPeer_cases syncId hnext (by omega) with ⟨-, heq⟩ | ⟨⟨-, u, hu, hle⟩, -⟩ |
      ⟨-, -, maxId, heq⟩ | ⟨-, hmore, -⟩
  · rw [heq]
    exact ⟨⟨hnext, hqueue, t, ht, hlt⟩, rfl⟩
  · have hsame : t = u := Option.some.inj (ht.symm.trans hu)
    omega
  · rw [heq]
    exact ⟨⟨hnext, hqueue, t, ht, hlt⟩, rfl⟩
  · omega

/-- No number of rounds imports anything. -/
theorem waiting_rounds (syncId : Bytes) {w : World} (h : Waiting w) (n : ℕ) :
    (Machine.run (step syncId) w (rounds n)).log = w.log := by
  induction n generalizing w with
  | zero => rfl
  | succ n ih =>
    have htick : Waiting { w with clock := w.clock + 1 } := by
      obtain ⟨hnext, hqueue, t, ht, hlt⟩ := h
      exact ⟨hnext, hqueue, t, ht, Nat.lt_succ_of_lt hlt⟩
    obtain ⟨hwaiting, hlog⟩ := waiting_round syncId htick
    calc (Machine.run (step syncId) w (rounds (n + 1))).log
        = (Machine.run (step syncId) (syncPeer syncId { w with clock := w.clock + 1 })
            (rounds n)).log := rfl
      _ = (syncPeer syncId { w with clock := w.clock + 1 }).log := ih hwaiting
      _ = w.log := hlog

/-- The first file of the second queue is imported in no round. -/
theorem restart_unnoticed :
    ∃ es : List Event, ∃ e ∈ (Machine.run (step [97]) (World.start 0 [[]]) es).files,
      Wanted [97] e ∧ ∀ n, (Machine.run (step [97])
        (Machine.run (step [97]) (World.start 0 [[]]) es) (rounds n)).log.count (2, e) = 0 := by
  refine ⟨[.restart, .grow ⟨[44], 5⟩, .tick 1, .round, .tick 1, .restart, .grow ⟨[], 7⟩, .tick 1],
    ⟨idName 0, 7⟩, by decide, by decide, fun n => ?_⟩
  rw [waiting_rounds _ ⟨by decide, by decide, 3, by decide, by decide⟩]
  decide

end AflNv.PeerSync
