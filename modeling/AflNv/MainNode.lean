import AflNv.CBase
import AflNv.Lib.Machine
import AflNv.Lib.Substring

/-!
# The election of a main node

Instances that share a sync directory elect a temporary main node in `check_sync_fuzzers`
and `sync_fuzzers` of `src/afl-fuzz-run.c`, and an elected one steps down in `sync_fuzzers`.
The file `is_main_node` in the directory of an instance tells the others.  One step is one
operation on the files, of any of the instances.

* `Fuzzer` is what an instance holds, with the path buffers of the function it is in.
* `Tidy` says that the files and the flags agree; `markers_kept` is the run in which every
  `check_sync_fuzzers` finds a main node.
* `election_misplaces_marker`: a `check_sync_fuzzers` that finds none opens the path of the
  last entry it has read.
-/

namespace AflNv

open AflNv.Lib

namespace MainNode

/-! ## Paths -/

/-- `d_name` of a directory entry. -/
structure DirName where
  bytes : Bytes
  free : 47 ∉ bytes
  deriving DecidableEq

/-- The instances and the directory that they share.  `fix_up_sync` accepts letters, digits,
`_` and `-` in a `sync_id`. -/
structure Site (ι : Type) where
  syncDir : Bytes
  syncId : ι → DirName
  distinct : Function.Injective syncId

variable {ι : Type}

/-- `"%s/%s/is_main_node"` of the sync directory and a name. -/
def Site.markerIn (site : Site ι) (name : DirName) : Bytes :=
  site.syncDir ++ ascii "/" ++ name.bytes ++ ascii "/is_main_node"

/-- `out_dir`, as `fix_up_sync` sets it. -/
def Site.outDir (site : Site ι) (i : ι) : Bytes :=
  site.syncDir ++ ascii "/" ++ (site.syncId i).bytes

/-- `"%s/is_main_node"` of `out_dir`. -/
def Site.ownMarker (site : Site ι) (i : ι) : Bytes := site.outDir i ++ ascii "/is_main_node"

/-- `"%s/.synced/%s"` of `out_dir` and a name, with what may follow. -/
def Site.synced (site : Site ι) (i : ι) (name : DirName) (suffix : Bytes) : Bytes :=
  site.outDir i ++ ascii "/.synced/" ++ name.bytes ++ suffix

/-! ## An instance -/

/-- Where an instance is. -/
inductive Pc where
  | idle
  /-- `check_sync_fuzzers`, in its loop over the directory. -/
  | checking (haveMain : Bool) (qdPath qdMainPath : Bytes)
  /-- `check_sync_fuzzers`, behind the loop, before it opens. -/
  | checkOpen (qdPath qdMainPath : Bytes)
  /-- `sync_fuzzers`, in its loop. -/
  | syncing (entries synced : ℕ)
  /-- `sync_fuzzers`, before it unlinks. -/
  | stepDown (entries synced : ℕ) (name : DirName) (qdPath : Bytes)
  /-- `sync_fuzzers`, behind the loop, before it opens. -/
  | syncOpen (path : Bytes)
  deriving DecidableEq

structure Fuzzer where
  isMainNode : Bool
  isSecondaryNode : Bool
  pc : Pc
  deriving DecidableEq

/-- What a step does to the files. -/
inductive FileOp where
  | create (path : Bytes)
  | unlink (path : Bytes)
  deriving DecidableEq

def FileOp.path : FileOp → Bytes
  | create path => path
  | unlink path => path

def FileOp.apply (files : Bytes → Bool) : FileOp → Bytes → Bool
  | create path => Function.update files path true
  | unlink path => Function.update files path false

/-- What `sync_fuzzers` meets in the directory of an entry. -/
structure PeerQueue where
  /-- `scandir` of its queue has found something. -/
  hasFiles : Bool
  /-- The number in the `.max` file is passed. -/
  maxPassed : Bool
  deriving DecidableEq

/-- The steps.  What `readdir` returns and what the buffers hold before they are written is
part of the step. -/
inductive Event where
  | checkBegin (qdPath qdMainPath : Bytes)
  | checkEntry (name : DirName) (queueFiles : ℕ)
  | checkEnd
  | syncBegin
  | syncEntry (name : DirName) (queue : PeerQueue)
  | unlink (queue : PeerQueue)
  | syncEnd
  | openMarker
  deriving DecidableEq

/-- The name is that of a dot file or of the instance itself. -/
def Site.skips (site : Site ι) (i : ι) (name : DirName) : Bool :=
  name.bytes.head? = some 46 || name = site.syncId i

/-- What `sync_fuzzers` writes below `.synced` for an entry. -/
def Site.noteSync (site : Site ι) (i : ι) (name : DirName) (queue : PeerQueue) : List FileOp :=
  if queue.hasFiles then
    [.create (site.synced i name []), .create (site.synced i name (ascii ".last"))] ++
      if queue.maxPassed then [.unlink (site.synced i name (ascii ".max"))] else []
  else []

/-- `check_sync_fuzzers` and `sync_fuzzers`, one operation at a time. -/
def Site.act (site : Site ι) (files : Bytes → Bool) (i : ι) (f : Fuzzer) :
    Event → List FileOp × Fuzzer
  | .checkBegin qdPath qdMainPath =>
    match f.pc with
    | .idle => ([], { f with pc := .checking f.isMainNode qdPath qdMainPath })
    | _ => ([], f)
  | .checkEntry name queueFiles =>
    match f.pc with
    | .checking haveMain _ qdMainPath =>
      if site.skips i name then ([], f)
      else
        let qdPath := site.syncDir ++ ascii "/" ++ name.bytes ++ ascii "/queue"
        let ops := if queueFiles ≠ 0 then [.create (site.synced i name (ascii ".max"))] else []
        if haveMain then (ops, { f with pc := .checking haveMain qdPath qdMainPath })
        else
          let qdMainPath := site.markerIn name
          (ops, { f with pc := .checking (files qdMainPath) qdPath qdMainPath })
    | _ => ([], f)
  | .checkEnd =>
    match f.pc with
    | .checking haveMain _ qdMainPath =>
      if haveMain then ([], { f with pc := .idle })
      else ([], { f with isMainNode := true, pc := .checkOpen (site.ownMarker i) qdMainPath })
    | _ => ([], f)
  | .syncBegin =>
    match f.pc with
    | .idle => ([], { f with pc := .syncing 0 0 })
    | _ => ([], f)
  | .syncEntry name queue =>
    match f.pc with
    | .syncing entries synced =>
      if site.skips i name then ([], f)
      else if f.isSecondaryNode then
        if f.isMainNode then
          if files (site.markerIn name) then
            ([], { f with
              isMainNode := false
              pc := .stepDown (entries + 1) synced name (site.ownMarker i) })
          else (site.noteSync i name queue, { f with pc := .syncing (entries + 1) (synced + 1) })
        else if files (site.markerIn name) then
          (site.noteSync i name queue, { f with pc := .syncing (entries + 1) (synced + 1) })
        else ([], { f with pc := .syncing (entries + 1) synced })
      else (site.noteSync i name queue, { f with pc := .syncing (entries + 1) (synced + 1) })
    | _ => ([], f)
  | .unlink queue =>
    match f.pc with
    | .stepDown entries synced name qdPath =>
      (.unlink qdPath :: site.noteSync i name queue,
        { f with pc := .syncing entries (synced + 1) })
    | _ => ([], f)
  | .syncEnd =>
    match f.pc with
    | .syncing entries synced =>
      if synced = 0 ∧ entries ≠ 0 ∧ f.isSecondaryNode then
        ([], { f with isMainNode := true, pc := .syncOpen (site.ownMarker i) })
      else ([], { f with pc := .idle })
    | _ => ([], f)
  | .openMarker =>
    match f.pc with
    | .checkOpen _ qdMainPath => ([.create qdMainPath], { f with pc := .idle })
    | .syncOpen path => ([.create path], { f with pc := .idle })
    | _ => ([], f)

/-! ## All instances -/

structure World (ι : Type) where
  files : Bytes → Bool
  fuzzer : ι → Fuzzer

/-- A step of the instance `e.1`; the output is what it does to the files. -/
def Site.step [DecidableEq ι] (site : Site ι) (w : World ι) (e : ι × Event) :
    (ι × List FileOp) × World ι :=
  let r := site.act w.files e.1 (w.fuzzer e.1) e.2
  ((e.1, r.1),
    { files := r.1.foldl FileOp.apply w.files, fuzzer := Function.update w.fuzzer e.1 r.2 })

/-! ## The specification -/

/-- Where no step is in progress, the marker exists exactly when the flag is set. -/
def Tidy (site : Site ι) (w : World ι) : Prop :=
  ∀ i, (w.fuzzer i).pc = .idle → w.files (site.ownMarker i) = (w.fuzzer i).isMainNode

/-- The step touches no marker of another instance. -/
def OwnOnly (site : Site ι) (o : ι × List FileOp) : Prop :=
  ∀ op ∈ o.2, ∀ j, j ≠ o.1 → op.path ≠ site.ownMarker j

/-- A `check_sync_fuzzers` at its end has found a main node, or its buffer happens to hold
the path of its own marker. -/
def Finds (site : Site ι) (w : World ι) (e : ι × Event) : Prop :=
  e.2 = .checkEnd → ∀ haveMain qdPath qdMainPath,
    (w.fuzzer e.1).pc = .checking haveMain qdPath qdMainPath →
      haveMain = true ∨ qdMainPath = site.ownMarker e.1

/-- The agreement while steps are in progress. -/
def Agrees (site : Site ι) (files : Bytes → Bool) (i : ι) (f : Fuzzer) : Prop :=
  match f.pc with
  | .idle | .checking _ _ _ | .syncing _ _ => files (site.ownMarker i) = f.isMainNode
  | .checkOpen _ path | .syncOpen path => f.isMainNode = true ∧ path = site.ownMarker i
  | .stepDown _ _ _ path => f.isMainNode = false ∧ path = site.ownMarker i

/-! ## Paths are apart -/

variable {site : Site ι} {i j : ι}

theorem ownMarker_eq (site : Site ι) (i : ι) : site.ownMarker i =
    (site.syncDir ++ ascii "/") ++ ((site.syncId i).bytes ++ 47 :: ascii "is_main_node") := by
  unfold Site.ownMarker Site.outDir
  rw [List.append_assoc (site.syncDir ++ ascii "/")]
  rfl

theorem synced_eq (site : Site ι) (i : ι) (name : DirName) (suffix : Bytes) :
    site.synced i name suffix = (site.syncDir ++ ascii "/") ++
      ((site.syncId i).bytes ++ 47 :: (ascii ".synced/" ++ name.bytes ++ suffix)) := by
  unfold Site.synced Site.outDir
  simp only [List.append_assoc]
  rfl

theorem ownMarker_inj (h : site.ownMarker i = site.ownMarker j) : i = j := by
  rw [ownMarker_eq, ownMarker_eq] at h
  obtain ⟨hname, -⟩ := Substring.append_cons_inj_left (site.syncId i).free (site.syncId j).free
    (List.append_cancel_left h)
  apply site.distinct
  cases hi : site.syncId i with
  | mk a ha =>
    cases hj : site.syncId j with
    | mk b hb =>
      rw [hi, hj] at hname
      obtain rfl : a = b := hname
      rfl

theorem synced_ne_ownMarker (name : DirName) (suffix : Bytes) :
    site.synced i name suffix ≠ site.ownMarker j := by
  intro h
  rw [ownMarker_eq, synced_eq] at h
  obtain ⟨-, hrest⟩ := Substring.append_cons_inj_left (site.syncId i).free (site.syncId j).free
    (List.append_cancel_left h)
  have hhead : some (46 : UInt8) = some 105 := by
    have h := congrArg List.head? hrest
    rwa [List.append_assoc] at h
  exact absurd hhead (by decide)

/-! ## One step -/

/-- The operation is on the own marker or below the own `.synced`. -/
def Own (site : Site ι) (i : ι) (op : FileOp) : Prop :=
  op.path = site.ownMarker i ∨ ∃ name suffix, op.path = site.synced i name suffix

theorem Own.path_ne {op : FileOp} (h : Own site i op) (hij : j ≠ i) :
    op.path ≠ site.ownMarker j := by
  rcases h with h | ⟨name, suffix, h⟩
  · rw [h]
    exact fun heq => hij (ownMarker_inj heq).symm
  · rw [h]
    exact synced_ne_ownMarker name suffix

theorem foldl_apply_of_ne {ops : List FileOp} {path : Bytes} (files : Bytes → Bool)
    (h : ∀ op ∈ ops, op.path ≠ path) : ops.foldl FileOp.apply files path = files path := by
  induction ops generalizing files with
  | nil => rfl
  | cons op ops ih =>
    obtain ⟨hop, hops⟩ := List.forall_mem_cons.mp h
    rw [List.foldl_cons, ih _ hops]
    cases op with
    | create p => exact Function.update_of_ne (Ne.symm hop) _ _
    | unlink p => exact Function.update_of_ne (Ne.symm hop) _ _

/-- The operations are below the own `.synced`. -/
def BelowSynced (site : Site ι) (i : ι) (ops : List FileOp) : Prop :=
  ∀ op ∈ ops, ∃ name suffix, op.path = site.synced i name suffix

theorem noteSync_below (name : DirName) (queue : PeerQueue) :
    BelowSynced site i (site.noteSync i name queue) := by
  intro op hop
  unfold Site.noteSync at hop
  split at hop
  · rcases List.mem_append.mp hop with hop | hop
    · simp only [List.mem_cons, List.not_mem_nil, or_false] at hop
      rcases hop with rfl | rfl
      · exact ⟨name, _, rfl⟩
      · exact ⟨name, _, rfl⟩
    · split at hop
      · obtain rfl := List.mem_singleton.mp hop
        exact ⟨name, _, rfl⟩
      · exact absurd hop List.not_mem_nil
  · exact absurd hop List.not_mem_nil

theorem BelowSynced.files {ops : List FileOp} (h : BelowSynced site i ops) (files : Bytes → Bool)
    (j : ι) : ops.foldl FileOp.apply files (site.ownMarker j) = files (site.ownMarker j) := by
  refine foldl_apply_of_ne files fun op hop => ?_
  obtain ⟨name, suffix, hpath⟩ := h op hop
  rw [hpath]
  exact synced_ne_ownMarker name suffix

theorem BelowSynced.own {ops : List FileOp} (h : BelowSynced site i ops) :
    ∀ op ∈ ops, Own site i op := fun op hop => Or.inr (h op hop)

/-- Operations below `.synced` keep the agreement of an instance that stays where the flag and
the marker agree. -/
theorem agrees_of_below {files : Bytes → Bool} {ops : List FileOp} {f : Fuzzer}
    (hops : BelowSynced site i ops) (h : Agrees site files i f) :
    Agrees site (ops.foldl FileOp.apply files) i f := by
  unfold Agrees at h ⊢
  rw [hops.files files i]
  exact h

theorem below_nil : BelowSynced site i [] := fun _ hop => absurd hop List.not_mem_nil

theorem below_max (name : DirName) (queueFiles : ℕ) : BelowSynced site i
    (if queueFiles ≠ 0 then [.create (site.synced i name (ascii ".max"))] else []) := by
  split
  · intro op hop
    obtain rfl := List.mem_singleton.mp hop
    exact ⟨name, _, rfl⟩
  · exact below_nil

/-- The instance with its flag set opens its own marker. -/
theorem agrees_open {files : Bytes → Bool} {f : Fuzzer} (hmain : f.isMainNode = true) :
    (∀ op ∈ [FileOp.create (site.ownMarker i)], Own site i op) ∧
      Agrees site ([FileOp.create (site.ownMarker i)].foldl FileOp.apply files) i
        { f with pc := .idle } := by
  constructor
  · exact List.forall_mem_cons.mpr ⟨Or.inl rfl, fun _ hop => absurd hop List.not_mem_nil⟩
  · show Function.update files (site.ownMarker i) true (site.ownMarker i) = f.isMainNode
    rw [Function.update_self, hmain]

/-- What one step does: it touches what belongs to the instance, and keeps its agreement. -/
theorem act_spec {files : Bytes → Bool} {f : Fuzzer} {e : Event} (h : Agrees site files i f)
    (hfinds : e = .checkEnd → ∀ haveMain qdPath qdMainPath,
      f.pc = .checking haveMain qdPath qdMainPath →
        haveMain = true ∨ qdMainPath = site.ownMarker i) :
    (∀ op ∈ (site.act files i f e).1, Own site i op) ∧
      Agrees site ((site.act files i f e).1.foldl FileOp.apply files) i
        (site.act files i f e).2 := by
  have hstay : (∀ op ∈ ([] : List FileOp), Own site i op) ∧
      Agrees site (([] : List FileOp).foldl FileOp.apply files) i f :=
    ⟨fun _ hop => absurd hop List.not_mem_nil, h⟩
  have hbelow : ∀ {ops : List FileOp} {f' : Fuzzer}, BelowSynced site i ops →
      Agrees site files i f' → (∀ op ∈ ops, Own site i op) ∧
        Agrees site (ops.foldl FileOp.apply files) i f' :=
    fun hops hf => ⟨hops.own, agrees_of_below hops hf⟩
  unfold Agrees at h
  cases hpc : f.pc with
  | idle =>
    rw [hpc] at h
    cases e with
    | checkBegin qdPath qdMainPath =>
      simp only [Site.act, hpc]
      exact hbelow below_nil h
    | syncBegin =>
      simp only [Site.act, hpc]
      exact hbelow below_nil h
    | _ =>
      simp only [Site.act, hpc]
      exact hstay
  | checking haveMain qdPath qdMainPath =>
    rw [hpc] at h
    cases e with
    | checkEntry name queueFiles =>
      simp only [Site.act, hpc]
      split
      · exact hstay
      · split
        · exact hbelow (below_max name queueFiles) h
        · exact hbelow (below_max name queueFiles) h
    | checkEnd =>
      simp only [Site.act, hpc]
      split
      · exact hbelow below_nil h
      next hmain =>
        rcases hfinds rfl haveMain qdPath qdMainPath hpc with hfound | hown
        · exact absurd hfound hmain
        · exact hbelow below_nil ⟨rfl, hown⟩
    | _ =>
      simp only [Site.act, hpc]
      exact hstay
  | checkOpen qdPath qdMainPath =>
    rw [hpc] at h
    cases e with
    | openMarker =>
      simp only [Site.act, hpc]
      rw [h.2]
      exact agrees_open h.1
    | _ =>
      simp only [Site.act, hpc]
      exact hstay
  | syncing entries synced =>
    rw [hpc] at h
    cases e with
    | syncEntry name queue =>
      simp only [Site.act, hpc]
      split
      · exact hstay
      · split
        · split
          · split
            · -- Another main node: the flag goes down before the marker does.
              exact hbelow below_nil ⟨rfl, rfl⟩
            · exact hbelow (noteSync_below name queue) h
          · split
            · exact hbelow (noteSync_below name queue) h
            · exact hbelow below_nil h
        · exact hbelow (noteSync_below name queue) h
    | syncEnd =>
      simp only [Site.act, hpc]
      split
      · exact hbelow below_nil ⟨rfl, rfl⟩
      · exact hbelow below_nil h
    | _ =>
      simp only [Site.act, hpc]
      exact hstay
  | stepDown entries synced name qdPath =>
    rw [hpc] at h
    cases e with
    | unlink queue =>
      simp only [Site.act, hpc]
      rw [h.2]
      constructor
      · exact List.forall_mem_cons.mpr ⟨Or.inl rfl, (noteSync_below name queue).own⟩
      · show (site.noteSync i name queue).foldl FileOp.apply _ (site.ownMarker i) = f.isMainNode
        rw [(noteSync_below name queue).files, h.1]
        exact Function.update_self ..
    | _ =>
      simp only [Site.act, hpc]
      exact hstay
  | syncOpen path =>
    rw [hpc] at h
    cases e with
    | openMarker =>
      simp only [Site.act, hpc]
      rw [h.2]
      exact agrees_open h.1
    | _ =>
      simp only [Site.act, hpc]
      exact hstay

/-! ## All steps -/

variable [DecidableEq ι]

theorem step_spec {w : World ι} {e : ι × Event}
    (h : ∀ i, Agrees site w.files i (w.fuzzer i)) (hfinds : Finds site w e) :
    OwnOnly site (site.step w e).1 ∧
      ∀ i, Agrees site (site.step w e).2.files i ((site.step w e).2.fuzzer i) := by
  obtain ⟨hown, hagrees⟩ := act_spec (h e.1) hfinds
  refine ⟨fun op hop j hj => (hown op hop).path_ne hj, fun j => ?_⟩
  show Agrees site ((site.act w.files e.1 (w.fuzzer e.1) e.2).1.foldl FileOp.apply w.files) j
    (Function.update w.fuzzer e.1 (site.act w.files e.1 (w.fuzzer e.1) e.2).2 j)
  by_cases hj : j = e.1
  · subst hj
    rw [Function.update_self]
    exact hagrees
  · have hfiles := foldl_apply_of_ne w.files fun op hop => (hown op hop).path_ne hj
    rw [Function.update_of_ne hj]
    have hold := h j
    unfold Agrees at hold ⊢
    rw [hfiles]
    exact hold

omit [DecidableEq ι] in
theorem tidy_of_agrees {w : World ι} (h : ∀ i, Agrees site w.files i (w.fuzzer i)) :
    Tidy site w := by
  intro i hidle
  have hi := h i
  unfold Agrees at hi
  rw [hidle] at hi
  exact hi

/-- The markers and the flags, in every state of a run in which every `check_sync_fuzzers`
finds a main node; and no step touches a marker of another instance. -/
theorem markers_kept (site : Site ι) {w : World ι} (hidle : ∀ i, (w.fuzzer i).pc = .idle)
    (htidy : Tidy site w) {es : List (ι × Event)}
    (hfinds : Machine.Meets site.step (Finds site) w es) :
    (∀ p, p <+: es → Tidy site (Machine.run site.step w p)) ∧
      ∀ o ∈ Machine.outs site.step w es, OwnOnly site o := by
  have hagrees : ∀ i, Agrees site w.files i (w.fuzzer i) := by
    intro i
    unfold Agrees
    rw [hidle i]
    exact htidy i (hidle i)
  constructor
  · intro p hp
    obtain ⟨rest, rfl⟩ := hp
    exact tidy_of_agrees (Machine.run_inv_of_meets site.step (Finds site)
      (fun w => ∀ i, Agrees site w.files i (w.fuzzer i))
      (fun w e h hG => (step_spec h hG).2) hagrees (Machine.meets_append.mp hfinds).1)
  · exact Machine.outs_of_meets site.step (Finds site)
      (fun w => ∀ i, Agrees site w.files i (w.fuzzer i))
      (fun w e h hG => (step_spec h hG).symm) hagrees hfinds

/-! ## Two secondaries -/

/-- Two instances, `a` and `b`. -/
def pair : Site Bool where
  syncDir := ascii "sync"
  syncId i := if i then ⟨ascii "b", by decide⟩ else ⟨ascii "a", by decide⟩
  distinct := by
    intro i j h
    cases i <;> cases j <;> first | rfl | exact absurd h (by decide)

/-- No marker, no flag, no step in progress. -/
def quiet : World Bool where
  files _ := false
  fuzzer _ := ⟨false, true, .idle⟩

theorem tidy_quiet : Tidy pair quiet := fun _ _ => rfl

/-- The instance `b` syncs, becomes main node, and `a` finds it. -/
def electionInSync : List (Bool × Event) :=
  [(true, .syncBegin), (true, .syncEntry (pair.syncId false) ⟨false, false⟩), (true, .syncEnd),
    (true, .openMarker), (false, .checkBegin [] []), (false, .checkEntry (pair.syncId true) 0),
    (false, .checkEnd)]

/-- The instance `b` checks for a main node, with `a` as its only peer. -/
def electionInCheck : List (Bool × Event) :=
  [(true, .checkBegin [] []), (true, .checkEntry (pair.syncId false) 0), (true, .checkEnd),
    (true, .openMarker)]

theorem markers_kept_in_sync :
    (∀ p, p <+: electionInSync → Tidy pair (Machine.run pair.step quiet p)) ∧
      ∀ o ∈ Machine.outs pair.step quiet electionInSync, OwnOnly pair o := by
  refine markers_kept pair (fun _ => rfl) tidy_quiet ?_
  have hfound : ((Machine.run pair.step quiet (electionInSync.take 6)).fuzzer false).pc =
      .checking true (ascii "sync/b/queue") (ascii "sync/b/is_main_node") := by decide
  have hother : ∀ (w : World Bool) (i : Bool) (e : Event), e ≠ .checkEnd → Finds pair w (i, e) :=
    fun _ _ _ hne h => absurd h hne
  refine ⟨hother _ _ _ (by decide), hother _ _ _ (by decide), hother _ _ _ (by decide),
    hother _ _ _ (by decide), hother _ _ _ (by decide), hother _ _ _ (by decide), ?_, trivial⟩
  intro _ haveMain qdPath qdMainPath hpc
  have hsame := hfound.symm.trans hpc
  injection hsame with hmain
  exact Or.inl hmain.symm

/-- The instance `b` becomes main node, and the marker stands in the directory of `a`. -/
theorem election_misplaces_marker :
    Tidy pair quiet ∧
      (∀ i, ((Machine.run pair.step quiet electionInCheck).fuzzer i).pc = .idle) ∧
      ¬ Tidy pair (Machine.run pair.step quiet electionInCheck) ∧
      ¬ ∀ o ∈ Machine.outs pair.step quiet electionInCheck, OwnOnly pair o := by
  refine ⟨tidy_quiet, by decide, ?_, ?_⟩
  · intro h
    exact absurd (h true (by decide)) (by decide)
  · intro h
    have hcreate : (true, [FileOp.create (pair.ownMarker false)]) ∈
        Machine.outs pair.step quiet electionInCheck := by decide
    exact h _ hcreate _ List.mem_cons_self false (by decide) rfl

end MainNode

end AflNv
