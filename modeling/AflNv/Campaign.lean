import AflNv.CBase
import AflNv.Lib.Machine

/-!
# Restarting a campaign

`PHASE4_R2_CAMPAIGN_ORCHESTRATOR/campaign_orchestrator.py` executes the blocks of a campaign
in order and saves its state behind every block.  A process that ends, by a failed block or
by a crash, is started again with `--resume`; it loads what was saved and then the frozen
package.

* `Progress` says where the campaign is; the frozen package holds one too.
* `Campaign.step` is the orchestrator, one run of the runner or one save at a time.
* `Orderly` says that a step goes on where the saved state is.  `campaign_orderly`: all steps
  do exactly if the campaign is never started behind a saved state or a failed block.
* `resume_repeats_block`: what was loaded is overwritten by the frozen package, and a completed
  block is executed again.
-/

namespace AflNv

open AflNv.Lib

namespace Campaign

/-! ## The frozen package -/

structure BlockSpec where
  blockIndex : ℕ
  formalSeed : ℕ
  orderType : Bytes
  firstBackend : Bytes
  secondBackend : Bytes
  deriving DecidableEq

/-- An entry of the list of seeds. -/
structure SeedSpec where
  blockIndex : ℕ
  formalSeed : ℕ
  deriving DecidableEq

/-- Where a campaign is. -/
structure Progress where
  completedBlocks : List ℕ
  validAeRuns : ℕ
  validSeRuns : ℕ
  totalValidRuns : ℕ
  nextBlockIndex : ℕ
  block2SeCarriedForward : Bool
  block2OldAeExcluded : Bool
  deriving DecidableEq

/-- `r2_resume_state` -/
structure ResumeState where
  completedBlocks : ℕ
  validAeRuns : ℕ
  validSeRuns : ℕ
  totalValidRuns : ℕ
  resumeFromBlock : ℕ
  block2SeCarriedForward : Bool
  block2OldAeExcluded : Bool
  deriving DecidableEq

/-- What `load_frozen_parameters` makes of it. -/
def ResumeState.progress (r : ResumeState) : Progress where
  completedBlocks := List.range' 1 r.completedBlocks
  validAeRuns := r.validAeRuns
  validSeRuns := r.validSeRuns
  totalValidRuns := r.totalValidRuns
  nextBlockIndex := r.resumeFromBlock
  block2SeCarriedForward := r.block2SeCarriedForward
  block2OldAeExcluded := r.block2OldAeExcluded

/-- The files of the frozen package, and whether their checksum is the expected one. -/
structure Frozen where
  committed : Bool
  formalSeedList : List SeedSpec
  pairedOrderSchedule : List BlockSpec
  maxTestCases : Option ℕ
  timeBudgetSeconds : Option ℕ
  scorerReadyTimeoutSeconds : Option ℕ
  resume : ResumeState
  deriving DecidableEq

/-- `validate_frozen_budget` -/
def Frozen.validateFrozenBudget (z : Frozen) : Bool :=
  z.maxTestCases = some 5 && z.timeBudgetSeconds = some 60 && z.scorerReadyTimeoutSeconds = some 10

/-- `validate_schedule_integrity` -/
def Frozen.validateScheduleIntegrity (z : Frozen) : Bool :=
  z.pairedOrderSchedule.length = 30 && z.formalSeedList.length = 30 &&
    z.pairedOrderSchedule.countP (·.orderType = ascii "AE-first") = 15 &&
    z.pairedOrderSchedule.countP (·.orderType = ascii "SE-first") = 15

/-- `normalize_command`: the assertions before a launch. -/
def Frozen.normalizeCommand (z : Frozen) (blockIndex : ℕ) (backend : Bytes) (second : Bool) :
    Bool :=
  match z.pairedOrderSchedule.find? (·.blockIndex = blockIndex) with
  | none => false
  | some spec =>
    backend = (if second then spec.secondBackend else spec.firstBackend) &&
      match z.formalSeedList.find? (·.blockIndex = blockIndex) with
      | none => false
      | some entry => entry.formalSeed = spec.formalSeed

/-- `paired_order_schedule[block_idx - 1]`; an index of -1 is the last one. -/
def Frozen.specAt (z : Frozen) (blockIdx : ℕ) : Option BlockSpec :=
  if blockIdx = 0 then z.pairedOrderSchedule.getLast? else z.pairedOrderSchedule[blockIdx - 1]?

/-! ## The orchestrator -/

/-- The state that is saved.  `fail_fast` holds the block, if one has failed. -/
structure Saved where
  progress : Progress
  block2AeRetryCount : ℕ
  failFast : Option ℕ
  deriving DecidableEq

/-- A new orchestrator. -/
def Saved.initial : Saved where
  progress := ⟨[], 0, 0, 0, 1, false, false⟩
  block2AeRetryCount := 0
  failFast := none

/-- Where the process is. -/
inductive Proc where
  /-- There is no process. -/
  | off
  /-- At the head of the loop. -/
  | top (o : Saved)
  /-- Before the retry of block 2 is launched. -/
  | retry (o : Saved)
  /-- Before the first run of a block is launched. -/
  | first (o : Saved) (spec : BlockSpec)
  | second (o : Saved) (spec : BlockSpec)
  /-- The block is complete, and not saved. -/
  | complete (o : Saved)
  deriving DecidableEq

/-- What becomes of a run of the runner: its validation, or the end of the orchestrator
during the run. -/
inductive Outcome where
  | valid
  | invalid
  | died
  deriving DecidableEq

inductive Event where
  | start (dryRun execute resume : Bool)
  | loop
  | runner (outcome : Outcome)
  | save
  | crash
  deriving DecidableEq

/-- What a step does outside the process. -/
inductive Note where
  | launched (blockIndex : ℕ) (backend : Bytes)
  | saved (o : Saved)
  deriving DecidableEq

/-- The state file and the process.  `failed` is no data of the orchestrator: it records the
blocks that a process has ended at. -/
structure World where
  disk : Option Saved
  proc : Proc
  failed : List ℕ
  deriving DecidableEq

def backendAe : Bytes := ascii "alfresco_ae_v1"

/-- A fail-fast of the block: `main` returns, and nothing is saved. -/
def World.fail (w : World) (block : ℕ) : World :=
  { w with proc := .off, failed := block :: w.failed }

/-- Behind a valid retry of block 2. -/
def Saved.completeRetry (o : Saved) : Saved :=
  { o with
    block2AeRetryCount := 1
    progress := { o.progress with
      validAeRuns := o.progress.validAeRuns + 1
      validSeRuns := o.progress.validSeRuns + 1
      totalValidRuns := o.progress.totalValidRuns + 1 + 1
      completedBlocks := o.progress.completedBlocks ++ [2]
      nextBlockIndex := 3 } }

/-- Behind a valid pair of runs. -/
def Saved.completePair (o : Saved) : Saved :=
  { o with
    progress := { o.progress with
      validAeRuns := o.progress.validAeRuns + 1
      validSeRuns := o.progress.validSeRuns + 1
      totalValidRuns := o.progress.totalValidRuns + 2
      completedBlocks := o.progress.completedBlocks ++ [o.progress.nextBlockIndex]
      nextBlockIndex := o.progress.nextBlockIndex + 1 } }

/-- `main` up to its loop: the orchestrator with which the loop begins, or none if `main`
returns. -/
def begin (z : Frozen) (disk : Option Saved) (dryRun execute resume : Bool) : Option Saved :=
  -- `load_state` fails without a file.
  (if resume then disk else some Saved.initial).bind fun o =>
    if z.committed then
      -- `load_frozen_parameters`
      let o := { o with progress := z.resume.progress }
      if z.validateFrozenBudget && z.validateScheduleIntegrity then
        if dryRun || !execute then none else some o
      else none
    else none

/-- The orchestrator. -/
def step (z : Frozen) (w : World) : Event → List Note × World
  | .start dryRun execute resume =>
    match w.proc, begin z w.disk dryRun execute resume with
    | .off, some o => ([], { w with proc := .top o })
    | _, _ => ([], w)
  | .loop =>
    match w.proc with
    | .top o =>
      let blockIdx := o.progress.nextBlockIndex
      if blockIdx ≤ 30 then
        match z.specAt blockIdx with
        | none => ([], { w with proc := .off })
        | some spec =>
          if blockIdx = 2 then
            if z.normalizeCommand 2 backendAe true then ([], { w with proc := .retry o })
            else ([], w.fail 2)
          else if z.normalizeCommand spec.blockIndex spec.firstBackend false then
            ([], { w with proc := .first o spec })
          else ([], w.fail spec.blockIndex)
      else ([], { w with proc := .off })
    | _ => ([], w)
  | .runner outcome =>
    match w.proc with
    | .retry o =>
      let note := .launched 2 backendAe
      match outcome with
      | .valid => ([note], { w with proc := .complete o.completeRetry })
      | .invalid => ([note], w.fail 2)
      | .died => ([note], { w with proc := .off })
    | .first o spec =>
      let note := .launched spec.blockIndex spec.firstBackend
      match outcome with
      | .valid =>
        if z.normalizeCommand spec.blockIndex spec.secondBackend true then
          ([note], { w with proc := .second o spec })
        else ([note], w.fail spec.blockIndex)
      | .invalid => ([note], w.fail spec.blockIndex)
      | .died => ([note], { w with proc := .off })
    | .second o spec =>
      let note := .launched spec.blockIndex spec.secondBackend
      match outcome with
      | .valid => ([note], { w with proc := .complete o.completePair })
      | .invalid => ([note], w.fail spec.blockIndex)
      | .died => ([note], { w with proc := .off })
    | _ => ([], w)
  | .save =>
    match w.proc with
    | .complete o => ([.saved o], { w with disk := some o, proc := .top o })
    | _ => ([], w)
  | .crash => ([], { w with proc := .off })

/-! ## What is asked of a run -/

/-- The package numbers its blocks in order, and resumes behind the blocks it counts as
complete, with a run of each backend for every one of them. -/
structure Frozen.Consistent (z : Frozen) : Prop where
  blocks : ∀ i spec, z.pairedOrderSchedule[i]? = some spec → spec.blockIndex = i + 1
  resumeFrom : z.resume.resumeFromBlock = z.resume.completedBlocks + 1
  ae : z.resume.validAeRuns = z.resume.completedBlocks
  se : z.resume.validSeRuns = z.resume.completedBlocks
  total : z.resume.totalValidRuns = 2 * z.resume.completedBlocks

/-- The package passes the checks of `main`. -/
def Frozen.accepted (z : Frozen) : Bool :=
  z.committed && (z.validateFrozenBudget && z.validateScheduleIntegrity)

/-- Two valid runs stand behind each completed block. -/
def Progress.Balanced (p : Progress) : Prop :=
  p.totalValidRuns = p.validAeRuns + p.validSeRuns ∧
    p.totalValidRuns = 2 * p.completedBlocks.length

/-- What the saved state and the process may be between two steps. -/
structure World.Resumable (w : World) : Prop where
  /-- A failed block is not skipped. -/
  failed : ∀ d, w.disk = some d → ∀ b ∈ w.failed, b ∉ d.progress.completedBlocks
  /-- A block that the process turns to has not failed, and what the process knows is what
  was saved. -/
  top : ∀ o, w.proc = .top o →
    o.progress.nextBlockIndex ∉ w.failed ∧ ∀ d, w.disk = some d → o = d

/-- A step goes on where the saved state is. -/
structure Orderly (z : Frozen) (w : World) (e : Event) : Prop where
  launched : ∀ b backend, .launched b backend ∈ (step z w e).1 →
    b ∉ w.failed ∧ (∃ second, z.normalizeCommand b backend second = true) ∧
      ∀ d, w.disk = some d →
        b = d.progress.nextBlockIndex ∧ b ∉ d.progress.completedBlocks
  saved : ∀ o, .saved o ∈ (step z w e).1 → o.progress.Balanced
  next : (step z w e).2.Resumable

/-- The campaign is not started, other than for a dry run, behind a saved state or a failed
block. -/
def StartsFresh (z : Frozen) (w : World) : Event → Prop
  | .start dryRun execute resume =>
    w.proc = .off → z.accepted = true → execute = true → dryRun = false →
      w.disk = none ∧ (resume = false → w.failed = [])
  | _ => True

/-! ## Progress -/

structure Progress.Sound (p : Progress) : Prop where
  next : 1 ≤ p.nextBlockIndex
  blocks : p.completedBlocks = List.range' 1 (p.nextBlockIndex - 1)
  ae : p.validAeRuns = p.nextBlockIndex - 1
  se : p.validSeRuns = p.nextBlockIndex - 1
  total : p.totalValidRuns = 2 * (p.nextBlockIndex - 1)

theorem Progress.Sound.next_notMem {p : Progress} (h : p.Sound) :
    p.nextBlockIndex ∉ p.completedBlocks := by
  rw [h.blocks, List.mem_range'_1]
  have := h.next
  omega

theorem Progress.Sound.balanced {p : Progress} (h : p.Sound) : p.Balanced := by
  unfold Progress.Balanced
  rw [h.blocks, h.ae, h.se, h.total, List.length_range']
  omega

theorem Frozen.Consistent.sound {z : Frozen} (hz : z.Consistent) : z.resume.progress.Sound where
  next := by
    show 1 ≤ z.resume.resumeFromBlock
    have := hz.resumeFrom
    omega
  blocks := by
    show List.range' 1 z.resume.completedBlocks = List.range' 1 (z.resume.resumeFromBlock - 1)
    rw [hz.resumeFrom, Nat.add_sub_cancel]
  ae := by
    show z.resume.validAeRuns = z.resume.resumeFromBlock - 1
    rw [hz.ae, hz.resumeFrom, Nat.add_sub_cancel]
  se := by
    show z.resume.validSeRuns = z.resume.resumeFromBlock - 1
    rw [hz.se, hz.resumeFrom, Nat.add_sub_cancel]
  total := by
    show z.resume.totalValidRuns = 2 * (z.resume.resumeFromBlock - 1)
    rw [hz.total, hz.resumeFrom, Nat.add_sub_cancel]

/-- A block is appended to the completed ones. -/
theorem Progress.Sound.append {p : Progress} (h : p.Sound) :
    p.completedBlocks ++ [p.nextBlockIndex] =
      List.range' 1 (p.nextBlockIndex + 1 - 1) := by
  have hnext : p.nextBlockIndex = 1 + (p.nextBlockIndex - 1) := by
    have := h.next
    omega
  rw [h.blocks, Nat.add_sub_cancel]
  conv_rhs => rw [hnext, Nat.add_comm, List.range'_concat]
  rw [Nat.one_mul, ← hnext]

theorem Saved.completePair_sound {o : Saved} (h : o.progress.Sound) :
    o.completePair.progress.Sound where
  next := Nat.le_add_left 1 _
  blocks := h.append
  ae := by
    show o.progress.validAeRuns + 1 = o.progress.nextBlockIndex + 1 - 1
    have := h.ae
    have := h.next
    omega
  se := by
    show o.progress.validSeRuns + 1 = o.progress.nextBlockIndex + 1 - 1
    have := h.se
    have := h.next
    omega
  total := by
    show o.progress.totalValidRuns + 2 = 2 * (o.progress.nextBlockIndex + 1 - 1)
    have := h.total
    have := h.next
    omega

/-- The retry of block 2 completes its block as a pair of runs does. -/
theorem Saved.completeRetry_progress {o : Saved} (h : o.progress.nextBlockIndex = 2) :
    o.completeRetry.progress = o.completePair.progress := by
  simp [Saved.completeRetry, Saved.completePair, h]

/-! ## The steps -/

theorem begin_eq_some {z : Frozen} {disk : Option Saved} {dryRun execute resume : Bool}
    {o : Saved} (h : begin z disk dryRun execute resume = some o) :
    z.accepted = true ∧ execute = true ∧ dryRun = false ∧
      o.progress = z.resume.progress ∧ (resume = true → disk ≠ none) := by
  unfold begin at h
  obtain ⟨loaded, hloaded, h⟩ := Option.bind_eq_some_iff.mp h
  split_ifs at h with hcommitted hchecks hdry
  cases h
  refine ⟨by rw [Frozen.accepted, hcommitted, hchecks]; rfl, ?_, ?_, rfl, ?_⟩
  · cases execute
    · exact absurd (by simp) hdry
    · rfl
  · cases dryRun
    · rfl
    · exact absurd (by simp) hdry
  · intro hresume hnone
    rw [if_pos hresume, hnone] at hloaded
    exact absurd hloaded (by simp)

theorem begin_isSome {z : Frozen} {disk : Option Saved} {resume : Bool}
    (hz : z.accepted = true) (hdisk : resume = true → disk ≠ none) :
    ∃ o, begin z disk false true resume = some o ∧ o.progress = z.resume.progress := by
  obtain ⟨hcommitted, hchecks⟩ := Bool.and_eq_true_iff.mp hz
  obtain ⟨loaded, hloaded⟩ :
      ∃ loaded, (if resume then disk else some Saved.initial) = some loaded := by
    cases resume with
    | false => exact ⟨Saved.initial, rfl⟩
    | true => exact Option.ne_none_iff_exists'.mp (hdisk rfl)
  refine ⟨{ loaded with progress := z.resume.progress }, ?_, rfl⟩
  unfold begin
  rw [hloaded, Option.bind_some, if_pos hcommitted, if_pos hchecks]
  rfl

theorem Frozen.Consistent.specAt {z : Frozen} (hz : z.Consistent) {n : ℕ} (hn : 1 ≤ n)
    {spec : BlockSpec} (h : z.specAt n = some spec) : spec.blockIndex = n := by
  unfold Frozen.specAt at h
  rw [if_neg (by omega)] at h
  rw [hz.blocks _ _ h]
  omega

/-- The process has the saved state, or that of the package, and no block has failed. -/
structure Live (z : Frozen) (disk : Option Saved) (failed : List ℕ) (o : Saved) : Prop where
  none_failed : failed = []
  sound : o.progress.Sound
  from_le : z.resume.resumeFromBlock ≤ o.progress.nextBlockIndex
  stored : ∀ d, disk = some d → o = d
  fresh : disk = none → o.progress.nextBlockIndex = z.resume.resumeFromBlock

def ProcInv (z : Frozen) (disk : Option Saved) (failed : List ℕ) : Proc → Prop
  | .off => True
  | .top o => Live z disk failed o
  | .retry o =>
    Live z disk failed o ∧ o.progress.nextBlockIndex = 2 ∧
      z.normalizeCommand 2 backendAe true = true
  | .first o spec =>
    Live z disk failed o ∧ spec.blockIndex = o.progress.nextBlockIndex ∧
      z.normalizeCommand spec.blockIndex spec.firstBackend false = true
  | .second o spec =>
    Live z disk failed o ∧ spec.blockIndex = o.progress.nextBlockIndex ∧
      z.normalizeCommand spec.blockIndex spec.secondBackend true = true
  | .complete o =>
    failed = [] ∧ o.progress.Sound ∧
      z.resume.resumeFromBlock < o.progress.nextBlockIndex

/-- What a run keeps whose starts are fresh.  A failed block is the one that comes next. -/
structure Inv (z : Frozen) (w : World) : Prop where
  disk : ∀ d, w.disk = some d →
    d.progress.Sound ∧ z.resume.resumeFromBlock < d.progress.nextBlockIndex ∧
      ∀ b ∈ w.failed, b = d.progress.nextBlockIndex
  fresh : w.disk = none → ∀ b ∈ w.failed, b = z.resume.resumeFromBlock
  proc : ProcInv z w.disk w.failed w.proc

theorem Inv.resumable {z : Frozen} {w : World} (h : Inv z w) : w.Resumable where
  failed d hd b hb := by
    obtain ⟨hsound, -, hfailed⟩ := h.disk d hd
    rw [hfailed b hb]
    exact hsound.next_notMem
  top o ho := by
    have hproc := h.proc
    rw [ho] at hproc
    refine ⟨?_, hproc.stored⟩
    rw [hproc.none_failed]
    exact List.not_mem_nil

theorem Inv.off {z : Frozen} {w : World} (h : Inv z w) : Inv z { w with proc := .off } where
  disk := h.disk
  fresh := h.fresh
  proc := trivial

theorem Inv.fail {z : Frozen} {w : World} (h : Inv z w) {o : Saved}
    (hlive : Live z w.disk w.failed o) :
    Inv z (w.fail o.progress.nextBlockIndex) where
  disk d hd := by
    obtain ⟨hsound, hlt, hfailed⟩ := h.disk d hd
    refine ⟨hsound, hlt, fun b hb => ?_⟩
    rcases List.mem_cons.mp hb with rfl | hb
    · rw [hlive.stored d hd]
    · exact hfailed b hb
  fresh hnone b hb := by
    rcases List.mem_cons.mp hb with rfl | hb
    · exact hlive.fresh hnone
    · exact h.fresh hnone b hb
  proc := trivial

/-- A start that reaches the loop. -/
theorem Inv.start {z : Frozen} (hz : z.Consistent) {w : World} (h : Inv z w) {o : Saved}
    (ho : o.progress = z.resume.progress) (hdisk : w.disk = none)
    (hfailed : w.failed = []) : Inv z { w with proc := .top o } where
  disk := h.disk
  fresh := h.fresh
  proc := by
    refine ⟨hfailed, by rw [ho]; exact hz.sound, by rw [ho]; exact Nat.le_refl _, ?_, ?_⟩
    · intro d hd
      exact absurd (hdisk.symm.trans hd) (by simp)
    · intro
      rw [ho]
      rfl

theorem Inv.save {z : Frozen} {w : World} {o : Saved} (hfailed : w.failed = [])
    (hsound : o.progress.Sound) (hlt : z.resume.resumeFromBlock < o.progress.nextBlockIndex) :
    Inv z { w with disk := some o, proc := .top o } where
  disk d hd := by
    cases hd
    refine ⟨hsound, hlt, fun b hb => ?_⟩
    rw [hfailed] at hb
    exact absurd hb List.not_mem_nil
  fresh hnone := absurd hnone (by simp)
  proc := by
    refine ⟨hfailed, hsound, Nat.le_of_lt hlt, ?_, fun hnone => absurd hnone (by simp)⟩
    intro d hd
    exact Option.some.inj hd

theorem Inv.loop {z : Frozen} (hz : z.Consistent) {w : World} (h : Inv z w) :
    Inv z (step z w .loop).2 := by
  obtain ⟨disk, proc, failed⟩ := w
  cases proc with
  | top o =>
    have hlive : Live z disk failed o := h.proc
    simp only [step]
    split
    · split
      · exact h.off
      · rename_i spec hspec
        have hblock := hz.specAt hlive.sound.next hspec
        split
        · rename_i htwo
          split_ifs with hgate
          · exact ⟨h.disk, h.fresh, ⟨hlive, htwo, hgate⟩⟩
          · rw [← htwo]
            exact h.fail hlive
        · split_ifs with hgate
          · exact ⟨h.disk, h.fresh, ⟨hlive, hblock, hgate⟩⟩
          · rw [hblock]
            exact h.fail hlive
    · exact h.off
  | off => exact h
  | retry o => exact h
  | first o spec => exact h
  | second o spec => exact h
  | complete o => exact h

/-- Behind a valid pair. -/
theorem Live.complete {z : Frozen} {disk : Option Saved} {failed : List ℕ} {o o' : Saved}
    (h : Live z disk failed o)
    (ho : o'.progress = o.completePair.progress) : ProcInv z disk failed (.complete o') := by
  refine ⟨h.none_failed, ?_, ?_⟩
  · rw [ho]
    exact Saved.completePair_sound h.sound
  · rw [ho]
    exact Nat.lt_succ_of_le h.from_le

theorem Inv.runner {z : Frozen} {w : World} (h : Inv z w) (outcome : Outcome) :
    Inv z (step z w (.runner outcome)).2 := by
  obtain ⟨disk, proc, failed⟩ := w
  cases proc with
  | retry o =>
    obtain ⟨hlive, htwo, -⟩ := h.proc
    cases outcome with
    | valid =>
      exact ⟨h.disk, h.fresh, hlive.complete (Saved.completeRetry_progress htwo)⟩
    | invalid =>
      show Inv z (World.fail ⟨disk, .retry o, failed⟩ 2)
      rw [← htwo]
      exact h.fail hlive
    | died => exact h.off
  | first o spec =>
    obtain ⟨hlive, hblock, -⟩ := h.proc
    cases outcome with
    | valid =>
      simp only [step]
      split_ifs with hgate
      · exact ⟨h.disk, h.fresh, ⟨hlive, hblock, hgate⟩⟩
      · rw [hblock]
        exact h.fail hlive
    | invalid =>
      show Inv z (World.fail ⟨disk, .first o spec, failed⟩ spec.blockIndex)
      rw [hblock]
      exact h.fail hlive
    | died => exact h.off
  | second o spec =>
    obtain ⟨hlive, hblock, -⟩ := h.proc
    cases outcome with
    | valid => exact ⟨h.disk, h.fresh, hlive.complete rfl⟩
    | invalid =>
      show Inv z (World.fail ⟨disk, .second o spec, failed⟩ spec.blockIndex)
      rw [hblock]
      exact h.fail hlive
    | died => exact h.off
  | off => exact h
  | top o => exact h
  | complete o => exact h

theorem Inv.keeps {z : Frozen} (hz : z.Consistent) {w : World} (h : Inv z w) (e : Event)
    (hfresh : StartsFresh z w e) : Inv z (step z w e).2 := by
  cases e with
  | start dryRun execute resume =>
    simp only [step]
    split
    · rename_i o hproc hbegin
      obtain ⟨hz', hexecute, hdry, ho, hresume⟩ := begin_eq_some hbegin
      obtain ⟨hdisk, hfailed⟩ := hfresh hproc hz' hexecute hdry
      cases resume with
      | false => exact h.start hz ho hdisk (hfailed rfl)
      | true => exact absurd hdisk (hresume rfl)
    · exact h
  | loop => exact h.loop hz
  | runner outcome => exact h.runner outcome
  | save =>
    obtain ⟨disk, proc, failed⟩ := w
    cases proc with
    | complete o =>
      obtain ⟨hfailed, hsound, hlt⟩ := h.proc
      exact Inv.save hfailed hsound hlt
    | off => exact h
    | top o => exact h
    | retry o => exact h
    | first o spec => exact h
    | second o spec => exact h
  | crash => exact h.off

/-- What a step notes. -/
theorem mem_notes {z : Frozen} {w : World} {e : Event} {note : Note}
    (h : note ∈ (step z w e).1) :
    (∃ o, w.proc = .retry o ∧ note = .launched 2 backendAe) ∨
    (∃ o spec, w.proc = .first o spec ∧
      note = .launched spec.blockIndex spec.firstBackend) ∨
    (∃ o spec, w.proc = .second o spec ∧
      note = .launched spec.blockIndex spec.secondBackend) ∨
    ∃ o, w.proc = .complete o ∧ note = .saved o := by
  cases e with
  | start dryRun execute resume =>
    simp only [step] at h
    split at h <;> exact absurd h List.not_mem_nil
  | loop =>
    simp only [step] at h
    repeat' split at h
    all_goals exact absurd h List.not_mem_nil
  | runner outcome =>
    simp only [step] at h
    split at h
    · rename_i o hproc
      refine .inl ⟨o, hproc, ?_⟩
      cases outcome <;> exact List.mem_singleton.mp h
    · rename_i o spec hproc
      refine .inr (.inl ⟨o, spec, hproc, ?_⟩)
      repeat' split at h
      all_goals exact List.mem_singleton.mp h
    · rename_i o spec hproc
      refine .inr (.inr (.inl ⟨o, spec, hproc, ?_⟩))
      cases outcome <;> exact List.mem_singleton.mp h
    · exact absurd h List.not_mem_nil
  | save =>
    simp only [step] at h
    split at h
    · rename_i o hproc
      exact .inr (.inr (.inr ⟨o, hproc, List.mem_singleton.mp h⟩))
    · exact absurd h List.not_mem_nil
  | crash => exact absurd h List.not_mem_nil

/-- What is launched is the next block of a live process. -/
theorem Inv.launched {z : Frozen} {w : World} (h : Inv z w) {e : Event} {b : ℕ}
    {backend : Bytes} (hb : .launched b backend ∈ (step z w e).1) :
    ∃ o, Live z w.disk w.failed o ∧ b = o.progress.nextBlockIndex ∧
      ∃ second, z.normalizeCommand b backend second = true := by
  have hproc := h.proc
  obtain ⟨o, ho, hnote⟩ | ⟨o, spec, ho, hnote⟩ | ⟨o, spec, ho, hnote⟩ | ⟨o, ho, hnote⟩ :=
    mem_notes hb
  · cases hnote
    rw [ho] at hproc
    obtain ⟨hlive, htwo, hgate⟩ := hproc
    exact ⟨o, hlive, htwo.symm, true, hgate⟩
  · cases hnote
    rw [ho] at hproc
    obtain ⟨hlive, hblock, hgate⟩ := hproc
    exact ⟨o, hlive, hblock, false, hgate⟩
  · cases hnote
    rw [ho] at hproc
    obtain ⟨hlive, hblock, hgate⟩ := hproc
    exact ⟨o, hlive, hblock, true, hgate⟩
  · cases hnote

theorem Inv.saved {z : Frozen} {w : World} (h : Inv z w) {e : Event} {o : Saved}
    (ho : .saved o ∈ (step z w e).1) : o.progress.Sound := by
  have hproc := h.proc
  obtain ⟨_, _, hnote⟩ | ⟨_, _, _, hnote⟩ | ⟨_, _, _, hnote⟩ | ⟨o', ho', hnote⟩ := mem_notes ho
  · cases hnote
  · cases hnote
  · cases hnote
  · cases hnote
    rw [ho'] at hproc
    exact hproc.2.1

theorem Inv.orderly {z : Frozen} (hz : z.Consistent) {w : World} (h : Inv z w) {e : Event}
    (hfresh : StartsFresh z w e) : Orderly z w e where
  launched b backend hb := by
    obtain ⟨o, hlive, hnext, hgate⟩ := h.launched hb
    refine ⟨?_, hgate, fun d hd => ?_⟩
    · rw [hlive.none_failed]
      exact List.not_mem_nil
    · rw [hnext, ← hlive.stored d hd]
      exact ⟨rfl, hlive.sound.next_notMem⟩
  saved _ ho := (h.saved ho).balanced
  next := (h.keeps hz e hfresh).resumable

/-- A start behind a saved state or a failed block takes the state of the package. -/
theorem Inv.startsFresh {z : Frozen} {w : World} (h : Inv z w) {e : Event}
    (horderly : Orderly z w e) : StartsFresh z w e := by
  cases e with
  | start dryRun execute resume =>
    intro hproc hz hexecute hdry
    subst hexecute hdry
    have hstart : ∀ o, begin z w.disk false true resume = some o →
        (step z w (.start false true resume)).2 = { w with proc := .top o } := by
      intro o ho
      simp only [step, hproc, ho]
    have hnone : w.disk = none := by
      by_contra hdisk
      obtain ⟨d, hd⟩ := Option.ne_none_iff_exists'.mp hdisk
      obtain ⟨o, ho, hprogress⟩ := @begin_isSome z w.disk resume hz fun _ => hdisk
      have hnext := horderly.next
      rw [hstart o ho] at hnext
      have hsame : o = d := (hnext.top o rfl).2 d hd
      obtain ⟨-, hlt, -⟩ := h.disk d hd
      rw [← hsame, hprogress] at hlt
      exact absurd hlt (Nat.lt_irrefl _)
    refine ⟨hnone, fun hresume => List.eq_nil_iff_forall_not_mem.mpr fun b hb => ?_⟩
    subst hresume
    obtain ⟨o, ho, hprogress⟩ :=
      @begin_isSome z w.disk false hz fun hfalse => nomatch hfalse
    have hnext := horderly.next
    rw [hstart o ho] at hnext
    apply (hnext.top o rfl).1
    rw [hprogress]
    show z.resume.resumeFromBlock ∈ w.failed
    rw [← h.fresh hnone b hb]
    exact hb
  | loop => trivial
  | runner outcome => trivial
  | save => trivial
  | crash => trivial

/-! ## Runs -/

/-- A campaign before its first start. -/
def World.initial : World := ⟨none, .off, []⟩

theorem Inv.initial (z : Frozen) : Inv z World.initial where
  disk := by simp [World.initial]
  fresh := by simp [World.initial]
  proc := trivial

/-- The steps of a campaign go on where the saved state is exactly if it is never started
behind a saved state or a failed block. -/
theorem campaign_orderly {z : Frozen} (hz : z.Consistent) (es : List Event) :
    Machine.Meets (step z) (Orderly z) World.initial es ↔
      Machine.Meets (step z) (StartsFresh z) World.initial es :=
  Machine.meets_congr (step z) (StartsFresh z) (Orderly z) (Inv z)
    (fun _ _ h => ⟨h.startsFresh, h.orderly hz⟩) (fun _ e h hfresh => h.keeps hz e hfresh)
    (Inv.initial z) es

/-! ## The committed package -/

/-- `formal_seed_list`, in the order of the blocks. -/
def r2Seeds : List ℕ :=
  [1120356083, 1662671266, 679638914, 1291771079, 1925997588, 1164819555, 270788736, 597071697,
    107262288, 1147441911, 1337758293, 715818928, 458057513, 1333315632, 1727188078, 499977047,
    1538384009, 490013941, 1154573679, 20998844, 1520955372, 1366260976, 860140347, 1079511430,
    767385935, 2009153664, 1420622181, 2034960800, 348560965, 1332557731]

def backendSe : Bytes := ascii "sefanogan_es_reference"

/-- Odd blocks run the AE backend first. -/
def r2Block (seed i : ℕ) : BlockSpec :=
  if i % 2 = 0 then ⟨i + 1, seed, ascii "AE-first", backendAe, backendSe⟩
  else ⟨i + 1, seed, ascii "SE-first", backendSe, backendAe⟩

/-- The package under `PHASE4_FORMAL_EXECUTION_FREEZE_R2`. -/
def r2Freeze : Frozen where
  committed := true
  formalSeedList := r2Seeds.mapIdx fun i seed => ⟨i + 1, seed⟩
  pairedOrderSchedule := r2Seeds.mapIdx fun i seed => r2Block seed i
  maxTestCases := some 5
  timeBudgetSeconds := some 60
  scorerReadyTimeoutSeconds := some 10
  resume := ⟨1, 1, 1, 2, 2, false, false⟩

theorem r2Freeze_consistent : r2Freeze.Consistent where
  blocks i spec h := by
    simp only [r2Freeze, List.getElem?_mapIdx, Option.map_eq_some_iff] at h
    obtain ⟨seed, -, rfl⟩ := h
    unfold r2Block
    split_ifs <;> rfl
  resumeFrom := rfl
  ae := rfl
  se := rfl
  total := rfl

/-- The orchestrator dies in the retry of block 2 and is started again; block 3 fails. -/
theorem campaign_orderly_r2 :
    Machine.Meets (step r2Freeze) (Orderly r2Freeze) World.initial
      [.start false true false, .loop, .runner .died, .start false true false, .loop,
        .runner .valid, .save, .loop, .runner .valid, .runner .invalid] := by
  apply (campaign_orderly r2Freeze_consistent _).mpr
  refine ⟨fun _ _ _ _ => ?_, trivial, trivial, fun _ _ _ _ => ?_, trivial, trivial, trivial,
    trivial, trivial, trivial, trivial⟩
  · decide
  · decide

/-- What is saved behind the retry of block 2. -/
def savedBlock2 : Saved where
  progress := ⟨[1, 2], 2, 2, 4, 3, false, false⟩
  block2AeRetryCount := 1
  failFast := none

/-- Block 2 is executed again behind the saved state that says it is complete. -/
theorem resume_repeats_block :
    ¬ Machine.Meets (step r2Freeze) (Orderly r2Freeze) World.initial
      ([.start false true false, .loop, .runner .valid, .save, .crash, .start false true true,
        .loop] ++ [.runner .valid]) := by
  intro h
  have hlast := ((Machine.meets_concat _ _ _ _ _).mp h).2
  have hlaunched := (hlast.launched 2 backendAe (by decide)).2.2 savedBlock2 (by decide)
  exact hlaunched.2 (by decide)

end Campaign

end AflNv
