import Mathlib.Algebra.Order.Field.Basic
import Mathlib.Data.List.MinMax
import Mathlib.Data.Fintype.Pi
import AflNv.CBase

/-!
# The mutation-arm bandit

`src/afl-fuzz-nv-mab.c`: the arms of the multi-armed bandit, the choice of the
next arm and the update of an arm with a reward.

The numbers the code keeps as `double` are elements of a linearly ordered field
`R`, so the model runs over the rationals and is reasoned about over the reals.
`log` and `sqrt` are parameters.  The two loops of `nv_mab_pick` are folds over
the arms in the order of their numbers; `nvMabLeast_eq_argmin` and
`nvMabUcbScan_eq_argmax` read them as the `argmin` and `argmax` of Mathlib, which
settle ties in the same way.
-/

namespace AflNv

/-- `NV_ARM_MAX`. -/
abbrev nvArmMax : ℕ := 3

/-- An arm the bandit can play; `nv_arm_id_t` without `NV_ARM_MAX`. -/
abbrev ArmIdx := Fin nvArmMax

/-- `NV_ARM_FIELD_VALUE`. -/
def ArmIdx.fieldValue : ArmIdx := 0

/-- A value of type `nv_arm_id_t` that is not known to be an arm. -/
abbrev NvArmId := ℤ

/-- The array index a value of `nv_arm_id_t` stands for. -/
def NvArmId.idx (arm : NvArmId) : Option ArmIdx :=
  if h : 0 ≤ arm ∧ arm.toNat < nvArmMax then some ⟨arm.toNat, h.2⟩ else none

@[simp] theorem NvArmId.idx_natCast (a : ArmIdx) : NvArmId.idx (a.val : ℤ) = some a := by
  rw [NvArmId.idx, dif_pos ⟨Int.natCast_nonneg a.val, by simp⟩]
  simp

theorem NvArmId.idx_eq_some {arm : NvArmId} {a : ArmIdx} (h : arm.idx = some a) :
    arm = (a.val : ℤ) := by
  unfold NvArmId.idx at h
  split_ifs at h with hrange
  rw [← Option.some.inj h]
  exact (Int.toNat_of_nonneg hrange.1).symm

/-- `nv_arm_enabled`. -/
def nvArmEnabled (scopeMask : UInt32) (arm : ArmIdx) : Bool :=
  match arm with
  | 0 => scopeMask &&& 0x1 ≠ 0
  | 1 => scopeMask &&& 0x2 ≠ 0
  | 2 => scopeMask &&& 0x4 ≠ 0

/-- `nv_arm_t`. -/
structure NvArm (R : Type) where
  pulls : ℕ
  meanReward : R
  posCnt : ℕ
  sumReward : R
  deriving DecidableEq

/-- `nv_mab_t`. -/
structure NvMab (R : Type) where
  arms : ArmIdx → NvArm R
  totalPulls : ℕ
  c : R
  pendingArm : NvArmId
  pendingSelectedArm : NvArmId
  pendingSelectedValid : Bool
  pendingIteration : ℕ
  pendingUpdate : Bool
  pendingLedgerTerminalRecorded : Bool
  updateSource : UInt8
  minExplore : ℕ
  coldStartPicks : ℕ
  ucbPicks : ℕ
  initialized : Bool

/-- The functions of the C library the bandit calls. -/
structure MathFns (R : Type) where
  log : R → R
  sqrt : R → R

section

variable {R : Type} [Field R] [LinearOrder R]

/-- The overrides of the tunables that `nv_mab_env_c` and
`nv_mab_env_min_explore` find in the environment; `none` when there is no valid
one. -/
structure MabEnv (R : Type) [Field R] [LinearOrder R] where
  envC : Option R
  envMinExplore : Option ℕ
  envC_pos : ∀ c ∈ envC, 0 < c
  envMinExplore_range : ∀ m ∈ envMinExplore, 1 ≤ m ∧ m ≤ 1000000

/-- An environment without overrides. -/
def MabEnv.empty : MabEnv R where
  envC := none
  envMinExplore := none
  envC_pos := by simp
  envMinExplore_range := by simp

/-- A zero-filled `nv_mab_t`. -/
def NvMab.zero : NvMab R where
  arms := fun _ => ⟨0, 0, 0, 0⟩
  totalPulls := 0
  c := 0
  pendingArm := 0
  pendingSelectedArm := 0
  pendingSelectedValid := false
  pendingIteration := 0
  pendingUpdate := false
  pendingLedgerTerminalRecorded := false
  updateSource := 0
  minExplore := 0
  coldStartPicks := 0
  ucbPicks := 0
  initialized := false

/-- `nv_mab_init_defaults`: `NV_MAB_DEFAULT_C` and `NV_MAB_DEFAULT_MIN_EXPLORE`
unless the environment overrides them. -/
def nvMabInitDefaults (env : MabEnv R) (mab : NvMab R) : NvMab R :=
  { mab with
    c := env.envC.getD (1 / 20)
    minExplore := env.envMinExplore.getD 8
    initialized := true }

/-- `nv_mab_begin_pending`. -/
def nvMabBeginPending (mab : NvMab R) (selectedArm actualUsedArm : NvArmId)
    (iterationId : ℕ) (updateSource : UInt8) : NvMab R :=
  { mab with
    pendingArm := actualUsedArm
    pendingSelectedArm := selectedArm
    pendingSelectedValid := true
    pendingIteration := iterationId
    pendingUpdate := true
    pendingLedgerTerminalRecorded := false
    updateSource := updateSource }

/-! ## The choice of an arm -/

/-- The warm-up loop of `nv_mab_pick`: the least-pulled enabled arm with its
pulls; `none` is `least == NV_ARM_MAX`. -/
def nvMabLeast (mab : NvMab R) (scopeMask : UInt32) : Option (ArmIdx × ℕ) :=
  (List.finRange nvArmMax).foldl
    (fun least a =>
      if nvArmEnabled scopeMask a then
        match least with
        | none => some (a, (mab.arms a).pulls)
        | some (b, leastSeen) =>
          if (mab.arms a).pulls < leastSeen then some (a, (mab.arms a).pulls)
          else some (b, leastSeen)
      else least)
    none

/-- The upper confidence bound of an arm. -/
def NvMab.ucb (fns : MathFns R) (mab : NvMab R) (a : ArmIdx) : R :=
  (mab.arms a).meanReward +
    mab.c * fns.sqrt (fns.log ((mab.totalPulls : R) + 1) / ((mab.arms a).pulls : R))

/-- The start value of `best_ucb`, `-1e100`. -/
def ucbFloor : R := -(10 ^ 100)

/-- The UCB loop of `nv_mab_pick` over the remaining arms, with the arm to
return and whether the loop ran to its end. -/
def nvMabUcbScan (fns : MathFns R) (mab : NvMab R) (scopeMask : UInt32) :
    List ArmIdx → ArmIdx → R → ArmIdx × Bool
  | [], best, _ => (best, true)
  | a :: as, best, bestUcb =>
    if nvArmEnabled scopeMask a then
      if (mab.arms a).pulls = 0 then (a, false)
      else if mab.ucb fns a > bestUcb then nvMabUcbScan fns mab scopeMask as a (mab.ucb fns a)
      else nvMabUcbScan fns mab scopeMask as best bestUcb
    else nvMabUcbScan fns mab scopeMask as best bestUcb

/-- The lazy initialisation at the start of `nv_mab_pick`. -/
def NvMab.lazyInit (env : MabEnv R) (mab : NvMab R) : NvMab R :=
  if mab.initialized then mab else nvMabInitDefaults env mab

/-- The fallback of `nv_mab_pick`: an empty scope enables all arms. -/
def effectiveMask (scopeMask : UInt32) : UInt32 := if scopeMask = 0 then 0x7 else scopeMask

/-- `nv_mab_pick`. -/
def nvMabPick (env : MabEnv R) (fns : MathFns R) (mab : NvMab R) (scopeMask : UInt32) :
    ArmIdx × NvMab R :=
  let mab := mab.lazyInit env
  let scopeMask := effectiveMask scopeMask
  match nvMabLeast mab scopeMask with
  | none => (.fieldValue, mab)
  | some (least, leastSeen) =>
    if leastSeen < mab.minExplore then
      (least, { mab with coldStartPicks := mab.coldStartPicks + 1 })
    else
      match nvMabUcbScan fns mab scopeMask (List.finRange nvArmMax) .fieldValue ucbFloor with
      | (a, false) => (a, mab)
      | (best, true) => (best, { mab with ucbPicks := mab.ucbPicks + 1 })

/-! ## The update of an arm -/

/-- The new statistics of an arm that was pulled with this reward. -/
def NvArm.pull (arm : NvArm R) (reward : R) : NvArm R where
  pulls := arm.pulls + 1
  sumReward := arm.sumReward + reward
  posCnt := if reward > 0 then arm.posCnt + 1 else arm.posCnt
  meanReward := arm.meanReward + (reward - arm.meanReward) / ((arm.pulls + 1 : ℕ) : R)

/-- `nv_mab_update`. -/
def nvMabUpdate (mab : NvMab R) (arm : NvArmId) (reward : R) : NvMab R :=
  match arm.idx with
  | none => mab
  | some a =>
    { mab with
      totalPulls := mab.totalPulls + 1
      arms := Function.update mab.arms a ((mab.arms a).pull reward) }

/-! ## What the loops compute -/

/-- The arms a scope enables. -/
def enabledArms (scopeMask : UInt32) : Finset ArmIdx :=
  Finset.univ.filter fun a => nvArmEnabled (effectiveMask scopeMask) a

/-- The enabled arms in the order the loops visit them. -/
def enabledList (scopeMask : UInt32) : List ArmIdx :=
  (List.finRange nvArmMax).filter fun a => nvArmEnabled (effectiveMask scopeMask) a

@[simp] theorem mem_enabledList {scopeMask : UInt32} {a : ArmIdx} :
    a ∈ enabledList scopeMask ↔ a ∈ enabledArms scopeMask := by
  simp [enabledList, enabledArms]

theorem enabledList_sorted (scopeMask : UInt32) : (enabledList scopeMask).Pairwise (· < ·) :=
  (List.pairwise_lt_finRange nvArmMax).filter _

/-- In a list in increasing order, the first position is the smaller element. -/
theorem le_of_idxOf_le {l : List ArmIdx} (hl : l.Pairwise (· < ·)) {a b : ArmIdx}
    (ha : a ∈ l) (hb : b ∈ l) (h : l.idxOf a ≤ l.idxOf b) : a ≤ b := by
  have hia := List.idxOf_lt_length_of_mem ha
  have hib := List.idxOf_lt_length_of_mem hb
  rcases h.eq_or_lt with heq | hlt
  · rw [List.idxOf_inj ha] at heq
    exact heq.le
  · have := List.pairwise_iff_getElem.mp hl _ _ hia hib hlt
    simpa using this.le

omit [Field R] [LinearOrder R] in
theorem nvMabLeast_eq_argmin (mab : NvMab R) (scopeMask : UInt32) :
    nvMabLeast mab (effectiveMask scopeMask) =
      ((enabledList scopeMask).argmin fun a => (mab.arms a).pulls).map
        fun a => (a, (mab.arms a).pulls) := by
  rw [List.argmin, enabledList, List.foldl_filter, nvMabLeast]
  suffices key : ∀ (as : List ArmIdx) (least : Option ArmIdx),
      as.foldl
          (fun least a =>
            if nvArmEnabled (effectiveMask scopeMask) a then
              match least with
              | none => some (a, (mab.arms a).pulls)
              | some (b, leastSeen) =>
                if (mab.arms a).pulls < leastSeen then some (a, (mab.arms a).pulls)
                else some (b, leastSeen)
            else least)
          (least.map fun a => (a, (mab.arms a).pulls)) =
        (as.foldl
          (fun x y =>
            if nvArmEnabled (effectiveMask scopeMask) y then
              List.argAux (fun b c => (mab.arms b).pulls < (mab.arms c).pulls) x y
            else x)
          least).map fun a => (a, (mab.arms a).pulls) from key _ none
  intro as
  induction as with
  | nil => exact fun _ => rfl
  | cons a as ih =>
    intro least
    rw [List.foldl_cons, List.foldl_cons, ← ih]
    congr 1
    by_cases ha : nvArmEnabled (effectiveMask scopeMask) a = true
    · simp only [if_pos ha]
      cases least with
      | none => rfl
      | some b =>
        by_cases hlt : (mab.arms a).pulls < (mab.arms b).pulls <;>
          simp [List.argAux, hlt]
    · simp only [if_neg ha]

omit [Field R] [LinearOrder R] in
/-- The warm-up loop finds the least-pulled enabled arm, and among several the
one with the lowest number. -/
theorem nvMabLeast_eq_some {mab : NvMab R} {scopeMask : UInt32} {a : ArmIdx} {seen : ℕ}
    (h : nvMabLeast mab (effectiveMask scopeMask) = some (a, seen)) :
    a ∈ enabledArms scopeMask ∧ seen = (mab.arms a).pulls ∧
      ∀ b ∈ enabledArms scopeMask, (mab.arms a).pulls ≤ (mab.arms b).pulls ∧
        (b < a → (mab.arms a).pulls < (mab.arms b).pulls) := by
  rw [nvMabLeast_eq_argmin, Option.map_eq_some_iff] at h
  obtain ⟨a', hargmin, heq⟩ := h
  obtain ⟨rfl, rfl⟩ := Prod.mk.inj heq
  have hmem := List.argmin_mem hargmin
  refine ⟨mem_enabledList.mp hmem, rfl, fun b hb => ?_⟩
  have hle := List.le_of_mem_argmin (mem_enabledList.mpr hb) hargmin
  refine ⟨hle, fun hlt => lt_of_le_of_ne hle fun hsame => ?_⟩
  have hidx := List.index_of_argmin hargmin (mem_enabledList.mpr hb) hsame.ge
  have hab := le_of_idxOf_le (enabledList_sorted scopeMask) hmem (mem_enabledList.mpr hb) hidx
  exact absurd hlt hab.not_gt

omit [Field R] [LinearOrder R] in
theorem nvMabLeast_eq_none {mab : NvMab R} {scopeMask : UInt32}
    (h : nvMabLeast mab (effectiveMask scopeMask) = none) : enabledArms scopeMask = ∅ := by
  rw [nvMabLeast_eq_argmin, Option.map_eq_none_iff, List.argmin_eq_none] at h
  refine Finset.eq_empty_of_forall_notMem fun a ha => ?_
  rw [← mem_enabledList, h] at ha
  exact absurd ha List.not_mem_nil

/-- When every enabled arm has been pulled, the UCB loop runs to its end and
returns the first maximum among the arms above its start value. -/
theorem nvMabUcbScan_eq_argmax (fns : MathFns R) {mab : NvMab R} {scopeMask : UInt32}
    (hpulls : ∀ a ∈ enabledArms scopeMask, (mab.arms a).pulls ≠ 0) :
    nvMabUcbScan fns mab (effectiveMask scopeMask) (List.finRange nvArmMax) .fieldValue ucbFloor =
      ((((enabledList scopeMask).filter fun a => ucbFloor < mab.ucb fns a).argmax
        (mab.ucb fns)).getD .fieldValue, true) := by
  rw [List.argmax, enabledList, List.filter_filter, List.foldl_filter]
  suffices key : ∀ (as : List ArmIdx) (best : Option ArmIdx),
      (∀ b ∈ best, ucbFloor < mab.ucb fns b) →
      nvMabUcbScan fns mab (effectiveMask scopeMask) as (best.getD .fieldValue)
          (best.elim ucbFloor (mab.ucb fns)) =
        ((as.foldl
          (fun x y =>
            if (decide (ucbFloor < mab.ucb fns y) && nvArmEnabled (effectiveMask scopeMask) y)
            then List.argAux (fun b c => mab.ucb fns c < mab.ucb fns b) x y
            else x)
          best).getD .fieldValue, true) from key _ none (by simp)
  intro as
  induction as with
  | nil => exact fun _ _ => rfl
  | cons a as ih =>
    intro best hbest
    rw [List.foldl_cons, nvMabUcbScan]
    by_cases ha : nvArmEnabled (effectiveMask scopeMask) a = true
    · have hmem : a ∈ enabledArms scopeMask := by simp [enabledArms, ha]
      rw [if_pos ha, if_neg (hpulls a hmem)]
      cases best with
      | none =>
        by_cases hgt : ucbFloor < mab.ucb fns a
        · have := ih (some a) (by simpa using hgt)
          simpa [ha, hgt, List.argAux] using this
        · have := ih none (by simp)
          simpa [ha, hgt, List.argAux] using this
      | some b =>
        have hb : ucbFloor < mab.ucb fns b := hbest b rfl
        by_cases hgt : mab.ucb fns b < mab.ucb fns a
        · have := ih (some a) (by simpa using hb.trans hgt)
          simpa [ha, hgt, hb.trans hgt, List.argAux] using this
        · have := ih (some b) hbest
          by_cases hfloor : ucbFloor < mab.ucb fns a <;>
            simpa [ha, hgt, hfloor, List.argAux] using this
    · have := ih best hbest
      simpa [ha] using this

/-- The two ways `nv_mab_pick` decides when some arm is enabled and the warm-up
is not empty. -/
inductive PickExit (fns : MathFns R) (mab : NvMab R) (scopeMask : UInt32) :
    ArmIdx × NvMab R → Prop where
  /-- Some arm lacks samples: the least-pulled one with the lowest number. -/
  | warmUp (a : ArmIdx) (hena : a ∈ enabledArms scopeMask)
      (hshort : (mab.arms a).pulls < mab.minExplore)
      (hleast : ∀ b ∈ enabledArms scopeMask, (mab.arms a).pulls ≤ (mab.arms b).pulls ∧
        (b < a → (mab.arms a).pulls < (mab.arms b).pulls)) :
      PickExit fns mab scopeMask (a, { mab with coldStartPicks := mab.coldStartPicks + 1 })
  /-- Every arm has its samples: the choice of the UCB loop. -/
  | ucb (hlong : ∀ b ∈ enabledArms scopeMask, mab.minExplore ≤ (mab.arms b).pulls) :
      PickExit fns mab scopeMask
        ((nvMabUcbScan fns mab (effectiveMask scopeMask) (List.finRange nvArmMax) .fieldValue
          ucbFloor).1, { mab with ucbPicks := mab.ucbPicks + 1 })

theorem nvMabPick_exit (env : MabEnv R) (fns : MathFns R) {mab : NvMab R} {scopeMask : UInt32}
    (hne : (enabledArms scopeMask).Nonempty) (hexplore : 1 ≤ (mab.lazyInit env).minExplore) :
    PickExit fns (mab.lazyInit env) scopeMask (nvMabPick env fns mab scopeMask) := by
  rw [nvMabPick]
  cases hleast : nvMabLeast (mab.lazyInit env) (effectiveMask scopeMask) with
  | none => exact absurd (nvMabLeast_eq_none hleast) hne.ne_empty
  | some p =>
    obtain ⟨a, seen⟩ := p
    obtain ⟨hena, rfl, hmin⟩ := nvMabLeast_eq_some hleast
    dsimp only
    by_cases hshort : ((mab.lazyInit env).arms a).pulls < (mab.lazyInit env).minExplore
    · rw [if_pos hshort]
      exact .warmUp a hena hshort hmin
    · have hlong : ∀ b ∈ enabledArms scopeMask,
          (mab.lazyInit env).minExplore ≤ ((mab.lazyInit env).arms b).pulls :=
        fun b hb => (not_lt.mp hshort).trans (hmin b hb).1
      have hpulls : ∀ b ∈ enabledArms scopeMask, ((mab.lazyInit env).arms b).pulls ≠ 0 :=
        fun b hb => by have := hlong b hb; omega
      have hexit := @PickExit.ucb R _ _ fns _ scopeMask hlong
      rw [if_neg hshort]
      rw [nvMabUcbScan_eq_argmax fns hpulls] at hexit ⊢
      exact hexit

/-- If no enabled arm is above the start value, the loop returns that start
value's arm, enabled or not. -/
theorem nvMabUcbScan_of_below (fns : MathFns R) {mab : NvMab R} {scopeMask : UInt32}
    (hpulls : ∀ a ∈ enabledArms scopeMask, (mab.arms a).pulls ≠ 0)
    (hbelow : ∀ a ∈ enabledArms scopeMask, mab.ucb fns a ≤ ucbFloor) :
    (nvMabUcbScan fns mab (effectiveMask scopeMask) (List.finRange nvArmMax) .fieldValue
      ucbFloor).1 = .fieldValue := by
  have hempty : (enabledList scopeMask).filter (fun a => ucbFloor < mab.ucb fns a) = [] := by
    rw [List.filter_eq_nil_iff]
    intro a ha
    simpa using hbelow a (mem_enabledList.mp ha)
  rw [nvMabUcbScan_eq_argmax fns hpulls, hempty]
  rfl

@[simp] theorem NvMab.lazyInit_arms (env : MabEnv R) (mab : NvMab R) :
    (mab.lazyInit env).arms = mab.arms := by
  unfold NvMab.lazyInit
  split_ifs <;> rfl

@[simp] theorem NvMab.lazyInit_coldStartPicks (env : MabEnv R) (mab : NvMab R) :
    (mab.lazyInit env).coldStartPicks = mab.coldStartPicks := by
  unfold NvMab.lazyInit
  split_ifs <;> rfl

@[simp] theorem NvMab.lazyInit_ucbPicks (env : MabEnv R) (mab : NvMab R) :
    (mab.lazyInit env).ucbPicks = mab.ucbPicks := by
  unfold NvMab.lazyInit
  split_ifs <;> rfl

theorem NvMab.lazyInit_of_initialized (env : MabEnv R) {mab : NvMab R}
    (h : mab.initialized = true) : mab.lazyInit env = mab := if_pos h

@[simp] theorem NvMab.lazyInit_initialized (env : MabEnv R) (mab : NvMab R) :
    (mab.lazyInit env).initialized = true := by
  unfold NvMab.lazyInit
  split_ifs with h
  · exact h
  · rfl

@[simp] theorem nvMabUpdate_natCast (mab : NvMab R) (a : ArmIdx) (reward : R) :
    nvMabUpdate mab (a.val : ℤ) reward =
      { mab with
        totalPulls := mab.totalPulls + 1
        arms := Function.update mab.arms a ((mab.arms a).pull reward) } := by
  rw [nvMabUpdate, NvArmId.idx_natCast]

/-- An enabled arm that maximises `f`, with the lowest number among those. -/
def IsLowestArgmax (scopeMask : UInt32) (f : ArmIdx → R) (a : ArmIdx) : Prop :=
  a ∈ enabledArms scopeMask ∧
    ∀ b ∈ enabledArms scopeMask, f b ≤ f a ∧ (b < a → f b < f a)

/-- If some enabled arm is above the start value of the UCB loop, the loop
returns the lowest-numbered maximum. -/
theorem nvMabUcbScan_isLowestArgmax (fns : MathFns R) {mab : NvMab R} {scopeMask : UInt32}
    (hpulls : ∀ a ∈ enabledArms scopeMask, (mab.arms a).pulls ≠ 0)
    (habove : ∃ a ∈ enabledArms scopeMask, ucbFloor < mab.ucb fns a) :
    IsLowestArgmax scopeMask (mab.ucb fns)
      (nvMabUcbScan fns mab (effectiveMask scopeMask) (List.finRange nvArmMax) .fieldValue
        ucbFloor).1 := by
  rw [nvMabUcbScan_eq_argmax fns hpulls]
  set above := (enabledList scopeMask).filter fun a => ucbFloor < mab.ucb fns a with habovedef
  have hmemabove : ∀ b, b ∈ above ↔ b ∈ enabledArms scopeMask ∧ ucbFloor < mab.ucb fns b := by
    intro b
    simp [habovedef]
  cases hargmax : above.argmax (mab.ucb fns) with
  | none =>
    obtain ⟨b, hb, hfloor⟩ := habove
    have hempty := List.argmax_eq_none.mp hargmax
    have := (hmemabove b).mpr ⟨hb, hfloor⟩
    rw [hempty] at this
    exact absurd this List.not_mem_nil
  | some a =>
    have hmem := List.argmax_mem hargmax
    obtain ⟨hena, hfloora⟩ := (hmemabove a).mp hmem
    refine ⟨hena, fun b hb => ?_⟩
    dsimp only [Option.getD_some]
    by_cases hfloor : ucbFloor < mab.ucb fns b
    · have hbmem := (hmemabove b).mpr ⟨hb, hfloor⟩
      have hle := List.le_of_mem_argmax hbmem hargmax
      refine ⟨hle, fun hlt => lt_of_le_of_ne hle fun hsame => ?_⟩
      have hidx := List.index_of_argmax hargmax hbmem hsame.ge
      have hab := le_of_idxOf_le ((enabledList_sorted scopeMask).filter _) hmem hbmem hidx
      exact absurd hlt hab.not_gt
    · have hlt := (not_lt.mp hfloor).trans_lt hfloora
      exact ⟨hlt.le, fun _ => hlt⟩

end

end AflNv
