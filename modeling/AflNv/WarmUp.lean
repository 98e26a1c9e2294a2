import Mathlib.Analysis.SpecialFunctions.Log.Basic
import AflNv.Bandit
import AflNv.Lib.Machine

/-!
# Warm-up and UCB over whole runs of the bandit

A run is a sequence of decisions of `nv_mab_pick`.  Each is followed by an
update of the picked arm with a reward, or by nothing when its pending slot is
cleared.  `WarmInv` is the state of the warm-up after a number of committed
decisions: the pulls of the enabled arms add up to that number and are level.

* `coldStartPicks_le_iff` says which runs keep the warm-up within its budget.
* `fair_warmUp` follows the runs whose decisions are all committed, into the
  UCB phase.
-/

namespace AflNv

open AflNv.Lib

section

variable {R : Type} [Field R] [LinearOrder R]

/-! ## Runs -/

/-- Tunables that an initialised bandit can have. -/
structure Tunables (R : Type) [Field R] [LinearOrder R] where
  c : R
  minExplore : ℕ
  c_pos : 0 < c
  one_le_minExplore : 1 ≤ minExplore

/-- The tunables that the lazy initialisation establishes. -/
def MabEnv.tunables [IsStrictOrderedRing R] (env : MabEnv R) : Tunables R where
  c := env.envC.getD (1 / 20)
  minExplore := env.envMinExplore.getD 8
  c_pos := by
    cases h : env.envC with
    | none => exact div_pos one_pos (by norm_num)
    | some c => exact env.envC_pos c h
  one_le_minExplore := by
    cases h : env.envMinExplore with
    | none => decide
    | some m => exact (env.envMinExplore_range m h).1

/-- A bandit without a pull: with the given tunables, or zero-filled and left to
the lazy initialisation. -/
def NvMab.fresh : Option (Tunables R) → NvMab R
  | some t => { NvMab.zero with c := t.c, minExplore := t.minExplore, initialized := true }
  | none => .zero

/-- One decision and what becomes of it. -/
def banditStep (env : MabEnv R) (fns : MathFns R) (scopeMask : UInt32) (mab : NvMab R)
    (outcome : Option R) : ArmIdx × NvMab R :=
  let (a, mab) := nvMabPick env fns mab scopeMask
  match outcome with
  | some reward => (a, nvMabUpdate mab (a.val : ℤ) reward)
  | none => (a, mab)

/-- The number of committed decisions. -/
def committed (outcomes : List (Option R)) : ℕ := outcomes.countP Option.isSome

/-- The decisions a warm-up of `t.minExplore` samples for each enabled arm is
meant to take. -/
def warmUpBudget (t : Tunables R) (scopeMask : UInt32) : ℕ :=
  (enabledArms scopeMask).card * t.minExplore

/-! ## The warm-up invariant -/

/-- The enabled arms share `n` pulls evenly, and none has more than `m`. -/
structure Level (scopeMask : UInt32) (m n : ℕ) (mab : NvMab R) : Prop where
  sum_eq : ∑ a ∈ enabledArms scopeMask, (mab.arms a).pulls = n
  pulls_le : ∀ a ∈ enabledArms scopeMask, (mab.arms a).pulls ≤ m
  le_succ : ∀ a ∈ enabledArms scopeMask, ∀ b ∈ enabledArms scopeMask,
    (mab.arms a).pulls ≤ (mab.arms b).pulls + 1

/-- The bandit after `n` committed decisions: level while they are within the
budget of the warm-up, and warmed up from there on. -/
structure WarmInv (env : MabEnv R) (t : Tunables R) (scopeMask : UInt32) (n : ℕ)
    (mab : NvMab R) : Prop where
  c_eq : (mab.lazyInit env).c = t.c
  minExplore_eq : (mab.lazyInit env).minExplore = t.minExplore
  level : n ≤ warmUpBudget t scopeMask → Level scopeMask t.minExplore n mab
  warm : warmUpBudget t scopeMask ≤ n →
    ∀ a ∈ enabledArms scopeMask, t.minExplore ≤ (mab.arms a).pulls

omit [Field R] [LinearOrder R] in
/-- A full budget leaves every arm with exactly its samples. -/
theorem Level.pulls_eq {scopeMask : UInt32} {m : ℕ} {mab : NvMab R}
    (h : Level scopeMask m ((enabledArms scopeMask).card * m) mab) :
    ∀ a ∈ enabledArms scopeMask, (mab.arms a).pulls = m := by
  have hsum : ∑ a ∈ enabledArms scopeMask, (mab.arms a).pulls =
      ∑ _a ∈ enabledArms scopeMask, m := by
    rw [h.sum_eq, Finset.sum_const, smul_eq_mul]
  exact (Finset.sum_eq_sum_iff_of_le h.pulls_le).mp hsum

omit [Field R] [LinearOrder R] in
/-- Level arms that all have their samples have used up the budget. -/
theorem Level.budget_le {scopeMask : UInt32} {m n : ℕ} {mab : NvMab R}
    (h : Level scopeMask m n mab)
    (hall : ∀ a ∈ enabledArms scopeMask, m ≤ (mab.arms a).pulls) :
    (enabledArms scopeMask).card * m ≤ n := by
  rw [← h.sum_eq, ← smul_eq_mul, ← Finset.sum_const]
  exact Finset.sum_le_sum hall

/-- A pull of a least-pulled arm keeps the arms level. -/
theorem Level.pull_least {scopeMask : UInt32} {m n : ℕ} {mab mab' : NvMab R} {a : ArmIdx}
    {reward : R} (h : Level scopeMask m n mab) (hena : a ∈ enabledArms scopeMask)
    (hshort : (mab.arms a).pulls < m)
    (hleast : ∀ b ∈ enabledArms scopeMask, (mab.arms a).pulls ≤ (mab.arms b).pulls)
    (harms : mab'.arms = Function.update mab.arms a ((mab.arms a).pull reward)) :
    Level scopeMask m (n + 1) mab' := by
  have hself : (mab'.arms a).pulls = (mab.arms a).pulls + 1 := by
    rw [harms, Function.update_self]
    rfl
  have hother : ∀ b, b ≠ a → (mab'.arms b).pulls = (mab.arms b).pulls := by
    intro b hb
    rw [harms, Function.update_of_ne hb]
  refine ⟨?_, fun b hb => ?_, fun b hb d hd => ?_⟩
  · rw [← Finset.add_sum_erase _ _ hena, hself, ← h.sum_eq,
      ← Finset.add_sum_erase (enabledArms scopeMask) (fun b => (mab.arms b).pulls) hena,
      Finset.sum_congr rfl fun b hb => hother b (Finset.ne_of_mem_erase hb)]
    omega
  · by_cases hba : b = a
    · rw [hba, hself]
      omega
    · rw [hother b hba]
      exact h.pulls_le b hb
  · have hb' := h.le_succ b hb a hena
    have hbd := h.le_succ b hb d hd
    have hd' := hleast d hd
    by_cases hba : b = a
    · by_cases hda : d = a
      · rw [hba, hda]
        omega
      · rw [hba, hself, hother d hda]
        omega
    · by_cases hda : d = a
      · rw [hda, hother b hba, hself]
        omega
      · rw [hother b hba, hother d hda]
        exact hbd

/-- How `nv_mab_pick` decides after `n` committed decisions: the warm-up branch
serves exactly the decisions within the budget. -/
theorem WarmInv.pick {env : MabEnv R} {t : Tunables R} {scopeMask : UInt32} {n : ℕ}
    {mab : NvMab R} (h : WarmInv env t scopeMask n mab) (fns : MathFns R)
    (hne : (enabledArms scopeMask).Nonempty) :
    (n < warmUpBudget t scopeMask → ∃ a ∈ enabledArms scopeMask,
      (mab.arms a).pulls < t.minExplore ∧
      (∀ b ∈ enabledArms scopeMask, (mab.arms a).pulls ≤ (mab.arms b).pulls) ∧
      nvMabPick env fns mab scopeMask =
        (a, { mab.lazyInit env with coldStartPicks := mab.coldStartPicks + 1 })) ∧
    (warmUpBudget t scopeMask ≤ n →
      nvMabPick env fns mab scopeMask =
        ((nvMabUcbScan fns (mab.lazyInit env) (effectiveMask scopeMask) (List.finRange nvArmMax)
          .fieldValue ucbFloor).1,
        { mab.lazyInit env with ucbPicks := mab.ucbPicks + 1 })) := by
  have hexplore : 1 ≤ (mab.lazyInit env).minExplore := by
    rw [h.minExplore_eq]
    exact t.one_le_minExplore
  have hexit := nvMabPick_exit env fns hne hexplore
  generalize nvMabPick env fns mab scopeMask = o at hexit ⊢
  cases hexit with
  | warmUp a hena hshort hleast =>
    simp only [NvMab.lazyInit_arms, h.minExplore_eq] at hshort hleast
    have hlt : n < warmUpBudget t scopeMask := by
      by_contra hge
      exact absurd (h.warm (not_lt.mp hge) a hena) hshort.not_ge
    refine ⟨fun _ => ⟨a, hena, hshort, fun b hb => (hleast b hb).1, ?_⟩,
      fun hge => absurd hlt hge.not_gt⟩
    rw [NvMab.lazyInit_coldStartPicks]
  | ucb hlong =>
    simp only [NvMab.lazyInit_arms, h.minExplore_eq] at hlong
    refine ⟨fun hlt => ?_, fun _ => ?_⟩
    · exact absurd ((h.level hlt.le).budget_le hlong) hlt.not_ge
    · rw [NvMab.lazyInit_ucbPicks]

theorem WarmInv.of_initialized {env : MabEnv R} {t : Tunables R} {scopeMask : UInt32} {n : ℕ}
    {mab : NvMab R} (hinit : mab.initialized = true) (hc : mab.c = t.c)
    (hexplore : mab.minExplore = t.minExplore)
    (hlevel : n ≤ warmUpBudget t scopeMask → Level scopeMask t.minExplore n mab)
    (hwarm : warmUpBudget t scopeMask ≤ n →
      ∀ a ∈ enabledArms scopeMask, t.minExplore ≤ (mab.arms a).pulls) :
    WarmInv env t scopeMask n mab where
  c_eq := by rw [NvMab.lazyInit_of_initialized env hinit, hc]
  minExplore_eq := by rw [NvMab.lazyInit_of_initialized env hinit, hexplore]
  level := hlevel
  warm := hwarm

/-- A pull never takes samples away. -/
theorem pulls_le_pull (arms : ArmIdx → NvArm R) (a b : ArmIdx) (reward : R) :
    (arms b).pulls ≤ (Function.update arms a ((arms a).pull reward) b).pulls := by
  by_cases hba : b = a
  · rw [hba, Function.update_self]
    exact Nat.le_succ _
  · rw [Function.update_of_ne hba]

/-- One decision: the invariant moves on with the committed ones, and the
counters tell which branch served it. -/
theorem WarmInv.step {env : MabEnv R} {t : Tunables R} {scopeMask : UInt32} {n : ℕ}
    {mab : NvMab R} (h : WarmInv env t scopeMask n mab) (fns : MathFns R)
    (hne : (enabledArms scopeMask).Nonempty) (outcome : Option R) :
    let o := banditStep env fns scopeMask mab outcome
    WarmInv env t scopeMask (n + if outcome.isSome then 1 else 0) o.2 ∧
      o.2.initialized = true ∧
      o.2.coldStartPicks =
        mab.coldStartPicks + (if n < warmUpBudget t scopeMask then 1 else 0) ∧
      o.2.ucbPicks = mab.ucbPicks + (if n < warmUpBudget t scopeMask then 0 else 1) := by
  obtain ⟨hwarm, hucb⟩ := h.pick fns hne
  have hinit := NvMab.lazyInit_initialized env mab
  have harms := NvMab.lazyInit_arms env mab
  rw [banditStep]
  by_cases hlt : n < warmUpBudget t scopeMask
  · obtain ⟨a, hena, hshort, hleast, hpick⟩ := hwarm hlt
    rw [hpick, if_pos hlt, if_pos hlt]
    cases outcome with
    | none =>
      have hlevel := h.level hlt.le
      exact ⟨.of_initialized hinit h.c_eq h.minExplore_eq
          (fun _ => ⟨harms ▸ hlevel.sum_eq, harms ▸ hlevel.pulls_le, harms ▸ hlevel.le_succ⟩)
          (fun hge => absurd hlt hge.not_gt),
        hinit, rfl, NvMab.lazyInit_ucbPicks env mab⟩
    | some reward =>
      simp only [nvMabUpdate_natCast, Option.isSome_some, if_true]
      have hnext : ∀ mab', mab'.arms = Function.update mab.arms a ((mab.arms a).pull reward) →
          Level scopeMask t.minExplore (n + 1) mab' :=
        fun mab' => (h.level hlt.le).pull_least hena hshort hleast
      refine ⟨.of_initialized hinit h.c_eq h.minExplore_eq
          (fun _ => hnext _ (by rw [harms])) (fun hge b hb => ?_),
        hinit, trivial, NvMab.lazyInit_ucbPicks env mab⟩
      -- The budget is used up by this pull, so it left every arm with its samples.
      have hfull : n + 1 = (enabledArms scopeMask).card * t.minExplore := le_antisymm hlt hge
      rw [hfull] at hnext
      exact ((hnext _ (by rw [harms])).pulls_eq b hb).ge
  · have hge := not_lt.mp hlt
    rw [hucb hge, if_neg hlt, if_neg hlt]
    cases outcome with
    | none =>
      exact ⟨.of_initialized hinit h.c_eq h.minExplore_eq
          (fun hle => ⟨harms ▸ (h.level hle).sum_eq, harms ▸ (h.level hle).pulls_le,
            harms ▸ (h.level hle).le_succ⟩)
          (fun _ => harms ▸ h.warm hge),
        hinit, NvMab.lazyInit_coldStartPicks env mab, rfl⟩
    | some reward =>
      simp only [nvMabUpdate_natCast, Option.isSome_some, if_true]
      refine ⟨.of_initialized hinit h.c_eq h.minExplore_eq (fun hle => by omega)
          (fun _ b hb => ?_),
        hinit, NvMab.lazyInit_coldStartPicks env mab, trivial⟩
      rw [harms]
      exact (h.warm hge b hb).trans (pulls_le_pull _ _ b reward)

variable [IsStrictOrderedRing R]

/-- The tunables in force in a run. -/
def tunablesInForce (env : MabEnv R) (start : Option (Tunables R)) : Tunables R :=
  start.getD env.tunables

theorem WarmInv.fresh (env : MabEnv R) (start : Option (Tunables R)) (scopeMask : UInt32) :
    WarmInv env (tunablesInForce env start) scopeMask 0 (NvMab.fresh start) := by
  have harms : ∀ a, ((NvMab.fresh start).arms a).pulls = 0 := by
    intro a
    cases start <;> rfl
  refine ⟨?_, ?_, fun _ => ⟨?_, fun a _ => ?_, fun a _ b _ => ?_⟩, fun hzero a ha => ?_⟩
  · cases start <;> rfl
  · cases start <;> rfl
  · exact Finset.sum_eq_zero fun a _ => harms a
  · rw [harms]
    exact Nat.zero_le _
  · rw [harms]
    exact Nat.zero_le _
  · have hcard := Finset.card_pos.mpr ⟨a, ha⟩
    have hone := (tunablesInForce env start).one_le_minExplore
    exact absurd hzero (Nat.mul_pos hcard hone).not_ge

/-- A run after a number of decisions. -/
theorem warmInv_run (env : MabEnv R) (fns : MathFns R) {scopeMask : UInt32}
    (hne : (enabledArms scopeMask).Nonempty) (start : Option (Tunables R))
    (outcomes : List (Option R)) :
    let mab := Machine.run (banditStep env fns scopeMask) (NvMab.fresh start) outcomes
    WarmInv env (tunablesInForce env start) scopeMask (committed outcomes) mab ∧
      mab.coldStartPicks + mab.ucbPicks = outcomes.length ∧
      (outcomes ≠ [] → mab.initialized = true) := by
  intro mab
  induction outcomes using List.reverseRecOn with
  | nil =>
    refine ⟨WarmInv.fresh env start scopeMask, ?_, fun h => absurd rfl h⟩
    cases start <;> rfl
  | append_singleton outcomes outcome ih =>
    obtain ⟨hinv, hsum, -⟩ := ih
    obtain ⟨hnext, hinit, hcold, hucb⟩ := hinv.step fns hne outcome
    have hcommitted : committed (outcomes ++ [outcome]) =
        committed outcomes + if outcome.isSome then 1 else 0 := by
      rw [committed, List.countP_append, List.countP_singleton]
      rfl
    subst mab
    rw [Machine.run_concat, hcommitted]
    refine ⟨hnext, ?_, fun _ => hinit⟩
    rw [hcold, hucb, List.length_append, List.length_singleton]
    split_ifs <;> omega

/-! ## The budget of the warm-up -/

/-- The first `n` decisions are all committed. -/
def FirstCommitted (n : ℕ) (outcomes : List (Option R)) : Prop :=
  ∀ o ∈ outcomes.take n, o.isSome = true

omit [Field R] [LinearOrder R] [IsStrictOrderedRing R] in
theorem committed_le_length (outcomes : List (Option R)) :
    committed outcomes ≤ outcomes.length := List.countP_le_length

omit [Field R] [LinearOrder R] [IsStrictOrderedRing R] in
/-- Committing all of the first `n` decisions commits `n` of them. -/
theorem FirstCommitted.le_committed {n : ℕ} {outcomes : List (Option R)}
    (h : FirstCommitted n outcomes) (hlen : n ≤ outcomes.length) : n ≤ committed outcomes := by
  have hall := List.countP_eq_length.mpr h
  rw [List.length_take, min_eq_left hlen] at hall
  rw [← hall]
  exact (List.take_sublist n outcomes).countP_le

/-- The warm-up picks of a run: while the budget lasts, every decision; then as
many as were made until it was used up, which are more than the budget as soon
as one of the first decisions was cleared. -/
theorem coldStartPicks_run (env : MabEnv R) (fns : MathFns R) {scopeMask : UInt32}
    (hne : (enabledArms scopeMask).Nonempty) (start : Option (Tunables R))
    (outcomes : List (Option R)) :
    let budget := warmUpBudget (tunablesInForce env start) scopeMask
    let cold := (Machine.run (banditStep env fns scopeMask) (NvMab.fresh start)
      outcomes).coldStartPicks
    (committed outcomes < budget → cold = outcomes.length) ∧
      (budget ≤ committed outcomes →
        budget ≤ cold ∧ cold ≤ outcomes.length ∧
          (cold ≤ budget ↔ FirstCommitted budget outcomes)) := by
  intro budget cold
  induction outcomes using List.reverseRecOn with
  | nil =>
    have hcold : cold = 0 := by
      subst cold
      cases start <;> rfl
    rw [hcold]
    refine ⟨fun _ => rfl, fun hle => ⟨hle, Nat.le_refl 0, ?_⟩⟩
    simp [FirstCommitted]
  | append_singleton outcomes outcome ih =>
    obtain ⟨ihshort, ihfull⟩ := ih
    obtain ⟨hinv, -, -⟩ := warmInv_run env fns hne start outcomes
    obtain ⟨-, -, hcold, -⟩ := hinv.step fns hne outcome
    have hcommitted : committed (outcomes ++ [outcome]) =
        committed outcomes + if outcome.isSome then 1 else 0 := by
      rw [committed, List.countP_append, List.countP_singleton]
      rfl
    have hlen := committed_le_length outcomes
    rw [← Machine.run_concat] at hcold
    subst cold
    rw [hcold, hcommitted, List.length_append, List.length_singleton]
    by_cases hlt : committed outcomes < budget
    · rw [if_pos hlt, ihshort hlt]
      refine ⟨fun _ => rfl, fun hge => ⟨?_, Nat.le_refl _, ?_⟩⟩
      · split_ifs at hge <;> omega
      · -- The decision that uses up the budget is the last one.
        have hsome : outcome.isSome = true := by
          by_contra hnone
          rw [if_neg hnone] at hge
          omega
        rw [if_pos hsome] at hge
        constructor
        · intro hle
          have hfull : committed outcomes = outcomes.length := by omega
          have hall := List.countP_eq_length.mp hfull
          intro o ho
          rcases List.mem_append.mp (List.mem_of_mem_take ho) with hmem | hmem
          · exact hall o hmem
          · rwa [List.mem_singleton.mp hmem]
        · intro hfirst
          by_contra hgt
          have hfirst' : FirstCommitted budget outcomes := by
            intro o ho
            refine hfirst o ?_
            rwa [List.take_append_of_le_length (by omega)]
          exact absurd (hfirst'.le_committed (by omega)) hlt.not_ge
    · have hge := not_lt.mp hlt
      obtain ⟨hlow, hup, hiff⟩ := ihfull hge
      rw [if_neg hlt, Nat.add_zero]
      refine ⟨fun h => absurd hge (by split_ifs at h <;> omega), fun _ => ⟨hlow, by omega, ?_⟩⟩
      rw [hiff, FirstCommitted, FirstCommitted, List.take_append_of_le_length (by omega)]

/-- The warm-up branch serves no more decisions than its budget exactly when
the run is not longer than the budget, or all of its first decisions are
committed; the UCB branch serves the others. -/
theorem coldStartPicks_le_iff (env : MabEnv R) (fns : MathFns R) {scopeMask : UInt32}
    (hne : (enabledArms scopeMask).Nonempty) (start : Option (Tunables R))
    (outcomes : List (Option R)) :
    let budget := warmUpBudget (tunablesInForce env start) scopeMask
    let mab := Machine.run (banditStep env fns scopeMask) (NvMab.fresh start) outcomes
    mab.coldStartPicks + mab.ucbPicks = outcomes.length ∧
      (mab.coldStartPicks ≤ budget ↔
        outcomes.length ≤ budget ∨ FirstCommitted budget outcomes) := by
  intro budget mab
  obtain ⟨-, hsum, -⟩ := warmInv_run env fns hne start outcomes
  obtain ⟨hshort, hfull⟩ := coldStartPicks_run env fns hne start outcomes
  refine ⟨hsum, ?_⟩
  by_cases hlt : committed outcomes < budget
  · rw [show mab.coldStartPicks = outcomes.length from hshort hlt]
    refine ⟨.inl, ?_⟩
    rintro (hle | hfirst)
    · exact hle
    · by_contra hgt
      exact absurd (hfirst.le_committed (by omega)) hlt.not_ge
  · obtain ⟨-, hup, hiff⟩ := hfull (not_lt.mp hlt)
    refine ⟨fun hle => .inr (hiff.mp hle), ?_⟩
    rintro (hle | hfirst)
    · exact hup.trans hle
    · exact hiff.mpr hfirst

/-- One cleared decision behind a full budget does no harm. -/
theorem coldStartPicks_le_example :
    (Machine.run (banditStep (R := ℚ) .empty ⟨id, id⟩ 1)
      (NvMab.fresh (some ⟨1, 2, one_pos, by decide⟩))
      [some 1, some 0, none]).coldStartPicks ≤ 2 :=
  (@coldStartPicks_le_iff ℚ _ _ _ .empty ⟨id, id⟩ 1 ⟨0, by decide⟩
    (some ⟨1, 2, one_pos, by decide⟩) [some 1, some 0, none]).2.mpr (.inr (by
      intro o ho
      fin_cases ho <;> rfl))

/-- With the default tunables the warm-up is meant to take 24 decisions; 25
executions that clear their pending slot are all served by it. -/
theorem warmUp_overrun :
    warmUpBudget (tunablesInForce (R := ℚ) .empty none) 0 = 24 ∧
      ¬ (Machine.run (banditStep (R := ℚ) .empty ⟨id, id⟩ 0) (NvMab.fresh none)
        (List.replicate 25 none)).coldStartPicks ≤ 24 := by
  obtain ⟨hshort, -⟩ := @coldStartPicks_run ℚ _ _ _ .empty ⟨id, id⟩ 0 ⟨0, by decide⟩ none
    (List.replicate 25 none)
  refine ⟨rfl, ?_⟩
  rw [hshort (by decide)]
  decide

/-! ## Runs whose decisions are all committed -/

omit [Field R] [LinearOrder R] [IsStrictOrderedRing R] in
@[simp] theorem committed_map_some (rewards : List R) :
    committed (rewards.map some) = rewards.length := by
  simp [committed, List.countP_map, Function.comp_def]

/-- Every arm that was pulled has a mean above the start value of the UCB loop. -/
def MeansAbove (mab : NvMab R) : Prop :=
  ∀ a, (mab.arms a).pulls ≠ 0 → ucbFloor < (mab.arms a).meanReward

/-- The new mean of an arm is above a bound if its mean and its reward are. -/
theorem lt_pull_mean {arm : NvArm R} {reward bound : R} (hreward : bound < reward)
    (hmean : arm.pulls ≠ 0 → bound < arm.meanReward) : bound < (arm.pull reward).meanReward := by
  rw [NvArm.pull]
  dsimp only
  by_cases hpulls : arm.pulls = 0
  · rw [hpulls, Nat.zero_add, Nat.cast_one, div_one]
    simpa using hreward
  · have hpos : (0 : R) < arm.pulls := Nat.cast_pos.mpr (Nat.pos_of_ne_zero hpulls)
    have hn : (0 : R) < ((arm.pulls + 1 : ℕ) : R) := Nat.cast_pos.mpr (Nat.succ_pos _)
    have hmix : arm.meanReward + (reward - arm.meanReward) / ((arm.pulls + 1 : ℕ) : R) =
        (arm.pulls * arm.meanReward + reward) / ((arm.pulls + 1 : ℕ) : R) := by
      field_simp
      push_cast
      ring
    rw [hmix, lt_div_iff₀ hn, Nat.cast_succ, mul_add, mul_one, mul_comm bound]
    exact add_lt_add (mul_lt_mul_of_pos_left (hmean hpulls) hpos) hreward

omit [IsStrictOrderedRing R] in
theorem MeansAbove.fresh (start : Option (Tunables R)) : MeansAbove (NvMab.fresh start) := by
  intro a ha
  cases start <;> exact absurd rfl ha

theorem MeansAbove.step {env : MabEnv R} {t : Tunables R} {scopeMask : UInt32} {n : ℕ}
    {mab : NvMab R} (h : MeansAbove mab) (hinv : WarmInv env t scopeMask n mab) (fns : MathFns R)
    (hne : (enabledArms scopeMask).Nonempty) {reward : R} (hreward : ucbFloor < reward) :
    MeansAbove (banditStep env fns scopeMask mab (some reward)).2 := by
  have hpick : (nvMabPick env fns mab scopeMask).2.arms = mab.arms := by
    obtain ⟨hwarm, hucb⟩ := hinv.pick fns hne
    by_cases hlt : n < warmUpBudget t scopeMask
    · obtain ⟨a, -, -, -, hpick⟩ := hwarm hlt
      rw [hpick]
      exact NvMab.lazyInit_arms env mab
    · rw [hucb (not_lt.mp hlt)]
      exact NvMab.lazyInit_arms env mab
  intro b
  rw [banditStep]
  dsimp only
  rw [nvMabUpdate_natCast]
  dsimp only
  rw [hpick]
  by_cases hba : b = (nvMabPick env fns mab scopeMask).1
  · rw [hba, Function.update_self]
    exact fun _ => lt_pull_mean hreward (h _)
  · rw [Function.update_of_ne hba]
    exact h b

theorem meansAbove_run (env : MabEnv R) (fns : MathFns R) {scopeMask : UInt32}
    (hne : (enabledArms scopeMask).Nonempty) (start : Option (Tunables R)) {rewards : List R}
    (hrewards : ∀ r ∈ rewards, ucbFloor < r) :
    MeansAbove (Machine.run (banditStep env fns scopeMask) (NvMab.fresh start)
      (rewards.map some)) := by
  induction rewards using List.reverseRecOn with
  | nil => exact MeansAbove.fresh start
  | append_singleton rewards reward ih =>
    obtain ⟨hinv, -, -⟩ := warmInv_run env fns hne start (rewards.map some)
    rw [List.map_append, List.map_singleton, Machine.run_concat]
    exact (ih fun r hr => hrewards r (by simp [hr])).step hinv fns hne (hrewards reward (by simp))

end

/-! ## Over the reals -/

/-- The functions of `math.h`, as real functions. -/
noncomputable def realFns : MathFns ℝ where
  log := Real.log
  sqrt := Real.sqrt

theorem mean_le_ucb {mab : NvMab ℝ} (hc : 0 < mab.c) (a : ArmIdx) :
    (mab.arms a).meanReward ≤ mab.ucb realFns a :=
  le_add_of_nonneg_right (mul_nonneg hc.le (Real.sqrt_nonneg _))

/-- Fair warm-up and UCB choice, in the state after any number of committed
decisions and in the next pick.  The last two parts need rewards, or indices,
above the start value of the UCB loop. -/
theorem fair_warmUp (env : MabEnv ℝ) {scopeMask : UInt32}
    (hne : (enabledArms scopeMask).Nonempty) (start : Option (Tunables ℝ)) (rewards : List ℝ) :
    let t := tunablesInForce env start
    let budget := (enabledArms scopeMask).card * t.minExplore
    let mab := Machine.run (banditStep env realFns scopeMask) (NvMab.fresh start)
      (rewards.map some)
    let next := (nvMabPick env realFns mab scopeMask).1
    ((∃ a ∈ enabledArms scopeMask, (mab.arms a).pulls < t.minExplore) →
        ∀ a ∈ enabledArms scopeMask, ∀ b ∈ enabledArms scopeMask,
          (mab.arms a).pulls ≤ (mab.arms b).pulls + 1) ∧
      (rewards.length = budget → ∀ a ∈ enabledArms scopeMask, (mab.arms a).pulls = t.minExplore) ∧
      mab.coldStartPicks + mab.ucbPicks = rewards.length ∧
      (rewards.length < budget → next ∈ enabledArms scopeMask) ∧
      (budget ≤ rewards.length → mab.c = t.c ∧
        ((∃ a ∈ enabledArms scopeMask, ucbFloor < mab.ucb realFns a) →
          IsLowestArgmax scopeMask (mab.ucb realFns) next)) ∧
      ((∀ r ∈ rewards, ucbFloor < r) → next ∈ enabledArms scopeMask ∧
        (budget ≤ rewards.length → IsLowestArgmax scopeMask (mab.ucb realFns) next)) := by
  intro t budget mab next
  obtain ⟨hinv, hsum, hinit⟩ := warmInv_run env realFns hne start (rewards.map some)
  rw [committed_map_some] at hinv
  change WarmInv env t scopeMask rewards.length mab at hinv
  obtain ⟨hwarm, hucb⟩ := hinv.pick realFns hne
  have hpos : 0 < budget := Nat.mul_pos (Finset.card_pos.mpr hne) t.one_le_minExplore
  have hnext : rewards.length < budget → next ∈ enabledArms scopeMask := by
    intro hlt
    obtain ⟨a, hena, -, -, hpick⟩ := hwarm hlt
    rw [show next = a from congrArg Prod.fst hpick]
    exact hena
  have hlazy : budget ≤ rewards.length → mab.lazyInit env = mab := by
    intro hge
    refine NvMab.lazyInit_of_initialized env (hinit ?_)
    rw [ne_eq, List.map_eq_nil_iff]
    rintro rfl
    exact absurd hge hpos.not_ge
  have hargmax : budget ≤ rewards.length →
      (∃ a ∈ enabledArms scopeMask, ucbFloor < mab.ucb realFns a) →
      IsLowestArgmax scopeMask (mab.ucb realFns) next := by
    intro hge habove
    have hpulls : ∀ a ∈ enabledArms scopeMask, (mab.arms a).pulls ≠ 0 := fun a ha =>
      Nat.ne_of_gt (t.one_le_minExplore.trans (hinv.warm hge a ha))
    have hscan := nvMabUcbScan_isLowestArgmax realFns hpulls habove
    rw [show next = _ from congrArg Prod.fst (hucb hge), hlazy hge]
    exact hscan
  have hc : budget ≤ rewards.length → mab.c = t.c := fun hge => hlazy hge ▸ hinv.c_eq
  have habove : (∀ r ∈ rewards, ucbFloor < r) → budget ≤ rewards.length →
      ∃ a ∈ enabledArms scopeMask, ucbFloor < mab.ucb realFns a := by
    intro hrewards hge
    obtain ⟨a, ha⟩ := hne
    have hpulls : (mab.arms a).pulls ≠ 0 :=
      Nat.ne_of_gt (t.one_le_minExplore.trans (hinv.warm hge a ha))
    have hmean := meansAbove_run env realFns ⟨a, ha⟩ start hrewards a hpulls
    exact ⟨a, ha, hmean.trans_le (mean_le_ucb (by rw [hc hge]; exact t.c_pos) a)⟩
  refine ⟨?_, ?_, ?_, hnext, fun hge => ⟨hc hge, hargmax hge⟩, fun hrewards => ⟨?_, fun hge =>
    hargmax hge (habove hrewards hge)⟩⟩
  · rintro ⟨a, ha, hshort⟩
    have hlt : rewards.length < budget := by
      by_contra hge
      exact absurd (hinv.warm (not_lt.mp hge) a ha) hshort.not_ge
    exact (hinv.level hlt.le).le_succ
  · intro heq
    have hlevel := hinv.level heq.le
    rw [heq] at hlevel
    exact hlevel.pulls_eq
  · simpa using hsum
  · by_cases hlt : rewards.length < budget
    · exact hnext hlt
    · have hge := not_lt.mp hlt
      exact (hargmax hge (habove hrewards hge)).1

/-- Three enabled arms and two samples each: six rewards give every arm its samples, and behind a
seventh one the decision is by UCB. -/
theorem fair_warmUp_threeArms :
    let run := fun rewards : List ℝ => Machine.run (banditStep .empty realFns 7)
      (NvMab.fresh (some ⟨1, 2, one_pos, by decide⟩)) (rewards.map some)
    (∀ a ∈ enabledArms 7, ((run [1, -1, 0, 5, 0, 2]).arms a).pulls = 2) ∧
      IsLowestArgmax 7 ((run [1, -1, 0, 5, 0, 2, 3]).ucb realFns)
        (nvMabPick .empty realFns (run [1, -1, 0, 5, 0, 2, 3]) 7).1 :=
  have henabled : (enabledArms 7).Nonempty := ⟨1, by decide⟩
  have hwarm := fair_warmUp .empty henabled (some ⟨1, 2, one_pos, by decide⟩)
  ⟨(hwarm [1, -1, 0, 5, 0, 2]).2.1 (by decide),
    ((hwarm [1, -1, 0, 5, 0, 2, 3]).2.2.2.2.2 (by norm_num [ucbFloor])).2 (by decide)⟩

/-- A reward below the start value of the UCB loop leaves it without a candidate:
an arm out of scope is returned. -/
theorem pick_out_of_scope :
    let mab := Machine.run (banditStep .empty realFns 2) (NvMab.fresh (some ⟨1, 1, one_pos, le_rfl⟩))
      [some (-(2 * 10 ^ 100))]
    (nvMabPick .empty realFns mab 2).1 ∉ enabledArms 2 := by
  intro mab
  have harm : mab.arms 1 = (NvArm.mk 0 0 0 0 : NvArm ℝ).pull (-(2 * 10 ^ 100)) := rfl
  have hscope : ∀ a ∈ enabledArms 2, a = 1 := by decide
  have hpulls : ∀ a ∈ enabledArms 2, (mab.arms a).pulls ≠ 0 := by
    intro a ha
    rw [hscope a ha, harm]
    exact one_ne_zero
  have hbelow : ∀ a ∈ enabledArms 2, mab.ucb realFns a ≤ ucbFloor := by
    intro a ha
    have hlog : Real.log ((1 : ℕ) + 1) / ((1 : ℕ) : ℝ) ≤ 1 := by
      have := Real.log_le_sub_one_of_pos (show (0 : ℝ) < (1 : ℕ) + 1 by norm_num)
      norm_num at this ⊢
      exact this
    have hsqrt := Real.sqrt_le_one.mpr hlog
    rw [hscope a ha]
    change (0 : ℝ) + (-(2 * 10 ^ 100) - 0) / ((0 + 1 : ℕ) : ℝ) +
      1 * Real.sqrt (Real.log ((1 : ℕ) + 1) / ((1 : ℕ) : ℝ)) ≤ -(10 ^ 100)
    generalize Real.sqrt (Real.log ((1 : ℕ) + 1) / ((1 : ℕ) : ℝ)) = q at hsqrt ⊢
    norm_num
    linarith
  have hne : (enabledArms 2).Nonempty := ⟨1, by decide⟩
  obtain ⟨hinv, -, hinit⟩ := warmInv_run .empty realFns hne
    (some ⟨1, 1, one_pos, le_rfl⟩) [some (-(2 * 10 ^ 100))]
  obtain ⟨-, hucb⟩ := hinv.pick realFns hne
  rw [hucb (by decide), NvMab.lazyInit_of_initialized _ (hinit (by simp))]
  dsimp only
  rw [nvMabUcbScan_of_below realFns hpulls hbelow]
  decide

end AflNv
