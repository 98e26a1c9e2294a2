import AflNv.Lib.Roulette
import AflNv.SeedTurns

/-!
# Picking the next seed

`select_next_queue_entry` of `src/afl-fuzz-queue.c` on a queue that may hold NULL and
disabled entries: the uniform fallback, the roulette and the fallback behind it.  The
numbers are those of an ordered field, so the sums are exact.

* `Picker` is the queue, and the variables of the loop that hold the audit counters.
* `Picked` says what a selection has to be: an enabled entry, the least one at which the
  cumulative weight reaches the drawn point, counted once, whatever the audit does.
* `picked_iff`: a selection is that exactly if the point lies in the interval of no
  disabled entry.
-/

namespace AflNv

open Lib

/-- The queue, which may hold NULL, and the other variables of the loop. -/
structure Picker (R : Type) where
  queueBuf : List (Option (SeedEntry R))
  loop : SeedLoop R

namespace Picker

variable {R : Type} [Field R] [LinearOrder R]

/-! ## The function -/

/-- Exact arithmetic, with `pow(x, 0.7)` as a parameter. -/
def exactMath (powAlpha : R → R) : SeedMath R where
  zero := 0
  one := 1
  eps := 1 / 100
  ofNat n := n
  add a b := a + b
  div a b := a / b
  powAlpha := powAlpha
  point drawn total := (drawn : R) / 0x7fffffff * total
  lt a b := decide (a < b)
  le a b := decide (a ≤ b)

variable (powAlpha : R → R)

/-- `ss_calc_prob` -/
def weight (q : SeedEntry R) : R := SeedLoop.ssCalcProb (exactMath powAlpha) q

/-- The first loop: the probabilities are brought up to date. -/
def updateProbs (queue : List (Option (SeedEntry R))) : List (Option (SeedEntry R)) :=
  queue.map fun q => q.map fun q => { q with ssProb := weight powAlpha q }

/-- The sum of the first loop. -/
def total (queue : List (Option (SeedEntry R))) : R :=
  queue.foldl (fun total q => match q with | none => total | some q => total + q.ssProb) 0

/-- The loop of the roulette, with `acc` summed up so far. -/
def roulette (r : R) : R → List (Option (SeedEntry R)) → Option ℕ
  | _, [] => none
  | acc, none :: queue => (roulette r acc queue).map (· + 1)
  | acc, some q :: queue =>
    let acc := acc + q.ssProb
    if acc ≥ r then some 0 else (roulette r acc queue).map (· + 1)

/-- What a selection does besides the choice: the path of the audit file and the format of
a number, and the answers of its system calls. -/
structure AuditWriter (R : Type) where
  path : Option Bytes
  fmt : R → Bytes
  io : SeedAuditIo

/-- `ss_selected_cnt++` and `nv_seed_selection_audit_record`; `none` where the entry is
NULL. -/
def credit (w : AuditWriter R) (i : ℕ) (p : Picker R) : Option (ℕ × Picker R) :=
  match p.queueBuf[i]? with
  | some (some e) =>
    let e := e.count
    let p := { p with queueBuf := p.queueBuf.set i (some e) }
    if isSetPath w.path then
      let cfg : SeedLoopCfg R := ⟨exactMath powAlpha, w.fmt, false, w.path⟩
      some (i, { p with loop := (SeedLoop.nvSeedSelectionAuditRecord cfg w.io i e p.loop).2 })
    else some (i, p)
  | _ => none

/-- `select_next_queue_entry`: the index and the state; `none` where it follows NULL. -/
def selectNextQueueEntry (w : AuditWriter R) (drawn : ℕ) (p : Picker R) : Option (ℕ × Picker R) :=
  if p.queueBuf = [] then some (0, p)
  else
    let p := { p with queueBuf := updateProbs powAlpha p.queueBuf }
    let total := total p.queueBuf
    if total ≤ 0 then
      credit powAlpha w (TestcaseCache.randBelow p.queueBuf.length drawn) p
    else
      let r := (exactMath powAlpha).point (TestcaseCache.randBelow 0x7fffffff drawn) total
      match roulette r 0 p.queueBuf with
      | some i => credit powAlpha w i p
      | none => credit powAlpha w (p.queueBuf.length - 1) p

/-! ## The specification -/

/-- The weights of the entries. -/
def weights (queue : List (Option (SeedEntry R))) : List (Option R) :=
  queue.map fun q => q.map (weight powAlpha)

/-- The point that is drawn. -/
def drawnPoint (drawn : ℕ) (queue : List (Option (SeedEntry R))) : R :=
  (TestcaseCache.randBelow 0x7fffffff drawn : R) / 0x7fffffff *
    Roulette.upTo (weights powAlpha queue) queue.length

/-- The queue behind a selection of `i`: the probabilities are new, and `i` is counted. -/
def creditedQueue (queue : List (Option (SeedEntry R))) (i : ℕ) : List (Option (SeedEntry R)) :=
  (updateProbs powAlpha queue).modify i fun q => q.map SeedEntry.count

/-- A selection with this draw returns an enabled entry, the least one at which the
cumulative weight reaches the point, and counts it, whatever the audit does. -/
def Picked (drawn : ℕ) (p : Picker R) : Prop :=
  ∃ i e, p.queueBuf[i]? = some (some e) ∧ e.disabled = false ∧
    Roulette.Stops (drawnPoint powAlpha drawn p.queueBuf) 0 (weights powAlpha p.queueBuf) i ∧
    ∀ w, ∃ loop, selectNextQueueEntry powAlpha w drawn p =
      some (i, ⟨creditedQueue powAlpha p.queueBuf i, loop⟩)

/-! ## The loops in terms of the weights -/

section

variable {powAlpha}

theorem getElem?_updateProbs (queue : List (Option (SeedEntry R))) (i : ℕ) :
    (updateProbs powAlpha queue)[i]? =
      queue[i]?.map fun q => q.map fun q => { q with ssProb := weight powAlpha q } :=
  List.getElem?_map

theorem getElem?_weights (queue : List (Option (SeedEntry R))) (i : ℕ) :
    (weights powAlpha queue)[i]? = queue[i]?.map fun q => q.map (weight powAlpha) :=
  List.getElem?_map

theorem weights_eq_some_iff {queue : List (Option (SeedEntry R))} {i : ℕ} :
    (∃ x, (weights powAlpha queue)[i]? = some (some x)) ↔ ∃ e, queue[i]? = some (some e) := by
  rw [getElem?_weights]
  cases queue[i]? with
  | none => simp
  | some q => cases q <;> simp

theorem total_updateProbs (queue : List (Option (SeedEntry R))) :
    total (updateProbs powAlpha queue) = Roulette.upTo (weights powAlpha queue) queue.length := by
  have hfold : ∀ acc : R, (updateProbs powAlpha queue).foldl
      (fun total q => match q with | none => total | some q => total + q.ssProb) acc =
      acc + Roulette.upTo (weights powAlpha queue) queue.length := by
    induction queue with
    | nil => exact fun acc => (add_zero acc).symm
    | cons q queue ih =>
      intro acc
      rw [updateProbs, weights, List.map_cons, List.map_cons, List.foldl_cons, List.length_cons,
        Roulette.upTo_cons]
      cases q with
      | none =>
        rw [Option.map_none, Option.map_none, Option.getD_none, zero_add]
        exact ih acc
      | some q =>
        rw [Option.map_some, Option.map_some, Option.getD_some, ← add_assoc]
        exact ih _
  rw [total, hfold, zero_add]

theorem roulette_updateProbs (r acc : R) (queue : List (Option (SeedEntry R))) :
    roulette r acc (updateProbs powAlpha queue) = Roulette.spin r acc (weights powAlpha queue) := by
  induction queue generalizing acc with
  | nil => rfl
  | cons q queue ih =>
    rw [updateProbs, weights, List.map_cons, List.map_cons]
    cases q with
    | none =>
      rw [Option.map_none, Option.map_none, roulette, Roulette.spin]
      exact congrArg _ (ih acc)
    | some q =>
      rw [Option.map_some, Option.map_some, roulette, Roulette.spin]
      have hrest := ih (acc + weight powAlpha q)
      rw [updateProbs, weights] at hrest
      dsimp only
      rw [hrest]

/-- A selected entry is counted, with and without the audit. -/
theorem credit_eq {p : Picker R} {i : ℕ} {e : SeedEntry R} (he : p.queueBuf[i]? = some (some e))
    (w : AuditWriter R) : ∃ loop, credit powAlpha w i p =
      some (i, ⟨p.queueBuf.modify i fun q => q.map SeedEntry.count, loop⟩) := by
  have hset : p.queueBuf.set i (some e.count) =
      p.queueBuf.modify i fun q => q.map SeedEntry.count := by
    rw [List.modify_eq_set_getElem?, he]
    rfl
  rw [credit, he]
  dsimp only
  rw [hset]
  split_ifs
  · exact ⟨_, rfl⟩
  · exact ⟨_, rfl⟩

variable [IsStrictOrderedRing R]

theorem weight_pos (q : SeedEntry R) : 0 < weight powAlpha q := by
  have heps : (0 : R) < 1 / 100 := by positivity
  simp only [weight, SeedLoop.ssCalcProb, exactMath, decide_eq_true_eq]
  split_ifs with h
  · exact heps
  · exact heps.trans_le (not_lt.mp h)

variable (powAlpha) in
theorem weights_positive (queue : List (Option (SeedEntry R))) :
    Roulette.Positive (weights powAlpha queue) := by
  intro x hx
  obtain ⟨q, -, hq⟩ := List.mem_map.mp hx
  obtain ⟨e, -, rfl⟩ := Option.map_eq_some_iff.mp hq
  exact weight_pos e

variable (powAlpha) in
/-- The point lies between 0 and the sum of the weights. -/
theorem drawnPoint_mem (drawn : ℕ) (queue : List (Option (SeedEntry R))) :
    0 ≤ drawnPoint powAlpha drawn queue ∧
      drawnPoint powAlpha drawn queue ≤ Roulette.upTo (weights powAlpha queue) queue.length := by
  have htotal : 0 ≤ Roulette.upTo (weights powAlpha queue) queue.length := by
    have hmono := Roulette.upTo_mono (weights_positive powAlpha queue)
      (Nat.zero_le queue.length)
    rwa [Roulette.upTo_zero] at hmono
  have hlt : TestcaseCache.randBelow 0x7fffffff drawn < 0x7fffffff := by
    rw [TestcaseCache.randBelow, if_neg (by decide)]
    exact Nat.mod_lt _ (by decide)
  have hle : (TestcaseCache.randBelow 0x7fffffff drawn : R) / 0x7fffffff ≤ 1 := by
    rw [div_le_one (by positivity)]
    exact_mod_cast hlt.le
  have hnonneg : (0 : R) ≤ (TestcaseCache.randBelow 0x7fffffff drawn : R) / 0x7fffffff := by
    positivity
  exact ⟨mul_nonneg hnonneg htotal, mul_le_of_le_one_left htotal hle⟩

/-! ## What is picked -/

variable (powAlpha) in
/-- With an entry in the queue the roulette stops at one, and that is the selection. -/
theorem exists_selected {p : Picker R} (hentry : ∃ e, some e ∈ p.queueBuf) (drawn : ℕ) :
    ∃ i e, p.queueBuf[i]? = some (some e) ∧
      Roulette.spin (drawnPoint powAlpha drawn p.queueBuf) 0 (weights powAlpha p.queueBuf) = some i ∧
      ∀ w, ∃ loop, selectNextQueueEntry powAlpha w drawn p =
        some (i, ⟨creditedQueue powAlpha p.queueBuf i, loop⟩) := by
  obtain ⟨hpos, hle⟩ := drawnPoint_mem powAlpha drawn p.queueBuf
  have hlen : (weights powAlpha p.queueBuf).length = p.queueBuf.length := List.length_map _
  have hsome : ∃ x, some x ∈ weights powAlpha p.queueBuf := by
    obtain ⟨e, he⟩ := hentry
    exact ⟨weight powAlpha e, List.mem_map.mpr ⟨some e, he, rfl⟩⟩
  have hreach : drawnPoint powAlpha drawn p.queueBuf ≤
      0 + Roulette.upTo (weights powAlpha p.queueBuf) (weights powAlpha p.queueBuf).length := by
    rwa [hlen, zero_add]
  obtain ⟨i, hi⟩ := Roulette.spin_isSome hsome hreach
  obtain ⟨e, he⟩ := weights_eq_some_iff.mp (Roulette.spin_eq_some_iff.mp hi).present
  refine ⟨i, e, he, hi, fun w => ?_⟩
  have hne : p.queueBuf ≠ [] := by
    intro hnil
    rw [hnil] at he
    exact absurd he (by simp)
  have htotal : ¬ total (updateProbs powAlpha p.queueBuf) ≤ 0 := by
    rw [total_updateProbs, not_le]
    obtain ⟨x, hx⟩ := hsome
    have hget := (Roulette.spin_eq_some_iff.mp hi).present
    obtain ⟨y, hy⟩ := hget
    have hypos := weights_positive powAlpha p.queueBuf y (List.mem_of_getElem? hy)
    have hlt : i < p.queueBuf.length := (List.getElem?_eq_some_iff.mp he).1
    have hstep := Roulette.upTo_succ hy
    have hzero := Roulette.upTo_mono (weights_positive powAlpha p.queueBuf)
      (Nat.zero_le i)
    have hend := Roulette.upTo_mono (weights_positive powAlpha p.queueBuf)
      (Nat.succ_le_of_lt hlt)
    rw [Roulette.upTo_zero] at hzero
    rw [Nat.succ_eq_add_one, hstep] at hend
    exact (add_pos_of_nonneg_of_pos hzero hypos).trans_le hend
  have hpoint : (exactMath powAlpha).point (TestcaseCache.randBelow 0x7fffffff drawn)
      (total (updateProbs powAlpha p.queueBuf)) = drawnPoint powAlpha drawn p.queueBuf := by
    rw [total_updateProbs]
    rfl
  have hupdated : (updateProbs powAlpha p.queueBuf)[i]? =
      some (some { e with ssProb := weight powAlpha e }) := by
    rw [getElem?_updateProbs, he]
    rfl
  rw [selectNextQueueEntry, if_neg hne]
  dsimp only
  rw [if_neg htotal, hpoint, roulette_updateProbs, hi]
  exact credit_eq (p := ⟨updateProbs powAlpha p.queueBuf, p.loop⟩) hupdated w

/-- A selection is right exactly if the drawn point lies in the interval of no disabled
entry. -/
theorem picked_iff (powAlpha : R → R) {p : Picker R}
    (hentry : ∃ e, some e ∈ p.queueBuf ∧ e.disabled = false) (drawn : ℕ) :
    Picked powAlpha drawn p ↔
      ∀ i e, p.queueBuf[i]? = some (some e) → e.disabled = true →
        ¬ Roulette.Hit (drawnPoint powAlpha drawn p.queueBuf) (weights powAlpha p.queueBuf) i := by
  obtain ⟨enabled, henabled, -⟩ := hentry
  obtain ⟨i, e, he, hspin, hselect⟩ := exists_selected powAlpha ⟨enabled, henabled⟩ drawn
  have hhit : ∀ j f, p.queueBuf[j]? = some (some f) →
      (Roulette.Hit (drawnPoint powAlpha drawn p.queueBuf) (weights powAlpha p.queueBuf) j ↔ i = j) := by
    intro j f hf
    obtain ⟨x, hx⟩ : ∃ x, (weights powAlpha p.queueBuf)[j]? = some (some x) :=
      weights_eq_some_iff.mpr ⟨f, hf⟩
    rw [Roulette.hit_iff (weights_positive powAlpha p.queueBuf)
      (drawnPoint_mem powAlpha drawn p.queueBuf).1 hx, hspin]
    exact Option.some_inj
  constructor
  · rintro ⟨j, f, hf, hdisabled, hstops, -⟩
    intro k g hg hg' hk
    have hij : i = j := Option.some.inj (hspin.symm.trans (Roulette.spin_eq_some_iff.mpr hstops))
    have hik := (hhit k g hg).mp hk
    subst hij
    subst hik
    obtain rfl : f = g := Option.some.inj (Option.some.inj (hf.symm.trans hg))
    rw [hdisabled] at hg'
    exact Bool.false_ne_true hg'
  · intro h
    have hdisabled : e.disabled = false := by
      by_contra hdis
      exact h i e he (Bool.not_eq_false _ ▸ hdis) ((hhit i e he).mpr rfl)
    exact ⟨i, e, he, hdisabled, Roulette.spin_eq_some_iff.mp hspin, hselect⟩

end

/-! ## A disabled entry in front -/

/-- A disabled entry and an enabled one, both new. -/
def offOn : Picker ℚ where
  queueBuf := [some (.fresh 1 1 true), some (.fresh 1 1 false)]
  loop := SeedLoop.start [] 0 0 0

/-- The weight of a new entry; `pow(1, 0.7)` is 1. -/
theorem weight_fresh (depth : ℕ) (disabled : Bool) :
    weight id (SeedEntry.fresh (1 : ℚ) depth disabled) = 1 := by
  norm_num [weight, SeedLoop.ssCalcProb, exactMath, SeedEntry.fresh]

theorem weights_offOn : weights id offOn.queueBuf = [some 1, some 1] := by
  simp [weights, offOn, weight_fresh]

/-- A draw beyond the interval of the disabled entry. -/
theorem picked_offOn : Picked id 0x7ffffffe offOn := by
  refine (picked_iff id ⟨_, by simp [offOn]; exact .inr rfl, rfl⟩ 0x7ffffffe).mpr ?_
  intro i e he hdisabled hhit
  have hpoint : drawnPoint id 0x7ffffffe offOn.queueBuf = 2147483646 / 2147483647 * 2 := by
    rw [drawnPoint, weights_offOn]
    norm_num [TestcaseCache.randBelow, Roulette.upTo, offOn]
  rcases i with _ | _ | i
  · have hle := hhit.upper
    rw [hpoint, weights_offOn] at hle
    norm_num [Roulette.upTo] at hle
  · obtain rfl : SeedEntry.fresh (1 : ℚ) 1 false = e := by simpa [offOn] using he
    exact Bool.false_ne_true hdisabled
  · exact absurd he (by simp [offOn])

/-- A draw of 0 picks the disabled entry. -/
theorem disabled_entry_is_picked :
    (∃ e, some e ∈ offOn.queueBuf ∧ e.disabled = false) ∧ ¬ Picked id 0 offOn := by
  refine ⟨⟨.fresh 1 1 false, by simp [offOn], rfl⟩, ?_⟩
  rintro ⟨i, e, he, hdisabled, hstops, -⟩
  have hpoint : drawnPoint id 0 offOn.queueBuf = 0 := by
    norm_num [drawnPoint, TestcaseCache.randBelow]
  match i with
  | 0 =>
    obtain rfl : SeedEntry.fresh (1 : ℚ) 1 true = e := by simpa [offOn] using he
    exact Bool.false_ne_true hdisabled.symm
  | i + 1 =>
    have hlt := hstops.before 0 (Nat.succ_pos i) 1 (by rw [weights_offOn]; rfl)
    rw [hpoint, weights_offOn] at hlt
    norm_num [Roulette.upTo] at hlt

end Picker

end AflNv
