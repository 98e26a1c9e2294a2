import AflNv.Havoc

/-!
# The havoc stage and splicing

`fuzz_one_original` (afl-fuzz-one.c) runs the havoc stage on the test case, and then up to 15 times
on the test case spliced with another one.  A pass of the stage puts a stack of mutations on the
buffer, hands it to `common_fuzz_stuff`, and starts again from the test case.  What is found makes
the stage twice as long, as long as the performance score allows.  Custom mutators, which may stand
in a stack instead of a mutation and have a stage of their own in front of this one, are left out.

`common_fuzz_stuff` is an oracle: `World` says, for the inputs of the calls so far, what the fuzzer
reads then and what came of the last call.  A refused input is a call as well.

* `splice_spec` says what a spliced test case is, and that it is never the test case itself.
* `fuzz_spec` says that no pass of any stage leaves a buffer or goes on forever, and bounds the calls
  and the lengths of their inputs.
-/

namespace AflNv.Havoc

open AflNv.Lib.Checked AflNv.Lib.Codec

/-- `HAVOC_CYCLES` -/
def havocCycles : ℕ := 256

/-- `HAVOC_CYCLES_INIT` -/
def havocCyclesInit : ℕ := 1024

/-- `SPLICE_HAVOC` -/
def spliceHavoc : ℕ := 32

/-- `HAVOC_MIN` -/
def havocMin : ℕ := 12

/-- `SPLICE_CYCLES` -/
def spliceCycles : ℕ := 15

/-- What `common_fuzz_stuff` returns, and whether the queue has grown. -/
inductive Verdict
  /-- `goto abandon_entry` -/
  | abandon
  | same
  | found
  deriving DecidableEq

/-- The fuzzer after calls with some inputs, the last one first. -/
structure World where
  env : List Bytes → Env
  verdict : List Bytes → Verdict

structure Settings where
  doingDet : Bool
  useSplicing : Bool
  havocDiv : ℕ
  havocDiv_pos : 0 < havocDiv
  havocMaxMult : ℕ
  havocStackPow2 : ℕ
  havocStackPow2_pos : 0 < havocStackPow2

/-- The cycles of the havoc stage on the test case itself. -/
def Settings.cycles (cfg : Settings) : ℕ := if cfg.doingDet then havocCyclesInit else havocCycles

/-- The stage between two passes. -/
structure Stage where
  stageCur : ℕ
  stageMax : ℕ
  perfScore : ℕ
  calls : List Bytes

/-- The calls, and whether the test case was abandoned. -/
structure Ending where
  calls : List Bytes
  abandoned : Bool

variable (w : World) (cfg : Settings)

/-- One pass: a stack of mutations and a call. -/
def pass (base : Bytes) (stackMax : ℕ) (s : Stage) : Prog (Stage ⊕ Ending) :=
  if s.stageCur < s.stageMax then
    below stackMax >>= fun r =>
    iterate (havocStep (w.env s.calls)) (1 + r) base >>= fun out =>
    let next := { s with stageCur := s.stageCur + 1, calls := out :: s.calls }
    pure (match w.verdict (out :: s.calls) with
      | .abandon => .inr ⟨out :: s.calls, true⟩
      | .same => .inl next
      | .found =>
        if s.perfScore ≤ cfg.havocMaxMult * 100 then
          .inl { next with stageMax := s.stageMax * 2, perfScore := s.perfScore * 2 }
        else .inl next)
  else pure (.inr ⟨s.calls, false⟩)

/-- `stage_max` at the start of a stage. -/
def firstMax (cycles perf : ℕ) : ℕ := max ((cycles * perf / cfg.havocDiv) >>> 8) havocMin

/-- The stage on `base`, in at most `fuel` passes. -/
def havocStage (fuel cycles perf : ℕ) (base : Bytes) (calls : List Bytes) : Prog Ending :=
  divide (cycles * perf) cfg.havocDiv >>= fun quotient =>
  below cfg.havocStackPow2 >>= fun r =>
  loop (pass w cfg base (2 ^ (1 + r))) fuel ⟨0, max (quotient >>> 8) havocMin, perf, calls⟩

/-! ## Splicing -/

/-- The places after a difference at `pos`. -/
def noteDiff (pos : ℕ) : Option (ℕ × ℕ) → Option (ℕ × ℕ)
  | none => some (pos, pos)
  | some (first, _) => some (first, pos)

/-- The loop of `locate_diffs`, with `len` bytes to go from `pos` on. -/
def locateDiffsFrom (ptr1 ptr2 : Bytes) : ℕ → ℕ → Option (ℕ × ℕ) → Prog (Option (ℕ × ℕ))
  | 0, _, locs => pure locs
  | len + 1, pos, locs =>
    load ptr1 pos >>= fun a => load ptr2 pos >>= fun b =>
    locateDiffsFrom ptr1 ptr2 len (pos + 1) (if a = b then locs else noteDiff pos locs)

/-- `locate_diffs`: the first and the last place of a difference; `none` stands for -1 and -1. -/
def locateDiffs (ptr1 ptr2 : Bytes) (len : ℕ) : Prog (Option (ℕ × ℕ)) :=
  locateDiffsFrom ptr1 ptr2 len 0 none

/-- The test case with the tail of another one; `none` is `goto retry_splicing`. -/
def splice (env : Env) (orig : Bytes) : Prog (Option Bytes) :=
  pickTarget env >>= fun target =>
  locateDiffs orig target (min orig.length target.length) >>= fun
  | none => pure none
  | some (fDiff, lDiff) =>
    if lDiff < 2 ∨ fDiff = lDiff then pure none
    else
      minus lDiff fDiff >>= fun limit => below limit >>= fun r =>
      let splitAt := fDiff + r
      slice orig 0 splitAt >>= fun head => minus target.length splitAt >>= fun rest =>
      slice target splitAt rest >>= fun tail =>
      blit (alloc env target.length) 0 head >>= fun scratch =>
      blit scratch splitAt tail >>= fun spliced => pure (some spliced)

/-- `retry_splicing`, with so many cycles left. -/
def spliceLoop (fuel perf : ℕ) (orig : Bytes) : ℕ → List Bytes → Prog Ending
  | 0, calls => pure ⟨calls, false⟩
  | left + 1, calls =>
    if 1 < (w.env calls).readyForSplicingCount ∧ 4 ≤ orig.length then
      splice (w.env calls) orig >>= fun
      | none => spliceLoop fuel perf orig left calls
      | some base =>
        havocStage w cfg fuel spliceHavoc perf base calls >>= fun e =>
        if e.abandoned then pure e else spliceLoop fuel perf orig left e.calls
    else pure ⟨calls, false⟩

/-- The havoc stage on the test case, and the splicing. -/
def fuzz (fuel perf : ℕ) (orig : Bytes) : Prog Ending :=
  havocStage w cfg fuel cfg.cycles perf orig [] >>= fun e =>
  if e.abandoned then pure e
  else if cfg.useSplicing then spliceLoop w cfg fuel perf orig spliceCycles e.calls
  else pure e

/-! ## What a splice is -/

/-- The first and the last difference among the first `len` bytes. -/
structure Diffs (ptr1 ptr2 : Bytes) (len fDiff lDiff : ℕ) : Prop where
  le : fDiff ≤ lDiff
  lt : lDiff < len
  before : ∀ i < fDiff, ptr1[i]? = ptr2[i]?
  first : ptr1[fDiff]? ≠ ptr2[fDiff]?
  last : ptr1[lDiff]? ≠ ptr2[lDiff]?
  after : ∀ i < len, lDiff < i → ptr1[i]? = ptr2[i]?

/-- What `locate_diffs` knows after `len` bytes. -/
def Located (ptr1 ptr2 : Bytes) (len : ℕ) : Option (ℕ × ℕ) → Prop
  | none => ∀ i < len, ptr1[i]? = ptr2[i]?
  | some (first, last) => Diffs ptr1 ptr2 len first last

section Locate

variable {ptr1 ptr2 : Bytes} {pos : ℕ} {locs : Option (ℕ × ℕ)}

theorem Located.same (h : Located ptr1 ptr2 pos locs) (heq : ptr1[pos]? = ptr2[pos]?) :
    Located ptr1 ptr2 (pos + 1) locs := by
  cases locs with
  | none =>
    intro i hi
    rcases Nat.lt_succ_iff_lt_or_eq.mp hi with hlt | rfl
    · exact h i hlt
    · exact heq
  | some ends =>
    refine { h with lt := Nat.lt_succ_of_lt h.lt, after := fun i hi hlast => ?_ }
    rcases Nat.lt_succ_iff_lt_or_eq.mp hi with hlt | rfl
    · exact h.after i hlt hlast
    · exact heq

theorem Located.differ (h : Located ptr1 ptr2 pos locs) (hne : ptr1[pos]? ≠ ptr2[pos]?) :
    Located ptr1 ptr2 (pos + 1) (noteDiff pos locs) := by
  cases locs with
  | none => exact ⟨Nat.le_refl pos, Nat.lt_succ_self pos, h, hne, hne, fun i _ _ => by omega⟩
  | some ends =>
    have hle := h.le
    have hlt := h.lt
    exact ⟨by omega, Nat.lt_succ_self pos, h.before, h.first, hne, fun i _ _ => by omega⟩

theorem locateDiffsFrom_safe {len : ℕ} (h1 : pos + len ≤ ptr1.length)
    (h2 : pos + len ≤ ptr2.length) (h : Located ptr1 ptr2 pos locs) :
    Safe (locateDiffsFrom ptr1 ptr2 len pos locs) (Located ptr1 ptr2 (pos + len)) := by
  induction len generalizing pos locs with
  | zero => exact safe_pure h
  | succ len ih =>
    have hpos1 : pos < ptr1.length := by omega
    have hpos2 : pos < ptr2.length := by omega
    refine load_safe hpos1 (load_safe hpos2 ?_)
    have hend : pos + (len + 1) = pos + 1 + len := by omega
    rw [hend]
    apply ih (by omega) (by omega)
    have hget : ptr1[pos]? = ptr2[pos]? ↔ ptr1[pos] = ptr2[pos] := by
      rw [List.getElem?_eq_getElem hpos1, List.getElem?_eq_getElem hpos2, Option.some_inj]
    split_ifs with heq
    · exact h.same (hget.mpr heq)
    · exact h.differ (mt hget.mp heq)

theorem locateDiffs_safe {len : ℕ} (h1 : len ≤ ptr1.length) (h2 : len ≤ ptr2.length) :
    Safe (locateDiffs ptr1 ptr2 len) (Located ptr1 ptr2 len) := by
  have hstart : Located ptr1 ptr2 0 none := fun i hi => absurd hi (Nat.not_lt_zero i)
  have hrun : Safe (locateDiffsFrom ptr1 ptr2 len 0 none) (Located ptr1 ptr2 (0 + len)) :=
    locateDiffsFrom_safe (by omega) (by omega) hstart
  rwa [Nat.zero_add] at hrun

end Locate

/-- `base` begins as `orig` does and ends, from `splitAt` on, as `target` does; the place is between
the first difference and the last one. -/
structure Spliced (orig target base : Bytes) (splitAt fDiff lDiff : ℕ) : Prop where
  diffs : Diffs orig target (min orig.length target.length) fDiff lDiff
  le : fDiff ≤ splitAt
  lt : splitAt < lDiff
  eq : base = orig.take splitAt ++ target.drop splitAt

namespace Spliced

variable {orig target base : Bytes} {splitAt fDiff lDiff : ℕ}
  (h : Spliced orig target base splitAt fDiff lDiff)

include h

theorem getElem? (i : ℕ) : base[i]? = if i < splitAt then orig[i]? else target[i]? := by
  have hlt := h.lt
  have hlast := h.diffs.lt
  have hhead : (orig.take splitAt).length = splitAt := by
    rw [List.length_take]
    omega
  rw [h.eq, List.getElem?_append, hhead]
  split_ifs with hi
  · rw [List.getElem?_take, if_pos hi]
  · rw [List.getElem?_drop]
    congr 1
    omega

theorem length : base.length = target.length := by
  have hlt := h.lt
  have hlast := h.diffs.lt
  rw [h.eq, List.length_append, List.length_take, List.length_drop]
  omega

/-- The last difference is behind the place of the splice. -/
theorem differs : base[lDiff]? ≠ orig[lDiff]? := by
  rw [h.getElem?, if_neg (Nat.not_lt.mpr h.lt.le)]
  exact h.diffs.last.symm

theorem ne_orig : base ≠ orig := by
  intro heq
  exact h.differs (congrArg (fun buf : Bytes => buf[lDiff]?) heq)

/-- Spliced at the first difference, the test case is the other one. -/
theorem eq_target_iff : base = target ↔ splitAt = fDiff := by
  constructor
  · intro heq
    by_contra hne
    have hlt : fDiff < splitAt := Nat.lt_of_le_of_ne h.le (Ne.symm hne)
    have hget := h.getElem? fDiff
    rw [if_pos hlt, heq] at hget
    exact h.diffs.first hget.symm
  · rintro rfl
    apply List.ext_getElem?
    intro i
    rw [h.getElem?]
    split_ifs with hi
    · exact h.diffs.before i hi
    · rfl

end Spliced

/-- What becomes of a splice. -/
theorem splice_safe {env : Env} {orig : Bytes} (hready : 1 < env.readyForSplicingCount) :
    Safe (splice env orig) fun r => ∀ base ∈ r, ∃ target splitAt fDiff lDiff,
      OtherCase env target ∧ 2 ≤ lDiff ∧ Spliced orig target base splitAt fDiff lDiff := by
  refine (pickTarget_safe hready).bind fun target htarget => ?_
  refine (locateDiffs_safe (Nat.min_le_left ..) (Nat.min_le_right ..)).bind fun locs hlocs => ?_
  cases locs with
  | none => exact safe_pure fun base hbase => by simp at hbase
  | some ends =>
    have hle := hlocs.le
    have hlt := hlocs.lt
    dsimp only
    split_ifs with hskip
    · exact safe_pure fun base hbase => by simp at hbase
    · refine minus_safe hle (below_safe (by omega) fun r hr => ?_)
      refine slice_safe (by omega) fun head hhead hhead_eq => minus_safe (by omega) ?_
      refine slice_safe (by omega) fun tail htail htail_eq => ?_
      have halloc : (alloc env target.length).length = target.length := by simp [alloc]
      refine blit_safe (by omega) fun scratch hscratch htake => ?_
      refine blit_safe (by omega) fun spliced hspliced htake' => safe_pure fun base hbase => ?_
      obtain rfl : spliced = base := by simpa using hbase
      refine ⟨target, ends.1 + r, ends.1, ends.2, htarget, by omega, hlocs, by omega, by omega, ?_⟩
      have hall : ends.1 + r + tail.length = spliced.length := by omega
      have htail_eq : tail = target.drop (ends.1 + r) := by
        rw [htail_eq, List.take_of_length_le]
        rw [List.length_drop]
      rw [Nat.zero_add, hhead, List.take_zero, List.nil_append, hhead_eq, List.drop_zero] at htake
      rw [hall, List.take_length, htake] at htake'
      rw [htake', htail_eq]

/-! ## What the stages keep -/

/-- The input of a call when every test case has at most `bound` bytes. -/
structure Sized (bound : ℕ) (input : Bytes) : Prop where
  pos : 1 ≤ input.length
  le : input.length ≤ bound + 18 * 2 ^ cfg.havocStackPow2

/-- The performance score does not become larger than that. -/
def perfLimit (perf : ℕ) : ℕ := max perf (2 * (cfg.havocMaxMult * 100))

/-- How many passes a stage can make. -/
def passLimit (cycles perf : ℕ) : ℕ := firstMax cfg cycles perf * perfLimit cfg perf / perf

/-- The stage with `n` passes to go. -/
structure Running (bound cycles perf : ℕ) (before : List Bytes) (n : ℕ) (s : Stage) : Prop where
  fuel : passLimit cfg cycles perf < n + s.stageCur
  cur_le : s.stageCur ≤ s.stageMax
  first_le : firstMax cfg cycles perf ≤ s.stageMax
  ratio : s.stageMax * perf = firstMax cfg cycles perf * s.perfScore
  perf_le : s.perfScore ≤ perfLimit cfg perf
  calls : ∃ new, s.calls = new ++ before ∧ new.length = s.stageCur ∧
    ∀ input ∈ new, Sized cfg bound input

/-- The stage, after the calls `before`. -/
structure Done (bound cycles perf : ℕ) (before : List Bytes) (e : Ending) : Prop where
  calls : ∃ new, e.calls = new ++ before ∧ new.length ≤ passLimit cfg cycles perf ∧
    (e.abandoned = false → firstMax cfg cycles perf ≤ new.length) ∧
    ∀ input ∈ new, Sized cfg bound input

section Stages

variable {bound : ℕ} (hbound : maxFile - 1 ≤ bound)

include hbound

/-- A mutation lets a buffer grow by 18 bytes at most. -/
theorem stack_safe {env : Env} {base : Bytes} (hpos : 1 ≤ base.length) (hle : base.length ≤ bound)
    (n : ℕ) : Safe (iterate (havocStep env) n base) fun r =>
      1 ≤ r.length ∧ r.length ≤ bound + 18 * n := by
  have hstart : 1 ≤ base.length ∧ base.length ≤ bound + 18 * 0 := ⟨hpos, hle⟩
  have hstep (k : ℕ) (buf : Bytes) (h : 1 ≤ buf.length ∧ buf.length ≤ bound + 18 * k) :
      Safe (havocStep env buf) fun r => 1 ≤ r.length ∧ r.length ≤ bound + 18 * (k + 1) := by
    refine (havocStep_safe h.1).mono fun r ⟨hr, hmax⟩ => ⟨hr, ?_⟩
    rcases Nat.le_total (buf.length + 18) (maxFile - 1) with hcase | hcase
    · rw [max_eq_right hcase] at hmax
      omega
    · rw [max_eq_left hcase] at hmax
      omega
  have hrun := safe_iterate hstep n hstart
  rwa [Nat.zero_add] at hrun

variable {w cfg} {cycles perf : ℕ} {before : List Bytes}

omit hbound in
theorem Running.max_le {n : ℕ} {s : Stage} (h : Running cfg bound cycles perf before n s)
    (hperf : 0 < perf) : s.stageMax ≤ passLimit cfg cycles perf := by
  apply (Nat.le_div_iff_mul_le hperf).mpr
  rw [h.ratio]
  exact Nat.mul_le_mul_left _ h.perf_le

omit hbound in
/-- A pass that the stage goes on after. -/
theorem Running.next {n : ℕ} {s : Stage} (h : Running cfg bound cycles perf before (n + 1) s)
    (hcur : s.stageCur < s.stageMax) {out : Bytes} (hout : Sized cfg bound out) :
    Running cfg bound cycles perf before n
      { s with stageCur := s.stageCur + 1, calls := out :: s.calls } := by
  obtain ⟨new, hnew, hlen, hsized⟩ := h.calls
  have hfuel := h.fuel
  refine { h with fuel := ?_, cur_le := hcur, calls := ⟨out :: new, ?_, ?_, ?_⟩ }
  · dsimp only
    omega
  · exact congrArg (List.cons out) hnew
  · exact congrArg (· + 1) hlen
  · exact List.forall_mem_cons.mpr ⟨hout, hsized⟩

omit hbound in
/-- What is found makes the stage and the performance score twice as large. -/
theorem Running.double {n : ℕ} {s : Stage} (h : Running cfg bound cycles perf before n s)
    (hperf : s.perfScore ≤ cfg.havocMaxMult * 100) :
    Running cfg bound cycles perf before n
      { s with stageMax := s.stageMax * 2, perfScore := s.perfScore * 2 } := by
  have hcur := h.cur_le
  have hfirst := h.first_le
  refine { h with cur_le := ?_, first_le := ?_, ratio := ?_, perf_le := ?_ }
  · dsimp only
    omega
  · dsimp only
    omega
  · calc s.stageMax * 2 * perf = s.stageMax * perf * 2 := by ring
      _ = firstMax cfg cycles perf * s.perfScore * 2 := by rw [h.ratio]
      _ = firstMax cfg cycles perf * (s.perfScore * 2) := by ring
  · apply le_max_of_le_right
    dsimp only
    omega

theorem pass_safe (hperf : 0 < perf) {base : Bytes} (hpos : 1 ≤ base.length)
    (hle : base.length ≤ bound) {stackMax : ℕ} (hstack : 0 < stackMax)
    (hpow : stackMax ≤ 2 ^ cfg.havocStackPow2) {n : ℕ} {s : Stage}
    (h : Running cfg bound cycles perf before (n + 1) s) :
    Safe (pass w cfg base stackMax s)
      (Next (Running cfg bound cycles perf before) (Done cfg bound cycles perf before) n) := by
  have hmax := h.max_le hperf
  obtain ⟨new, hnew, hlen, hsized⟩ := h.calls
  rcases Nat.lt_or_ge s.stageCur s.stageMax with hcur | hcur
  · rw [pass, if_pos hcur]
    refine below_safe hstack fun r hr => ?_
    refine (stack_safe hbound hpos hle (1 + r)).bind fun out ⟨hout, hgrown⟩ => safe_pure ?_
    have hout : Sized cfg bound out := ⟨hout, by omega⟩
    cases w.verdict (out :: s.calls) with
    | abandon =>
      refine ⟨out :: new, congrArg (List.cons out) hnew, ?_, ?_, ?_⟩
      · rw [List.length_cons]
        omega
      · intro hkept
        cases hkept
      · exact List.forall_mem_cons.mpr ⟨hout, hsized⟩
    | same => exact h.next hcur hout
    | found =>
      dsimp only
      split_ifs with hscore
      · exact (h.next hcur hout).double hscore
      · exact h.next hcur hout
  · rw [pass, if_neg (Nat.not_lt.mpr hcur)]
    have hcur_le := h.cur_le
    have hfirst := h.first_le
    exact safe_pure (Done.mk ⟨new, hnew, by omega, fun _ => by omega, hsized⟩)

theorem havocStage_safe (hperf : 0 < perf) {base : Bytes} (hpos : 1 ≤ base.length)
    (hle : base.length ≤ bound) {fuel : ℕ} (hfuel : passLimit cfg cycles perf < fuel) :
    Safe (havocStage w cfg fuel cycles perf base before) (Done cfg bound cycles perf before) := by
  refine divide_safe cfg.havocDiv_pos (below_safe cfg.havocStackPow2_pos fun r hr => ?_)
  have hpow : 2 ^ (1 + r) ≤ 2 ^ cfg.havocStackPow2 := Nat.pow_le_pow_right (by decide) (by omega)
  refine safe_loop (I := Running cfg bound cycles perf before) ?_ ?_ ?_
  · intro s h
    have hcur := h.cur_le
    have hmax := h.max_le hperf
    have hnone := h.fuel
    omega
  · intro n s h
    exact pass_safe hbound hperf hpos hle (Nat.two_pow_pos _) hpow h
  · exact ⟨hfuel, Nat.zero_le _, Nat.le_refl _, rfl, le_max_left _ _, [], rfl, rfl, by simp⟩

omit hbound in
theorem passLimit_mono {cycles' : ℕ} (h : cycles ≤ cycles') (perf : ℕ) :
    passLimit cfg cycles perf ≤ passLimit cfg cycles' perf := by
  have hdiv : cycles * perf / cfg.havocDiv ≤ cycles' * perf / cfg.havocDiv :=
    Nat.div_le_div_right (Nat.mul_le_mul_right perf h)
  have hfirst : firstMax cfg cycles perf ≤ firstMax cfg cycles' perf := by
    unfold firstMax
    rw [Nat.shiftRight_eq_div_pow, Nat.shiftRight_eq_div_pow]
    exact max_le_max_right havocMin (Nat.div_le_div_right hdiv)
  exact Nat.div_le_div_right (Nat.mul_le_mul_right _ hfirst)

/-- The splicing adds at most one stage for each cycle that is left. -/
theorem spliceLoop_safe (hperf : 0 < perf) {orig : Bytes}
    (hqueue : ∀ calls, ∀ target ∈ (w.env calls).queueBuf, target.length ≤ bound) {fuel : ℕ}
    (hfuel : passLimit cfg spliceHavoc perf < fuel) (left : ℕ) (before : List Bytes) :
    Safe (spliceLoop w cfg fuel perf orig left before) fun e => ∃ new,
      e.calls = new ++ before ∧ new.length ≤ left * passLimit cfg spliceHavoc perf ∧
      ∀ input ∈ new, Sized cfg bound input := by
  induction left generalizing before with
  | zero => exact safe_pure ⟨[], rfl, Nat.zero_le _, by simp⟩
  | succ left ih =>
    have hmul : (left + 1) * passLimit cfg spliceHavoc perf =
        left * passLimit cfg spliceHavoc perf + passLimit cfg spliceHavoc perf := by ring
    by_cases hready : 1 < (w.env before).readyForSplicingCount ∧ 4 ≤ orig.length
    · rw [spliceLoop, if_pos hready]
      refine (splice_safe hready.1).bind fun r hr => ?_
      cases r with
      | none =>
        refine (ih before).mono fun e ⟨new, hnew, hlen, hsized⟩ => ⟨new, hnew, ?_, hsized⟩
        omega
      | some base =>
        obtain ⟨target, splitAt, fDiff, lDiff, htarget, -, hspliced⟩ := hr base rfl
        obtain ⟨tid, -, htid⟩ := htarget.entry
        have hfour := htarget.four_le
        have hlen := hspliced.length
        have hmem := hqueue before target (List.mem_of_getElem? htid)
        refine (havocStage_safe hbound hperf (by omega) (by omega) hfuel).bind fun e he => ?_
        obtain ⟨new, hnew, hcount, -, hsized⟩ := he.calls
        split_ifs
        · exact safe_pure ⟨new, hnew, by omega, hsized⟩
        · refine (ih e.calls).mono fun e' ⟨more, hmore, hcount', hsized'⟩ => ?_
          refine ⟨more ++ new, ?_, ?_, ?_⟩
          · rw [hmore, hnew, List.append_assoc]
          · rw [List.length_append]
            omega
          · exact List.forall_mem_append.mpr ⟨hsized', hsized⟩
    · rw [spliceLoop, if_neg hready]
      exact safe_pure ⟨[], rfl, Nat.zero_le _, by simp⟩

end Stages

/-! ## Results -/

/-- A queue of two test cases; the fuzzer works on the first of them. -/
def twoCases : Env where
  table := [.flip8, .del]
  table_two := by decide
  queueCycle := 2
  runOver10m := true
  extras := []
  aExtras := []
  queueBuf := [[1, 2, 3, 4], [1, 9, 3, 9, 5]]
  currentEntry := 0
  readyForSplicingCount := 2
  ready_le := by decide
  junk := fun _ => 0xaa

/-- The third call finds something. -/
def thirdFinds : World where
  env := fun _ => twoCases
  verdict := fun calls => if calls.length = 3 then .found else .same

def splicing : Settings where
  doingDet := false
  useSplicing := true
  havocDiv := 1
  havocDiv_pos := by decide
  havocMaxMult := 64
  havocStackPow2 := 4
  havocStackPow2_pos := by decide

/-- A spliced test case is as long as the one that its tail is taken from.  It is never the test
case itself, from which it differs at the last difference, and it is the other one just where the
place of the splice is the first difference. -/
theorem splice_spec (env : Env) (orig : Bytes) (hready : 1 < env.readyForSplicingCount) :
    Safe (splice env orig) fun r => ∀ base ∈ r, base ≠ orig ∧ ∃ target splitAt fDiff lDiff,
      OtherCase env target ∧ Diffs orig target (min orig.length target.length) fDiff lDiff ∧
      fDiff ≤ splitAt ∧ splitAt < lDiff ∧ base = orig.take splitAt ++ target.drop splitAt ∧
      base.length = target.length ∧ base[lDiff]? ≠ orig[lDiff]? ∧
      (base = target ↔ splitAt = fDiff) := by
  refine (splice_safe hready).mono fun r hr base hbase => ?_
  obtain ⟨target, splitAt, fDiff, lDiff, htarget, -, h⟩ := hr base hbase
  exact ⟨h.ne_orig, target, splitAt, fDiff, lDiff, htarget, h.diffs, h.le, h.lt, h.eq, h.length,
    h.differs, h.eq_target_iff⟩

theorem splice_spec_twoCases :
    Safe (splice twoCases [1, 2, 3, 4]) fun r => ∀ base ∈ r, base ≠ [1, 2, 3, 4] ∧
      ∃ target splitAt fDiff lDiff, OtherCase twoCases target ∧
      Diffs [1, 2, 3, 4] target (min 4 target.length) fDiff lDiff ∧ fDiff ≤ splitAt ∧
      splitAt < lDiff ∧ base = [1, 2, 3, 4].take splitAt ++ target.drop splitAt ∧
      base.length = target.length ∧ base[lDiff]? ≠ [1, 2, 3, 4][lDiff]? ∧
      (base = target ↔ splitAt = fDiff) :=
  splice_spec twoCases [1, 2, 3, 4] (by decide)

example : splice twoCases [1, 2, 3, 4] [0, 1, 7] = .ok (some [1, 2, 3, 9, 5], []) := by decide

/-- Neither the havoc stage nor a splicing stage leaves a buffer, and no loop of theirs goes on
without drawing a number: the stages end, or the numbers do.  There are so many calls at most, and no
input of a call is empty or much longer than the test cases. -/
theorem fuzz_spec (w : World) (cfg : Settings) {orig : Bytes} (horig : 1 ≤ orig.length) {bound : ℕ}
    (hle : orig.length ≤ bound)
    (hqueue : ∀ calls, ∀ target ∈ (w.env calls).queueBuf, target.length ≤ bound) {perf : ℕ}
    (hperf : 0 < perf) {fuel : ℕ} (hfuel : passLimit cfg havocCyclesInit perf < fuel) :
    Safe (fuzz w cfg fuel perf orig) fun e =>
      e.calls.length ≤
        passLimit cfg cfg.cycles perf + spliceCycles * passLimit cfg spliceHavoc perf ∧
      (e.abandoned = false → havocMin ≤ e.calls.length) ∧
      ∀ input ∈ e.calls, 1 ≤ input.length ∧
        input.length ≤ max bound (maxFile - 1) + 18 * 2 ^ cfg.havocStackPow2 := by
  have hbound : maxFile - 1 ≤ max bound (maxFile - 1) := le_max_right _ _
  have hle' := le_max_of_le_left (c := maxFile - 1) hle
  have hqueue' calls target (h : target ∈ (w.env calls).queueBuf) :=
    le_max_of_le_left (c := maxFile - 1) (hqueue calls target h)
  generalize max bound (maxFile - 1) = limit at hbound hle' hqueue' ⊢
  have hcycles : cfg.cycles ≤ havocCyclesInit := by
    unfold Settings.cycles
    split_ifs <;> decide
  have hhavoc := (passLimit_mono hcycles perf).trans_lt hfuel
  have hless : spliceHavoc ≤ havocCyclesInit := by decide
  have hsplice := (passLimit_mono hless perf).trans_lt hfuel
  have hfirst : havocMin ≤ firstMax cfg cfg.cycles perf := le_max_right _ _
  refine (havocStage_safe hbound hperf horig hle' hhavoc).bind fun e he => ?_
  obtain ⟨new, hnew, hcount, hmin, hsized⟩ := he.calls
  rw [List.append_nil] at hnew
  subst hnew
  have hmin' (h : e.abandoned = false) : havocMin ≤ e.calls.length := hfirst.trans (hmin h)
  have hsizes : ∀ input ∈ e.calls, 1 ≤ input.length ∧
      input.length ≤ limit + 18 * 2 ^ cfg.havocStackPow2 :=
    fun input h => ⟨(hsized input h).pos, (hsized input h).le⟩
  split_ifs with habandoned
  · exact safe_pure ⟨by omega, hmin', hsizes⟩
  · have hstart := hmin' (Bool.eq_false_of_not_eq_true habandoned)
    refine (spliceLoop_safe hbound hperf hqueue' hsplice spliceCycles e.calls).mono ?_
    rintro e' ⟨more, hmore, hcount', hsized'⟩
    rw [hmore, List.length_append]
    refine ⟨by omega, fun _ => by omega, List.forall_mem_append.mpr ⟨?_, hsizes⟩⟩
    exact fun input h => ⟨(hsized' input h).pos, (hsized' input h).le⟩
  · exact safe_pure ⟨by omega, hmin', hsizes⟩

theorem fuzz_spec_thirdFinds :
    Safe (fuzz thirdFinds splicing 51201 100 [1, 2, 3, 4]) fun e =>
      e.calls.length ≤ passLimit splicing splicing.cycles 100 +
        spliceCycles * passLimit splicing spliceHavoc 100 ∧
      (e.abandoned = false → havocMin ≤ e.calls.length) ∧
      ∀ input ∈ e.calls, 1 ≤ input.length ∧ input.length ≤ max 5 (maxFile - 1) + 18 * 2 ^ 4 :=
  fuzz_spec thirdFinds splicing (by decide) (by decide)
    (fun _ => show ∀ target ∈ twoCases.queueBuf, target.length ≤ 5 by decide) (by decide)
    (by decide)

end AflNv.Havoc
