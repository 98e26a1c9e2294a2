import AflNv.SaveInteresting
import AflNv.TraceBytes

/-!
# Which inputs the sanitizers see

`save_if_interesting` of `src/afl-fuzz-bitmap.c` feeds an input to the sanitizer binaries
when its trace is new to them, and keeps the traces they have seen in a map of bits.  A run
of calls is followed here with those maps, and with the hashes of what was fed.

Under `SIMPLIFY_TRACE` the bit that is read is the one that is set.  Under `UNIQUE_TRACE`
the code reads the bit of `cksum`, a 64-bit checksum that is 0 unless the schedule needs
it, and sets the bit of the 32-bit hash.  `sanDedup_iff` says for which runs that is the
same.
-/

namespace AflNv

namespace Bitmap

open Coverage Lib.Machine

/-! ## Simplifying a classified trace -/

theorem countClassLookup8_eq_zero {b : UInt8} : countClassLookup8 b = 0 ↔ b = 0 := by
  rw [countClassLookup8]
  split_ifs <;> simp_all

theorem simplifyLookup_classified (b : UInt8) :
    simplifyLookup (countClassLookup8 b) = simplifyLookup b := by
  simp only [simplifyLookup, countClassLookup8_eq_zero]

theorem classifyWord_eq_zero {w : UInt64} : classifyWord w = 0 ↔ w = 0 := by
  rw [← not_iff_not, ← ne_eq, ← ne_eq, word_ne_zero_iff, word_ne_zero_iff]
  refine exists_congr fun k => and_congr_right fun hk => ?_
  rw [byteAt_classifyWord w hk, ne_eq, countClassLookup8_eq_zero]

theorem simplifyWord_classifyWord (w : UInt64) : simplifyWord (classifyWord w) = simplifyWord w := by
  have hfold : ∀ (l : List ℕ) (mem : UInt64), (∀ k ∈ l, k < 8) →
      l.foldl (fun mem k =>
        mem ||| (simplifyLookup (byteAt (classifyWord w) k)).toUInt64 <<< (8 * UInt64.ofNat k)) mem =
      l.foldl (fun mem k =>
        mem ||| (simplifyLookup (byteAt w k)).toUInt64 <<< (8 * UInt64.ofNat k)) mem := by
    intro l
    induction l with
    | nil => exact fun _ _ => rfl
    | cons k l ih =>
      intro mem hl
      obtain ⟨hk, hl⟩ := List.forall_mem_cons.mp hl
      rw [List.foldl_cons, List.foldl_cons, byteAt_classifyWord w hk, simplifyLookup_classified]
      exact ih _ hl
  simp only [simplifyWord, ne_eq, classifyWord_eq_zero]
  rw [hfold _ _ fun k hk => List.mem_range.mp hk]

/-- The simplified trace does not show whether it was classified before. -/
theorem simplifyLoop_classifyLoop (n : ℕ) (ws : List UInt64) :
    simplifyLoop n (classifyLoop n ws) = simplifyLoop n ws := by
  induction ws generalizing n with
  | nil => cases n <;> rfl
  | cons w ws ih =>
    cases n with
    | zero => rfl
    | succ n =>
      have hword : simplifyWord (if w ≠ 0 then classifyWord w else w) = simplifyWord w := by
        split_ifs
        · exact simplifyWord_classifyWord w
        · rfl
      rw [classifyLoop, simplifyLoop, simplifyLoop, hword, ih]

/-! ## Runs of calls -/

/-- The bits that are set in `simplified_n_fuzz` and in `n_fuzz_dup`. -/
structure SanSeen where
  simplified : UInt32 → Bool
  dup : UInt32 → Bool

/-- The maps of a call, as an earlier one left them. -/
def SaveCall.seeing (c : SaveCall) (seen : SanSeen) : SaveCall :=
  { c with maps := { c.maps with
    simplifiedNFuzz := seen.simplified
    nFuzzDup := seen.dup } }

/-- The hash of the trace: of the simplified trace, or of the classified one. -/
def SaveCall.traceHash (cfg : SaveCfg) (c : SaveCall) : UInt32 :=
  match cfg.sanAbstraction with
  | .simplifyTrace => cfg.hash32 c.maps.mapSize c.maps.simplify.traceBits
  | _ => cfg.hash32 c.maps.mapSize c.maps.classify.traceBits

/-- The value of `feed_san` when the call ends. -/
def fedSan (cfg : SaveCfg) (t : SaveTally) (c : SaveCall) : Bool :=
  if c.len = 0 then false
  else if c.fault = .tmout && cfg.aflIgnoreTimeouts then false
  else
    let s := countFrequency cfg { c.start t with m := { c.maps with sanCaseStatus := 0 } }
    if c.fault = cfg.crashMode then (feedSan cfg s).1 else false

/-- A run: the tally, the maps of what was seen, and the hashes of what was fed. -/
structure SanRunState where
  tally : SaveTally
  seen : SanSeen
  fed : List UInt32

/-- The state in front of a run. -/
def SanRunState.start (t : SaveTally) : SanRunState where
  tally := t
  seen := ⟨fun _ => false, fun _ => false⟩
  fed := []

/-- One call: whether it feeds the sanitizers, and the state behind it. -/
def sanStep (cfg : SaveCfg) (s : SanRunState) (c : SaveCall) : Bool × SanRunState :=
  let c := c.seeing s.seen
  let fed := fedSan cfg s.tally c
  let r := (saveIfInteresting cfg s.tally c).2
  (fed, {
    tally := r.t
    seen := ⟨r.m.simplifiedNFuzz, r.m.nFuzzDup⟩
    fed := if fed then s.fed ++ [c.traceHash cfg] else s.fed })

/-- In every call of the run the input is fed exactly if the hash of its trace was not fed
before. -/
def SanDedup (cfg : SaveCfg) (t : SaveTally) (calls : List SaveCall) : Prop :=
  ∀ pre c post, calls = pre ++ c :: post →
    ((sanStep cfg (run (sanStep cfg) (.start t) pre) c).1 = true ↔
      c.traceHash cfg ∉ (run (sanStep cfg) (.start t) pre).fed)

/-- The index that is looked up in the map. -/
def SaveCall.seenKey (cfg : SaveCfg) (c : SaveCall) : UInt32 :=
  match cfg.sanAbstraction with
  | .uniqueTrace =>
    if cfg.fast then (cfg.hash64 c.maps.mapSize c.maps.classify.traceBits).toUInt32 else 0
  | _ => c.traceHash cfg

/-- The call gets beyond the checks of the length and of an ignored timeout. -/
def SaveCall.Reaches (cfg : SaveCfg) (c : SaveCall) : Prop :=
  c.len ≠ 0 ∧ (c.fault = .tmout && cfg.aflIgnoreTimeouts) = false

/-- The index that is looked up is the hash of an earlier trace exactly if the hash of this
trace is. -/
def KeyAgrees (cfg : SaveCfg) (calls : List SaveCall) : Prop :=
  ∀ pre c post, calls = pre ++ c :: post →
    ((c.Reaches cfg ∧ c.seenKey cfg ∉ pre.map (SaveCall.traceHash cfg)) ↔
      c.traceHash cfg ∉ pre.map (SaveCall.traceHash cfg))

/-! ## What changes the maps of what was seen -/

/-- The maps of what was seen, in the state of a call. -/
def SaveState.seen (s : SaveState) : SanSeen := ⟨s.m.simplifiedNFuzz, s.m.nFuzzDup⟩

section Frame

variable {cfg : SaveCfg}

@[simp] theorem seen_classify (s : SaveState) : (classifyIfNecessary s).seen = s.seen := by
  rw [classifyIfNecessary]
  split <;> rfl

@[simp] theorem seen_cksum (s : SaveState) : (calculateCksumIfNecessary cfg s).seen = s.seen := by
  rw [calculateCksumIfNecessary]
  split
  · rfl
  · exact seen_classify s

@[simp] theorem seen_newBits (s : SaveState) :
    (calculateNewBitsIfNecessary cfg s).seen = s.seen := by
  rw [calculateNewBitsIfNecessary]
  split
  · rfl
  · split <;> rfl

theorem seen_countFrequency (s : SaveState) : (countFrequency cfg s).seen = s.seen := by
  rw [countFrequency]
  split
  · exact seen_cksum s
  · rfl

theorem seen_sanLoop (sanRuns : ℕ → SanRun) (n sanIdx : ℕ) (s : SaveState) :
    (sanLoop sanRuns n sanIdx s).seen = s.seen := by
  induction n generalizing sanIdx s with
  | zero => rfl
  | succ n ih =>
    rw [sanLoop]
    split
    · rfl
    · exact ih (sanIdx + 1) _

theorem seen_sanitize (sanRuns : ℕ → SanRun) (s : SaveState) :
    (sanitize cfg sanRuns s).seen = (feedSan cfg s).2.seen := by
  rw [sanitize]
  split
  · exact seen_sanLoop sanRuns _ 0 _
  · rfl

theorem seen_saveToQueue (file : FileIo) (cal : Calibration) (s : SaveState) :
    (saveToQueue cfg file cal s).2.seen = s.seen := by
  have hcalc : (calculateNewBitsIfNecessary cfg (calculateCksumIfNecessary cfg s)).seen = s.seen := by
    rw [seen_newBits, seen_cksum]
  rw [saveToQueue]
  dsimp only
  split
  · exact hcalc
  · split <;> exact hcalc

theorem seen_newTmout (s : SaveState) : (newTmout cfg s).2.seen = s.seen := by
  rw [newTmout]
  split <;> rfl

theorem seen_countTmout (s : SaveState) : (countTmout cfg s).2.seen = s.seen := by
  rw [countTmout]
  dsimp only
  split
  · rfl
  · exact seen_newTmout _

theorem seen_keepAsCrash (io : FileIo) (s : SaveState) : (keepAsCrash cfg io s).2.seen = s.seen := by
  have hnew : ∀ s : SaveState, (newCrash cfg s).2.seen = s.seen := by
    intro s
    rw [newCrash]
    split <;> rfl
  rw [keepAsCrash]
  dsimp only
  split
  · rfl
  · split
    · exact hnew _
    · exact hnew _

theorem seen_maySaveFault (io : FileIo) (hangRuns : List HangRun) (s : SaveState) :
    (maySaveFault cfg io hangRuns s).2.seen = s.seen := by
  induction hangRuns generalizing s with
  | nil =>
    rw [maySaveFault]
    split
    · dsimp only
      split
      · exact seen_countTmout s
      · split <;> exact seen_countTmout s
    · exact seen_keepAsCrash io s
    all_goals rfl
  | cons hangRun hangRuns ih =>
    rw [maySaveFault]
    split
    · dsimp only
      have hrerun : (rerun hangRun (countTmout cfg s).2).seen = s.seen := seen_countTmout s
      split
      · exact seen_countTmout s
      · split
        · split
          · rw [seen_keepAsCrash, hrerun]
          · split
            · split
              · split
                · rw [ih, seen_saveToQueue]
                  exact hrerun
                · rw [seen_saveToQueue]
                  exact hrerun
              · exact hrerun
            · exact hrerun
        · exact seen_countTmout s
    · exact seen_keepAsCrash io s
    all_goals rfl

theorem seen_saveNormal (c : SaveCall) (s : SaveState) :
    (saveNormal cfg c s).2.seen = (feedSan cfg s).2.seen := by
  have hcalc : (calculateNewBitsIfNecessary cfg (sanitize cfg c.sanRuns s)).seen =
      (feedSan cfg s).2.seen := by
    rw [seen_newBits, seen_sanitize]
  rw [saveNormal]
  dsimp only
  split
  · split
    · exact hcalc
    · rw [seen_maySaveFault]
      exact hcalc
  · split
    · rw [seen_maySaveFault, seen_saveToQueue]
      exact hcalc
    · rw [seen_saveToQueue]
      exact hcalc

end Frame

/-! ## One call -/

section Step

variable {cfg : SaveCfg}

/-- The map that the abstraction uses. -/
def SanSeen.has (cfg : SaveCfg) (seen : SanSeen) : UInt32 → Bool :=
  match cfg.sanAbstraction with
  | .simplifyTrace => seen.simplified
  | _ => seen.dup

/-- The state in front of the sanitizers. -/
def SaveCall.counted (cfg : SaveCfg) (c : SaveCall) (t : SaveTally) : SaveState :=
  countFrequency cfg { c.start t with m := { c.maps with sanCaseStatus := 0 } }

/-- The traces are hashed as the run knows them, and the bit that is read is the one of
`seenKey`. -/
theorem feedSan_counted (hsan : cfg.sanBinaryLength ≠ 0)
    (habs : cfg.sanAbstraction ≠ .coverageIncrease) (c : SaveCall) (t : SaveTally) :
    (feedSan cfg (c.counted cfg t)).1 = !(c.start t).seen.has cfg (c.seenKey cfg) ∧
      ∀ i, ((feedSan cfg (c.counted cfg t)).2.seen.has cfg i = true ↔
        (c.start t).seen.has cfg i = true ∨
          ((feedSan cfg (c.counted cfg t)).1 = true ∧ i = c.traceHash cfg)) := by
  have hseen : (c.counted cfg t).seen = (c.start t).seen := seen_countFrequency _
  cases habstraction : cfg.sanAbstraction with
  | coverageIncrease => exact absurd habstraction habs
  | simplifyTrace =>
    have hhash : cfg.hash32 (c.counted cfg t).m.mapSize (c.counted cfg t).m.simplify.traceBits =
        c.traceHash cfg := by
      rw [SaveCall.traceHash, habstraction, SaveCall.counted, countFrequency]
      split
      · exact congrArg (cfg.hash32 c.maps.mapSize) (simplifyLoop_classifyLoop _ _)
      · rfl
    have hkey : c.seenKey cfg = c.traceHash cfg := by rw [SaveCall.seenKey, habstraction]
    have hmap : (c.counted cfg t).m.simplifiedNFuzz = (c.start t).seen.simplified :=
      congrArg SanSeen.simplified hseen
    have hfeed : feedSan cfg (c.counted cfg t) =
        (!(c.start t).seen.simplified (c.traceHash cfg),
          { c.counted cfg t with m := { (c.counted cfg t).m with
            simplifiedNFuzz := fun i => i = c.traceHash cfg || (c.start t).seen.simplified i } }) := by
      simp only [feedSan, if_neg hsan, habstraction, hhash, hmap]
    simp only [hfeed, hkey, SanSeen.has, habstraction, SaveState.seen, Bool.or_eq_true,
      decide_eq_true_eq, Bool.not_eq_true', true_and]
    intro i
    by_cases hi : i = c.traceHash cfg
    · subst hi
      cases c.maps.simplifiedNFuzz (c.traceHash cfg) <;> simp [SaveCall.start]
    · simp [hi]
  | uniqueTrace =>
    have hkey : (c.counted cfg t).v.cksum.toUInt32 = c.seenKey cfg := by
      rw [SaveCall.seenKey, habstraction, SaveCall.counted, countFrequency]
      dsimp only
      split <;> rfl
    have htrace : (classifyIfNecessary (c.counted cfg t)).m.traceBits = c.maps.classify.traceBits := by
      rw [SaveCall.counted, countFrequency]
      split <;> rfl
    have hsize : (classifyIfNecessary (c.counted cfg t)).m.mapSize = c.maps.mapSize := by
      rw [SaveCall.counted, countFrequency]
      split <;> rfl
    have hhash : cfg.hash32 (classifyIfNecessary (c.counted cfg t)).m.mapSize
        (classifyIfNecessary (c.counted cfg t)).m.traceBits = c.traceHash cfg := by
      rw [SaveCall.traceHash, habstraction, htrace, hsize]
    have hmap : (classifyIfNecessary (c.counted cfg t)).m.nFuzzDup = (c.start t).seen.dup :=
      congrArg SanSeen.dup ((seen_classify _).trans hseen)
    have hcksum : (classifyIfNecessary (c.counted cfg t)).v.cksum = (c.counted cfg t).v.cksum := by
      rw [classifyIfNecessary]
      split <;> rfl
    cases hdup : (c.start t).seen.dup (c.seenKey cfg) with
    | true =>
      have hfeed : feedSan cfg (c.counted cfg t) = (false, classifyIfNecessary (c.counted cfg t)) := by
        simp only [feedSan, if_neg hsan, habstraction, hmap, hcksum, hkey, hdup, if_true]
      rw [hfeed]
      dsimp only
      rw [seen_classify, hseen]
      simp [SanSeen.has, habstraction, hdup]
    | false =>
      have hfeed : feedSan cfg (c.counted cfg t) =
          (true, { classifyIfNecessary (c.counted cfg t) with
            m := { (classifyIfNecessary (c.counted cfg t)).m with
              nFuzzDup := fun i => i = c.traceHash cfg || (c.start t).seen.dup i } }) := by
        simp only [feedSan, if_neg hsan, habstraction, hmap, hcksum, hkey, hdup, Bool.false_eq_true,
          if_false, hhash]
      simp only [hfeed, SanSeen.has, habstraction, SaveState.seen, Bool.or_eq_true,
        decide_eq_true_eq, true_and]
      refine ⟨?_, fun i => or_comm⟩
      rw [show (c.start t).m.nFuzzDup (c.seenKey cfg) = false from hdup]
      rfl

/-- A call that gets as far as the sanitizers. -/
theorem reached_eq {c : SaveCall} (hfault : c.fault = cfg.crashMode) (hreach : c.Reaches cfg)
    (t : SaveTally) : fedSan cfg t c = (feedSan cfg (c.counted cfg t)).1 ∧
      (saveIfInteresting cfg t c).2.seen = (feedSan cfg (c.counted cfg t)).2.seen := by
  obtain ⟨hlen, htmout⟩ := hreach
  have hnot : ¬ (c.fault = .tmout && cfg.aflIgnoreTimeouts) = true := by rw [htmout]; decide
  constructor
  · rw [fedSan, if_neg hlen, if_neg hnot]
    exact if_pos hfault
  · rw [saveIfInteresting]
    dsimp only
    rw [if_neg hlen, if_neg hnot, if_pos hfault]
    exact seen_saveNormal c _

/-- One that returns before. -/
theorem unreached_eq {c : SaveCall} (hreach : ¬ c.Reaches cfg) (t : SaveTally) :
    fedSan cfg t c = false ∧ (saveIfInteresting cfg t c).2.seen = (c.start t).seen := by
  rw [fedSan, saveIfInteresting]
  dsimp only
  by_cases hlen : c.len = 0
  · rw [if_pos hlen, if_pos hlen]
    exact ⟨rfl, rfl⟩
  · have htmout : (c.fault = .tmout && cfg.aflIgnoreTimeouts) = true := by
      by_contra hno
      exact hreach ⟨hlen, Bool.not_eq_true _ ▸ hno⟩
    rw [if_neg hlen, if_neg hlen, if_pos htmout, if_pos htmout]
    refine ⟨rfl, ?_⟩
    split <;> rfl

/-- A call feeds the input if the bit it looks up is not set, and then sets the bit of the
hash. -/
theorem sanStep_spec (hsan : cfg.sanBinaryLength ≠ 0)
    (habs : cfg.sanAbstraction ≠ .coverageIncrease) {c : SaveCall}
    (hfault : c.fault = cfg.crashMode) (s : SanRunState) :
    ((sanStep cfg s c).1 = true ↔ c.Reaches cfg ∧ s.seen.has cfg (c.seenKey cfg) = false) ∧
      ∀ i, ((sanStep cfg s c).2.seen.has cfg i = true ↔
        s.seen.has cfg i = true ∨ ((sanStep cfg s c).1 = true ∧ i = c.traceHash cfg)) := by
  have hfed : (sanStep cfg s c).1 = fedSan cfg s.tally (c.seeing s.seen) := rfl
  have hseen : (sanStep cfg s c).2.seen =
      (saveIfInteresting cfg s.tally (c.seeing s.seen)).2.seen := rfl
  by_cases hreach : c.Reaches cfg
  · obtain ⟨hfed', hseen'⟩ := reached_eq (c := c.seeing s.seen) hfault hreach s.tally
    obtain ⟨hbit, hbits⟩ := feedSan_counted hsan habs (c.seeing s.seen) s.tally
    rw [← hfed', ← hfed] at hbit hbits
    rw [← hseen', ← hseen] at hbits
    refine ⟨?_, hbits⟩
    rw [hbit, Bool.not_eq_true', and_iff_right hreach]
    exact Iff.rfl
  · obtain ⟨hfed', hseen'⟩ := unreached_eq (c := c.seeing s.seen) hreach s.tally
    rw [hseen, hseen', hfed, hfed']
    exact ⟨iff_of_false Bool.false_ne_true fun h => hreach h.1, fun i => by simp; rfl⟩

end Step

/-! ## Runs -/

section Runs

variable {cfg : SaveCfg}

/-- The bits that are set are those of the hashes that were fed. -/
def SanRunState.Tracks (cfg : SaveCfg) (s : SanRunState) : Prop :=
  ∀ i, s.seen.has cfg i = true ↔ i ∈ s.fed

theorem fed_sanStep (s : SanRunState) (c : SaveCall) :
    (sanStep cfg s c).2.fed =
      if (sanStep cfg s c).1 then s.fed ++ [c.traceHash cfg] else s.fed := rfl

variable (hsan : cfg.sanBinaryLength ≠ 0) (habs : cfg.sanAbstraction ≠ .coverageIncrease)

include hsan habs

theorem tracks_step {s : SanRunState} (h : s.Tracks cfg) {c : SaveCall}
    (hfault : c.fault = cfg.crashMode) : (sanStep cfg s c).2.Tracks cfg := by
  intro i
  rw [(sanStep_spec hsan habs hfault s).2, fed_sanStep, h i]
  split_ifs with hfed
  · simp [hfed]
  · simp [hfed]

theorem tracks_run (t : SaveTally) {calls : List SaveCall}
    (hfault : ∀ c ∈ calls, c.fault = cfg.crashMode) :
    (run (sanStep cfg) (.start t) calls).Tracks cfg := by
  induction calls using List.reverseRecOn with
  | nil =>
    intro i
    have hempty : (SanRunState.start t).seen.has cfg i = false := by
      cases habstraction : cfg.sanAbstraction <;>
        simp [SanSeen.has, habstraction, SanRunState.start]
    rw [run_nil, hempty]
    exact iff_of_false Bool.false_ne_true List.not_mem_nil
  | append_singleton calls c ih =>
    obtain ⟨hcalls, hc⟩ := List.forall_mem_append.mp hfault
    rw [run_concat]
    exact tracks_step hsan habs (ih hcalls) (hc c (List.mem_singleton.mpr rfl))

omit hsan habs in
/-- Where every input is fed or was fed before, the hashes that were fed are those of the
inputs. -/
theorem mem_fed_iff {t : SaveTally} {calls : List SaveCall} (h : SanDedup cfg t calls) (i : UInt32) :
    i ∈ (run (sanStep cfg) (.start t) calls).fed ↔ i ∈ calls.map (SaveCall.traceHash cfg) := by
  induction calls using List.reverseRecOn with
  | nil => exact Iff.rfl
  | append_singleton calls c ih =>
    have hcalls : SanDedup cfg t calls := fun pre d post hsplit =>
      h pre d (post ++ [c]) (by rw [hsplit]; simp)
    have hlast := h calls c [] rfl
    rw [run_concat, fed_sanStep, List.map_append, List.mem_append, ← ih hcalls]
    split_ifs with hfed
    · rw [List.mem_append]
      exact Iff.rfl
    · have hold : c.traceHash cfg ∈ (run (sanStep cfg) (.start t) calls).fed := by
        by_contra hnew
        exact hfed (hlast.mpr hnew)
      refine (or_iff_left_of_imp fun hi => ?_).symm
      rw [List.mem_singleton.mp hi]
      exact hold

/-- What a call looks up, in a run that was right so far. -/
theorem fed_iff_key {t : SaveTally} {pre : List SaveCall} {c : SaveCall}
    (hfault : ∀ d ∈ pre, d.fault = cfg.crashMode) (hc : c.fault = cfg.crashMode)
    (h : SanDedup cfg t pre) :
    (sanStep cfg (run (sanStep cfg) (.start t) pre) c).1 = true ↔
      c.Reaches cfg ∧ c.seenKey cfg ∉ pre.map (SaveCall.traceHash cfg) := by
  rw [(sanStep_spec hsan habs hc _).1, ← mem_fed_iff h, ← tracks_run hsan habs t hfault,
    Bool.not_eq_true]

/-- In a run of inputs without a fault each trace is fed exactly once, when it comes first,
if and only if every call looks up a hash that was fed exactly when its own was. -/
theorem sanDedup_iff (t : SaveTally) (calls : List SaveCall)
    (hfault : ∀ c ∈ calls, c.fault = cfg.crashMode) :
    SanDedup cfg t calls ↔ KeyAgrees cfg calls := by
  have hmem : ∀ {pre c post}, calls = pre ++ c :: post →
      (∀ d ∈ pre, d.fault = cfg.crashMode) ∧ c.fault = cfg.crashMode := by
    intro pre c post hsplit
    rw [hsplit] at hfault
    obtain ⟨hpre, hrest⟩ := List.forall_mem_append.mp hfault
    exact ⟨hpre, (List.forall_mem_cons.mp hrest).1⟩
  constructor
  · intro h pre c post hsplit
    have hpre : SanDedup cfg t pre := fun pre' d post' hsplit' =>
      h pre' d (post' ++ c :: post) (by rw [hsplit, hsplit']; simp)
    rw [← fed_iff_key hsan habs (hmem hsplit).1 (hmem hsplit).2 hpre, ← mem_fed_iff hpre]
    exact h pre c post hsplit
  · intro h pre
    induction hn : pre.length using Nat.strong_induction_on generalizing pre with
    | _ n ih =>
      intro c post hsplit
      have hpre : SanDedup cfg t pre := by
        intro pre' d post' hsplit'
        refine ih pre'.length ?_ pre' rfl d (post' ++ c :: post) (by rw [hsplit, hsplit']; simp)
        rw [← hn, hsplit']
        simp
      rw [fed_iff_key hsan habs (hmem hsplit).1 (hmem hsplit).2 hpre, mem_fed_iff hpre]
      exact h pre c post hsplit

end Runs

/-! ## Two inputs with one trace -/

/-- Sanitizers under the schedule `EXPLORE`, with a hash that is always 7. -/
def sevenCfg (abstraction : SanitizerAbstraction) : SaveCfg where
  crashMode := .ok
  nonInstrumentedMode := false
  schedule := 0
  switchFuzzMode := false
  aflIgnoreTimeouts := false
  aflKeepTimeouts := false
  sanBinaryLength := 1
  sanAbstraction := abstraction
  execTmout := 1000
  hangTmout := 1000
  simd := .scalar
  hash64 _ _ := 0
  hash32 _ _ := 7

/-- An input of one byte that hits nothing new. -/
def dullCall : SaveCall where
  len := 1
  fault := .ok
  maps := {
    mapSize := 8
    realMapSize := 8
    traceBits := [1]
    virginBits := [0]
    virginTmout := [0]
    virginCrash := [0]
    bitmapChanged := false
    nFuzz := fun _ => 0
    simplifiedNFuzz := fun _ => false
    nFuzzDup := fun _ => false
    sanCaseStatus := 0
    stopSoon := false
    fuzzMode := false
    ssCovCnt := none }
  sanRuns := fun _ => ⟨1, .ok, false⟩
  file := .written
  calibration := ⟨.ok, [1], [0], false, false, false⟩
  hangRuns := []
  faultFile := .written

def noTally : SaveTally := ⟨[], 0, 0, 0, 0, 0, 0, 0, 0⟩

/-- Simplified traces are fed once. -/
theorem sanDedup_simplify : SanDedup (sevenCfg .simplifyTrace) noTally [dullCall, dullCall] := by
  have hcalls : ∀ c ∈ [dullCall, dullCall], c = dullCall := by simp
  have hfault : ∀ c ∈ [dullCall, dullCall], c.fault = (sevenCfg .simplifyTrace).crashMode :=
    fun c hc => hcalls c hc ▸ rfl
  refine (sanDedup_iff (by decide) (by decide) noTally _ hfault).mpr ?_
  intro pre c post hsplit
  obtain rfl := hcalls c (hsplit ▸ by simp)
  exact and_iff_right ⟨by decide, rfl⟩

/-- The same trace is fed twice when it is kept whole. -/
theorem unique_trace_fed_twice :
    ¬ SanDedup (sevenCfg .uniqueTrace) noTally [dullCall, dullCall] ∧
      outs (sanStep (sevenCfg .uniqueTrace)) (.start noTally) [dullCall, dullCall] = [true, true] := by
  refine ⟨fun h => ?_, by decide⟩
  have hsecond := (h [dullCall] dullCall [] rfl).mp (by decide)
  exact hsecond (by decide)

end Bitmap

end AflNv
