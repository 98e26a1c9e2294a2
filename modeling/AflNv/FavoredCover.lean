import AflNv.TopRated

/-!
# When the favored set covers the bitmap

`cull_queue` clears the bits of an owner's kept trace, and passes over an owner that has
none.  The kept trace can be missing, since `mark_as_redundant` frees it while the entry
still owns indices.  It can also be of another run of the target, since a later win
keeps it.

* `Retraces` and `SkipsNone` are the conditions on a scoring and on a cull.
* `Traced` is the invariant of the runs that meet them, and `CullCovers` the one of the
  loop of a cull.
* `cull_covers` is the result; `cull_loses_index` is a run that leaves an index uncovered.
-/

namespace AflNv

open AflNv.Lib
open AflNv.Lib.ByteBits

namespace TopRated

/-! ## The property and its condition -/

/-- Every index whose owner is not disabled is in the trace with which a favored entry
last won an index. -/
def Covered (cfg : RatingConfig) (s : TopRated) : Prop :=
  ∀ (i o : ℕ) (e : RatedEntry), i < cfg.mapSize → s.owner i = some o →
    s.queueBuf[o]? = some e → e.disabled = false →
      ∃ (p : ℕ) (f : RatedEntry), s.queueBuf[p]? = some f ∧ f.favored = true ∧
        hits f.lastWon i = true

/-- The counters agree with the queue. -/
structure Counted (s : TopRated) : Prop where
  queued_eq : s.queuedFavored = s.queueBuf.countP fun e => e.favored
  pending_eq : s.pendingFavored = s.queueBuf.countP fun e => e.favored && !e.wasFuzzed

/-- The first index that the entry takes. -/
def FirstWin (cfg : RatingConfig) (s : TopRated) (q : ℕ) (trace : Bytes) (k : ℕ) : Prop :=
  k < cfg.mapSize ∧ s.wins q trace k = true ∧ ∀ j < k, s.wins q trace j = false

/-- If the entry wins anything with the trace, then the trace has the indices that the
entry owns, and a kept trace either has the same bits or is freed by the first win. -/
def Retraces (cfg : RatingConfig) (s : TopRated) (q : ℕ) (trace : Bytes) : Prop :=
  ∀ (e : RatedEntry) (k : ℕ), s.queueBuf[q]? = some e → e.disabled = false →
    FirstWin cfg s q trace k →
      (∀ j, s.owner j = some q → hits trace j = true) ∧
        ∀ mini, e.traceMini = some mini →
          mini = minimizeBits cfg trace ∨ s.owner k = some q ∧ e.tcRef = 1

/-- The loop never comes to an index that is still uncovered, and whose owner is not
disabled but has no kept trace. -/
def SkipsNone (cfg : RatingConfig) (s : TopRated) : Prop :=
  ∀ (i o : ℕ) (e : RatedEntry), i < cfg.mapSize → s.owner i = some o →
    s.queueBuf[o]? = some e → e.disabled = false → bitAt (cullLoop cfg s i).1 i = true →
      e.traceMini ≠ none

/-- The condition on a step. -/
def Guard (cfg : RatingConfig) (s : TopRated) : Event → Prop
  | .score q trace true => Retraces cfg s q trace
  | .cull => s.returnsEarly cfg = false → SkipsNone cfg s
  | _ => True

/-! ## Kept traces -/

section Minimize

variable (trace : Bytes)

theorem minimizeLoop_spec (dst : Bytes) : ∀ n ≤ 8 * dst.length,
    (minimizeLoop trace dst n).length = dst.length ∧
      ∀ j, bitAt (minimizeLoop trace dst n) j = (bitAt dst j || decide (j < n) && hits trace j)
  | 0, _ => ⟨rfl, fun j => by simp [minimizeLoop]⟩
  | n + 1, hn => by
    obtain ⟨hlen, hbits⟩ := minimizeLoop_spec dst n (Nat.le_of_succ_le hn)
    have hn8 : n / 8 < (minimizeLoop trace dst n).length := by omega
    rw [minimizeLoop]
    cases hhit : hits trace n with
    | true =>
      rw [if_pos rfl]
      refine ⟨(length_setBit _ _).trans hlen, fun j => ?_⟩
      rw [bitAt_setBit hn8, hbits]
      by_cases hj : n = j
      · rw [← hj, hhit]
        simp
      · have hiff : decide (j < n + 1) = decide (j < n) := decide_eq_decide.mpr (by omega)
        rw [hiff, decide_eq_false hj, Bool.or_false]
    | false =>
      refine ⟨hlen, fun j => ?_⟩
      rw [if_neg Bool.false_ne_true, hbits]
      by_cases hj : j = n
      · rw [hj, hhit]
        simp
      · have hiff : decide (j < n + 1) = decide (j < n) := decide_eq_decide.mpr (by omega)
        rw [hiff]

theorem length_minimizeBits (cfg : RatingConfig) :
    (minimizeBits cfg trace).length = cfg.mapSize / 8 := by
  have hmod := cfg.mapSize_mod
  have hlen := (minimizeLoop_spec trace (List.replicate ((cfg.mapSize + 7) / 8) 0) cfg.mapSize
    (by rw [List.length_replicate]; omega)).1
  rw [minimizeBits, hlen, List.length_replicate]
  omega

theorem bitAt_minimizeBits (cfg : RatingConfig) {j : ℕ} (hj : j < cfg.mapSize) :
    bitAt (minimizeBits cfg trace) j = hits trace j := by
  have hmod := cfg.mapSize_mod
  have hbit := (minimizeLoop_spec trace (List.replicate ((cfg.mapSize + 7) / 8) 0) cfg.mapSize
    (by rw [List.length_replicate]; omega)).2 j
  have hzero : bitAt (List.replicate ((cfg.mapSize + 7) / 8) 0) j = false := by
    rw [bitAt, List.getD_eq_getElem?_getD, List.getElem?_replicate]
    split_ifs <;> simp
  rw [minimizeBits, hbit, hzero, decide_eq_true hj]
  simp

end Minimize

/-- A kept trace is the one with which its entry last won, and that trace has every
index that the entry owns. -/
structure Traced (cfg : RatingConfig) (s : TopRated) : Prop where
  disabled_none : ∀ (q : ℕ) (e : RatedEntry), s.queueBuf[q]? = some e → e.disabled = true →
    e.traceMini = none
  mini_eq : ∀ (q : ℕ) (e : RatedEntry) (mini : Bytes), s.queueBuf[q]? = some e →
    e.traceMini = some mini → mini = minimizeBits cfg e.lastWon
  owner_hit : ∀ (i q : ℕ) (e : RatedEntry), s.owner i = some q → s.queueBuf[q]? = some e →
    hits e.lastWon i = true

/-! ## Scoring keeps the traces -/

section Score

variable {cfg : RatingConfig} {s t : TopRated} {q i : ℕ} {trace : Bytes} {e : RatedEntry}

/-- The entry after it took an index: its kept trace is the one it won with. -/
theorem taken_self
    (hmini : ∀ mini, e.traceMini = some mini →
      mini = minimizeBits cfg trace ∨ s.owner i = some q ∧ e.tcRef = 1) :
    (s.taken q q i cfg trace e).traceMini = some (minimizeBits cfg trace) ∧
      (s.taken q q i cfg trace e).lastWon = trace ∧
      (s.taken q q i cfg trace e).disabled = e.disabled := by
  by_cases ho : s.owner i = some q
  · simp only [taken, if_pos ho, if_true, winSlot, loseSlot]
    refine ⟨?_, trivial, trivial⟩
    split_ifs with hzero
    · rfl
    · cases hm : e.traceMini with
      | none => rfl
      | some mini =>
        rcases hmini mini hm with heq | ⟨_, href⟩
        · rw [heq]
          rfl
        · omega
  · simp only [taken, if_neg ho, if_true, winSlot]
    refine ⟨?_, trivial, trivial⟩
    cases hm : e.traceMini with
    | none => rfl
    | some mini =>
      rcases hmini mini hm with heq | ⟨howner, _⟩
      · rw [heq]
        rfl
      · exact absurd howner ho

/-- Another entry keeps its trace, or has none any more. -/
theorem taken_other (s : TopRated) (cfg : RatingConfig) (i : ℕ) (trace : Bytes)
    (e : RatedEntry) {p : ℕ} (hp : q ≠ p) :
    ((s.taken p q i cfg trace e).traceMini = e.traceMini ∨
        (s.taken p q i cfg trace e).traceMini = none) ∧
      (s.taken p q i cfg trace e).lastWon = e.lastWon ∧
      (s.taken p q i cfg trace e).disabled = e.disabled := by
  by_cases ho : s.owner i = some p
  · simp only [taken, if_pos ho, if_neg hp, loseSlot]
    refine ⟨?_, trivial, trivial⟩
    split_ifs
    · exact Or.inr rfl
    · exact Or.inl rfl
  · simp only [taken, if_neg ho, if_neg hp]
    exact ⟨Or.inl trivial, trivial, trivial⟩

/-- The entry owns indices of the trace only, and keeps that trace. -/
structure Won (cfg : RatingConfig) (q : ℕ) (trace : Bytes) (t : TopRated) : Prop where
  inv : Inv cfg t
  traced : Traced cfg t
  entry : ∃ e, t.queueBuf[q]? = some e ∧ e.disabled = false ∧ e.lastWon = trace ∧
    e.traceMini = some (minimizeBits cfg trace)

theorem won_takeSlot (hinv : Inv cfg s) (htraced : Traced cfg s)
    (he : s.queueBuf[q]? = some e) (hdis : e.disabled = false) (hi : i < cfg.mapSize)
    (hhit : hits trace i = true) (howned : ∀ j, s.owner j = some q → hits trace j = true)
    (hmini : ∀ mini, e.traceMini = some mini →
      mini = minimizeBits cfg trace ∨ s.owner i = some q ∧ e.tcRef = 1) :
    Won cfg q trace (s.takeSlot cfg q trace i) := by
  have hq : q < s.queueBuf.length := (List.getElem?_eq_some_iff.mp he).1
  obtain ⟨hselfMini, hselfWon, hselfDis⟩ := taken_self (s := s) hmini
  have hself : (s.takeSlot cfg q trace i).queueBuf[q]? =
      some (s.taken q q i cfg trace e) := by
    rw [getElem?_takeSlot, he]
    rfl
  refine ⟨inv_takeSlot hinv hq hi trace, ⟨?_, ?_, ?_⟩,
    ⟨_, hself, hselfDis.trans hdis, hselfWon, hselfMini⟩⟩
  · intro p d hd hdisabled
    by_cases hp : q = p
    · rw [← hp, hself, Option.some.injEq] at hd
      rw [← hd, hselfDis, hdis] at hdisabled
      exact Bool.noConfusion hdisabled
    · rw [getElem?_takeSlot, Option.map_eq_some_iff] at hd
      obtain ⟨d₀, hd₀, rfl⟩ := hd
      obtain ⟨hmini', _, hdis'⟩ := taken_other s cfg i trace d₀ hp
      rw [hdis'] at hdisabled
      rcases hmini' with heq | heq
      · rw [heq]
        exact htraced.disabled_none p d₀ hd₀ hdisabled
      · exact heq
  · intro p d mini hd hsome
    by_cases hp : q = p
    · rw [← hp, hself, Option.some.injEq] at hd
      rw [← hd] at hsome ⊢
      rw [hselfMini, Option.some.injEq] at hsome
      rw [hselfWon, hsome]
    · rw [getElem?_takeSlot, Option.map_eq_some_iff] at hd
      obtain ⟨d₀, hd₀, rfl⟩ := hd
      obtain ⟨hmini', hwon', _⟩ := taken_other s cfg i trace d₀ hp
      rw [hwon']
      rcases hmini' with heq | heq
      · rw [heq] at hsome
        exact htraced.mini_eq p d₀ mini hd₀ hsome
      · rw [heq] at hsome
        exact absurd hsome.symm (Option.some_ne_none mini)
  · intro j p d howner hd
    rw [owner_takeSlot s j q i cfg trace (by rw [hinv.length_eq]; exact hi)] at howner
    by_cases hp : q = p
    · rw [← hp, hself, Option.some.injEq] at hd
      rw [← hd, hselfWon]
      split_ifs at howner with hij
      · rw [← hij]
        exact hhit
      · rw [← hp] at howner
        exact howned j howner
    · rw [getElem?_takeSlot, Option.map_eq_some_iff] at hd
      obtain ⟨d₀, hd₀, rfl⟩ := hd
      obtain ⟨_, hwon', _⟩ := taken_other s cfg i trace d₀ hp
      rw [hwon']
      split_ifs at howner with hij
      · exact absurd (Option.some.inj howner) hp
      · exact htraced.owner_hit j p d₀ howner hd₀

theorem Won.takeSlot (h : Won cfg q trace t) (hi : i < cfg.mapSize)
    (hwins : t.wins q trace i = true) : Won cfg q trace (t.takeSlot cfg q trace i) := by
  obtain ⟨e, he, hdis, hwon, hmini⟩ := h.entry
  refine won_takeSlot h.inv h.traced he hdis hi (Bool.and_eq_true_iff.mp hwins).1 ?_ ?_
  · intro j hj
    rw [← hwon]
    exact h.traced.owner_hit j q e hj he
  · intro mini hsome
    rw [hmini, Option.some.injEq] at hsome
    exact Or.inl hsome.symm

/-- The loop has won nothing so far, or it has won and kept the trace. -/
theorem scoreLoop_won (hinv : Inv cfg s) (htraced : Traced cfg s)
    (he : s.queueBuf[q]? = some e) (hdis : e.disabled = false)
    (hretraces : Retraces cfg s q trace) : ∀ n ≤ cfg.mapSize,
      (s.scoreLoop cfg q trace n = s ∧ ∀ j < n, s.wins q trace j = false) ∨
        Won cfg q trace (s.scoreLoop cfg q trace n)
  | 0, _ => Or.inl ⟨rfl, fun j hj => absurd hj (Nat.not_lt_zero j)⟩
  | n + 1, hn => by
    rw [scoreLoop]
    rcases scoreLoop_won hinv htraced he hdis hretraces n (Nat.le_of_succ_le hn) with
      ⟨hsame, hnone⟩ | hwon
    · rw [hsame]
      cases hwins : s.wins q trace n with
      | false =>
        refine Or.inl ⟨rfl, fun j hj => ?_⟩
        rcases Nat.lt_succ_iff_lt_or_eq.mp hj with hlt | heq
        · exact hnone j hlt
        · rw [heq]
          exact hwins
      | true =>
        obtain ⟨howned, hmini⟩ := hretraces e n he hdis ⟨hn, hwins, hnone⟩
        exact Or.inr (won_takeSlot hinv htraced he hdis hn (Bool.and_eq_true_iff.mp hwins).1
          howned hmini)
    · cases hwins : (s.scoreLoop cfg q trace n).wins q trace n with
      | false => exact Or.inr hwon
      | true => exact Or.inr (hwon.takeSlot hn hwins)

theorem traced_updateBitmapScore (hinv : Inv cfg s) (htraced : Traced cfg s) (q : ℕ)
    (trace : Bytes) (haveTrace : Bool) (hguard : Guard cfg s (.score q trace haveTrace)) :
    Traced cfg (s.updateBitmapScore cfg q trace haveTrace) := by
  rcases updateBitmapScore_cases cfg q trace haveTrace s with heq | ⟨hhave, ⟨e, he, hdis⟩, heq⟩
  · rw [heq]
    exact htraced
  · rw [hhave] at hguard
    rw [heq]
    rcases scoreLoop_won hinv htraced he hdis hguard cfg.mapSize (Nat.le_refl _) with
      ⟨hsame, _⟩ | hwon
    · rw [hsame]
      exact htraced
    · exact hwon.traced

end Score

/-! ## Other steps keep the traces -/

section Other

variable {cfg : RatingConfig} {s t : TopRated}

/-- Entries lose their trace or keep it, and are disabled with no trace only. -/
theorem Traced.of_map (h : Traced cfg s) {f : ℕ → RatedEntry → RatedEntry}
    (htop : t.topRated = s.topRated)
    (hmap : ∀ p, t.queueBuf[p]? = (s.queueBuf[p]?).map (f p))
    (hwon : ∀ p e, (f p e).lastWon = e.lastWon)
    (hmini : ∀ p e, (f p e).traceMini = e.traceMini ∨ (f p e).traceMini = none)
    (hdis : ∀ p e, (f p e).disabled = true → e.disabled = true ∨ (f p e).traceMini = none) :
    Traced cfg t := by
  refine ⟨fun q e he hdisabled => ?_, fun q e mini he hsome => ?_, fun i q e ho he => ?_⟩
  · rw [hmap, Option.map_eq_some_iff] at he
    obtain ⟨d, hd, rfl⟩ := he
    rcases hdis q d hdisabled with hwas | hnone
    · rcases hmini q d with heq | hnone
      · rw [heq]
        exact h.disabled_none q d hd hwas
      · exact hnone
    · exact hnone
  · rw [hmap, Option.map_eq_some_iff] at he
    obtain ⟨d, hd, rfl⟩ := he
    rw [hwon]
    rcases hmini q d with heq | hnone
    · rw [heq] at hsome
      exact h.mini_eq q d mini hd hsome
    · rw [hnone] at hsome
      exact absurd hsome.symm (Option.some_ne_none mini)
  · rw [hmap, Option.map_eq_some_iff] at he
    obtain ⟨d, hd, rfl⟩ := he
    rw [hwon]
    rw [owner, htop] at ho
    exact h.owner_hit i q d ho hd

theorem culled_mini (cfg : RatingConfig) (favored : Bool) (e : RatedEntry) :
    (culled cfg favored e).traceMini = e.traceMini ∨
      (culled cfg favored e).traceMini = none := by
  rw [culled, markAsRedundant]
  split_ifs
  · exact Or.inl rfl
  · exact Or.inl rfl
  · exact Or.inr rfl
  · exact Or.inl rfl

theorem culled_disabled (cfg : RatingConfig) (favored : Bool) (e : RatedEntry)
    (h : (culled cfg favored e).disabled = true) :
    e.disabled = true ∨ (culled cfg favored e).traceMini = none := by
  revert h
  rw [culled, markAsRedundant]
  split_ifs
  · exact Or.inl
  · exact Or.inl
  · exact fun _ => Or.inr rfl
  · exact Or.inl

theorem traced_cullQueue (h : Traced cfg s) : Traced cfg (s.cullQueue cfg) := by
  cases hearly : s.returnsEarly cfg with
  | true =>
    rw [cullQueue, if_pos hearly]
    exact h
  | false =>
    exact h.of_map (topRated_cullQueue cfg s) (getElem?_cullQueue hearly)
      (fun _ e => (culled_keeps cfg _ e).2.2.1) (fun _ e => culled_mini cfg _ e)
      fun _ e => culled_disabled cfg _ e

theorem traced_addToQueue (hinv : Inv cfg s) (h : Traced cfg s) (keys : SeedKeys) :
    Traced cfg { s with queueBuf := s.queueBuf ++ [.fresh keys] } := by
  have hentry : ∀ (q : ℕ) (e : RatedEntry), (s.queueBuf ++ [.fresh keys])[q]? = some e →
      s.queueBuf[q]? = some e ∨ s.queueBuf.length ≤ q ∧ e = .fresh keys := by
    intro q e he
    rcases Nat.lt_or_ge q s.queueBuf.length with hq | hq
    · rw [List.getElem?_append_left hq] at he
      exact Or.inl he
    · rw [List.getElem?_append_right hq] at he
      exact Or.inr ⟨hq, List.mem_singleton.mp (List.mem_of_getElem? he)⟩
  refine ⟨fun q e he hdis => ?_, fun q e mini he hsome => ?_, fun i q e ho he => ?_⟩
  · rcases hentry q e he with hold | ⟨_, hnew⟩
    · exact h.disabled_none q e hold hdis
    · rw [hnew]
      rfl
  · rcases hentry q e he with hold | ⟨_, hnew⟩
    · exact h.mini_eq q e mini hold hsome
    · rw [hnew] at hsome
      exact absurd hsome.symm (Option.some_ne_none mini)
  · rcases hentry q e he with hold | ⟨hq, _⟩
    · exact h.owner_hit i q e ho hold
    · have hlt := hinv.owner_lt i q ho
      omega

theorem traced_step (hinv : Inv cfg s) (h : Traced cfg s) (e : Event)
    (hguard : Guard cfg s e) : Traced cfg (step cfg s e).2 := by
  cases e with
  | addToQueue keys => exact traced_addToQueue hinv h keys
  | score q trace haveTrace => exact traced_updateBitmapScore hinv h q trace haveTrace hguard
  | cull => exact traced_cullQueue h
  | setKeys q keys =>
    refine h.of_map rfl (fun p => getElem?_modifyEntry s p q _) ?_ ?_ ?_
    · intro p e
      split_ifs <;> rfl
    · intro p e
      split_ifs <;> exact Or.inl rfl
    · intro p e
      split_ifs <;> exact Or.inl
  | setSchedule =>
    exact h.of_map rfl (fun _ => (Option.map_id' ..).symm) (fun _ _ => rfl)
      (fun _ _ => Or.inl rfl) fun _ _ hdis => Or.inl hdis

theorem traced_init (cfg : RatingConfig) (schedule : PowerSchedule) (fixedSeed : Bool) :
    Traced cfg (init cfg schedule fixedSeed) :=
  ⟨fun _ _ he => absurd he (by simp [init]), fun _ _ _ he => absurd he (by simp [init]),
    fun _ _ _ _ he => absurd he (by simp [init])⟩

end Other

/-! ## One cull -/

section Cull

variable {cfg : RatingConfig} {s t : TopRated}

theorem favoredAt_favor {q p : ℕ} {e : RatedEntry} (he : t.queueBuf[q]? = some e) :
    (t.favor q e).favoredAt p =
      if q = p then e.favored || !e.disabled else t.favoredAt p := by
  rw [favoredAt, queueBuf_favor he, List.getElem?_set]
  split_ifs with hqp hlt
  · rfl
  · exact absurd (List.getElem?_eq_some_iff.mp he).1 hlt
  · rfl

/-- The entry of the culled state and the one before differ in `favored`. -/
theorem Refavored.entry_before (h : Refavored s t) {q : ℕ} {e : RatedEntry}
    (he : t.queueBuf[q]? = some e) :
    ∃ d, s.queueBuf[q]? = some d ∧ d.traceMini = e.traceMini ∧ d.lastWon = e.lastWon ∧
      d.disabled = e.disabled := by
  rw [h.entry_eq q, Option.map_eq_some_iff] at he
  obtain ⟨d, hd, rfl⟩ := he
  exact ⟨d, hd, rfl, rfl, rfl⟩

theorem Refavored.entry_after (h : Refavored s t) {q : ℕ} {d : RatedEntry}
    (hd : s.queueBuf[q]? = some d) :
    ∃ e, t.queueBuf[q]? = some e ∧ e.traceMini = d.traceMini := by
  refine ⟨{ d with favored := t.favoredAt q }, ?_, rfl⟩
  rw [h.entry_eq q, hd]
  rfl

/-- After `n` indices: a bit that `temp_v` lacks is in the trace of a favored entry, and
it lacks those of the indices that were done. -/
structure CullCovers (cfg : RatingConfig) (s : TopRated) (n : ℕ) (temp : Bytes)
    (t : TopRated) : Prop where
  length_eq : temp.length = cfg.mapSize / 8
  cleared : ∀ j < cfg.mapSize, bitAt temp j = false →
    ∃ (p : ℕ) (d : RatedEntry), s.queueBuf[p]? = some d ∧ t.favoredAt p = true ∧
      hits d.lastWon j = true
  covered : ∀ (j o : ℕ) (d : RatedEntry), j < n → s.owner j = some o →
    s.queueBuf[o]? = some d → d.disabled = false → bitAt temp j = false

theorem bitAt_full {n j : ℕ} (hj : j / 8 < n) : bitAt (List.replicate n 255) j = true := by
  rw [bitAt, List.getD_eq_getElem?_getD, List.getElem?_replicate, if_pos hj]
  have hmod : j % 8 < 8 := Nat.mod_lt j (by decide)
  show (255 : UInt8).toBitVec.getLsbD (j % 8) = true
  generalize j % 8 = m at hmod
  interval_cases m <;> rfl

theorem cullCovers_zero (cfg : RatingConfig) (s : TopRated) :
    CullCovers cfg s 0 (cullLoop cfg s 0).1 (cullLoop cfg s 0).2 := by
  have hmod := cfg.mapSize_mod
  refine ⟨List.length_replicate, fun j hj hbit => ?_,
    fun j _ _ hj => absurd hj (Nat.not_lt_zero j)⟩
  have hfull : bitAt (List.replicate (cfg.mapSize / 8) 255) j = true := bitAt_full (by omega)
  rw [cullLoop, hfull] at hbit
  exact Bool.noConfusion hbit

/-- An owner that takes the bits of its trace. -/
theorem CullCovers.take {n q : ℕ} {temp mini : Bytes} {e : RatedEntry}
    (htraced : Traced cfg s) (h : CullCovers cfg s n temp t) (href : Refavored s t)
    (he : t.queueBuf[q]? = some e) (hmini : e.traceMini = some mini) :
    mini.length = cfg.mapSize / 8 ∧
      ∀ j < cfg.mapSize, bitAt (andNot temp mini) j = false →
        ∃ (p : ℕ) (d : RatedEntry), s.queueBuf[p]? = some d ∧
          (t.favor q e).favoredAt p = true ∧ hits d.lastWon j = true := by
  obtain ⟨d, hd, hdmini, hdwon, hddis⟩ := href.entry_before he
  have hmd := htraced.mini_eq q d mini hd (hdmini.trans hmini)
  have hlive : e.disabled = false := by
    cases hdis : e.disabled with
    | false => rfl
    | true =>
      have hnone := htraced.disabled_none q d hd (hddis.trans hdis)
      rw [hdmini, hmini] at hnone
      exact absurd hnone (Option.some_ne_none mini)
  have hlen : mini.length = cfg.mapSize / 8 := by
    rw [hmd]
    exact length_minimizeBits _ cfg
  refine ⟨hlen, fun j hj hbit => ?_⟩
  rw [bitAt_andNot (by rw [h.length_eq, hlen])] at hbit
  cases hold : bitAt temp j with
  | false =>
    obtain ⟨p, c, hc, hfav, hhit⟩ := h.cleared j hj hold
    refine ⟨p, c, hc, ?_, hhit⟩
    rw [favoredAt_favor he]
    split_ifs
    · rw [hlive, Bool.not_false, Bool.or_true]
    · exact hfav
  | true =>
    rw [hold, Bool.true_and, Bool.not_eq_false', hmd, bitAt_minimizeBits _ cfg hj] at hbit
    refine ⟨q, d, hd, ?_, hbit⟩
    rw [favoredAt_favor he, if_pos rfl, hlive, Bool.not_false, Bool.or_true]

theorem cullCovers (htraced : Traced cfg s) (hskips : SkipsNone cfg s) :
    ∀ n ≤ cfg.mapSize, CullCovers cfg s n (cullLoop cfg s n).1 (cullLoop cfg s n).2
  | 0, _ => cullCovers_zero cfg s
  | n + 1, hn => by
    have ih := cullCovers htraced hskips n (Nat.le_of_succ_le hn)
    have href := refavored_cullLoop cfg s n
    have hskip := hskips n
    rw [cullLoop]
    generalize cullLoop cfg s n = r at ih href hskip ⊢
    obtain ⟨temp, t⟩ := r
    have howner : t.owner n = s.owner n := by
      rw [owner, owner, href.topRated_eq]
    rcases cullAt_cases n temp t with hcase | ⟨q, e, mini, hq, he, hmini, hbit, hcase⟩
    · rw [hcase]
      refine ⟨ih.length_eq, ih.cleared, fun j o d hj ho hd hlive => ?_⟩
      rcases Nat.lt_succ_iff_lt_or_eq.mp hj with hlt | heq
      · exact ih.covered j o d hlt ho hd hlive
      · -- the owner was passed over, so the bit is clear
        rw [heq] at ho ⊢
        cases hbit : bitAt temp n with
        | false => rfl
        | true =>
          have hsome := hskip o d hn ho hd hlive hbit
          obtain ⟨e, he, hmini⟩ := href.entry_after hd
          cases hm : d.traceMini with
          | none => exact absurd hm hsome
          | some mini =>
            have hfst := congrArg Prod.fst hcase
            simp only [cullAt, howner, ho, he, hmini, hm, hbit, if_true] at hfst
            have hlost := (ih.take htraced href he (hmini.trans hm)).1
            have hmd := htraced.mini_eq o d mini hd hm
            have hhit := htraced.owner_hit n o d ho hd
            have hclear : bitAt (andNot temp mini) n = false := by
              rw [bitAt_andNot (by rw [ih.length_eq, hlost]), hmd,
                bitAt_minimizeBits _ cfg hn, hhit, Bool.not_true, Bool.and_false]
            rw [hfst, hbit] at hclear
            exact hclear
    · rw [hcase]
      obtain ⟨hlen, hcleared⟩ := ih.take htraced href he hmini
      have hle : temp.length ≤ mini.length := by rw [ih.length_eq, hlen]
      refine ⟨by rw [length_andNot hle]; exact ih.length_eq, hcleared,
        fun j o d hj ho hd hlive => ?_⟩
      show bitAt (andNot temp mini) j = false
      rw [bitAt_andNot hle]
      rcases Nat.lt_succ_iff_lt_or_eq.mp hj with hlt | heq
      · rw [ih.covered j o d hlt ho hd hlive, Bool.false_and]
      · obtain ⟨c, hc, hcmini, _, _⟩ := href.entry_before he
        rw [howner] at hq
        rw [heq, htraced.mini_eq q c mini hc (hcmini.trans hmini),
          bitAt_minimizeBits _ cfg hn, htraced.owner_hit n q c hq hc, Bool.not_true,
          Bool.and_false]

theorem covered_cullQueue (htraced : Traced cfg s) (hearly : s.returnsEarly cfg = false)
    (hskips : SkipsNone cfg s) : Covered cfg (s.cullQueue cfg) := by
  intro i o e hi ho he hlive
  have hcovers := cullCovers htraced hskips cfg.mapSize (Nat.le_refl _)
  rw [getElem?_cullQueue hearly, Option.map_eq_some_iff] at he
  obtain ⟨d, hd, rfl⟩ := he
  have hwas : d.disabled = false := by
    cases hdis : d.disabled with
    | false => rfl
    | true =>
      rw [culled, if_pos hdis] at hlive
      exact hdis.symm.trans hlive
  rw [owner, topRated_cullQueue] at ho
  obtain ⟨p, c, hc, hfav, hhit⟩ :=
    hcovers.cleared i hi (hcovers.covered i o d hi ho hd hwas)
  refine ⟨p, _, by rw [getElem?_cullQueue hearly, hc]; rfl, ?_, ?_⟩
  · rw [(culled_keeps cfg _ c).2.2.2]
    exact hfav
  · rw [(culled_keeps cfg _ c).2.2.1]
    exact hhit

end Cull

/-! ## The counters -/

section Counters

variable {cfg : RatingConfig} {s t : TopRated}

theorem counted_cullReset (s : TopRated) : Counted s.cullReset := by
  have hzero : ∀ p : RatedEntry → Bool, (∀ e, e.favored = false → p e = false) →
      s.cullReset.queueBuf.countP p = 0 := by
    intro p hp
    refine List.countP_eq_zero.mpr fun e he => ?_
    obtain ⟨d, _, rfl⟩ := List.mem_map.mp he
    rw [hp _ rfl]
    exact Bool.false_ne_true
  refine ⟨?_, ?_⟩
  · rw [hzero _ fun _ h => h]
    rfl
  · rw [hzero _ fun e h => by rw [h, Bool.false_and]]
    rfl

theorem Counted.favor (h : Counted t) {q : ℕ} {e : RatedEntry}
    (he : t.queueBuf[q]? = some e) : Counted (t.favor q e) := by
  have hqueued := h.queued_eq
  have hpending := h.pending_eq
  have hadd := SlotTable.countP_set_add (fun e : RatedEntry => e.favored) he
    { e with favored := e.favored || !e.disabled }
  have hadd' := SlotTable.countP_set_add (fun e : RatedEntry => e.favored && !e.wasFuzzed) he
    { e with favored := e.favored || !e.disabled }
  rw [← queueBuf_favor he] at hadd hadd'
  have hcounts : (t.favor q e).queuedFavored =
        t.queuedFavored + (!e.favored && !e.disabled).toNat ∧
      (t.favor q e).pendingFavored =
        t.pendingFavored + (!e.favored && !e.disabled && !e.wasFuzzed).toNat := by
    rw [TopRated.favor]
    cases e.favored <;> cases e.disabled <;> cases e.wasFuzzed <;> exact ⟨rfl, rfl⟩
  refine ⟨?_, ?_⟩
  · rw [hcounts.1]
    generalize (t.favor q e).queueBuf.countP _ = n at hadd ⊢
    cases hf : e.favored <;> cases hd : e.disabled <;> simp [hf, hd] at hadd ⊢ <;> omega
  · rw [hcounts.2]
    generalize (t.favor q e).queueBuf.countP _ = n at hadd' ⊢
    cases hf : e.favored <;> cases hd : e.disabled <;> cases hw : e.wasFuzzed <;>
      simp [hf, hd, hw] at hadd' ⊢ <;> omega

theorem counted_cullLoop (cfg : RatingConfig) (s : TopRated) :
    ∀ n, Counted (cullLoop cfg s n).2
  | 0 => counted_cullReset s
  | n + 1 => by
    have ih := counted_cullLoop cfg s n
    rw [cullLoop]
    rcases cullAt_cases n (cullLoop cfg s n).1 (cullLoop cfg s n).2 with
      h | ⟨q, e, mini, _, he, _, _, h⟩
    · rw [h]
      exact ih
    · rw [h]
      exact ih.favor he

theorem counted_cullQueue (hearly : s.returnsEarly cfg = false) :
    Counted (s.cullQueue cfg) := by
  have hloop := counted_cullLoop cfg s cfg.mapSize
  rw [cullQueue, if_neg (by rw [hearly]; exact Bool.false_ne_true)]
  have hcount : ∀ p : RatedEntry → Bool,
      (∀ e, p (if e.disabled then e else markAsRedundant cfg (!e.favored) e) = p e) →
      ((cullLoop cfg s cfg.mapSize).2.queueBuf.map fun e =>
        if e.disabled then e else markAsRedundant cfg (!e.favored) e).countP p =
      (cullLoop cfg s cfg.mapSize).2.queueBuf.countP p := by
    intro p hp
    rw [List.countP_map]
    exact List.countP_congr fun e _ => by rw [Function.comp_apply, hp]
  have hfields : ∀ e : RatedEntry,
      (if e.disabled then e else markAsRedundant cfg (!e.favored) e).favored = e.favored ∧
        (if e.disabled then e else markAsRedundant cfg (!e.favored) e).wasFuzzed =
          e.wasFuzzed := by
    intro e
    rw [markAsRedundant]
    split_ifs <;> exact ⟨rfl, rfl⟩
  refine ⟨?_, ?_⟩
  · exact hloop.queued_eq.trans (hcount _ fun e => (hfields e).1).symm
  · exact hloop.pending_eq.trans
      (hcount _ fun e => by rw [(hfields e).1, (hfields e).2]).symm

end Counters

/-! ## Runs -/

/-- After a cull that did not return early the counters agree with the queue; when all
steps met the condition, the favored entries cover the bitmap. -/
theorem cull_covers (cfg : RatingConfig) (schedule : PowerSchedule) (fixedSeed : Bool)
    (es : List Event)
    (hearly : (run cfg (init cfg schedule fixedSeed) es).returnsEarly cfg = false) :
    Counted (run cfg (init cfg schedule fixedSeed) (es ++ [.cull])) ∧
      (Machine.Meets (step cfg) (Guard cfg) (init cfg schedule fixedSeed) (es ++ [.cull]) →
        Covered cfg (run cfg (init cfg schedule fixedSeed) (es ++ [.cull]))) := by
  rw [run, Machine.run_concat]
  refine ⟨counted_cullQueue hearly, fun hmeets => ?_⟩
  rw [Machine.meets_concat] at hmeets
  obtain ⟨hbefore, hguard⟩ := hmeets
  have hinv := Machine.run_inv_of_meets (step cfg) (Guard cfg)
    (fun s => Inv cfg s ∧ Traced cfg s)
    (fun s e hs hg => ⟨inv_step hs.1 e, traced_step hs.1 hs.2 e hg⟩)
    ⟨inv_init cfg schedule fixedSeed, traced_init cfg schedule fixedSeed⟩ hbefore
  exact covered_cullQueue hinv.2 hearly (hguard hearly)

/-! ## Three entries, and an entry that is passed over -/

/-- A map of one word. -/
def wordMap : RatingConfig where
  mapSize := 64
  mapSize_mod := word_mod
  nonInstrumentedMode := false
  aflDisableRedundant := false

/-- An entry of one byte that runs for some time. -/
def byteSeed (execUs : UInt64) : SeedKeys := ⟨1, execUs, 0, 0, false⟩

/-- An entry without a kept trace that owns no index may be scored with any trace. -/
theorem retraces_fresh {cfg : RatingConfig} {s : TopRated} {q : ℕ} {trace : Bytes}
    (hnone : ∀ e, s.queueBuf[q]? = some e → e.traceMini = none) (howner : some q ∉ s.topRated) :
    Retraces cfg s q trace := by
  intro e k he _ _
  refine ⟨fun j hj => ?_, fun mini hmini => ?_⟩
  · exact absurd (List.mem_of_getElem? (SlotTable.slot_eq_some.mp hj)) howner
  · rw [hnone e he] at hmini
    cases hmini

/-- Three entries for three indices.  The second one takes the second index away from the first one,
which is slower; the third one, the slowest, gets the index that only it hits. -/
def threeSeeds : List Event :=
  [.addToQueue (byteSeed 3), .score 0 [1, 1] true, .addToQueue (byteSeed 2), .score 1 [0, 1] true,
    .addToQueue (byteSeed 4), .score 2 [1, 1, 1] true]

theorem threeSeeds_meets :
    Machine.Meets (step wordMap) (Guard wordMap) (init wordMap .explore false)
      (threeSeeds ++ [.cull]) := by
  have hfresh (n q : ℕ) (hn : (run wordMap (init wordMap .explore false)
        (threeSeeds.take n)).queueBuf[q]?.all fun e => e.traceMini = none)
      (howner : some q ∉ (run wordMap (init wordMap .explore false) (threeSeeds.take n)).topRated)
      (trace : Bytes) :
      Retraces wordMap (run wordMap (init wordMap .explore false) (threeSeeds.take n)) q trace :=
    retraces_fresh (fun e he => by simpa [he] using hn) howner
  refine ⟨trivial, hfresh 1 0 (by decide) (by decide) _, trivial,
    hfresh 3 1 (by decide +kernel) (by decide +kernel) _, trivial,
    hfresh 5 2 (by decide +kernel) (by decide +kernel) _, fun _ i o e _ _ he _ _ => ?_, trivial⟩
  have hall : ∀ e ∈ (run wordMap (init wordMap .explore false) threeSeeds).queueBuf,
      e.traceMini ≠ none := by decide +kernel
  exact hall e (List.mem_of_getElem? he)

/-- The first entry and the third one are favored, and cover the index of the second one. -/
theorem cull_covers_threeSeeds :
    Covered wordMap (run wordMap (init wordMap .explore false) (threeSeeds ++ [.cull])) ∧
      (run wordMap (init wordMap .explore false) (threeSeeds ++ [.cull])).queueBuf.map
        RatedEntry.favored = [true, false, true] ∧
      (run wordMap (init wordMap .explore false) (threeSeeds ++ [.cull])).owner 1 = some 1 :=
  ⟨(cull_covers wordMap .explore false threeSeeds (by decide +kernel)).2 threeSeeds_meets,
    by decide +kernel, by decide +kernel⟩

/-- The second entry owns the second index, but loses its trace when only the first entry
is favored; then the third one takes the first index away. -/
def passedOver : List Event :=
  [.addToQueue (byteSeed 3), .score 0 [1, 1] true,
    .addToQueue (byteSeed 2), .score 1 [0, 1] true, .cull,
    .addToQueue (byteSeed 1), .score 2 [1] true]

/-- A cull leaves an index uncovered whose owner is not disabled. -/
theorem cull_loses_index :
    (run wordMap (init wordMap .explore false) passedOver).returnsEarly wordMap = false ∧
      ¬ Covered wordMap
        (run wordMap (init wordMap .explore false) (passedOver ++ [.cull])) := by
  refine ⟨by decide +kernel, fun hcovered => ?_⟩
  have hlen : 1 < (run wordMap (init wordMap .explore false)
      (passedOver ++ [.cull])).queueBuf.length := by decide +kernel
  have hlive : ∀ e ∈ (run wordMap (init wordMap .explore false)
      (passedOver ++ [.cull])).queueBuf, e.disabled = false := by decide +kernel
  have hmiss : ∀ f ∈ (run wordMap (init wordMap .explore false)
      (passedOver ++ [.cull])).queueBuf, f.favored = true → hits f.lastWon 1 = false := by
    decide +kernel
  obtain ⟨e, he⟩ := exists_entry hlen
  obtain ⟨p, f, hf, hfav, hhit⟩ := hcovered 1 1 e (by decide) (by decide +kernel) he
    (hlive e (List.mem_of_getElem? he))
  rw [hmiss f (List.mem_of_getElem? hf) hfav] at hhit
  exact Bool.noConfusion hhit

end TopRated

end AflNv
