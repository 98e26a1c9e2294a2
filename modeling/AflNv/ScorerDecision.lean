import AflNv.BodyStats
import AflNv.ScoreProtocol
import Mathlib.Analysis.Real.Sqrt

/-!
# The decision of the scorer and those of its clients

`AlfrescoAEV1Scorer` (`model_stage/alfresco_ae_v1_scorer.py`) compares its score with
`threshold_high`, and sends the score with six decimals to clients that compare it with the same
number.  The square root is that of the reals.

* `scoreVector`, `result` and `answer` are the scorer and its answer.
* `Reaches` compares a mean square with a number of millionths: `le_millionths_iff` says that this
  is what rounding the score makes of them.
* `nvScoreCheck_iff`, `passes_answer_iff` and `reaches_answer_iff` say what the C client, the body
  validator and the harness accept.
* `decisions_agree_iff` says when each of them decides as the scorer.
-/

namespace AflNv.ScorerDecision

open AflNv.Lib AflNv.Lib.JsonCodec AflNv.PythonJson AflNv.DecisionEngine
open AflNv.ScoreProtocol (sixDigits sixDigits_digit natOf_sixDigits)

/-! ## The scorer -/

/-- The metadata, as the constructor keeps them. -/
structure Scorer where
  featureNames : List Text
  mean : List ℚ
  std : List ℚ
  thresholdLow : ℚ
  thresholdHigh : ℚ
  modelName : Text
  modelType : Text
  names_length : featureNames.length = mean.length
  std_length : mean.length = std.length

/-- A deviation of the metadata; a small one is replaced by 1. -/
def sigma (value : ℚ) : ℚ := if 1 / 10 ^ 9 < |value| then value else 1

variable (A : Scorer)

/-- `z_values` -/
def zValues (vector : List ℚ) : List ℚ :=
  (vector.zip (A.mean.zip (A.std.map sigma))).map fun v => (v.1 - v.2.1) / v.2.2

/-- The number under the root; `none` is an exception. -/
def meanSquare (vector : List ℚ) : Option ℚ :=
  if vector.length ≠ A.mean.length then none
  else
    let zs := zValues A vector
    if zs = [] then none else some ((zs.map fun z => z * z).sum / zs.length)

/-- `score_vector` -/
noncomputable def scoreVector (vector : List ℚ) : Option ℝ :=
  (meanSquare A vector).map fun q : ℚ => √(q : ℝ)

/-- A number that is not negative in millionths, rounded to the nearest, ties to even. -/
noncomputable def millionths (x : ℝ) : ℕ :=
  let n := ⌊x * 10 ^ 6⌋₊
  let rest := x * 10 ^ 6 - n
  if rest < 1 / 2 ∨ (rest = 1 / 2 ∧ n % 2 = 0) then n else n + 1

/-- `round(x, 6)` -/
noncomputable def round6 (x : ℝ) : ℝ :=
  (if x < 0 then -1 else 1) * (millionths |x| / 10 ^ 6)

/-- What `result` returns. -/
structure Result where
  score : ℝ
  pass : Prop
  decision : Text
  reason : Text
  featureVector : List ℝ
  thresholdLow : ℚ
  thresholdHigh : ℚ
  modelName : Text
  modelType : Text

open Classical in
/-- `result` -/
noncomputable def result (vector : List ℚ) : Option Result :=
  (scoreVector A vector).map fun score =>
    let aePass := score ≤ (A.thresholdHigh : ℝ)
    { score := round6 score
      pass := aePass
      decision := if aePass then chars "pass" else chars "reject"
      reason := if aePass then chars "score_within_threshold" else chars "score_above_threshold"
      featureVector := vector.map fun value : ℚ => round6 (value : ℝ)
      thresholdLow := A.thresholdLow
      thresholdHigh := A.thresholdHigh
      modelName := A.modelName
      modelType := A.modelType }

/-! ## The answer -/

/-- The numeral of a number of millionths. -/
def sixNumeral (k : ℕ) : Numeral where
  sign := none
  whole := AflNv.showNat (k / 10 ^ 6)
  frac := some (sixDigits (k % 10 ^ 6))
  exp := none
  whole_ok b hb := by
    have hdigit := AflNv.showNat_digit hb
    simp only [Numeral.isDigit, Bool.and_eq_true, decide_eq_true_eq, UInt8.le_iff_toNat_le]
    exact hdigit
  frac_ok _ hb := sixDigits_digit hb
  digits_ne h := by
    have hlen := congrArg List.length (List.append_eq_nil_iff.mp h).2
    simp [sixDigits] at hlen

/-- `f"{float(score):.6f}\n"` for a number of millionths. -/
def sixText (k : ℕ) : Response where
  lead := []
  number := sixNumeral k
  trail := [10]
  lead_blank := nil_blank
  trail_blank := newline_blank

/-- What `send_score` makes of a result in the text format. -/
noncomputable def answer (r : Result) : Response := sixText (millionths r.score)

theorem sixNumeral_value (k : ℕ) : (sixNumeral k).value = k / 10 ^ 6 := by
  have hwhole : Numeral.natOf (AflNv.showNat (k / 10 ^ 6)) = k / 10 ^ 6 := AflNv.readNat_showNat _
  have hlen : (sixDigits (k % 10 ^ 6)).length = 6 := rfl
  have hdigits : Numeral.natOf (AflNv.showNat (k / 10 ^ 6) ++ sixDigits (k % 10 ^ 6)) = k := by
    rw [Numeral.natOf_append, hwhole, natOf_sixDigits (Nat.mod_lt _ (by decide)), hlen]
    omega
  show Numeral.valueOf false (AflNv.showNat (k / 10 ^ 6)) (sixDigits (k % 10 ^ 6)) 0 = _
  rw [Numeral.valueOf, Numeral.scale_zero, hdigits, hlen, if_neg Bool.false_ne_true, one_mul]

/-! ## Rounding -/

/-- A score whose square is `q` rounds to `K` millionths or more. -/
def Reaches (K : ℕ) (q : ℚ) : Prop :=
  K = 0 ∨ (2 * K - 1 : ℚ) ^ 2 < 4 * 10 ^ 12 * q ∨
    ((2 * K - 1 : ℚ) ^ 2 = 4 * 10 ^ 12 * q ∧ K % 2 = 0)

theorem le_rounded_iff {y : ℝ} (hy : 0 ≤ y) (K : ℕ) :
    K ≤ (if y - ⌊y⌋₊ < 1 / 2 ∨ (y - ⌊y⌋₊ = 1 / 2 ∧ ⌊y⌋₊ % 2 = 0) then ⌊y⌋₊ else ⌊y⌋₊ + 1) ↔
      K = 0 ∨ 2 * (K : ℝ) - 1 < 2 * y ∨ (2 * (K : ℝ) - 1 = 2 * y ∧ K % 2 = 0) := by
  have hlow := Nat.floor_le hy
  have hhigh := Nat.lt_floor_add_one y
  generalize ⌊y⌋₊ = n at hlow hhigh ⊢
  rcases Nat.lt_trichotomy K (n + 1) with hlt | rfl | hgt
  · have hcast : (K : ℝ) ≤ n := Nat.cast_le.mpr (Nat.lt_succ_iff.mp hlt)
    refine iff_of_true ?_ (.inr (.inl (by linarith)))
    split_ifs <;> omega
  · have hparity : (n + 1) % 2 = 0 ↔ ¬ n % 2 = 0 := by omega
    rw [Nat.cast_add, Nat.cast_one, hparity]
    split_ifs with hdown
    · refine iff_of_false (by omega) ?_
      rintro (h | h | ⟨h, hodd⟩)
      · omega
      · rcases hdown with hd | ⟨hd, -⟩ <;> linarith
      · rcases hdown with hd | ⟨-, heven⟩
        · linarith
        · exact hodd heven
    · refine iff_of_true (Nat.le_refl _) (.inr ?_)
      rw [not_or, not_lt, not_and] at hdown
      obtain ⟨hge, hodd⟩ := hdown
      rcases hge.lt_or_eq with hlt | heq
      · exact .inl (by linarith)
      · exact .inr ⟨by linarith, hodd heq.symm⟩
  · have hcast : (n : ℝ) + 2 ≤ K := by exact_mod_cast hgt
    refine iff_of_false ?_ ?_
    · split_ifs <;> omega
    · rintro (h | h | ⟨h, -⟩)
      · omega
      · linarith
      · linarith

/-- Rounding the score is comparing its square. -/
theorem le_millionths_iff {q : ℚ} (hq : 0 ≤ q) (K : ℕ) :
    K ≤ millionths √(q : ℝ) ↔ Reaches K q := by
  have hscale : 2 * (√(q : ℝ) * 10 ^ 6) = √(((4 * 10 ^ 12 * q : ℚ)) : ℝ) := by
    have hsquare : ((4 * 10 ^ 12 * q : ℚ) : ℝ) = (2 * 10 ^ 6) ^ 2 * (q : ℝ) := by
      push_cast
      ring
    rw [hsquare, Real.sqrt_mul (by positivity), Real.sqrt_sq (by positivity)]
    ring
  have hnonneg : (0 : ℝ) ≤ ((4 * 10 ^ 12 * q : ℚ) : ℝ) := by
    exact_mod_cast mul_nonneg (by norm_num) hq
  rw [millionths, le_rounded_iff (by positivity), Reaches, hscale]
  by_cases hK : K = 0
  · simp [hK]
  have hone : (1 : ℝ) ≤ K := Nat.one_le_cast.mpr (Nat.one_le_iff_ne_zero.mpr hK)
  have hpos : (0 : ℝ) ≤ 2 * K - 1 := by linarith
  rw [Real.lt_sqrt hpos, eq_comm (a := 2 * (K : ℝ) - 1), Real.sqrt_eq_iff_eq_sq hnonneg hpos,
    eq_comm (b := (2 * (K : ℝ) - 1) ^ 2)]
  have hcast : (2 * (K : ℝ) - 1) ^ 2 = ((2 * K - 1 : ℚ) ^ 2 : ℚ) := by push_cast; ring
  rw [hcast, Rat.cast_lt, Rat.cast_inj]

theorem millionths_div (k : ℕ) : millionths ((k : ℝ) / 10 ^ 6) = k := by
  have hscale : (k : ℝ) / 10 ^ 6 * 10 ^ 6 = k := by field_simp
  rw [millionths, hscale, Nat.floor_natCast, sub_self]
  exact if_pos (.inl (by norm_num))

theorem round6_of_nonneg {x : ℝ} (hx : 0 ≤ x) : round6 x = millionths x / 10 ^ 6 := by
  rw [round6, if_neg (not_lt.mpr hx), one_mul, abs_of_nonneg hx]

/-- The answer is the score, rounded once. -/
theorem answer_result {vector : List ℚ} {r : Result} {q : ℚ} (hq : meanSquare A vector = some q)
    (hr : result A vector = some r) : answer r = sixText (millionths √(q : ℝ)) := by
  rw [result, scoreVector, hq, Option.map_some, Option.map_some] at hr
  obtain rfl := Option.some.inj hr
  show sixText (millionths (round6 √(q : ℝ))) = _
  rw [round6_of_nonneg (Real.sqrt_nonneg _), millionths_div]

theorem meanSquare_nonneg {vector : List ℚ} {q : ℚ} (hq : meanSquare A vector = some q) :
    0 ≤ q := by
  rw [meanSquare] at hq
  split_ifs at hq with hlen
  dsimp only at hq
  split_ifs at hq with hnil
  obtain rfl := Option.some.inj hq
  refine div_nonneg (List.sum_nonneg ?_) (Nat.cast_nonneg _)
  intro z hz
  obtain ⟨x, -, rfl⟩ := List.mem_map.mp hz
  exact mul_self_nonneg x

/-- The decision of the scorer. -/
theorem decision_iff {vector : List ℚ} {r : Result} {q : ℚ} (hq : meanSquare A vector = some q)
    (hr : result A vector = some r) :
    r.decision = chars "pass" ↔ 0 ≤ A.thresholdHigh ∧ q ≤ A.thresholdHigh ^ 2 := by
  have hle : √(q : ℝ) ≤ (A.thresholdHigh : ℝ) ↔ 0 ≤ A.thresholdHigh ∧ q ≤ A.thresholdHigh ^ 2 := by
    rw [Real.sqrt_le_iff]
    refine and_congr Rat.cast_nonneg ?_
    rw [← Rat.cast_pow, Rat.cast_le]
  rw [result, scoreVector, hq, Option.map_some, Option.map_some] at hr
  obtain rfl := Option.some.inj hr
  rw [← hle]
  show (if √(q : ℝ) ≤ (A.thresholdHigh : ℝ) then chars "pass" else chars "reject") =
    chars "pass" ↔ _
  split_ifs with h
  · exact iff_of_true rfl h
  · exact iff_of_false (by decide) h

/-! ## The clients -/

/-- What is documented of the conversions: they keep the order, and no number of millionths that
fits into an answer is out of range. -/
structure Transport (lib : ScoreLib) : Prop where
  mono : ∀ p q, p ≤ q → (lib.round q).ge (lib.round p) = true
  range : ∀ k, (sixText k).text.length ≤ 63 → lib.erange (k / 10 ^ 6) = false

variable (lib : ScoreLib)

/-- The double that a client makes of a number of millionths. -/
def received (k : ℕ) : CDouble := lib.round (k / 10 ^ 6)

/-- Both clients obtain the double of an answer that arrives at once. -/
theorem read_sixText {lib : ScoreLib} (hlib : Transport lib) {k : ℕ}
    (hlen : (sixText k).text.length ≤ 63) :
    nvRecvScore lib [(sixText k).text] = .score (received lib k) ∧
    rpcScoreText lib [(sixText k).text] = .score (received lib k) := by
  have hvalue : (sixText k).number.value = k / 10 ^ 6 := sixNumeral_value k
  have hrange : lib.erange (sixText k).number.value = false := by
    rw [hvalue]
    exact hlib.range k hlen
  have hne : (sixText k).text ≠ [] :=
    List.append_ne_nil_of_right_ne_nil _ (List.append_ne_nil_of_right_ne_nil _
      (List.cons_ne_nil _ _))
  have hsegmented : (sixText k).Segmented [(sixText k).text] :=
    ⟨List.forall_mem_singleton.mpr hne, List.flatten_singleton⟩
  constructor
  · rw [(sixText k).nvRecvScore_whole lib rfl hrange hlen, hvalue]
    rfl
  · rw [(sixText k).rpcScoreText_eq lib hsegmented hlen, hvalue]
    rfl

/-- A double as a float of Python. -/
def toPy : CDouble → PyFloat ℚ
  | .finite q => .finite q
  | .inf neg => .inf neg

theorem pyLe_toPy (x y : CDouble) : pyLe (toPy x) (toPy y) = y.ge x := by
  cases x with
  | finite p =>
    cases y with
    | finite q => rfl
    | inf neg => cases neg <;> rfl
  | inf neg =>
    cases y with
    | finite q => cases neg <;> rfl
    | inf neg' => cases neg <;> cases neg' <;> rfl

theorem ge_trans {x y z : CDouble} (hxy : x.ge y = true) (hyz : y.ge z = true) :
    x.ge z = true := by
  rw [← pyLe_toPy] at hxy hyz ⊢
  exact pyLe_trans hyz hxy

/-- The clients that reject from the threshold on, and the one that rejects above it. -/
def RejectsFrom (t : ℚ) (k : ℕ) : Prop := (received lib k).ge (.finite t) = true

def RejectsAbove (t : ℚ) (k : ℕ) : Prop := (CDouble.finite t).ge (received lib k) = false

/-- A score whose square is `q` rounds to no number of millionths that is rejected. -/
def Below (Rejects : ℕ → Prop) (q : ℚ) : Prop := ∀ K, Rejects K → ¬ Reaches K q

theorem not_rejects_iff {Rejects : ℕ → Prop} (hmono : ∀ k l, k ≤ l → Rejects k → Rejects l) {q : ℚ}
    (hq : 0 ≤ q) : ¬ Rejects (millionths √(q : ℝ)) ↔ Below Rejects q := by
  constructor
  · intro h K hK hreaches
    exact h (hmono K _ ((le_millionths_iff hq K).mpr hreaches) hK)
  · intro h hrejects
    exact h _ hrejects ((le_millionths_iff hq _).mp (Nat.le_refl _))

variable {lib}

theorem received_mono (hlib : Transport lib) {k l : ℕ} (h : k ≤ l) :
    (received lib l).ge (received lib k) = true := by
  apply hlib.mono
  exact div_le_div_of_nonneg_right (Nat.cast_le.mpr h) (by positivity)

theorem rejectsFrom_mono (hlib : Transport lib) (t : ℚ) (k l : ℕ) (h : k ≤ l)
    (hk : RejectsFrom lib t k) : RejectsFrom lib t l :=
  ge_trans (received_mono hlib h) hk

theorem rejectsAbove_mono (hlib : Transport lib) (t : ℚ) (k l : ℕ) (h : k ≤ l)
    (hk : RejectsAbove lib t k) : RejectsAbove lib t l := by
  rw [RejectsAbove, Bool.eq_false_iff] at hk ⊢
  exact fun hge => hk (ge_trans hge (received_mono hlib h))

/-- The C client, if an endpoint is configured. -/
theorem nvScoreCheck_iff {task : NvTask} {endpoint : Bytes} {t : ℚ} (hne : endpoint ≠ [])
    (hendpoint : task.validityEndpoint = some endpoint)
    (hthreshold : task.validityThreshold = .finite t) (score : CDouble) :
    nvScoreCheck task (.score score) = .ok ↔ ¬ (0 < t ∧ score.ge (.finite t) = true) := by
  cases endpoint with
  | nil => exact absurd rfl hne
  | cons b rest =>
    rw [nvScoreCheck, hendpoint]
    dsimp only
    rw [hthreshold]
    have hpos : (CDouble.finite t).isPos = true ↔ 0 < t := decide_eq_true_iff
    split_ifs with h
    · rw [Bool.and_eq_true, hpos] at h
      exact iff_of_false (fun hok => by cases hok) (not_not.mpr h)
    · rw [Bool.and_eq_true, hpos] at h
      exact iff_of_true rfl h

/-- The configuration that `load_runtime_decision_config` makes of a threshold. -/
def thresholdConfig (t : ℚ) : Config :=
  .default (.finite t) (.finite t) (decide_eq_false (lt_irrefl t))

/-- The body validator. -/
theorem passes_iff_le {F : Type} (I : Interp F) (env : DecisionEngine.Env) (t : ℚ)
    (score : CDouble) (sample : Sample F) :
    Passes I env (thresholdConfig t) (toPy score) sample ↔
      (CDouble.finite t).ge score = true := by
  have hsecond : ¬ SecondPasses I env (thresholdConfig t) sample :=
    fun h => absurd h.1 Bool.false_ne_true
  rw [passes_iff, ← pyLe_toPy]
  exact or_iff_left fun h => hsecond h.2

/-! ## The decisions -/

variable {A}

/-- The scorer passes a vector whose mean square is `q` exactly if the square of its threshold is
not below `q`; each client compares the rounded score.  So the C client decides alike if its
threshold is positive and both tell `q` apart alike, or if both numbers are 0; the validator and the
harness decide alike if both tell `q` apart alike. -/
theorem decisions_agree_iff {F : Type} (hlib : Transport lib) {vector : List ℚ} {r : Result}
    {q : ℚ} (hq : meanSquare A vector = some q) (hr : result A vector = some r)
    (hlen : (answer r).text.length ≤ 63) {task : NvTask} {endpoint : Bytes} (hne : endpoint ≠ [])
    (hendpoint : task.validityEndpoint = some endpoint)
    (hthreshold : task.validityThreshold = .finite A.thresholdHigh) (I : Interp F)
    (env : DecisionEngine.Env) (sample : Sample F) :
    ((r.decision = chars "pass" ↔
        nvScoreCheck task (nvRecvScore lib [(answer r).text]) = .ok) ↔
      0 < A.thresholdHigh ∧
          (q ≤ A.thresholdHigh ^ 2 ↔ Below (RejectsFrom lib A.thresholdHigh) q) ∨
        A.thresholdHigh = 0 ∧ q = 0) ∧
    ∃ score, rpcScoreText lib [(answer r).text] = .score score ∧
      ((r.decision = chars "pass" ↔
          Passes I env (thresholdConfig A.thresholdHigh) (toPy score) sample) ↔
        (0 ≤ A.thresholdHigh ∧ q ≤ A.thresholdHigh ^ 2 ↔
          Below (RejectsAbove lib A.thresholdHigh) q)) ∧
      ((r.decision = chars "pass" ↔
          BodyStats.reaches (some (.finite A.thresholdHigh)) (toPy score) = false) ↔
        (0 ≤ A.thresholdHigh ∧ q ≤ A.thresholdHigh ^ 2 ↔
          Below (RejectsFrom lib A.thresholdHigh) q)) := by
  have hnonneg := meanSquare_nonneg A hq
  rw [answer_result A hq hr] at hlen
  obtain ⟨hnv, hrpc⟩ := read_sixText hlib hlen
  have hfrom := not_rejects_iff (rejectsFrom_mono hlib A.thresholdHigh) hnonneg
  have habove := not_rejects_iff (rejectsAbove_mono hlib A.thresholdHigh) hnonneg
  rw [decision_iff A hq hr, answer_result A hq hr, hnv, nvScoreCheck_iff hne hendpoint hthreshold]
  refine ⟨?_, _, hrpc, ?_, ?_⟩
  · rw [← hfrom, RejectsFrom]
    rcases lt_trichotomy A.thresholdHigh 0 with hneg | hzero | hpos
    · exact iff_of_false (fun h => absurd (h.mpr fun hp => absurd hp.1 (not_lt.mpr hneg.le)).1
        (not_le.mpr hneg)) (by rintro (⟨h, -⟩ | ⟨h, -⟩) <;> linarith)
    · rw [hzero]
      have hle : q ≤ 0 ^ 2 ↔ q = 0 := by
        rw [zero_pow (by decide)]
        exact ⟨fun h => le_antisymm h hnonneg, fun h => h.le⟩
      rw [hle]
      simp
    · simp only [hpos, hpos.le, true_and, hpos.ne', false_and, or_false]
  · rw [passes_iff_le, ← habove, RejectsAbove, Bool.not_eq_false]
  · rw [← hfrom, RejectsFrom, Bool.not_eq_true]
    show (_ ↔ pyLe (toPy (.finite A.thresholdHigh)) (toPy _) = false) ↔ _
    rw [pyLe_toPy]

/-- A larger mean square reaches no less. -/
theorem Reaches.mono {K : ℕ} {q q' : ℚ} (hle : q ≤ q') (h : Reaches K q) : Reaches K q' := by
  have hscaled : 4 * 10 ^ 12 * q ≤ 4 * 10 ^ 12 * q' := mul_le_mul_of_nonneg_left hle (by positivity)
  obtain hzero | hlt | ⟨heq, heven⟩ := h
  · exact .inl hzero
  · exact .inr (.inl (hlt.trans_le hscaled))
  · obtain hlt | heq' := hscaled.lt_or_eq
    · exact .inr (.inl (heq.trans_lt hlt))
    · exact .inr (.inr ⟨heq.trans heq', heven⟩)

/-- The mean squares that a client and the scorer tell apart differently are an interval, between
the square of the threshold and the first midpoint from which the rounded score is rejected. -/
theorem ordConnected_disagreement (Rejects : ℕ → Prop) (t : ℚ) :
    Set.OrdConnected {q | ¬ (q ≤ t ^ 2 ↔ Below Rejects q)} := by
  have hbelow {q q' : ℚ} (hle : q ≤ q') (h : Below Rejects q') : Below Rejects q :=
    fun K hK hreaches => h K hK (hreaches.mono hle)
  refine ⟨fun a ha b hb q hq hagree => ?_⟩
  by_cases hle : a ≤ t ^ 2
  · have hnot : ¬ Below Rejects a := fun h => ha (iff_of_true hle h)
    have hb' : b ≤ t ^ 2 :=
      not_lt.mp fun hlt => hb (iff_of_false hlt.not_ge fun h => hnot (hbelow (hq.1.trans hq.2) h))
    exact hnot (hbelow hq.1 (hagree.mp (hq.2.trans hb')))
  · have hb' : Below Rejects b :=
      not_not.mp fun h => hb (iff_of_false (fun h' => hle ((hq.1.trans hq.2).trans h')) h)
    exact hle (hq.1.trans (hagree.mpr (hbelow hq.2 hb')))

/-! ## Two scores at the threshold -/

/-- One feature, with mean 0, deviation 1 and threshold 1. -/
def unitScorer : Scorer where
  featureNames := [chars "length"]
  mean := [0]
  std := [1]
  thresholdLow := 0
  thresholdHigh := 1
  modelName := chars "alfresco_ae_v1"
  modelType := chars "ae_like_statistical_baseline"
  names_length := rfl
  std_length := rfl

def unitTask : NvTask where
  enableValidity := true
  validityThreshold := .finite 1
  validityEndpoint := some (ascii "unix:///tmp/score.sock")
  maxTestCases := 0

theorem transport_exactScoreLib : Transport exactScoreLib where
  mono _ _ h := decide_eq_true h
  range _ _ := rfl

theorem meanSquare_unit (x : ℚ) : meanSquare unitScorer [x] = some (x * x) := by
  have hsigma : sigma 1 = 1 := by
    rw [sigma, if_pos (by norm_num)]
  have hzs : zValues unitScorer [x] = [x] := by
    show [(x - 0) / sigma 1] = [x]
    rw [hsigma, sub_zero, div_one]
  have hlen : ¬ [x].length ≠ unitScorer.mean.length := not_not.mpr rfl
  rw [meanSquare, if_neg hlen]
  dsimp only
  rw [hzs, if_neg (List.cons_ne_nil _ _)]
  simp

theorem millionths_eq {q : ℚ} (hq : 0 ≤ q) {k : ℕ} (hle : Reaches k q) (hlt : ¬ Reaches (k + 1) q) :
    millionths √(q : ℝ) = k := by
  have hlow := (le_millionths_iff hq k).mpr hle
  have hhigh := mt (le_millionths_iff hq (k + 1)).mp hlt
  omega

theorem exists_result {vector : List ℚ} {q : ℚ} (hq : meanSquare A vector = some q) :
    ∃ r, result A vector = some r := by
  rw [result, scoreVector, hq]
  exact ⟨_, rfl⟩

/-- A score of 0.5 is accepted by the scorer and by the C client. -/
theorem decisions_agree_half : ∃ r, result unitScorer [1 / 2] = some r ∧
    (r.decision = chars "pass" ↔
      nvScoreCheck unitTask (nvRecvScore exactScoreLib [(answer r).text]) = .ok) := by
  have hq : meanSquare unitScorer [1 / 2] = some (1 / 2 * (1 / 2)) := meanSquare_unit _
  obtain ⟨r, hr⟩ := exists_result hq
  have hk : millionths √((1 / 2 * (1 / 2) : ℚ) : ℝ) = 500000 :=
    millionths_eq (by norm_num) (by norm_num [Reaches]) (by norm_num [Reaches])
  have hlen : (answer r).text.length ≤ 63 := by
    rw [answer_result unitScorer hq hr, hk]
    decide
  have hendpoint : unitTask.validityEndpoint = some (ascii "unix:///tmp/score.sock") := rfl
  refine ⟨r, hr, (decisions_agree_iff transport_exactScoreLib hq hr hlen
    (by decide) hendpoint rfl BodyStats.plainReader.interp noGan (.bytes [])).1.mpr (.inl ⟨?_, ?_⟩)⟩
  · exact one_pos
  · refine iff_of_true ?_ fun K hK hreaches => ?_
    · show (1 / 2 * (1 / 2) : ℚ) ≤ 1 ^ 2
      norm_num
    · have hK' : (1 : ℚ) ≤ (K : ℚ) / 10 ^ 6 := of_decide_eq_true hK
      rw [le_div_iff₀ (by positivity), one_mul] at hK'
      rcases hreaches with h | h | ⟨h, -⟩
      · rw [h] at hK'
        norm_num at hK'
      · nlinarith
      · nlinarith

/-- At a score of 1 the scorer passes, and the C client and the harness reject; at 1.0000004 the
scorer rejects, and the validator passes. -/
theorem decisions_differ :
    (∃ r, result unitScorer [1] = some r ∧ r.decision = chars "pass" ∧
      nvScoreCheck unitTask (nvRecvScore exactScoreLib [(answer r).text]) = .rejScore ∧
      rpcScoreText exactScoreLib [(answer r).text] = .score (.finite 1) ∧
      BodyStats.reaches (some (.finite 1)) (.finite 1) = true) ∧
    ∃ r, result unitScorer [10000004 / 10000000] = some r ∧ r.decision ≠ chars "pass" ∧
      rpcScoreText exactScoreLib [(answer r).text] = .score (.finite 1) ∧
      Passes BodyStats.plainReader.interp noGan (thresholdConfig 1) (toPy (.finite 1))
        (.bytes []) := by
  have hlen : (sixText 1000000).text.length ≤ 63 := by decide
  obtain ⟨hnv, hrpc⟩ := read_sixText transport_exactScoreLib hlen
  have hone : received exactScoreLib 1000000 = .finite 1 := by
    show CDouble.finite (((1000000 : ℕ) : ℚ) / 10 ^ 6) = _
    norm_num
  rw [hone] at hnv hrpc
  constructor
  · have hq := meanSquare_unit 1
    obtain ⟨r, hr⟩ := exists_result hq
    have hk : millionths √((1 * 1 : ℚ) : ℝ) = 1000000 :=
      millionths_eq (by norm_num) (by norm_num [Reaches]) (by norm_num [Reaches])
    have hanswer : answer r = sixText 1000000 := by rw [answer_result unitScorer hq hr, hk]
    rw [← hanswer] at hnv hrpc
    refine ⟨r, hr, (decision_iff unitScorer hq hr).mpr ⟨zero_le_one, ?_⟩, ?_, hrpc, ?_⟩
    · show (1 * 1 : ℚ) ≤ 1 ^ 2
      norm_num
    · rw [hnv]
      have hpos : (CDouble.finite 1).isPos = true := decide_eq_true (one_pos : (0 : ℚ) < 1)
      have hge : (CDouble.finite 1).ge (.finite 1) = true := decide_eq_true (le_refl (1 : ℚ))
      show (if (CDouble.finite 1).isPos && (CDouble.finite 1).ge (.finite 1) then NvVreason.rejScore
        else .ok) = _
      rw [hpos, hge]
      rfl
    · exact decide_eq_true (le_refl (1 : ℚ))
  · have hq := meanSquare_unit (10000004 / 10000000)
    obtain ⟨r, hr⟩ := exists_result hq
    have hk : millionths √((10000004 / 10000000 * (10000004 / 10000000) : ℚ) : ℝ) = 1000000 :=
      millionths_eq (by norm_num) (by norm_num [Reaches]) (by norm_num [Reaches])
    have hanswer : answer r = sixText 1000000 := by rw [answer_result unitScorer hq hr, hk]
    rw [← hanswer] at hrpc
    refine ⟨r, hr, fun h => ?_, hrpc,
      (passes_iff_le _ _ _ _ _).mpr (decide_eq_true (le_refl (1 : ℚ)))⟩
    have hle : (10000004 / 10000000 * (10000004 / 10000000) : ℚ) ≤ 1 ^ 2 :=
      ((decision_iff unitScorer hq hr).mp h).2
    norm_num at hle

end AflNv.ScorerDecision
