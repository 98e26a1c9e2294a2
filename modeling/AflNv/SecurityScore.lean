import Mathlib.Algebra.Order.Field.Basic
import Mathlib.Tactic.Linarith
import Mathlib.Tactic.Ring
import AflNv.Python
import AflNv.Lib.Unicode

/-!
# The composite security score

`scripts/compute_formal_security_score.py` reads five metrics from `fuzzer_stats` and weighs
them, `beta1 * Cov + beta2 * (1 / (1 + Err)) + beta3 * R_rec`.  Floats are exact here, but for
the quotient of two integers, which raises when no float is large enough for it.

* `FormalScoreConfig` holds the weights, with the checks of its constructor.
* `Sound` says of a file that its score is in range, and moves with its metrics.
* `securityScore_sound_iff`: a file is sound exactly if its metrics are `Regular`.  The ratios
  are capped at one and not at zero, and nothing is checked about the error rate.
-/

namespace AflNv

open AflNv.Lib

namespace SecurityScore

open AflNv.Lib.JsonCodec (chars)
open AflNv.Lib.Unicode (Text)

/-! ## The weights -/

structure FormalScoreConfig where
  beta1 : ℚ
  beta2 : ℚ
  beta3 : ℚ
  beta1_nonneg : 0 ≤ beta1
  beta2_nonneg : 0 ≤ beta2
  beta3_nonneg : 0 ≤ beta3
  beta1_le : beta1 ≤ 1
  beta2_le : beta2 ≤ 1
  beta3_le : beta3 ≤ 1
  le_sum : 99 / 100 ≤ beta1 + beta2 + beta3
  sum_le : beta1 + beta2 + beta3 ≤ 101 / 100

def FormalScoreConfig.sum (c : FormalScoreConfig) : ℚ := c.beta1 + c.beta2 + c.beta3

/-- `FormalScoreConfig(beta1, beta2, beta3)`; no comparison with a NaN holds. -/
def FormalScoreConfig.init : PyFloat ℚ → PyFloat ℚ → PyFloat ℚ → Option FormalScoreConfig
  | .finite b1, .finite b2, .finite b3 =>
    if h : (0 ≤ b1 ∧ b1 ≤ 1 ∧ 0 ≤ b2 ∧ b2 ≤ 1 ∧ 0 ≤ b3 ∧ b3 ≤ 1) ∧
        99 / 100 ≤ b1 + b2 + b3 ∧ b1 + b2 + b3 ≤ 101 / 100 then
      some ⟨b1, b2, b3, h.1.1, h.1.2.2.1, h.1.2.2.2.2.1, h.1.2.1, h.1.2.2.2.1, h.1.2.2.2.2.2,
        h.2.1, h.2.2⟩
    else none
  | _, _, _ => none

/-! ## The metrics of a file -/

/-- `int` and `float` of a text; `none` is a `ValueError`. -/
structure Numerals where
  int : Text → Option ℤ
  float : Text → Option (PyFloat ℚ)
  int_one : int (chars "1") = some 1
  float_zero : float (chars "0") = some (.finite 0)

structure Metrics where
  nvErrRate : PyFloat ℚ
  nvRecTotal : ℤ
  nvRecSuccess : ℤ
  securityStateNewTotal : ℤ
  securityStateCapacity : ℤ
  deriving DecidableEq

/-- The dictionary `metrics` while the file is read. -/
structure Found where
  nvErrRate : Option (PyFloat ℚ)
  nvRecTotal : Option ℤ
  nvRecSuccess : Option ℤ
  securityStateNewTotal : Option ℤ
  securityStateCapacity : Option ℤ

def Found.empty : Found := ⟨none, none, none, none, none⟩

/-- The body of the loop, behind the split of the line; a value that is no number is
skipped. -/
def Found.set (N : Numerals) (m : Found) (key value : Text) : Found :=
  if key = chars "nv_err_rate" then
    match N.float value with
    | some x => { m with nvErrRate := some x }
    | none => m
  else match N.int value with
    | none => m
    | some i =>
      if key = chars "nv_rec_total" then { m with nvRecTotal := some i }
      else if key = chars "nv_rec_success" then { m with nvRecSuccess := some i }
      else if key = chars "security_state_new_total" then
        { m with securityStateNewTotal := some i }
      else if key = chars "security_state_capacity" then
        { m with securityStateCapacity := some i }
      else m

def Found.line (N : Numerals) (m : Found) (line : Text) : Found :=
  let line := Unicode.strip line
  if line = [] ∨ 58 ∉ line then m
  else
    let key := line.takeWhile (· ≠ 58)
    m.set N (Unicode.strip key) (Unicode.strip (line.drop (key.length + 1)))

/-- The check that all metrics are present. -/
def Found.metrics (m : Found) : Option Metrics := do
  let err ← m.nvErrRate
  let total ← m.nvRecTotal
  let success ← m.nvRecSuccess
  let states ← m.securityStateNewTotal
  let capacity ← m.securityStateCapacity
  some ⟨err, total, success, states, capacity⟩

/-- The lines of a text file.  What `\r\n` leaves between its two characters is an empty line,
and an empty line is skipped. -/
def lines (text : Text) : List Text := text.splitOnP fun c => c = 10 || c = 13

/-- `extract_metrics_from_stats`, of a file that exists. -/
def extractMetrics (N : Numerals) (text : Text) : Option Metrics :=
  ((lines text).foldl (Found.line N) Found.empty).metrics

/-! ## The score -/

inductive ScoreError where
  | overflowError
  | zeroDivisionError
  deriving DecidableEq

/-- Quotients from here on are rounded to no finite double. -/
def maxQuotient : ℚ := 2 ^ 1024 - 2 ^ 970

/-- `min(1.0, count / total)`, and 0 for a total of 0. -/
def cappedRatio (count total : ℤ) : Except ScoreError ℚ :=
  if total = 0 then .ok 0
  else if maxQuotient ≤ |(count : ℚ) / total| then .error .overflowError
  else .ok (min 1 (count / total))

def computeCoverageRatio (securityStateNewTotal securityStateCapacity : ℤ) :
    Except ScoreError ℚ :=
  cappedRatio securityStateNewTotal securityStateCapacity

def computeRecoveryRate (recoverySuccess recoveryTotal : ℤ) : Except ScoreError ℚ :=
  cappedRatio recoverySuccess recoveryTotal

/-- `1.0 / (1.0 + err)` -/
def errTerm : PyFloat ℚ → Except ScoreError (PyFloat ℚ)
  | .finite e => if 1 + e = 0 then .error .zeroDivisionError else .ok (.finite (1 / (1 + e)))
  | .inf _ => .ok (.finite 0)
  | .nan => .ok .nan

def computeFormalScore (config : FormalScoreConfig) (cov : ℚ) (err : PyFloat ℚ) (rRec : ℚ) :
    Except ScoreError (PyFloat ℚ) := do
  match ← errTerm err with
  | .finite t => .ok (.finite (config.beta1 * cov + config.beta2 * t + config.beta3 * rRec))
  | x => .ok x

/-- The score of the metrics. -/
def Metrics.score (config : FormalScoreConfig) (m : Metrics) : Except ScoreError (PyFloat ℚ) := do
  let cov ← computeCoverageRatio m.securityStateNewTotal m.securityStateCapacity
  let rRec ← computeRecoveryRate m.nvRecSuccess m.nvRecTotal
  computeFormalScore config cov m.nvErrRate rRec

/-- `compute_from_stats`; there is no text without a file. -/
def computeFromStats (N : Numerals) (config : FormalScoreConfig) (stats : Option Text) :
    Except ScoreError (Option (PyFloat ℚ)) :=
  match stats.bind (extractMetrics N) with
  | none => .ok none
  | some m => (m.score config).map some

/-! ## What is asked of a score -/

/-- Unavailable, or a number between 0 and the sum of the weights. -/
def InRange (config : FormalScoreConfig) : Except ScoreError (Option (PyFloat ℚ)) → Prop
  | .ok none => True
  | .ok (some (.finite p)) => 0 ≤ p ∧ p ≤ config.sum
  | _ => False

/-- `x <= y` -/
def FloatLe : PyFloat ℚ → PyFloat ℚ → Prop
  | .finite x, .finite y => x ≤ y
  | .finite _, .inf neg => neg = false
  | .inf neg, .finite _ => neg = true
  | .inf neg, .inf neg' => neg = true ∨ neg' = false
  | _, _ => False

/-- More states or recoveries, and nothing else. -/
def Better (m m' : Metrics) : Prop :=
  (m' = { m with securityStateNewTotal := m'.securityStateNewTotal } ∧
    m.securityStateNewTotal ≤ m'.securityStateNewTotal) ∨
  (m' = { m with nvRecSuccess := m'.nvRecSuccess } ∧ m.nvRecSuccess ≤ m'.nvRecSuccess)

/-- A higher error rate, and nothing else. -/
def Worse (m m' : Metrics) : Prop :=
  m' = { m with nvErrRate := m'.nvErrRate } ∧ FloatLe m.nvErrRate m'.nvErrRate

/-- The score of the file is in range, and that of a file in which one metric is larger is not
on the wrong side of it, for all weights. -/
structure Sound (N : Numerals) (text : Text) : Prop where
  inRange : ∀ config, InRange config (computeFromStats N config (some text))
  monotone : ∀ text' m m', extractMetrics N text = some m → extractMetrics N text' = some m' →
    ∀ config p p', computeFromStats N config (some text) = .ok (some (.finite p)) →
      computeFromStats N config (some text') = .ok (some (.finite p')) →
      (Better m m' → p ≤ p') ∧ (Worse m m' → p' ≤ p)

/-- A ratio of counters: nothing is counted that is negative. -/
def RegularRatio (count total : ℤ) : Prop :=
  0 ≤ total ∧ (total ≠ 0 → 0 ≤ count ∧ (count : ℚ) / total < maxQuotient)

def RegularRate : PyFloat ℚ → Prop
  | .finite e => 0 ≤ e
  | .inf neg => neg = false
  | .nan => False

structure Metrics.Regular (m : Metrics) : Prop where
  states : RegularRatio m.securityStateNewTotal m.securityStateCapacity
  recoveries : RegularRatio m.nvRecSuccess m.nvRecTotal
  errors : RegularRate m.nvErrRate

/-! ## The terms -/

theorem one_lt_maxQuotient : 1 < maxQuotient := by
  have hpow : (2 : ℚ) ^ 1024 = 2 ^ 970 * 2 ^ 54 := (pow_add 2 970 54)
  have hone : (1 : ℚ) ≤ 2 ^ 970 := one_le_pow₀ (by norm_num)
  have htwo : (2 : ℚ) ≤ 2 ^ 54 - 1 := by norm_num
  calc (1 : ℚ) < 1 * 2 := by norm_num
    _ ≤ 2 ^ 970 * (2 ^ 54 - 1) := mul_le_mul hone htwo (by norm_num) (zero_le_one.trans hone)
    _ = maxQuotient := by rw [maxQuotient, hpow, mul_sub, mul_one]

theorem cappedRatio_of_ok {count total : ℤ} {q : ℚ} (h : cappedRatio count total = .ok q) :
    (total = 0 ∧ q = 0) ∨
      (total ≠ 0 ∧ |(count : ℚ) / total| < maxQuotient ∧ q = min 1 ((count : ℚ) / total)) := by
  unfold cappedRatio at h
  split_ifs at h with hzero hlarge
  · exact .inl ⟨hzero, (Except.ok.inj h).symm⟩
  · exact .inr ⟨hzero, not_le.mp hlarge, (Except.ok.inj h).symm⟩

theorem RegularRatio.ratio_nonneg {count total : ℤ} (h : RegularRatio count total)
    (hzero : total ≠ 0) : 0 ≤ (count : ℚ) / total :=
  div_nonneg (Int.cast_nonneg (h.2 hzero).1) (Int.cast_nonneg h.1)

theorem RegularRatio.cappedRatio_ok {count total : ℤ} (h : RegularRatio count total) :
    ∃ q, cappedRatio count total = .ok q ∧ 0 ≤ q ∧ q ≤ 1 := by
  unfold cappedRatio
  by_cases hzero : total = 0
  · rw [if_pos hzero]
    exact ⟨0, rfl, le_refl 0, zero_le_one⟩
  · have hnonneg := h.ratio_nonneg hzero
    rw [if_neg hzero, abs_of_nonneg hnonneg, if_neg (not_le.mpr (h.2 hzero).2)]
    exact ⟨_, rfl, le_min zero_le_one hnonneg, min_le_left _ _⟩

theorem cappedRatio_mono {count count' total : ℤ} (htotal : 0 ≤ total) (hle : count ≤ count')
    {q q' : ℚ} (h : cappedRatio count total = .ok q) (h' : cappedRatio count' total = .ok q') :
    q ≤ q' := by
  obtain ⟨hzero, rfl⟩ | ⟨hzero, -, rfl⟩ := cappedRatio_of_ok h
  · obtain ⟨-, rfl⟩ | ⟨hne, -⟩ := cappedRatio_of_ok h'
    · exact le_refl 0
    · exact absurd hzero hne
  · obtain ⟨hz, -⟩ | ⟨-, -, rfl⟩ := cappedRatio_of_ok h'
    · exact absurd hz hzero
    · apply min_le_min_left
      apply div_le_div_of_nonneg_right (Int.cast_le.mpr hle) (Int.cast_nonneg htotal)

theorem errTerm_finite {e : ℚ} (h : 1 + e ≠ 0) :
    errTerm (.finite e) = .ok (.finite (1 / (1 + e))) := if_neg h

theorem RegularRate.errTerm_ok {e : PyFloat ℚ} (h : RegularRate e) :
    ∃ t, errTerm e = .ok (.finite t) ∧ 0 ≤ t ∧ t ≤ 1 := by
  cases e with
  | finite x =>
    have hx : (0 : ℚ) ≤ x := h
    have hpos : 0 < 1 + x := by linarith
    rw [errTerm_finite hpos.ne']
    exact ⟨_, rfl, (one_div_pos.mpr hpos).le, (div_le_one hpos).mpr (by linarith)⟩
  | inf neg => exact ⟨0, rfl, le_refl 0, zero_le_one⟩
  | nan => exact h.elim

theorem errTerm_antitone {e e' : PyFloat ℚ} (h : RegularRate e) (hle : FloatLe e e') {t t' : ℚ}
    (ht : errTerm e = .ok (.finite t)) (ht' : errTerm e' = .ok (.finite t')) : t' ≤ t := by
  have hzero : ∀ neg u, errTerm (.inf neg) = .ok (.finite u) → u = 0 := by
    intro neg u hu
    cases hu
    rfl
  cases e' with
  | inf neg =>
    obtain ⟨u, hu, hnonneg, -⟩ := h.errTerm_ok
    rw [ht] at hu
    cases hu
    rw [hzero neg t' ht']
    exact hnonneg
  | nan => nomatch ht'
  | finite x' =>
    cases e with
    | finite x =>
      have hx : (0 : ℚ) ≤ x := h
      have hxx : x ≤ x' := hle
      rw [errTerm_finite (by linarith)] at ht ht'
      cases ht
      cases ht'
      exact one_div_le_one_div_of_le (by linarith) (by linarith)
    | inf neg =>
      have hneg : neg = false := h
      have hneg' : neg = true := hle
      exact absurd (hneg.symm.trans hneg') (by decide)
    | nan => exact h.elim

/-! ## The sum -/

theorem score_eq {config : FormalScoreConfig} {m : Metrics} {cov rRec t : ℚ}
    (hcov : computeCoverageRatio m.securityStateNewTotal m.securityStateCapacity = .ok cov)
    (hrec : computeRecoveryRate m.nvRecSuccess m.nvRecTotal = .ok rRec)
    (ht : errTerm m.nvErrRate = .ok (.finite t)) :
    m.score config =
      .ok (.finite (config.beta1 * cov + config.beta2 * t + config.beta3 * rRec)) := by
  unfold Metrics.score computeFormalScore
  rw [hcov, hrec, ht]
  rfl

theorem of_score {config : FormalScoreConfig} {m : Metrics} {p : ℚ}
    (h : m.score config = .ok (.finite p)) :
    ∃ cov rRec t,
      computeCoverageRatio m.securityStateNewTotal m.securityStateCapacity = .ok cov ∧
      computeRecoveryRate m.nvRecSuccess m.nvRecTotal = .ok rRec ∧
      errTerm m.nvErrRate = .ok (.finite t) ∧
      p = config.beta1 * cov + config.beta2 * t + config.beta3 * rRec := by
  unfold Metrics.score computeFormalScore at h
  cases hcov : computeCoverageRatio m.securityStateNewTotal m.securityStateCapacity with
  | error e =>
    rw [hcov] at h
    cases h
  | ok cov =>
    cases hrec : computeRecoveryRate m.nvRecSuccess m.nvRecTotal with
    | error e =>
      rw [hcov, hrec] at h
      cases h
    | ok rRec =>
      cases ht : errTerm m.nvErrRate with
      | error e =>
        rw [hcov, hrec, ht] at h
        cases h
      | ok x =>
        rw [hcov, hrec, ht] at h
        cases x with
        | finite t => exact ⟨cov, rRec, t, rfl, rfl, rfl, by cases h; rfl⟩
        | inf neg => cases h
        | nan => cases h

/-- Terms between 0 and 1 have a weighted sum between 0 and the sum of the weights. -/
theorem weighted_inRange (config : FormalScoreConfig) {x y z : ℚ} (hx : 0 ≤ x ∧ x ≤ 1)
    (hy : 0 ≤ y ∧ y ≤ 1) (hz : 0 ≤ z ∧ z ≤ 1) :
    0 ≤ config.beta1 * x + config.beta2 * y + config.beta3 * z ∧
      config.beta1 * x + config.beta2 * y + config.beta3 * z ≤ config.sum := by
  have h1 := mul_nonneg config.beta1_nonneg hx.1
  have h2 := mul_nonneg config.beta2_nonneg hy.1
  have h3 := mul_nonneg config.beta3_nonneg hz.1
  have h1' := mul_le_of_le_one_right config.beta1_nonneg hx.2
  have h2' := mul_le_of_le_one_right config.beta2_nonneg hy.2
  have h3' := mul_le_of_le_one_right config.beta3_nonneg hz.2
  unfold FormalScoreConfig.sum
  constructor <;> linarith

theorem computeFromStats_some {N : Numerals} {text : Text} {m : Metrics}
    (hm : extractMetrics N text = some m) (config : FormalScoreConfig) :
    computeFromStats N config (some text) = (m.score config).map some := by
  unfold computeFromStats
  rw [Option.bind_some, hm]

theorem computeFromStats_none {N : Numerals} {text : Text} (hm : extractMetrics N text = none)
    (config : FormalScoreConfig) : computeFromStats N config (some text) = .ok none := by
  unfold computeFromStats
  rw [Option.bind_some, hm]

theorem score_of_computed {N : Numerals} {text : Text} {m : Metrics}
    (hm : extractMetrics N text = some m) {config : FormalScoreConfig} {p : ℚ}
    (h : computeFromStats N config (some text) = .ok (some (.finite p))) :
    m.score config = .ok (.finite p) := by
  rw [computeFromStats_some hm] at h
  cases hscore : m.score config with
  | error e =>
    rw [hscore] at h
    cases h
  | ok x =>
    rw [hscore] at h
    cases h
    rfl

/-! ## Regular metrics -/

theorem Metrics.Regular.score {m : Metrics} (h : m.Regular) (config : FormalScoreConfig) :
    ∃ p, m.score config = .ok (.finite p) ∧ 0 ≤ p ∧ p ≤ config.sum := by
  obtain ⟨cov, hcov, hcov01⟩ := h.states.cappedRatio_ok
  obtain ⟨rRec, hrec, hrec01⟩ := h.recoveries.cappedRatio_ok
  obtain ⟨t, ht, ht01⟩ := h.errors.errTerm_ok
  exact ⟨_, score_eq hcov hrec ht, weighted_inRange config hcov01 ht01 hrec01⟩

/-- The score of metrics that differ in one term. -/
theorem Metrics.Regular.better {m m' : Metrics} (h : m.Regular) (hbetter : Better m m')
    {config : FormalScoreConfig} {p p' : ℚ} (hp : m.score config = .ok (.finite p))
    (hp' : m'.score config = .ok (.finite p')) : p ≤ p' := by
  obtain ⟨cov, rRec, t, hcov, hrec, ht, rfl⟩ := of_score hp
  obtain ⟨cov', rRec', t', hcov', hrec', ht', rfl⟩ := of_score hp'
  obtain ⟨hm, hle⟩ | ⟨hm, hle⟩ := hbetter
  · rw [hm] at hcov' hrec' ht'
    cases hrec.symm.trans hrec'
    cases ht.symm.trans ht'
    have hmono := mul_le_mul_of_nonneg_left (cappedRatio_mono h.states.1 hle hcov hcov')
      config.beta1_nonneg
    linarith
  · rw [hm] at hcov' hrec' ht'
    cases hcov.symm.trans hcov'
    cases ht.symm.trans ht'
    have hmono := mul_le_mul_of_nonneg_left (cappedRatio_mono h.recoveries.1 hle hrec hrec')
      config.beta3_nonneg
    linarith

theorem Metrics.Regular.worse {m m' : Metrics} (h : m.Regular) (hworse : Worse m m')
    {config : FormalScoreConfig} {p p' : ℚ} (hp : m.score config = .ok (.finite p))
    (hp' : m'.score config = .ok (.finite p')) : p' ≤ p := by
  obtain ⟨cov, rRec, t, hcov, hrec, ht, rfl⟩ := of_score hp
  obtain ⟨cov', rRec', t', hcov', hrec', ht', rfl⟩ := of_score hp'
  obtain ⟨hm, hle⟩ := hworse
  rw [hm] at hcov' hrec' ht'
  cases hcov.symm.trans hcov'
  cases hrec.symm.trans hrec'
  have hanti := mul_le_mul_of_nonneg_left (errTerm_antitone h.errors hle ht ht')
    config.beta2_nonneg
  linarith

theorem sound_of_regular {N : Numerals} {text : Text}
    (h : ∀ m, extractMetrics N text = some m → m.Regular) : Sound N text where
  inRange config := by
    cases hm : extractMetrics N text with
    | none =>
      rw [computeFromStats_none hm]
      trivial
    | some m =>
      obtain ⟨p, hp, hrange⟩ := (h m hm).score config
      rw [computeFromStats_some hm, hp]
      exact hrange
  monotone text' m m' hm hm' config p p' hp hp' :=
    ⟨fun hbetter => (h m hm).better hbetter (score_of_computed hm hp) (score_of_computed hm' hp'),
      fun hworse => (h m hm).worse hworse (score_of_computed hm hp) (score_of_computed hm' hp')⟩

/-! ## Files with one metric changed -/

theorem extractMetrics_append {N : Numerals} (text : Text) {line : Text}
    (hline : ∀ c ∈ line, (decide (c = 10) || decide (c = 13)) = false) :
    extractMetrics N (text ++ 10 :: line) =
      (((lines text).foldl (Found.line N) Found.empty).line N line).metrics := by
  have hlines : lines (text ++ 10 :: line) = lines text ++ [line] := by
    unfold lines
    rw [List.splitOnP_append_cons text line (by decide), List.splitOnP_eq_singleton hline]
  unfold extractMetrics
  rw [hlines, List.foldl_concat]

theorem Found.line_of_parts {N : Numerals} (m : Found) {line key value : Text}
    (hline : Unicode.strip line = key ++ 58 :: value) (hkey : 58 ∉ key) :
    m.line N line = m.set N (Unicode.strip key) (Unicode.strip value) := by
  have htake : (key ++ 58 :: value).takeWhile (· ≠ 58) = key := by
    rw [List.takeWhile_append_of_pos fun c hc => by
      simpa using fun h : c = 58 => hkey (h ▸ hc)]
    simp
  have hdrop : (key ++ 58 :: value).drop (key.length + 1) = value := by
    rw [← List.drop_drop, List.drop_left]
    rfl
  simp only [Found.line, hline, htake, hdrop]
  rw [if_neg (by simp)]

theorem Found.of_metrics {m : Found} {x : Metrics} (h : m.metrics = some x) :
    m = ⟨some x.nvErrRate, some x.nvRecTotal, some x.nvRecSuccess, some x.securityStateNewTotal,
      some x.securityStateCapacity⟩ := by
  obtain ⟨_ | err, _ | total, _ | success, _ | states, _ | capacity⟩ := m <;> cases h
  rfl

/-- A metric can be overwritten by a further line. -/
theorem extractMetrics_line {N : Numerals} {text : Text} {m : Metrics}
    (hm : extractMetrics N text = some m) (line key value : Text)
    (hline : ∀ c ∈ line, (decide (c = 10) || decide (c = 13)) = false)
    (hparts : Unicode.strip line = key ++ 58 :: value) (hkey : 58 ∉ key) :
    extractMetrics N (text ++ 10 :: line) =
      (Found.set N ⟨some m.nvErrRate, some m.nvRecTotal, some m.nvRecSuccess,
        some m.securityStateNewTotal, some m.securityStateCapacity⟩
        (Unicode.strip key) (Unicode.strip value)).metrics := by
  rw [extractMetrics_append text hline, Found.line_of_parts _ hparts hkey, Found.of_metrics hm]

theorem exists_oneState {N : Numerals} {text : Text} {m : Metrics}
    (hm : extractMetrics N text = some m) :
    ∃ text', extractMetrics N text' = some { m with securityStateNewTotal := 1 } := by
  refine ⟨_, (extractMetrics_line hm (chars "security_state_new_total:1")
    (chars "security_state_new_total") (chars "1") (by decide) (by decide) (by decide)).trans ?_⟩
  have hvalue : N.int (Unicode.strip (chars "1")) = some 1 := N.int_one
  unfold Found.set
  rw [if_neg (by decide), hvalue]
  simp only
  rw [if_neg (by decide), if_neg (by decide), if_pos (by decide)]
  rfl

theorem exists_oneRecovery {N : Numerals} {text : Text} {m : Metrics}
    (hm : extractMetrics N text = some m) :
    ∃ text', extractMetrics N text' = some { m with nvRecSuccess := 1 } := by
  refine ⟨_, (extractMetrics_line hm (chars "nv_rec_success:1") (chars "nv_rec_success")
    (chars "1") (by decide) (by decide) (by decide)).trans ?_⟩
  have hvalue : N.int (Unicode.strip (chars "1")) = some 1 := N.int_one
  unfold Found.set
  rw [if_neg (by decide), hvalue]
  simp only
  rw [if_neg (by decide), if_pos (by decide)]
  rfl

theorem exists_noError {N : Numerals} {text : Text} {m : Metrics}
    (hm : extractMetrics N text = some m) :
    ∃ text', extractMetrics N text' = some { m with nvErrRate := .finite 0 } := by
  refine ⟨_, (extractMetrics_line hm (chars "nv_err_rate:0") (chars "nv_err_rate")
    (chars "0") (by decide) (by decide) (by decide)).trans ?_⟩
  have hvalue : N.float (Unicode.strip (chars "0")) = some (.finite 0) := N.float_zero
  unfold Found.set
  rw [if_pos (by decide), hvalue]
  rfl

/-! ## Sound files -/

/-- The weights that leave one term. -/
def FormalScoreConfig.coverage : FormalScoreConfig := by
  refine ⟨1, 0, 0, ?_, ?_, ?_, ?_, ?_, ?_, ?_, ?_⟩ <;> norm_num

def FormalScoreConfig.errors : FormalScoreConfig := by
  refine ⟨0, 1, 0, ?_, ?_, ?_, ?_, ?_, ?_, ?_, ?_⟩ <;> norm_num

def FormalScoreConfig.recovery : FormalScoreConfig := by
  refine ⟨0, 0, 1, ?_, ?_, ?_, ?_, ?_, ?_, ?_, ?_⟩ <;> norm_num

theorem Sound.score {N : Numerals} {text : Text} (h : Sound N text) {m : Metrics}
    (hm : extractMetrics N text = some m) (config : FormalScoreConfig) :
    ∃ p, m.score config = .ok (.finite p) ∧ 0 ≤ p ∧ p ≤ config.sum := by
  have hrange := h.inRange config
  rw [computeFromStats_some hm] at hrange
  cases hscore : m.score config with
  | error e =>
    rw [hscore] at hrange
    exact hrange.elim
  | ok x =>
    rw [hscore] at hrange
    cases x with
    | finite p => exact ⟨p, rfl, hrange⟩
    | inf neg => exact hrange.elim
    | nan => exact hrange.elim

theorem Sound.scores {N : Numerals} {text text' : Text} (h : Sound N text) {m m' : Metrics}
    (hm : extractMetrics N text = some m) (hm' : extractMetrics N text' = some m')
    {config : FormalScoreConfig} {p p' : ℚ} (hp : m.score config = .ok (.finite p))
    (hp' : m'.score config = .ok (.finite p')) :
    (Better m m' → p ≤ p') ∧ (Worse m m' → p' ≤ p) := by
  apply h.monotone text' m m' hm hm' config p p'
  · rw [computeFromStats_some hm, hp]
    rfl
  · rw [computeFromStats_some hm', hp']
    rfl

/-- A ratio that is not negative, and not above that of a count of one. -/
theorem regularRatio_of_le {count total : ℤ} {q : ℚ} (h : cappedRatio count total = .ok q)
    (hq : 0 ≤ q)
    (hone : ∀ q', count ≤ 1 → cappedRatio 1 total = .ok q' → q ≤ q') :
    RegularRatio count total := by
  obtain ⟨rfl, -⟩ | ⟨hzero, hlt, rfl⟩ := cappedRatio_of_ok h
  · exact ⟨le_refl 0, fun hne => absurd rfl hne⟩
  · have hdiv : 0 ≤ (count : ℚ) / total := hq.trans (min_le_right _ _)
    have htotal : 0 ≤ total := by
      by_contra hneg
      have hneg' : (total : ℚ) < 0 := Int.cast_lt_zero.mpr (not_le.mp hneg)
      have hcount : count ≤ 0 := by
        by_contra hpos
        have hpos' : (0 : ℚ) < count := Int.cast_pos.mpr (not_le.mp hpos)
        exact absurd hdiv (not_le.mpr (div_neg_of_pos_of_neg hpos' hneg'))
      have hinv : (1 : ℚ) / total < 0 := div_neg_of_pos_of_neg one_pos hneg'
      have htotal' : (total : ℚ) ≤ -1 := by exact_mod_cast (show total ≤ -1 by omega)
      have hratio : cappedRatio 1 total = .ok (min 1 (1 / total)) := by
        have hone : (1 : ℚ) ≤ |(total : ℚ)| := by
          rw [abs_of_neg hneg']
          linarith
        have hsmall : |(((1 : ℤ) : ℚ)) / total| < maxQuotient := by
          rw [Int.cast_one, abs_div, abs_one]
          have hle : 1 / |(total : ℚ)| ≤ 1 := (div_le_one (by linarith)).mpr hone
          have := one_lt_maxQuotient
          linarith
        unfold cappedRatio
        rw [if_neg hzero, if_neg (not_le.mpr hsmall), Int.cast_one]
      have hle := hone _ (by omega) hratio
      have := hle.trans (min_le_right _ _)
      linarith
    refine ⟨htotal, fun _ => ⟨?_, ?_⟩⟩
    · have hpos : (0 : ℚ) < total := Int.cast_pos.mpr (lt_of_le_of_ne htotal (Ne.symm hzero))
      by_contra hneg
      have hneg' : (count : ℚ) < 0 := Int.cast_lt_zero.mpr (not_le.mp hneg)
      exact absurd hdiv (not_le.mpr (div_neg_of_neg_of_pos hneg' hpos))
    · rw [abs_of_nonneg hdiv] at hlt
      exact hlt

theorem Sound.regular_states {N : Numerals} {text : Text} (h : Sound N text) {m : Metrics}
    (hm : extractMetrics N text = some m) :
    RegularRatio m.securityStateNewTotal m.securityStateCapacity := by
  obtain ⟨p, hp, hnonneg, -⟩ := h.score hm .coverage
  obtain ⟨cov, rRec, t, hcov, hrec, ht, rfl⟩ := of_score hp
  have hsum : ∀ x : ℚ, FormalScoreConfig.coverage.beta1 * x + FormalScoreConfig.coverage.beta2 * t +
      FormalScoreConfig.coverage.beta3 * rRec = x := by
    intro x
    show 1 * x + 0 * t + 0 * rRec = x
    ring
  rw [hsum] at hnonneg hp
  refine regularRatio_of_le hcov hnonneg fun q' hle hq' => ?_
  obtain ⟨text', hm'⟩ := exists_oneState hm
  have hp' : Metrics.score .coverage { m with securityStateNewTotal := 1 } = .ok (.finite q') := by
    rw [score_eq (m := { m with securityStateNewTotal := 1 }) hq' hrec ht, hsum]
  exact (h.scores hm hm' hp hp').1 (.inl ⟨rfl, hle⟩)

theorem Sound.regular_recoveries {N : Numerals} {text : Text} (h : Sound N text) {m : Metrics}
    (hm : extractMetrics N text = some m) : RegularRatio m.nvRecSuccess m.nvRecTotal := by
  obtain ⟨p, hp, hnonneg, -⟩ := h.score hm .recovery
  obtain ⟨cov, rRec, t, hcov, hrec, ht, rfl⟩ := of_score hp
  have hsum : ∀ x : ℚ, FormalScoreConfig.recovery.beta1 * cov +
      FormalScoreConfig.recovery.beta2 * t + FormalScoreConfig.recovery.beta3 * x = x := by
    intro x
    show 0 * cov + 0 * t + 1 * x = x
    ring
  rw [hsum] at hnonneg hp
  refine regularRatio_of_le hrec hnonneg fun q' hle hq' => ?_
  obtain ⟨text', hm'⟩ := exists_oneRecovery hm
  have hp' : Metrics.score .recovery { m with nvRecSuccess := 1 } = .ok (.finite q') := by
    rw [score_eq (m := { m with nvRecSuccess := 1 }) hcov hq' ht, hsum]
  exact (h.scores hm hm' hp hp').1 (.inr ⟨rfl, hle⟩)

theorem Sound.regular_errors {N : Numerals} {text : Text} (h : Sound N text) {m : Metrics}
    (hm : extractMetrics N text = some m) : RegularRate m.nvErrRate := by
  obtain ⟨p, hp, hnonneg, hle⟩ := h.score hm .errors
  obtain ⟨cov, rRec, t, hcov, hrec, ht, rfl⟩ := of_score hp
  have hsum : ∀ x : ℚ, FormalScoreConfig.errors.beta1 * cov + FormalScoreConfig.errors.beta2 * x +
      FormalScoreConfig.errors.beta3 * rRec = x := by
    intro x
    show 0 * cov + 1 * x + 0 * rRec = x
    ring
  have hone : FormalScoreConfig.errors.sum = 1 := by
    show (0 : ℚ) + 1 + 0 = 1
    norm_num
  rw [hsum] at hnonneg hp hle
  rw [hone] at hle
  cases herr : m.nvErrRate with
  | finite e =>
    rw [herr] at ht
    show 0 ≤ e
    by_cases hzero : 1 + e = 0
    · rw [errTerm, if_pos hzero] at ht
      cases ht
    · rw [errTerm_finite hzero] at ht
      cases ht
      have hpos : 0 < 1 + e := lt_of_le_of_ne (one_div_nonneg.mp hnonneg) (Ne.symm hzero)
      have := (div_le_one hpos).mp hle
      linarith
  | inf neg =>
    rw [herr] at ht
    cases ht
    cases neg with
    | false => exact rfl
    | true =>
      obtain ⟨text', hm'⟩ := exists_noError hm
      have hp' : Metrics.score .errors { m with nvErrRate := .finite 0 } = .ok (.finite 1) := by
        have ht' : errTerm (.finite 0) = .ok (.finite 1) := by
          rw [errTerm_finite (by norm_num)]
          norm_num
        rw [score_eq (m := { m with nvErrRate := .finite 0 }) hcov hrec ht', hsum]
      have hworse : Worse m { m with nvErrRate := .finite 0 } := by
        refine ⟨rfl, ?_⟩
        rw [herr]
        exact rfl
      have hle' := (h.scores hm hm' hp hp').2 hworse
      linarith
  | nan =>
    rw [herr] at ht
    cases ht

/-- The score of a file is in range for all weights and moves with its metrics exactly if no
count or total is negative, no quotient too large for a float, and the error rate neither
negative nor a NaN. -/
theorem securityScore_sound_iff (N : Numerals) (text : Text) :
    Sound N text ↔ ∀ m, extractMetrics N text = some m → m.Regular := by
  refine ⟨fun h m hm => ?_, sound_of_regular⟩
  exact ⟨h.regular_states hm, h.regular_recoveries hm, h.regular_errors hm⟩

/-- `int` and `float` of integers in ASCII. -/
def asciiNumerals : Numerals where
  int text := if JsonCodec.isInt text then some (JsonCodec.readInt text) else none
  float text :=
    if JsonCodec.isInt text then some (.finite (JsonCodec.readInt text)) else none
  int_one := by decide
  float_zero := by
    rw [if_pos (by decide)]
    have : JsonCodec.readInt (chars "0") = 0 := by decide
    rw [this, Int.cast_zero]

/-- One recovery is subtracted. -/
def negativeRecovery : Text :=
  chars "nv_err_rate:0" ++ 10 :: (chars "nv_rec_total:1" ++ 10 :: (chars "nv_rec_success:-1" ++
    10 :: (chars "security_state_new_total:0" ++ 10 :: chars "security_state_capacity:1")))

/-- A negative count gives a negative score. -/
theorem negative_recovery_score : ¬ ∀ (N : Numerals) (text : Text), Sound N text := by
  intro h
  have hm : extractMetrics asciiNumerals negativeRecovery = some ⟨.finite 0, 1, -1, 0, 1⟩ := by
    decide
  obtain ⟨p, hp, hnonneg, -⟩ := (h asciiNumerals negativeRecovery).score hm .recovery
  obtain ⟨cov, rRec, t, -, hrec, -, rfl⟩ := of_score hp
  have hle : rRec ≤ -1 := by
    obtain ⟨hzero, -⟩ | ⟨-, -, rfl⟩ := cappedRatio_of_ok hrec
    · exact absurd hzero (by decide)
    · exact (min_le_right _ _).trans (by norm_num)
  have hsum : (0 : ℚ) ≤ 0 * cov + 0 * t + 1 * rRec := hnonneg
  linarith

end SecurityScore

end AflNv
