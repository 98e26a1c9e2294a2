import AflNv.CBase
import AflNv.Lib.JsonText
import Mathlib.Data.List.TakeWhile

/-!
# The evaluation report

`nv_write_eval_report_json` of `src/afl-fuzz-stats.c` writes the report to a temporary file, with
one call of `fputs`, `fputc` or `fprintf` for each part, and renames that file.  No call is asked
whether it wrote all of its text.

* `lines` lists the writes, those of a line together; an `Outcome` says how much of a write gets to
  the file.
* `document` is the value that the report of a state stands for.
* `renders_report`: the text of the report is read as that value, with any white space in the place
  of its line feeds.
-/

namespace AflNv.EvalReport

open AflNv.Lib AflNv.Lib.JsonCodec AflNv.Lib.Utf8 AflNv.Lib.JsonMeasure AflNv.Lib.JsonText

/-! ## The state -/

/-- `nv_target_type_t` -/
inductive TargetType where
  | unknown
  | httpApi
  | binary
  deriving DecidableEq

def TargetType.toNat : TargetType → ℕ
  | .unknown => 0
  | .httpApi => 1
  | .binary => 2

/-- `target_type_name` -/
def TargetType.name : TargetType → Text
  | .unknown => chars "unknown"
  | .httpApi => chars "http_api"
  | .binary => chars "binary"

/-- The finite doubles: `scaled k x` is the absolute value of `x` times 10 to the `k`, rounded as
`printf` rounds it. -/
structure Doubles (D : Type) where
  ofNat : ℕ → D
  div : D → D → D
  isNegative : D → Bool
  scaled : ℕ → D → ℕ

namespace Doubles

variable {D : Type} (R : Doubles D)

/-- `%0<k>u` -/
def padded (k n : ℕ) : Text :=
  List.replicate (k - (JsonCodec.showNat n).length) 48 ++ JsonCodec.showNat n

/-- `%.<k>f` -/
def fixed (k : ℕ) (x : D) : Text :=
  (if R.isNegative x then [45] else []) ++
    (JsonCodec.showNat (R.scaled k x / 10 ^ k) ++ 46 :: padded k (R.scaled k x % 10 ^ k))

/-- A quotient of counters, 0 for an empty base. -/
def rate (a b : UInt64) : D :=
  if b = 0 then R.ofNat 0 else R.div (R.ofNat a.toNat) (R.ofNat b.toNat)

end Doubles

/-- A C string in UTF-8. -/
structure CString where
  bytes : Bytes
  text : Text
  decodes : decode bytes = some text
  noNul : 0 ∉ bytes

/-- `nv_arm_t` -/
structure Arm (D : Type) where
  pulls : UInt64
  meanReward : D
  posCnt : UInt64
  sumReward : D

abbrev nvArmMax : ℕ := 3

/-- What the report reads of `afl_state_t`.  Only with a task are there strings of one. -/
structure State (D : Type) where
  nvTaskPath : Option CString
  targetType : TargetType
  targetEndpoint : Option CString
  seedSource : Option CString
  seedLocation : Option CString
  mutationScope : UInt32
  maxTestCases : UInt64
  timeBudgetSec : UInt64
  enableValidity : UInt8
  nvCovUsed : UInt32
  nvSecStateNewTotal : UInt64
  nvSecStateDeltaLast : UInt64
  nvSecStateObs : UInt64
  nvSecStateSeedCredit : UInt64
  nvCovCap : UInt32
  nvSecStateSaturated : UInt8
  nvSecStateDropped : UInt64
  nvSecStateReplays : UInt64
  nvSecStateRewardSrcSeq : UInt64
  mabC : D
  minExplore : UInt64
  totalPulls : UInt64
  coldStartPicks : UInt64
  ucbPicks : UInt64
  arms : Fin nvArmMax → Arm D
  nvMabJournalEnabled : UInt8
  nvMabJournalRecordCount : UInt64
  nvMabJournalErrorCount : UInt64
  nvMabJournalAuditInvalid : UInt8
  nvValidCnt : UInt64
  nvInvalidCnt : UInt64
  nvInvalidParseCnt : UInt64
  nvInvalidRuleCnt : UInt64
  nvInvalidRpcFailCnt : UInt64
  nvErrExec : UInt64
  nvRecTotal : UInt64
  nvRecSuccess : UInt64
  nvRecTimeSumMs : UInt64
  nvTotalValidExec : UInt64
  totalExecs : UInt64
  task_of_strings : (∀ path ∈ nvTaskPath, path.bytes = []) →
    targetEndpoint = none ∧ seedSource = none ∧ seedLocation = none

/-- What else the report depends on: the arguments `bitmap_cvg` and `edges_found`, and the variable
`NV_MAB_JOURNAL_PATH`. -/
structure Context (D : Type) where
  bitmapCvg : D
  edgesFound : UInt32
  nvMabJournalPath : Option Bytes

/-! ## The writes -/

/-- What a format prints for an argument. -/
inductive Arg (D : Type) where
  | nat (n : ℕ)
  | fixed (k : ℕ) (x : D)
  | str (s : Text)

section Writes

variable {D : Type} (R : Doubles D) (st : State D) (ctx : Context D)

def Arg.text : Arg D → Text
  | .nat n => JsonCodec.showNat n
  | .fixed k x => R.fixed k x
  | .str s => chars "\"" ++ (s ++ chars "\"")

/-- `"key": text` -/
def named (key : String) (text : Text) : Text :=
  chars "\"" ++ (chars key ++ (chars "\": " ++ text))

def field (f : String × Arg D) : Text := named f.1 (f.2.text R)

/-- The fields of an object on one line, without its braces. -/
def fields (f : String × Arg D) (fs : List (String × Arg D)) : Text :=
  field R f ++ fs.flatMap fun g => chars ", " ++ field R g

def inlineObject (f : String × Arg D) (fs : List (String × Arg D)) : Text :=
  chars "\x7b" ++ (fields R f fs ++ chars "\x7d")

/-- One byte of `nv_json_puts_escaped`. -/
def escapeByte (c : UInt8) : Bytes :=
  if c = 92 then [92, 92]
  else if c = 34 then [92, 34]
  else if c = 8 then [92, 98]
  else if c = 12 then [92, 102]
  else if c = 10 then [92, 110]
  else if c = 13 then [92, 114]
  else if c = 9 then [92, 116]
  else if c < 0x20 then
    [92, 117, 48, 48, UInt8.ofNat (JsonCodec.hexDigit (c.toNat / 16)),
      UInt8.ofNat (JsonCodec.hexDigit (c.toNat % 16))]
  else [c]

/-- `nv_json_puts_escaped` -/
def nvJsonPutsEscaped : Option Bytes → List Bytes
  | none => [encode (chars "(null)")]
  | some s => s.map escapeByte

/-- A write of a text and a line feed. -/
def line (text : Text) : List Bytes := [encode (text ++ [10])]

/-- A member of the task that is one write. -/
def argLine (key : String) (arg : Arg D) (comma : Text) : List Bytes :=
  line (chars "    " ++ (named key (arg.text R) ++ comma))

/-- A member of the task whose value is escaped. -/
def stringLine (key : String) (value : Bytes) : List Bytes :=
  [encode (chars "    " ++ named key (chars "\""))] ++ (nvJsonPutsEscaped (some value) ++
    line (chars "\","))

/-- A member of the report on one line. -/
def objectLine (key : String) (f : String × Arg D) (fs : List (String × Arg D)) (comma : Text) :
    List Bytes :=
  line (chars "  " ++ (named key (inlineObject R f fs) ++ comma))

/-- `has_nv_task` -/
def hasNvTask : Bool :=
  match st.nvTaskPath with
  | none => false
  | some path => path.bytes ≠ []

def taskSource : Text := if hasNvTask st then chars "nv_task_path" else chars "harness_only"

def sourceNote : Text :=
  if hasNvTask st then chars "Loaded from NV_TASK_PATH; AFL++ task metadata is authoritative."
  else chars ("NV_TASK_PATH was not set; AFL++ task metadata is inactive and harness/report " ++
    "artifacts are the source of task context.")

/-- A string of the task, empty without one. -/
def taskString (s : Option CString) : Bytes :=
  if hasNvTask st then (s.map CString.bytes).getD [] else []

def cov : List (String × Arg D) := [("edges_found", .nat ctx.edgesFound.toNat)]

def securityStateCov : List (String × Arg D) :=
  [("security_state_new_total", .nat st.nvSecStateNewTotal.toNat),
    ("security_state_delta_last", .nat st.nvSecStateDeltaLast.toNat),
    ("security_state_observations", .nat st.nvSecStateObs.toNat),
    ("security_state_seed_credit", .nat st.nvSecStateSeedCredit.toNat),
    ("security_state_capacity", .nat st.nvCovCap.toNat),
    ("security_state_saturated", .nat st.nvSecStateSaturated.toNat),
    ("security_state_dropped", .nat st.nvSecStateDropped.toNat),
    ("security_state_replays", .nat st.nvSecStateReplays.toNat),
    ("security_state_reward_src_seq", .nat st.nvSecStateRewardSrcSeq.toNat),
    ("state_id", .str (chars "fnv1a64(METHOD SPACE PATH | RESPONSE_CLASS)")),
    ("note", .str (chars "project security-state coverage; not AFL native edge coverage"))]

def mab : List (String × Arg D) :=
  [("min_explore", .nat st.minExplore.toNat), ("total_pulls", .nat st.totalPulls.toNat),
    ("cold_start_picks", .nat st.coldStartPicks.toNat), ("ucb_picks", .nat st.ucbPicks.toNat)]

def armFields (arm : Arm D) : List (String × Arg D) :=
  [("pulls", .nat arm.pulls.toNat), ("mean_reward", .fixed 6 arm.meanReward),
    ("sum_reward", .fixed 6 arm.sumReward), ("pos_cnt", .nat arm.posCnt.toNat)]

def armObject (a : ℕ) (arm : Arm D) : Text := inlineObject R ("arm", .nat a) (armFields arm)

/-- The write of an arm. -/
def armWrite (a : Fin nvArmMax) : Bytes :=
  encode ((if a.val ≠ 0 then chars ", " else []) ++ armObject R a.val (st.arms a))

def mabHead : Text :=
  chars "  " ++ named "mab" (chars "\x7b" ++ (fields R ("c", .fixed 6 st.mabC) (mab st) ++
    (chars ", " ++ named "arms" (chars "["))))

def mabLine : List Bytes :=
  [encode (mabHead R st)] ++ ((List.finRange nvArmMax).map (armWrite R st) ++
    line (chars "]\x7d,"))

def journalEnabled : ℕ :=
  if st.nvMabJournalEnabled ≠ 0 ∨ ctx.nvMabJournalPath.getD [] ≠ [] then 1 else 0

def mabJournal : List (String × Arg D) :=
  [("record_count", .nat st.nvMabJournalRecordCount.toNat),
    ("error_count", .nat st.nvMabJournalErrorCount.toNat),
    ("audit_invalid", .nat st.nvMabJournalAuditInvalid.toNat)]

def validity : List (String × Arg D) :=
  [("invalid_cnt", .nat st.nvInvalidCnt.toNat),
    ("invalid_rate", .fixed 6 (R.rate st.nvInvalidCnt (st.nvValidCnt + st.nvInvalidCnt))),
    ("invalid_parse_cnt", .nat st.nvInvalidParseCnt.toNat),
    ("invalid_rule_cnt", .nat st.nvInvalidRuleCnt.toNat),
    ("invalid_rpc_fail_cnt", .nat st.nvInvalidRpcFailCnt.toNat)]

def err : List (String × Arg D) :=
  [("err_rate", .fixed 6 (R.rate st.nvErrExec st.nvTotalValidExec))]

def recovery : List (String × Arg D) :=
  [("rec_success", .nat st.nvRecSuccess.toNat),
    ("rec_rate", .fixed 6 (R.rate st.nvRecSuccess st.nvRecTotal)),
    ("rec_avg_ms", .fixed 3 (R.rate st.nvRecTimeSumMs st.nvRecSuccess))]

/-- The writes, those of a line together. -/
def lines : List (List Bytes) :=
  [line (chars "\x7b"),
    line (chars "  \"task\": \x7b"),
    argLine R "source" (.str (taskSource st)) (chars ","),
    stringLine "source_note" (encode (sourceNote st)),
    stringLine "nv_task_path" (taskString st st.nvTaskPath),
    argLine R "target_type_name" (.str st.targetType.name) (chars ","),
    argLine R "target_type" (.nat st.targetType.toNat) (chars ","),
    stringLine "target_endpoint" (taskString st st.targetEndpoint),
    stringLine "seed_source" (taskString st st.seedSource),
    stringLine "seed_location" (taskString st st.seedLocation),
    argLine R "mutation_scope" (.nat st.mutationScope.toNat) (chars ","),
    argLine R "max_test_cases" (.nat st.maxTestCases.toNat) (chars ","),
    argLine R "time_budget_sec" (.nat st.timeBudgetSec.toNat) (chars ","),
    argLine R "enable_validity" (.nat st.enableValidity.toNat) [],
    line (chars "  \x7d,"),
    objectLine R "cov" ("bitmap_cvg", .fixed 6 ctx.bitmapCvg) (cov ctx) (chars ","),
    objectLine R "security_state_cov" ("security_state_total", .nat st.nvCovUsed.toNat)
      (securityStateCov st) (chars ","),
    mabLine R st,
    objectLine R "mab_journal" ("enabled", .nat (journalEnabled st ctx)) (mabJournal st)
      (chars ","),
    objectLine R "validity" ("valid_cnt", .nat st.nvValidCnt.toNat) (validity R st) (chars ","),
    objectLine R "err" ("err_exec", .nat st.nvErrExec.toNat) (err R st) (chars ","),
    objectLine R "rec" ("rec_total", .nat st.nvRecTotal.toNat) (recovery R st) (chars ","),
    objectLine R "exec" ("valid_exec", .nat st.nvTotalValidExec.toNat)
      [("total_execs", .nat st.totalExecs.toNat)] [],
    line (chars "\x7d")]

def writes : List Bytes := (lines R st ctx).flatten

end Writes

/-! ## The files -/

/-- How much of a write gets to the file. -/
inductive Outcome where
  | complete
  | short (n : ℕ)
  | failed
  deriving DecidableEq

def Outcome.kept : Outcome → Bytes → Bytes
  | .complete, t => t
  | .short n, t => t.take n
  | .failed, _ => []

/-- What is left of the writes from the `i`th one on. -/
def surviving (outcome : ℕ → Outcome) : ℕ → List Bytes → List Bytes
  | _, [] => []
  | i, t :: ts => (outcome i).kept t :: surviving outcome (i + 1) ts

/-- How the calls end. -/
structure Calls where
  opened : Bool
  outcome : ℕ → Outcome
  renamed : Bool

/-- `eval_report.json` and `.eval_report_tmp.json`. -/
structure Files where
  report : Option Bytes
  temporary : Option Bytes

/-- `nv_write_eval_report_json` -/
def nvWriteEvalReportJson {D : Type} (R : Doubles D) (calls : Calls) (st : State D)
    (ctx : Context D) (files : Files) : Files :=
  if calls.opened then
    let written := (surviving calls.outcome 0 (writes R st ctx)).flatten
    if calls.renamed then ⟨some written, none⟩ else { files with temporary := some written }
  else files

/-! ## What the report stands for -/

section Document

variable {D F : Type} (N : Floats F) (R : Doubles D) (st : State D) (ctx : Context D)

def Arg.value : Arg D → Value F
  | .nat n => .int n
  | .fixed k x => .float (N.read (R.fixed k x))
  | .str s => .str s

def fieldValue (f : String × Arg D) : Text × Value F := (chars f.1, f.2.value N R)

def objectValue (f : String × Arg D) (fs : List (String × Arg D)) : Value F :=
  .dict (fieldValue N R f :: fs.map (fieldValue N R))

def CString.textOf (s : Option CString) : Text := (s.map CString.text).getD []

/-- The strings, the counters and the statistics of the state. -/
def document : Value F := .dict
  [(chars "task", .dict
      [(chars "source", .str (taskSource st)),
        (chars "source_note", .str (sourceNote st)),
        (chars "nv_task_path", .str (CString.textOf st.nvTaskPath)),
        (chars "target_type_name", .str st.targetType.name),
        (chars "target_type", .int st.targetType.toNat),
        (chars "target_endpoint", .str (CString.textOf st.targetEndpoint)),
        (chars "seed_source", .str (CString.textOf st.seedSource)),
        (chars "seed_location", .str (CString.textOf st.seedLocation)),
        (chars "mutation_scope", .int st.mutationScope.toNat),
        (chars "max_test_cases", .int st.maxTestCases.toNat),
        (chars "time_budget_sec", .int st.timeBudgetSec.toNat),
        (chars "enable_validity", .int st.enableValidity.toNat)]),
    (chars "cov", objectValue N R ("bitmap_cvg", .fixed 6 ctx.bitmapCvg) (cov ctx)),
    (chars "security_state_cov",
      objectValue N R ("security_state_total", .nat st.nvCovUsed.toNat) (securityStateCov st)),
    (chars "mab", .dict (fieldValue N R ("c", .fixed 6 st.mabC) ::
      ((mab st).map (fieldValue N R) ++ [(chars "arms", .list ((List.finRange nvArmMax).map fun a =>
        objectValue N R ("arm", .nat a.val) (armFields (st.arms a))))]))),
    (chars "mab_journal",
      objectValue N R ("enabled", .nat (journalEnabled st ctx)) (mabJournal st)),
    (chars "validity", objectValue N R ("valid_cnt", .nat st.nvValidCnt.toNat) (validity R st)),
    (chars "err", objectValue N R ("err_exec", .nat st.nvErrExec.toNat) (err R st)),
    (chars "rec", objectValue N R ("rec_total", .nat st.nvRecTotal.toNat) (recovery R st)),
    (chars "exec", objectValue N R ("valid_exec", .nat st.nvTotalValidExec.toNat)
      [("total_execs", .nat st.totalExecs.toNat)])]

/-- The value of a file. -/
def readReport (bytes : Bytes) : Option (Value F) := (decode bytes).bind (JsonCodec.read N)

end Document

/-! ## Texts without escapes -/

/-- Printable ASCII without a backslash. -/
def Fit (text : Text) : Prop := ∀ c ∈ text, 32 ≤ c ∧ c ≤ 126 ∧ c ≠ 92

instance (text : Text) : Decidable (Fit text) :=
  inferInstanceAs (Decidable (∀ c ∈ text, 32 ≤ c ∧ c ≤ 126 ∧ c ≠ 92))

theorem Fit.append {a b : Text} (ha : Fit a) (hb : Fit b) : Fit (a ++ b) :=
  List.forall_mem_append.mpr ⟨ha, hb⟩

/-- A text that stands in a string as it is. -/
def Clean (text : Text) : Prop := Fit text ∧ 34 ∉ text

instance (text : Text) : Decidable (Clean text) :=
  inferInstanceAs (Decidable (Fit text ∧ 34 ∉ text))

theorem Clean.scalar {text : Text} (h : Clean text) : ∀ c ∈ text, Scalar c := by
  intro c hc
  have hbounds := h.1 c hc
  exact .inl (by omega)

theorem Clean.quote_eq {text : Text} (h : Clean text) :
    quote plain text = 34 :: (text ++ [34]) := by
  have hescape : text.flatMap (escape plain) = text := by
    obtain ⟨hfit, hquote⟩ := h
    induction text with
    | nil => rfl
    | cons c text ih =>
      obtain ⟨⟨hlo, -, hslash⟩, htail⟩ := List.forall_mem_cons.mp hfit
      rw [List.mem_cons, not_or] at hquote
      rw [List.flatMap_cons, escape_plain (Ne.symm hquote.1) hslash hlo, ih htail hquote.2]
      rfl
  rw [quote, hescape]

theorem fit_showNat (n : ℕ) : Fit (JsonCodec.showNat n) := by
  intro c hc
  have hdigit := isDigit_iff.mp (JsonCodec.showNat_isDigit hc)
  omega

/-! ## Numbers -/

section Fixed

variable {D F : Type} (R : Doubles D)

theorem padded_digits (k n : ℕ) : isDigits (Doubles.padded k n) = true := by
  have hne : Doubles.padded k n ≠ [] := by
    rw [Doubles.padded]
    exact List.append_ne_nil_of_right_ne_nil _ (JsonCodec.showNat_ne_nil n)
  simp only [isDigits, Bool.and_eq_true, decide_eq_true_eq, List.all_eq_true]
  refine ⟨hne, fun c hc => ?_⟩
  rcases List.mem_append.mp hc with hc | hc
  · rw [(List.mem_replicate.mp hc).2]
    rfl
  · exact JsonCodec.showNat_isDigit hc

/-- The part in front of the point. -/
def whole (k : ℕ) (x : D) : Text :=
  (if R.isNegative x then [45] else []) ++ JsonCodec.showNat (R.scaled k x / 10 ^ k)

theorem fixed_eq (k : ℕ) (x : D) : R.fixed k x =
    whole R k x ++ 46 :: Doubles.padded k (R.scaled k x % 10 ^ k) := by
  rw [Doubles.fixed, whole, List.append_assoc]

theorem isInt_whole (k : ℕ) (x : D) : isInt (whole R k x) = true := by
  rw [whole]
  generalize R.scaled k x / 10 ^ k = n
  have hplain : isInt (JsonCodec.showNat n) = true := JsonCodec.isInt_showInt (.ofNat n)
  split
  · rw [isInt, if_neg (JsonCodec.unsigned_showNat n)] at hplain
    exact hplain
  · exact hplain

theorem mem_whole {k : ℕ} {x : D} {c : ℕ} (hc : c ∈ whole R k x) : c = 45 ∨ isDigit c = true := by
  rcases List.mem_append.mp hc with hc | hc
  · split at hc
    · exact .inl (List.mem_singleton.mp hc)
    · exact absurd hc List.not_mem_nil
  · exact .inr (JsonCodec.showNat_isDigit hc)

theorem mem_fixed {k : ℕ} {x : D} {c : ℕ} (hc : c ∈ R.fixed k x) :
    c = 45 ∨ c = 46 ∨ 48 ≤ c ∧ c ≤ 57 := by
  rw [fixed_eq, List.mem_append, List.mem_cons] at hc
  rcases hc with hc | hc | hc
  · exact (mem_whole R hc).imp_right fun h => .inr (isDigit_iff.mp h)
  · exact .inr (.inl hc)
  · have hdigits := padded_digits k (R.scaled k x % 10 ^ k)
    simp only [isDigits, Bool.and_eq_true, List.all_eq_true] at hdigits
    exact .inr (.inr (isDigit_iff.mp (hdigits.2 c hc)))

theorem fixed_chars (k : ℕ) (x : D) : ∀ c ∈ R.fixed k x, isNumberChar c = true := by
  intro c hc
  have hc := mem_fixed R hc
  simp only [isNumberChar, isDigit, Bool.or_eq_true, Bool.and_eq_true, decide_eq_true_eq]
  omega

theorem fit_fixed (k : ℕ) (x : D) : Fit (R.fixed k x) := by
  intro c hc
  have hc := mem_fixed R hc
  omega

theorem isInt_fixed (k : ℕ) (x : D) : isInt (R.fixed k x) = false := by
  have hpoint : 46 ∈ R.fixed k x := by
    rw [fixed_eq]
    exact List.mem_append_right _ List.mem_cons_self
  rw [Bool.eq_false_iff]
  intro h
  simp only [isInt, isDigits, Bool.and_eq_true, List.all_eq_true] at h
  have hdigit : isDigit 46 = true := by
    apply h.1.2 46
    split
    · next hhead =>
      cases htext : R.fixed k x with
      | nil =>
        rw [htext] at hpoint
        exact hpoint
      | cons c text =>
        rw [htext] at hpoint hhead
        rcases List.mem_cons.mp hpoint with rfl | hmem
        · cases hhead
        · exact hmem
    · exact hpoint
  exact absurd hdigit (by decide)

theorem fixed_isFloat (k : ℕ) (x : D) : isFloat (R.fixed k x) = true := by
  have hmantissa : (R.fixed k x).takeWhile (fun c => c ≠ 101 && c ≠ 69) = R.fixed k x := by
    refine List.takeWhile_eq_self_iff.mpr fun c hc => ?_
    have hc := mem_fixed R hc
    simp only [Bool.and_eq_true, decide_eq_true_eq]
    omega
  have hpoint : (R.fixed k x).takeWhile (· ≠ 46) = whole R k x := by
    rw [fixed_eq, List.takeWhile_append_of_pos, List.takeWhile_cons_of_neg (by decide),
      List.append_nil]
    intro c hc
    rw [decide_eq_true_eq]
    rcases mem_whole R hc with rfl | hdigit
    · decide
    · have hbounds := isDigit_iff.mp hdigit
      omega
  have hrest : (R.fixed k x).drop (whole R k x).length =
      46 :: Doubles.padded k (R.scaled k x % 10 ^ k) := by
    rw [fixed_eq, List.drop_left]
  rw [isFloat, hmantissa]
  simp only [hpoint, hrest, isInt_whole, isInt_fixed, isFraction, padded_digits, List.drop_length,
    isExponent, Bool.not_false, Bool.and_self]

end Fixed

/-! ## The document -/

section Renders

variable {D F : Type} (N : Floats F) (R : Doubles D)

def Arg.Clean : Arg D → Prop
  | .str s => EvalReport.Clean s
  | .nat _ | .fixed _ _ => True

theorem renders_arg {arg : Arg D} (h : arg.Clean) : Renders N (arg.value N R) (arg.text R) := by
  cases arg with
  | nat n => exact renders_nat N n
  | fixed k x => exact renders_float N (fixed_chars R k x) (fixed_isFloat R k x)
  | str s =>
    have hstr := renders_str N h.scalar
    rwa [h.quote_eq] at hstr

theorem fit_arg {arg : Arg D} (h : arg.Clean) : Fit (arg.text R) := by
  cases arg with
  | nat n => exact fit_showNat n
  | fixed k x => exact fit_fixed R k x
  | str s => exact Fit.append (by decide) (Fit.append h.1 (by decide))

theorem named_eq {key : String} (h : Clean (chars key)) (text : Text) :
    named key text = quote plain (chars key) ++ 58 :: 32 :: text := by
  rw [h.quote_eq, named]
  simp only [List.cons_append, List.append_assoc, List.nil_append]
  rfl

theorem shown_named {key : String} (h : Clean (chars key)) (gap text : Text) (v : Value F) :
    (⟨gap, chars key, text, v⟩ : Member F).shown = gap ++ named key text := by
  rw [Member.shown, named_eq h]

/-- The fields of an object on one line. -/
structure Fields (f : String × Arg D) (fs : List (String × Arg D)) : Prop where
  keys : ∀ key ∈ (f :: fs).map Prod.fst, Clean (chars key)
  args : ∀ g ∈ f :: fs, g.2.Clean
  nodup : (((f :: fs).map Prod.fst).map chars).Nodup

theorem Fields.key {f : String × Arg D} {fs : List (String × Arg D)} (h : Fields f fs) :
    ∀ g ∈ f :: fs, Clean (chars g.1) := fun _ hg => h.keys _ (List.mem_map_of_mem hg)

def fieldMember (gap : Text) (f : String × Arg D) : Member F :=
  ⟨gap, chars f.1, f.2.text R, f.2.value N R⟩

theorem ok_fieldMember {gap : Text} (hgap : ∀ c ∈ gap, isWs c = true) {f : String × Arg D}
    (hkey : Clean (chars f.1)) (harg : f.2.Clean) : (fieldMember N R gap f).Ok N :=
  ⟨hgap, hkey.scalar, renders_arg N R harg⟩

theorem moreText_fields {fs : List (String × Arg D)} (hkeys : ∀ g ∈ fs, Clean (chars g.1))
    (last : Text) : moreText last (fs.map (fieldMember N R [32])) =
      (fs.flatMap fun g => chars ", " ++ field R g) ++ (last ++ [125]) := by
  induction fs with
  | nil => rfl
  | cons g fs ih =>
    obtain ⟨hkey, hkeys⟩ := List.forall_mem_cons.mp hkeys
    rw [List.map_cons, moreText, ih hkeys, List.flatMap_cons, fieldMember, shown_named hkey, field]
    simp only [List.append_assoc, List.cons_append, List.nil_append]
    rfl

theorem renders_inline {f : String × Arg D} {fs : List (String × Arg D)} (h : Fields f fs) :
    Renders N (objectValue N R f fs) (inlineObject R f fs) := by
  obtain ⟨hkey, hkeys⟩ := List.forall_mem_cons.mp h.key
  obtain ⟨harg, hargs⟩ := List.forall_mem_cons.mp h.args
  have hok : ∀ m ∈ fieldMember N R [] f :: fs.map (fieldMember N R [32]), m.Ok N := by
    refine List.forall_mem_cons.mpr ⟨ok_fieldMember N R (by decide) hkey harg, fun m hm => ?_⟩
    obtain ⟨g, hg, rfl⟩ := List.mem_map.mp hm
    exact ok_fieldMember N R (by decide) (hkeys g hg) (hargs g hg)
  have hnodup : ((fieldMember N R [] f :: fs.map (fieldMember N R [32])).map
      Member.key).Nodup := by
    have hkeys := h.nodup
    rw [List.map_cons, List.map_cons, List.map_map] at hkeys
    rw [List.map_cons, List.map_map]
    exact hkeys
  have hnil : ∀ c ∈ ([] : Text), isWs c = true := fun _ h => absurd h List.not_mem_nil
  have hrenders := renders_object hnil hok hnodup
  have hvalue : (fieldMember N R [] f :: fs.map (fieldMember N R [32])).map Member.pair =
      fieldValue N R f :: fs.map (fieldValue N R) := by
    rw [List.map_cons, List.map_map]
    rfl
  have htext : objectText (fieldMember N R [] f) (fs.map (fieldMember N R [32])) [] =
      inlineObject R f fs := by
    rw [objectText, moreText_fields N R hkeys, fieldMember, shown_named hkey, inlineObject, fields]
    simp only [field, List.nil_append, List.append_assoc]
    rfl
  rwa [hvalue, htext] at hrenders

theorem fit_named {key : String} {text : Text} (hkey : Clean (chars key)) (htext : Fit text) :
    Fit (named key text) :=
  Fit.append (by decide) (Fit.append hkey.1 (Fit.append (by decide) htext))

theorem fit_fields {f : String × Arg D} {fs : List (String × Arg D)} (h : Fields f fs) :
    Fit (fields R f fs) := by
  have hfield : ∀ g ∈ f :: fs, Fit (field R g) := fun g hg =>
    fit_named (h.key g hg) (fit_arg R (h.args g hg))
  refine Fit.append (hfield f List.mem_cons_self) fun c hc => ?_
  obtain ⟨g, hg, hc⟩ := List.mem_flatMap.mp hc
  exact Fit.append (by decide) (hfield g (List.mem_cons_of_mem f hg)) c hc

theorem fit_inline {f : String × Arg D} {fs : List (String × Arg D)} (h : Fields f fs) :
    Fit (inlineObject R f fs) := Fit.append (by decide) (Fit.append (fit_fields R h) (by decide))

end Renders

section Cores

variable {D F : Type} (N : Floats F) (R : Doubles D) (st : State D) (ctx : Context D)

/-! The lines without their line feeds, and the report with any white space in their place. -/

def argCore (key : String) (arg : Arg D) (comma : Text) : Text :=
  chars "    " ++ (named key (arg.text R) ++ comma)

def stringCore (key : String) (s : Text) : Text :=
  chars "    " ++ (named key (quote plain s) ++ chars ",")

def objectCore (key : String) (f : String × Arg D) (fs : List (String × Arg D)) (comma : Text) :
    Text :=
  chars "  " ++ (named key (inlineObject R f fs) ++ comma)

def armsText : Text :=
  (List.finRange nvArmMax).flatMap fun a =>
    (if a.val ≠ 0 then chars ", " else []) ++ armObject R a.val (st.arms a)

def mabCore : Text := mabHead R st ++ (armsText R st ++ chars "]\x7d,")

def cores : List Text :=
  [chars "\x7b",
    chars "  \"task\": \x7b",
    argCore R "source" (.str (taskSource st)) (chars ","),
    stringCore "source_note" (sourceNote st),
    stringCore "nv_task_path" (CString.textOf st.nvTaskPath),
    argCore R "target_type_name" (.str st.targetType.name) (chars ","),
    argCore R "target_type" (.nat st.targetType.toNat) (chars ","),
    stringCore "target_endpoint" (CString.textOf st.targetEndpoint),
    stringCore "seed_source" (CString.textOf st.seedSource),
    stringCore "seed_location" (CString.textOf st.seedLocation),
    argCore R "mutation_scope" (.nat st.mutationScope.toNat) (chars ","),
    argCore R "max_test_cases" (.nat st.maxTestCases.toNat) (chars ","),
    argCore R "time_budget_sec" (.nat st.timeBudgetSec.toNat) (chars ","),
    argCore R "enable_validity" (.nat st.enableValidity.toNat) [],
    chars "  \x7d,",
    objectCore R "cov" ("bitmap_cvg", .fixed 6 ctx.bitmapCvg) (cov ctx) (chars ","),
    objectCore R "security_state_cov" ("security_state_total", .nat st.nvCovUsed.toNat)
      (securityStateCov st) (chars ","),
    mabCore R st,
    objectCore R "mab_journal" ("enabled", .nat (journalEnabled st ctx)) (mabJournal st)
      (chars ","),
    objectCore R "validity" ("valid_cnt", .nat st.nvValidCnt.toNat) (validity R st) (chars ","),
    objectCore R "err" ("err_exec", .nat st.nvErrExec.toNat) (err R st) (chars ","),
    objectCore R "rec" ("rec_total", .nat st.nvRecTotal.toNat) (recovery R st) (chars ","),
    objectCore R "exec" ("valid_exec", .nat st.nvTotalValidExec.toNat)
      [("total_execs", .nat st.totalExecs.toNat)] [],
    chars "\x7d"]

/-- The lines, each with what stands for its line feed. -/
def joined : (ℕ → Text) → List Text → Text
  | _, [] => []
  | nl, core :: cores => core ++ (nl 0 ++ joined (fun i => nl (i + 1)) cores)

variable (nl : ℕ → Text)

def argMember (i : ℕ) (key : String) (arg : Arg D) : Member F :=
  fieldMember N R (nl i ++ chars "    ") (key, arg)

def stringMember (i : ℕ) (key : String) (s : Text) : Member F :=
  ⟨nl i ++ chars "    ", chars key, quote plain s, .str s⟩

def objectMember (i : ℕ) (key : String) (f : String × Arg D) (fs : List (String × Arg D)) :
    Member F :=
  ⟨nl i ++ chars "  ", chars key, inlineObject R f fs, objectValue N R f fs⟩

def taskMembers : List (Member F) :=
  [stringMember nl 2 "source_note" (sourceNote st),
    stringMember nl 3 "nv_task_path" (CString.textOf st.nvTaskPath),
    argMember N R nl 4 "target_type_name" (.str st.targetType.name),
    argMember N R nl 5 "target_type" (.nat st.targetType.toNat),
    stringMember nl 6 "target_endpoint" (CString.textOf st.targetEndpoint),
    stringMember nl 7 "seed_source" (CString.textOf st.seedSource),
    stringMember nl 8 "seed_location" (CString.textOf st.seedLocation),
    argMember N R nl 9 "mutation_scope" (.nat st.mutationScope.toNat),
    argMember N R nl 10 "max_test_cases" (.nat st.maxTestCases.toNat),
    argMember N R nl 11 "time_budget_sec" (.nat st.timeBudgetSec.toNat),
    argMember N R nl 12 "enable_validity" (.nat st.enableValidity.toNat)]

def sourceMember : Member F := argMember N R nl 1 "source" (.str (taskSource st))

def taskMember : Member F :=
  ⟨nl 0 ++ chars "  ", chars "task",
    objectText (sourceMember N R st nl) (taskMembers N R st nl) (nl 13 ++ chars "  "),
    .dict ((sourceMember N R st nl :: taskMembers N R st nl).map Member.pair)⟩

def armItem (a : Fin nvArmMax) : Text × Value F :=
  (armObject R a.val (st.arms a), objectValue N R ("arm", .nat a.val) (armFields (st.arms a)))

local instance : NeZero nvArmMax := ⟨by decide⟩

def armsMember : Member F :=
  ⟨[32], chars "arms", arrayText (armItem N R st 0) [armItem N R st 1, armItem N R st 2],
    .list ([armItem N R st 0, armItem N R st 1, armItem N R st 2].map Prod.snd)⟩

def mabMembers : List (Member F) :=
  (mab st).map (fieldMember N R [32]) ++ [armsMember N R st]

def mabMember : Member F :=
  ⟨nl 16 ++ chars "  ", chars "mab",
    objectText (fieldMember N R [] ("c", .fixed 6 st.mabC)) (mabMembers N R st) [],
    .dict ((fieldMember N R [] ("c", .fixed 6 st.mabC) :: mabMembers N R st).map Member.pair)⟩

def reportMembers : List (Member F) :=
  [objectMember N R nl 14 "cov" ("bitmap_cvg", .fixed 6 ctx.bitmapCvg) (cov ctx),
    objectMember N R nl 15 "security_state_cov"
      ("security_state_total", .nat st.nvCovUsed.toNat) (securityStateCov st),
    mabMember N R st nl,
    objectMember N R nl 17 "mab_journal" ("enabled", .nat (journalEnabled st ctx)) (mabJournal st),
    objectMember N R nl 18 "validity" ("valid_cnt", .nat st.nvValidCnt.toNat) (validity R st),
    objectMember N R nl 19 "err" ("err_exec", .nat st.nvErrExec.toNat) (err R st),
    objectMember N R nl 20 "rec" ("rec_total", .nat st.nvRecTotal.toNat) (recovery R st),
    objectMember N R nl 21 "exec" ("valid_exec", .nat st.nvTotalValidExec.toNat)
      [("total_execs", .nat st.totalExecs.toNat)]]

def reportText : Text := objectText (taskMember N R st nl) (reportMembers N R st ctx nl) (nl 22)

theorem document_eq : document N R st ctx =
    .dict ((taskMember N R st nl :: reportMembers N R st ctx nl).map Member.pair) := by
  simp only [document, taskMember, reportMembers, sourceMember, taskMembers, argMember,
    stringMember, objectMember, mabMember, mabMembers, armsMember, List.map_cons, List.map_nil,
    List.map_append, List.map_map, Member.pair, fieldMember, fieldValue, Arg.value]
  rfl

theorem arms_eq : arrayText (armItem N R st 0) [armItem N R st 1, armItem N R st 2] =
    chars "[" ++ (armsText R st ++ chars "]") := by
  have hrange : List.finRange nvArmMax = [0, 1, 2] := by decide
  rw [armsText, hrange]
  simp only [arrayText, moreItemsText, armItem, List.flatMap_cons, List.flatMap_nil,
    List.append_assoc, List.append_nil]
  rfl

/-- The text of the member `mab`, as it is written. -/
def mabText : Text :=
  chars "\x7b" ++ (fields R ("c", .fixed 6 st.mabC) (mab st) ++
    (chars ", " ++ named "arms" (chars "[" ++ (armsText R st ++ chars "]\x7d"))))

theorem mabMember_text : objectText (fieldMember N R [] ("c", .fixed 6 st.mabC))
    (mabMembers N R st) [] = mabText R st := by
  simp only [objectText, mabMembers, armsMember, mab, List.map_cons, List.map_nil,
    List.cons_append, List.nil_append, moreText, fieldMember, arms_eq]
  simp (disch := decide) only [shown_named]
  simp only [mabText, fields, field, mab, List.flatMap_cons, List.flatMap_nil, List.append_assoc,
    List.nil_append, List.append_nil]
  have hopen : chars "\x7b" = [123] := by decide
  have hcomma : chars ", " = [44, 32] := by decide
  have hend : chars "]\x7d" = chars "]" ++ [125] := by decide
  rw [hopen, hcomma, hend]
  simp only [named, List.append_assoc, List.cons_append, List.nil_append]

theorem mabMember_eq : mabMember N R st nl = ⟨nl 16 ++ chars "  ", chars "mab", mabText R st,
    .dict ((fieldMember N R [] ("c", .fixed 6 st.mabC) :: mabMembers N R st).map Member.pair)⟩ := by
  rw [mabMember, mabMember_text]

theorem mabCore_eq : mabCore R st = chars "  " ++ (named "mab" (mabText R st) ++ chars ",") := by
  have hend : chars "]\x7d," = chars "]\x7d" ++ chars "," := by decide
  simp only [mabCore, mabHead, mabText, hend, named, List.append_assoc]

theorem joined_cores : joined nl (cores R st ctx) = reportText N R st ctx nl ++ nl 23 := by
  simp only [cores, joined, reportText, objectText, taskMember, reportMembers, sourceMember,
    taskMembers, argMember, stringMember, objectMember, moreText, argCore, stringCore, objectCore,
    fieldMember, mabMember_eq, mabCore_eq]
  simp (disch := decide) only [shown_named]
  have hopen : chars "\x7b" = [123] := by decide
  have hclose : chars "\x7d" = [125] := by decide
  have hcomma : chars "," = [44] := by decide
  have htask : chars "  \"task\": \x7b" = chars "  " ++ named "task" [123] := by decide
  have hend : chars "  \x7d," = chars "  " ++ [125, 44] := by decide
  have hname : ∀ text, named "task" text = named "task" [] ++ text := fun text => rfl
  rw [hopen, hclose, hcomma, htask, hend, hname [123], hname (123 :: _)]
  simp only [List.append_assoc, List.cons_append, List.nil_append, List.append_nil]

theorem ws_gap {nl : ℕ → Text} (hnl : ∀ i, ∀ c ∈ nl i, isWs c = true) (i : ℕ) (blanks : String)
    (hblanks : ∀ c ∈ chars blanks, isWs c = true) : ∀ c ∈ nl i ++ chars blanks, isWs c = true :=
  List.forall_mem_append.mpr ⟨hnl i, hblanks⟩

theorem clean_taskSource : Clean (taskSource st) := by
  rw [taskSource]
  split <;> decide

theorem clean_name (t : TargetType) : Clean t.name := by
  cases t <;> decide

set_option maxRecDepth 4000 in
theorem scalar_sourceNote : ∀ c ∈ sourceNote st, Scalar c := by
  rw [sourceNote]
  split <;> decide +kernel

theorem scalar_textOf (s : Option CString) : ∀ c ∈ CString.textOf s, Scalar c := by
  cases s with
  | none => exact fun c hc => absurd hc List.not_mem_nil
  | some s => exact (decode_eq_some s.decodes).1

variable {nl} in
theorem ok_argMember (hnl : ∀ i, ∀ c ∈ nl i, isWs c = true) (i : ℕ) {key : String} {arg : Arg D}
    (hkey : Clean (chars key)) (harg : arg.Clean) : (argMember N R nl i key arg).Ok N :=
  ok_fieldMember N R (ws_gap hnl i "    " (by decide)) hkey harg

variable {nl} in
theorem ok_stringMember (hnl : ∀ i, ∀ c ∈ nl i, isWs c = true) (i : ℕ) {key : String} {s : Text}
    (hkey : Clean (chars key)) (hs : ∀ c ∈ s, Scalar c) :
    (stringMember nl i key s : Member F).Ok N :=
  ⟨ws_gap hnl i "    " (by decide), hkey.scalar, renders_str N hs⟩

variable {nl} in
theorem ok_objectMember (hnl : ∀ i, ∀ c ∈ nl i, isWs c = true) (i : ℕ) {key : String}
    {f : String × Arg D} {fs : List (String × Arg D)} (hkey : Clean (chars key))
    (h : Fields f fs) : (objectMember N R nl i key f fs).Ok N :=
  ⟨ws_gap hnl i "  " (by decide), hkey.scalar, renders_inline N R h⟩

theorem fields_cov : Fields ("bitmap_cvg", .fixed 6 ctx.bitmapCvg) (cov ctx) := by
  refine ⟨?_, ?_, ?_⟩
  · simp only [cov, List.map_cons, List.map_nil]
    decide
  · simp [cov, Arg.Clean]
  · simp only [cov, List.map_cons, List.map_nil]
    decide

set_option maxRecDepth 4000 in
theorem fields_securityStateCov :
    Fields ("security_state_total", .nat st.nvCovUsed.toNat) (securityStateCov st) := by
  refine ⟨?_, ?_, ?_⟩
  · simp only [securityStateCov, List.map_cons, List.map_nil]
    decide +kernel
  · simp only [securityStateCov, List.forall_mem_cons, Arg.Clean, List.not_mem_nil]
    exact ⟨trivial, trivial, trivial, trivial, trivial, trivial, trivial, trivial, trivial,
      trivial, by decide, by decide, fun _ h => h.elim⟩
  · simp only [securityStateCov, List.map_cons, List.map_nil]
    decide

theorem fields_mab : Fields ("c", .fixed 6 st.mabC) (mab st) := by
  refine ⟨?_, ?_, ?_⟩
  · simp only [mab, List.map_cons, List.map_nil]
    decide
  · simp [mab, Arg.Clean]
  · simp only [mab, List.map_cons, List.map_nil]
    decide

theorem fields_arm (a : ℕ) (arm : Arm D) : Fields ("arm", .nat a) (armFields arm) := by
  refine ⟨?_, ?_, ?_⟩
  · simp only [armFields, List.map_cons, List.map_nil]
    decide
  · simp [armFields, Arg.Clean]
  · simp only [armFields, List.map_cons, List.map_nil]
    decide

theorem fields_mabJournal :
    Fields ("enabled", .nat (journalEnabled st ctx)) (mabJournal st) := by
  refine ⟨?_, ?_, ?_⟩
  · simp only [mabJournal, List.map_cons, List.map_nil]
    decide
  · simp [mabJournal, Arg.Clean]
  · simp only [mabJournal, List.map_cons, List.map_nil]
    decide

theorem fields_validity : Fields ("valid_cnt", .nat st.nvValidCnt.toNat) (validity R st) := by
  refine ⟨?_, ?_, ?_⟩
  · simp only [validity, List.map_cons, List.map_nil]
    decide
  · simp [validity, Arg.Clean]
  · simp only [validity, List.map_cons, List.map_nil]
    decide

theorem fields_err : Fields ("err_exec", .nat st.nvErrExec.toNat) (err R st) := by
  refine ⟨?_, ?_, ?_⟩
  · simp only [err, List.map_cons, List.map_nil]
    decide
  · simp [err, Arg.Clean]
  · simp only [err, List.map_cons, List.map_nil]
    decide

theorem fields_recovery : Fields ("rec_total", .nat st.nvRecTotal.toNat) (recovery R st) := by
  refine ⟨?_, ?_, ?_⟩
  · simp only [recovery, List.map_cons, List.map_nil]
    decide
  · simp [recovery, Arg.Clean]
  · simp only [recovery, List.map_cons, List.map_nil]
    decide

theorem fields_exec : Fields (D := D) ("valid_exec", .nat st.nvTotalValidExec.toNat)
    [("total_execs", .nat st.totalExecs.toNat)] := by
  refine ⟨?_, ?_, ?_⟩
  · simp only [List.map_cons, List.map_nil]
    decide
  · simp [Arg.Clean]
  · simp only [List.map_cons, List.map_nil]
    decide

theorem renders_arms : Renders N
    (.list ([armItem N R st 0, armItem N R st 1, armItem N R st 2].map Prod.snd))
    (arrayText (armItem N R st 0) [armItem N R st 1, armItem N R st 2]) := by
  apply renders_array
  have harm : ∀ a : Fin nvArmMax, Renders N (armItem N R st a).2 (armItem N R st a).1 := fun a =>
    renders_inline N R (fields_arm a.val (st.arms a))
  simp only [List.forall_mem_cons]
  exact ⟨harm 0, harm 1, harm 2, fun _ h => absurd h List.not_mem_nil⟩

theorem renders_mab : Renders N
    (.dict ((fieldMember N R [] ("c", .fixed 6 st.mabC) :: mabMembers N R st).map Member.pair))
    (mabText R st) := by
  have hfields := fields_mab (D := D) st
  obtain ⟨hkey, hkeys⟩ := List.forall_mem_cons.mp hfields.key
  obtain ⟨harg, hargs⟩ := List.forall_mem_cons.mp hfields.args
  have hnil : ∀ c ∈ ([] : Text), isWs c = true := fun _ h => absurd h List.not_mem_nil
  have hok : ∀ m ∈ fieldMember N R [] ("c", .fixed 6 st.mabC) :: mabMembers N R st, m.Ok N := by
    refine List.forall_mem_cons.mpr ⟨ok_fieldMember N R hnil hkey harg, fun m hm => ?_⟩
    rcases List.mem_append.mp hm with hm | hm
    · obtain ⟨g, hg, rfl⟩ := List.mem_map.mp hm
      exact ok_fieldMember N R (by decide) (hkeys g hg) (hargs g hg)
    · rw [List.mem_singleton.mp hm]
      have harms : Clean (chars "arms") := by decide
      have hgap : ∀ c ∈ ([32] : Text), isWs c = true := by decide
      exact ⟨hgap, harms.scalar, renders_arms N R st⟩
  have hnodup : ((fieldMember N R [] ("c", .fixed 6 st.mabC) :: mabMembers N R st).map
      Member.key).Nodup := by
    simp only [mabMembers, mab, armsMember, fieldMember, List.map_cons, List.map_nil,
      List.cons_append, List.nil_append]
    decide
  have hrenders := renders_object hnil hok hnodup
  rwa [mabMember_text] at hrenders

section Gaps

variable {nl : ℕ → Text} (hnl : ∀ i, ∀ c ∈ nl i, isWs c = true)
include hnl

theorem ok_task : ∀ m ∈ sourceMember N R st nl :: taskMembers N R st nl, m.Ok N := by
  simp only [sourceMember, taskMembers, List.forall_mem_cons]
  exact ⟨ok_argMember N R hnl 1 (by decide) (clean_taskSource st),
    ok_stringMember N hnl 2 (by decide) (scalar_sourceNote st),
    ok_stringMember N hnl 3 (by decide) (scalar_textOf _),
    ok_argMember N R hnl 4 (by decide) (clean_name _),
    ok_argMember N R hnl 5 (by decide) trivial,
    ok_stringMember N hnl 6 (by decide) (scalar_textOf _),
    ok_stringMember N hnl 7 (by decide) (scalar_textOf _),
    ok_stringMember N hnl 8 (by decide) (scalar_textOf _),
    ok_argMember N R hnl 9 (by decide) trivial,
    ok_argMember N R hnl 10 (by decide) trivial,
    ok_argMember N R hnl 11 (by decide) trivial,
    ok_argMember N R hnl 12 (by decide) trivial,
    fun _ h => absurd h List.not_mem_nil⟩

theorem ok_report : ∀ m ∈ taskMember N R st nl :: reportMembers N R st ctx nl, m.Ok N := by
  have htask : (taskMember N R st nl).Ok N := by
    have hkey : Clean (chars "task") := by decide
    refine ⟨ws_gap hnl 0 "  " (by decide), hkey.scalar,
      renders_object (ws_gap hnl 13 "  " (by decide)) (ok_task N R st hnl) ?_⟩
    simp only [sourceMember, taskMembers, argMember, stringMember, fieldMember, List.map_cons,
      List.map_nil]
    decide
  have hmab : (mabMember N R st nl).Ok N := by
    have hkey : Clean (chars "mab") := by decide
    rw [mabMember_eq]
    exact ⟨ws_gap hnl 16 "  " (by decide), hkey.scalar, renders_mab N R st⟩
  simp only [reportMembers, List.forall_mem_cons]
  exact ⟨htask, ok_objectMember N R hnl 14 (by decide) (fields_cov ctx),
    ok_objectMember N R hnl 15 (by decide) (fields_securityStateCov st), hmab,
    ok_objectMember N R hnl 17 (by decide) (fields_mabJournal st ctx),
    ok_objectMember N R hnl 18 (by decide) (fields_validity R st),
    ok_objectMember N R hnl 19 (by decide) (fields_err R st),
    ok_objectMember N R hnl 20 (by decide) (fields_recovery R st),
    ok_objectMember N R hnl 21 (by decide) (fields_exec st),
    fun _ h => absurd h List.not_mem_nil⟩

/-- The report is read as the document, whatever white space stands for its line feeds. -/
theorem renders_report : Renders N (document N R st ctx) (reportText N R st ctx nl) := by
  rw [document_eq N R st ctx nl]
  refine renders_object (hnl 22) (ok_report N R st ctx hnl) ?_
  show (["task", "cov", "security_state_cov", "mab", "mab_journal", "validity", "err", "rec",
    "exec"].map chars).Nodup
  decide

end Gaps

end Cores

end AflNv.EvalReport
