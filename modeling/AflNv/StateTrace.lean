import AflNv.DecisionEngine
import AflNv.StateKeys
import AflNv.Lib.JsonRaw
import AflNv.Lib.Template

/-!
# The state trace and its reader

With `NV_STATE_TRACE_PATH` set, `nv_observe_security_state_once` of `src/afl-fuzz-run.c` appends one
line for each document it accepts.  The state key stands in it between quotes as it is, while the
summary of `src/afl-fuzz-stats.c` goes through `nv_json_puts_escaped`.
`parse_final_execution_snapshot` of `scripts/run_alfresco_bounded_feedback.py` reads the trace when
the campaign is over, and one line that is no JSON object rejects all of it.

* `state_trace_readable`: a line is an object with the key that was hashed exactly when the path
  behind it holds neither, or is folded onto a label.
* `trace_broken` is the run that reads one document with a quote in its path.
-/

namespace AflNv

open AflNv.Lib

namespace StateTrace

open AflNv.Lib.JsonCodec (Text Value chars Printable rawDict RawMember)
open AflNv.PythonJson

/-! ## The line -/

/-- `%llx` -/
def showHex (n : ℕ) : Bytes := (Nat.toDigits 16 n).map fun c => UInt8.ofNat c.toNat

/-- The format string of a line, cut at its conversions. -/
def stateTraceTemplate : List Bytes :=
  ["\x7b\"exec_seq\":", ",\"state\":\"", "\",\"state_id\":\"", "\",\"new\":", "\x7d\n"].map ascii

def stateTraceLine (obs : NvStateObs) (key : Bytes) : Bytes :=
  Template.fill stateTraceTemplate
    [showNat obs.execSeq, key, showHex obs.stateId.toNat, showNat obs.newStates]

/-- The document that a call accepts. -/
def acceptedDoc (lib : CLib) (cfg : NvTargetCfg) (w : World) (path : Bytes) (minimumExecSeq : ℕ)
    (s : SecState) : Option NvStatusDoc :=
  if (nvObserveSecurityStateOnce lib cfg w path minimumExecSeq s).1.has then
    match nvFetchStatus w path s.ledgerOffset with
    | .document buf _ => (lib.cJSONParse (cstr buf)).map (nvParseStatusDoc lib)
    | _ => none
  else none

/-- One step of a run, and whether the trace is written: its path is set and the file opens. -/
structure TracedEvent where
  event : ObserverEvent
  traced : Bool

/-- The document that a step accepts. -/
def docOfStep (lib : CLib) (cfg : NvTargetCfg) (s : SecState) : ObserverEvent → Option NvStatusDoc
  | .observe w path minimumExecSeq => acceptedDoc lib cfg w path minimumExecSeq s
  | _ => none

/-- A step of the observer with what it appends to the trace. -/
def tracedStep (lib : CLib) (cfg : NvTargetCfg) (s : SecState × Bytes) (e : TracedEvent) :
    NvStateObs × SecState × Bytes :=
  let o := observerStep lib cfg s.1 e.event
  let line :=
    match docOfStep lib cfg s.1 e.event with
    | some d => if e.traced then stateTraceLine o.1 (nvStateKey cfg d) else []
    | none => []
  (o.1, o.2, s.2 ++ line)

/-! ## The reader -/

/-- What `int(v)` raises. -/
inductive IntError where
  /-- A `TypeError` or a `ValueError`. -/
  | invalid
  /-- An `OverflowError`, for an infinite float. -/
  | overflow

/-- What is used of Python. -/
structure Library (F : Type) where
  interp : Interp F
  /-- `int(v)` -/
  toInt : Value F → Except IntError ℤ
  toInt_int : ∀ i, toInt (.int i) = .ok i
  /-- `int(text)`; `none` is a `ValueError`. -/
  intOfText : Text → Option ℤ

/-- `json.loads` refuses no short text: it nests less than the recursion limit, and its numbers have
less digits than the limit on integers. -/
def Library.ReadsShort {F : Type} (P : Library F) : Prop :=
  ∀ text : Text, text.length ≤ 500 → P.interp.refuses text = false

/-- The texts of the `RuntimeError`s, and what is not caught. -/
inductive SnapshotError where
  | finalExecutionSnapshotInvalid
  | finalExecutionSnapshotZeroValidExec
  | finalStatusInvalid
  | finalStatusExecSeqInvalid
  | finalStateTraceUnavailable
  | finalStateTraceInvalid
  | finalStateTraceExecSeqInvalid
  | finalStateTraceNoValidExecution
  | finalExecutionSeqMismatch
  /-- `json.loads` refused a JSON text. -/
  | refused
  /-- The `OverflowError` of `int`. -/
  | overflow
  deriving DecidableEq

/-- The trace is rejected for what is in it. -/
def SnapshotError.malformedTrace : SnapshotError → Bool
  | .finalStateTraceUnavailable => true
  | .finalStateTraceInvalid => true
  | .finalStateTraceExecSeqInvalid => true
  | _ => false

abbrev Dict (F : Type) := List (Text × Value F)

structure Snapshot (F : Type) where
  stats : List (Text × Text)
  status : Dict F
  traceLast : Dict F
  lastExecSeq : ℤ
  validExecutionCount : ℤ

section Reader

variable {F : Type} (P : Library F)

/-- `Path(path).read_text(encoding="utf-8")`; `none` is an exception. -/
def readText (file : Option Bytes) : Option Text :=
  (file.bind Utf8.decode).map Unicode.universalNewlines

/-- `json.loads(text)` of an object, with the error for all else. -/
def loadsObject (error : SnapshotError) (text : Text) : Except SnapshotError (Dict F) :=
  if P.interp.refuses text then .error .refused
  else
    match JsonCodec.read P.interp.floats text with
    | some (.dict record) => .ok record
    | _ => .error error

/-- `_read_json_object` -/
def readJsonObject (file : Option Bytes) (error : SnapshotError) : Except SnapshotError (Dict F) :=
  match readText file with
  | none => .error error
  | some text => loadsObject P error text

/-- `int(record["exec_seq"])` -/
def execSeqOf (error : SnapshotError) (record : Dict F) : Except SnapshotError ℤ :=
  match record.lookup (chars "exec_seq") with
  | none => .error error
  | some v =>
    match P.toInt v with
    | .ok i => .ok i
    | .error .invalid => .error error
    | .error .overflow => .error .overflow

/-- One line of the trace, and its identity. -/
def loadRecord (raw : Text) : Except SnapshotError (Dict F × ℤ) := do
  let record ← loadsObject P .finalStateTraceInvalid raw
  let sequence ← execSeqOf P .finalStateTraceExecSeqInvalid record
  .ok (record, sequence)

/-- What the loop over the lines keeps of one. -/
def traceRecord (raw : Text) : Except SnapshotError (Option (Dict F)) :=
  if Unicode.strip raw = [] then .ok none
  else do
    let r ← loadRecord P raw
    .ok (if r.2 > 0 then some r.1 else none)

/-- The loop over the lines. -/
def validTrace (lines : List Text) : Except SnapshotError (List (Dict F)) := do
  let records ← lines.mapM (traceRecord P)
  .ok (records.filterMap id)

/-- `parse_fuzzer_stats`, behind the text it reads. -/
def parseFuzzerStats (text : Text) : List (Text × Text) :=
  (Unicode.splitlines text).foldl (fun values line =>
    if 58 ∈ line then
      let key := line.takeWhile (· ≠ 58)
      JsonCodec.setItem values (Unicode.strip key) (Unicode.strip (line.drop (key.length + 1)))
    else values) []

/-- The statistics and their count of valid executions; `none` is a file that cannot be read. -/
def finalStats (fuzzerStats : Option Text) : Except SnapshotError (List (Text × Text) × ℤ) :=
  match fuzzerStats with
  | none => .error .finalExecutionSnapshotInvalid
  | some text =>
    let stats := parseFuzzerStats text
    match (stats.lookup (chars "nv_total_valid_exec")).bind P.intOfText with
    | none => .error .finalExecutionSnapshotInvalid
    | some validCount =>
      if validCount < 0 then .error .finalExecutionSnapshotInvalid
      else if validCount = 0 then .error .finalExecutionSnapshotZeroValidExec
      else .ok (stats, validCount)

/-- The status and its identity. -/
def finalStatus (file : Option Bytes) : Except SnapshotError (Dict F × ℤ) := do
  let status ← readJsonObject P file .finalStatusInvalid
  let lastExecSeq ← execSeqOf P .finalStatusExecSeqInvalid status
  if lastExecSeq ≤ 0 then .error .finalStatusExecSeqInvalid else .ok (status, lastExecSeq)

/-- The last record of the trace, which has the identity of the status. -/
def finalTrace (file : Option Bytes) (lastExecSeq : ℤ) : Except SnapshotError (Dict F) :=
  match readText file with
  | none => .error .finalStateTraceUnavailable
  | some text => do
    let records ← validTrace P (Unicode.splitlines text)
    match records.getLast? with
    | none => .error .finalStateTraceNoValidExecution
    | some traceLast => do
      let sequence ← execSeqOf P .finalStateTraceExecSeqInvalid traceLast
      if sequence ≠ lastExecSeq then .error .finalExecutionSeqMismatch else .ok traceLast

/-- `parse_final_execution_snapshot` -/
def parseFinalExecutionSnapshot (fuzzerStats : Option Text) (status stateTrace : Option Bytes) :
    Except SnapshotError (Snapshot F) := do
  let (stats, validCount) ← finalStats P fuzzerStats
  let (status, lastExecSeq) ← finalStatus P status
  let traceLast ← finalTrace P stateTrace lastExecSeq
  .ok ⟨stats, status, traceLast, lastExecSeq, validCount⟩

end Reader

/-! ## The text of a line -/

/-- The characters a line is made of outside the key. -/
def Bare (text : Text) : Prop := ∀ c ∈ text, (32 ≤ c ∧ c ≤ 126) ∧ c ≠ 92

instance (text : Text) : Decidable (Bare text) :=
  inferInstanceAs (Decidable (∀ c ∈ text, (32 ≤ c ∧ c ≤ 126) ∧ c ≠ 92))

theorem Bare.append {a b : Text} (ha : Bare a) (hb : Bare b) : Bare (a ++ b) :=
  List.forall_mem_append.mpr ⟨ha, hb⟩

theorem Bare.printable {text : Text} (h : Bare text) : Printable text := fun c hc => (h c hc).1

theorem Bare.count {text : Text} (h : Bare text) : text.count 92 = 0 :=
  List.count_eq_zero.mpr fun hmem => (h 92 hmem).2 rfl

theorem printable_append {a b : Text} (ha : Printable a) (hb : Printable b) :
    Printable (a ++ b) := List.forall_mem_append.mpr ⟨ha, hb⟩

theorem bare_showNat (n : ℕ) : Bare (JsonCodec.showNat n) := by
  intro c hc
  have hdigit := JsonCodec.isDigit_iff.mp (JsonCodec.showNat_isDigit hc)
  omega

theorem mem_toDigits_hex {n : ℕ} {c : Char} (h : c ∈ Nat.toDigits 16 n) :
    ∃ d, d < 16 ∧ c = Nat.digitChar d := by
  induction n using Nat.strong_induction_on with
  | _ n ih =>
    by_cases hn : n < 16
    · rw [Nat.toDigits_of_lt_base hn, List.mem_singleton] at h
      exact ⟨n, hn, h⟩
    · rw [Nat.toDigits_of_base_le (by decide) (by omega), List.mem_append,
        List.mem_singleton] at h
      rcases h with h | h
      · exact ih (n / 16) (by omega) h
      · exact ⟨n % 16, Nat.mod_lt n (by decide), h⟩

/-- `%llx` as code points. -/
def hexText (n : ℕ) : Text := (Nat.toDigits 16 n).map Char.toNat

theorem mem_hexText {n c : ℕ} (h : c ∈ hexText n) : 48 ≤ c ∧ c ≤ 102 ∧ c ≠ 92 := by
  obtain ⟨ch, hch, rfl⟩ := List.mem_map.mp h
  obtain ⟨d, hd, rfl⟩ := mem_toDigits_hex hch
  have hall : ∀ d < 16, 48 ≤ (Nat.digitChar d).toNat ∧ (Nat.digitChar d).toNat ≤ 102 ∧
      (Nat.digitChar d).toNat ≠ 92 := by decide
  exact hall d hd

theorem map_showHex (n : ℕ) : (showHex n).map UInt8.toNat = hexText n := by
  rw [showHex, hexText, List.map_map]
  refine List.map_congr_left fun c hc => ?_
  have hlt := (mem_hexText (List.mem_map_of_mem hc)).2.1
  show (UInt8.ofNat c.toNat).toNat = c.toNat
  rw [UInt8.toNat_ofNat']
  omega

theorem bare_hexText (n : ℕ) : Bare (hexText n) := by
  intro c hc
  have hhex := mem_hexText hc
  omega

/-- A string that needs no escape. -/
theorem quote_hexText (n : ℕ) :
    JsonCodec.quote utf8Style (hexText n) = 34 :: (hexText n ++ [34]) := by
  have hclean : ∀ c ∈ hexText n, c ≠ 34 := fun c hc => by
    have hhex := mem_hexText hc
    omega
  rw [JsonCodec.quote, JsonCodec.flatMap_escape_of_clean utf8Style (bare_hexText n).printable
    (fun h => hclean 34 h rfl) fun h => (bare_hexText n 92 h).2 rfl]

section Line

variable {F : Type}

def frontMembers (obs : NvStateObs) : Dict F := [(chars "exec_seq", .int obs.execSeq)]

def backMembers (obs : NvStateObs) : Dict F :=
  [(chars "state_id", .str (hexText obs.stateId.toNat)), (chars "new", .int obs.newStates)]

/-- What stands in front of the key. -/
def lineFront (obs : NvStateObs) : Text :=
  chars "\x7b\"exec_seq\":" ++ (JsonCodec.showNat obs.execSeq ++ chars ",\"state\":\"")

/-- What stands behind the key. -/
def lineBack (obs : NvStateObs) : Text :=
  chars "\",\"state_id\":\"" ++ (hexText obs.stateId.toNat ++
    (chars "\",\"new\":" ++ (JsonCodec.showNat obs.newStates ++ chars "\x7d")))

/-- The line without its newline. -/
def lineText (obs : NvStateObs) (raw : Text) : Text := lineFront obs ++ (raw ++ lineBack obs)

theorem map_stateTraceLine (obs : NvStateObs) (key : Bytes) :
    (stateTraceLine obs key).map UInt8.toNat = lineText obs (key.map UInt8.toNat) ++ [10] := by
  have h₁ : (ascii "\x7b\"exec_seq\":").map UInt8.toNat = chars "\x7b\"exec_seq\":" := by decide
  have h₂ : (ascii ",\"state\":\"").map UInt8.toNat = chars ",\"state\":\"" := by decide
  have h₃ : (ascii "\",\"state_id\":\"").map UInt8.toNat = chars "\",\"state_id\":\"" := by decide
  have h₄ : (ascii "\",\"new\":").map UInt8.toNat = chars "\",\"new\":" := by decide
  have h₅ : (ascii "\x7d\n").map UInt8.toNat = chars "\x7d" ++ [10] := by decide
  simp only [stateTraceLine, stateTraceTemplate, List.map_cons, List.map_nil, Template.fill,
    List.map_append, h₁, h₂, h₃, h₄, h₅, map_showNat, map_showHex, lineText, lineFront, lineBack,
    List.append_assoc]

theorem lineText_eq (N : JsonCodec.Floats F) (obs : NvStateObs) (raw : Text) :
    lineText obs raw =
      rawDict N utf8Style (frontMembers obs) (chars "state") raw (backMembers obs) := by
  have hexec : JsonCodec.quote utf8Style (chars "exec_seq") = chars "\"exec_seq\"" := by decide
  have hstate : JsonCodec.quote utf8Style (chars "state") = chars "\"state\"" := by decide
  have hid : JsonCodec.quote utf8Style (chars "state_id") = chars "\"state_id\"" := by decide
  have hnew : JsonCodec.quote utf8Style (chars "new") = chars "\"new\"" := by decide
  have hnat (n : ℕ) : JsonCodec.dumps N utf8Style (.int n) = JsonCodec.showNat n := rfl
  have hgap : utf8Style.gap = [] := rfl
  have hhex : JsonCodec.dumps N utf8Style (.str (hexText obs.stateId.toNat)) =
      34 :: (hexText obs.stateId.toNat ++ [34]) := quote_hexText _
  simp only [rawDict, JsonCodec.leading, frontMembers, backMembers, List.flatMap_cons,
    List.flatMap_nil, JsonCodec.dumpsMembers, hexec, hstate, hid, hnew, hnat, hgap, hhex,
    List.nil_append, List.append_nil, List.append_assoc, List.cons_append, lineText, lineFront,
    lineBack]
  rfl

theorem bare_lineFront (obs : NvStateObs) : Bare (lineFront obs) :=
  Bare.append (by decide) ((bare_showNat _).append (by decide))

theorem bare_lineBack (obs : NvStateObs) : Bare (lineBack obs) :=
  Bare.append (by decide) ((bare_hexText _).append
    (Bare.append (by decide) ((bare_showNat _).append (by decide))))

theorem printable_lineText (obs : NvStateObs) {raw : Text} (h : Printable raw) :
    Printable (lineText obs raw) :=
  printable_append (bare_lineFront obs).printable
    (printable_append h (bare_lineBack obs).printable)

theorem count_lineText (obs : NvStateObs) (raw : Text) :
    (lineText obs raw).count 92 = raw.count 92 := by
  rw [lineText, List.count_append, List.count_append, (bare_lineFront obs).count,
    (bare_lineBack obs).count, Nat.zero_add, Nat.add_zero]

theorem rawMember (obs : NvStateObs) {raw : Text} (h : Printable raw)
    (hlast : raw.getLast? ≠ some 92) :
    RawMember (frontMembers (F := F) obs) (chars "state") raw (backMembers obs) where
  front := ⟨⟨by decide, by decide⟩, trivial, trivial⟩
  back := ⟨⟨by decide, by decide⟩, JsonCodec.isStr_of_printable (bare_hexText _).printable,
    ⟨by decide, by decide⟩, trivial, trivial⟩
  str := ⟨by decide, by decide⟩
  nodup := by
    show ([chars "exec_seq"] ++ chars "state" :: [chars "state_id", chars "new"]).Nodup
    decide
  printable := h
  last := hlast

end Line

/-! ## The key -/

/-- The path of a document needs no escape, or does not get into the key. -/
def Escapeless (cfg : NvTargetCfg) (d : NvStatusDoc) : Prop :=
  FinePath d.path → nvIsAllowedPair cfg (nvCanonMethod (some d.method)) d.path = true →
    (34 : UInt8) ∉ d.path ∧ (92 : UInt8) ∉ d.path

/-- A byte that a line can hold, and that is no quote and no backslash. -/
def isCleanByte (b : UInt8) : Bool := 32 ≤ b && b ≤ 126 && b ≠ 34 && b ≠ 92

theorem methodLabels_clean : ∀ m ∈ methodLabels, m.all isCleanByte = true := by decide

theorem classLabels_clean : ∀ c ∈ classLabels, c.all isCleanByte = true := by decide

theorem classLabels_ne_nil : ∀ c ∈ classLabels, c ≠ [] := by decide

theorem isCleanByte_iff {b : UInt8} :
    isCleanByte b = true ↔ (32 ≤ b.toNat ∧ b.toNat ≤ 126) ∧ b ≠ 34 ∧ b ≠ 92 := by
  simp only [isCleanByte, Bool.and_eq_true, decide_eq_true_eq, UInt8.le_iff_toNat_le, and_assoc]
  rfl

/-- A label for the path: clean, or an admitted path. -/
theorem pathLabel_bytes (cfg : NvTargetCfg) (d : NvStatusDoc) :
    (∀ b ∈ pathLabel cfg (nvCanonMethod (some d.method)) d.path,
      32 ≤ b.toNat ∧ b.toNat ≤ 126) ∧
    (((34 : UInt8) ∉ pathLabel cfg (nvCanonMethod (some d.method)) d.path ∧
      (92 : UInt8) ∉ pathLabel cfg (nvCanonMethod (some d.method)) d.path) ↔ Escapeless cfg d) := by
  have hlabel : ∀ l : Bytes, l.all isCleanByte = true →
      (∀ b ∈ l, 32 ≤ b.toNat ∧ b.toNat ≤ 126) ∧ (34 : UInt8) ∉ l ∧ (92 : UInt8) ∉ l := by
    intro l hl
    have hclean : ∀ b ∈ l, _ := fun b hb => isCleanByte_iff.mp (List.all_eq_true.mp hl b hb)
    exact ⟨fun b hb => (hclean b hb).1, fun h => (hclean 34 h).2.1 rfl,
      fun h => (hclean 92 h).2.2 rfl⟩
  rw [pathLabel_eq]
  by_cases hfine : FinePath d.path
  · rw [if_pos hfine]
    cases hallow : nvIsAllowedPair cfg (nvCanonMethod (some d.method)) d.path with
    | true =>
      rw [if_pos rfl]
      refine ⟨fun b hb => ?_, fun h _ _ => h, fun h => h hfine hallow⟩
      have hbyte := ((finePath_iff d.path).mp hfine).2.2 b hb
      rw [UInt8.le_iff_toNat_le, UInt8.le_iff_toNat_le] at hbyte
      exact hbyte
    | false =>
      rw [if_neg Bool.false_ne_true]
      obtain ⟨hbytes, hclean⟩ := hlabel (ascii "unknown_path") (by decide)
      exact ⟨hbytes, iff_of_true hclean fun _ h => absurd (hallow.symm.trans h) Bool.false_ne_true⟩
  · rw [if_neg hfine]
    obtain ⟨hbytes, hclean⟩ := hlabel nvPathMalformed (by decide)
    exact ⟨hbytes, iff_of_true hclean fun h _ => absurd h hfine⟩

/-- The key as code points. -/
def keyText (cfg : NvTargetCfg) (d : NvStatusDoc) : Text := (nvStateKey cfg d).map UInt8.toNat

theorem mem_nvStateKey {cfg : NvTargetCfg} {d : NvStatusDoc} {b : UInt8} :
    b ∈ nvStateKey cfg d ↔ b ∈ nvCanonMethod (some d.method) ∨ b = 32 ∨
      b ∈ pathLabel cfg (nvCanonMethod (some d.method)) d.path ∨ b = 124 ∨
        b ∈ nvCanonClass (some d.cls) := by
  rw [nvStateKey_eq, joinKey, List.mem_append, List.mem_cons, List.mem_append, List.mem_cons]

theorem printable_keyText (cfg : NvTargetCfg) (d : NvStatusDoc) : Printable (keyText cfg d) := by
  have hclean : ∀ l : Bytes, l.all isCleanByte = true → ∀ b ∈ l, 32 ≤ b.toNat ∧ b.toNat ≤ 126 :=
    fun l hl b hb => (isCleanByte_iff.mp (List.all_eq_true.mp hl b hb)).1
  intro c hc
  obtain ⟨b, hb, rfl⟩ := List.mem_map.mp hc
  rcases mem_nvStateKey.mp hb with hb | rfl | hb | rfl | hb
  · exact hclean _ (methodLabels_clean _ (nvCanonMethod_mem _)) b hb
  · decide
  · exact (pathLabel_bytes cfg d).1 b hb
  · decide
  · exact hclean _ (classLabels_clean _ (nvCanonClass_mem _)) b hb

/-- The key ends with the class. -/
theorem getLast?_keyText (cfg : NvTargetCfg) (d : NvStatusDoc) :
    (keyText cfg d).getLast? ≠ some 92 := by
  have hmem := nvCanonClass_mem (some d.cls)
  have hsplit : nvStateKey cfg d = nvCanonMethod (some d.method) ++
      32 :: (pathLabel cfg (nvCanonMethod (some d.method)) d.path ++ [124]) ++
        nvCanonClass (some d.cls) := by
    rw [nvStateKey_eq, joinKey]
    simp
  intro hlast
  rw [keyText, List.getLast?_map, hsplit,
    List.getLast?_append_of_ne_nil _ (classLabels_ne_nil _ hmem)] at hlast
  obtain ⟨b, hb, heq⟩ := Option.map_eq_some_iff.mp hlast
  have hclean := isCleanByte_iff.mp
    (List.all_eq_true.mp (classLabels_clean _ hmem) b (List.mem_of_getLast? hb))
  exact hclean.2.2 (UInt8.toNat_inj.mp heq)

theorem mem_keyText {cfg : NvTargetCfg} {d : NvStatusDoc} (b : UInt8) :
    b.toNat ∈ keyText cfg d ↔ b ∈ nvStateKey cfg d := by
  unfold keyText
  exact List.mem_map_of_injective fun _ _ h => UInt8.toNat_inj.mp h

/-- The key holds a quote or a backslash exactly when an admitted path does. -/
theorem keyText_clean_iff (cfg : NvTargetCfg) (d : NvStatusDoc) :
    (34 ∉ keyText cfg d ∧ 92 ∉ keyText cfg d) ↔ Escapeless cfg d := by
  have hlabel : ∀ b : UInt8, isCleanByte b = false → b ≠ 32 → b ≠ 124 →
      (b ∈ nvStateKey cfg d ↔ b ∈ pathLabel cfg (nvCanonMethod (some d.method)) d.path) := by
    intro b hb hblank hbar
    have hnot : ∀ l : Bytes, l.all isCleanByte = true → b ∉ l := fun l hl hmem =>
      absurd (hb.symm.trans (List.all_eq_true.mp hl b hmem)) Bool.false_ne_true
    have hm := hnot _ (methodLabels_clean _ (nvCanonMethod_mem (some d.method)))
    have hc := hnot _ (classLabels_clean _ (nvCanonClass_mem (some d.cls)))
    rw [mem_nvStateKey]
    simp only [hm, hc, hblank, hbar, false_or, or_false]
  rw [← (pathLabel_bytes cfg d).2, ← hlabel 34 (by decide) (by decide) (by decide),
    ← hlabel 92 (by decide) (by decide) (by decide), ← mem_keyText, ← mem_keyText]
  rfl

/-! ## Reading one line -/

theorem length_key_le (cfg : NvTargetCfg) (d : NvStatusDoc) : (keyText cfg d).length ≤ 221 := by
  have hm := methodLabels_length_le _ (nvCanonMethod_mem (some d.method))
  have hc := classLabels_length_le _ (nvCanonClass_mem (some d.cls))
  have hp := pathLabel_length_le cfg (nvCanonMethod (some d.method)) d.path
  rw [keyText, List.length_map, nvStateKey_eq, joinKey]
  simp only [List.length_append, List.length_cons]
  omega

/-- What `%llu` and `%u` print is short. -/
theorem length_showNat_le {n : ℕ} (h : n < 2 ^ 64) : (JsonCodec.showNat n).length ≤ 20 := by
  rw [JsonCodec.showNat, List.length_map]
  exact (Nat.length_toDigits_le_iff (by decide) (by decide)).mpr (by omega)

theorem length_hexText_le {n : ℕ} (h : n < 2 ^ 64) : (hexText n).length ≤ 16 := by
  rw [hexText, List.length_map]
  exact (Nat.length_toDigits_le_iff (by decide) (by decide)).mpr (by omega)

theorem length_lineText_le {obs : NvStateObs} (hseq : obs.execSeq < 2 ^ 64)
    (hnew : obs.newStates ≤ 1) {raw : Text} (hraw : raw.length ≤ 221) :
    (lineText obs raw).length ≤ 500 := by
  have h₁ : (chars "\x7b\"exec_seq\":").length = 12 := by decide
  have h₂ : (chars ",\"state\":\"").length = 10 := by decide
  have h₃ : (chars "\",\"state_id\":\"").length = 14 := by decide
  have h₄ : (chars "\",\"new\":").length = 8 := by decide
  have h₅ : (chars "\x7d").length = 1 := by decide
  have hexec := length_showNat_le hseq
  have hnew := length_showNat_le (show obs.newStates < 2 ^ 64 by omega)
  have hid := length_hexText_le obs.stateId.toNat_lt
  simp only [lineText, lineFront, lineBack, List.length_append, h₁, h₂, h₃, h₄, h₅]
  omega

section Read

variable {F : Type} {P : Library F}

/-- The lines of a trace. -/
def readLines (file : Option Bytes) : Option (List Text) :=
  (readText file).map Unicode.splitlines

theorem oneLine_of_printable {raw : Text} (h : Printable raw) : Unicode.OneLine raw := by
  intro c hc
  obtain ⟨hlo, hhi⟩ := h c hc
  simp only [Unicode.isLineBoundary, Bool.or_eq_false_iff, Bool.and_eq_false_iff,
    decide_eq_false_iff_not]
  omega

/-- A file of printable lines is read as these lines. -/
theorem readLines_of_rows {file : Bytes} {rows : List Text} (hrows : ∀ raw ∈ rows, Printable raw)
    (hfile : file.map UInt8.toNat = rows.flatMap (· ++ [10])) :
    readLines (some file) = some rows := by
  have hchar : ∀ c ∈ rows.flatMap (· ++ [10]), c = 10 ∨ 32 ≤ c ∧ c ≤ 126 := by
    intro c hc
    obtain ⟨raw, hraw, hc⟩ := List.mem_flatMap.mp hc
    rcases List.mem_append.mp hc with hc | hc
    · exact .inr (hrows raw hraw c hc)
    · exact .inl (List.mem_singleton.mp hc)
  have hascii : ∀ b ∈ file, b.toNat < 0x80 := by
    intro b hb
    have hmem := hchar b.toNat (hfile ▸ List.mem_map_of_mem hb)
    omega
  have hcr : 13 ∉ rows.flatMap (· ++ [10]) := by
    intro hmem
    have h13 := hchar 13 hmem
    omega
  rw [readLines, readText, Option.bind_some, Utf8.decode_of_ascii hascii, Option.map_some, hfile,
    Unicode.universalNewlines_eq_self hcr, Option.map_some,
    Unicode.splitlines_lines fun raw hraw => oneLine_of_printable (hrows raw hraw)]

/-- A line of the trace: it is read as one line, which the reader accepts as an object with this
key. -/
def Readable (P : Library F) (line key : Bytes) : Prop :=
  ∃ raw record sequence, readLines (some line) = some [raw] ∧
    loadRecord P raw = .ok (record, sequence) ∧
      record.lookup (chars "state") = some (.str (key.map UInt8.toNat))

theorem loadsObject_eq_ok {error : SnapshotError} {text : Text} {record : Dict F} :
    loadsObject P error text = .ok record ↔
      P.interp.refuses text = false ∧
        JsonCodec.read P.interp.floats text = some (.dict record) := by
  unfold loadsObject
  cases hrefuses : P.interp.refuses text with
  | true => simp
  | false =>
    rw [if_neg Bool.false_ne_true]
    split
    · rename_i record' hread
      simp [hread]
    · rename_i hread
      exact iff_of_false (by simp) fun h => hread record h.2

/-- The line of a document that needs no escape. -/
theorem loadRecord_lineText (hP : P.ReadsShort) {obs : NvStateObs} {raw : Text}
    (hmember : RawMember (frontMembers (F := F) obs) (chars "state") raw (backMembers obs))
    (hlen : (lineText obs raw).length ≤ 500) (hquote : 34 ∉ raw) (hslash : 92 ∉ raw) :
    loadRecord P (lineText obs raw) =
      .ok (frontMembers obs ++ (chars "state", .str raw) :: backMembers obs, obs.execSeq) := by
  have hread := hmember.read_of_clean (N := P.interp.floats) (w := utf8Style) hquote hslash
  rw [← lineText_eq] at hread
  have hloads : loadsObject P .finalStateTraceInvalid (lineText obs raw) =
      .ok (frontMembers obs ++ (chars "state", .str raw) :: backMembers obs) :=
    loadsObject_eq_ok.mpr ⟨hP _ hlen, hread⟩
  have hseq : execSeqOf P .finalStateTraceExecSeqInvalid
      (frontMembers obs ++ (chars "state", .str raw) :: backMembers obs) = .ok obs.execSeq := by
    have hlookup : (frontMembers obs ++ (chars "state", Value.str (F := F) raw) ::
        backMembers obs).lookup (chars "exec_seq") = some (.int obs.execSeq) := by
      rw [frontMembers, List.singleton_append, List.lookup_cons_self]
    rw [execSeqOf, hlookup]
    dsimp only
    rw [P.toInt_int]
  rw [loadRecord, hloads]
  show (execSeqOf P .finalStateTraceExecSeqInvalid _ >>= _) = _
  rw [hseq]
  rfl

/-- A line is read with its key exactly when the path needs no escape. -/
theorem readable_iff (hP : P.ReadsShort) (cfg : NvTargetCfg) (d : NvStatusDoc) {obs : NvStateObs}
    (hseq : obs.execSeq < 2 ^ 64) (hnew : obs.newStates ≤ 1) :
    Readable P (stateTraceLine obs (nvStateKey cfg d)) (nvStateKey cfg d) ↔ Escapeless cfg d := by
  have hprint := printable_keyText cfg d
  have hmember := rawMember (F := F) obs hprint (getLast?_keyText cfg d)
  have hline := printable_lineText obs hprint
  have hlines : readLines (some (stateTraceLine obs (nvStateKey cfg d))) =
      some [lineText obs (keyText cfg d)] := by
    refine readLines_of_rows (by simpa using hline) ?_
    rw [map_stateTraceLine, List.flatMap_singleton]
    rfl
  have hlen := length_lineText_le hseq hnew (length_key_le cfg d)
  rw [← keyText_clean_iff]
  constructor
  · intro h
    obtain ⟨raw, record, sequence, hraw, hload, hlookup⟩ := h
    obtain rfl : lineText obs (keyText cfg d) = raw :=
      (List.cons.inj (Option.some.inj (hlines.symm.trans hraw))).1
    obtain ⟨record', hloads, hrest⟩ := bind_eq_ok.mp hload
    obtain ⟨i, -, heq⟩ := bind_eq_ok.mp hrest
    obtain ⟨rfl, -⟩ := Prod.mk.inj (Except.ok.inj heq)
    have hread := (loadsObject_eq_ok.mp hloads).2
    refine (hmember.read_iff (N := P.interp.floats) (w := utf8Style) ?_ ?_).mp
      ⟨record', ?_, hlookup⟩
    · rw [← lineText_eq]
      intro c hc
      have hchar := hline c hc
      exact ⟨by omega, JsonCodec.char_of_lt (by omega)⟩
    · rw [← lineText_eq]
      exact count_lineText obs _
    · rw [← lineText_eq]
      exact hread
  · intro h
    exact ⟨_, _, _, hlines, loadRecord_lineText hP hmember hlen h.1 h.2,
      hmember.lookup_member (keyText cfg d)⟩

/-! ## Runs -/

theorem nvRecordObservation_obs (cfg : NvTargetCfg) (d : NvStatusDoc) (s : SecState) :
    ∃ isNew, (nvRecordObservation cfg d s).1 = nvObsOfDoc d (nvStateId cfg d) isNew := ⟨_, rfl⟩

/-- A document that is accepted was parsed, and its observation carries its identity. -/
theorem acceptedDoc_eq_some {lib : CLib} {cfg : NvTargetCfg} {w : World} {path : Bytes}
    {minimumExecSeq : ℕ} {s : SecState} {d : NvStatusDoc}
    (h : acceptedDoc lib cfg w path minimumExecSeq s = some d) :
    (∃ root, d = nvParseStatusDoc lib root) ∧
      ∃ isNew, (nvObserveSecurityStateOnce lib cfg w path minimumExecSeq s).1 =
        nvObsOfDoc d (nvStateId cfg d) isNew := by
  have hexit := nvObserve_exit lib cfg w path minimumExecSeq s
  rw [acceptedDoc] at h
  revert h
  generalize nvObserveSecurityStateOnce lib cfg w path minimumExecSeq s = o at hexit
  intro h
  cases hexit with
  | unread fails => cases h
  | rejected buf ledgerEnd root replays hfetch hparse hreplays => cases h
  | accepted buf ledgerEnd root marks hfetch hparse hbelow hfresh =>
    rw [hfetch] at h
    split_ifs at h
    dsimp only at h
    rw [hparse] at h
    obtain rfl := Option.some.inj h
    exact ⟨⟨root, rfl⟩, nvRecordObservation_obs cfg _ _⟩

/-- A step whose document needs no escape. -/
def Careful (lib : CLib) (cfg : NvTargetCfg) (s : SecState × Bytes) (e : TracedEvent) : Prop :=
  ∀ d, docOfStep lib cfg s.1 e.event = some d → Escapeless cfg d

/-- The trace holds lines that the reader accepts. -/
def TraceInv (P : Library F) (trace : Bytes) : Prop :=
  ∃ rows : List Text, trace.map UInt8.toNat = rows.flatMap (· ++ [10]) ∧
    ∀ raw ∈ rows, Printable raw ∧ ∃ r, loadRecord P raw = .ok r

theorem TraceInv.nil (P : Library F) : TraceInv P [] := ⟨[], rfl, by simp⟩

theorem TraceInv.append {trace : Bytes} (h : TraceInv P trace) {line : Bytes} {raw : Text}
    (hline : line.map UInt8.toNat = raw ++ [10]) (hprint : Printable raw)
    (hload : ∃ r, loadRecord P raw = .ok r) : TraceInv P (trace ++ line) := by
  obtain ⟨rows, hrows, hall⟩ := h
  refine ⟨rows ++ [raw], ?_, ?_⟩
  · rw [List.map_append, hrows, hline, List.flatMap_append, List.flatMap_singleton]
  · intro raw' hmem
    rcases List.mem_append.mp hmem with hmem | hmem
    · exact hall raw' hmem
    · exact List.mem_singleton.mp hmem ▸ ⟨hprint, hload⟩

theorem nvParseStatusDoc_execSeq_lt (lib : CLib) (root : CJson) :
    (nvParseStatusDoc lib root).execSeq < 2 ^ 64 := UInt64.toNat_lt _

theorem TraceInv.step (hP : P.ReadsShort) {lib : CLib} {cfg : NvTargetCfg} {s : SecState × Bytes}
    (h : TraceInv P s.2) {e : TracedEvent} (hG : Careful lib cfg s e) :
    TraceInv P (tracedStep lib cfg s e).2.2 := by
  obtain ⟨event, traced⟩ := e
  unfold tracedStep
  dsimp only
  cases hdoc : docOfStep lib cfg s.1 event with
  | none => simpa using h
  | some d =>
    cases traced with
    | false => simpa using h
    | true =>
      have hclean := hG d hdoc
      cases event with
      | setQueueCur q => cases hdoc
      | addToQueue => cases hdoc
      | observe w path minimumExecSeq =>
        obtain ⟨⟨root, hroot⟩, isNew, hobs⟩ := acceptedDoc_eq_some hdoc
        have hseq : (nvObsOfDoc d (nvStateId cfg d) isNew).execSeq < 2 ^ 64 := by
          rw [hroot]
          exact nvParseStatusDoc_execSeq_lt lib root
        have hnew : (nvObsOfDoc d (nvStateId cfg d) isNew).newStates ≤ 1 := by
          cases isNew with
          | false => exact Nat.zero_le 1
          | true => exact Nat.le_refl 1
        have hprint := printable_keyText cfg d
        have hkey := (keyText_clean_iff cfg d).mpr hclean
        show TraceInv P (s.2 ++ stateTraceLine (nvObserveSecurityStateOnce lib cfg w path
          minimumExecSeq s.1).1 (nvStateKey cfg d))
        rw [hobs]
        exact h.append (map_stateTraceLine _ _) (printable_lineText _ hprint)
          ⟨_, loadRecord_lineText hP (rawMember _ hprint (getLast?_keyText cfg d))
            (length_lineText_le hseq hnew (length_key_le cfg d)) hkey.1 hkey.2⟩

/-- The loop over lines that are accepted. -/
theorem validTrace_returns {rows : List Text}
    (h : ∀ raw ∈ rows, ∃ r, loadRecord P raw = .ok r) :
    ∃ records, validTrace P rows = .ok records := by
  have hrecords : ∃ records, rows.mapM (traceRecord P) = .ok records := by
    induction rows with
    | nil => exact ⟨[], rfl⟩
    | cons raw rows ih =>
      obtain ⟨⟨r, hr⟩, hrest⟩ := List.forall_mem_cons.mp h
      obtain ⟨records, hrecords⟩ := ih hrest
      have hraw : ∃ o, traceRecord P raw = .ok o := by
        unfold traceRecord
        split_ifs
        · exact ⟨none, rfl⟩
        · exact ⟨_, bind_eq_ok.mpr ⟨r, hr, rfl⟩⟩
      obtain ⟨o, ho⟩ := hraw
      refine ⟨o :: records, ?_⟩
      rw [List.mapM_cons]
      exact bind_eq_ok.mpr ⟨o, ho, bind_eq_ok.mpr ⟨records, hrecords, rfl⟩⟩
  obtain ⟨records, hrecords⟩ := hrecords
  exact ⟨records.filterMap id, bind_eq_ok.mpr ⟨records, hrecords, rfl⟩⟩

theorem execSeqOf_eq_error {error err : SnapshotError} {record : Dict F}
    (h : execSeqOf P error record = .error err) : err = error ∨ err = .overflow := by
  unfold execSeqOf at h
  split at h
  · exact .inl (Except.error.inj h).symm
  · split at h
    · cases h
    · exact .inl (Except.error.inj h).symm
    · exact .inr (Except.error.inj h).symm

theorem loadsObject_eq_error {error err : SnapshotError} {text : Text}
    (h : loadsObject P error text = .error err) : err = error ∨ err = .refused := by
  unfold loadsObject at h
  split_ifs at h
  · exact .inr (Except.error.inj h).symm
  · split at h
    · cases h
    · exact .inl (Except.error.inj h).symm

/-- Neither the statistics nor the status blames the trace. -/
theorem finalStats_error {fuzzerStats : Option Text} {err : SnapshotError}
    (h : finalStats P fuzzerStats = .error err) : err.malformedTrace = false := by
  unfold finalStats at h
  split at h
  · exact Except.error.inj h ▸ rfl
  · dsimp only at h
    split at h
    · exact Except.error.inj h ▸ rfl
    · split_ifs at h
      · exact Except.error.inj h ▸ rfl
      · exact Except.error.inj h ▸ rfl

theorem finalStatus_error {file : Option Bytes} {err : SnapshotError}
    (h : finalStatus P file = .error err) : err.malformedTrace = false := by
  rcases bind_eq_error.mp h with h | ⟨status, -, h⟩
  · unfold readJsonObject at h
    split at h
    · exact Except.error.inj h ▸ rfl
    · rcases loadsObject_eq_error h with rfl | rfl <;> rfl
  · rcases bind_eq_error.mp h with h | ⟨lastExecSeq, -, h⟩
    · rcases execSeqOf_eq_error h with rfl | rfl <;> rfl
    · split_ifs at h
      exact Except.error.inj h ▸ rfl

/-- A record that the loop keeps has an identity. -/
theorem execSeqOf_of_validTrace {rows : List Text} {records : List (Dict F)}
    (h : validTrace P rows = .ok records) {record : Dict F} (hmem : record ∈ records) :
    ∃ i, execSeqOf P .finalStateTraceExecSeqInvalid record = .ok i := by
  obtain ⟨kept, hkept, heq⟩ := bind_eq_ok.mp h
  obtain rfl := Except.ok.inj heq
  obtain ⟨o, ho, hsome⟩ := List.mem_filterMap.mp hmem
  obtain rfl : o = some record := hsome
  have hraw : ∃ raw, traceRecord P raw = .ok (some record) := by
    have hrel := mapM_eq_ok.mp hkept
    clear h hmem hkept heq
    induction hrel with
    | nil => exact absurd ho List.not_mem_nil
    | cons hr _ ih =>
      rcases List.mem_cons.mp ho with rfl | ho
      · exact ⟨_, hr⟩
      · exact ih ho
  obtain ⟨raw, hraw⟩ := hraw
  unfold traceRecord at hraw
  split_ifs at hraw
  · cases (Except.ok.inj hraw)
  obtain ⟨⟨record', sequence⟩, hload, heq⟩ := bind_eq_ok.mp hraw
  have hkeep : (if sequence > 0 then some record' else none) = some record := Except.ok.inj heq
  split_ifs at hkeep
  obtain rfl := Option.some.inj hkeep
  obtain ⟨record'', -, hrest⟩ := bind_eq_ok.mp hload
  obtain ⟨i, hi, heq⟩ := bind_eq_ok.mp hrest
  obtain ⟨rfl, -⟩ := Prod.mk.inj (Except.ok.inj heq)
  exact ⟨i, hi⟩

theorem finalTrace_error {trace : Bytes} (h : TraceInv P trace) {lastExecSeq : ℤ}
    {err : SnapshotError} (herr : finalTrace P (some trace) lastExecSeq = .error err) :
    err.malformedTrace = false := by
  obtain ⟨rows, hrows, hall⟩ := h
  have hlines := readLines_of_rows (fun raw hraw => (hall raw hraw).1) hrows
  obtain ⟨records, hrecords⟩ := validTrace_returns fun raw hraw => (hall raw hraw).2
  obtain ⟨text, htext, hsplit⟩ := Option.map_eq_some_iff.mp hlines
  rw [finalTrace, htext] at herr
  dsimp only at herr
  rw [hsplit] at herr
  rcases bind_eq_error.mp herr with herr | ⟨records', hrecords', herr⟩
  · cases (hrecords.symm.trans herr)
  · split at herr
    · exact Except.error.inj herr ▸ rfl
    · rename_i traceLast hlast
      rcases bind_eq_error.mp herr with herr | ⟨sequence, -, herr⟩
      · obtain ⟨i, hi⟩ := execSeqOf_of_validTrace hrecords' (List.mem_of_getLast? hlast)
        cases (hi.symm.trans herr)
      · split_ifs at herr
        exact Except.error.inj herr ▸ rfl

/-- A trace of accepted lines is never the reason why there is no snapshot. -/
theorem snapshot_error {trace : Bytes} (h : TraceInv P trace) {fuzzerStats : Option Text}
    {status : Option Bytes} {err : SnapshotError}
    (herr : parseFinalExecutionSnapshot P fuzzerStats status (some trace) = .error err) :
    err.malformedTrace = false := by
  rcases bind_eq_error.mp herr with herr | ⟨stats, -, herr⟩
  · exact finalStats_error herr
  rcases bind_eq_error.mp herr with herr | ⟨last, -, herr⟩
  · exact finalStatus_error herr
  rcases bind_eq_error.mp herr with herr | ⟨traceLast, -, herr⟩
  · exact finalTrace_error h herr
  · cases herr

/-- The line of a document is an object with the key that was hashed, and the reader accepts it,
exactly when the path needs no escape or does not get into the key.  A run whose documents are all
like that leaves a trace that the reader does not reject. -/
theorem state_trace_readable (hP : P.ReadsShort) (lib : CLib) (cfg : NvTargetCfg) :
    (∀ (root : CJson) (isNew : Bool),
      Readable P
          (stateTraceLine (nvObsOfDoc (nvParseStatusDoc lib root)
            (nvStateId cfg (nvParseStatusDoc lib root)) isNew)
            (nvStateKey cfg (nvParseStatusDoc lib root)))
          (nvStateKey cfg (nvParseStatusDoc lib root)) ↔
        Escapeless cfg (nvParseStatusDoc lib root)) ∧
      ∀ table es,
        Machine.Meets (tracedStep lib cfg) (Careful lib cfg) (SecState.init table, []) es →
        ∀ fuzzerStats status err,
          parseFinalExecutionSnapshot P fuzzerStats status
            (some (Machine.run (tracedStep lib cfg) (SecState.init table, []) es).2) =
              .error err →
          err.malformedTrace = false := by
  constructor
  · intro root isNew
    apply readable_iff hP
    · exact nvParseStatusDoc_execSeq_lt lib root
    · cases isNew with
      | false => exact Nat.zero_le 1
      | true => exact Nat.le_refl 1
  · intro table es hG fuzzerStats status err herr
    have hinv := Machine.run_inv_of_meets (tracedStep lib cfg) (Careful lib cfg)
      (fun s => TraceInv P s.2) (fun s e h hG => h.step hP hG)
      (s := (SecState.init table, [])) (TraceInv.nil P) hG
    exact snapshot_error hinv herr

end Read

/-! ## A path with a quote -/

/-- A status document with this path. -/
def docRoot (path : String) : CJson :=
  .object [(ascii "exec_seq", .number (.finite 1)), (ascii "path", .string (ascii path))]

/-- Any text of a status file. -/
def docText : Bytes := ascii "status"

/-- The parser at this text. -/
def docLib (path : String) : CLib := .ofDocs [(docText, docRoot path)]

/-- The snapshot file holds the document. -/
def docWorld : World where
  statusLedgerPath := none
  fopen _ := some ⟨docText.length, docText⟩

/-- No endpoint allowlist. -/
def openCfg : NvTargetCfg := ⟨false, []⟩

/-- The document is read once, and the trace is written. -/
def oneRead : List TracedEvent := [⟨.observe docWorld (ascii "status.json") 0, true⟩]

/-- What is left of a run that reads the document once. -/
def traceAfter (path : String) : Bytes :=
  (Machine.run (tracedStep (docLib path) openCfg) (SecState.init (some ⟨2, isPow2_two⟩), [])
    oneRead).2

/-- A library that reads every text, and integers only. -/
def plainLibrary : Library JsonCodec.Special where
  interp := plainInterp
  toInt
    | .int i => .ok i
    | _ => .error .invalid
  toInt_int _ := rfl
  intOfText text := if JsonCodec.isInt text then some (JsonCodec.readInt text) else none

theorem plainLibrary_noRefusal (text : Text) : plainLibrary.interp.refuses text = false := rfl

theorem plainLibrary_readsShort : plainLibrary.ReadsShort := fun text _ =>
  plainLibrary_noRefusal text

theorem docOfStep_oneRead (path : String) :
    docOfStep (docLib path) openCfg (SecState.init (some ⟨2, isPow2_two⟩))
        (.observe docWorld (ascii "status.json") 0) =
      some (nvParseStatusDoc (docLib path) (docRoot path)) := rfl

/-- The run writes the line of the document. -/
theorem traceAfter_eq (path : String) :
    ∃ isNew, traceAfter path =
      stateTraceLine (nvObsOfDoc (nvParseStatusDoc (docLib path) (docRoot path))
        (nvStateId openCfg (nvParseStatusDoc (docLib path) (docRoot path))) isNew)
        (nvStateKey openCfg (nvParseStatusDoc (docLib path) (docRoot path))) := by
  obtain ⟨-, isNew, hobs⟩ := acceptedDoc_eq_some (docOfStep_oneRead path)
  refine ⟨isNew, ?_⟩
  rw [← hobs]
  unfold traceAfter oneRead
  rw [Machine.run_cons, Machine.run_nil, tracedStep]
  dsimp only
  rw [docOfStep_oneRead]
  rfl

theorem state_trace_readable_plain :
    Readable plainLibrary (traceAfter "/a") (ascii "INVALID /a|other") ∧
      ∀ fuzzerStats status err,
        parseFinalExecutionSnapshot plainLibrary fuzzerStats status (some (traceAfter "/a")) =
          .error err → err.malformedTrace = false := by
  have hclean : Escapeless openCfg (nvParseStatusDoc (docLib "/a") (docRoot "/a")) :=
    fun _ _ => ⟨by decide, by decide⟩
  obtain ⟨hline, hrun⟩ := state_trace_readable plainLibrary_readsShort (docLib "/a") openCfg
  constructor
  · obtain ⟨isNew, htrace⟩ := traceAfter_eq "/a"
    rw [htrace]
    exact (hline (docRoot "/a") isNew).mpr hclean
  · refine hrun (some ⟨2, isPow2_two⟩) oneRead ⟨?_, trivial⟩
    intro d hd
    obtain rfl := Option.some.inj ((docOfStep_oneRead "/a").symm.trans hd)
    exact hclean

/-- The document with a quote in its path. -/
def quoteDoc : NvStatusDoc := nvParseStatusDoc (docLib "/a\"b") (docRoot "/a\"b")

theorem keyText_quoteDoc :
    keyText openCfg quoteDoc = chars "INVALID /a" ++ 34 :: 98 :: chars "|other" := by
  decide

theorem strip_lineText_ne_nil (obs : NvStateObs) (raw : Text) :
    Unicode.strip (lineText obs raw) ≠ [] := by
  have hlast : (lineText obs raw).getLast? = some 125 := by
    have hend : lineText obs raw = lineFront obs ++ (raw ++ (chars "\",\"state_id\":\"" ++
        (hexText obs.stateId.toNat ++ (chars "\",\"new\":" ++ JsonCodec.showNat obs.newStates)))) ++
          [125] := by
      simp only [lineText, lineBack, List.append_assoc]
      rfl
    rw [hend, List.getLast?_concat]
  rw [Unicode.strip, Substring.trim_eq_self Unicode.isSpace]
  · exact fun h => by simp [h] at hlast
  · intro c hc
    obtain rfl : 123 = c := Option.some.inj hc
    rfl
  · intro c hc
    obtain rfl : 125 = c := Option.some.inj (hlast.symm.trans hc)
    rfl

/-- The line of this document is no JSON text. -/
theorem loadRecord_quoteDoc (obs : NvStateObs) :
    loadRecord plainLibrary (lineText obs (keyText openCfg quoteDoc)) =
      .error .finalStateTraceInvalid := by
  have hmember := rawMember (F := JsonCodec.Special) obs (printable_keyText openCfg quoteDoc)
    (getLast?_keyText openCfg quoteDoc)
  have hread := hmember.read_of_quote (N := plainLibrary.interp.floats) (w := utf8Style)
    keyText_quoteDoc (by decide) (by decide) (by decide) (by decide) (by decide)
  rw [← lineText_eq] at hread
  have hload : loadsObject plainLibrary .finalStateTraceInvalid
      (lineText obs (keyText openCfg quoteDoc)) = .error .finalStateTraceInvalid := by
    rw [loadsObject, if_neg (by rw [plainLibrary_noRefusal]; exact Bool.false_ne_true), hread]
  exact bind_eq_error.mpr (.inl hload)

/-- One document with a quote in its path makes the reader reject the trace. -/
theorem trace_broken :
    plainLibrary.ReadsShort ∧
      ¬ Readable plainLibrary (traceAfter "/a\"b") (ascii "INVALID /a\"b|other") ∧
      ∀ fuzzerStats status stats last, finalStats plainLibrary fuzzerStats = .ok stats →
        finalStatus plainLibrary status = .ok last →
        parseFinalExecutionSnapshot plainLibrary fuzzerStats status (some (traceAfter "/a\"b")) =
          .error .finalStateTraceInvalid := by
  obtain ⟨isNew, htrace⟩ := traceAfter_eq "/a\"b"
  have htrace' : traceAfter "/a\"b" = stateTraceLine
      (nvObsOfDoc quoteDoc (nvStateId openCfg quoteDoc) isNew) (nvStateKey openCfg quoteDoc) :=
    htrace
  refine ⟨plainLibrary_readsShort, ?_, ?_⟩
  · rw [htrace']
    intro h
    have hseq : (nvObsOfDoc quoteDoc (nvStateId openCfg quoteDoc) isNew).execSeq < 2 ^ 64 :=
      nvParseStatusDoc_execSeq_lt _ _
    have hnew : (nvObsOfDoc quoteDoc (nvStateId openCfg quoteDoc) isNew).newStates ≤ 1 := by
      cases isNew with
      | false => exact Nat.zero_le 1
      | true => exact Nat.le_refl 1
    have hclean := (readable_iff plainLibrary_readsShort openCfg quoteDoc hseq hnew).mp h
    exact absurd (hclean (by decide) rfl).1 (by decide)
  · intro fuzzerStats status stats last hstats hstatus
    have hprint := printable_lineText (nvObsOfDoc quoteDoc (nvStateId openCfg quoteDoc) isNew)
      (printable_keyText openCfg quoteDoc)
    have hfile : (traceAfter "/a\"b").map UInt8.toNat =
        [lineText (nvObsOfDoc quoteDoc (nvStateId openCfg quoteDoc) isNew)
          (keyText openCfg quoteDoc)].flatMap (· ++ [10]) := by
      rw [htrace', map_stateTraceLine, List.flatMap_singleton]
      rfl
    have hlines := readLines_of_rows (by simpa using hprint) hfile
    obtain ⟨text, htext, hsplit⟩ := Option.map_eq_some_iff.mp hlines
    refine bind_eq_error.mpr (.inr ⟨stats, hstats, ?_⟩)
    refine bind_eq_error.mpr (.inr ⟨last, hstatus, ?_⟩)
    refine bind_eq_error.mpr (.inl ?_)
    rw [finalTrace, htext]
    dsimp only
    rw [hsplit]
    refine bind_eq_error.mpr (.inl ?_)
    refine bind_eq_error.mpr (.inl ?_)
    rw [List.mapM_cons]
    refine bind_eq_error.mpr (.inl ?_)
    rw [traceRecord, if_neg (strip_lineText_ne_nil _ _)]
    exact bind_eq_error.mpr (.inl (loadRecord_quoteDoc _))

end StateTrace

end AflNv
