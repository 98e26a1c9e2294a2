import AflNv.MabAudit

/-!
# The read-back of the final state

`_readback_base`, `validate_readback_artifact`, `parse_fuzzer_stats` and
`parse_final_execution_snapshot` of `scripts/run_alfresco_bounded_feedback.py`.  The
read-back artifact is a JSON document with an exact schema; the snapshot is what
the fuzzer left: its statistics, the last status and the state trace.

The files of a run are a map from paths to nodes, as they are when they are
inspected.
-/

namespace AflNv

open AflNv.Lib

/-! ## Files -/

/-- What a path names. -/
inductive Node where
  | absent
  | dir
  | file (content : FileRead)

/-- The files at the time of the inspection. -/
abbrev RunFiles := Bytes → Node

def Node.isFile : Node → Bool
  | .file _ => true
  | _ => false

def Node.isDir : Node → Bool
  | .dir => true
  | _ => false

/-- `Path.read_bytes`. -/
def Node.readBytes : Node → FileRead
  | .absent => .error (ascii "FileNotFoundError")
  | .dir => .error (ascii "IsADirectoryError")
  | .file content => content

/-- `path / name`. -/
def pathJoin (path : Bytes) (name : String) : Bytes := path ++ ascii "/" ++ ascii name

/-- The paths of a run. -/
structure Layout where
  targetConfig : Bytes
  task : Bytes
  seedDir : Bytes
  aflOutput : Bytes
  evidence : Bytes
  errDir : Bytes
  seed : Bytes
  status : Bytes
  statusSeq : Bytes
  stateTrace : Bytes
  mabJournal : Bytes
  seedSelectionAudit : Bytes
  multipartUploads : Bytes
  bodyValidStats : Bytes
  probe : Bytes
  stateDb : Bytes
  ctx : Bytes
  readback : Bytes

def Layout.fuzzerStats (layout : Layout) : Bytes := pathJoin layout.aflOutput "fuzzer_stats"

/-- `execution_ledger_path`. -/
def executionLedgerPath (layout : Layout) : Bytes := pathJoin layout.evidence "executions.jsonl"

variable {R : Type} (L : PyLib R) (files : RunFiles)

/-- `Path.read_text(encoding="utf-8")`. -/
def readText (path : Bytes) : Except PyError Bytes :=
  match (files path).readBytes with
  | .error _ => .error .osError
  | .ok data =>
    match L.decode data with
    | some text => .ok text
    | none => .error .unicodeDecodeError

/-- `key, value = line.split(":", 1)` of a line that holds a colon. -/
def splitColon (line : Bytes) : Option (Bytes × Bytes) :=
  if 58 ∈ line then
    let key := line.takeWhile (· ≠ 58)
    some (key, line.drop (key.length + 1))
  else none

/-- `values[key] = value`. -/
def setStat (values : PyDict Bytes) (item : Bytes × Bytes) : PyDict Bytes :=
  Json.setItem values (L.strStrip item.1) (L.strStrip item.2)

/-- `parse_fuzzer_stats`. -/
def parseFuzzerStats (path : Bytes) : Except PyError (PyDict Bytes) :=
  match (files path).readBytes with
  | .error _ => .error .osError
  | .ok data =>
    .ok (((L.strSplitlines (L.decodeReplace data)).filterMap splitColon).foldl (setStat L) [])

/-! ## The schema -/

/-- `isinstance(v, int) and not isinstance(v, bool)`. -/
def isPlainInt : PyJson R → Bool
  | .int _ => true
  | _ => false

/-- `v is True` or `v is False`. -/
def isBoolValue (v : PyJson R) (b : Bool) : Bool :=
  match v with
  | .bool c => c = b
  | _ => false

/-- A string with the given start. -/
def startsWith (v : PyJson R) (start : String) : Bool :=
  match v with
  | .str s => (ascii start).isPrefixOf s
  | _ => false

/-- A natural number that is no `bool`. -/
def isLength (v : PyJson R) : Bool :=
  match v with
  | .int i => 0 ≤ i
  | _ => false

/-- `_is_sha256_identity`. -/
def isSha256Identity (v : PyJson R) : Bool :=
  match v with
  | .str s =>
    let digest := s.drop 7
    (ascii "sha256:").isPrefixOf s && digest.length = 64 &&
      digest.all (· ∈ ascii "0123456789abcdef")
  | _ => false

def contentResultKeys : List Bytes :=
  ["expected_content_hash", "expected_content_length", "observed_content_hash",
    "observed_content_length", "content_hash_match", "content_length_match",
    "executed_request_status", "executed_request_succeeded", "content_effect_match"].map ascii

/-- Equality of two strings or of two integers, as the content check uses it. -/
def eqScalar (v w : PyJson R) : Bool :=
  match v, w with
  | .str s, .str t => s = t
  | .int i, .int j => i = j
  | _, _ => false

/-- `_validate_content_readback_result`. -/
def validateContentReadbackResult (result : PyDict (PyJson R)) : Bool :=
  let expectedHash := getItem result "expected_content_hash"
  let expectedLength := getItem result "expected_content_length"
  let observedHash := getItem result "observed_content_hash"
  let observedLength := getItem result "observed_content_length"
  let requestStatus := getItem result "executed_request_status"
  let hashMatch := eqScalar expectedHash observedHash
  let lengthMatch := eqScalar expectedLength observedLength
  let requestSucceeded := match requestStatus with
    | .int status => 200 ≤ status && status < 300
    | _ => false
  sameKeys result contentResultKeys &&
  (isNull expectedHash || isSha256Identity expectedHash) &&
  (isNull expectedLength || isLength expectedLength) &&
  isNull expectedHash = isNull expectedLength &&
  isSha256Identity observedHash && isLength observedLength &&
  (isNull requestStatus || isPlainInt requestStatus) &&
  isBoolValue (getItem result "content_hash_match") hashMatch &&
  isBoolValue (getItem result "content_length_match") lengthMatch &&
  isBoolValue (getItem result "executed_request_succeeded") requestSucceeded &&
  isBoolValue (getItem result "content_effect_match")
    (hashMatch && lengthMatch && requestSucceeded)

/-- The members of a value that is a `dict`. -/
def asDict : PyJson R → Option (PyDict (PyJson R))
  | .dict members => some members
  | _ => none

def metadataResultKeys : List Bytes := ["metadata_hash", "field_presence", "version_label"].map ascii

/-- `READBACK_METADATA_FIELDS`. -/
def readbackMetadataFields : List Bytes := ["cm:title", "cm:description"].map ascii

def presenceTypes : List Bytes :=
  ["null", "boolean", "number", "string", "array", "object"].map ascii

/-- One item of `field_presence`. -/
def isFieldPresence (field : PyJson R) : Bool :=
  match field with
  | .dict members =>
    sameKeys members (["name", "type"].map ascii) &&
    match getItem members "name", getItem members "type" with
    | .str name, .str type => name ∈ readbackMetadataFields && type ∈ presenceTypes
    | _, _ => false
  | _ => false

/-- The result part of a metadata read-back. -/
def isMetadataResult (result : PyDict (PyJson R)) : Bool :=
  (isNull (getItem result "metadata_hash") || startsWith (getItem result "metadata_hash") "sha256:") &&
  isNull (getItem result "version_label") &&
  match getItem result "field_presence" with
  | .list fields => fields.all isFieldPresence
  | _ => false

/-- A positive integer that is no `bool`. -/
def isPositiveInt (v : PyJson R) : Bool :=
  match v with
  | .int i => 0 < i
  | _ => false

def readbackKeys : List Bytes :=
  ["schema_version", "event", "correlation", "target", "request", "result", "ordering",
    "privacy"].map ascii

/-- The parts of a read-back artifact. -/
structure ReadbackParts (R : Type) where
  correlation : PyDict (PyJson R)
  target : PyDict (PyJson R)
  request : PyDict (PyJson R)
  result : PyDict (PyJson R)
  ordering : PyDict (PyJson R)
  privacy : PyDict (PyJson R)

/-- The parts, if each is a `dict`. -/
def readbackParts (payload : PyDict (PyJson R)) : Option (ReadbackParts R) := do
  let correlation ← asDict (getItem payload "correlation")
  let target ← asDict (getItem payload "target")
  let request ← asDict (getItem payload "request")
  let result ← asDict (getItem payload "result")
  let ordering ← asDict (getItem payload "ordering")
  let privacy ← asDict (getItem payload "privacy")
  return ⟨correlation, target, request, result, ordering, privacy⟩

/-- The checks on the parts. -/
def ReadbackParts.valid (parts : ReadbackParts R) : Bool :=
  sameKeys parts.correlation (["mode", "last_exec_seq", "valid_execution_count"].map ascii) &&
  eqStr (getItem parts.correlation "mode") (ascii "final_run_state") &&
  isPositiveInt (getItem parts.correlation "last_exec_seq") &&
  isPositiveInt (getItem parts.correlation "valid_execution_count") &&
  sameKeys parts.target (["node_identity", "parent_identity", "name"].map ascii) &&
  isText (getItem parts.target "node_identity") &&
  isText (getItem parts.target "parent_identity") && isText (getItem parts.target "name") &&
  startsWith (getItem parts.target "node_identity") "sha256:node:" &&
  startsWith (getItem parts.target "parent_identity") "sha256:parent:" &&
  sameKeys parts.request (["method", "status"].map ascii) &&
  eqStr (getItem parts.request "method") (ascii "GET") &&
  isPlainInt (getItem parts.request "status") &&
  (if sameKeys parts.result metadataResultKeys then isMetadataResult parts.result
    else validateContentReadbackResult parts.result) &&
  sameKeys parts.ordering (["run_completed", "timestamp_ms"].map ascii) &&
  isBoolValue (getItem parts.ordering "run_completed") true &&
  isPlainInt (getItem parts.ordering "timestamp_ms") &&
  sameKeys parts.privacy
    (["credentials_included", "authorization_included", "raw_body_included"].map ascii) &&
  parts.privacy.all fun item => isBoolValue item.2 false

/-- `validate_readback_artifact` on a `dict`: its parts, if it has the schema. -/
def validateReadbackArtifact (payload : PyDict (PyJson R)) : Option (ReadbackParts R) :=
  if sameKeys payload readbackKeys && eqInt L (getItem payload "schema_version") 1 &&
      eqStr (getItem payload "event") (ascii "post_execution_readback") then
    match readbackParts payload with
    | some parts => if parts.valid then some parts else none
    | none => none
  else none

/-- `_readback_base(applicable=False)`. -/
def readbackBase : PyDict (PyJson R) :=
  [(ascii "enabled", .bool true), (ascii "applicable", .bool false),
    (ascii "attempted", .bool false), (ascii "present", .bool false),
    (ascii "correlation", .str (ascii "moderate")), (ascii "status", .null),
    (ascii "identity_match", .bool false), (ascii "parent_match", .bool false),
    (ascii "verdict", .str (ascii "not_applicable")), (ascii "reconciled", .bool false),
    (ascii "valid_execution_count", .int 0)]

/-! ## The final snapshot -/

/-- `try: v except (OSError, ValueError, TypeError, KeyError): raise RuntimeError(message)`. -/
def orRuntimeError {α : Type} (message : String) : Except PyError α → Except PyError α
  | .ok a => .ok a
  | .error e =>
    if e.isValueError || e ∈ [PyError.osError, .typeError, .keyError] then
      .error (.runtimeError (ascii message))
    else .error e

/-- `record[key]`. -/
def requireItem {α : Type} (record : PyDict α) (key : String) : Except PyError α :=
  match record.lookup (ascii key) with
  | some v => .ok v
  | none => .error .keyError

/-- `_read_json_object`. -/
def readJsonObject (path : Bytes) (message : String) : Except PyError (PyDict (PyJson R)) := do
  let v ← orRuntimeError message do
    let text ← readText L files path
    L.jsonLoadsStr text
  match v with
  | .dict members => return members
  | _ => .error (.runtimeError (ascii message))

/-- What the fuzzer left. -/
structure ExecutionSnapshot (R : Type) where
  stats : PyDict Bytes
  status : PyDict (PyJson R)
  traceLast : PyDict (PyJson R)
  lastExecSeq : ℤ
  validExecutionCount : ℤ

/-- One line of the state trace; the records with an identity so far. -/
def readTraceLine (valid : List (PyDict (PyJson R))) (raw : Bytes) :
    Except PyError (List (PyDict (PyJson R))) :=
  if L.strStrip raw = [] then .ok valid
  else do
    let v ← orRuntimeError "FINAL_STATE_TRACE_INVALID" (L.jsonLoadsStr raw)
    match v with
    | .dict record => do
      let sequence ← orRuntimeError "FINAL_STATE_TRACE_EXEC_SEQ_INVALID" do
        let seq ← requireItem record "exec_seq"
        pyInt L seq
      return if 0 < sequence then valid ++ [record] else valid
    | _ => .error (.runtimeError (ascii "FINAL_STATE_TRACE_INVALID"))

/-- `parse_final_execution_snapshot`. -/
def parseFinalExecutionSnapshot (layout : Layout) : Except PyError (ExecutionSnapshot R) := do
  let (stats, validCount) ← orRuntimeError "FINAL_EXECUTION_SNAPSHOT_INVALID" do
    let stats ← parseFuzzerStats L files layout.fuzzerStats
    let raw ← requireItem stats "nv_total_valid_exec"
    match L.intOfText raw with
    | some i => return (stats, i)
    | none => .error .valueError
  if validCount < 0 then .error (.runtimeError (ascii "FINAL_EXECUTION_SNAPSHOT_INVALID"))
  else if validCount = 0 then
    .error (.runtimeError (ascii "FINAL_EXECUTION_SNAPSHOT_ZERO_VALID_EXEC"))
  else do
    let status ← readJsonObject L files layout.status "FINAL_STATUS_INVALID"
    let lastExecSeq ← orRuntimeError "FINAL_STATUS_EXEC_SEQ_INVALID" do
      let seq ← requireItem status "exec_seq"
      pyInt L seq
    if lastExecSeq ≤ 0 then .error (.runtimeError (ascii "FINAL_STATUS_EXEC_SEQ_INVALID"))
    else do
      let text ← orRuntimeError "FINAL_STATE_TRACE_UNAVAILABLE" (readText L files layout.stateTrace)
      let valid ← (L.strSplitlines text).foldlM (readTraceLine L) []
      match valid.getLast? with
      | none => .error (.runtimeError (ascii "FINAL_STATE_TRACE_NO_VALID_EXECUTION"))
      | some traceLast => do
        let seq ← requireItem traceLast "exec_seq"
        let last ← pyInt L seq
        if last ≠ lastExecSeq then .error (.runtimeError (ascii "FINAL_EXECUTION_SEQ_MISMATCH"))
        else return ⟨stats, status, traceLast, lastExecSeq, validCount⟩

end AflNv
