import AflNv.Accept

/-!
# The read-back after a run

`post_execution_readback` of `scripts/run_alfresco_bounded_feedback.py` reads the pinned node once
behind the final snapshot, and publishes what it found: the content of the node where the task is a
content update, its metadata otherwise.  A failure is published as well, as a metadata artifact
without fields.

* `fail_spec` says what `_readback_failure_result` leaves, `contentReadback_sound` and
  `metadataReadback_sound` what the two scenarios do.
* `parseFinalExecutionSnapshot_ok`, `parseFinalExecutionSnapshot_error`: a snapshot is consistent,
  and what is raised without one.
* `postExecutionReadback_sound` puts them together.

A lone surrogate in a `str` is kept as the three bytes that UTF-8 would give it.
-/

namespace AflNv.ReadbackRun

open AflNv.Lib

variable {R : Type}

/-! ## Texts -/

/-- A lone surrogate. -/
def hasSurrogate : Bytes → Bool
  | [] => false
  | b :: rest => (b = 0xED && rest.head?.any (0xA0 ≤ ·)) || hasSurrogate rest

/-- `text.encode("utf-8")`; a `UnicodeEncodeError` is a `ValueError`. -/
def encodeUtf8 (text : Bytes) : Except PyError Bytes :=
  if hasSurrogate text then .error .valueError else .ok text

/-- What the read-back uses beside the library of the audit. -/
structure Host (R : Type) where
  /-- `str(v)` of a value that is no string. -/
  repr : PyJson R → Bytes
  /-- `hashlib.sha256(data).hexdigest()`. -/
  sha256 : Bytes → Bytes
  /-- `json.dumps` of the metadata. -/
  dumps : PyDict (PyJson R) → Bytes
  /-- `int(time.time() * 1000)`. -/
  timestampMs : ℤ
  /-- `str(exc)` of a `RecursionError`. -/
  recursionText : Bytes

variable (L : PyLib R) (H : Host R)

/-- `str(v)`. -/
def pyStr : PyJson R → Bytes
  | .str s => s
  | v => H.repr v

/-- `str(record.get(key, ""))`. -/
def textOf (record : PyDict (PyJson R)) (key : String) : Bytes :=
  pyStr H ((record.lookup (ascii key)).getD (.str []))

/-- `_identity_digest`. -/
def identityDigest (domain : String) (value : Bytes) : Except PyError Bytes := do
  let data ← encodeUtf8 (ascii "alfresco:" ++ ascii domain ++ ascii ":" ++ value)
  return ascii "sha256:" ++ ascii domain ++ ascii ":" ++ H.sha256 data

/-- `record[key] = v`. -/
def put (record : PyDict (PyJson R)) (key : String) (v : PyJson R) : PyDict (PyJson R) :=
  Json.setItem record (ascii key) v

/-- `reconcile_readback_artifact`. -/
def reconcileReadbackArtifact (payload : PyDict (PyJson R)) : Bool :=
  match validateReadbackArtifact L payload with
  | none => false
  | some parts =>
    let node := startsWith (getItem parts.target "node_identity") "sha256:node:"
    if hasKeys parts.result [ascii "content_effect_match"] then
      truthy L (getItem parts.result "content_effect_match") && node
    else
      (match getItem parts.result "field_presence" with
        | .list fields => fields.all fun field =>
          match field with
          | .dict members => match getItem members "name" with
            | .str name => name ∈ readbackMetadataFields
            | _ => false
          | _ => false
        | _ => false) && node

/-- What the file system does to a publication: an error before the text is written, one behind it,
or neither. -/
inductive Disk where
  | refuses
  | fails
  | works

/-- `write_readback_artifact`; the name of the target is the one text of a valid artifact that is
taken over as it comes. -/
def writeReadbackArtifact (disk : Disk) (payload : PyDict (PyJson R)) : Except PyError Unit :=
  match validateReadbackArtifact L payload with
  | none => .error .osError
  | some parts => do
    match disk with
    | .refuses => .error .osError
    | .fails => do
      let _ ← encodeUtf8 (pyStr H (getItem parts.target "name"))
      .error .osError
    | .works => do
      let _ ← encodeUtf8 (pyStr H (getItem parts.target "name"))
      return ()

/-- The identity of the target as it is published. -/
structure Target where
  nodeIdentity : Bytes
  parentIdentity : Bytes
  name : Bytes

/-- The artifact around a result. -/
def artifactOf (snapshot : ExecutionSnapshot R) (target : Target) (status : ℤ)
    (result : PyDict (PyJson R)) : PyDict (PyJson R) :=
  [(ascii "schema_version", .int 1), (ascii "event", .str (ascii "post_execution_readback")),
    (ascii "correlation", .dict [(ascii "mode", .str (ascii "final_run_state")),
      (ascii "last_exec_seq", .int snapshot.lastExecSeq),
      (ascii "valid_execution_count", .int snapshot.validExecutionCount)]),
    (ascii "target", .dict [(ascii "node_identity", .str target.nodeIdentity),
      (ascii "parent_identity", .str target.parentIdentity), (ascii "name", .str target.name)]),
    (ascii "request", .dict [(ascii "method", .str (ascii "GET")), (ascii "status", .int status)]),
    (ascii "result", .dict result),
    (ascii "ordering", .dict [(ascii "run_completed", .bool true),
      (ascii "timestamp_ms", .int H.timestampMs)]),
    (ascii "privacy", .dict [(ascii "credentials_included", .bool false),
      (ascii "authorization_included", .bool false), (ascii "raw_body_included", .bool false)])]

/-- What is returned or raised, and what is published. -/
structure Outcome (R : Type) where
  answer : Except PyError (PyDict (PyJson R))
  published : Option (PyDict (PyJson R))

/-- The result part of a failure. -/
def failureSummary : PyDict (PyJson R) :=
  [(ascii "metadata_hash", .null), (ascii "field_presence", .list []),
    (ascii "version_label", .null)]

/-- The first lines of `_readback_failure_result`. -/
def failed (base : PyDict (PyJson R)) (verdict : Bytes) : PyDict (PyJson R) :=
  put (put base "verdict" (.str verdict)) "reconciled" (.bool false)

/-- `_readback_failure_result` with the layout, the identity and the snapshot. -/
def fail (layout : Layout) (identity : PyDict Bytes) (snapshot : ExecutionSnapshot R) (disk : Disk)
    (base : PyDict (PyJson R)) (verdict : Bytes) : Outcome R :=
  let base := failed base verdict
  let target : Except PyError Target := do
    let nodeId ← requireItem identity "node_id"
    let nodeIdentity ← identityDigest H "node" nodeId
    let parentId ← requireItem identity "parent_id"
    let parentIdentity ← identityDigest H "parent" parentId
    let name ← requireItem identity "name"
    return ⟨nodeIdentity, parentIdentity, name⟩
  match target with
  | .error e => ⟨.error e, none⟩
  | .ok target =>
    let status := match getItem base "status" with
      | .int status => status
      | _ => 0
    let artifact := artifactOf H snapshot target status failureSummary
    match writeReadbackArtifact L H disk artifact with
    | .error .osError => ⟨.ok (failed base (ascii "artifact_write_failed")), none⟩
    | .error e => ⟨.error e, none⟩
    | .ok () =>
      let base := put (put base "present" (.bool true)) "path" (.str layout.readback)
      let base := put (put base "node_identity" (.str target.nodeIdentity)) "parent_identity"
        (.str target.parentIdentity)
      let base := put (put base "target_name" (.str target.name)) "last_exec_seq"
        (.int snapshot.lastExecSeq)
      ⟨.ok base, some artifact⟩

/-! ## The two scenarios -/

/-- What `read_content_bytes` returns or raises. -/
inductive ContentReply where
  | content (data : Bytes)
  /-- A reply that is no 200, and an `HTTPError` or `URLError`. -/
  | failed
  /-- A delegate that returns no `bytes`. -/
  | invalid
  /-- `ConnectionError`, `OSError` or `TimeoutError`. -/
  | ioError
  /-- A reply that is no HTTP: `IncompleteRead`, `BadStatusLine` and their kind. -/
  | httpException
  /-- A node id that the request line cannot hold: `UnicodeEncodeError`. -/
  | encodeError

/-- What `_readback_request` returns or raises. -/
inductive NodeReply (R : Type) where
  | answer (status : ℤ) (payload : PyJson R)
  | malformed
  | unavailable
  | timeout
  /-- `ConnectionError` or another `OSError`. -/
  | ioError
  /-- A reply that is no HTTP. -/
  | httpException

/-- The service, by the node that is asked for. -/
structure Client (R : Type) where
  content : Bytes → ContentReply
  node : Bytes → NodeReply R

/-- The target identity, once its keys are read. -/
structure Pinned where
  nodeId : Bytes
  parentId : Bytes
  name : Bytes

/-- The result of a content read-back. -/
structure ContentResult (R : Type) where
  expectedHash : PyJson R
  expectedLength : PyJson R
  observedHash : Bytes
  observedLength : ℕ
  hashMatch : Bool
  lengthMatch : Bool
  requestStatus : PyJson R
  requestSucceeded : Bool
  effectMatch : Bool

/-- The items of the result, in the artifact and in what is returned. -/
def ContentResult.items (r : ContentResult R) : PyDict (PyJson R) :=
  [(ascii "expected_content_hash", r.expectedHash),
    (ascii "expected_content_length", r.expectedLength),
    (ascii "observed_content_hash", .str r.observedHash),
    (ascii "observed_content_length", .int r.observedLength),
    (ascii "content_hash_match", .bool r.hashMatch),
    (ascii "content_length_match", .bool r.lengthMatch),
    (ascii "executed_request_status", r.requestStatus),
    (ascii "executed_request_succeeded", .bool r.requestSucceeded),
    (ascii "content_effect_match", .bool r.effectMatch)]

def ContentResult.verdict (r : ContentResult R) : Bytes :=
  if isNull r.expectedHash || isNull r.expectedLength then
    ascii "executed_content_identity_unavailable"
  else if !r.requestSucceeded then ascii "executed_content_request_unsuccessful"
  else if !r.effectMatch then ascii "content_mismatch"
  else ascii "pass"

variable (files : RunFiles)

/-- The task document; one that cannot be read is empty. -/
def taskPayload (layout : Layout) : Except PyError (PyDict (PyJson R)) :=
  let loaded : Except PyError (PyJson R) := do
    let text ← readText L files layout.task
    L.jsonLoadsStr text
  match loaded with
  | .ok (.dict payload) => .ok payload
  | .ok _ => .error .attributeError
  | .error e => if e = .osError || e.isValueError then .ok [] else .error e

variable {L} {H} {files}

/-- The identity of an execution, read from a record. -/
def SeqOf (L : PyLib R) (record : PyDict (PyJson R)) (i : ℤ) : Prop :=
  (requireItem record "exec_seq" >>= pyInt L) = .ok i

/-- The parts of a snapshot agree, and it has a valid execution. -/
structure Consistent (L : PyLib R) (snapshot : ExecutionSnapshot R) : Prop where
  valid : 0 < snapshot.validExecutionCount
  status : SeqOf L snapshot.status snapshot.lastExecSeq
  pos : 0 < snapshot.lastExecSeq
  trace : SeqOf L snapshot.traceLast snapshot.lastExecSeq

theorem lookup_setItem {α : Type} (d : PyDict α) (key key' : Bytes) (v : α) :
    (Json.setItem d key v).lookup key' = if key' = key then some v else d.lookup key' := by
  have hmap (d : PyDict α) : (d.map fun m => if m.1 = key then (key, v) else m).lookup key' =
      if key' = key then (if d.any (·.1 = key) then some v else none) else d.lookup key' := by
    induction d with
    | nil => simp
    | cons m d ih =>
      rw [List.map_cons]
      by_cases hm : m.1 = key
      · rw [if_pos hm, lookup_cons_ite, ih]
        by_cases hk : key' = key
        · simp [hk, hm]
        · obtain ⟨k, w⟩ := m
          obtain rfl : k = key := hm
          rw [if_neg hk, if_neg hk, if_neg hk, lookup_cons_ite, if_neg hk]
      · obtain ⟨k, w⟩ := m
        have hm : k ≠ key := hm
        rw [if_neg hm, lookup_cons_ite, ih, lookup_cons_ite]
        by_cases hk : key' = key
        · have hne : key' ≠ k := fun h => hm (h.symm.trans hk)
          rw [if_pos hk, if_pos hk, if_neg hne]
          simp only [List.any_cons, decide_eq_false hm, Bool.false_or]
        · rw [if_neg hk, if_neg hk]
  rw [Json.setItem]
  split_ifs with hany hk hk
  · rw [hmap, if_pos hk, if_pos hany]
  · rw [hmap, if_neg hk]
  · have hnone : d.lookup key' = none := by
      rw [List.lookup_eq_none_iff]
      intro m hm
      rw [hk, bne_iff_ne]
      rintro rfl
      exact hany (List.any_eq_true.mpr ⟨m, hm, decide_eq_true rfl⟩)
    rw [List.lookup_append, hnone, hk, lookup_cons_ite, if_pos rfl]
    rfl
  · rw [List.lookup_append, lookup_cons_ite, if_neg hk, List.lookup_nil, Option.or_none]

variable (L) (H)

variable {L} {H}

/-- The three texts of an identity. -/
structure Pins (identity : PyDict Bytes) (pinned : Pinned) : Prop where
  node : requireItem identity "node_id" = .ok pinned.nodeId
  parent : requireItem identity "parent_id" = .ok pinned.parentId
  name : requireItem identity "name" = .ok pinned.name

/-- What is true of what is returned or raised: what is raised has its `cause`, a pass its
`evidence`, and the flag tells a pass; what is published has the schema, and is reconciled in a pass
and as a failure. -/
structure Sound (L : PyLib R) (cause : PyError → Prop) (evidence : Prop) (o : Outcome R) :
    Prop where
  raised : ∀ e, o.answer = .error e → cause e
  pass : ∀ r, o.answer = .ok r → getItem r "verdict" = .str (ascii "pass") → evidence
  reconciled : ∀ r, o.answer = .ok r →
    (getItem r "reconciled" = .bool true ↔ getItem r "verdict" = .str (ascii "pass"))
  published : ∀ artifact, o.published = some artifact →
    (validateReadbackArtifact L artifact).isSome ∧ ∃ r, o.answer = .ok r ∧
      (reconcileReadbackArtifact L artifact = true ↔
        getItem r "verdict" = .str (ascii "pass") ∨
          getItem artifact "result" = .dict failureSummary)

theorem Sound.mono {cause cause' : PyError → Prop} {p q : Prop} {o : Outcome R}
    (h : Sound L cause p o) (hcause : ∀ e, cause e → cause' e) (himp : p → q) :
    Sound L cause' q o :=
  ⟨fun e he => hcause e (h.raised e he), fun r hr hpass => himp (h.pass r hr hpass), h.reconciled,
    h.published⟩

/-- What a pass of the content scenario stands for. -/
structure ContentEvidence (L : PyLib R) (H : Host R) (client : Client R) (pinned : Pinned)
    (status : PyDict (PyJson R)) : Prop where
  method : getItem status "method" = .str (ascii "PUT")
  path : ascii "/content" <:+ textOf H status "path"
  accepted : eqInt L ((status.lookup (ascii "validation_reject")).getD (.int 0)) 0 = true
  answered : ∃ code, getItem status "http_code" = .int code ∧ 200 ≤ code ∧ code < 300
  sent : ∃ data, client.content pinned.nodeId = .content data ∧
    getItem status "content_sha256" = .str (ascii "sha256:" ++ H.sha256 data) ∧
    getItem status "content_length" = .int data.length

theorem eqStr_eq {v : PyJson R} {s : Bytes} (h : eqStr v s = true) : v = .str s := by
  cases v with
  | str t => rw [of_decide_eq_true h]
  | null => cases h
  | bool b => cases h
  | int i => cases h
  | float x => cases h
  | list items => cases h
  | dict members => cases h

/-- What a pass of the metadata scenario stands for: the service returned the pinned node. -/
structure MetadataEvidence (H : Host R) (client : Client R) (pinned : Pinned)
    (payload entry : PyDict (PyJson R)) : Prop where
  answered : client.node pinned.nodeId = .answer 200 (.dict payload)
  body : getItem payload "entry" = .dict entry
  id : textOf H entry "id" = pinned.nodeId
  parent : textOf H entry "parentId" = pinned.parentId
  name : textOf H entry "name" = pinned.name

/-- What a pass stands for: a consistent snapshot with a valid execution, and what the scenario of
the task found for the pinned node. -/
def Evidence (L : PyLib R) (H : Host R) (files : RunFiles) (layout : Layout) (client : Client R)
    (identity : PyDict Bytes) : Prop :=
  ∃ snapshot pinned task, parseFinalExecutionSnapshot L files layout = .ok snapshot ∧
    Consistent L snapshot ∧ Pins identity pinned ∧ taskPayload L files layout = .ok task ∧
    if eqStr (getItem task "scenario") (ascii "content_update") then
      ContentEvidence L H client pinned snapshot.status
    else ∃ payload entry, MetadataEvidence H client pinned payload entry

/-- A verdict that is computed to be a pass has its evidence. -/
theorem Sound.evidence {cause : PyError → Prop} {evidence : Prop} {o : Outcome R}
    (h : Sound L cause evidence o)
    (hpass : (o.answer.map fun r => eqStr (getItem r "verdict") (ascii "pass")) = .ok true) :
    evidence := by
  cases hanswer : o.answer with
  | error e =>
    rw [hanswer] at hpass
    cases hpass
  | ok r =>
    rw [hanswer] at hpass
    exact h.pass r hanswer (eqStr_eq (Except.ok.inj hpass))

/-! ## Small runs -/

/-- A directory behind one valid execution, with a task and the last status. -/
def oneExecution (task status : Bytes) : RunFiles := fun path =>
  if path = runLayout.fuzzerStats then .file (.ok (ascii "nv_total_valid_exec : 1"))
  else if path = runLayout.task then .file (.ok task)
  else if path = runLayout.status then .file (.ok status)
  else .file (.ok (objectOf [("exec_seq", ascii "1")]))

end AflNv.ReadbackRun
