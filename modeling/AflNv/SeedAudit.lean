import Mathlib.Data.List.Dedup
import Mathlib.Data.List.Sort
import AflNv.Python

/-!
# Reading the audit of seed selections

`scripts/run_alfresco_bounded_feedback.py`: `parse_seed_selection_audit` reads a
file of JSON lines and rejects what is not a selection, and
`reconcile_seed_selection_audit` compares the records with the fuzzer's counters.

The parser keeps a fingerprint of each record, the JSON text with sorted keys,
to find a repeated one.  Two records have one fingerprint exactly when they hold
the same values, so the model keeps the records themselves.

`Numbered` is the specification: the records of one queue id carry the numbers
`1, 2, ..` in order.  `parse_numbered` shows that such a file is valid, and
`reconcile_numbered` that it reconciles with counters that agree with it.
-/

namespace AflNv

open AflNv.Lib

section

variable {R : Type} [DecidableEq R]

/-! ## Records -/

/-- A number as a record holds it. -/
inductive PyNumber (R : Type) where
  | int (i : ℤ)
  | float (x : PyFloat R)
  deriving DecidableEq

/-- A record that passed every check of the parser. -/
structure SeedRecord (R : Type) where
  queueId : ℤ
  depth : ℤ
  ssCovCnt : ℤ
  ssSelectedCnt : ℤ
  ssProb : PyNumber R
  deriving DecidableEq

/-- The keys of a record. -/
def seedRecordKeys : List Bytes :=
  ["queue_id", "depth", "ss_cov_cnt", "ss_selected_cnt", "ss_prob"].map ascii

/-- The checks on a loaded record: the record, or the diagnostic of the first
check that fails. -/
def seedRecordOf (L : PyLib R) : PyJson R → Except PyError (Bytes ⊕ SeedRecord R)
  | .dict record =>
    if !sameKeys record seedRecordKeys then .ok (.inl (ascii "schema_violation:"))
    else
      match record.lookup (ascii "queue_id"), record.lookup (ascii "depth"),
        record.lookup (ascii "ss_cov_cnt"), record.lookup (ascii "ss_selected_cnt") with
      | some (.int queueId), some (.int depth), some (.int ssCovCnt), some (.int ssSelectedCnt) =>
        if queueId < 0 || depth < 0 || ssCovCnt < 0 || ssSelectedCnt < 1 then
          .ok (.inl (ascii "integer_range:"))
        else
          match record.lookup (ascii "ss_prob") with
          | some (.int p) =>
            match L.floatOfInt p with
            | none => .error .overflowError
            | some x =>
              if x.isfinite then .ok (.inr ⟨queueId, depth, ssCovCnt, ssSelectedCnt, .int p⟩)
              else .ok (.inl (ascii "probability_nonfinite:"))
          | some (.float x) =>
            if x.isfinite then .ok (.inr ⟨queueId, depth, ssCovCnt, ssSelectedCnt, .float x⟩)
            else .ok (.inl (ascii "probability_nonfinite:"))
          | _ => .ok (.inl (ascii "probability_type:"))
      | _, _, _, _ => .ok (.inl (ascii "integer_type:"))
  | _ => .ok (.inl (ascii "schema_violation:"))

/-! ## The parser -/

/-- `d.setdefault(key, []).append(v)`. -/
def appendAt (key v : ℤ) : List (ℤ × List ℤ) → List (ℤ × List ℤ)
  | [] => [(key, [v])]
  | item :: d => if item.1 = key then (key, item.2 ++ [v]) :: d else item :: appendAt key v d

/-- What `parse_seed_selection_audit` returns. -/
structure ParsedSeedAudit where
  valid : Bool
  recordCount : ℕ
  queueIds : List ℤ
  perQueueRecords : List (ℤ × List ℤ)
  malformedCount : ℕ
  partialFinalLine : Bool
  duplicateCount : ℕ
  diagnostics : List Bytes
  deriving DecidableEq

def ParsedSeedAudit.empty : ParsedSeedAudit where
  valid := true
  recordCount := 0
  queueIds := []
  perQueueRecords := []
  malformedCount := 0
  partialFinalLine := false
  duplicateCount := 0
  diagnostics := []

/-- A diagnostic that makes the file invalid. -/
def ParsedSeedAudit.reject (diagnostic : Bytes) (p : ParsedSeedAudit) : ParsedSeedAudit :=
  { p with valid := false, diagnostics := p.diagnostics ++ [diagnostic] }

/-- Count a record. -/
def ParsedSeedAudit.add (r : SeedRecord R) (p : ParsedSeedAudit) : ParsedSeedAudit :=
  { p with
    recordCount := p.recordCount + 1
    queueIds := p.queueIds ++ [r.queueId]
    perQueueRecords := appendAt r.queueId r.ssSelectedCnt p.perQueueRecords }

/-- One line of the file; the state is the result so far and the fingerprints. -/
def parseSeedLine (L : PyLib R) (st : ParsedSeedAudit × List (SeedRecord R)) (line : Bytes × ℕ) :
    Except PyError (ParsedSeedAudit × List (SeedRecord R)) :=
  let (p, fingerprints) := st
  let (raw, number) := line
  if raw = [] then .ok (p.reject (ascii "blank_line:" ++ showNat number), fingerprints)
  else
    match L.jsonLoads raw with
    | .error e =>
      if e.isDecodeError then
        let p := p.reject (ascii "malformed_line:" ++ showNat number)
        .ok ({ p with malformedCount := p.malformedCount + 1 }, fingerprints)
      else .error e
    | .ok record =>
      match seedRecordOf L record with
      | .error e => .error e
      | .ok (.inl diagnostic) => .ok (p.reject (diagnostic ++ showNat number), fingerprints)
      | .ok (.inr r) =>
        let p := p.add r
        if r ∈ fingerprints then
          let p := p.reject (ascii "duplicate_record:" ++ showNat number)
          .ok ({ p with duplicateCount := p.duplicateCount + 1 }, fingerprints)
        else .ok (p, r :: fingerprints)

/-- `parse_seed_selection_audit`. -/
def parseSeedSelectionAudit (L : PyLib R) (file : FileRead) : Except PyError ParsedSeedAudit :=
  match file with
  | .error cls => .ok (ParsedSeedAudit.empty.reject (ascii "unreadable:" ++ cls))
  | .ok data =>
    let p := ParsedSeedAudit.empty
    let p :=
      if hasPartialLine data then
        { p.reject (ascii "partial_final_line") with partialFinalLine := true }
      else p
    ((numbered (splitlines data)).foldlM (parseSeedLine L) (p, [])).map Prod.fst

end

/-! ## The reconciliation -/

/-- The text, if the condition holds. -/
def flag (cond : Bool) (text : String) : List Bytes := if cond then [ascii text] else []

/-- `int(stats[key])`; `none` is a `KeyError` or a `ValueError`. -/
def statInt {R : Type} (L : PyLib R) (stats : PyDict Bytes) (key : String) : Option ℤ :=
  (stats.lookup (ascii key)).bind L.intOfText

/-- `d[key] = v`. -/
def setAt (key v : ℤ) : List (ℤ × ℤ) → List (ℤ × ℤ)
  | [] => [(key, v)]
  | item :: d => if item.1 = key then (key, v) :: d else item :: setAt key v d

def queueStatKey : Bytes := ascii "ss_selected_queue_"

/-- One item of the statistics: the counts of the queue ids so far, and the
diagnostics. -/
def addQueueStat {R : Type} (L : PyLib R) (acc : List (ℤ × ℤ) × List Bytes)
    (item : Bytes × Bytes) : List (ℤ × ℤ) × List Bytes :=
  if queueStatKey.isPrefixOf item.1 then
    match L.intOfText (item.1.drop queueStatKey.length), L.intOfText item.2 with
    | some queueId, some n => (setAt queueId n acc.1, acc.2)
    | _, _ => (acc.1, acc.2 ++ [ascii "invalid_queue_selection_stat:" ++ item.1])
  else acc

/-- `list(range(1, n + 1))`. -/
def rangeFromOne (n : ℤ) : List ℤ := (List.range n.toNat).map fun i : ℕ => (i : ℤ) + 1

/-- A queue id in the comparison. -/
structure QueueComparison where
  queueId : ℤ
  expected : ℤ
  observed : List ℤ
  /-- The fuzzer reports the queue id. -/
  inSource : Bool
  deriving DecidableEq

def QueueComparison.inSequence (c : QueueComparison) : Bool :=
  c.observed = rangeFromOne c.expected

def QueueComparison.diagnostics (c : QueueComparison) : List Bytes :=
  (if c.inSource then [] else [ascii "queue_id_not_in_source:" ++ showInt c.queueId]) ++
  (if (c.observed.length : ℤ) = c.expected then []
    else [ascii "queue_selection_count_mismatch:" ++ showInt c.queueId]) ++
  (if c.inSequence then []
    else [ascii "queue_selection_sequence_mismatch:" ++ showInt c.queueId])

/-- The queue ids of both sides, sorted. -/
def compareQueues (expected : List (ℤ × ℤ)) (observed : List (ℤ × List ℤ)) :
    List QueueComparison :=
  ((expected.map Prod.fst ++ observed.map Prod.fst).dedup.insertionSort (· ≤ ·)).map fun queueId =>
    { queueId := queueId
      expected := (expected.lookup queueId).getD 0
      observed := (observed.lookup queueId).getD []
      inSource := (expected.lookup queueId).isSome }

/-- What `reconcile_seed_selection_audit` returns. -/
structure SeedReconciliation where
  reconciled : Bool
  diagnostics : List Bytes
  expectedRecords : ℤ
  actualRecords : ℕ
  perQueue : List QueueComparison
  enabled : Bool
  errorCount : ℤ
  auditInvalid : Bool
  malformedCount : ℕ
  partialFinalLine : Bool
  /-- Missing when the statistics are. -/
  duplicateCount : Option ℕ
  missingRecordCount : ℤ
  extraRecordCount : ℤ
  duplicateOrOutOfOrderCount : ℕ
  deriving DecidableEq

/-- The comparison of the totals. -/
def seedTotalDiagnostics (p : ParsedSeedAudit)
    (expected producerExpected producerRecords enabled errorCount auditInvalid : ℤ) :
    List Bytes :=
  p.diagnostics ++ flag (!p.valid) "audit_invalid_records" ++
  flag (enabled = 0) "seed_audit_not_enabled_by_fuzzer" ++
  flag (expected < 0) "negative_expected_selection_count" ++
  flag (producerExpected ≠ expected) "producer_expected_selection_count_mismatch" ++
  flag (producerRecords ≠ p.recordCount) "producer_record_count_mismatch" ++
  flag ((p.recordCount : ℤ) < expected) "missing_selection_records" ++
  flag (expected < p.recordCount) "extra_selection_records" ++
  flag (0 < expected && p.recordCount = 0) "selected_seeds_missing_audit_records" ++
  flag (errorCount ≠ 0 || auditInvalid ≠ 0) "seed_audit_marked_invalid_by_fuzzer"

/-- `reconcile_seed_selection_audit`. -/
def reconcileSeedSelectionAudit {R : Type} (L : PyLib R) (p : ParsedSeedAudit)
    (stats : PyDict Bytes) : SeedReconciliation :=
  match statInt L stats "ss_selected_sum", statInt L stats "seed_audit_expected_selection_count",
    statInt L stats "seed_audit_record_count", statInt L stats "seed_audit_enabled",
    statInt L stats "seed_audit_error_count", statInt L stats "seed_audit_invalid" with
  | some expected, some producerExpected, some producerRecords, some enabled, some errorCount,
    some auditInvalid =>
    let (perQueueStats, statDiagnostics) := stats.foldl (addQueueStat L) ([], [])
    let perQueue := compareQueues perQueueStats p.perQueueRecords
    let diagnostics :=
      seedTotalDiagnostics p expected producerExpected producerRecords enabled errorCount
        auditInvalid ++
      statDiagnostics ++
      flag (expected ≠ 0 && perQueueStats = []) "missing_per_queue_selection_stats" ++
      flag ((perQueueStats.map Prod.snd).sum ≠ expected) "per_queue_selection_total_mismatch" ++
      perQueue.flatMap QueueComparison.diagnostics
    { reconciled := diagnostics = []
      diagnostics := diagnostics
      expectedRecords := expected
      actualRecords := p.recordCount
      perQueue := perQueue
      enabled := enabled ≠ 0
      errorCount := errorCount
      auditInvalid := auditInvalid ≠ 0
      malformedCount := p.malformedCount
      partialFinalLine := p.partialFinalLine
      duplicateCount := some p.duplicateCount
      missingRecordCount := max (expected - p.recordCount) 0
      extraRecordCount := max (p.recordCount - expected) 0
      duplicateOrOutOfOrderCount := perQueue.countP fun c => !c.inSequence }
  | _, _, _, _, _, _ =>
    { reconciled := false
      diagnostics := [ascii "missing_seed_selection_stats"]
      expectedRecords := 0
      actualRecords := p.recordCount
      perQueue := []
      enabled := true
      errorCount := 0
      auditInvalid := true
      malformedCount := p.malformedCount
      partialFinalLine := p.partialFinalLine
      duplicateCount := none
      missingRecordCount := 0
      extraRecordCount := 0
      duplicateOrOutOfOrderCount := 0 }

/-- What is reconciled has the count of the recorder as the sum of the selections. -/
theorem reconciled_expected {R : Type} {L : PyLib R} {p : ParsedSeedAudit} {stats : PyDict Bytes}
    {expected producerExpected : ℤ} (h : (reconcileSeedSelectionAudit L p stats).reconciled = true)
    (hexpected : statInt L stats "ss_selected_sum" = some expected)
    (hproducer : statInt L stats "seed_audit_expected_selection_count" = some producerExpected) :
    producerExpected = expected := by
  unfold reconcileSeedSelectionAudit at h
  rw [hexpected, hproducer] at h
  split at h
  · next expected' producer' records enabled errors invalid he hp _ _ _ _ =>
    cases he
    cases hp
    simp only [decide_eq_true_eq, List.append_eq_nil_iff, seedTotalDiagnostics] at h
    by_contra hne
    simp [flag, hne] at h
  · cases h

/-! ## Numbered records -/

section

variable {R : Type} [DecidableEq R]

/-- The numbers that the records of one queue id carry. -/
def selections (queueId : ℤ) (rs : List (SeedRecord R)) : List ℤ :=
  (rs.filter fun r => r.queueId = queueId).map SeedRecord.ssSelectedCnt

/-- The records of each queue id are numbered from one. -/
def Numbered (rs : List (SeedRecord R)) : Prop :=
  ∀ queueId, selections queueId rs = rangeFromOne (selections queueId rs).length

/-- What the parser returns for a file of distinct records. -/
def seedSummary (rs : List (SeedRecord R)) : ParsedSeedAudit :=
  rs.foldl (fun p r => p.add r) .empty

omit [DecidableEq R] in
@[simp] theorem seedSummary_concat (rs : List (SeedRecord R)) (r : SeedRecord R) :
    seedSummary (rs ++ [r]) = (seedSummary rs).add r := by
  rw [seedSummary, List.foldl_append]
  rfl

omit [DecidableEq R] in
theorem selections_concat (queueId : ℤ) (rs : List (SeedRecord R)) (r : SeedRecord R) :
    selections queueId (rs ++ [r]) =
      selections queueId rs ++ if r.queueId = queueId then [r.ssSelectedCnt] else [] := by
  rw [selections, List.filter_append, List.map_append]
  by_cases h : r.queueId = queueId
  · simp [selections, h]
  · simp [selections, h]

theorem rangeFromOne_natCast (n : ℕ) :
    rangeFromOne n = (List.range n).map fun i : ℕ => (i : ℤ) + 1 := rfl

theorem rangeFromOne_succ (n : ℕ) :
    rangeFromOne (n + 1 : ℕ) = rangeFromOne n ++ [(n : ℤ) + 1] := by
  rw [rangeFromOne_natCast, List.range_succ, List.map_append]
  rfl

omit [DecidableEq R] in
theorem numbered_nil : Numbered ([] : List (SeedRecord R)) := fun _ => rfl

omit [DecidableEq R] in
/-- A record with the next number of its queue id. -/
theorem Numbered.concat {rs : List (SeedRecord R)} (h : Numbered rs) {r : SeedRecord R}
    (hr : r.ssSelectedCnt = (selections r.queueId rs).length + 1) : Numbered (rs ++ [r]) := by
  intro queueId
  rw [selections_concat]
  by_cases hid : r.queueId = queueId
  · rw [if_pos hid, List.length_append, List.length_singleton, rangeFromOne_succ, ← h queueId, hr,
      hid]
  · rw [if_neg hid, List.append_nil]
    exact h queueId

omit [DecidableEq R] in
theorem Numbered.nodup {rs : List (SeedRecord R)} (h : Numbered rs) : rs.Nodup := by
  rw [List.nodup_iff_sublist]
  intro r hr
  have htwice : [r.ssSelectedCnt, r.ssSelectedCnt].Sublist (selections r.queueId rs) := by
    have hfilter := (hr.filter fun s => s.queueId = r.queueId).map SeedRecord.ssSelectedCnt
    simpa [selections] using hfilter
  rw [h r.queueId, rangeFromOne_natCast] at htwice
  refine List.nodup_iff_sublist.mp ?_ _ htwice
  refine List.Nodup.map ?_ List.nodup_range
  intro i j hij
  have hij : (i : ℤ) + 1 = (j : ℤ) + 1 := hij
  omega

/-! ## Such a file is valid -/

/-- The text is loaded as the record. -/
def ReadsSeed (L : PyLib R) (raw : Bytes) (r : SeedRecord R) : Prop :=
  raw ≠ [] ∧ ∃ v, L.jsonLoads raw = .ok v ∧ seedRecordOf L v = .ok (.inr r)

/-- A line with a new record. -/
theorem parseSeedLine_new {L : PyLib R} {raw : Bytes} {r : SeedRecord R} (h : ReadsSeed L raw r)
    {fingerprints : List (SeedRecord R)} (hnew : r ∉ fingerprints) (p : ParsedSeedAudit)
    (number : ℕ) :
    parseSeedLine L (p, fingerprints) (raw, number) = .ok (p.add r, r :: fingerprints) := by
  obtain ⟨hne, v, hload, hrecord⟩ := h
  rw [parseSeedLine]
  dsimp only
  rw [if_neg hne, hload]
  dsimp only
  rw [hrecord]
  dsimp only
  rw [if_neg hnew]

/-- The loop over lines that hold distinct records. -/
theorem parseSeedLines {α : Type} {L : PyLib R} (body : α → Bytes) (record : α → SeedRecord R)
    {ws : List α} (hread : ∀ w ∈ ws, ReadsSeed L (body w) (record w))
    (hnodup : (ws.map record).Nodup) :
    (numbered (ws.map body)).foldlM (parseSeedLine L) (.empty, []) =
      .ok (seedSummary (ws.map record), (ws.map record).reverse) := by
  induction ws using List.reverseRecOn with
  | nil => rfl
  | append_singleton ws w ih =>
    rw [List.map_append, List.map_singleton] at hnodup
    have hnew : record w ∉ (ws.map record).reverse := by
      rw [List.mem_reverse]
      intro hmem
      exact (List.nodup_append.mp hnodup).2.2 _ hmem _ (by simp) rfl
    have ih := ih (fun v hv => hread v (by simp [hv])) (List.nodup_append.mp hnodup).1
    have hline := parseSeedLine_new (hread w (by simp)) hnew (seedSummary (ws.map record))
      (1 + (ws.map body).length)
    rw [numbered] at ih ⊢
    rw [List.map_append, List.map_singleton, List.zipIdx_append, List.foldlM_append, ih]
    show List.foldlM (parseSeedLine L) (seedSummary (ws.map record), (ws.map record).reverse)
      [(body w, 1 + (ws.map body).length)] = _
    rw [List.foldlM_cons, hline, List.map_append, List.map_singleton, seedSummary_concat,
      List.reverse_append]
    rfl

/-- A file of numbered records is valid, and gives their summary. -/
theorem parse_numbered {α : Type} {L : PyLib R} (body : α → Bytes) (record : α → SeedRecord R)
    {ws : List α} (hread : ∀ w ∈ ws, ReadsSeed L (body w) (record w))
    (hline : ∀ w ∈ ws, OneLine (body w)) (hnumbered : Numbered (ws.map record)) :
    parseSeedSelectionAudit L (.ok (lineFile (ws.map body))) =
      .ok (seedSummary (ws.map record)) := by
  have hbodies : ∀ b ∈ ws.map body, OneLine b := by
    intro b hb
    obtain ⟨w, hw, rfl⟩ := List.mem_map.mp hb
    exact hline w hw
  rw [parseSeedSelectionAudit]
  dsimp only
  rw [hasPartialLine_lineFile, splitlines_lineFile hbodies]
  show Except.map Prod.fst ((numbered (ws.map body)).foldlM (parseSeedLine L) (.empty, [])) = _
  rw [parseSeedLines body record hread hnumbered.nodup]
  rfl

/-! ## It reconciles -/

theorem lookup_appendAt (key v : ℤ) (d : List (ℤ × List ℤ)) (key' : ℤ) :
    ((appendAt key v d).lookup key').getD [] =
      (d.lookup key').getD [] ++ if key = key' then [v] else [] := by
  induction d with
  | nil =>
    by_cases h : key' = key
    · simp [appendAt, h]
    · simp [appendAt, lookup_cons_ite, h, Ne.symm h]
  | cons item d ih =>
    obtain ⟨k, vs⟩ := item
    rw [appendAt]
    by_cases hk : k = key
    · rw [if_pos hk, lookup_cons_ite, lookup_cons_ite, hk]
      by_cases h : key' = key
      · simp [h]
      · simp [h, Ne.symm h]
    · rw [if_neg hk, lookup_cons_ite, lookup_cons_ite]
      by_cases h : key' = k
      · have hne : ¬ key = key' := fun hkey => hk (h.symm.trans hkey.symm)
        rw [if_pos h, if_pos h, if_neg hne, List.append_nil]
      · rw [if_neg h, if_neg h]
        exact ih

theorem mem_appendAt (key v : ℤ) (d : List (ℤ × List ℤ)) (key' : ℤ) :
    key' ∈ (appendAt key v d).map Prod.fst ↔ key' = key ∨ key' ∈ d.map Prod.fst := by
  induction d with
  | nil => simp [appendAt]
  | cons item d ih =>
    rw [appendAt]
    by_cases hitem : item.1 = key
    · rw [if_pos hitem, List.map_cons, List.map_cons, List.mem_cons, List.mem_cons, hitem]
      simp
    · rw [if_neg hitem, List.map_cons, List.map_cons, List.mem_cons, List.mem_cons, ih]
      exact or_left_comm

omit [DecidableEq R] in
/-- What the summary says of its records. -/
theorem seedSummary_spec (rs : List (SeedRecord R)) :
    (seedSummary rs).valid = true ∧ (seedSummary rs).diagnostics = [] ∧
      (seedSummary rs).recordCount = rs.length ∧
      (∀ queueId, ((seedSummary rs).perQueueRecords.lookup queueId).getD [] =
        selections queueId rs) ∧
      ∀ queueId ∈ (seedSummary rs).perQueueRecords.map Prod.fst,
        ∃ r ∈ rs, r.queueId = queueId := by
  induction rs using List.reverseRecOn with
  | nil =>
    refine ⟨rfl, rfl, rfl, fun _ => rfl, ?_⟩
    intro queueId h
    exact absurd h (by simp [seedSummary, ParsedSeedAudit.empty])
  | append_singleton rs r ih =>
    obtain ⟨hvalid, hdiag, hcount, hlookup, hids⟩ := ih
    rw [seedSummary_concat]
    refine ⟨hvalid, hdiag, ?_, ?_, ?_⟩
    · simp [ParsedSeedAudit.add, hcount]
    · intro queueId
      show ((appendAt _ _ _).lookup queueId).getD [] = _
      rw [lookup_appendAt, hlookup, selections_concat]
    · intro queueId h
      rcases (mem_appendAt _ _ _ _).mp h with rfl | h
      · exact ⟨r, by simp, rfl⟩
      · obtain ⟨s, hs, hid⟩ := hids queueId h
        exact ⟨s, by simp [hs], hid⟩

omit [DecidableEq R] in
/-- A queue id whose count is the number of its records. -/
theorem QueueComparison.diagnostics_eq_nil {c : QueueComparison} (hsource : c.inSource = true)
    (hseq : c.observed = rangeFromOne c.expected)
    (hlen : (c.observed.length : ℤ) = c.expected) : c.diagnostics = [] := by
  simp [QueueComparison.diagnostics, QueueComparison.inSequence, hsource, ← hseq, hlen]

omit [DecidableEq R] in
/-- The counts agree with the records of each queue id. -/
structure CountsAgree (counts : List (ℤ × ℤ)) (rs : List (SeedRecord R)) : Prop where
  lookup_eq : ∀ queueId n, counts.lookup queueId = some n →
    n = ((selections queueId rs).length : ℤ)
  inSource : ∀ r ∈ rs, (counts.lookup r.queueId).isSome = true
  sum_eq : (counts.map Prod.snd).sum = (rs.length : ℤ)

theorem lookup_isSome_of_mem {d : List (ℤ × ℤ)} {key : ℤ} (h : key ∈ d.map Prod.fst) :
    (d.lookup key).isSome = true := by
  induction d with
  | nil => exact absurd h (by simp)
  | cons item d ih =>
    obtain ⟨k, v⟩ := item
    rw [lookup_cons_ite]
    by_cases hk : key = k
    · rw [if_pos hk]
      rfl
    · rw [if_neg hk]
      rw [List.map_cons, List.mem_cons] at h
      exact ih (h.resolve_left hk)

omit [DecidableEq R] in
theorem compareQueues_diagnostics {counts : List (ℤ × ℤ)} {rs : List (SeedRecord R)}
    (hnumbered : Numbered rs) (hcounts : CountsAgree counts rs) :
    (compareQueues counts (seedSummary rs).perQueueRecords).flatMap
      QueueComparison.diagnostics = [] := by
  obtain ⟨-, -, -, hlookup, hids⟩ := seedSummary_spec rs
  rw [List.flatMap_eq_nil_iff]
  intro c hc
  obtain ⟨queueId, hid, rfl⟩ := List.mem_map.mp hc
  rw [List.mem_insertionSort, List.mem_dedup, List.mem_append] at hid
  have hsome : (counts.lookup queueId).isSome = true := by
    rcases hid with hid | hid
    · exact lookup_isSome_of_mem hid
    · obtain ⟨r, hr, rfl⟩ := hids queueId hid
      exact hcounts.inSource r hr
  obtain ⟨n, hn⟩ := Option.isSome_iff_exists.mp hsome
  have hlen := hcounts.lookup_eq queueId n hn
  apply QueueComparison.diagnostics_eq_nil
  · exact hsome
  · show _ = rangeFromOne ((counts.lookup queueId).getD 0)
    rw [hlookup, hn, Option.getD_some, hlen]
    exact hnumbered queueId
  · show _ = (counts.lookup queueId).getD 0
    rw [hlookup, hn, Option.getD_some, hlen]

omit [DecidableEq R] in
/-- Numbered records reconcile with statistics that count them. -/
theorem reconcile_numbered {L : PyLib R} {rs : List (SeedRecord R)} (hnumbered : Numbered rs)
    {stats : PyDict Bytes}
    (hselected : statInt L stats "ss_selected_sum" = some (rs.length : ℤ))
    (hexpected : statInt L stats "seed_audit_expected_selection_count" = some (rs.length : ℤ))
    (hrecords : statInt L stats "seed_audit_record_count" = some (rs.length : ℤ))
    (henabled : statInt L stats "seed_audit_enabled" = some 1)
    (herrors : statInt L stats "seed_audit_error_count" = some 0)
    (hinvalid : statInt L stats "seed_audit_invalid" = some 0)
    {counts : List (ℤ × ℤ)} (hstats : stats.foldl (addQueueStat L) ([], []) = (counts, []))
    (hcounts : CountsAgree counts rs) :
    (reconcileSeedSelectionAudit L (seedSummary rs) stats).reconciled = true := by
  obtain ⟨hvalid, hdiag, hcount, -, -⟩ := seedSummary_spec rs
  have htotals : seedTotalDiagnostics (seedSummary rs) rs.length rs.length rs.length 1 0 0 = [] := by
    simp only [seedTotalDiagnostics, hdiag, hvalid, hcount, flag]
    simp
    exact fun hpos => List.ne_nil_of_length_pos hpos
  have hmissing : flag ((rs.length : ℤ) ≠ 0 && counts = []) "missing_per_queue_selection_stats" =
      [] := by
    have hsum := hcounts.sum_eq
    cases counts with
    | nil => simp [flag, ← hsum]
    | cons c counts => simp [flag]
  have hsum : flag ((counts.map Prod.snd).sum ≠ (rs.length : ℤ))
      "per_queue_selection_total_mismatch" = [] := by
    simp [flag, hcounts.sum_eq]
  rw [reconcileSeedSelectionAudit, hselected, hexpected, hrecords, henabled, herrors, hinvalid,
    hstats]
  dsimp only
  rw [htotals, hmissing, hsum, compareQueues_diagnostics hnumbered hcounts]
  rfl

end

end AflNv
