import AflNv.Covset
import AflNv.Lib.ByteLog

/-!
# One observation of the target's security state

`nv_observe_security_state_once` of `src/afl-fuzz-run.c`: it reads the next
status document (the first unread line of the append-only ledger, or the
snapshot file), checks it against the replay marks, folds it into the coverage
set and credits the current queue entry.

What the function reads from outside is the argument `World`.  The state trace
(`NV_STATE_TRACE_PATH`) and the debug output are left out: nothing reads them back.

`nvObserve_exit` is the inversion lemma: the ways one call can end, each with
what it did to the state.
-/

namespace AflNv

open AflNv.Lib

/-! ## What a call reads -/

/-- An open file: the size `fseek`/`fstat` reports and the bytes that reading
it to the end delivers.  A file that changes while it is read may disagree. -/
structure FileView where
  size : ℕ
  data : Bytes

/-- What the environment answers during one call. -/
structure World where
  /-- `getenv("NV_STATUS_LEDGER_PATH")`; `none` is NULL. -/
  statusLedgerPath : Option Bytes
  /-- `fopen(path, "rb")`; `none` is a failed open, or a failed seek of the
  ledger. -/
  fopen : Bytes → Option FileView

/-- The endpoint allowlist of the target configuration. -/
structure NvTargetCfg where
  nvTcfgLoaded : Bool
  /-- `nv_allow_pairs`, one rule an entry; `none` is a NULL entry. -/
  nvAllowPairs : List (Option Bytes)

/-- `nv_is_allowed_pair`. -/
def nvIsAllowedPair (cfg : NvTargetCfg) (method path : Bytes) : Bool :=
  if !cfg.nvTcfgLoaded then true
  else
    let key := (method ++ [32] ++ path).take 1023
    cfg.nvAllowPairs.any fun rule =>
      match rule with
      | none => false
      | some rule =>
        rule = key || (rule.getLast? = some 42 && rule.dropLast.isPrefixOf key)

/-- The outcome of looking for a status document. -/
inductive Fetch where
  /-- The file could not be read: `nv_http_status_fail` counts it. -/
  | fail
  /-- The ledger holds no complete line of acceptable length. -/
  | nothing
  /-- A document, and the ledger offset behind it in ledger mode. -/
  | document (buf : Bytes) (ledgerEnd : Option ℕ)

/-- The first half of `nv_observe_security_state_once`: the ledger is
authoritative when its path is set, and only its first unread line is read. -/
def nvFetchStatus (w : World) (path : Bytes) (ledgerOffset : ℕ) : Fetch :=
  match w.statusLedgerPath with
  | some (c :: cs) =>
    match w.fopen (c :: cs) with
    | none => .fail
    | some ledger =>
      let line := ByteLog.firstLine nl (ledger.data.drop ledgerOffset)
      if line.getLast? = some nl then
        if line.length > 65536 then .nothing
        else .document line (some (ledgerOffset + line.length))
      else .nothing
  | _ =>
    match w.fopen path with
    | none => .fail
    | some fp =>
      if fp.size = 0 ∨ fp.size > 65536 then .fail
      else if fp.data.length < fp.size then .fail
      else .document (fp.data.take fp.size) none

/-! ## The status document -/

/-- The fields of a status document the observer uses, with its defaults. -/
structure NvStatusDoc where
  execSeq : ℕ
  stamp : UInt64
  isExcFlag : ℤ
  recoverMs : ℕ
  recovered : ℤ
  ncovDelta : ℕ
  method : Bytes
  path : Bytes
  cls : Bytes
  timeout : ℤ
  httpStatus : ℤ
  validationReject : Bool
  deriving DecidableEq

/-- The field reads of `nv_observe_security_state_once`. -/
def nvParseStatusDoc (lib : CLib) (root : CJson) : NvStatusDoc :=
  let item := fun name => root.getObjectItemCaseSensitive (ascii name)
  let tsMs := lib.u64OrZero (item "ts_ms")
  let bodyHash16 := lib.u32OrZero (item "body_hash16")
  let stamp := if tsMs ≠ 0 then tsMs ^^^ (bodyHash16.toUInt64 <<< 32) else 0
  { execSeq := (lib.posU64OrZero (item "exec_seq")).toNat
    stamp := if stamp = 0 then 1 else stamp
    isExcFlag := CJson.valueintOrZero (item "is_exception")
    recoverMs := (lib.u64OrZero (item "recover_ms")).toNat
    recovered := CJson.valueintOrZero (item "recovered")
    ncovDelta := (lib.u64OrZero (item "ncov_delta")).toNat
    method := CJson.valuestringOr (ascii "UNK") (item "method")
    path := CJson.valuestringOr (ascii "/") (item "path")
    cls := CJson.valuestringOr (ascii "other") (item "class")
    timeout := CJson.valueintOrZero (item "timeout")
    httpStatus := lib.intOrZero (item "http_code")
    validationReject := CJson.isTruthy (item "validation_reject") }

/-- `nv_state_obs_t`. -/
structure NvStateObs where
  has : Bool
  isException : Bool
  recovered : Bool
  is4xx : Bool
  ncovDelta : ℕ
  newStates : ℕ
  stateId : UInt64
  execSeq : ℕ
  httpStatus : ℤ
  validationReject : Bool
  deriving DecidableEq

/-- `memset(obs, 0, sizeof(*obs))`. -/
def NvStateObs.zero : NvStateObs where
  has := false
  isException := false
  recovered := false
  is4xx := false
  ncovDelta := 0
  newStates := 0
  stateId := 0
  execSeq := 0
  httpStatus := 0
  validationReject := false

/-! ## The state -/

/-- The fields of `afl_state_t` that the observer reads or writes, and its
static `ledger_offset`. -/
structure SecState where
  ledgerOffset : ℕ
  /-- `nv_covset`; `none` is NULL. -/
  nvCovset : Option (List UInt64)
  nvCovCap : UInt32
  nvCovUsed : UInt32
  nvHttpStatusOk : ℕ
  nvHttpStatusFail : ℕ
  nvNcovHit : ℕ
  nvLastStatusSeq : UInt64
  nvLastExecSeq : ℕ
  nvErrCnt : ℕ
  nvRecCnt : ℕ
  nvRecMsSum : ℕ
  nvStatusCnt : ℕ
  nvSecStateObs : ℕ
  nvSecStateNewTotal : ℕ
  nvSecStateDeltaLast : ℕ
  nvSecStateSeedCredit : ℕ
  nvSecStateSaturated : Bool
  nvSecStateDropped : ℕ
  nvSecStateReplays : ℕ
  /-- `ss_cov_cnt` of every queue entry, by its index in the queue. -/
  ssCovCnt : List ℕ
  /-- The index of `queue_cur`; `none` is NULL. -/
  queueCur : Option ℕ

/-- The state before the first call, with a coverage set of any capacity that
holds nothing yet; `none` is a table that the first insertion allocates. -/
def SecState.init (table : Option { cap : UInt32 // IsPow2 cap }) : SecState where
  ledgerOffset := 0
  nvCovset := table.map fun cap => (NvCovset.zero cap.1).slots
  nvCovCap := (table.map Subtype.val).getD 0
  nvCovUsed := 0
  nvHttpStatusOk := 0
  nvHttpStatusFail := 0
  nvNcovHit := 0
  nvLastStatusSeq := 0
  nvLastExecSeq := 0
  nvErrCnt := 0
  nvRecCnt := 0
  nvRecMsSum := 0
  nvStatusCnt := 0
  nvSecStateObs := 0
  nvSecStateNewTotal := 0
  nvSecStateDeltaLast := 0
  nvSecStateSeedCredit := 0
  nvSecStateSaturated := false
  nvSecStateDropped := 0
  nvSecStateReplays := 0
  ssCovCnt := []
  queueCur := none

/-- `nv_fnv1a64`. -/
def nvFnv1a64 (s : Bytes) : UInt64 :=
  let h := s.foldl (fun h b => (h ^^^ b.toUInt64) * 1099511628211) 1469598103934665603
  if h = 0 then 1 else h

theorem nvFnv1a64_ne_zero (s : Bytes) : nvFnv1a64 s ≠ 0 := by
  simp only [nvFnv1a64]
  split_ifs with h
  · decide
  · exact h

/-- `nv_covset_init`. -/
def nvCovsetInit (s : SecState) : SecState :=
  match s.nvCovset with
  | some _ => s
  | none =>
    { s with
      nvCovset := some (List.replicate 65536 0)
      nvCovCap := 65536
      nvCovUsed := 0 }

/-- `nv_covset_insert`. -/
def nvCovsetInsert (s : SecState) (h : UInt64) : NvCovsetResult × SecState :=
  let s := nvCovsetInit s
  let (r, t) := nvCovsetInsertInto ⟨s.nvCovset.getD [], s.nvCovCap, s.nvCovUsed⟩ h
  let s := { s with nvCovset := some t.slots, nvCovUsed := t.used }
  if r = .saturated then
    (r, { s with nvSecStateSaturated := true, nvSecStateDropped := s.nvSecStateDropped + 1 })
  else (r, s)

/-- The key a document is filed under. -/
def nvStateKey (cfg : NvTargetCfg) (d : NvStatusDoc) : Bytes :=
  let cmethod := nvCanonMethod (some d.method)
  let ccls := nvCanonClass (some d.cls)
  let cpath :=
    match nvCanonPathLabel (some d.path) with
    | some label => label
    | none => if nvIsAllowedPair cfg cmethod d.path then d.path else ascii "unknown_path"
  (cmethod ++ [32] ++ cpath ++ [124] ++ ccls).take 1023

/-- The observation reported for an accepted document. -/
def nvObsOfDoc (d : NvStatusDoc) (h : UInt64) (isNew : Bool) : NvStateObs :=
  let ccls := nvCanonClass (some d.cls)
  { has := true
    isException :=
      d.timeout ≠ 0 || ccls = ascii "5xx" || ccls = ascii "conn_refused"
    recovered := d.recovered ≠ 0
    is4xx := ccls = ascii "4xx"
    ncovDelta := d.ncovDelta
    newStates := if isNew then 1 else 0
    stateId := h
    execSeq := d.execSeq
    httpStatus := d.httpStatus
    validationReject := d.validationReject }

@[simp] theorem nvObsOfDoc_stateId (d : NvStatusDoc) (h : UInt64) (isNew : Bool) :
    (nvObsOfDoc d h isNew).stateId = h := rfl

@[simp] theorem nvObsOfDoc_newStates_eq_one (d : NvStatusDoc) (h : UInt64) (isNew : Bool) :
    (nvObsOfDoc d h isNew).newStates = 1 ↔ isNew = true := by
  cases isNew <;> simp [nvObsOfDoc]

/-- The accounting before the coverage set: exceptions, recovery and the
harness-side coverage gain. -/
def nvCountDoc (d : NvStatusDoc) (s : SecState) : SecState :=
  let s := if d.isExcFlag ≠ 0 then { s with nvErrCnt := s.nvErrCnt + 1 } else s
  let s :=
    if d.isExcFlag ≠ 0 ∧ d.recovered ≠ 0 then
      { s with nvRecCnt := s.nvRecCnt + 1, nvRecMsSum := s.nvRecMsSum + d.recoverMs }
    else s
  if d.ncovDelta > 0 then { s with nvNcovHit := s.nvNcovHit + 1 } else s

/-- Closed loop A: count a new state and credit the current entry for it. -/
def nvCreditNewState (isNew : Bool) (s : SecState) : SecState :=
  if isNew then
    let s := { s with nvSecStateNewTotal := s.nvSecStateNewTotal + 1 }
    match s.queueCur with
    | some q =>
      { s with
        ssCovCnt := s.ssCovCnt.modify q (· + 1)
        nvSecStateSeedCredit := s.nvSecStateSeedCredit + 1 }
    | none => s
  else s

/-- The last part of `nv_observe_security_state_once`, for an accepted
document. -/
def nvRecordObservation (cfg : NvTargetCfg) (d : NvStatusDoc) (s : SecState) :
    NvStateObs × SecState :=
  let s := nvCountDoc d s
  let h := nvFnv1a64 (nvStateKey cfg d)
  let (r, s) := nvCovsetInsert s h
  let isNew : Bool := r = .inserted
  let obs := nvObsOfDoc d h isNew
  let s :=
    { s with
      nvSecStateObs := s.nvSecStateObs + 1
      nvSecStateDeltaLast := obs.newStates }
  (obs, nvCreditNewState isNew s)

/-- The document is older than the execution the caller waits for. -/
def belowMinimum (minimumExecSeq : ℕ) (d : NvStatusDoc) : Bool :=
  minimumExecSeq ≠ 0 && (d.execSeq = 0 || d.execSeq ≤ minimumExecSeq)

/-- What an accepted document does before it is recorded: the marks and the
read position move. -/
def SecState.accept (s : SecState) (marks : ℕ × UInt64) (ledgerEnd : Option ℕ) : SecState :=
  { s with
    nvHttpStatusOk := s.nvHttpStatusOk + 1
    nvLastExecSeq := marks.1
    nvLastStatusSeq := marks.2
    nvStatusCnt := s.nvStatusCnt + 1
    ledgerOffset := ledgerEnd.getD s.ledgerOffset }

/-- `nv_observe_security_state_once`. -/
def nvObserveSecurityStateOnce (lib : CLib) (cfg : NvTargetCfg) (w : World) (path : Bytes)
    (minimumExecSeq : ℕ) (s : SecState) : NvStateObs × SecState :=
  match nvFetchStatus w path s.ledgerOffset with
  | .fail => (.zero, { s with nvHttpStatusFail := s.nvHttpStatusFail + 1 })
  | .nothing => (.zero, s)
  | .document buf ledgerEnd =>
    match lib.cJSONParse (cstr buf) with
    | none => (.zero, { s with nvHttpStatusFail := s.nvHttpStatusFail + 1 })
    | some root =>
      let d := nvParseStatusDoc lib root
      if belowMinimum minimumExecSeq d then
        (.zero, { s with nvHttpStatusOk := s.nvHttpStatusOk + 1 })
      else
        match nvStatusIsFresh d.execSeq d.stamp s.nvLastExecSeq s.nvLastStatusSeq with
        | (.replay, _) =>
          (.zero, { s with
            nvHttpStatusOk := s.nvHttpStatusOk + 1
            nvSecStateReplays := s.nvSecStateReplays + 1 })
        | (.accept, marks) => nvRecordObservation cfg d (s.accept marks ledgerEnd)

/-! ## How a call can end -/

/-- The exits of `nv_observe_security_state_once`, each with its result and
the state it leaves. -/
inductive ObserveExit (lib : CLib) (cfg : NvTargetCfg) (w : World) (path : Bytes)
    (minimumExecSeq : ℕ) (s : SecState) : NvStateObs × SecState → Prop where
  /-- No document: nothing to read, or a failure that is counted. -/
  | unread (fails : ℕ) :
      ObserveExit lib cfg w path minimumExecSeq s
        (.zero, { s with nvHttpStatusFail := s.nvHttpStatusFail + fails })
  /-- A document of an earlier execution, or a replayed one. -/
  | rejected (buf : Bytes) (ledgerEnd : Option ℕ) (root : CJson) (replays : ℕ)
      (hfetch : nvFetchStatus w path s.ledgerOffset = .document buf ledgerEnd)
      (hparse : lib.cJSONParse (cstr buf) = some root)
      (hreplays : replays ≤ 1) :
      ObserveExit lib cfg w path minimumExecSeq s
        (.zero, { s with
          nvHttpStatusOk := s.nvHttpStatusOk + 1
          nvSecStateReplays := s.nvSecStateReplays + replays })
  /-- A fresh document. -/
  | accepted (buf : Bytes) (ledgerEnd : Option ℕ) (root : CJson) (marks : ℕ × UInt64)
      (hfetch : nvFetchStatus w path s.ledgerOffset = .document buf ledgerEnd)
      (hparse : lib.cJSONParse (cstr buf) = some root)
      (hbelow : belowMinimum minimumExecSeq (nvParseStatusDoc lib root) = false)
      (hfresh : nvStatusIsFresh (nvParseStatusDoc lib root).execSeq
        (nvParseStatusDoc lib root).stamp s.nvLastExecSeq s.nvLastStatusSeq = (.accept, marks)) :
      ObserveExit lib cfg w path minimumExecSeq s
        (nvRecordObservation cfg (nvParseStatusDoc lib root) (s.accept marks ledgerEnd))

theorem nvObserve_exit (lib : CLib) (cfg : NvTargetCfg) (w : World) (path : Bytes)
    (minimumExecSeq : ℕ) (s : SecState) :
    ObserveExit lib cfg w path minimumExecSeq s
      (nvObserveSecurityStateOnce lib cfg w path minimumExecSeq s) := by
  rw [nvObserveSecurityStateOnce]
  cases hfetch : nvFetchStatus w path s.ledgerOffset with
  | fail => exact .unread 1
  | nothing => exact .unread 0
  | document buf ledgerEnd =>
    dsimp only
    cases hparse : lib.cJSONParse (cstr buf) with
    | none => exact .unread 1
    | some root =>
      dsimp only
      cases hbelow : belowMinimum minimumExecSeq (nvParseStatusDoc lib root) with
      | true => exact .rejected buf ledgerEnd root 0 hfetch hparse (Nat.zero_le 1)
      | false =>
        rcases hfresh : nvStatusIsFresh (nvParseStatusDoc lib root).execSeq
          (nvParseStatusDoc lib root).stamp s.nvLastExecSeq s.nvLastStatusSeq
          with ⟨_ | _, marks⟩
        · exact .accepted buf ledgerEnd root marks hfetch hparse hbelow hfresh
        · exact .rejected buf ledgerEnd root 1 hfetch hparse (Nat.le_refl 1)

/-! ## What recording a document changes -/

/-- The table of a reachable state: not allocated yet, or a coverage set that
keeps its invariant. -/
def TableInv (s : SecState) : Prop :=
  match s.nvCovset with
  | none => s.nvCovUsed = 0
  | some slots => CovsetInv ⟨slots, s.nvCovCap, s.nvCovUsed⟩

/-- The state ids recorded so far. -/
def SecState.stored (s : SecState) : Finset UInt64 :=
  match s.nvCovset with
  | none => ∅
  | some slots => (NvCovset.mk slots s.nvCovCap s.nvCovUsed).stored

/-- The capacity of the table, allocated or not. -/
def SecState.covCap (s : SecState) : ℕ :=
  match s.nvCovset with
  | none => 65536
  | some _ => s.nvCovCap.toNat

theorem TableInv.used_eq {s : SecState} (h : TableInv s) :
    s.nvCovUsed.toNat = s.stored.card := by
  unfold TableInv at h
  unfold SecState.stored
  cases hc : s.nvCovset with
  | none =>
    rw [hc] at h
    rw [h]
    rfl
  | some slots =>
    rw [hc] at h
    exact h.used_eq

@[simp] theorem SecState.stored_accept (s : SecState) (marks : ℕ × UInt64)
    (ledgerEnd : Option ℕ) : (s.accept marks ledgerEnd).stored = s.stored := rfl

theorem isPow2_65536 : IsPow2 65536 := ⟨16, by decide⟩

/-- `nv_covset_init` leaves an allocated table that keeps its invariant and
holds what it held. -/
theorem nvCovsetInit_inv {s : SecState} (h : TableInv s) :
    ∃ t, (nvCovsetInit s).nvCovset = some t.slots ∧
      t.cap = (nvCovsetInit s).nvCovCap ∧ t.used = (nvCovsetInit s).nvCovUsed ∧
      CovsetInv t ∧ t.cap.toNat = s.covCap ∧ t.stored = s.stored := by
  unfold TableInv at h
  unfold nvCovsetInit SecState.stored SecState.covCap
  cases hc : s.nvCovset with
  | none =>
    exact ⟨NvCovset.zero 65536, rfl, rfl, rfl, CovsetInv.zero isPow2_65536, rfl,
      NvCovset.stored_zero 65536⟩
  | some slots =>
    rw [hc] at h
    exact ⟨⟨slots, s.nvCovCap, s.nvCovUsed⟩, hc, rfl, rfl, h, rfl, rfl⟩

/-- The fields an insertion into the coverage set can change. -/
theorem nvCovsetInsert_frame (s : SecState) (h : UInt64) :
    ∃ covset cap used saturated dropped,
      (nvCovsetInsert s h).2 =
        { s with
          nvCovset := covset
          nvCovCap := cap
          nvCovUsed := used
          nvSecStateSaturated := saturated
          nvSecStateDropped := dropped } := by
  have hinit : ∃ covset cap used, nvCovsetInit s =
      { s with nvCovset := covset, nvCovCap := cap, nvCovUsed := used } := by
    unfold nvCovsetInit
    cases hc : s.nvCovset with
    | none => exact ⟨_, _, _, rfl⟩
    | some slots => exact ⟨s.nvCovset, s.nvCovCap, s.nvCovUsed, rfl⟩
  obtain ⟨covset, cap, used, hinit⟩ := hinit
  rw [nvCovsetInsert, hinit]
  dsimp only
  split_ifs
  · exact ⟨_, _, _, _, _, rfl⟩
  · exact ⟨_, _, _, _, _, rfl⟩

/-- An insertion keeps the table invariant; its answer and the stored ids are
those of the bounded set, and it counts a dropped state exactly when it reports
saturation. -/
theorem nvCovsetInsert_spec {s : SecState} (hs : TableInv s) {h : UInt64} (hne : h ≠ 0) :
    TableInv (nvCovsetInsert s h).2 ∧
      (nvCovsetInsert s h).1 = (boundedInsert s.covCap s.stored h).1 ∧
      (nvCovsetInsert s h).2.stored = (boundedInsert s.covCap s.stored h).2 ∧
      (nvCovsetInsert s h).2.nvSecStateDropped =
        s.nvSecStateDropped + (if (nvCovsetInsert s h).1 = .saturated then 1 else 0) := by
  obtain ⟨t, hslots, hcapt, husedt, hinv, hcap, hstored⟩ := nvCovsetInit_inv hs
  have hdropped : (nvCovsetInit s).nvSecStateDropped = s.nvSecStateDropped := by
    unfold nvCovsetInit
    split <;> rfl
  obtain ⟨hinv', hcap', hres, hset, -⟩ := nvCovsetInsertInto_refines hinv hne
  have ht : (⟨t.slots, (nvCovsetInit s).nvCovCap, (nvCovsetInit s).nvCovUsed⟩ : NvCovset) = t := by
    rw [← hcapt, ← husedt]
  have ht' : (⟨(nvCovsetInsertInto t h).2.slots, (nvCovsetInit s).nvCovCap,
      (nvCovsetInsertInto t h).2.used⟩ : NvCovset) = (nvCovsetInsertInto t h).2 := by
    rw [← hcapt, ← hcap']
  have htable : TableInv { nvCovsetInit s with
      nvCovset := some (nvCovsetInsertInto t h).2.slots
      nvCovUsed := (nvCovsetInsertInto t h).2.used } := by
    change CovsetInv ⟨_, (nvCovsetInit s).nvCovCap, _⟩
    rw [ht']
    exact hinv'
  have hset' : (SecState.stored { nvCovsetInit s with
      nvCovset := some (nvCovsetInsertInto t h).2.slots
      nvCovUsed := (nvCovsetInsertInto t h).2.used }) =
      (boundedInsert t.cap.toNat t.stored h).2 := by
    change NvCovset.stored ⟨_, (nvCovsetInit s).nvCovCap, _⟩ = _
    rw [ht']
    exact hset
  rw [← hdropped, ← hcap, ← hstored]
  rw [nvCovsetInsert]
  simp only [hslots, Option.getD_some, ht]
  by_cases hsat : (nvCovsetInsertInto t h).1 = .saturated
  · rw [if_pos hsat]
    exact ⟨htable, hres, hset', by rw [if_pos hsat]⟩
  · rw [if_neg hsat]
    exact ⟨htable, hres, hset', by rw [if_neg hsat, Nat.add_zero]⟩

/-- The fields the accounting before the coverage set can change. -/
theorem nvCountDoc_frame (d : NvStatusDoc) (s : SecState) :
    ∃ err rec recMs hit, nvCountDoc d s =
      { s with nvErrCnt := err, nvRecCnt := rec, nvRecMsSum := recMs, nvNcovHit := hit } := by
  unfold nvCountDoc
  split_ifs <;> exact ⟨_, _, _, _, rfl⟩

/-- A new state is counted, and credited to the current entry if there is one. -/
theorem nvCreditNewState_frame (r : NvCovsetResult) (s : SecState) :
    ∃ cnts credit, nvCreditNewState (r = .inserted) s =
        { s with
          nvSecStateNewTotal := s.nvSecStateNewTotal + (if r = .inserted then 1 else 0)
          ssCovCnt := cnts
          nvSecStateSeedCredit := credit } ∧
      (cnts, credit) = match s.queueCur with
        | some q =>
          if r = .inserted then (s.ssCovCnt.modify q (· + 1), s.nvSecStateSeedCredit + 1)
          else (s.ssCovCnt, s.nvSecStateSeedCredit)
        | none => (s.ssCovCnt, s.nvSecStateSeedCredit) := by
  unfold nvCreditNewState
  by_cases hr : r = .inserted
  · subst hr
    cases hq : s.queueCur with
    | none => exact ⟨_, _, rfl, rfl⟩
    | some q => exact ⟨_, _, rfl, rfl⟩
  · refine ⟨s.ssCovCnt, s.nvSecStateSeedCredit, ?_, ?_⟩
    · simp [hr]
    · cases s.queueCur <;> simp [hr]

/-- A recorded document is reported, and recording it moves neither the marks
nor the read position. -/
theorem nvRecordObservation_frame (cfg : NvTargetCfg) (d : NvStatusDoc) (s : SecState) :
    (nvRecordObservation cfg d s).1.has = true ∧
      (nvRecordObservation cfg d s).1.execSeq = d.execSeq ∧
      (nvRecordObservation cfg d s).2.nvLastExecSeq = s.nvLastExecSeq ∧
      (nvRecordObservation cfg d s).2.nvLastStatusSeq = s.nvLastStatusSeq ∧
      (nvRecordObservation cfg d s).2.ledgerOffset = s.ledgerOffset ∧
      (nvRecordObservation cfg d s).2.queueCur = s.queueCur := by
  obtain ⟨err, rec, recMs, hit, hcount⟩ := nvCountDoc_frame d s
  obtain ⟨covset, cap, used, saturated, dropped, hframe⟩ :=
    nvCovsetInsert_frame (nvCountDoc d s) (nvFnv1a64 (nvStateKey cfg d))
  rw [nvRecordObservation]
  revert hframe
  generalize nvCovsetInsert (nvCountDoc d s) (nvFnv1a64 (nvStateKey cfg d)) = ins
  obtain ⟨r, s'⟩ := ins
  rintro hframe
  dsimp only at hframe ⊢
  rw [hcount] at hframe
  subst hframe
  obtain ⟨cnts, credit, hnew, -⟩ := nvCreditNewState_frame r _
  rw [hnew]
  exact ⟨rfl, rfl, rfl, rfl, rfl, rfl⟩

/-- The id a document is filed under. -/
def nvStateId (cfg : NvTargetCfg) (d : NvStatusDoc) : UInt64 := nvFnv1a64 (nvStateKey cfg d)

/-- What recording a document does, in terms of the answer `r` of the coverage
set. -/
structure RecordEffect (cfg : NvTargetCfg) (d : NvStatusDoc) (s : SecState)
    (r : NvCovsetResult) (o : NvStateObs × SecState) : Prop where
  answer : r = (boundedInsert s.covCap s.stored (nvStateId cfg d)).1
  obs : o.1 = nvObsOfDoc d (nvStateId cfg d) (r = .inserted)
  table : TableInv o.2
  stored : o.2.stored = (boundedInsert s.covCap s.stored (nvStateId cfg d)).2
  dropped : o.2.nvSecStateDropped = s.nvSecStateDropped + (if r = .saturated then 1 else 0)
  newTotal : o.2.nvSecStateNewTotal = s.nvSecStateNewTotal + (if r = .inserted then 1 else 0)
  credit : (o.2.ssCovCnt, o.2.nvSecStateSeedCredit) =
    match s.queueCur with
    | some q =>
      if r = .inserted then (s.ssCovCnt.modify q (· + 1), s.nvSecStateSeedCredit + 1)
      else (s.ssCovCnt, s.nvSecStateSeedCredit)
    | none => (s.ssCovCnt, s.nvSecStateSeedCredit)
  secStateObs : o.2.nvSecStateObs = s.nvSecStateObs + 1
  httpStatusOk : o.2.nvHttpStatusOk = s.nvHttpStatusOk
  replays : o.2.nvSecStateReplays = s.nvSecStateReplays
  statusCnt : o.2.nvStatusCnt = s.nvStatusCnt
  queueCur : o.2.queueCur = s.queueCur

theorem nvRecordObservation_effect (cfg : NvTargetCfg) (d : NvStatusDoc) {s : SecState}
    (hs : TableInv s) :
    ∃ r, RecordEffect cfg d s r (nvRecordObservation cfg d s) := by
  obtain ⟨err, rec, recMs, hit, hcount⟩ := nvCountDoc_frame d s
  -- The counters before the insertion are not part of the table.
  have hstored : (nvCountDoc d s).stored = s.stored := by rw [hcount]; rfl
  have hcap : (nvCountDoc d s).covCap = s.covCap := by rw [hcount]; rfl
  have htable : TableInv (nvCountDoc d s) := by rw [hcount]; exact hs
  obtain ⟨htable', hanswer, hstored', hdropped⟩ :=
    nvCovsetInsert_spec htable (nvFnv1a64_ne_zero (nvStateKey cfg d))
  rw [hstored, hcap] at hanswer hstored'
  obtain ⟨covset, cap, used, saturated, dropped, hframe⟩ :=
    nvCovsetInsert_frame (nvCountDoc d s) (nvFnv1a64 (nvStateKey cfg d))
  rw [nvRecordObservation]
  revert htable' hanswer hstored' hdropped hframe
  generalize nvCovsetInsert (nvCountDoc d s) (nvFnv1a64 (nvStateKey cfg d)) = ins
  obtain ⟨r, s'⟩ := ins
  rintro htable' hanswer hstored' hdropped hframe
  dsimp only at htable' hanswer hstored' hdropped hframe ⊢
  rw [hcount] at hframe hdropped
  subst hframe
  obtain ⟨cnts, credit, hnew, hcredit⟩ := nvCreditNewState_frame r _
  rw [hnew]
  exact ⟨r, hanswer, rfl, htable', hstored', hdropped, rfl, hcredit, rfl, rfl, rfl, rfl, rfl⟩

end AflNv
