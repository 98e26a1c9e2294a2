import AflNv.Observe

/-!
# When an unread ledger line is observed

In ledger mode a call of `nv_observe_security_state_once` looks at the first
unread line only, and the read position moves only when that line is accepted.
A line that no call accepts therefore hides every line behind it.

`acceptLine` says what makes a call accept a line, in terms of the line, the
replay marks and the caller's minimum.  `observe_ledger_step` is one call.
`line_observed_iff` follows an infinite sequence of calls: a line is observed
exactly when it and all the unread lines before it are accepted in turn.
-/

namespace AflNv

open AflNv.Lib

/-! ## One call on the ledger -/

/-- The replay marks `nv_last_exec_seq` and `nv_last_status_seq`. -/
abbrev Marks := ℕ × UInt64

def SecState.marks (s : SecState) : Marks := (s.nvLastExecSeq, s.nvLastStatusSeq)

/-- The marks after a line, if a call with this minimum accepts it. -/
def acceptLine (lib : CLib) (minimumExecSeq : ℕ) (marks : Marks) (line : Bytes) : Option Marks :=
  if line.length > 65536 then none
  else
    match lib.cJSONParse (cstr line) with
    | none => none
    | some root =>
      let d := nvParseStatusDoc lib root
      if belowMinimum minimumExecSeq d then none
      else
        match nvStatusIsFresh d.execSeq d.stamp marks.1 marks.2 with
        | (.replay, _) => none
        | (.accept, marks) => some marks

/-- A call in ledger mode. -/
structure LedgerCall where
  /-- What the producer has appended behind the lines in question by now. -/
  tail : Bytes
  /-- The snapshot path, which ledger mode ignores. -/
  path : Bytes
  minimumExecSeq : ℕ

/-- The world of a call that finds `content` in the ledger. -/
def ledgerWorld (ledgerPath content : Bytes) : World where
  statusLedgerPath := some ledgerPath
  fopen := fun p => if p = ledgerPath then some ⟨content.length, content⟩ else none

/-- In this world the status ledger holds `content`. -/
def World.ShowsLedger (w : World) (content : Bytes) : Prop :=
  ∃ ledgerPath size, ledgerPath ≠ [] ∧ w.statusLedgerPath = some ledgerPath ∧
    w.fopen ledgerPath = some ⟨size, content⟩

theorem ledgerWorld_showsLedger {ledgerPath : Bytes} (hpath : ledgerPath ≠ [])
    (content : Bytes) : (ledgerWorld ledgerPath content).ShowsLedger content :=
  ⟨ledgerPath, content.length, hpath, rfl, if_pos rfl⟩

/-- What a call in ledger mode reads: the first unread line, if it is complete and
not too long. -/
theorem nvFetchStatus_ledger {w : World} {content : Bytes} (hw : w.ShowsLedger content)
    (path : Bytes) (offset : ℕ) :
    nvFetchStatus w path offset =
      let line := ByteLog.firstLine nl (content.drop offset)
      if line.getLast? = some nl then
        if line.length > 65536 then .nothing
        else .document line (some (offset + line.length))
      else .nothing := by
  obtain ⟨ledgerPath, size, hpath, hledger, hopen⟩ := hw
  cases ledgerPath with
  | nil => exact absurd rfl hpath
  | cons c cs => simp only [nvFetchStatus, hledger, hopen]

theorem nvFetchStatus_line {w : World} {content rest line : Bytes} {offset : ℕ}
    (hw : w.ShowsLedger content) (hcontent : content.drop offset = line ++ rest)
    (hline : ByteLog.IsLine nl line) (path : Bytes) :
    nvFetchStatus w path offset =
      if line.length > 65536 then .nothing
      else .document line (some (offset + line.length)) := by
  rw [nvFetchStatus_ledger hw, hcontent]
  simp only [ByteLog.firstLine_append hline, hline.getLast?, if_true]

/-- One call on an unread line: it is observed, and the read position and the
marks move behind it, exactly when it is acceptable. -/
theorem observe_ledger_step (lib : CLib) (cfg : NvTargetCfg) {w : World}
    {content rest line path : Bytes} {minimumExecSeq : ℕ} {s : SecState}
    (hw : w.ShowsLedger content) (hcontent : content.drop s.ledgerOffset = line ++ rest)
    (hline : ByteLog.IsLine nl line) :
    let o := nvObserveSecurityStateOnce lib cfg w path minimumExecSeq s
    match acceptLine lib minimumExecSeq s.marks line with
    | some marks =>
      o.1.has = true ∧ o.2.marks = marks ∧ o.2.ledgerOffset = s.ledgerOffset + line.length
    | none => o.1.has = false ∧ o.2.marks = s.marks ∧ o.2.ledgerOffset = s.ledgerOffset := by
  dsimp only
  rw [nvObserveSecurityStateOnce, acceptLine, nvFetchStatus_line hw hcontent hline]
  by_cases hlong : line.length > 65536
  · rw [if_pos hlong, if_pos hlong]
    exact ⟨rfl, rfl, rfl⟩
  rw [if_neg hlong, if_neg hlong]
  dsimp only
  cases hparse : lib.cJSONParse (cstr line) with
  | none => exact ⟨rfl, rfl, rfl⟩
  | some root =>
    dsimp only
    cases hbelow : belowMinimum minimumExecSeq (nvParseStatusDoc lib root) with
    | true => exact ⟨rfl, rfl, rfl⟩
    | false =>
      simp only [Bool.false_eq_true, if_false, SecState.marks]
      rcases hfresh : nvStatusIsFresh (nvParseStatusDoc lib root).execSeq
        (nvParseStatusDoc lib root).stamp s.nvLastExecSeq s.nvLastStatusSeq with ⟨_ | _, marks⟩
      · obtain ⟨hhas, -, hexec, hstatus, hoffset, -⟩ := nvRecordObservation_frame cfg
          (nvParseStatusDoc lib root) (s.accept marks (some (s.ledgerOffset + line.length)))
        dsimp only
        rw [hexec, hstatus, hoffset]
        exact ⟨hhas, rfl, rfl⟩
      · exact ⟨rfl, rfl, rfl⟩

/-- What a call reports about a line comes from the document in that line. -/
def FromLine (lib : CLib) (obs : NvStateObs) (line : Bytes) : Prop :=
  ∃ root h isNew, lib.cJSONParse (cstr line) = some root ∧
    obs = nvObsOfDoc (nvParseStatusDoc lib root) h isNew

theorem observe_fromLine (lib : CLib) (cfg : NvTargetCfg) {w : World}
    {content rest line path : Bytes} {minimumExecSeq : ℕ} {s : SecState}
    (hw : w.ShowsLedger content) (hcontent : content.drop s.ledgerOffset = line ++ rest)
    (hline : ByteLog.IsLine nl line)
    (hhas : (nvObserveSecurityStateOnce lib cfg w path minimumExecSeq s).1.has = true) :
    FromLine lib (nvObserveSecurityStateOnce lib cfg w path minimumExecSeq s).1 line := by
  have hexit := nvObserve_exit lib cfg w path minimumExecSeq s
  generalize nvObserveSecurityStateOnce lib cfg w path minimumExecSeq s = o at hhas hexit ⊢
  cases hexit with
  | unread fails => exact absurd hhas Bool.false_ne_true
  | rejected buf ledgerEnd root replays hfetch hparse hreplays => exact absurd hhas Bool.false_ne_true
  | accepted buf ledgerEnd root marks hfetch hparse hbelow hfresh =>
    rw [nvFetchStatus_line hw hcontent hline] at hfetch
    split_ifs at hfetch
    obtain ⟨rfl, -⟩ := Fetch.document.inj hfetch
    exact ⟨root, _, _, hparse, rfl⟩

/-! ## A sequence of calls -/

/-- A call while the ledger holds `consumed`, then the unread `lines`, then
whatever the producer added. -/
def ledgerStep (lib : CLib) (cfg : NvTargetCfg) (ledgerPath consumed : Bytes)
    (lines : List Bytes) (s : SecState) (c : LedgerCall) : NvStateObs × SecState :=
  nvObserveSecurityStateOnce lib cfg
    (ledgerWorld ledgerPath (consumed ++ lines.flatten ++ c.tail)) c.path c.minimumExecSeq s

/-- Call `k` observes the line that starts at `start`. -/
def ObservedAt (step : SecState → LedgerCall → NvStateObs × SecState) (s : SecState)
    (calls : ℕ → LedgerCall) (start k : ℕ) : Prop :=
  (Machine.stateAt step s calls k).ledgerOffset = start ∧
    (step (Machine.stateAt step s calls k) (calls k)).1.has = true

/-- The lines are accepted one after the other, from call `n` on: each by a call
whose minimum it is above, with the marks that the lines before it left. -/
def Clears (lib : CLib) (calls : ℕ → LedgerCall) : ℕ → Marks → List Bytes → Prop
  | _, _, [] => True
  | n, marks, line :: lines =>
    ∃ k marks', n ≤ k ∧ acceptLine lib (calls k).minimumExecSeq marks line = some marks' ∧
      Clears lib calls (k + 1) marks' lines

/-- Whether a call accepts a line depends on its minimum, the marks it leaves
do not. -/
theorem acceptLine_marks {lib : CLib} {m m' : ℕ} {marks a b : Marks} {line : Bytes}
    (ha : acceptLine lib m marks line = some a) (hb : acceptLine lib m' marks line = some b) :
    a = b := by
  unfold acceptLine at ha hb
  split_ifs at ha hb
  cases hparse : lib.cJSONParse (cstr line) with
  | none => simp [hparse] at ha
  | some root =>
    simp only [hparse] at ha hb
    split_ifs at ha hb
    rcases hfresh : nvStatusIsFresh (nvParseStatusDoc lib root).execSeq
      (nvParseStatusDoc lib root).stamp marks.1 marks.2 with ⟨_ | _, c⟩
    · simp only [hfresh, Option.some.injEq] at ha hb
      exact ha.symm.trans hb
    · simp [hfresh] at ha

theorem Clears.mono {lib : CLib} {calls : ℕ → LedgerCall} {n n' : ℕ} {marks : Marks}
    {lines : List Bytes} (h : Clears lib calls n' marks lines) (hle : n ≤ n') :
    Clears lib calls n marks lines := by
  cases lines with
  | nil => trivial
  | cons line lines =>
    obtain ⟨k, marks', hk, hrest⟩ := h
    exact ⟨k, marks', hle.trans hk, hrest⟩

/-- Either no call accepts the line, or there is a first one that does. -/
theorem exists_first_accept (lib : CLib) (calls : ℕ → LedgerCall) (m : Marks) (line : Bytes)
    (n : ℕ) :
    (∀ j, n ≤ j → acceptLine lib (calls j).minimumExecSeq m line = none) ∨
      ∃ k marks', n ≤ k ∧ acceptLine lib (calls k).minimumExecSeq m line = some marks' ∧
        ∀ j, n ≤ j → j < k → acceptLine lib (calls j).minimumExecSeq m line = none := by
  classical
  by_cases hex : ∃ k, n ≤ k ∧ acceptLine lib (calls k).minimumExecSeq m line ≠ none
  · obtain ⟨hle, hacc⟩ := Nat.find_spec hex
    obtain ⟨marks', hmarks⟩ := Option.ne_none_iff_exists'.mp hacc
    refine .inr ⟨Nat.find hex, marks', hle, hmarks, fun j hj hlt => ?_⟩
    by_contra hne
    exact Nat.find_min hex hlt ⟨hj, hne⟩
  · refine .inl fun j hj => ?_
    by_contra hne
    exact hex ⟨j, hj, hne⟩

section Run

variable (lib : CLib) (cfg : NvTargetCfg) {ledgerPath consumed : Bytes}
  {lines done rest : List Bytes} {line : Bytes} (calls : ℕ → LedgerCall) (s : SecState)

/-- One call that finds `line` as the first unread line. -/
theorem ledgerStep_line (hpath : ledgerPath ≠ []) (hline : ByteLog.IsLine nl line)
    (hlines : lines = done ++ line :: rest)
    (hoff : s.ledgerOffset = consumed.length + done.flatten.length) (c : LedgerCall) :
    let o := ledgerStep lib cfg ledgerPath consumed lines s c
    match acceptLine lib c.minimumExecSeq s.marks line with
    | some marks =>
      o.1.has = true ∧ o.2.marks = marks ∧ o.2.ledgerOffset = s.ledgerOffset + line.length
    | none => o.1.has = false ∧ o.2.marks = s.marks ∧ o.2.ledgerOffset = s.ledgerOffset := by
  have hcontent : (consumed ++ lines.flatten ++ c.tail).drop s.ledgerOffset =
      line ++ (rest.flatten ++ c.tail) := by
    rw [hoff, hlines, List.flatten_append, List.flatten_cons, List.append_assoc,
      ← List.drop_drop, List.drop_left, List.append_assoc, List.drop_left, List.append_assoc]
  exact observe_ledger_step lib cfg (ledgerWorld_showsLedger hpath _) hcontent hline

variable {n : ℕ} (hpath : ledgerPath ≠ []) (hline : ByteLog.IsLine nl line)
  (hlines : lines = done ++ line :: rest)
  (hoff : (Machine.stateAt (ledgerStep lib cfg ledgerPath consumed lines) s calls n).ledgerOffset =
    consumed.length + done.flatten.length)

include hpath hline hlines hoff

/-- A line that no call has accepted yet is still the first unread one. -/
theorem stateAt_waiting {k : ℕ} (hnk : n ≤ k)
    (hnone : ∀ j, n ≤ j → j < k → acceptLine lib (calls j).minimumExecSeq
      (Machine.stateAt (ledgerStep lib cfg ledgerPath consumed lines) s calls n).marks line =
        none) :
    let step := ledgerStep lib cfg ledgerPath consumed lines
    (Machine.stateAt step s calls k).ledgerOffset = consumed.length + done.flatten.length ∧
      (Machine.stateAt step s calls k).marks = (Machine.stateAt step s calls n).marks := by
  intro step
  induction k, hnk using Nat.le_induction with
  | base => exact ⟨hoff, rfl⟩
  | succ k hnk ih =>
    obtain ⟨hoffk, hmarksk⟩ := ih fun j hj hjk => hnone j hj (by omega)
    have hstep := ledgerStep_line lib cfg _ hpath hline hlines hoffk (calls k)
    rw [hmarksk, hnone k hnk (by omega)] at hstep
    obtain ⟨-, hmarks, hoff'⟩ := hstep
    rw [Machine.stateAt_succ]
    exact ⟨hoff'.trans hoffk, hmarks⟩

/-- The first call that accepts the line observes it and moves behind it. -/
theorem stateAt_accepting {k : ℕ} {marks' : Marks} (hnk : n ≤ k)
    (haccept : acceptLine lib (calls k).minimumExecSeq
      (Machine.stateAt (ledgerStep lib cfg ledgerPath consumed lines) s calls n).marks line =
        some marks')
    (hnone : ∀ j, n ≤ j → j < k → acceptLine lib (calls j).minimumExecSeq
      (Machine.stateAt (ledgerStep lib cfg ledgerPath consumed lines) s calls n).marks line =
        none) :
    let step := ledgerStep lib cfg ledgerPath consumed lines
    ObservedAt step s calls (consumed.length + done.flatten.length) k ∧
      (Machine.stateAt step s calls (k + 1)).ledgerOffset =
        consumed.length + done.flatten.length + line.length ∧
      (Machine.stateAt step s calls (k + 1)).marks = marks' := by
  intro step
  obtain ⟨hoffk, hmarksk⟩ :=
    stateAt_waiting lib cfg calls s hpath hline hlines hoff hnk hnone
  have hstep := ledgerStep_line lib cfg _ hpath hline hlines hoffk (calls k)
  rw [hmarksk, haccept] at hstep
  obtain ⟨hhas, hmarks, hoff'⟩ := hstep
  rw [Machine.stateAt_succ]
  exact ⟨⟨hoffk, hhas⟩, hoff'.trans (congrArg (· + _) hoffk), hmarks⟩

/-- No later line is observed before this one is accepted. -/
theorem not_observedAt_of_waiting {k start : ℕ} (hnk : n ≤ k)
    (hstart : consumed.length + done.flatten.length < start)
    (hnone : ∀ j, n ≤ j → j < k → acceptLine lib (calls j).minimumExecSeq
      (Machine.stateAt (ledgerStep lib cfg ledgerPath consumed lines) s calls n).marks line =
        none) :
    ¬ ObservedAt (ledgerStep lib cfg ledgerPath consumed lines) s calls start k := by
  rintro ⟨hoffk, -⟩
  obtain ⟨hoffk', -⟩ := stateAt_waiting lib cfg calls s hpath hline hlines hoff hnk hnone
  exact absurd (hoffk'.symm.trans hoffk) hstart.ne

/-- A line that no call accepts is not observed. -/
theorem not_observedAt_of_never {k : ℕ} (hnk : n ≤ k)
    (hnone : ∀ j, n ≤ j → acceptLine lib (calls j).minimumExecSeq
      (Machine.stateAt (ledgerStep lib cfg ledgerPath consumed lines) s calls n).marks line =
        none) :
    ¬ ObservedAt (ledgerStep lib cfg ledgerPath consumed lines) s calls
      (consumed.length + done.flatten.length) k := by
  rintro ⟨-, hhas⟩
  obtain ⟨hoffk, hmarksk⟩ := stateAt_waiting lib cfg calls s hpath hline hlines hoff hnk
    fun j hj _ => hnone j hj
  have hstep := ledgerStep_line lib cfg _ hpath hline hlines hoffk (calls k)
  rw [hmarksk, hnone k hnk] at hstep
  exact Bool.noConfusion (hhas.symm.trans hstep.1)

omit hline hlines hoff in
/-- From call `n`, whose unread lines are `pre ++ [line]`: the last of these
lines is observed exactly when all of them clear. -/
theorem observed_iff_clears (pre : List Bytes) {done : List Bytes} {n : ℕ}
    (hall : ∀ l ∈ pre ++ [line], ByteLog.IsLine nl l) (hlines : lines = done ++ (pre ++ [line]))
    (hoff : (Machine.stateAt (ledgerStep lib cfg ledgerPath consumed lines) s calls
      n).ledgerOffset = consumed.length + done.flatten.length) :
    let step := ledgerStep lib cfg ledgerPath consumed lines
    (∃ k, n ≤ k ∧ ObservedAt step s calls (consumed.length + (done ++ pre).flatten.length) k) ↔
      Clears lib calls n (Machine.stateAt step s calls n).marks (pre ++ [line]) := by
  intro step
  induction pre generalizing done n with
  | nil =>
    have hline : ByteLog.IsLine nl line := hall line (by simp)
    rw [List.append_nil]
    rcases exists_first_accept lib calls (Machine.stateAt step s calls n).marks line n with
      hnone | ⟨k', marks', hk', haccept', hfirst⟩
    · constructor
      · rintro ⟨k, hnk, hobs⟩
        exact absurd hobs
          (not_observedAt_of_never lib cfg calls s hpath hline hlines hoff hnk hnone)
      · rintro ⟨k, marks, hnk, haccept, -⟩
        exact absurd (haccept.symm.trans (hnone k hnk)) (by simp)
    · obtain ⟨hobs, -⟩ :=
        stateAt_accepting lib cfg calls s hpath hline hlines hoff hk' haccept' hfirst
      exact ⟨fun _ => ⟨k', marks', hk', haccept', trivial⟩, fun _ => ⟨k', hk', hobs⟩⟩
  | cons l pre ih =>
    have hline : ByteLog.IsLine nl l := hall l (by simp)
    have hstart : consumed.length + done.flatten.length <
        consumed.length + (done ++ l :: pre).flatten.length := by
      have hpos := hline.length_pos
      simp only [List.flatten_append, List.flatten_cons, List.length_append]
      omega
    have hearly := fun k hnk => not_observedAt_of_waiting (k := k) lib cfg calls s hpath hline
      hlines hoff hnk hstart
    rcases exists_first_accept lib calls (Machine.stateAt step s calls n).marks l n with
      hnone | ⟨k', marks', hk', haccept', hfirst⟩
    · constructor
      · rintro ⟨k, hnk, hobs⟩
        exact absurd hobs (hearly k hnk fun j hj _ => hnone j hj)
      · rintro ⟨k, marks, hnk, haccept, -⟩
        exact absurd (haccept.symm.trans (hnone k hnk)) (by simp)
    · obtain ⟨-, hoff', hmarks⟩ :=
        stateAt_accepting lib cfg calls s hpath hline hlines hoff hk' haccept' hfirst
      -- From the next call on, the lines behind `l` are the first unread ones.
      have hoff'' : (Machine.stateAt step s calls (k' + 1)).ledgerOffset =
          consumed.length + (done ++ [l]).flatten.length := by
        rw [hoff', List.flatten_append, List.flatten_singleton, List.length_append]
        omega
      have hnext := ih (fun x hx => hall x (List.mem_cons_of_mem l hx)) (by simp [hlines]) hoff''
      rw [hmarks, List.append_assoc, List.singleton_append] at hnext
      constructor
      · rintro ⟨k, hnk, hobs⟩
        have hlt : k' < k := by
          by_contra hge
          exact hearly k hnk (fun j hj hjk => hfirst j hj (by omega)) hobs
        exact ⟨k', marks', hk', haccept', hnext.mp ⟨k, hlt, hobs⟩⟩
      · rintro ⟨k, marks, hnk, haccept, hclears⟩
        have hle : k' ≤ k := by
          by_contra hgt
          exact absurd (haccept.symm.trans (hfirst k hnk (by omega))) (by simp)
        obtain rfl := acceptLine_marks haccept haccept'
        obtain ⟨k₀, hk₀, hobs⟩ := hnext.mpr (hclears.mono (by omega))
        exact ⟨k₀, by omega, hobs⟩

end Run

/-- An unread complete line is observed by some call exactly when it and every
unread line before it are accepted in turn. -/
theorem line_observed_iff (lib : CLib) (cfg : NvTargetCfg) {ledgerPath consumed line : Bytes}
    (calls : ℕ → LedgerCall) (s : SecState) (pre : List Bytes) (hpath : ledgerPath ≠ [])
    (hall : ∀ l ∈ pre ++ [line], ByteLog.IsLine nl l)
    (hoff : s.ledgerOffset = consumed.length) :
    let step := ledgerStep lib cfg ledgerPath consumed (pre ++ [line])
    (∃ k, ObservedAt step s calls (consumed.length + pre.flatten.length) k) ↔
      Clears lib calls 0 s.marks (pre ++ [line]) := by
  have h := @observed_iff_clears lib cfg ledgerPath consumed (pre ++ [line]) line calls s hpath
    pre [] 0 hall rfl (by simpa using hoff)
  simpa using h

/-- The document of the first execution. -/
def firstDocLine : Bytes := ascii "\x7b\"exec_seq\":1\x7d\n"

/-- A parser that knows this document. -/
def firstDocLib : CLib :=
  .ofDocs [(firstDocLine, .object [(ascii "exec_seq", .number (.finite 1))])]

/-- Calls without a minimum on a ledger that does not grow. -/
def plainCalls : ℕ → LedgerCall := fun _ => ⟨[], [], 0⟩

theorem firstDocLine_isLine : ByteLog.IsLine nl firstDocLine :=
  ⟨ascii "\x7b\"exec_seq\":1\x7d", rfl, by decide⟩

theorem acceptLine_firstDocLine :
    acceptLine firstDocLib 0 (SecState.init none).marks firstDocLine = some (1, 0) := by
  decide

/-- The document of the second execution. -/
def secondDocLine : Bytes := ascii "\x7b\"exec_seq\":2\x7d\n"

/-- A parser that knows both documents. -/
def twoDocsLib : CLib :=
  .ofDocs [(firstDocLine, .object [(ascii "exec_seq", .number (.finite 1))]),
    (secondDocLine, .object [(ascii "exec_seq", .number (.finite 2))])]

/-- A later call asks for a higher sequence number. -/
def risingCalls : ℕ → LedgerCall := fun k => ⟨[], [], k⟩

/-- The second document is observed: the first call accepts the document before it. -/
theorem line_observed_second :
    ∃ k, ObservedAt (ledgerStep twoDocsLib ⟨false, []⟩ (ascii "ledger") []
      [firstDocLine, secondDocLine]) (SecState.init none) risingCalls firstDocLine.length k := by
  have hsecond : ByteLog.IsLine nl secondDocLine :=
    ⟨ascii "\x7b\"exec_seq\":2\x7d", rfl, by decide⟩
  have hfirst : acceptLine twoDocsLib 0 (SecState.init none).marks firstDocLine = some (1, 0) := by
    decide
  have hnext : acceptLine twoDocsLib 1 (1, 0) secondDocLine = some (2, 0) := by decide
  exact (@line_observed_iff twoDocsLib ⟨false, []⟩ (ascii "ledger") [] secondDocLine risingCalls
    (SecState.init none) [firstDocLine] (by decide) (by simp [hsecond, firstDocLine_isLine])
    rfl).mpr ⟨0, (1, 0), Nat.le_refl 0, hfirst, 1, (2, 0), Nat.le_refl 1, hnext, trivial⟩

/-- Behind one malformed line the same document, which every call would accept,
is never observed. -/
theorem malformed_line_blocks :
    acceptLine firstDocLib 0 (SecState.init none).marks firstDocLine = some (1, 0) ∧
      ∀ k, ¬ ObservedAt
        (ledgerStep firstDocLib ⟨false, []⟩ (ascii "ledger") [] [ascii "x\n", firstDocLine])
        (SecState.init none) plainCalls (ascii "x\n").length k := by
  refine ⟨acceptLine_firstDocLine, fun k hobs => ?_⟩
  have hbad : ByteLog.IsLine nl (ascii "x\n") := ⟨ascii "x", rfl, by decide⟩
  have hmalformed : ∀ marks, acceptLine firstDocLib 0 marks (ascii "x\n") = none := by
    intro marks
    rfl
  obtain ⟨k', marks', -, haccept, -⟩ :=
    (@observed_iff_clears firstDocLib ⟨false, []⟩ (ascii "ledger") [] _ firstDocLine plainCalls
      (SecState.init none) (by decide) [ascii "x\n"] [] 0
      (by simp [hbad, firstDocLine_isLine]) rfl rfl).mp ⟨k, Nat.zero_le k, hobs⟩
  exact absurd (haccept.symm.trans (hmalformed _)) (by simp)

end AflNv
