import AflNv.Lib.LineParser
import AflNv.SeedEvidence
import AflNv.MabAudit

/-!
# The audit parsers on files that hold anything

`parse_mab_journal`, `parse_execution_ledger` and `parse_seed_selection_audit` are
meant to read whatever is in the file: a line that is not a record leaves a
diagnostic, and is not counted.  `Reports` states this, and `JournalLine`,
`LedgerLine` and `SeedLine` are the well-formed lines.

Some lines break it.  Only decode errors are caught around `json.loads`, so a line
beyond the limits of the interpreter ends the parser; so does a list where a
string is looked up in a set, and a number that does not fit a float.
`parsers_report_iff` shows which lines do.
-/

namespace AflNv

open AflNv.Lib

variable {R : Type} (L : PyLib R)

/-! ## What the parsers promise -/

/-- The diagnostic ends in the number of the line, behind a colon. -/
def NamesLine (d : Bytes) (number : ℕ) : Prop :=
  ∃ text : Bytes, text.getLast? = some 58 ∧ d = text ++ showNat number

open scoped Classical in
/-- The promise for one file: the parser returns, a line that is not well formed and a
last line without a newline are reported, and the counts are those of the well-formed
lines alone. -/
structure Reports {ρ κ : Type} (parse : FileRead → Except PyError ρ) (valid : ρ → Bool)
    (diagnostics : ρ → List Bytes) (counts : ρ → κ) (wf : Bytes → Prop) (data : Bytes) :
    Prop where
  returns : ∃ result, parse (.ok data) = .ok result
  torn : ∀ result, parse (.ok data) = .ok result → hasPartialLine data = true →
    valid result = false ∧ ascii "partial_final_line" ∈ diagnostics result
  reported : ∀ result, parse (.ok data) = .ok result →
    ∀ i line, (splitlines data)[i]? = some line → ¬ wf line →
      valid result = false ∧ ∃ d ∈ diagnostics result, NamesLine d (i + 1)
  counted : ∀ result, parse (.ok data) = .ok result →
    ∃ kept, parse (.ok (lineFile ((splitlines data).filter wf))) = .ok kept ∧
      counts result = counts kept

/-! ### A parser that follows the rules -/

/-- Lines that `splitlines` returns have no line break. -/
theorem oneLine_splitlinesFrom {cur data : Bytes} (hcur : OneLine cur) :
    ∀ line ∈ splitlinesFrom cur data, OneLine line := by
  fun_induction splitlinesFrom cur data with
  | case1 => simp
  | case2 cur => simpa using hcur
  | case3 cur b hb => simpa using hcur
  | case4 cur b hb =>
    intro line hline
    obtain rfl := List.mem_singleton.mp hline
    intro c hc
    rcases List.mem_append.mp hc with h | h
    · exact hcur c h
    · rw [List.mem_singleton.mp h]
      simpa using hb
  | case5 cur b c rest hb ih =>
    rw [List.forall_mem_cons]
    exact ⟨hcur, ih (by simp [OneLine])⟩
  | case6 cur b c rest hb hbreak ih =>
    rw [List.forall_mem_cons]
    exact ⟨hcur, ih (by simp [OneLine])⟩
  | case7 cur b c rest hb hbreak ih =>
    apply ih
    intro d hd
    rcases List.mem_append.mp hd with h | h
    · exact hcur d h
    · rw [List.mem_singleton.mp h]
      simpa using hbreak

theorem oneLine_splitlines (data : Bytes) : ∀ line ∈ splitlines data, OneLine line :=
  oneLine_splitlinesFrom (by simp [OneLine])

/-- A parser of an audit file: a fold from a state that knows whether the last line is
torn. -/
structure FileParser {σ κ ρ γ : Type} (parse : FileRead → Except PyError ρ)
    (valid : ρ → Bool) (diagnostics : ρ → List Bytes) (counts : ρ → γ)
    (step : σ → Bytes × ℕ → Except PyError σ) (start : Bool → σ) (out : σ → ρ)
    (view : LineParser.View σ κ Bytes) : Prop where
  parse_eq : ∀ data, parse (.ok data) =
    (LineParser.fold step 1 (splitlines data) (start (hasPartialLine data))).map out
  valid_out : ∀ st, valid (out st) = view.valid st
  diagnostics_out : ∀ st, diagnostics (out st) = view.diagnostics st
  counts_out : ∀ st st', view.core st = view.core st' → counts (out st) = counts (out st')
  records_out : ∀ st st', counts (out st) = counts (out st') →
    view.records (view.core st) = view.records (view.core st')
  core_start : view.core (start true) = view.core (start false)
  valid_torn : view.valid (start true) = false
  torn_mem : ascii "partial_final_line" ∈ view.diagnostics (start true)

section

variable {σ κ ρ γ : Type} {parse : FileRead → Except PyError ρ} {valid : ρ → Bool}
  {diagnostics : ρ → List Bytes} {counts : ρ → γ} {step : σ → Bytes × ℕ → Except PyError σ}
  {start : Bool → σ} {out : σ → ρ} {view : LineParser.View σ κ Bytes} {wf hostile : Bytes → Prop}

/-- The promise holds of a file exactly when no line of it is hostile. -/
theorem reports_iff (P : FileParser parse valid diagnostics counts step start out view)
    (rules : LineParser.Rules step view NamesLine wf hostile) (data : Bytes) :
    Reports parse valid diagnostics counts wf data ↔ ∀ line ∈ splitlines data, ¬ hostile line := by
  classical
  have hstart : ∀ b, view.core (start b) = view.core (start false) := by
    intro b
    cases b with
    | false => rfl
    | true => exact P.core_start
  have hone : ∀ line ∈ (splitlines data).filter wf, OneLine line := fun line hline =>
    oneLine_splitlines data line (List.mem_filter.mp hline).1
  have hparse := P.parse_eq data
  have hkept : parse (.ok (lineFile ((splitlines data).filter wf))) =
      (LineParser.fold step 1 ((splitlines data).filter wf) (start false)).map out := by
    rw [P.parse_eq, splitlines_lineFile hone, hasPartialLine_lineFile]
  constructor
  · intro h
    obtain ⟨result, hresult⟩ := h.returns
    obtain ⟨other, hother, heq⟩ := h.counted result hresult
    rw [hparse] at hresult
    rw [hkept] at hother
    obtain ⟨final, hfinal, rfl⟩ := exists_of_map_eq_ok hresult
    obtain ⟨rest, hrest, rfl⟩ := exists_of_map_eq_ok hother
    exact rules.not_hostile hfinal hrest (congrArg view.records (hstart _))
      (P.records_out final rest heq)
  · intro h
    obtain ⟨final, rest, hfinal, hrest, heq⟩ := rules.fold_wf h 1 1 (hstart (hasPartialLine data))
    have hresult : parse (.ok data) = .ok (out final) := by
      rw [hparse, hfinal]
      rfl
    have hunique : ∀ result, parse (.ok data) = .ok result → result = out final := by
      intro result hr
      rw [hresult] at hr
      exact (Except.ok.inj hr).symm
    refine ⟨⟨_, hresult⟩, ?_, ?_, ?_⟩
    · intro result hr htorn
      rw [hunique result hr, P.valid_out, P.diagnostics_out]
      rw [htorn] at hfinal
      obtain ⟨hkeep, hsub⟩ := rules.fold_extends hfinal
      exact ⟨hkeep P.valid_torn, hsub P.torn_mem⟩
    · intro result hr i line hget hwf
      rw [hunique result hr, P.valid_out, P.diagnostics_out, Nat.add_comm i 1]
      exact rules.fold_diagnosed h hfinal hget hwf
    · intro result hr
      rw [hunique result hr]
      refine ⟨out rest, ?_, P.counts_out final rest heq⟩
      rw [hkept, hrest]
      rfl

end

/-! ## The journal -/

/-- Every field of an update is there and has a value that an update can have. -/
structure UpdateFields (record : PyDict (PyJson R)) : Prop where
  keys : hasKeys record requiredUpdateKeys = true
  armMatch : getItem record "arm_match" = .bool true
  values : ∃ execSeq arm reward, pyInt L (getItem record "exec_seq") = .ok execSeq ∧
    pyInt L (getItem record "actual_used_arm") = .ok arm ∧
    pyFloat L (getItem record "reward") = .ok reward ∧
    0 < execSeq ∧ (NvArmId.idx arm).isSome = true ∧ reward.isfinite = true

/-- The records of the journal. -/
inductive JournalRecord (record : PyDict (PyJson R)) : Prop
  | cleared (reason : Bytes) (event : getItem record "event" = .str (ascii "mab_pending_cleared"))
      (reason_eq : getItem record "reason" = .str reason) (known : reason ∈ validClearReasons)
  | mismatch (event : getItem record "event" = .str (ascii "mab_update_mismatch"))
  | update (event : getItem record "event" = .str (ascii "mab_update"))
      (fields : UpdateFields L record)

/-- The line holds a JSON object of schema version 1. -/
def LoadsSchemaOne (line : Bytes) (record : PyDict (PyJson R)) : Prop :=
  line ≠ [] ∧ L.jsonLoads line = .ok (.dict record) ∧
    eqInt L (getItem record "schema_version") 1 = true

/-- A well-formed line of the journal. -/
def JournalLine (line : Bytes) : Prop :=
  ∃ record, LoadsSchemaOne L line record ∧ JournalRecord L record

/-- `json.loads` raises what is not caught: the line is beyond the limits of the
interpreter. -/
def BeyondLimits (line : Bytes) : Prop :=
  ∃ e, L.jsonLoads line = .error e ∧ e.isDecodeError = false

omit L in
/-- A value that cannot be looked up in a set. -/
def Unhashable : PyJson R → Prop
  | .list _ => True
  | .dict _ => True
  | _ => False

/-- The lines on which `parse_mab_journal` breaks its promise. -/
inductive HostileJournalLine (line : Bytes) : Prop
  | limits (nonempty : line ≠ []) (beyond : BeyondLimits L line)
  | event (record : PyDict (PyJson R)) (loads : LoadsSchemaOne L line record)
      (unhashable : Unhashable (getItem record "event"))
  | reason (record : PyDict (PyJson R)) (loads : LoadsSchemaOne L line record)
      (event : getItem record "event" = .str (ascii "mab_pending_cleared"))
      (unhashable : Unhashable (getItem record "reason"))
  | update (record : PyDict (PyJson R)) (loads : LoadsSchemaOne L line record)
      (event : getItem record "event" = .str (ascii "mab_update"))
      (fields : ¬ UpdateFields L record)

/-- The result without the verdict and the diagnostics. -/
def ParsedJournal.counts (p : ParsedJournal R) : ParsedJournal R :=
  { p with valid := true, diagnostics := [] }

def journalView : LineParser.View (ParsedJournal R × List (ℤ × ℤ))
    (ParsedJournal R × List (ℤ × ℤ)) Bytes where
  valid := fun st => st.1.valid
  diagnostics := fun st => st.1.diagnostics
  core := fun st => (st.1.counts, st.2)
  records := fun core => core.1.recordCount

theorem namesLine_append {text : Bytes} (h : text.getLast? = some 58) (n : ℕ) :
    NamesLine (text ++ showNat n) n :=
  ⟨text, h, rfl⟩

/-- A rejected line, but for the count. -/
theorem journal_reject (p : ParsedJournal R) (seen : List (ℤ × ℤ)) {text : Bytes}
    (h : text.getLast? = some 58) (n : ℕ) :
    journalView.Extends (p, seen) (p.reject (text ++ showNat n), seen) ∧
      journalView.core (p.reject (text ++ showNat n), seen) = journalView.core (p, seen) ∧
      journalView.valid (p.reject (text ++ showNat n), seen) = false ∧
      ∃ d ∈ journalView.diagnostics (p.reject (text ++ showNat n), seen), NamesLine d n := by
  refine ⟨⟨fun _ => rfl, List.subset_append_left _ _⟩, rfl, rfl, text ++ showNat n, ?_,
    namesLine_append h n⟩
  exact List.mem_append_right _ (List.mem_singleton.mpr rfl)

/-- A line that holds an object goes to its record. -/
theorem parseJournalLine_loads {line : Bytes} {record : PyDict (PyJson R)}
    (h : LoadsSchemaOne L line record) (st : ParsedJournal R × List (ℤ × ℤ)) (n : ℕ) :
    parseJournalLine L st (line, n) = parseJournalRecord L (.dict record) n st := by
  simp only [parseJournalLine, if_neg h.1, h.2.1]

/-- The names of the events are different. -/
theorem eventNames : ascii "mab_pending_cleared" ≠ ascii "mab_update_mismatch" ∧
    ascii "mab_pending_cleared" ≠ ascii "mab_update" ∧
    ascii "mab_update_mismatch" ≠ ascii "mab_update" := by
  decide

section Records

variable {L} {record : PyDict (PyJson R)} (hschema : eqInt L (getItem record "schema_version") 1 = true)

include hschema

/-- What the parser does with a pending arm that was cleared. -/
theorem parseJournalRecord_cleared
    (hevent : getItem record "event" = .str (ascii "mab_pending_cleared"))
    (st : ParsedJournal R × List (ℤ × ℤ)) (n : ℕ) :
    parseJournalRecord L (.dict record) n st = (do
      let valid ← inSet (getItem record "reason") validClearReasons
      if !valid then Except.ok (st.1.reject (ascii "unknown_reason:" ++ showNat n), st.2)
      else
        return ({ st.1 with
          recordCount := st.1.recordCount + 1
          pendingClearedCount := st.1.pendingClearedCount + 1 }, st.2)) := by
  have hin : (inSet (.str (ascii "mab_pending_cleared") : PyJson R) journalEvents) = .ok true := by
    show Except.ok (decide (ascii "mab_pending_cleared" ∈ journalEvents)) = _
    rw [decide_eq_true (by decide)]
  simp only [parseJournalRecord, hschema, hevent, eqStr, hin]
  rfl

theorem parseJournalRecord_mismatch
    (hevent : getItem record "event" = .str (ascii "mab_update_mismatch"))
    (st : ParsedJournal R × List (ℤ × ℤ)) (n : ℕ) :
    parseJournalRecord L (.dict record) n st = .ok ({ st.1 with
      recordCount := st.1.recordCount + 1
      mismatchCount := st.1.mismatchCount + 1 }, st.2) := by
  have hin : ascii "mab_update_mismatch" ∈ journalEvents := by decide
  have hne := eventNames.1.symm
  simp only [parseJournalRecord, hschema, hevent, eqStr, inSet, hin, hne]
  rfl

/-- What the parser does with the fields of an update. -/
theorem parseJournalRecord_update
    (hevent : getItem record "event" = .str (ascii "mab_update"))
    (st : ParsedJournal R × List (ℤ × ℤ)) (n : ℕ) :
    parseJournalRecord L (.dict record) n st =
      let counted := { st.1 with recordCount := st.1.recordCount + 1 }
      let reject (diagnostic : String) :=
        Except.ok (counted.reject (ascii diagnostic ++ showNat n), st.2)
      let armMatch := match getItem record "arm_match" with
        | .bool true => true
        | _ => false
      if !hasKeys record requiredUpdateKeys || !armMatch then reject "invalid_update:"
      else do
        let values ← updateValues L record
        match values with
        | none => reject "invalid_update_values:"
        | some (execSeq, arm, reward) =>
          match NvArmId.idx arm with
          | none => reject "duplicate_or_invalid_update:"
          | some a =>
            if execSeq ≤ 0 || !reward.isfinite || (execSeq, arm) ∈ st.2 then
              reject "duplicate_or_invalid_update:"
            else return (st.1.addUpdate L execSeq a reward, (execSeq, arm) :: st.2) := by
  have hin : ascii "mab_update" ∈ journalEvents := by decide
  have hne := eventNames.2.1.symm
  have hne' := eventNames.2.2.symm
  simp only [parseJournalRecord, hschema, hevent, eqStr, inSet, hin, hne, hne']
  rfl

end Records

theorem journal_accepts {line : Bytes} (h : JournalLine L line) :
    ∃ g : _ → _, ∀ st n, ∃ st', parseJournalLine L st (line, n) = .ok st' ∧
      journalView.Extends st st' ∧ journalView.core st' = g (journalView.core st) ∧
      journalView.records (journalView.core st') = journalView.records (journalView.core st) + 1 := by
  obtain ⟨record, hloads, hrecord⟩ := h
  have hschema := hloads.2.2
  have hrefl : ∀ st : ParsedJournal R × List (ℤ × ℤ), st.1.diagnostics ⊆ st.1.diagnostics :=
    fun st => List.Subset.refl _
  cases hrecord with
  | cleared reason hevent hreason hknown =>
    refine ⟨fun core => ({ core.1 with
      recordCount := core.1.recordCount + 1
      pendingClearedCount := core.1.pendingClearedCount + 1 }, core.2), fun st n => ?_⟩
    have hstep := parseJournalRecord_cleared hschema hevent st n
    rw [hreason, inSet, decide_eq_true hknown] at hstep
    exact ⟨_, (parseJournalLine_loads L hloads st n).trans hstep, ⟨id, hrefl st⟩, rfl, rfl⟩
  | mismatch hevent =>
    refine ⟨fun core => ({ core.1 with
      recordCount := core.1.recordCount + 1
      mismatchCount := core.1.mismatchCount + 1 }, core.2), fun st n => ?_⟩
    have hstep := parseJournalRecord_mismatch hschema hevent st n
    exact ⟨_, (parseJournalLine_loads L hloads st n).trans hstep, ⟨id, hrefl st⟩, rfl, rfl⟩
  | update hevent hfields =>
    obtain ⟨hkeys, hmatch, execSeq, arm, reward, hexec, harm, hreward, hpos, hidx, hfinite⟩ := hfields
    obtain ⟨a, ha⟩ := Option.isSome_iff_exists.mp hidx
    have hvalues : updateValues L record = .ok (some (execSeq, arm, reward)) := by
      rw [updateValues, hexec, harm, hreward]
      rfl
    have hle : ¬ execSeq ≤ 0 := by omega
    refine ⟨fun core => if (execSeq, arm) ∈ core.2
      then ({ core.1 with recordCount := core.1.recordCount + 1 }, core.2)
      else (core.1.addUpdate L execSeq a reward, (execSeq, arm) :: core.2), fun st n => ?_⟩
    have hstep := parseJournalRecord_update hschema hevent st n
    simp only [hkeys, hmatch, hvalues, ha, hle, hfinite, bind, Except.bind, Bool.not_true,
      Bool.or_false, Bool.false_eq_true, if_false, decide_false, Bool.false_or,
      decide_eq_true_eq] at hstep
    by_cases hseen : (execSeq, arm) ∈ st.2
    · rw [if_pos hseen] at hstep
      refine ⟨_, (parseJournalLine_loads L hloads st n).trans hstep,
        ⟨fun _ => rfl, List.subset_append_left _ _⟩, ?_, rfl⟩
      show _ = if (execSeq, arm) ∈ st.2 then _ else _
      rw [if_pos hseen]
      rfl
    · rw [if_neg hseen] at hstep
      refine ⟨_, (parseJournalLine_loads L hloads st n).trans hstep, ⟨id, hrefl st⟩, ?_, rfl⟩
      show _ = if (execSeq, arm) ∈ st.2 then _ else _
      rw [if_neg hseen]
      rfl

theorem catchValue_eq_some {α : Type} {x : Except PyError α} {a : α}
    (h : catchValue x = .ok (some a)) : x = .ok a := by
  cases x with
  | ok b => cases h; rfl
  | error e =>
    rw [catchValue] at h
    split_ifs at h
    · cases h

/-- The values that the parser read are the conversions of the fields. -/
theorem updateValues_eq_some {record : PyDict (PyJson R)} {execSeq arm : ℤ} {reward : PyFloat R}
    (h : updateValues L record = .ok (some (execSeq, arm, reward))) :
    pyInt L (getItem record "exec_seq") = .ok execSeq ∧
      pyInt L (getItem record "actual_used_arm") = .ok arm ∧
      pyFloat L (getItem record "reward") = .ok reward := by
  have hvalues := catchValue_eq_some h
  obtain ⟨e, he, hvalues⟩ := bind_ok hvalues
  obtain ⟨b, hb, hvalues⟩ := bind_ok hvalues
  obtain ⟨r, hr, hvalues⟩ := bind_ok hvalues
  cases hvalues
  exact ⟨he, hb, hr⟩

/-- The two records of a line are one. -/
theorem LoadsSchemaOne.unique {line : Bytes} {record other : PyDict (PyJson R)}
    (h : LoadsSchemaOne L line record) (h' : LoadsSchemaOne L line other) : record = other := by
  have heq := h.2.1.symm.trans h'.2.1
  simpa using heq

/-- An update with a bad field raises, or it is counted and rejected. -/
theorem parseJournalRecord_badUpdate {record : PyDict (PyJson R)}
    (hschema : eqInt L (getItem record "schema_version") 1 = true)
    (hevent : getItem record "event" = .str (ascii "mab_update")) (h : ¬ UpdateFields L record) :
    (∃ e, ∀ st n, parseJournalRecord L (.dict record) n st = .error e) ∨
      ∃ text : Bytes, ∀ st n, parseJournalRecord L (.dict record) n st =
        .ok (({ st.1 with recordCount := st.1.recordCount + 1 } : ParsedJournal R).reject
          (text ++ showNat n), st.2) := by
  have hstep := parseJournalRecord_update (L := L) hschema hevent
  by_cases hkeys : hasKeys record requiredUpdateKeys = true
  swap
  · refine .inr ⟨ascii "invalid_update:", fun st n => ?_⟩
    rw [hstep]
    simp [hkeys]
  by_cases hmatch : getItem record "arm_match" = .bool true
  swap
  · refine .inr ⟨ascii "invalid_update:", fun st n => ?_⟩
    rw [hstep]
    show (if !hasKeys record requiredUpdateKeys || !(match getItem record "arm_match" with
      | .bool true => true
      | _ => false) then _ else _) = _
    split
    · rename_i heq
      exact absurd heq hmatch
    · simp only [Bool.not_false, Bool.or_true, if_true]
  simp only [hkeys, hmatch, Bool.not_true, Bool.or_false, Bool.false_eq_true, if_false] at hstep
  cases hvalues : updateValues L record with
  | error e =>
    refine .inl ⟨e, fun st n => ?_⟩
    rw [hstep, hvalues]
    rfl
  | ok values =>
    cases values with
    | none =>
      refine .inr ⟨ascii "invalid_update_values:", fun st n => ?_⟩
      rw [hstep, hvalues]
      rfl
    | some values =>
      obtain ⟨execSeq, arm, reward⟩ := values
      refine .inr ⟨ascii "duplicate_or_invalid_update:", fun st n => ?_⟩
      obtain ⟨hexec, harm, hreward⟩ := updateValues_eq_some L hvalues
      rw [hstep, hvalues]
      show (match NvArmId.idx arm with
        | none => _
        | some a => _) = _
      cases hidx : NvArmId.idx arm with
      | none => rfl
      | some a =>
        have hbad : ¬ (0 < execSeq ∧ reward.isfinite = true) := fun hgood =>
          h ⟨hkeys, hmatch, execSeq, arm, reward, hexec, harm, hreward, hgood.1, by rw [hidx]; rfl,
            hgood.2⟩
        have hcond : (decide (execSeq ≤ 0) || !reward.isfinite || decide ((execSeq, arm) ∈ st.2)) =
            true := by
          rw [Bool.or_eq_true, Bool.or_eq_true]
          by_cases hpos : 0 < execSeq
          · have : reward.isfinite = false := by simpa [hpos] using hbad
            exact .inl (.inr (by rw [this]; rfl))
          · exact .inl (.inl (by simpa using hpos))
        show (if _ then _ else _) = _
        rw [if_pos hcond]

theorem journal_disrupts {line : Bytes} (h : HostileJournalLine L line) :
    ¬ JournalLine L line ∧ ((∀ st n, ∃ e, parseJournalLine L st (line, n) = .error e) ∨
      ∀ st n, ∃ st', parseJournalLine L st (line, n) = .ok st' ∧ journalView.Extends st st' ∧
        journalView.records (journalView.core st') =
          journalView.records (journalView.core st) + 1) := by
  cases h with
  | limits hne hbeyond =>
    obtain ⟨e, he, hdecode⟩ := hbeyond
    refine ⟨?_, .inl fun st n => ⟨e, ?_⟩⟩
    · rintro ⟨record, hloads, -⟩
      exact absurd (he.symm.trans hloads.2.1) (by simp)
    · simp [parseJournalLine, hne, he, hdecode]
  | event record hloads hunhashable =>
    have herr : inSet (getItem record "event") journalEvents = .error .typeError := by
      cases hevent : getItem record "event" <;> rw [hevent] at hunhashable <;>
        first | exact hunhashable.elim | rfl
    refine ⟨?_, .inl fun st n => ⟨.typeError, ?_⟩⟩
    · rintro ⟨other, hother, hrecord⟩
      obtain rfl := hloads.unique L hother
      cases hrecord with
      | cleared _ hevent => rw [hevent] at hunhashable; exact hunhashable
      | mismatch hevent => rw [hevent] at hunhashable; exact hunhashable
      | update hevent => rw [hevent] at hunhashable; exact hunhashable
    · rw [parseJournalLine_loads L hloads]
      simp only [parseJournalRecord, hloads.2.2, herr]
      rfl
  | reason record hloads hevent hunhashable =>
    have herr : inSet (getItem record "reason") validClearReasons = .error .typeError := by
      cases hreason : getItem record "reason" <;> rw [hreason] at hunhashable <;>
        first | exact hunhashable.elim | rfl
    refine ⟨?_, .inl fun st n => ⟨.typeError, ?_⟩⟩
    · rintro ⟨other, hother, hrecord⟩
      obtain rfl := hloads.unique L hother
      cases hrecord with
      | cleared _ _ hreason => rw [hreason] at hunhashable; exact hunhashable
      | mismatch hother =>
        exact eventNames.1 (Json.Value.str.inj (hevent.symm.trans hother))
      | update hother =>
        exact eventNames.2.1 (Json.Value.str.inj (hevent.symm.trans hother))
    · rw [parseJournalLine_loads L hloads, parseJournalRecord_cleared hloads.2.2 hevent, herr]
      rfl
  | update record hloads hevent hfields =>
    refine ⟨?_, ?_⟩
    · rintro ⟨other, hother, hrecord⟩
      obtain rfl := hloads.unique L hother
      cases hrecord with
      | cleared _ hother =>
        exact eventNames.2.1 (Json.Value.str.inj (hother.symm.trans hevent))
      | mismatch hother =>
        exact eventNames.2.2 (Json.Value.str.inj (hother.symm.trans hevent))
      | update _ hgood => exact hfields hgood
    · rcases parseJournalRecord_badUpdate L hloads.2.2 hevent hfields with ⟨e, he⟩ | ⟨text, htext⟩
      · exact .inl fun st n => ⟨e, (parseJournalLine_loads L hloads st n).trans (he st n)⟩
      · exact .inr fun st n => ⟨_, (parseJournalLine_loads L hloads st n).trans (htext st n),
          ⟨fun _ => rfl, List.subset_append_left _ _⟩, rfl⟩

/-- A line that the parser rejects without counting it. -/
theorem journal_rejected {line : Bytes} {st : ParsedJournal R × List (ℤ × ℤ)} {n : ℕ} (text : Bytes)
    (hstep : parseJournalLine L st (line, n) = .ok (st.1.reject (text ++ showNat n), st.2))
    (h : text.getLast? = some 58) :
    ∃ st', parseJournalLine L st (line, n) = .ok st' ∧ journalView.Extends st st' ∧
      journalView.core st' = journalView.core st ∧ journalView.valid st' = false ∧
      ∃ d ∈ journalView.diagnostics st', NamesLine d n := by
  have hreject := journal_reject st.1 st.2 h n
  exact ⟨_, hstep, hreject⟩

theorem journal_skips {line : Bytes} (hwf : ¬ JournalLine L line)
    (hhostile : ¬ HostileJournalLine L line) (st : ParsedJournal R × List (ℤ × ℤ)) (n : ℕ) :
    ∃ st', parseJournalLine L st (line, n) = .ok st' ∧ journalView.Extends st st' ∧
      journalView.core st' = journalView.core st ∧ journalView.valid st' = false ∧
      ∃ d ∈ journalView.diagnostics st', NamesLine d n := by
  by_cases hne : line = []
  · exact journal_rejected L (ascii "blank_line:") (by simp [parseJournalLine, hne]) rfl
  cases hload : L.jsonLoads line with
  | error e =>
    cases hdecode : e.isDecodeError with
    | true =>
      exact journal_rejected L (ascii "malformed_line:")
        (by simp [parseJournalLine, hne, hload, hdecode]) rfl
    | false => exact absurd (.limits hne ⟨e, hload, hdecode⟩) hhostile
  | ok v =>
    have hline : parseJournalLine L st (line, n) = parseJournalRecord L v n st := by
      simp only [parseJournalLine, if_neg hne, hload]
    by_cases hobject : ∃ record, v = .dict record ∧ eqInt L (getItem record "schema_version") 1 = true
    swap
    · apply journal_rejected L (ascii "unsupported_schema:") _ rfl
      rw [hline]
      cases v with
      | dict record =>
        have hschema : eqInt L (getItem record "schema_version") 1 = false := by
          simpa using fun h => hobject ⟨record, rfl, h⟩
        simp only [parseJournalRecord, hschema]
        rfl
      | _ => rfl
    obtain ⟨record, rfl, hschema⟩ := hobject
    have hloads : LoadsSchemaOne L line record := ⟨hne, hload, hschema⟩
    have hunknown : inSet (getItem record "event") journalEvents = .ok false →
        parseJournalLine L st (line, n) =
          .ok (st.1.reject (ascii "unknown_event:" ++ showNat n), st.2) := by
      intro hevent
      rw [hline]
      simp only [parseJournalRecord, hschema, hevent]
      rfl
    cases hevent : getItem record "event" with
    | list _ => exact absurd (.event record hloads (by rw [hevent]; trivial)) hhostile
    | dict _ => exact absurd (.event record hloads (by rw [hevent]; trivial)) hhostile
    | str event =>
      by_cases hknown : event ∈ journalEvents
      swap
      · exact journal_rejected L _ (hunknown (by rw [hevent, inSet, decide_eq_false hknown])) rfl
      have hcases : event = ascii "mab_update" ∨ event = ascii "mab_pending_cleared" ∨
          event = ascii "mab_update_mismatch" := by
        simpa [journalEvents] using hknown
      rcases hcases with rfl | rfl | rfl
      · by_cases hfields : UpdateFields L record
        · exact absurd ⟨record, hloads, .update hevent hfields⟩ hwf
        · exact absurd (.update record hloads hevent hfields) hhostile
      · have hstep := parseJournalRecord_cleared hschema hevent st n
        have hunknownReason : inSet (getItem record "reason") validClearReasons = .ok false →
            parseJournalLine L st (line, n) =
              .ok (st.1.reject (ascii "unknown_reason:" ++ showNat n), st.2) := by
          intro hreason
          rw [hline, hstep, hreason]
          rfl
        cases hreason : getItem record "reason" with
        | list _ =>
          exact absurd (.reason record hloads hevent (by rw [hreason]; trivial)) hhostile
        | dict _ =>
          exact absurd (.reason record hloads hevent (by rw [hreason]; trivial)) hhostile
        | str reason =>
          by_cases hvalid : reason ∈ validClearReasons
          · exact absurd ⟨record, hloads, .cleared reason hevent hreason hvalid⟩ hwf
          · exact journal_rejected L _
              (hunknownReason (by rw [hreason, inSet, decide_eq_false hvalid])) rfl
        | _ => exact journal_rejected L _ (hunknownReason (by rw [hreason]; rfl)) rfl
      · exact absurd ⟨record, hloads, .mismatch hevent⟩ hwf
    | _ => exact journal_rejected L _ (hunknown (by rw [hevent]; rfl)) rfl

theorem journal_rules : LineParser.Rules (parseJournalLine L) journalView NamesLine
    (JournalLine L) (HostileJournalLine L) where
  accepts := journal_accepts L
  skips := journal_skips L
  disrupts := journal_disrupts L

def journalStart (torn : Bool) : ParsedJournal R × List (ℤ × ℤ) :=
  let p := ParsedJournal.empty L
  (if torn then p.reject (ascii "partial_final_line") else p, [])

theorem journal_fileParser : FileParser (parseMabJournal L) ParsedJournal.valid
    ParsedJournal.diagnostics ParsedJournal.counts (parseJournalLine L) (journalStart L) Prod.fst
    journalView where
  parse_eq := fun _ => rfl
  valid_out := fun _ => rfl
  diagnostics_out := fun _ => rfl
  counts_out := fun _ _ h => congrArg Prod.fst h
  records_out := fun _ _ h => congrArg ParsedJournal.recordCount h
  core_start := rfl
  valid_torn := rfl
  torn_mem := List.mem_singleton.mpr rfl

/-! ## The execution ledger -/

/-- The fields of a ledger record are there, but for its outcome. -/
structure LedgerHead (record : PyDict (PyJson R)) : Prop where
  schema : eqInt L (getItem record "schema_version") 1 = true
  event : getItem record "event" = .str (ascii "execution")
  keys : hasKeys record requiredLedgerKeys = true
  iteration : isIteration (getItem record "iteration_id") = true

/-- The fields of a ledger record do not contradict each other. -/
structure LedgerConsistent (record : PyDict (PyJson R)) (outcome : Bytes) : Prop where
  cleanup : outcome = ascii "pending_cleanup" →
    (∃ reason, getItem record "pending_cleanup_reason" = .str reason ∧ reason ≠ []) ∧
      getItem record "exec_seq" = .null
  observed : eqInt L (getItem record "status_observed")
    (if isExecSeq (getItem record "exec_seq") then 1 else 0) = true
  target : truthy L (getItem record "target_invoked") = true →
    truthy L (getItem record "status_observed") = true ∨
      outcome = ascii "invalid_exec_identity" ∨ outcome = ascii "pending_cleanup"
  commit : outcome = ascii "committed_update" →
    truthy L (getItem record "status_observed") = true ∧
      truthy L (getItem record "arm_match") = true

/-- The line holds a JSON object. -/
def LoadsDict (line : Bytes) (record : PyDict (PyJson R)) : Prop :=
  L.jsonLoads line = .ok (.dict record)

/-- A well-formed line of the ledger. -/
def LedgerLine (line : Bytes) : Prop :=
  ∃ record outcome, LoadsDict L line record ∧ LedgerHead L record ∧
    getItem record "mab_outcome" = .str outcome ∧ outcome ∈ ledgerOutcomes ∧
      LedgerConsistent L record outcome

/-- The lines on which `parse_execution_ledger` breaks its promise. -/
inductive HostileLedgerLine (line : Bytes) : Prop
  | limits (beyond : BeyondLimits L line)
  | outcome (record : PyDict (PyJson R)) (loads : LoadsDict L line record)
      (head : LedgerHead L record) (unhashable : Unhashable (getItem record "mab_outcome"))
  | inconsistent (record : PyDict (PyJson R)) (outcome : Bytes) (loads : LoadsDict L line record)
      (head : LedgerHead L record) (outcome_eq : getItem record "mab_outcome" = .str outcome)
      (known : outcome ∈ ledgerOutcomes) (contradicts : ¬ LedgerConsistent L record outcome)

/-- The result without the verdict and the diagnostics. -/
def ParsedLedger.counts (p : ParsedLedger) : ParsedLedger :=
  { p with valid := true, diagnostics := [] }

def ledgerView : LineParser.View ParsedLedger ParsedLedger Bytes where
  valid := ParsedLedger.valid
  diagnostics := ParsedLedger.diagnostics
  core := ParsedLedger.counts
  records := ParsedLedger.recordCount

/-- A check changes nothing but the verdict. -/
theorem ParsedLedger.check_after {p q c : ParsedLedger}
    (h : ledgerView.Extends p q ∧ q.counts = c) (bad : Bool) (diagnostic : String) (n : ℕ) :
    ledgerView.Extends p (q.check bad diagnostic n) ∧ (q.check bad diagnostic n).counts = c := by
  rw [ParsedLedger.check]
  cases bad with
  | false => exact h
  | true => exact ⟨h.1.trans ⟨fun _ => rfl, List.subset_append_left _ _⟩, h.2⟩

theorem ParsedLedger.count_after {p q c : ParsedLedger} (h : ledgerView.Extends p q ∧ q.counts = c)
    (record : PyDict (PyJson R)) :
    ledgerView.Extends p (q.count L record) ∧ (q.count L record).counts = c.count L record := by
  refine ⟨h.1.trans ⟨id, List.Subset.refl _⟩, ?_⟩
  rw [← h.2]
  rfl

/-- A record of a known outcome is counted, whatever else is in it. -/
theorem parseLedgerRecord_known {record : PyDict (PyJson R)}
    (h : isLedgerRecord L record = .ok true) (n : ℕ) (p : ParsedLedger) :
    ∃ p', parseLedgerRecord L (.dict record) n p = .ok p' ∧ ledgerView.Extends p p' ∧
      p'.counts = p.counts.count L record := by
  simp only [parseLedgerRecord, h]
  refine ⟨_, rfl, ?_⟩
  -- Four checks behind the count, and two in front of it.
  apply ParsedLedger.check_after
  apply ParsedLedger.check_after
  apply ParsedLedger.check_after
  apply ParsedLedger.check_after
  apply ParsedLedger.count_after
  apply ParsedLedger.check_after
  apply ParsedLedger.check_after
  exact ⟨⟨id, List.Subset.refl _⟩, rfl⟩

/-- The test of the fields that the parser makes first. -/
theorem isLedgerRecord_eq (record : PyDict (PyJson R)) [Decidable (LedgerHead L record)] :
    isLedgerRecord L record = if LedgerHead L record
      then inSet (getItem record "mab_outcome") ledgerOutcomes else .ok false := by
  have hevent : eqStr (getItem record "event") (ascii "execution") = true ↔
      getItem record "event" = .str (ascii "execution") := by
    cases getItem record "event" <;> simp [eqStr]
  have hhead : LedgerHead L record ↔
      (!eqInt L (getItem record "schema_version") 1 ||
        !eqStr (getItem record "event") (ascii "execution") ||
        !hasKeys record requiredLedgerKeys || !isIteration (getItem record "iteration_id")) =
          false := by
    simp only [Bool.or_eq_false_iff, Bool.not_eq_false']
    constructor
    · intro h
      exact ⟨⟨⟨h.schema, hevent.mpr h.event⟩, h.keys⟩, h.iteration⟩
    · rintro ⟨⟨⟨hschema, he⟩, hkeys⟩, hiteration⟩
      exact ⟨hschema, hevent.mp he, hkeys, hiteration⟩
  rw [isLedgerRecord]
  by_cases h : LedgerHead L record
  · rw [if_pos h, if_neg (by rw [hhead.mp h]; simp)]
  · have htrue := mt hhead.mpr h
    rw [Bool.not_eq_false] at htrue
    rw [if_neg h, if_pos htrue]
    rfl

theorem parseLedgerLine_loads {line : Bytes} {record : PyDict (PyJson R)}
    (h : LoadsDict L line record) (p : ParsedLedger) (n : ℕ) :
    parseLedgerLine L p (line, n) = parseLedgerRecord L (.dict record) n p := by
  rw [LoadsDict] at h
  simp only [parseLedgerLine, h]

/-- A line with the head and a known outcome is counted. -/
theorem ledger_counted {line : Bytes} {record : PyDict (PyJson R)} {outcome : Bytes}
    (hloads : LoadsDict L line record) (hhead : LedgerHead L record)
    (houtcome : getItem record "mab_outcome" = .str outcome) (hknown : outcome ∈ ledgerOutcomes)
    (p : ParsedLedger) (n : ℕ) :
    ∃ p', parseLedgerLine L p (line, n) = .ok p' ∧ ledgerView.Extends p p' ∧
      p'.counts = p.counts.count L record := by
  classical
  have hrecord : isLedgerRecord L record = .ok true := by
    rw [isLedgerRecord_eq, if_pos hhead, houtcome, inSet, decide_eq_true hknown]
  rw [parseLedgerLine_loads L hloads]
  exact parseLedgerRecord_known L hrecord n p

theorem ledger_rules : LineParser.Rules (parseLedgerLine L) ledgerView NamesLine
    (LedgerLine L) (HostileLedgerLine L) where
  accepts := by
    rintro line ⟨record, outcome, hloads, hhead, houtcome, hknown, -⟩
    refine ⟨fun c => c.count L record, fun p n => ?_⟩
    obtain ⟨p', hstep, hext, hcounts⟩ := ledger_counted L hloads hhead houtcome hknown p n
    exact ⟨p', hstep, hext, hcounts, congrArg ParsedLedger.recordCount hcounts⟩
  disrupts := by
    classical
    intro line h
    cases h with
    | limits hbeyond =>
      obtain ⟨e, he, hdecode⟩ := hbeyond
      refine ⟨?_, .inl fun p n => ⟨e, ?_⟩⟩
      · rintro ⟨record, outcome, hloads, -⟩
        exact absurd (he.symm.trans hloads) (by simp)
      · simp [parseLedgerLine, he, hdecode]
    | outcome record hloads hhead hunhashable =>
      have herr : inSet (getItem record "mab_outcome") ledgerOutcomes = .error .typeError := by
        cases houtcome : getItem record "mab_outcome" <;> rw [houtcome] at hunhashable <;>
          first | exact hunhashable.elim | rfl
      refine ⟨?_, .inl fun p n => ⟨.typeError, ?_⟩⟩
      · rintro ⟨other, outcome, hother, -, houtcome, -⟩
        obtain rfl : record = other := by simpa using hloads.symm.trans hother
        rw [houtcome] at hunhashable
        exact hunhashable
      · rw [parseLedgerLine_loads L hloads]
        simp only [parseLedgerRecord, isLedgerRecord_eq, if_pos hhead, herr]
        rfl
    | inconsistent record outcome hloads hhead houtcome hknown hcontradicts =>
      refine ⟨?_, .inr fun p n => ?_⟩
      · rintro ⟨other, outcome', hother, -, houtcome', -, hgood⟩
        obtain rfl : record = other := by simpa using hloads.symm.trans hother
        obtain rfl : outcome = outcome' := Json.Value.str.inj (houtcome.symm.trans houtcome')
        exact hcontradicts hgood
      · obtain ⟨p', hstep, hext, hcounts⟩ := ledger_counted L hloads hhead houtcome hknown p n
        exact ⟨p', hstep, hext, congrArg ParsedLedger.recordCount hcounts⟩
  skips := by
    classical
    intro line hwf hhostile p n
    have hreject : ∀ text : Bytes, text.getLast? = some 58 →
        parseLedgerLine L p (line, n) = .ok (p.reject (text ++ showNat n)) →
        ∃ p', parseLedgerLine L p (line, n) = .ok p' ∧ ledgerView.Extends p p' ∧
          ledgerView.core p' = ledgerView.core p ∧ ledgerView.valid p' = false ∧
          ∃ d ∈ ledgerView.diagnostics p', NamesLine d n := by
      intro text htext hstep
      exact ⟨_, hstep, ⟨fun _ => rfl, List.subset_append_left _ _⟩, rfl, rfl, text ++ showNat n,
        List.mem_append_right _ (List.mem_singleton.mpr rfl), namesLine_append htext n⟩
    cases hload : L.jsonLoads line with
    | error e =>
      cases hdecode : e.isDecodeError with
      | true =>
        exact hreject (ascii "malformed_line:") rfl (by simp [parseLedgerLine, hload, hdecode])
      | false => exact absurd (.limits ⟨e, hload, hdecode⟩) hhostile
    | ok v =>
      have hline : parseLedgerLine L p (line, n) = parseLedgerRecord L v n p := by
        simp only [parseLedgerLine, hload]
      apply hreject (ascii "invalid_record:") rfl
      rw [hline]
      cases v with
      | dict record =>
        have hloads : LoadsDict L line record := hload
        have hfalse : isLedgerRecord L record = .ok false := by
          rw [isLedgerRecord_eq]
          split_ifs with hhead
          · cases houtcome : getItem record "mab_outcome" with
            | list _ => exact absurd (.outcome record hloads hhead (by rw [houtcome]; trivial)) hhostile
            | dict _ => exact absurd (.outcome record hloads hhead (by rw [houtcome]; trivial)) hhostile
            | str outcome =>
              have hunknown : outcome ∉ ledgerOutcomes := by
                intro hknown
                by_cases hgood : LedgerConsistent L record outcome
                · exact hwf ⟨record, outcome, hloads, hhead, houtcome, hknown, hgood⟩
                · exact hhostile (.inconsistent record outcome hloads hhead houtcome hknown hgood)
              rw [inSet, decide_eq_false hunknown]
            | _ => rfl
          · rfl
        simp only [parseLedgerRecord, hfalse]
        rfl
      | _ => rfl

def ledgerStart (torn : Bool) : ParsedLedger :=
  if torn then ParsedLedger.empty.reject (ascii "partial_final_line") else ParsedLedger.empty

theorem ledger_fileParser : FileParser (parseExecutionLedger L) ParsedLedger.valid
    ParsedLedger.diagnostics ParsedLedger.counts (parseLedgerLine L) ledgerStart id ledgerView where
  parse_eq := fun data => by
    show (numbered (splitlines data)).foldlM (parseLedgerLine L) _ = Except.map id _
    cases h : LineParser.fold (parseLedgerLine L) 1 (splitlines data)
      (ledgerStart (hasPartialLine data)) with
    | error e => exact h
    | ok p => exact h
  valid_out := fun _ => rfl
  diagnostics_out := fun _ => rfl
  counts_out := fun _ _ h => h
  records_out := fun _ _ h => congrArg ParsedLedger.recordCount h
  core_start := rfl
  valid_torn := rfl
  torn_mem := List.mem_singleton.mpr rfl

/-! ## The audit of seed selections -/

/-- The integer fields of a record of the audit. -/
structure SeedIntegers (record : PyDict (PyJson R)) where
  queueId : ℤ
  depth : ℤ
  ssCovCnt : ℤ
  ssSelectedCnt : ℤ
  queueId_eq : record.lookup (ascii "queue_id") = some (.int queueId)
  depth_eq : record.lookup (ascii "depth") = some (.int depth)
  ssCovCnt_eq : record.lookup (ascii "ss_cov_cnt") = some (.int ssCovCnt)
  ssSelectedCnt_eq : record.lookup (ascii "ss_selected_cnt") = some (.int ssSelectedCnt)
  queueId_nonneg : 0 ≤ queueId
  depth_nonneg : 0 ≤ depth
  ssCovCnt_nonneg : 0 ≤ ssCovCnt
  ssSelectedCnt_pos : 1 ≤ ssSelectedCnt

/-- The fields of a record of the audit but for its probability. -/
def SeedHead (record : PyDict (PyJson R)) : Prop :=
  sameKeys record seedRecordKeys = true ∧ Nonempty (SeedIntegers record)

/-- A finite number, as the float that it stands for. -/
def FiniteNumber (v : PyJson R) : Prop :=
  (∃ i x, v = .int i ∧ L.floatOfInt i = some x ∧ x.isfinite = true) ∨
    ∃ x : PyFloat R, v = .float x ∧ x.isfinite = true

/-- A well-formed line of the audit. -/
def SeedLine (line : Bytes) : Prop :=
  line ≠ [] ∧ ∃ record v, LoadsDict L line record ∧ SeedHead record ∧
    record.lookup (ascii "ss_prob") = some v ∧ FiniteNumber L v

/-- The lines on which `parse_seed_selection_audit` breaks its promise. -/
inductive HostileSeedLine (line : Bytes) : Prop
  | limits (nonempty : line ≠ []) (beyond : BeyondLimits L line)
  | overflow (nonempty : line ≠ []) (record : PyDict (PyJson R)) (loads : LoadsDict L line record)
      (head : SeedHead record) (p : ℤ) (prob : record.lookup (ascii "ss_prob") = some (.int p))
      (large : L.floatOfInt p = none)

/-- The result without the verdict, the diagnostics and the counts of malformed
lines. -/
def ParsedSeedAudit.counts (p : ParsedSeedAudit) : ParsedSeedAudit :=
  { p with valid := true, diagnostics := [], malformedCount := 0, partialFinalLine := false }

def seedView : LineParser.View (ParsedSeedAudit × List (SeedRecord R))
    (ParsedSeedAudit × List (SeedRecord R)) Bytes where
  valid := fun st => st.1.valid
  diagnostics := fun st => st.1.diagnostics
  core := fun st => (st.1.counts, st.2)
  records := fun core => core.1.recordCount

/-- The integers of a record in the shape in which the parser checks them. -/
theorem seedRecordOf_head {record : PyDict (PyJson R)} (hkeys : sameKeys record seedRecordKeys = true)
    (c : SeedIntegers record) :
    seedRecordOf L (.dict record) =
      match record.lookup (ascii "ss_prob") with
      | some (.int p) =>
        match L.floatOfInt p with
        | none => .error .overflowError
        | some x =>
          if x.isfinite then
            .ok (.inr ⟨c.queueId, c.depth, c.ssCovCnt, c.ssSelectedCnt, .int p⟩)
          else .ok (.inl (ascii "probability_nonfinite:"))
      | some (.float x) =>
        if x.isfinite then .ok (.inr ⟨c.queueId, c.depth, c.ssCovCnt, c.ssSelectedCnt, .float x⟩)
        else .ok (.inl (ascii "probability_nonfinite:"))
      | _ => .ok (.inl (ascii "probability_type:")) := by
  have hq := c.queueId_nonneg
  have hd := c.depth_nonneg
  have hc := c.ssCovCnt_nonneg
  have hs := c.ssSelectedCnt_pos
  have hrange : ¬ ((c.queueId < 0 || c.depth < 0 || c.ssCovCnt < 0 || c.ssSelectedCnt < 1) = true) := by
    simp only [Bool.or_eq_true, decide_eq_true_eq]
    omega
  simp only [seedRecordOf, hkeys, c.queueId_eq, c.depth_eq, c.ssCovCnt_eq, c.ssSelectedCnt_eq, hrange]
  rfl

/-- Without the head, the parser has an objection to the record. -/
theorem seedRecordOf_of_not_head {record : PyDict (PyJson R)} (h : ¬ SeedHead record) :
    ∃ text : Bytes, text.getLast? = some 58 ∧ seedRecordOf L (.dict record) = .ok (.inl text) := by
  by_cases hkeys : sameKeys record seedRecordKeys = true
  swap
  · exact ⟨ascii "schema_violation:", rfl, by simp [seedRecordOf, hkeys]⟩
  simp only [seedRecordOf, hkeys, Bool.not_true, Bool.false_eq_true, if_false]
  split
  · rename_i q d c n hq hd hc hn
    have hrange : (q < 0 || d < 0 || c < 0 || n < 1) = true := by
      by_contra hrange
      simp only [Bool.or_eq_true, decide_eq_true_eq] at hrange
      exact h ⟨hkeys, ⟨⟨q, d, c, n, hq, hd, hc, hn, by omega, by omega, by omega, by omega⟩⟩⟩
    exact ⟨ascii "integer_range:", rfl, if_pos hrange⟩
  · exact ⟨ascii "integer_type:", rfl, rfl⟩

/-- A finite probability makes a record. -/
theorem seedRecordOf_finite {record : PyDict (PyJson R)} (h : SeedHead record) {v : PyJson R}
    (hprob : record.lookup (ascii "ss_prob") = some v) (hv : FiniteNumber L v) :
    ∃ r, seedRecordOf L (.dict record) = .ok (.inr r) := by
  obtain ⟨hkeys, ⟨c⟩⟩ := h
  rw [seedRecordOf_head L hkeys c, hprob]
  rcases hv with ⟨i, x, rfl, hfloat, hfinite⟩ | ⟨x, rfl, hfinite⟩
  · simp only [hfloat, hfinite, if_true]
    exact ⟨_, rfl⟩
  · simp only [hfinite, if_true]
    exact ⟨_, rfl⟩

/-- The ways in which the check of a record with a head ends. -/
theorem seedRecordOf_cases {record : PyDict (PyJson R)} (h : SeedHead record) :
    (∃ v, record.lookup (ascii "ss_prob") = some v ∧ FiniteNumber L v) ∨
      (∃ p, record.lookup (ascii "ss_prob") = some (.int p) ∧ L.floatOfInt p = none ∧
        seedRecordOf L (.dict record) = .error .overflowError) ∨
      ∃ text : Bytes, text.getLast? = some 58 ∧ seedRecordOf L (.dict record) = .ok (.inl text) := by
  obtain ⟨hkeys, ⟨c⟩⟩ := h
  rw [seedRecordOf_head L hkeys c]
  split
  · rename_i p hprob
    cases hfloat : L.floatOfInt p with
    | none => exact .inr (.inl ⟨p, hprob, hfloat, rfl⟩)
    | some x =>
      cases hfinite : x.isfinite with
      | true => exact .inl ⟨_, hprob, .inl ⟨p, x, rfl, hfloat, hfinite⟩⟩
      | false =>
        refine .inr (.inr ⟨ascii "probability_nonfinite:", rfl, ?_⟩)
        simp [hfinite]
  · rename_i x hprob
    cases hfinite : x.isfinite with
    | true => exact .inl ⟨_, hprob, .inr ⟨x, rfl, hfinite⟩⟩
    | false => exact .inr (.inr ⟨ascii "probability_nonfinite:", rfl, by simp⟩)
  · exact .inr (.inr ⟨ascii "probability_type:", rfl, rfl⟩)

section

variable [DecidableEq R]

/-- A line with a record is counted, also when it repeats another. -/
theorem seed_accepts {line : Bytes} (h : SeedLine L line) :
    ∃ g : _ → _, ∀ st n, ∃ st', parseSeedLine L st (line, n) = .ok st' ∧
      seedView.Extends st st' ∧ seedView.core st' = g (seedView.core st) ∧
      seedView.records (seedView.core st') = seedView.records (seedView.core st) + 1 := by
  obtain ⟨hne, record, v, hloads, hhead, hprob, hfinite⟩ := h
  obtain ⟨r, hr⟩ := seedRecordOf_finite L hhead hprob hfinite
  rw [LoadsDict] at hloads
  refine ⟨fun core => if r ∈ core.2
    then ({ core.1.add r with duplicateCount := core.1.duplicateCount + 1 }, core.2)
    else (core.1.add r, r :: core.2), fun st n => ?_⟩
  have hstep : parseSeedLine L st (line, n) = if r ∈ st.2
      then .ok ({ (st.1.add r).reject (ascii "duplicate_record:" ++ showNat n) with
        duplicateCount := st.1.duplicateCount + 1 }, st.2)
      else .ok (st.1.add r, r :: st.2) := by
    simp only [parseSeedLine, if_neg hne, hloads, hr]
    rfl
  by_cases hseen : r ∈ st.2
  · rw [if_pos hseen] at hstep
    refine ⟨_, hstep, ⟨fun _ => rfl, List.subset_append_left _ _⟩, ?_, rfl⟩
    show _ = if r ∈ st.2 then _ else _
    rw [if_pos hseen]
    rfl
  · rw [if_neg hseen] at hstep
    refine ⟨_, hstep, ⟨id, List.Subset.refl _⟩, ?_, rfl⟩
    show _ = if r ∈ st.2 then _ else _
    rw [if_neg hseen]
    rfl

theorem seed_disrupts {line : Bytes} (h : HostileSeedLine L line) :
    ¬ SeedLine L line ∧ ((∀ st n, ∃ e, parseSeedLine L st (line, n) = .error e) ∨
      ∀ st n, ∃ st', parseSeedLine L st (line, n) = .ok st' ∧ seedView.Extends st st' ∧
        seedView.records (seedView.core st') = seedView.records (seedView.core st) + 1) := by
  cases h with
  | limits hne hbeyond =>
    obtain ⟨e, he, hdecode⟩ := hbeyond
    refine ⟨?_, .inl fun st n => ⟨e, ?_⟩⟩
    · rintro ⟨-, record, v, hloads, -⟩
      exact absurd (he.symm.trans hloads) (by simp)
    · simp [parseSeedLine, hne, he, hdecode]
  | overflow hne record hloads hhead p hprob hlarge =>
    refine ⟨?_, .inl fun st n => ⟨.overflowError, ?_⟩⟩
    · rintro ⟨-, other, v, hother, -, hv, hfinite⟩
      obtain rfl : record = other := by simpa using hloads.symm.trans hother
      obtain rfl : Json.Value.int p = v := Option.some.inj (hprob.symm.trans hv)
      rcases hfinite with ⟨i, x, hi, hx, -⟩ | ⟨x, hx, -⟩
      · cases hi
        exact absurd (hlarge.symm.trans hx) (by simp)
      · cases hx
    · obtain ⟨hkeys, ⟨c⟩⟩ := hhead
      have hr : seedRecordOf L (.dict record) = .error .overflowError := by
        rw [seedRecordOf_head L hkeys c, hprob]
        simp only [hlarge]
      rw [LoadsDict] at hloads
      simp only [parseSeedLine, if_neg hne, hloads, hr]

theorem seed_skips {line : Bytes} (hwf : ¬ SeedLine L line) (hhostile : ¬ HostileSeedLine L line)
    (st : ParsedSeedAudit × List (SeedRecord R)) (n : ℕ) :
    ∃ st', parseSeedLine L st (line, n) = .ok st' ∧ seedView.Extends st st' ∧
      seedView.core st' = seedView.core st ∧ seedView.valid st' = false ∧
      ∃ d ∈ seedView.diagnostics st', NamesLine d n := by
  have hmem : ∀ text : Bytes, text ++ showNat n ∈ st.1.diagnostics ++ [text ++ showNat n] :=
    fun text => List.mem_append_right _ (List.mem_singleton.mpr rfl)
  have hreject : ∀ text : Bytes, text.getLast? = some 58 →
      parseSeedLine L st (line, n) = .ok (st.1.reject (text ++ showNat n), st.2) →
      ∃ st', parseSeedLine L st (line, n) = .ok st' ∧ seedView.Extends st st' ∧
        seedView.core st' = seedView.core st ∧ seedView.valid st' = false ∧
        ∃ d ∈ seedView.diagnostics st', NamesLine d n :=
    fun text htext hstep => ⟨_, hstep, ⟨fun _ => rfl, List.subset_append_left _ _⟩, rfl, rfl,
      text ++ showNat n, hmem text, namesLine_append htext n⟩
  by_cases hne : line = []
  · exact hreject (ascii "blank_line:") rfl (by simp [parseSeedLine, hne])
  cases hload : L.jsonLoads line with
  | error e =>
    cases hdecode : e.isDecodeError with
    | true =>
      have hstep : parseSeedLine L st (line, n) =
          .ok ({ st.1.reject (ascii "malformed_line:" ++ showNat n) with
            malformedCount := st.1.malformedCount + 1 }, st.2) := by
        simp only [parseSeedLine, if_neg hne, hload, hdecode, if_true]
        rfl
      exact ⟨_, hstep, ⟨fun _ => rfl, List.subset_append_left _ _⟩, rfl, rfl,
        ascii "malformed_line:" ++ showNat n, hmem _, namesLine_append rfl n⟩
    | false => exact absurd (.limits hne ⟨e, hload, hdecode⟩) hhostile
  | ok v =>
    have hobject : ∀ text : Bytes, seedRecordOf L v = .ok (.inl text) →
        parseSeedLine L st (line, n) = .ok (st.1.reject (text ++ showNat n), st.2) := by
      intro text hr
      simp only [parseSeedLine, if_neg hne, hload, hr]
    cases v with
    | dict record =>
      by_cases hhead : SeedHead record
      · rcases seedRecordOf_cases L hhead with ⟨v, hprob, hfinite⟩ | ⟨p, hprob, hlarge, -⟩ |
          ⟨text, htext, hr⟩
        · exact absurd ⟨hne, record, v, hload, hhead, hprob, hfinite⟩ hwf
        · exact absurd (.overflow hne record hload hhead p hprob hlarge) hhostile
        · exact hreject text htext (hobject text hr)
      · obtain ⟨text, htext, hr⟩ := seedRecordOf_of_not_head L hhead
        exact hreject text htext (hobject text hr)
    | _ => exact hreject (ascii "schema_violation:") rfl (hobject _ rfl)

theorem seed_rules : LineParser.Rules (parseSeedLine L) seedView NamesLine (SeedLine L)
    (HostileSeedLine L) where
  accepts := seed_accepts L
  skips := seed_skips L
  disrupts := seed_disrupts L

omit [DecidableEq R] in
def seedStart (torn : Bool) : ParsedSeedAudit × List (SeedRecord R) :=
  (if torn then { ParsedSeedAudit.empty.reject (ascii "partial_final_line") with
    partialFinalLine := true } else ParsedSeedAudit.empty, [])

theorem seed_fileParser : FileParser (parseSeedSelectionAudit L) ParsedSeedAudit.valid
    ParsedSeedAudit.diagnostics ParsedSeedAudit.counts (parseSeedLine L) seedStart Prod.fst
    seedView where
  parse_eq := fun _ => rfl
  valid_out := fun _ => rfl
  diagnostics_out := fun _ => rfl
  counts_out := fun _ _ h => congrArg Prod.fst h
  records_out := fun _ _ h => congrArg ParsedSeedAudit.recordCount h
  core_start := rfl
  valid_torn := rfl
  torn_mem := List.mem_singleton.mpr rfl

/-! ## The three parsers -/

/-- Each parser keeps its promise on exactly the files without a line that is hostile
to it. -/
theorem parsers_report_iff (data : Bytes) :
    (Reports (parseMabJournal L) ParsedJournal.valid ParsedJournal.diagnostics ParsedJournal.counts
        (JournalLine L) data ↔ ∀ line ∈ splitlines data, ¬ HostileJournalLine L line) ∧
      (Reports (parseExecutionLedger L) ParsedLedger.valid ParsedLedger.diagnostics
        ParsedLedger.counts (LedgerLine L) data ↔
          ∀ line ∈ splitlines data, ¬ HostileLedgerLine L line) ∧
      (Reports (parseSeedSelectionAudit L) ParsedSeedAudit.valid ParsedSeedAudit.diagnostics
        ParsedSeedAudit.counts (SeedLine L) data ↔
          ∀ line ∈ splitlines data, ¬ HostileSeedLine L line) :=
  ⟨reports_iff (journal_fileParser L) (journal_rules L) data,
    reports_iff (ledger_fileParser L) (ledger_rules L) data,
    reports_iff (seed_fileParser L) (seed_rules L) data⟩

end

/-! ## A list for an event, and an update without fields -/

/-- The event is a list. -/
def listEventFile : Bytes := ascii "\x7b\"schema_version\":1,\"event\":[]\x7d\n"

/-- An update that has no fields. -/
def bareUpdateFile : Bytes := ascii "\x7b\"schema_version\":1,\"event\":\"mab_update\"\x7d\n"

/-- The journal with the list is not read, and the bare update is counted. -/
theorem journal_not_reported :
    ¬ Reports (parseMabJournal natLib) ParsedJournal.valid ParsedJournal.diagnostics
        ParsedJournal.counts (JournalLine natLib) listEventFile ∧
      (parseMabJournal natLib (.ok bareUpdateFile)).toOption.map ParsedJournal.recordCount =
        some 1 := by
  refine ⟨fun h => ?_, by decide +kernel⟩
  obtain ⟨result, hresult⟩ := h.returns
  have hnone : (parseMabJournal natLib (.ok listEventFile)).toOption.map ParsedJournal.recordCount =
      none := by decide +kernel
  rw [hresult] at hnone
  cases hnone

end AflNv
