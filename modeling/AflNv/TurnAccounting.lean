import AflNv.SeedTurns

/-!
# Every turn is counted and recorded once

`TurnInv` is the invariant of the turns: what was counted since the last call of `fuzz_one` is
nothing, or the entry that is next.  `Audited` is the invariant of the audit: the file holds the
records of all the selections, numbered for each queue id, and the counters count them.

The favored fast path sets `queue_cur` and neither counts nor records.  It breaks
the first invariant and keeps the second one.  `turnSelected_iff` says that a run counts each turn
once exactly when it never takes that path, and `turnCounted_iff` that the records are no different
as long as they are written.
-/

namespace AflNv

open AflNv.Lib

/-! ## The log -/

def SeedAction.isFuzzed : SeedAction → Bool
  | .fuzzed _ => true
  | _ => false

/-- The entry that an action counts. -/
def SeedAction.picked : SeedAction → Option ℕ
  | .selected q => some q
  | _ => none

/-- What the loop did since the last call of `fuzz_one`. -/
def sinceFuzz (log : List SeedAction) : List SeedAction :=
  (log.reverse.takeWhile fun a => !a.isFuzzed).reverse

/-- The entries that were counted since then. -/
def picks (log : List SeedAction) : List ℕ := (sinceFuzz log).filterMap SeedAction.picked

/-- Every call of `fuzz_one` is one of an entry that has `P` with what the loop did since the call
before it. -/
def AtTurns (P : ℕ → List SeedAction → Prop) (log : List SeedAction) : Prop :=
  ∀ pre q post, log = pre ++ .fuzzed q :: post → P q (sinceFuzz pre)

/-- Between a call of `fuzz_one` and the one before it, the entry is counted once. -/
def TurnSelected (log : List SeedAction) : Prop :=
  AtTurns (fun q since => since.count (.selected q) = 1) log

/-- Between a call of `fuzz_one` and the one before it, the entry is counted once
and recorded once. -/
def TurnCounted (log : List SeedAction) : Prop :=
  AtTurns (fun q since => since.count (.selected q) = 1 ∧ since.count (.recorded q) = 1) log

@[simp] theorem sinceFuzz_fuzzed (log : List SeedAction) (q : ℕ) :
    sinceFuzz (log ++ [.fuzzed q]) = [] := by
  simp [sinceFuzz, SeedAction.isFuzzed]

theorem sinceFuzz_concat (log : List SeedAction) {a : SeedAction} (ha : a.isFuzzed = false) :
    sinceFuzz (log ++ [a]) = sinceFuzz log ++ [a] := by
  simp [sinceFuzz, ha]

@[simp] theorem picks_fuzzed (log : List SeedAction) (q : ℕ) : picks (log ++ [.fuzzed q]) = [] := by
  rw [picks, sinceFuzz_fuzzed, List.filterMap_nil]

@[simp] theorem picks_selected (log : List SeedAction) (q : ℕ) :
    picks (log ++ [.selected q]) = picks log ++ [q] := by
  rw [picks, sinceFuzz_concat log rfl, List.filterMap_append]
  rfl

@[simp] theorem picks_recorded (log : List SeedAction) (q : ℕ) :
    picks (log ++ [.recorded q]) = picks log := by
  rw [picks, sinceFuzz_concat log rfl, List.filterMap_append]
  exact List.append_nil _

theorem count_selected (log : List SeedAction) (q : ℕ) :
    log.count (.selected q) = (log.filterMap SeedAction.picked).count q := by
  induction log with
  | nil => rfl
  | cons a log ih => cases a <;> simp [SeedAction.picked, List.count_cons, List.filterMap_cons, ih]

variable {P : ℕ → List SeedAction → Prop}

theorem atTurns_nil : AtTurns P [] := by
  intro pre q post h
  exact absurd h (by simp)

theorem AtTurns.of_append {log rest : List SeedAction} (h : AtTurns P (log ++ rest)) :
    AtTurns P log := by
  intro pre q post hlog
  refine h pre q (post ++ rest) ?_
  rw [hlog, List.append_assoc, List.cons_append]

/-- Another action: the call that it may be is the only one that is added. -/
theorem AtTurns.concat {log : List SeedAction} (h : AtTurns P log) {a : SeedAction}
    (ha : ∀ q, a = .fuzzed q → P q (sinceFuzz log)) : AtTurns P (log ++ [a]) := by
  intro pre q post hlog
  rcases List.eq_nil_or_concat post with rfl | ⟨post, b, rfl⟩
  · obtain ⟨rfl, hsingle⟩ := List.append_inj' hlog rfl
    exact ha q (List.singleton_inj.mp hsingle)
  · rw [List.concat_eq_append, ← List.cons_append, ← List.append_assoc] at hlog
    exact h pre q post (List.append_inj' hlog rfl).1

theorem AtTurns.concat_of_not_fuzzed {log : List SeedAction} (h : AtTurns P log) {a : SeedAction}
    (ha : a.isFuzzed = false) : AtTurns P (log ++ [a]) := by
  refine h.concat fun q hq => ?_
  rw [hq] at ha
  exact absurd ha (by simp [SeedAction.isFuzzed])

theorem AtTurns.mono {Q : ℕ → List SeedAction → Prop} {log : List SeedAction} (h : AtTurns P log)
    (himp : ∀ q since, P q since → Q q since) : AtTurns Q log :=
  fun pre q post hlog => himp q _ (h pre q post hlog)

/-! ## Records beside the counts -/

/-- As many records of each entry as counts. -/
def Alike (since : List SeedAction) : Prop :=
  ∀ q, since.count (.recorded q) = since.count (.selected q)

/-- Every selection is followed by its record. -/
inductive Paired : List SeedAction → Prop where
  | nil : Paired []
  | pair {log : List SeedAction} (h : Paired log) (q : ℕ) :
    Paired (log ++ [.selected q, .recorded q])
  | fuzzed {log : List SeedAction} (h : Paired log) (q : ℕ) : Paired (log ++ [.fuzzed q])

theorem Alike.pair {since : List SeedAction} (h : Alike since) (q : ℕ) :
    Alike (since ++ [.selected q, .recorded q]) := by
  intro p
  rw [List.count_append, List.count_append, h p]
  by_cases hp : q = p
  · simp [hp]
  · simp [hp]

theorem Paired.alike {log : List SeedAction} (h : Paired log) :
    Alike (sinceFuzz log) ∧ AtTurns (fun _ since => Alike since) log := by
  induction h with
  | nil => exact ⟨fun q => rfl, atTurns_nil⟩
  | @pair log h q ih =>
    have hsince : sinceFuzz (log ++ [.selected q, .recorded q]) =
        sinceFuzz log ++ [.selected q, .recorded q] := by
      rw [List.append_cons, sinceFuzz_concat _ rfl, sinceFuzz_concat _ rfl, List.append_assoc]
      rfl
    refine ⟨hsince ▸ ih.1.pair q, ?_⟩
    rw [List.append_cons]
    exact (ih.2.concat_of_not_fuzzed rfl).concat_of_not_fuzzed rfl
  | @fuzzed log h q ih =>
    refine ⟨?_, ih.2.concat fun _ _ => ih.1⟩
    rw [sinceFuzz_fuzzed]
    exact fun p => rfl

/-- With a record for every count, the turns are recorded as they are counted. -/
theorem Paired.turnCounted_iff {log : List SeedAction} (h : Paired log) :
    TurnCounted log ↔ TurnSelected log := by
  refine ⟨fun hturns => hturns.mono fun q since hq => hq.1, fun hturns pre q post hlog => ?_⟩
  have hselected := hturns pre q post hlog
  exact ⟨hselected, (h.alike.2 pre q post hlog q).trans hselected⟩

namespace SeedLoop

variable {R : Type} {L : PyLib R} {cfg : SeedLoopCfg R}

/-! ## What other code leaves of the audit -/

/-- The selection counts, by queue id. -/
def counts (s : SeedLoop R) : List ℕ := s.queueBuf.map SeedEntry.ssSelectedCnt

/-- The audit is as before; there may be new entries, with a count of zero, and a call of
`fuzz_one`. -/
structure Extends (s s' : SeedLoop R) : Prop where
  file_eq : s'.auditFile = s.auditFile
  errors_eq : s'.seedAuditErrorCount = s.seedAuditErrorCount
  invalid_eq : s'.seedAuditInvalid = s.seedAuditInvalid
  records_eq : s'.seedAuditRecordCount = s.seedAuditRecordCount
  expected_eq : s'.seedAuditExpectedSelectionCount = s.seedAuditExpectedSelectionCount
  counts_eq : ∃ k, s'.counts = s.counts ++ List.replicate k 0
  log_eq : s'.log = s.log ∨ ∃ q, s'.log = s.log ++ [.fuzzed q]

theorem Extends.refl (s : SeedLoop R) : Extends s s :=
  ⟨rfl, rfl, rfl, rfl, rfl, ⟨0, by simp⟩, Or.inl rfl⟩

theorem counts_update (u : SeedUpdate) (s : SeedLoop R) :
    (update cfg u s).counts = s.counts ++ List.replicate u.added.length 0 := by
  have hold : (s.queueBuf.mapIdx fun i q =>
      { q with ssCovCnt := u.ssCovCnt i, disabled := u.disabled i }).map
        SeedEntry.ssSelectedCnt = s.counts := by
    refine List.ext_getElem (by simp [counts]) ?_
    intro i hi hi'
    simp [counts]
  have hnew : (u.added.map fun a => SeedEntry.fresh cfg.math.one a.1 a.2).map
      SeedEntry.ssSelectedCnt = List.replicate u.added.length 0 := by
    rw [List.map_map, List.eq_replicate_iff]
    exact ⟨by simp, by simp [SeedEntry.fresh]⟩
  show List.map _ (_ ++ _) = _
  rw [List.map_append, hold, hnew]

theorem extends_update (u : SeedUpdate) (s : SeedLoop R) : Extends s (update cfg u s) :=
  ⟨rfl, rfl, rfl, rfl, rfl, ⟨u.added.length, counts_update u s⟩, Or.inl rfl⟩

/-! ## A selection -/

/-- The state after a selection that is counted and recorded. -/
def recordedSelection (cfg : SeedLoopCfg R) (q : ℕ) (e : SeedEntry R) (s : SeedLoop R) :
    SeedLoop R :=
  { s with
    queueBuf := s.queueBuf.set q e.count
    seedAuditEnabled := true
    seedAuditExpectedSelectionCount := s.seedAuditExpectedSelectionCount + 1
    seedAuditRecordCount := s.seedAuditRecordCount + 1
    auditFile := s.auditFile ++ (e.count.selection q).line cfg.fmt
    log := s.log ++ [.selected q, .recorded q] }

/-- A selection fails, or it is counted and recorded. -/
theorem select_cases (hpath : isSetPath cfg.auditPath = true) (io : SeedAuditIo) {q : ℕ}
    {e : SeedEntry R} {s : SeedLoop R} (he : s.queueBuf[q]? = some e) :
    (select cfg io q s).seedAuditErrorCount = s.seedAuditErrorCount + 1 ∨
      ((e.count.selection q).line cfg.fmt).length < 512 ∧
        select cfg io q s = recordedSelection cfg q e s := by
  rw [select, he]
  dsimp only
  rw [if_pos hpath, nvSeedSelectionAuditRecord]
  dsimp only
  by_cases hlong : ((e.count.selection q).line cfg.fmt).length ≥ 512
  · rw [if_pos hlong]
    exact .inl rfl
  rw [if_neg hlong]
  cases hopens : io.opens with
  | false => exact .inl rfl
  | true =>
    cases hwrites : io.writes with
    | false => exact .inl rfl
    | true =>
      cases hcloses : io.closes with
      | false => exact .inl rfl
      | true =>
        refine .inr ⟨Nat.not_le.mp hlong, ?_⟩
        simp [recordedSelection]

/-- A record leaves the queue and the place in the loop. -/
theorem nvSeedSelectionAuditRecord_frame (cfg : SeedLoopCfg R) (io : SeedAuditIo) (q : ℕ)
    (e : SeedEntry R) (s : SeedLoop R) :
    let t := (nvSeedSelectionAuditRecord cfg io q e s).2
    t.queueBuf = s.queueBuf ∧ t.place = s.place ∧ t.queueCur = s.queueCur ∧ t.log = s.log ∧
      t.seedAuditExpectedSelectionCount = s.seedAuditExpectedSelectionCount + 1 := by
  rw [nvSeedSelectionAuditRecord]
  dsimp only
  split_ifs <;> exact ⟨rfl, rfl, rfl, rfl, rfl⟩

/-- What a selection does to the turns, whatever becomes of its record. -/
structure Selects (q : ℕ) (s s' : SeedLoop R) : Prop where
  nonempty : s.queueBuf ≠ [] → s'.queueBuf ≠ []
  place_eq : s'.place = s.place
  cur_eq : s'.queueCur = s.queueCur
  log_le : s.log <+: s'.log
  picks_eq : picks s'.log = picks s.log ++ [q]
  turns : TurnSelected s.log → TurnSelected s'.log

/-- The count is one action, and the record is another or none. -/
theorem Selects.of_log {q : ℕ} {s s' : SeedLoop R} {e : SeedEntry R}
    (hqueue : s'.queueBuf = s.queueBuf.set q e) (hplace : s'.place = s.place)
    (hcur : s'.queueCur = s.queueCur)
    (hlog : s'.log = s.log ++ [.selected q] ∨ s'.log = s.log ++ [.selected q] ++ [.recorded q]) :
    Selects q s s' := by
  refine ⟨fun hne => ?_, hplace, hcur, ?_, ?_, fun hturns => ?_⟩
  · rwa [hqueue, ne_eq, List.set_eq_nil_iff]
  · rcases hlog with hlog | hlog
    · rw [hlog]
      exact List.prefix_append _ _
    · rw [hlog, List.append_assoc]
      exact List.prefix_append _ _
  · rcases hlog with hlog | hlog
    · rw [hlog, picks_selected]
    · rw [hlog, picks_recorded, picks_selected]
  · rcases hlog with hlog | hlog
    · rw [hlog]
      exact hturns.concat_of_not_fuzzed rfl
    · rw [hlog]
      exact (hturns.concat_of_not_fuzzed rfl).concat_of_not_fuzzed rfl

theorem select_selects (cfg : SeedLoopCfg R) (io : SeedAuditIo) {q : ℕ} {s : SeedLoop R}
    (hq : q < s.queueBuf.length) : Selects q s (select cfg io q s) := by
  rw [select, List.getElem?_eq_getElem hq]
  dsimp only
  split_ifs with hpath hwritten
  · obtain ⟨hqueue, hplace, hcur, hlog, -⟩ := nvSeedSelectionAuditRecord_frame cfg io q
      (s.queueBuf[q]).count
      { s with queueBuf := s.queueBuf.set q (s.queueBuf[q]).count, log := s.log ++ [.selected q] }
    exact .of_log hqueue hplace hcur (Or.inr (congrArg (· ++ [SeedAction.recorded q]) hlog))
  · obtain ⟨hqueue, hplace, hcur, hlog, -⟩ := nvSeedSelectionAuditRecord_frame cfg io q
      (s.queueBuf[q]).count
      { s with queueBuf := s.queueBuf.set q (s.queueBuf[q]).count, log := s.log ++ [.selected q] }
    exact .of_log hqueue hplace hcur (Or.inl hlog)
  · exact .of_log rfl rfl rfl (Or.inl rfl)

/-- A selection outside the queue changes nothing. -/
theorem select_none {io : SeedAuditIo} {q : ℕ} {s : SeedLoop R} (h : s.queueBuf[q]? = none) :
    select cfg io q s = s := by
  rw [select, h]

/-! ## The audit -/

/-- The file holds the records `rs`, and the counters count them. -/
structure Audited (L : PyLib R) (cfg : SeedLoopCfg R) (s : SeedLoop R)
    (rs : List (SeedSelection R)) : Prop where
  file_eq : s.auditFile = lineFile (rs.map (SeedSelection.body cfg.fmt))
  short : ∀ r ∈ rs, (r.body cfg.fmt).length < 512
  positive : ∀ r ∈ rs, 1 ≤ r.ssSelectedCnt
  numbered : Numbered (rs.map (SeedSelection.record L cfg.fmt))
  counts_eq : ∀ q n : ℕ, s.counts[q]? = some n →
    (selections q (rs.map (SeedSelection.record L cfg.fmt))).length = n
  inQueue : ∀ r ∈ rs, r.queueId < s.counts.length
  sum_eq : s.counts.sum = rs.length
  records_eq : s.seedAuditRecordCount = rs.length
  expected_eq : s.seedAuditExpectedSelectionCount = rs.length
  invalid_eq : s.seedAuditInvalid = false

/-- As long as every record was written, the audit is complete. -/
def AuditInv (L : PyLib R) (cfg : SeedLoopCfg R) (s : SeedLoop R) : Prop :=
  s.seedAuditErrorCount = 0 → ∃ rs, Audited L cfg s rs

theorem selections_eq_nil {rs : List (SeedSelection R)} {q : ℕ} (fmt : R → Bytes)
    (h : ∀ r ∈ rs, r.queueId < q) : selections q (rs.map (SeedSelection.record L fmt)) = [] := by
  rw [selections, List.map_eq_nil_iff, List.filter_eq_nil_iff]
  intro r hr
  obtain ⟨t, ht, rfl⟩ := List.mem_map.mp hr
  have hlt := h t ht
  have hne : (t.record L fmt).queueId ≠ q := by
    show (t.queueId : ℤ) ≠ q
    omega
  simpa using hne

theorem AuditInv.of_extends {s s' : SeedLoop R} (h : AuditInv L cfg s) (hext : Extends s s') :
    AuditInv L cfg s' := by
  intro herr
  obtain ⟨rs, h⟩ := h (hext.errors_eq.symm.trans herr)
  obtain ⟨k, hk⟩ := hext.counts_eq
  refine ⟨rs, ⟨hext.file_eq.trans h.file_eq, h.short, h.positive, h.numbered, ?_, ?_, ?_,
    hext.records_eq.trans h.records_eq, hext.expected_eq.trans h.expected_eq,
    hext.invalid_eq.trans h.invalid_eq⟩⟩
  · intro q n hn
    rw [hk] at hn
    by_cases hq : q < s.counts.length
    · rw [List.getElem?_append_left hq] at hn
      exact h.counts_eq q n hn
    · rw [List.getElem?_append_right (by omega), List.getElem?_replicate] at hn
      have hzero : n = 0 := by
        split at hn
        · exact (Option.some.inj hn).symm
        · exact absurd hn (by simp)
      rw [hzero, List.length_eq_zero_iff]
      exact selections_eq_nil cfg.fmt fun r hr => Nat.lt_of_lt_of_le (h.inQueue r hr) (by omega)
  · intro r hr
    have hlt := h.inQueue r hr
    rw [hk, List.length_append]
    omega
  · rw [hk, List.sum_append, h.sum_eq, List.sum_replicate_nat, Nat.mul_zero, Nat.add_zero]

/-- A line is its body with a newline. -/
theorem line_eq_body (L : PyLib R) (fmt : R → Bytes) (r : SeedSelection R) :
    r.line fmt = r.body fmt ++ [nl] := by
  rw [r.body_eq_dictText L, r.line_eq_dictText L]

theorem sum_set_succ {l : List ℕ} {q n : ℕ} (h : l[q]? = some n) :
    (l.set q (n + 1)).sum = l.sum + 1 := by
  induction l generalizing q with
  | nil => exact absurd h (by simp)
  | cons m l ih =>
    cases q with
    | zero =>
      obtain rfl : m = n := Option.some.inj h
      rw [List.set_cons_zero, List.sum_cons, List.sum_cons]
      omega
    | succ q =>
      rw [List.set_cons_succ, List.sum_cons, List.sum_cons, ih h]
      omega

theorem counts_set {s : SeedLoop R} {q : ℕ} (e : SeedEntry R) :
    (s.queueBuf.set q e).map SeedEntry.ssSelectedCnt = s.counts.set q e.ssSelectedCnt := by
  rw [counts, List.map_set]

theorem AuditInv.select (hpath : isSetPath cfg.auditPath = true) {s : SeedLoop R}
    (h : AuditInv L cfg s) (io : SeedAuditIo) (q : ℕ) : AuditInv L cfg (select cfg io q s) := by
  cases he : s.queueBuf[q]? with
  | none =>
    rw [select_none he]
    exact h
  | some e =>
    rcases select_cases hpath io he with herr | ⟨hshort, heq⟩
    · intro hzero
      exact absurd (herr.symm.trans hzero) (by omega)
    rw [heq]
    intro hzero
    obtain ⟨rs, h⟩ := h hzero
    have hcount : s.counts[q]? = some e.ssSelectedCnt := by
      rw [counts, List.getElem?_map, he]
      rfl
    have hlen := h.counts_eq q _ hcount
    have hq : q < s.counts.length := (List.getElem?_eq_some_iff.mp hcount).1
    have hcounts : (recordedSelection cfg q e s).counts = s.counts.set q (e.ssSelectedCnt + 1) :=
      counts_set e.count
    refine ⟨rs ++ [e.count.selection q], ⟨?_, ?_, ?_, ?_, ?_, ?_, ?_, ?_, ?_, h.invalid_eq⟩⟩
    · show s.auditFile ++ _ = _
      rw [List.map_append, List.map_singleton, lineFile_concat, h.file_eq, line_eq_body L]
    · intro r hr
      rcases List.mem_append.mp hr with hr | hr
      · exact h.short r hr
      · rw [List.mem_singleton.mp hr]
        rw [line_eq_body L, List.length_append] at hshort
        omega
    · intro r hr
      rcases List.mem_append.mp hr with hr | hr
      · exact h.positive r hr
      · rw [List.mem_singleton.mp hr]
        exact Nat.le_add_left 1 _
    · rw [List.map_append, List.map_singleton]
      apply h.numbered.concat
      show ((e.ssSelectedCnt + 1 : ℕ) : ℤ) = (selections q _).length + 1
      rw [hlen]
      rfl
    · intro p n hn
      rw [hcounts] at hn
      rw [List.map_append, List.map_singleton, selections_concat, List.length_append]
      by_cases hp : q = p
      · rw [hp] at hn hlen hq
        rw [List.getElem?_set_self hq] at hn
        rw [hlen, if_pos (by rw [hp]; rfl), ← Option.some.inj hn]
        rfl
      · rw [List.getElem?_set_ne hp] at hn
        have hid : ((e.count.selection q).record L cfg.fmt).queueId ≠ p := fun hid =>
          hp (Int.ofNat.inj hid)
        rw [h.counts_eq p n hn, if_neg hid]
        rfl
    · intro r hr
      rw [hcounts, List.length_set]
      rcases List.mem_append.mp hr with hr | hr
      · exact h.inQueue r hr
      · rw [List.mem_singleton.mp hr]
        exact hq
    · rw [hcounts, List.length_append, List.length_singleton, ← h.sum_eq]
      exact sum_set_succ hcount
    · show s.seedAuditRecordCount + 1 = _
      rw [h.records_eq, List.length_append, List.length_singleton]
    · show s.seedAuditExpectedSelectionCount + 1 = _
      rw [h.expected_eq, List.length_append, List.length_singleton]

/-! ## The audit along a run -/

/-- What a step does to the audit: selections, and changes that leave it. -/
inductive Audits (cfg : SeedLoopCfg R) : SeedLoop R → SeedLoop R → Prop where
  | frame {s s' : SeedLoop R} (h : Extends s s') : Audits cfg s s'
  | select (s : SeedLoop R) (io : SeedAuditIo) (q : ℕ) : Audits cfg s (select cfg io q s)
  | trans {s t u : SeedLoop R} (h : Audits cfg s t) (h' : Audits cfg t u) : Audits cfg s u

theorem AuditInv.of_audits (hpath : isSetPath cfg.auditPath = true) {s s' : SeedLoop R}
    (h : AuditInv L cfg s) (hs : Audits cfg s s') : AuditInv L cfg s' := by
  induction hs with
  | frame hext => exact h.of_extends hext
  | select s io q => exact h.select hpath io q
  | trans _ _ ih ih' => exact ih' (ih h)

theorem log_le_select (io : SeedAuditIo) (q : ℕ) (s : SeedLoop R) :
    s.log <+: (SeedLoop.select cfg io q s).log := by
  by_cases hq : q < s.queueBuf.length
  · exact (select_selects cfg io hq).log_le
  · rw [select_none (List.getElem?_eq_none (Nat.not_lt.mp hq))]

/-- What the loop did stays done. -/
theorem Audits.log_le {s s' : SeedLoop R} (hs : Audits cfg s s') : s.log <+: s'.log := by
  induction hs with
  | frame hext =>
    rcases hext.log_eq with hlog | ⟨q, hlog⟩
    · rw [hlog]
    · rw [hlog]
      exact List.prefix_append _ _
  | select s io q => exact log_le_select io q s
  | trans _ _ ih ih' => exact ih.trans ih'

/-- As long as every record was written, the log has it beside the count. -/
theorem Audits.paired (hpath : isSetPath cfg.auditPath = true) {s s' : SeedLoop R}
    (hs : Audits cfg s s') (hpaired : s.seedAuditErrorCount = 0 → Paired s.log)
    (herr : s'.seedAuditErrorCount = 0) : Paired s'.log := by
  induction hs with
  | frame hext =>
    have hold := hpaired (hext.errors_eq.symm.trans herr)
    rcases hext.log_eq with hlog | ⟨q, hlog⟩
    · rwa [hlog]
    · rw [hlog]
      exact hold.fuzzed q
  | select s io q =>
    cases he : s.queueBuf[q]? with
    | none =>
      rw [select_none he] at herr ⊢
      exact hpaired herr
    | some e =>
      rcases select_cases hpath io he with hfail | ⟨-, heq⟩
      · exact absurd (hfail.symm.trans herr) (by omega)
      · rw [heq] at herr ⊢
        exact (hpaired herr).pair q
  | trans _ _ ih ih' => exact ih' (ih hpaired) herr

theorem select_counts (hpath : isSetPath cfg.auditPath = true) (io : SeedAuditIo) {q : ℕ}
    {e : SeedEntry R} {s : SeedLoop R} (he : s.queueBuf[q]? = some e) :
    (SeedLoop.select cfg io q s).counts = s.counts.set q (e.ssSelectedCnt + 1) ∧
      (SeedLoop.select cfg io q s).seedAuditExpectedSelectionCount =
        s.seedAuditExpectedSelectionCount + 1 := by
  obtain ⟨hqueue, -, -, -, hexpected⟩ := nvSeedSelectionAuditRecord_frame cfg io q
    e.count { s with queueBuf := s.queueBuf.set q e.count, log := s.log ++ [.selected q] }
  rw [SeedLoop.select, he]
  dsimp only
  rw [if_pos hpath]
  split_ifs
  · exact ⟨(congrArg (List.map _) hqueue).trans (counts_set e.count), hexpected⟩
  · exact ⟨(congrArg (List.map _) hqueue).trans (counts_set e.count), hexpected⟩

/-- Counts and calls of the recorder go together. -/
theorem Audits.sum_eq (hpath : isSetPath cfg.auditPath = true) {s s' : SeedLoop R}
    (hs : Audits cfg s s') :
    s'.counts.sum + s.seedAuditExpectedSelectionCount =
      s.counts.sum + s'.seedAuditExpectedSelectionCount := by
  induction hs with
  | frame hext =>
    obtain ⟨k, hk⟩ := hext.counts_eq
    rw [hext.expected_eq, hk, List.sum_append, List.sum_replicate_nat, Nat.mul_zero, Nat.add_zero]
  | select s io q =>
    cases he : s.queueBuf[q]? with
    | none => rw [select_none he]
    | some e =>
      obtain ⟨hcounts, hexpected⟩ := select_counts hpath io he
      have hcount : s.counts[q]? = some e.ssSelectedCnt := by
        rw [counts, List.getElem?_map, he]
        rfl
      rw [hcounts, hexpected, sum_set_succ hcount]
      omega
  | trans _ _ ih ih' => omega

theorem extends_of_counts {s s' : SeedLoop R} (hfile : s'.auditFile = s.auditFile)
    (herrors : s'.seedAuditErrorCount = s.seedAuditErrorCount)
    (hinvalid : s'.seedAuditInvalid = s.seedAuditInvalid)
    (hrecords : s'.seedAuditRecordCount = s.seedAuditRecordCount)
    (hexpected : s'.seedAuditExpectedSelectionCount = s.seedAuditExpectedSelectionCount)
    (hcounts : s'.counts = s.counts) (hlog : s'.log = s.log) : Extends s s' :=
  ⟨hfile, herrors, hinvalid, hrecords, hexpected, ⟨0, by rw [hcounts]; simp⟩, Or.inl hlog⟩

theorem audits_startCycle (e : SeedLoopEvent) (s : SeedLoop R) :
    Audits cfg s (startCycle cfg e s) := by
  have hsync : Audits cfg s (update cfg e.synced s) := .frame (extends_update _ _)
  rw [startCycle]
  dsimp only
  split_ifs with hold hseek
  · exact hsync.trans (.frame (extends_of_counts rfl rfl rfl rfl rfl rfl rfl))
  · refine hsync.trans (Audits.trans (.frame ?_) (.select _ _ _))
    exact extends_of_counts rfl rfl rfl rfl rfl rfl rfl
  · exact hsync.trans (.frame (extends_of_counts rfl rfl rfl rfl rfl rfl rfl))

theorem audits_outerStep (e : SeedLoopEvent) (s : SeedLoop R) :
    Audits cfg s (outerStep cfg e s) := by
  have hcull : Audits cfg s (update cfg e.culled { s with place := .inner }) := by
    refine Audits.trans (.frame ?_) (.frame (extends_update _ _))
    exact extends_of_counts rfl rfl rfl rfl rfl rfl rfl
  rw [outerStep]
  dsimp only
  split_ifs with hstop hcycle
  · exact .frame (extends_of_counts rfl rfl rfl rfl rfl rfl rfl)
  · refine hcull.trans ((audits_startCycle e _).trans (.frame ?_))
    exact extends_of_counts rfl rfl rfl rfl rfl rfl rfl
  · exact hcull.trans (.frame (extends_of_counts rfl rfl rfl rfl rfl rfl rfl))

/-- New probabilities leave the counts. -/
theorem counts_ssProb (queue : List (SeedEntry R)) :
    (queue.map fun q => { q with ssProb := ssCalcProb cfg.math q }).map SeedEntry.ssSelectedCnt =
      queue.map SeedEntry.ssSelectedCnt := by
  rw [List.map_map]
  rfl

theorem audits_chooseEntry (e : SeedLoopEvent) (s : SeedLoop R) :
    Audits cfg s (chooseEntry cfg e s) := by
  rw [chooseEntry]
  split_ifs with hold hfavored
  · exact .frame (.refl s)
  · exact .frame (extends_of_counts rfl rfl rfl rfl rfl rfl rfl)
  · rw [selectNextQueueEntry]
    refine Audits.trans (.frame ?_) (.select _ e.io _)
    exact extends_of_counts rfl rfl rfl rfl rfl (counts_ssProb s.queueBuf) rfl

theorem audits_advance (e : SeedLoopEvent) (s : SeedLoop R) : Audits cfg s (advance cfg e s) := by
  rw [advance]
  split_ifs
  · exact .frame (extends_of_counts rfl rfl rfl rfl rfl rfl rfl)
  · refine Audits.trans (.frame ?_) (.select _ _ _)
    exact extends_of_counts rfl rfl rfl rfl rfl rfl rfl

theorem audits_turn (e : SeedLoopEvent) (q : ℕ) (s : SeedLoop R) :
    Audits cfg s (turn cfg e q s) := by
  have hfuzz : Audits cfg s (fuzzOne cfg e q s) := by
    exact .frame ⟨rfl, rfl, rfl, rfl, rfl, ⟨e.fuzzed.added.length, counts_update e.fuzzed s⟩,
      Or.inr ⟨q, rfl⟩⟩
  have hend : ∀ t : SeedLoop R, Audits cfg t (endTurn cfg e t) := by
    intro t
    rw [endTurn]
    split_ifs
    · exact .frame (.refl t)
    · refine Audits.trans (.frame ?_) (.frame (extends_update e.synced _))
      exact extends_of_counts rfl rfl rfl rfl rfl rfl rfl
  rw [turn]
  split_ifs
  · exact hfuzz.trans ((audits_advance e _).trans (hend _))
  · exact hfuzz.trans (hend _)

theorem audits_innerStep (e : SeedLoopEvent) (s : SeedLoop R) :
    Audits cfg s (innerStep cfg e s) := by
  rw [innerStep]
  dsimp only
  split_ifs
  · exact .frame (.refl s)
  · cases (chooseEntry cfg e s).queueCur with
    | none =>
      refine (audits_chooseEntry e s).trans (.frame ?_)
      exact extends_of_counts rfl rfl rfl rfl rfl rfl rfl
    | some q => exact (audits_chooseEntry e s).trans (audits_turn e q _)

theorem audits_step (s : SeedLoop R) (e : SeedLoopEvent) : Audits cfg s (step cfg s e).2 := by
  rw [step]
  cases s.place with
  | outer => exact audits_outerStep e s
  | inner => exact audits_innerStep e s
  | stopped => exact .frame (.refl s)

/-! ## The turns -/

/-- What a state has pending: with the old selection, the entry that is next. -/
def pendingPicks (cfg : SeedLoopCfg R) (s : SeedLoop R) : List ℕ :=
  if cfg.oldSeedSelection then s.queueCur.toList else []

/-- The turns so far are counted, and so is the one that is pending. -/
structure TurnCore (cfg : SeedLoopCfg R) (s : SeedLoop R) : Prop where
  turns : TurnSelected s.log
  nonempty : s.queueBuf ≠ []
  pending : s.place ≠ .stopped → picks s.log = pendingPicks cfg s

/-- The inner loop has a current entry. -/
structure TurnInv (cfg : SeedLoopCfg R) (s : SeedLoop R) : Prop extends TurnCore cfg s where
  current : cfg.oldSeedSelection = true → s.place = .inner → s.queueCur.isSome = true

/-- The counted entry is next. -/
theorem TurnInv.of_selects (hold : cfg.oldSeedSelection = true) {s s' : SeedLoop R} {q : ℕ}
    (hsel : Selects q s s') (hturns : TurnSelected s.log) (hpicks : picks s.log = [])
    (hne : s.queueBuf ≠ []) (hcur : s.queueCur = some q) : TurnInv cfg s' := by
  refine ⟨⟨hsel.turns hturns, hsel.nonempty hne, fun _ => ?_⟩, fun _ _ => ?_⟩
  · rw [hsel.picks_eq, hpicks, pendingPicks, if_pos hold, hsel.cur_eq, hcur]
    rfl
  · rw [hsel.cur_eq, hcur]
    rfl

theorem update_queueBuf_ne_nil {s : SeedLoop R} (h : s.queueBuf ≠ []) (u : SeedUpdate) :
    (update cfg u s).queueBuf ≠ [] := by
  have hlen := List.length_pos_iff.mpr h
  rw [← List.length_pos_iff]
  show 0 < (_ ++ _ : List _).length
  rw [List.length_append, List.length_mapIdx]
  omega

theorem cycleEntry_lt {s : SeedLoop R} (hne : s.queueBuf ≠ [])
    (hseek : ¬ (s.seekTo ≠ 0 ∧ s.seekTo ≥ s.queueBuf.length)) :
    s.cycleEntry < s.queueBuf.length := by
  have hlen := List.length_pos_iff.mpr hne
  rw [cycleEntry]
  dsimp only
  split_ifs with h0 hi
  · omega
  · exact hlen
  · exact Nat.not_le.mp hi

theorem TurnInv.startCycle (hold : cfg.oldSeedSelection = true) {s : SeedLoop R}
    (hturns : TurnSelected s.log) (hpicks : picks s.log = []) (hne : s.queueBuf ≠ [])
    (e : SeedLoopEvent) : TurnInv cfg (startCycle cfg e s) := by
  have hne' : (update cfg e.synced s).queueBuf ≠ [] := update_queueBuf_ne_nil hne _
  rw [SeedLoop.startCycle]
  dsimp only
  rw [if_pos hold]
  by_cases hseek : (update cfg e.synced s).seekTo ≠ 0 ∧
      (update cfg e.synced s).seekTo ≥ (update cfg e.synced s).queueBuf.length
  · rw [if_pos hseek]
    exact ⟨⟨hturns, hne', fun hplace => absurd rfl hplace⟩,
      fun _ hplace => absurd hplace (by simp)⟩
  · rw [if_neg hseek]
    have hsel := select_selects cfg e.io (q := (update cfg e.synced s).cycleEntry)
      (s := { update cfg e.synced s with
        runsInCurrentCycle := -1
        seekTo := 0
        currentEntry := (update cfg e.synced s).cycleEntry
        queueCur := some (update cfg e.synced s).cycleEntry }) (cycleEntry_lt hne' hseek)
    exact TurnInv.of_selects hold hsel hturns hpicks hne' rfl

/-- The counter of the runs plays no part. -/
theorem TurnInv.withRuns {s : SeedLoop R} (h : TurnInv cfg s) (n : UInt32) :
    TurnInv cfg { s with runsInCurrentCycle := n } :=
  ⟨⟨h.turns, h.nonempty, h.pending⟩, h.current⟩

theorem TurnInv.outerStep {s : SeedLoop R} (h : TurnInv cfg s) (hplace : s.place = .outer)
    (e : SeedLoopEvent) : TurnInv cfg (outerStep cfg e s) := by
  have hpicks := h.pending (by rw [hplace]; simp)
  rw [pendingPicks] at hpicks
  rw [SeedLoop.outerStep]
  by_cases hstop : (s.stopSoon ≠ 0 || e.timeUp) = true
  · rw [if_pos hstop]
    exact ⟨⟨h.turns, h.nonempty, fun hplace => absurd rfl hplace⟩,
      fun _ hplace => absurd hplace (by simp)⟩
  rw [if_neg hstop]
  dsimp only
  set t := update cfg e.culled { s with place := .inner } with ht
  have hne : t.queueBuf ≠ [] := update_queueBuf_ne_nil h.nonempty _
  by_cases hcycle : cycleOver cfg t = true
  · rw [if_pos hcycle]
    cases hold : cfg.oldSeedSelection with
    | true =>
      rw [if_pos hold] at hpicks
      have hcur : s.queueCur = none := by
        rw [cycleOver, if_pos hold] at hcycle
        exact Option.isNone_iff_eq_none.mp hcycle
      rw [hcur] at hpicks
      refine (TurnInv.startCycle hold ?_ ?_ hne e).withRuns _
      · exact h.turns
      · exact hpicks
    | false =>
      have hstart : SeedLoop.startCycle cfg e t =
          { update cfg e.synced t with runsInCurrentCycle := -1 } := by
        rw [SeedLoop.startCycle]
        simp [hold]
      rw [hstart]
      rw [if_neg (by simp [hold])] at hpicks
      refine ⟨⟨h.turns, update_queueBuf_ne_nil hne _, ?_⟩, ?_⟩
      · intro _
        show picks s.log = _
        rw [hpicks, pendingPicks, if_neg (by simp [hold])]
      · intro hold'
        exact absurd (hold.symm.trans hold') (by simp)
  · rw [if_neg hcycle]
    refine ⟨⟨h.turns, hne, ?_⟩, ?_⟩
    · intro _
      exact hpicks
    · intro hold _
      rw [cycleOver, if_pos hold] at hcycle
      exact Option.isSome_iff_ne_none.mpr fun hnone => hcycle (Option.isNone_iff_eq_none.mpr hnone)

theorem rouletteIndex_lt (math : SeedMath R) (r : R) {acc : R} {queue : List (SeedEntry R)}
    {i : ℕ} (h : rouletteIndex math r acc queue = some i) : i < queue.length := by
  induction queue generalizing acc i with
  | nil => exact absurd h (by simp [rouletteIndex])
  | cons q queue ih =>
    rw [rouletteIndex] at h
    split_ifs at h with hle
    · obtain rfl : 0 = i := Option.some.inj h
      exact Nat.zero_lt_succ _
    · obtain ⟨j, hj, rfl⟩ := Option.map_eq_some_iff.mp h
      exact Nat.succ_lt_succ (ih hj)

/-- The roulette stays in the queue. -/
theorem chosenEntry_lt (math : SeedMath R) (drawn : ℕ) {queue : List (SeedEntry R)}
    (hne : queue ≠ []) : chosenEntry math drawn queue < queue.length := by
  have hlen := List.length_pos_iff.mpr hne
  rw [chosenEntry]
  dsimp only
  split_ifs
  · rw [TestcaseCache.randBelow]
    split_ifs
    · exact hlen
    · exact Nat.mod_lt _ hlen
  · cases h : rouletteIndex math (math.point (TestcaseCache.randBelow 0x7fffffff drawn)
        (queue.foldl (fun total q => math.add total q.ssProb) math.zero)) math.zero queue with
    | none => exact Nat.sub_lt hlen Nat.one_pos
    | some i => exact rouletteIndex_lt math _ h

theorem TurnCore.endTurn {s : SeedLoop R} (h : TurnCore cfg s) (hplace : s.place ≠ .stopped)
    (e : SeedLoopEvent) : TurnInv cfg (endTurn cfg e s) := by
  rw [SeedLoop.endTurn]
  by_cases hagain : (e.skipped && s.queueCur.isSome && s.stopSoon = 0) = true
  · rw [if_pos hagain]
    simp only [Bool.and_eq_true] at hagain
    exact ⟨h, fun _ _ => hagain.1.2⟩
  · rw [if_neg hagain]
    refine ⟨⟨h.turns, update_queueBuf_ne_nil h.nonempty _, ?_⟩, ?_⟩
    · intro _
      exact h.pending hplace
    · intro _ hinner
      exact absurd hinner (by simp [update])

theorem TurnCore.advance (hold : cfg.oldSeedSelection = true) {s : SeedLoop R}
    (hturns : TurnSelected s.log) (hpicks : picks s.log = []) (hne : s.queueBuf ≠ [])
    (hplace : s.place = .inner) (e : SeedLoopEvent) :
    TurnCore cfg (advance cfg e s) ∧ (advance cfg e s).place = .inner := by
  rw [SeedLoop.advance]
  by_cases hend : nextEnabled s.queueBuf (s.currentEntry + 1) ≥ s.queueBuf.length
  · rw [if_pos hend]
    refine ⟨⟨hturns, hne, ?_⟩, hplace⟩
    intro _
    rw [pendingPicks, if_pos hold]
    exact hpicks
  · rw [if_neg hend]
    have hsel := select_selects cfg e.advanceIo (q := nextEnabled s.queueBuf (s.currentEntry + 1))
      (s := { s with
        currentEntry := nextEnabled s.queueBuf (s.currentEntry + 1)
        queueCur := some (nextEnabled s.queueBuf (s.currentEntry + 1)) }) (Nat.not_le.mp hend)
    exact ⟨(TurnInv.of_selects hold hsel hturns hpicks hne rfl).toTurnCore,
      hsel.place_eq.trans hplace⟩

/-- A turn of the current entry, when its count is pending. -/
theorem TurnInv.turn {s : SeedLoop R} {q : ℕ} (hturns : TurnSelected s.log)
    (hpicks : picks s.log = [q]) (hne : s.queueBuf ≠ []) (hplace : s.place = .inner)
    (e : SeedLoopEvent) : TurnInv cfg (turn cfg e q s) := by
  have hne' : (fuzzOne cfg e q s).queueBuf ≠ [] := update_queueBuf_ne_nil hne e.fuzzed
  have hturns' : TurnSelected (fuzzOne cfg e q s).log := by
    refine hturns.concat ?_
    intro p hp
    obtain rfl := SeedAction.fuzzed.inj hp
    have hpicks' : (sinceFuzz s.log).filterMap SeedAction.picked = [q] := hpicks
    rw [count_selected, hpicks', List.count_singleton_self]
  have hpicks' : picks (fuzzOne cfg e q s).log = [] := picks_fuzzed s.log q
  have hinner : (fuzzOne cfg e q s).place = .inner := hplace
  rw [SeedLoop.turn]
  cases hold : cfg.oldSeedSelection with
  | false =>
    rw [if_neg (by simp)]
    refine TurnCore.endTurn ⟨hturns', hne', ?_⟩ (by rw [hinner]; simp) e
    intro _
    rw [hpicks', pendingPicks, if_neg (by simp [hold])]
  | true =>
    rw [if_pos rfl]
    obtain ⟨hcore, hinner'⟩ := TurnCore.advance hold hturns' hpicks' hne' hinner e
    exact hcore.endTurn (by rw [hinner']; simp) e

theorem innerStep_eq {s : SeedLoop R} (hne : s.queueBuf ≠ []) (e : SeedLoopEvent) {q : ℕ}
    (hcur : (chooseEntry cfg e s).queueCur = some q) :
    innerStep cfg e s = turn cfg e q (chooseEntry cfg e s) := by
  rw [innerStep, if_neg (by simp [hne])]
  dsimp only
  rw [hcur]

theorem chooseEntry_old (hold : cfg.oldSeedSelection = true) (e : SeedLoopEvent)
    (s : SeedLoop R) : chooseEntry cfg e s = s := if_pos hold

theorem chooseEntry_favored {s : SeedLoop R} (h : takesFavored cfg s = true) (e : SeedLoopEvent) :
    chooseEntry cfg e s =
      { s with
        currentEntry := s.smallestFavored.toNat
        queueCur := some s.smallestFavored.toNat } := by
  have hnew : cfg.oldSeedSelection = false := by
    simp only [takesFavored, Bool.and_eq_true, Bool.not_eq_true'] at h
    exact h.1.1.1
  rw [chooseEntry, if_neg (by simp [hnew]), if_pos h]

theorem chooseEntry_roulette (hnew : cfg.oldSeedSelection = false) {s : SeedLoop R}
    (h : takesFavored cfg s = false) (e : SeedLoopEvent) :
    chooseEntry cfg e s = selectNextQueueEntry cfg e s := by
  rw [chooseEntry, if_neg (by simp [hnew]), if_neg (by simp [h])]

/-- The roulette counts the entry it chooses. -/
theorem selectNextQueueEntry_selects (cfg : SeedLoopCfg R) {s : SeedLoop R}
    (hne : s.queueBuf ≠ []) (e : SeedLoopEvent) :
    ∃ q, Selects q { updateProbs cfg s with currentEntry := q, queueCur := some q }
      (selectNextQueueEntry cfg e s) := by
  have hne' : (updateProbs cfg s).queueBuf ≠ [] := by
    rw [updateProbs, ne_eq, List.map_eq_nil_iff]
    exact hne
  exact ⟨_, select_selects cfg e.io (chosenEntry_lt cfg.math e.drawn hne')⟩

theorem TurnInv.innerStep {s : SeedLoop R} (h : TurnInv cfg s) (hplace : s.place = .inner)
    (hfavored : takesFavored cfg s = false) (e : SeedLoopEvent) :
    TurnInv cfg (innerStep cfg e s) := by
  have hpicks := h.pending (by rw [hplace]; simp)
  rw [pendingPicks] at hpicks
  cases hold : cfg.oldSeedSelection with
  | true =>
    obtain ⟨q, hq⟩ := Option.isSome_iff_exists.mp (h.current hold hplace)
    have hchoose := chooseEntry_old hold e s
    rw [if_pos hold, hq] at hpicks
    rw [innerStep_eq h.nonempty e (by rw [hchoose, hq]), hchoose]
    exact TurnInv.turn h.turns hpicks h.nonempty hplace e
  | false =>
    obtain ⟨q, hsel⟩ := selectNextQueueEntry_selects cfg h.nonempty e
    rw [← chooseEntry_roulette hold hfavored e] at hsel
    rw [if_neg (by simp [hold])] at hpicks
    have hne : (updateProbs cfg s).queueBuf ≠ [] := by
      rw [updateProbs, ne_eq, List.map_eq_nil_iff]
      exact h.nonempty
    rw [innerStep_eq h.nonempty e hsel.cur_eq]
    refine TurnInv.turn (hsel.turns h.turns) ?_ (hsel.nonempty hne) (hsel.place_eq.trans hplace) e
    rw [hsel.picks_eq]
    exact congrArg (· ++ [q]) hpicks

theorem TurnInv.step {s : SeedLoop R} (h : TurnInv cfg s) (hfavored : takesFavored cfg s = false)
    (e : SeedLoopEvent) : TurnInv cfg (SeedLoop.step cfg s e).2 := by
  rw [SeedLoop.step]
  cases hplace : s.place with
  | outer => exact h.outerStep hplace e
  | inner => exact h.innerStep hplace hfavored e
  | stopped => exact h

/-- The favored fast path fuzzes an entry that is not counted. -/
theorem TurnInv.not_selected_favored {s : SeedLoop R} (h : TurnInv cfg s)
    (hfavored : takesFavored cfg s = true) (e : SeedLoopEvent) :
    ¬ TurnSelected (SeedLoop.step cfg s e).2.log := by
  have hparts := hfavored
  simp only [takesFavored, Bool.and_eq_true, Bool.not_eq_true', decide_eq_true_eq] at hparts
  obtain ⟨⟨⟨hold, hplace⟩, -⟩, -⟩ := hparts
  have hpicks := h.pending (by rw [hplace]; simp)
  rw [pendingPicks, if_neg (by simp [hold])] at hpicks
  have hlog : (SeedLoop.step cfg s e).2.log = s.log ++ [.fuzzed s.smallestFavored.toNat] := by
    rw [SeedLoop.step, hplace]
    dsimp only
    rw [innerStep_eq h.nonempty e (by rw [chooseEntry_favored hfavored]), SeedLoop.turn,
      if_neg (by simp [hold]), SeedLoop.endTurn, chooseEntry_favored hfavored]
    split_ifs <;> rfl
  intro hturns
  have hturn : (sinceFuzz s.log).count (.selected s.smallestFavored.toNat) = 1 :=
    hturns s.log s.smallestFavored.toNat [] hlog
  have hpicks' : (sinceFuzz s.log).filterMap SeedAction.picked = [] := hpicks
  rw [count_selected, hpicks'] at hturn
  exact absurd hturn (by simp)

/-! ## A run -/

/-- No entry of the queue in front of the loop was selected before; a resumed queue has the counts
of the run that it resumes. -/
def Unselected (queue : List (SeedEntry R)) : Prop := ∀ e ∈ queue, e.ssSelectedCnt = 0

theorem unselected_iff {queue : List (SeedEntry R)} :
    Unselected queue ↔ (queue.map SeedEntry.ssSelectedCnt).sum = 0 := by
  rw [List.sum_eq_zero_iff_forall_eq_nat]
  simp [Unselected]

theorem turnInv_start {queue : List (SeedEntry R)} (hne : queue ≠ []) (pendingFavored : ℕ)
    (smallestFavored : ℤ) (seekTo : ℕ) :
    TurnInv cfg (start queue pendingFavored smallestFavored seekTo) := by
  refine ⟨⟨atTurns_nil, hne, ?_⟩, ?_⟩
  · intro _
    rw [pendingPicks]
    split_ifs <;> rfl
  · intro _ hplace
    exact absurd hplace (by simp [start])

theorem auditInv_start {queue : List (SeedEntry R)} (h : Unselected queue) (pendingFavored : ℕ)
    (smallestFavored : ℤ) (seekTo : ℕ) :
    AuditInv L cfg (start queue pendingFavored smallestFavored seekTo) := by
  have hzero : ∀ n ∈ (start queue pendingFavored smallestFavored seekTo).counts, n = 0 := by
    intro n hn
    obtain ⟨e, he, rfl⟩ := List.mem_map.mp hn
    exact h e he
  intro _
  refine ⟨[], ⟨rfl, ?_, ?_, numbered_nil, ?_, ?_, List.sum_eq_zero hzero, rfl, rfl, rfl⟩⟩
  · exact fun r hr => absurd hr (by simp)
  · exact fun r hr => absurd hr (by simp)
  · intro q n hn
    exact (hzero n (List.mem_of_getElem? hn)).symm
  · exact fun r hr => absurd hr (by simp)

theorem audits_run (cfg : SeedLoopCfg R) (s : SeedLoop R) (es : List SeedLoopEvent) :
    Audits cfg s (Machine.run (step cfg) s es) :=
  Machine.run_inv (step cfg) (fun t => Audits cfg s t) (fun t e ht => ht.trans (audits_step t e))
    (.frame (.refl s)) es

/-- Turns are counted exactly when the run never takes the fast path. -/
theorem turnSelected_iff {s : SeedLoop R} (h : TurnInv cfg s) (es : List SeedLoopEvent) :
    TurnSelected (Machine.run (step cfg) s es).log ↔
      Machine.Meets (step cfg) (fun s _ => takesFavored cfg s = false) s es := by
  induction es generalizing s with
  | nil => exact iff_of_true h.turns trivial
  | cons e es ih =>
    rw [Machine.run_cons, Machine.Meets]
    cases hfavored : takesFavored cfg s with
    | true =>
      refine iff_of_false ?_ (by simp)
      intro hturns
      obtain ⟨rest, hrest⟩ := (audits_run cfg (step cfg s e).2 es).log_le
      rw [← hrest] at hturns
      exact h.not_selected_favored hfavored e hturns.of_append
    | false =>
      rw [ih (h.step hfavored e)]
      simp

/-- Where every record is written, the turns are recorded as they are counted. -/
theorem turnCounted_iff (hpath : isSetPath cfg.auditPath = true) {s : SeedLoop R}
    (hlog : s.log = []) {es : List SeedLoopEvent}
    (herr : (Machine.run (step cfg) s es).seedAuditErrorCount = 0) :
    TurnCounted (Machine.run (step cfg) s es).log ↔
      TurnSelected (Machine.run (step cfg) s es).log := by
  refine Paired.turnCounted_iff ((audits_run cfg s es).paired hpath (fun _ => ?_) herr)
  rw [hlog]
  exact .nil

end SeedLoop

end AflNv
