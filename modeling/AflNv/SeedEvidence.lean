import AflNv.TurnAccounting

/-!
# The evidence of the seed selections

At any point of a run over a new queue the statistics and the audit file describe the same
selections: the parser accepts the file, the reconciliation finds nothing, and
the records of each queue id are numbered up to its count.  That holds with and
without the favored fast path, so the evidence cannot show the turns that the
path leaves out.  A resumed queue brings its counts along and the recorder starts at zero, so the
reconciliation fails there.
-/

namespace AflNv

open AflNv.Lib

namespace SeedLoop

variable {R : Type} {L : PyLib R} {cfg : SeedLoopCfg R}

/-! ## The evidence at the end -/

/-- The counts as the reader finds them. -/
def queueCounts (queue : List (SeedEntry R)) : List (ℤ × ℤ) :=
  queue.zipIdx.map fun e => ((e.2 : ℤ), (e.1.ssSelectedCnt : ℤ))

theorem setAt_new {key : ℤ} {d : List (ℤ × ℤ)} (h : ∀ item ∈ d, item.1 ≠ key) (v : ℤ) :
    setAt key v d = d ++ [(key, v)] := by
  induction d with
  | nil => rfl
  | cons item d ih =>
    rw [setAt, if_neg (h item (by simp)), ih fun i hi => h i (List.mem_cons_of_mem item hi)]
    rfl

/-- A statistic of one queue id. -/
theorem addQueueStat_queue (hL : L.Standard) (acc : List (ℤ × ℤ)) (i n : ℕ)
    (hnew : ∀ item ∈ acc, item.1 ≠ (i : ℤ)) :
    addQueueStat L (acc, []) (queueStatKey ++ showNat i, showNat n) =
      (acc ++ [((i : ℤ), (n : ℤ))], []) := by
  rw [addQueueStat, if_pos (by simp), List.drop_left, hL.intOfText_showNat, hL.intOfText_showNat]
  dsimp only
  rw [setAt_new hnew]

theorem queueCounts_concat (queue : List (SeedEntry R)) (e : SeedEntry R) :
    queueCounts (queue ++ [e]) =
      queueCounts queue ++ [(((0 + queue.length : ℕ) : ℤ), (e.ssSelectedCnt : ℤ))] := by
  rw [queueCounts, List.zipIdx_append, List.map_append]
  rfl

theorem foldl_queueStats (hL : L.Standard) (queue : List (SeedEntry R)) :
    (queue.zipIdx.map fun e =>
        (queueStatKey ++ showNat e.2, showNat e.1.ssSelectedCnt)).foldl (addQueueStat L) ([], []) =
      (queueCounts queue, []) := by
  induction queue using List.reverseRecOn with
  | nil => rfl
  | append_singleton queue e ih =>
    have hnew : ∀ item ∈ queueCounts queue, item.1 ≠ ((0 + queue.length : ℕ) : ℤ) := by
      intro item hitem
      obtain ⟨f, hf, rfl⟩ := List.mem_map.mp hitem
      have hlt := (List.mem_zipIdx hf).2.1
      show (f.2 : ℤ) ≠ _
      omega
    rw [List.zipIdx_append, List.map_append, List.foldl_append, ih, queueCounts_concat]
    exact addQueueStat_queue hL _ _ _ hnew

theorem sum_queueCounts (queue : List (SeedEntry R)) :
    ((queueCounts queue).map Prod.snd).sum =
      ((queue.map SeedEntry.ssSelectedCnt).sum : ℕ) := by
  induction queue using List.reverseRecOn with
  | nil => rfl
  | append_singleton queue e ih =>
    rw [queueCounts_concat, List.map_append, List.sum_append, ih, List.map_append, List.sum_append]
    simp

theorem Audited.countsAgree {s : SeedLoop R} {rs : List (SeedSelection R)}
    (h : Audited L cfg s rs) :
    CountsAgree (queueCounts s.queueBuf) (rs.map (SeedSelection.record L cfg.fmt)) := by
  have hmem : ∀ queueId n : ℤ, (queueId, n) ∈ queueCounts s.queueBuf →
      ∃ q m : ℕ, queueId = q ∧ n = m ∧ s.counts[q]? = some m := by
    intro queueId n hn
    obtain ⟨f, hf, heq⟩ := List.mem_map.mp hn
    obtain ⟨rfl, rfl⟩ := Prod.mk.inj heq
    have hget := List.mk_mem_zipIdx_iff_getElem?.mp hf
    refine ⟨f.2, f.1.ssSelectedCnt, rfl, rfl, ?_⟩
    rw [counts, List.getElem?_map, hget]
    rfl
  refine ⟨?_, ?_, ?_⟩
  · intro queueId n hn
    obtain ⟨l₁, l₂, hl, -⟩ := List.lookup_eq_some_iff.mp hn
    obtain ⟨q, m, rfl, rfl, hm⟩ := hmem queueId n (by rw [hl]; simp)
    rw [h.counts_eq q m hm]
  · intro r hr
    obtain ⟨t, ht, rfl⟩ := List.mem_map.mp hr
    have hlt := h.inQueue t ht
    rw [counts, List.length_map] at hlt
    apply lookup_isSome_of_mem
    rw [queueCounts, List.map_map, List.mem_map]
    exact ⟨(s.queueBuf[t.queueId], t.queueId),
      List.mk_mem_zipIdx_iff_getElem?.mpr (List.getElem?_eq_getElem hlt), rfl⟩
  · rw [sum_queueCounts, List.length_map]
    exact congrArg Nat.cast h.sum_eq

theorem statInt_showNat (hL : L.Standard) {stats : PyDict Bytes} {key : String} {n : ℕ}
    (h : stats.lookup (ascii key) = some (showNat n)) : statInt L stats key = some (n : ℤ) := by
  rw [statInt, h]
  exact hL.intOfText_showNat n

theorem foldl_seedStats (hL : L.Standard) (hpath : isSetPath cfg.auditPath = true)
    (s : SeedLoop R) :
    (seedStats cfg s).foldl (addQueueStat L) ([], []) = (queueCounts s.queueBuf, []) := by
  rw [seedStats, List.foldl_append, if_pos (by simp [hpath])]
  exact foldl_queueStats hL s.queueBuf

theorem readsSeed_body (hL : L.Standard) (hfmt : L.ReadsDouble cfg.fmt)
    {r : SeedSelection R} (hpos : 1 ≤ r.ssSelectedCnt) (hshort : (r.body cfg.fmt).length < 512) :
    ReadsSeed L (r.body cfg.fmt) (r.record L cfg.fmt) := by
  have hreads := r.reads_body hfmt
  obtain ⟨b, tail, htext, -⟩ := hreads.head
  have hload := hL.jsonLoads_read (r.body cfg.fmt) _ (by omega)
    (by rw [r.openings_body hfmt]; omega) (Json.read_of_reads hreads)
  exact ⟨by rw [htext]; simp, _, hload, SeedSelection.seedRecordOf_members hfmt hpos⟩

section

variable [DecidableEq R]

/-- What a complete audit gives the reader. -/
structure Evidence (L : PyLib R) (cfg : SeedLoopCfg R) (s : SeedLoop R)
    (p : ParsedSeedAudit) : Prop where
  parsed : parseSeedSelectionAudit L (.ok s.auditFile) = .ok p
  valid : p.valid = true
  reconciled : (reconcileSeedSelectionAudit L p (seedStats cfg s)).reconciled = true
  /-- The records of each queue id are numbered up to its count. -/
  numbered : ∀ (q : ℕ) (e : SeedEntry R), s.queueBuf[q]? = some e →
    (p.perQueueRecords.lookup (q : ℤ)).getD [] = rangeFromOne e.ssSelectedCnt

theorem Audited.evidence (hL : L.Standard) (hfmt : L.ReadsDouble cfg.fmt)
    (hpath : isSetPath cfg.auditPath = true) {s : SeedLoop R} {rs : List (SeedSelection R)}
    (h : Audited L cfg s rs) (herr : s.seedAuditErrorCount = 0) : ∃ p, Evidence L cfg s p := by
  refine ⟨seedSummary (rs.map (SeedSelection.record L cfg.fmt)), ?_, ?_, ?_, ?_⟩
  · rw [h.file_eq]
    apply parse_numbered
    · exact fun r hr => readsSeed_body hL hfmt (h.positive r hr) (h.short r hr)
    · exact fun r _ => r.body_oneLine hfmt
    · exact h.numbered
  · exact (seedSummary_spec _).1
  · have hlen : (rs.map (SeedSelection.record L cfg.fmt)).length = rs.length := by simp
    refine reconcile_numbered h.numbered ?_ ?_ ?_ ?_ ?_ ?_ (foldl_seedStats hL hpath s)
      h.countsAgree
    · rw [hlen, ← h.sum_eq]
      exact statInt_showNat hL rfl
    · rw [hlen, ← h.expected_eq]
      exact statInt_showNat hL rfl
    · rw [hlen, ← h.records_eq]
      exact statInt_showNat hL rfl
    · refine statInt_showNat hL (n := 1) ?_
      show some (showFlag _) = _
      rw [hpath, Bool.or_true]
      rfl
    · refine statInt_showNat hL (n := 0) ?_
      show some (showNat s.seedAuditErrorCount) = _
      rw [herr]
    · refine statInt_showNat hL (n := 0) ?_
      show some (showFlag s.seedAuditInvalid) = _
      rw [h.invalid_eq]
      rfl
  · intro q e he
    have hcount := h.counts_eq q e.ssSelectedCnt (by rw [counts, List.getElem?_map, he]; rfl)
    rw [(seedSummary_spec _).2.2.2.1, h.numbered q, hcount]

/-- Evidence that reconciles is that of a queue without earlier counts: the recorder starts at
zero, and the sum of the counts does not. -/
theorem Evidence.unselected (hL : L.Standard) (hpath : isSetPath cfg.auditPath = true)
    {queue : List (SeedEntry R)} {pendingFavored : ℕ} {smallestFavored : ℤ} {seekTo : ℕ}
    {es : List SeedLoopEvent} {p : ParsedSeedAudit}
    (h : Evidence L cfg
      (Machine.run (step cfg) (start queue pendingFavored smallestFavored seekTo) es) p) :
    Unselected queue := by
  set s := Machine.run (step cfg) (start queue pendingFavored smallestFavored seekTo) es
  have hsum := (audits_run cfg (start queue pendingFavored smallestFavored seekTo) es).sum_eq hpath
  have hselected : statInt L (seedStats cfg s) "ss_selected_sum" = some (s.selectedSum : ℤ) :=
    statInt_showNat hL rfl
  have hexpected : statInt L (seedStats cfg s) "seed_audit_expected_selection_count" =
      some (s.seedAuditExpectedSelectionCount : ℤ) := statInt_showNat hL rfl
  have heq := reconciled_expected h.reconciled hselected hexpected
  have hcounts : s.selectedSum + 0 =
      (queue.map SeedEntry.ssSelectedCnt).sum + s.seedAuditExpectedSelectionCount := hsum
  rw [unselected_iff]
  omega

/-- In every run each turn is counted once exactly when no turn takes the favored fast path.  In a
run in which every record is written, it is recorded once as well and the evidence agrees with the
counts, exactly when besides the queue has no counts from an earlier run. -/
theorem seedTurns_iff (hL : L.Standard) (hfmt : L.ReadsDouble cfg.fmt)
    {queue : List (SeedEntry R)} (hne : queue ≠ []) (pendingFavored : ℕ) (smallestFavored : ℤ)
    (seekTo : ℕ) (es : List SeedLoopEvent) :
    let first := start queue pendingFavored smallestFavored seekTo
    let s := Machine.run (step cfg) first es
    let regular := Machine.Meets (step cfg) (fun s _ => takesFavored cfg s = false) first es
    (TurnSelected s.log ↔ regular) ∧
      (isSetPath cfg.auditPath = true → s.seedAuditErrorCount = 0 →
        ((TurnCounted s.log ∧ ∃ p, Evidence L cfg s p) ↔ regular ∧ Unselected queue)) := by
  intro first s regular
  have hturns : TurnSelected s.log ↔ regular :=
    turnSelected_iff (turnInv_start hne pendingFavored smallestFavored seekTo) es
  refine ⟨hturns, fun hpath herr => ?_⟩
  rw [turnCounted_iff hpath (s := first) rfl herr, hturns]
  refine and_congr_right fun _ => ⟨fun ⟨_, h⟩ => h.unselected hL hpath, fun hqueue => ?_⟩
  have haudit : AuditInv L cfg s :=
    (auditInv_start hqueue pendingFavored smallestFavored seekTo).of_audits hpath
      (audits_run cfg _ es)
  obtain ⟨rs, hrs⟩ := haudit herr
  exact hrs.evidence hL hfmt hpath herr

end

/-! ## A run of one seed -/

/-- Natural numbers in place of the doubles. -/
def natMath : SeedMath ℕ where
  zero := 0
  one := 1
  eps := 1
  ofNat := id
  add := (· + ·)
  div := (· / ·)
  powAlpha := id
  point := fun draw _ => draw
  lt := fun x y => x < y
  le := fun x y => x ≤ y

def natCfg : SeedLoopCfg ℕ where
  math := natMath
  fmt := showNat
  oldSeedSelection := false
  auditPath := some (ascii "audit")

theorem natLib_readsDouble : natLib.ReadsDouble natCfg.fmt :=
  ⟨showNat_numberByte, fun x => .inl ⟨isInt_showNat x, _, rfl⟩⟩

/-- Nothing changes but the number of favored entries. -/
def quiet (pendingFavored : ℕ) : SeedUpdate where
  ssCovCnt := fun _ => 0
  disabled := fun _ => false
  added := []
  pendingFavored := pendingFavored
  smallestFavored := 0
  stopSoon := 0

/-- A step that meets no error. -/
def quietStep (pendingFavored : ℕ) : SeedLoopEvent where
  timeUp := false
  culled := quiet pendingFavored
  synced := quiet pendingFavored
  drawn := 0
  io := ⟨true, true, true, 0⟩
  fuzzed := quiet pendingFavored
  skipped := false
  exit1 := false
  advanceIo := ⟨true, true, true, 0⟩

def oneSeed : List (SeedEntry ℕ) := [.fresh 1 1 false]

/-- One turn of the only seed. -/
def oneTurn (pendingFavored : ℕ) : SeedLoop ℕ :=
  Machine.run (step natCfg) (start oneSeed pendingFavored 0 0)
    [quietStep pendingFavored, quietStep pendingFavored]

/-- Three turns; the roulette draws the second seed in between. -/
def threeTurns : List SeedLoopEvent :=
  [quietStep 0, quietStep 0, quietStep 0, { quietStep 0 with drawn := 2 }, quietStep 0, quietStep 0]

/-- Chosen by the roulette, the seeds are counted and recorded. -/
theorem seedTurns_roulette :
    let s := Machine.run (step natCfg) (start [.fresh 1 1 false, .fresh 1 2 false] 0 0 0) threeTurns
    s.counts = [2, 1] ∧ TurnSelected s.log ∧ TurnCounted s.log ∧
      ∃ p, Evidence natLib natCfg s p := by
  have hne : ([.fresh 1 1 false, .fresh 1 2 false] : List (SeedEntry ℕ)) ≠ [] := by simp
  have hiff := seedTurns_iff (PyLib.standard_withReader _) natLib_readsDouble hne 0 0 0 threeTurns
  have hregular : Machine.Meets (step natCfg) (fun s _ => takesFavored natCfg s = false)
      (start [.fresh 1 1 false, .fresh 1 2 false] 0 0 0) threeTurns := by
    simp only [threeTurns, Machine.Meets]
    decide
  exact ⟨by decide, hiff.1.mpr hregular,
    (hiff.2 rfl (by decide)).mpr ⟨hregular, by simp [Unselected, SeedEntry.fresh]⟩⟩

/-- Chosen as the smallest favored entry, the seed is fuzzed with neither. -/
theorem seedTurns_favored :
    (oneTurn 1).seedAuditErrorCount = 0 ∧ (oneTurn 1).selectedSum = 0 ∧
      (oneTurn 1).auditFile = [] ∧ (oneTurn 1).log = [.fuzzed 0] ∧
      ¬ TurnSelected (oneTurn 1).log ∧ ¬ TurnCounted (oneTurn 1).log := by
  have hlog : (oneTurn 1).log = [.fuzzed 0] := by decide
  refine ⟨by decide, by decide, by decide, hlog, fun h => ?_, fun h => ?_⟩
  · exact absurd (h [] 0 [] hlog) (by decide)
  · exact absurd (h [] 0 [] hlog).1 (by decide)

end SeedLoop

end AflNv
