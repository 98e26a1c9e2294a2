import AflNv.CBase
import AflNv.Lib.Machine
import AflNv.Lib.Probe

/-!
# The security-state coverage set

`src/afl-fuzz-nv-covset.c`: the canonical labels a state key is made of, the
replay check of a status document, and the open-addressed table of the states
seen so far.

The table is an array of `cap` hashes with `0` as the empty cell.
`nvCovsetInsertInto` is the C loop; `nvCovsetInsertInto_eq_scan` reads it as a
probe of `AflNv.Lib.Probe`, and `CovsetInv` adds the invariant of that library.
Over it, `boundedInsert` says what the table is for: a set of at most `cap`
hashes that refuses new members when it is full.  `nvCovsetInsertInto_refines`
connects the two.
-/

namespace AflNv

open AflNv.Lib

/-! ## Canonical key components -/

/-- `NV_KNOWN_METHODS`. -/
def nvKnownMethods : List Bytes :=
  ["GET", "POST", "PUT", "PATCH", "DELETE", "HEAD", "OPTIONS"].map ascii

/-- `NV_KNOWN_CLASSES`. -/
def nvKnownClasses : List Bytes :=
  ["2xx", "3xx", "4xx", "5xx", "conn_refused", "timeout"].map ascii

/-- `NV_PATH_MALFORMED`. -/
def nvPathMalformed : Bytes := ascii "malformed_path"

/-- `NV_STATE_PATH_MAX`. -/
def nvStatePathMax : ℕ := 200

/-- `nv_canon_method`; `none` is a NULL argument. -/
def nvCanonMethod : Option Bytes → Bytes
  | none => ascii "INVALID"
  | some m =>
    let m := trimSpace m
    if m.length = 0 ∨ 16 ≤ m.length then ascii "INVALID"
    else (nvKnownMethods.find? fun known => m.map toupper = known).getD (ascii "INVALID")

/-- `nv_canon_class`; `none` is a NULL argument. -/
def nvCanonClass : Option Bytes → Bytes
  | none => ascii "other"
  | some c => (nvKnownClasses.find? fun known => c = known).getD (ascii "other")

/-- `nv_canon_path_label`: `none` (NULL) when the path is structurally fine. -/
def nvCanonPathLabel : Option Bytes → Option Bytes
  | none => some nvPathMalformed
  | some p =>
    if p.head? ≠ some 47 then some nvPathMalformed
    else if p.length > nvStatePathMax then some nvPathMalformed
    else if p.any fun ch => ch < 0x20 || ch > 0x7e then some nvPathMalformed
    else none

/-! ## Replay identity -/

/-- `NV_STATUS_ACCEPT` and `NV_STATUS_REPLAY`. -/
inductive NvStatusFresh where
  | accept
  | replay
  deriving DecidableEq, Repr

/-- `nv_status_is_fresh`.  The two pointers are never NULL in a call, so the
marks are passed and returned by value. -/
def nvStatusIsFresh (execSeq : ℕ) (legacyStamp : UInt64) (lastExecSeq : ℕ)
    (lastStamp : UInt64) : NvStatusFresh × ℕ × UInt64 :=
  if execSeq ≠ 0 then
    if execSeq ≤ lastExecSeq then (.replay, lastExecSeq, lastStamp)
    else (.accept, execSeq, lastStamp)
  else if legacyStamp = lastStamp then (.replay, lastExecSeq, lastStamp)
  else (.accept, lastExecSeq, legacyStamp)

/-- A document with an execution id is accepted exactly above the mark. -/
theorem nvStatusIsFresh_of_pos {execSeq lastExecSeq : ℕ} {stamp lastStamp : UInt64}
    (hpos : 0 < execSeq) :
    nvStatusIsFresh execSeq stamp lastExecSeq lastStamp =
      if execSeq ≤ lastExecSeq then (.replay, lastExecSeq, lastStamp)
      else (.accept, execSeq, lastStamp) := by
  rw [nvStatusIsFresh, if_pos (by omega)]

/-! ## The table -/

/-- `NV_COVSET_EXISTING`, `NV_COVSET_INSERTED` and `NV_COVSET_SATURATED`. -/
inductive NvCovsetResult where
  | existing
  | inserted
  | saturated
  deriving DecidableEq, Repr

/-- The arguments of `nv_covset_insert_into`: `slots`, `cap` and `*used`. -/
structure NvCovset where
  slots : List UInt64
  cap : UInt32
  used : UInt32
  deriving DecidableEq, Repr

/-- The probe loop of `nv_covset_insert_into`, with `n` probes left at index
`i`. -/
def nvCovsetProbe (t : NvCovset) (mask : UInt32) (h : UInt64) :
    ℕ → UInt32 → NvCovsetResult × NvCovset
  | 0, _ => (.saturated, t)
  | n + 1, i =>
    let cur := t.slots.getD i.toNat 0
    if cur = 0 then
      (.inserted, { t with slots := t.slots.set i.toNat h, used := t.used + 1 })
    else if cur = h then (.existing, t)
    else nvCovsetProbe t mask h n ((i + 1) &&& mask)

/-- `nv_covset_insert_into`. -/
def nvCovsetInsertInto (t : NvCovset) (h : UInt64) : NvCovsetResult × NvCovset :=
  if t.cap = 0 then (.saturated, t)
  else
    let mask := t.cap - 1
    nvCovsetProbe t mask h t.cap.toNat (h.toUInt32 &&& mask)

/-- A table of `cap` empty cells. -/
def NvCovset.zero (cap : UInt32) : NvCovset where
  slots := List.replicate cap.toNat 0
  cap := cap
  used := 0

/-! ## The loop as a probe -/

/-- The cells of the table: `0` is the empty cell. -/
def NvCovset.cells (t : NvCovset) : ℕ → Option UInt64 := fun i =>
  if t.slots.getD i 0 = 0 then none else some (t.slots.getD i 0)

/-- The capacity is a power of two, so `cap - 1` is a mask. -/
def IsPow2 (cap : UInt32) : Prop := ∃ k, cap.toNat = 2 ^ k

theorem isPow2_two : IsPow2 2 := ⟨1, by decide⟩

theorem IsPow2.pos {cap : UInt32} (h : IsPow2 cap) : 0 < cap.toNat := by
  obtain ⟨k, hk⟩ := h
  rw [hk]
  exact Nat.two_pow_pos k

theorem and_mask_toNat {cap : UInt32} (h : IsPow2 cap) (i : UInt32) :
    (i &&& (cap - 1)).toNat = i.toNat % cap.toNat := by
  have hpos := h.pos
  have hsub : (cap - 1).toNat = cap.toNat - 1 := by
    have hone : (1 : UInt32) ≤ cap := UInt32.le_iff_toNat_le.mpr hpos
    rw [UInt32.toNat_sub_of_le _ _ hone]
    rfl
  obtain ⟨k, hk⟩ := h
  rw [UInt32.toNat_and, hsub, hk, Nat.and_two_pow_sub_one_eq_mod]

theorem succ_and_mask_toNat {cap : UInt32} (h : IsPow2 cap) (i : UInt32) :
    ((i + 1) &&& (cap - 1)).toNat = (i.toNat + 1) % cap.toNat := by
  have hlt := cap.toNat_lt
  obtain ⟨k, hk⟩ := id h
  have hdvd : cap.toNat ∣ 2 ^ 32 := by
    rw [hk] at hlt ⊢
    exact Nat.pow_dvd_pow 2 ((Nat.pow_lt_pow_iff_right (by omega)).mp hlt).le
  rw [and_mask_toNat h, UInt32.toNat_add, show (1 : UInt32).toNat = 1 from rfl,
    Nat.mod_mod_of_dvd _ hdvd]

theorem home_toNat {cap : UInt32} (h : IsPow2 cap) (x : UInt64) :
    (x.toUInt32 &&& (cap - 1)).toNat = x.toNat % cap.toNat := by
  have hlt := cap.toNat_lt
  obtain ⟨k, hk⟩ := id h
  have hdvd : cap.toNat ∣ 2 ^ 32 := by
    rw [hk] at hlt ⊢
    exact Nat.pow_dvd_pow 2 ((Nat.pow_lt_pow_iff_right (by omega)).mp hlt).le
  rw [and_mask_toNat h, UInt64.toNat_toUInt32, Nat.mod_mod_of_dvd _ hdvd]

/-- What `nv_covset_insert_into` does with the outcome of its probe. -/
def NvCovset.apply (t : NvCovset) (h : UInt64) : Probe.Outcome → NvCovsetResult × NvCovset
  | .full => (.saturated, t)
  | .free i => (.inserted, { t with slots := t.slots.set i h, used := t.used + 1 })
  | .found _ => (.existing, t)

theorem nvCovsetProbe_eq_scan {t : NvCovset} (hcap : IsPow2 t.cap) {h : UInt64}
    (n : ℕ) {i : UInt32} (hi : i.toNat < t.cap.toNat) :
    nvCovsetProbe t (t.cap - 1) h n i =
      t.apply h (Probe.scan t.cells t.cap.toNat h n i.toNat) := by
  induction n generalizing i with
  | zero => rfl
  | succ n ih =>
    rw [nvCovsetProbe]
    by_cases hzero : t.slots.getD i.toNat 0 = 0
    · have hcell : t.cells i.toNat = none := if_pos hzero
      rw [if_pos hzero, Probe.scan_succ_none _ _ _ hcell, NvCovset.apply]
    · have hcell : t.cells i.toNat = some (t.slots.getD i.toNat 0) := if_neg hzero
      rw [if_neg hzero]
      by_cases hsame : t.slots.getD i.toNat 0 = h
      · rw [if_pos hsame, Probe.scan_succ_self _ _ (hcell.trans (congrArg some hsame)),
          NvCovset.apply]
      · have hnext : ((i + 1) &&& (t.cap - 1)).toNat < t.cap.toNat := by
          rw [and_mask_toNat hcap]
          exact Nat.mod_lt _ hcap.pos
        rw [if_neg hsame, Probe.scan_succ_other _ _ hcell hsame, ih hnext,
          succ_and_mask_toNat hcap]

theorem nvCovsetInsertInto_eq_scan {t : NvCovset} (hcap : IsPow2 t.cap) (h : UInt64) :
    nvCovsetInsertInto t h =
      t.apply h (Probe.scan t.cells t.cap.toNat h t.cap.toNat (h.toNat % t.cap.toNat)) := by
  have hne : t.cap ≠ 0 := by
    intro hzero
    have := hcap.pos
    rw [hzero] at this
    exact absurd this (by decide)
  have hhome := home_toNat hcap h
  rw [nvCovsetInsertInto, if_neg hne, nvCovsetProbe_eq_scan hcap _
    (by rw [hhome]; exact Nat.mod_lt _ hcap.pos), hhome]

/-! ## The invariant and the bounded set -/

/-- The hashes the table holds. -/
def NvCovset.stored (t : NvCovset) : Finset UInt64 := Probe.keys t.cap.toNat t.cells

/-- The invariant of a table that starts empty. -/
structure CovsetInv (t : NvCovset) : Prop where
  pow2 : IsPow2 t.cap
  length_slots : t.slots.length = t.cap.toNat
  wellProbed : Probe.WellProbed UInt64.toNat t.cap.toNat t.cells
  used_eq : t.used.toNat = t.stored.card

theorem NvCovset.cells_zero (cap : UInt32) : (NvCovset.zero cap).cells = fun _ => none := by
  funext i
  rw [NvCovset.cells, if_pos]
  simp only [NvCovset.zero, List.getD_eq_getElem?_getD, List.getElem?_replicate]
  split <;> rfl

theorem CovsetInv.zero {cap : UInt32} (hcap : IsPow2 cap) : CovsetInv (NvCovset.zero cap) where
  pow2 := hcap
  length_slots := List.length_replicate
  wellProbed := by
    rw [NvCovset.cells_zero]
    exact Probe.WellProbed.empty _ _
  used_eq := by
    rw [NvCovset.stored, NvCovset.cells_zero, Probe.keys_empty]
    rfl

theorem NvCovset.stored_zero (cap : UInt32) : (NvCovset.zero cap).stored = ∅ := by
  rw [NvCovset.stored, NvCovset.cells_zero, Probe.keys_empty]

/-- The table as a set of at most `cap` members: a member is reported, a new
hash is added while there is room, and refused otherwise. -/
def boundedInsert (cap : ℕ) (stored : Finset UInt64) (h : UInt64) :
    NvCovsetResult × Finset UInt64 :=
  if h ∈ stored then (.existing, stored)
  else if stored.card < cap then (.inserted, insert h stored)
  else (.saturated, stored)

theorem boundedInsert_stored (cap : ℕ) (stored : Finset UInt64) (h : UInt64) :
    (boundedInsert cap stored h).2 =
      if (boundedInsert cap stored h).1 = .inserted then insert h stored else stored := by
  unfold boundedInsert
  split_ifs <;> simp_all

theorem boundedInsert_card (cap : ℕ) (stored : Finset UInt64) (h : UInt64) :
    (boundedInsert cap stored h).2.card =
      stored.card + (if (boundedInsert cap stored h).1 = .inserted then 1 else 0) := by
  unfold boundedInsert
  split_ifs <;> simp_all

theorem NvCovset.cells_set {t : NvCovset} {i : ℕ} {h : UInt64} (hi : i < t.slots.length)
    (hne : h ≠ 0) (u : UInt32) :
    ({ t with slots := t.slots.set i h, used := u } : NvCovset).cells =
      Function.update t.cells i (some h) := by
  funext j
  by_cases hji : j = i
  · subst hji
    simp [NvCovset.cells, List.getD_eq_getElem?_getD, hi, hne]
  · rw [Function.update_of_ne hji]
    simp only [NvCovset.cells, List.getD_eq_getElem?_getD,
      List.getElem?_set_ne (Ne.symm hji)]

theorem succ_toNat_of_lt {u cap : UInt32} (h : u.toNat < cap.toNat) :
    (u + 1).toNat = u.toNat + 1 := by
  have := cap.toNat_lt
  rw [UInt32.toNat_add, show (1 : UInt32).toNat = 1 from rfl]
  omega

/-- One insertion: the table keeps its invariant and capacity, its answer and
its stored hashes are those of the bounded set, and an answer other than
`inserted` leaves it unchanged. -/
theorem nvCovsetInsertInto_refines {t : NvCovset} (ht : CovsetInv t) {h : UInt64}
    (hne : h ≠ 0) :
    CovsetInv (nvCovsetInsertInto t h).2 ∧
      (nvCovsetInsertInto t h).2.cap = t.cap ∧
      (nvCovsetInsertInto t h).1 = (boundedInsert t.cap.toNat t.stored h).1 ∧
      (nvCovsetInsertInto t h).2.stored = (boundedInsert t.cap.toNat t.stored h).2 ∧
      ((nvCovsetInsertInto t h).1 ≠ .inserted → (nvCovsetInsertInto t h).2 = t) := by
  have hpos := ht.pow2.pos
  rw [nvCovsetInsertInto_eq_scan ht.pow2]
  cases hscan : Probe.scan t.cells t.cap.toNat h t.cap.toNat (h.toNat % t.cap.toNat) with
  | full =>
    obtain ⟨habsent, hfull⟩ := ht.wellProbed.scan_full hpos hscan
    have hmem : h ∉ t.stored := by
      rw [NvCovset.stored, Probe.mem_keys]
      rintro ⟨j, hj, hk⟩
      exact habsent j hj hk
    have hcard : t.stored.card = t.cap.toNat := ht.wellProbed.card_keys_of_full hfull
    have hb : boundedInsert t.cap.toNat t.stored h = (.saturated, t.stored) := by
      rw [boundedInsert, if_neg hmem, if_neg (by omega)]
    rw [hb]
    exact ⟨ht, rfl, rfl, rfl, fun _ => rfl⟩
  | found i =>
    obtain ⟨hi, hcell⟩ := Probe.scan_found (Nat.mod_lt _ hpos) hscan
    have hmem : h ∈ t.stored := Probe.mem_keys.mpr ⟨i, hi, hcell⟩
    have hb : boundedInsert t.cap.toNat t.stored h = (.existing, t.stored) := if_pos hmem
    rw [hb]
    exact ⟨ht, rfl, rfl, rfl, fun _ => rfl⟩
  | free i =>
    obtain ⟨hi, hfree, habsent, hreach⟩ := ht.wellProbed.scan_free hpos hscan
    have hmem : h ∉ t.stored := by
      rw [NvCovset.stored, Probe.mem_keys]
      rintro ⟨j, hj, hk⟩
      exact habsent j hj hk
    have hlt : t.stored.card < t.cap.toNat := ht.wellProbed.card_keys_lt hi hfree
    have hb : boundedInsert t.cap.toNat t.stored h = (.inserted, insert h t.stored) := by
      rw [boundedInsert, if_neg hmem, if_pos hlt]
    have hcells := NvCovset.cells_set (by rw [ht.length_slots]; exact hi) hne (t.used + 1)
    have hstored : (t.apply h (.free i)).2.stored = insert h t.stored := by
      rw [NvCovset.stored, NvCovset.apply, hcells, Probe.keys_update hi hfree]
      rfl
    rw [hb]
    refine ⟨⟨ht.pow2, ?_, ?_, ?_⟩, rfl, rfl, hstored, fun hne' => absurd rfl hne'⟩
    · rw [NvCovset.apply, List.length_set]
      exact ht.length_slots
    · rw [NvCovset.apply, hcells]
      exact ht.wellProbed.update habsent hreach
    · have hused : (t.used + 1).toNat = t.used.toNat + 1 :=
        succ_toNat_of_lt (ht.used_eq.trans_lt hlt)
      rw [hstored, Finset.card_insert_of_notMem hmem, ← ht.used_eq]
      exact hused

/-- The cells in use are the non-zero entries of the array. -/
theorem CovsetInv.used_eq_countP {t : NvCovset} (ht : CovsetInv t) :
    t.used.toNat = t.slots.countP (· ≠ 0) := by
  have hcells : ∀ i, (t.cells i ≠ none) = (t.slots.getD i 0 ≠ 0) := by
    intro i
    by_cases h : t.slots.getD i 0 = 0 <;> simp [NvCovset.cells]
  have hlist : t.slots = (List.range t.slots.length).map fun i => t.slots.getD i 0 := by
    refine List.ext_getElem (by simp) fun i h1 h2 => ?_
    simp [h1]
  rw [ht.used_eq, NvCovset.stored, ht.wellProbed.card_keys]
  conv_rhs => rw [hlist]
  rw [List.countP_map, ht.length_slots, List.countP_eq_length_filter,
    ← List.toFinset_card_of_nodup ((List.nodup_range).filter _)]
  congr 1
  ext i
  simp [hcells]

/-! ## Runs of insertions -/

/-- The hashes that some insertion of a run reported as new. -/
def insertedHashes (past : List (UInt64 × NvCovsetResult)) : Finset UInt64 :=
  ((past.filter fun p => p.2 = .inserted).map Prod.fst).toFinset

theorem insertedHashes_concat (past : List (UInt64 × NvCovsetResult)) (h : UInt64)
    (r : NvCovsetResult) :
    insertedHashes (past ++ [(h, r)]) =
      if r = .inserted then insert h (insertedHashes past) else insertedHashes past := by
  ext x
  by_cases hr : r = .inserted <;> simp [insertedHashes, hr]

/-- A run of insertions stores exactly the hashes it reported as new. -/
theorem covsetRun_inv {cap : UInt32} (hcap : IsPow2 cap) {hs : List UInt64}
    (hne : ∀ h ∈ hs, h ≠ 0) :
    let t := Machine.run nvCovsetInsertInto (NvCovset.zero cap) hs
    CovsetInv t ∧ t.cap = cap ∧
      t.stored = insertedHashes (hs.zip (Machine.outs nvCovsetInsertInto (NvCovset.zero cap) hs)) := by
  induction hs using List.reverseRecOn with
  | nil =>
    refine ⟨CovsetInv.zero hcap, rfl, ?_⟩
    rw [Machine.run_nil, NvCovset.stored_zero]
    rfl
  | append_singleton hs h ih =>
    obtain ⟨hinv, hcapt, hstored⟩ := ih fun x hx => hne x (by simp [hx])
    obtain ⟨hinv', hcap', hres, hset, _⟩ :=
      nvCovsetInsertInto_refines hinv (hne h (by simp))
    rw [Machine.run_concat, Machine.outs_concat,
      List.zip_append (by rw [Machine.length_outs])]
    refine ⟨hinv', hcap'.trans hcapt, ?_⟩
    rw [List.zip_cons_cons, List.zip_nil_left, insertedHashes_concat, hset, hres, ← hstored,
      boundedInsert_stored]

/-- The table refines a set of at most `cap` hashes: over every run of
insertions into a table of `cap` empty cells, the next call answers as that set
does, changes nothing unless it inserts, and `used` counts the members. -/
theorem nvCovsetInsertInto_run {cap : UInt32} (hcap : IsPow2 cap) {hs : List UInt64}
    (hne : ∀ h ∈ hs, h ≠ 0) {h : UInt64} (hh : h ≠ 0) :
    let t := Machine.run nvCovsetInsertInto (NvCovset.zero cap) hs
    let seen := insertedHashes
      (hs.zip (Machine.outs nvCovsetInsertInto (NvCovset.zero cap) hs))
    let r := nvCovsetInsertInto t h
    (r.1 = .existing ↔ h ∈ seen) ∧
      (r.1 = .inserted ↔ h ∉ seen ∧ seen.card < cap.toNat) ∧
      (r.1 = .saturated ↔ h ∉ seen ∧ seen.card = cap.toNat) ∧
      (r.1 ≠ .inserted → r.2 = t) ∧
      t.used.toNat = t.slots.countP (· ≠ 0) ∧
      t.used.toNat = seen.card := by
  intro t seen r
  obtain ⟨hinv, hcapt, hstored⟩ := covsetRun_inv hcap hne
  change CovsetInv t at hinv
  change t.cap = cap at hcapt
  change t.stored = seen at hstored
  obtain ⟨-, -, hres, -, hkeep⟩ := nvCovsetInsertInto_refines hinv hh
  have hle : seen.card ≤ cap.toNat := by
    rw [← hstored, ← hcapt]
    exact hinv.wellProbed.card_keys_le
  have hanswer : r.1 = (boundedInsert cap.toNat seen h).1 := by
    rw [← hcapt, ← hstored]
    exact hres
  rw [hanswer]
  refine ⟨?_, ?_, ?_, ?_, hinv.used_eq_countP, hstored ▸ hinv.used_eq⟩
  · unfold boundedInsert
    split_ifs <;> simp_all
  · unfold boundedInsert
    split_ifs <;> simp_all
  · unfold boundedInsert
    split_ifs with hmem hroom
    · simp [hmem]
    · simpa [hmem] using hroom.ne
    · simpa [hmem] using le_antisymm hle (not_lt.mp hroom)
  · rw [← hanswer]
    exact hkeep

/-- Four hashes with the same home slot fill a table of four cells, and a fifth
is refused. -/
theorem nvCovsetInsertInto_run_saturated :
    (nvCovsetInsertInto (Machine.run nvCovsetInsertInto (NvCovset.zero 4) [4, 8, 12, 16]) 20).1 =
      .saturated :=
  (@nvCovsetInsertInto_run 4 ⟨2, rfl⟩ [4, 8, 12, 16] (by simp) 20 (by simp)).2.2.1.mpr
    (by decide)

end AflNv
