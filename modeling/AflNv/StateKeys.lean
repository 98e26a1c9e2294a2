import AflNv.Accounting
import AflNv.Lib.Substring
import Mathlib.Data.Set.Card
import Mathlib.Data.Set.Finite.List
import Mathlib.Data.FinEnum

/-!
# How many security states there can be

`nv_observe_security_state_once` folds the method and the class of a status
document onto a fixed list of labels, and the path onto `malformed_path`,
`unknown_path` or itself.  It keeps the path itself when the path is printable,
at most `NV_STATE_PATH_MAX` long and admitted by `nv_is_allowed_pair`, and a
rule that ends in `*` admits every path below its prefix.

The keys a configuration can produce are counted exactly in `stateKeys_ncard`:
seven classes for each method and path label.  `boundedStates_iff` compares the
count with the `8 * (n + 2) * 7` keys that a list of `n` rules is meant to
give.  Exact rules stay below it (`pairs_le_of_exact`), and one
rule with a trailing `*` can leave it (`pow_le_admittedPairs_ncard`).
-/

namespace AflNv

open AflNv.Lib
open AflNv.Lib.Substring (append_cons_inj_left append_cons_inj_right)

/-! ## The labels of a key -/

/-- What `nv_canon_method` returns. -/
def methodLabels : List Bytes := ascii "INVALID" :: nvKnownMethods

/-- What `nv_canon_class` returns. -/
def classLabels : List Bytes := ascii "other" :: nvKnownClasses

theorem nvCanonMethod_mem (m : Option Bytes) : nvCanonMethod m ∈ methodLabels := by
  cases m with
  | none => exact List.mem_cons_self
  | some m =>
    rw [nvCanonMethod]
    split_ifs
    · exact List.mem_cons_self
    · cases h : nvKnownMethods.find? fun known => (trimSpace m).map toupper = known with
      | none => exact List.mem_cons_self
      | some known => exact List.mem_cons_of_mem _ (List.mem_of_find?_eq_some h)

theorem nvCanonClass_mem (c : Option Bytes) : nvCanonClass c ∈ classLabels := by
  cases c with
  | none => exact List.mem_cons_self
  | some c =>
    rw [nvCanonClass]
    cases h : nvKnownClasses.find? fun known => c = known with
    | none => exact List.mem_cons_self
    | some known => exact List.mem_cons_of_mem _ (List.mem_of_find?_eq_some h)

theorem nvCanonMethod_label : ∀ m ∈ methodLabels, nvCanonMethod (some m) = m := by
  decide

theorem nvCanonClass_label : ∀ c ∈ classLabels, nvCanonClass (some c) = c := by
  decide

theorem methodLabels_blank : ∀ m ∈ methodLabels, (32 : UInt8) ∉ m := by decide

theorem classLabels_bar : ∀ c ∈ classLabels, (124 : UInt8) ∉ c := by decide

theorem methodLabels_length_le : ∀ m ∈ methodLabels, m.length ≤ 7 := by decide

theorem classLabels_length_le : ∀ c ∈ classLabels, c.length ≤ 12 := by decide

/-- A path that `nv_canon_path_label` leaves alone. -/
def FinePath (p : Bytes) : Prop := nvCanonPathLabel (some p) = none

instance (p : Bytes) : Decidable (FinePath p) := inferInstanceAs (Decidable (_ = none))

theorem finePath_iff (p : Bytes) :
    FinePath p ↔ p.head? = some 47 ∧ p.length ≤ nvStatePathMax ∧
      ∀ ch ∈ p, 0x20 ≤ ch ∧ ch ≤ 0x7e := by
  rw [FinePath, nvCanonPathLabel]
  split_ifs with hhead hlen hany
  · simp [hhead]
  · simp [hlen]
  · simp only [List.any_eq_true, Bool.or_eq_true, decide_eq_true_eq] at hany
    obtain ⟨ch, hmem, hch⟩ := hany
    constructor
    · intro h
      exact h.elim
    · intro h
      obtain ⟨hlo, hhi⟩ := h.2.2 ch hmem
      rcases hch with hch | hch
      · exact absurd hch (UInt8.not_lt.mpr hlo)
      · exact absurd hch (UInt8.not_lt.mpr hhi)
  · simp only [List.any_eq_true, Bool.or_eq_true, decide_eq_true_eq, not_exists, not_and,
      not_or, UInt8.not_lt] at hany
    simp only [true_iff]
    exact ⟨not_not.mp hhead, by omega, hany⟩

theorem FinePath.length_le {p : Bytes} (h : FinePath p) : p.length ≤ 200 :=
  ((finePath_iff p).mp h).2.1

theorem nvCanonPathLabel_of_not_fine {p : Bytes} (h : ¬ FinePath p) :
    nvCanonPathLabel (some p) = some nvPathMalformed := by
  rw [FinePath, nvCanonPathLabel] at h
  rw [nvCanonPathLabel]
  split_ifs at h ⊢ <;> first | rfl | exact absurd rfl h

theorem not_finePath_malformed : ¬ FinePath nvPathMalformed := by decide

theorem not_finePath_unknown : ¬ FinePath (ascii "unknown_path") := by decide

/-- The middle component of a key, for a folded method. -/
def pathLabel (cfg : NvTargetCfg) (cmethod path : Bytes) : Bytes :=
  match nvCanonPathLabel (some path) with
  | some label => label
  | none => if nvIsAllowedPair cfg cmethod path then path else ascii "unknown_path"

theorem pathLabel_eq (cfg : NvTargetCfg) (m p : Bytes) :
    pathLabel cfg m p =
      if FinePath p then
        if nvIsAllowedPair cfg m p then p else ascii "unknown_path"
      else nvPathMalformed := by
  rw [pathLabel]
  by_cases hfine : FinePath p
  · rw [if_pos hfine, show nvCanonPathLabel (some p) = none from hfine]
  · rw [if_neg hfine, nvCanonPathLabel_of_not_fine hfine]

theorem pathLabel_length_le (cfg : NvTargetCfg) (m p : Bytes) : (pathLabel cfg m p).length ≤ 200 := by
  rw [pathLabel_eq]
  split_ifs with hfine
  · exact hfine.length_le
  · decide
  · decide

/-- A key from its three labels. -/
def joinKey (labels : (Bytes × Bytes) × Bytes) : Bytes :=
  labels.1.1 ++ 32 :: (labels.1.2 ++ 124 :: labels.2)

/-- The `key` buffer of the source is long enough for every key. -/
theorem nvStateKey_eq (cfg : NvTargetCfg) (d : NvStatusDoc) :
    nvStateKey cfg d =
      joinKey ((nvCanonMethod (some d.method), pathLabel cfg (nvCanonMethod (some d.method)) d.path),
        nvCanonClass (some d.cls)) := by
  have hm := methodLabels_length_le _ (nvCanonMethod_mem (some d.method))
  have hc := classLabels_length_le _ (nvCanonClass_mem (some d.cls))
  have hp := pathLabel_length_le cfg (nvCanonMethod (some d.method)) d.path
  show List.take 1023 (nvCanonMethod (some d.method) ++ [32] ++
    pathLabel cfg (nvCanonMethod (some d.method)) d.path ++ [124] ++
      nvCanonClass (some d.cls)) = _
  rw [List.take_of_length_le]
  · simp [joinKey]
  · simp only [List.length_append, List.length_cons, List.length_nil]
    omega

/-- Different labels make different keys: a method holds no blank and a class
no bar. -/
theorem joinKey_inj {m m' l l' c c' : Bytes} (hm : m ∈ methodLabels) (hm' : m' ∈ methodLabels)
    (hc : c ∈ classLabels) (hc' : c' ∈ classLabels)
    (h : joinKey ((m, l), c) = joinKey ((m', l'), c')) : ((m, l), c) = ((m', l'), c') := by
  obtain ⟨rfl, hrest⟩ := append_cons_inj_left (methodLabels_blank m hm)
    (methodLabels_blank m' hm') h
  obtain ⟨rfl, rfl⟩ := append_cons_inj_right (classLabels_bar c hc) (classLabels_bar c' hc') hrest
  rfl

/-! ## Counting the keys -/

/-- The keys a configuration can produce, over all status documents. -/
def stateKeys (cfg : NvTargetCfg) : Set Bytes := Set.range (nvStateKey cfg)

/-- The pairs of a folded method and a path that the allowlist lets through as
they are. -/
def admittedPairs (cfg : NvTargetCfg) : Set (Bytes × Bytes) :=
  {l | l.1 ∈ methodLabels ∧ FinePath l.2 ∧ nvIsAllowedPair cfg l.1 l.2 = true}

/-- The folded methods for which some printable path is refused. -/
def foldingMethods (cfg : NvTargetCfg) : Set Bytes :=
  {m | m ∈ methodLabels ∧ ∃ p, FinePath p ∧ nvIsAllowedPair cfg m p = false}

/-- The method and path labels that occur together. -/
def stateLabels (cfg : NvTargetCfg) : Set (Bytes × Bytes) :=
  {l | l.1 ∈ methodLabels ∧ ∃ p, pathLabel cfg l.1 p = l.2}

theorem finite_mem_list {α : Type} (l : List α) : {a | a ∈ l}.Finite := List.finite_toSet l

theorem finite_finePath : {p | FinePath p}.Finite :=
  (List.finite_length_le UInt8 200).subset fun _ hp => FinePath.length_le hp

theorem finite_admittedPairs (cfg : NvTargetCfg) : (admittedPairs cfg).Finite :=
  ((finite_mem_list methodLabels).prod finite_finePath).subset fun _ hl => ⟨hl.1, hl.2.1⟩

theorem finite_foldingMethods (cfg : NvTargetCfg) : (foldingMethods cfg).Finite :=
  (finite_mem_list methodLabels).subset fun _ hm => hm.1

/-- A path label is `malformed_path`, an admitted path, or `unknown_path` where
a path is refused. -/
theorem stateLabels_eq (cfg : NvTargetCfg) :
    stateLabels cfg =
      {m | m ∈ methodLabels} ×ˢ {nvPathMalformed} ∪
        (foldingMethods cfg ×ˢ {ascii "unknown_path"} ∪ admittedPairs cfg) := by
  ext ⟨m, l⟩
  simp only [stateLabels, admittedPairs, foldingMethods, Set.mem_union, Set.mem_prod,
    Set.mem_ofPred_eq, Set.mem_singleton_iff]
  constructor
  · intro h
    obtain ⟨hm, p, rfl⟩ := h
    rw [pathLabel_eq]
    split_ifs with hfine hallow
    · exact .inr (.inr ⟨hm, hfine, hallow⟩)
    · exact .inr (.inl ⟨⟨hm, p, hfine, Bool.not_eq_true _ ▸ hallow⟩, rfl⟩)
    · exact .inl ⟨hm, rfl⟩
  · intro h
    rcases h with ⟨hm, rfl⟩ | ⟨⟨hm, p, hfine, hallow⟩, rfl⟩ | ⟨hm, hfine, hallow⟩
    · exact ⟨hm, [], by rw [pathLabel_eq, if_neg (by decide)]⟩
    · exact ⟨hm, p, by rw [pathLabel_eq, if_pos hfine, if_neg (by simp [hallow])]⟩
    · exact ⟨hm, l, by rw [pathLabel_eq, if_pos hfine, if_pos hallow]⟩

theorem methodLabels_ncard : {m | m ∈ methodLabels}.ncard = 8 := by
  have hcoe : {m | m ∈ methodLabels} = (↑methodLabels.toFinset : Set Bytes) := by
    ext m
    simp
  rw [hcoe, Set.ncard_coe_finset]
  decide

theorem classLabels_ncard : {c | c ∈ classLabels}.ncard = 7 := by
  have hcoe : {c | c ∈ classLabels} = (↑classLabels.toFinset : Set Bytes) := by
    ext c
    simp
  rw [hcoe, Set.ncard_coe_finset]
  decide

theorem stateLabels_ncard (cfg : NvTargetCfg) :
    (stateLabels cfg).ncard = 8 + ((admittedPairs cfg).ncard + (foldingMethods cfg).ncard) := by
  have hfold := (finite_foldingMethods cfg).prod (Set.finite_singleton (ascii "unknown_path"))
  have hadmitted := finite_admittedPairs cfg
  have hmal := (finite_mem_list methodLabels).prod (Set.finite_singleton nvPathMalformed)
  have hne : nvPathMalformed ≠ ascii "unknown_path" := by decide
  rw [stateLabels_eq, Set.ncard_union_eq _ hmal (hfold.union hadmitted),
    Set.ncard_union_eq _ hfold hadmitted, Set.ncard_prod, Set.ncard_prod, Set.ncard_singleton,
    Set.ncard_singleton, methodLabels_ncard]
  · omega
  · rw [Set.disjoint_left]
    intro l hl hl'
    exact not_finePath_unknown ((Set.mem_singleton_iff.mp hl.2) ▸ hl'.2.1)
  · rw [Set.disjoint_left]
    intro l hl hl'
    have hlabel := Set.mem_singleton_iff.mp hl.2
    rcases hl' with hl' | hl'
    · exact hne (hlabel.symm.trans (Set.mem_singleton_iff.mp hl'.2))
    · exact not_finePath_malformed (hlabel ▸ hl'.2.1)

/-- A status document with these three strings. -/
def docOf (method path cls : Bytes) : NvStatusDoc where
  execSeq := 0
  stamp := 0
  isExcFlag := 0
  recoverMs := 0
  recovered := 0
  ncovDelta := 0
  method := method
  path := path
  cls := cls
  timeout := 0
  httpStatus := 0
  validationReject := false

theorem stateKeys_eq (cfg : NvTargetCfg) :
    stateKeys cfg = joinKey '' (stateLabels cfg ×ˢ {c | c ∈ classLabels}) := by
  ext key
  constructor
  · intro h
    obtain ⟨d, rfl⟩ := h
    have hm := nvCanonMethod_mem (some d.method)
    exact ⟨((nvCanonMethod (some d.method), pathLabel cfg (nvCanonMethod (some d.method)) d.path),
      nvCanonClass (some d.cls)), ⟨⟨hm, d.path, rfl⟩, nvCanonClass_mem (some d.cls)⟩,
      (nvStateKey_eq cfg d).symm⟩
  · intro h
    obtain ⟨⟨⟨m, l⟩, c⟩, ⟨⟨hm, p, hp⟩, hc⟩, rfl⟩ := h
    refine ⟨docOf m p c, ?_⟩
    rw [nvStateKey_eq]
    simp only [docOf, nvCanonMethod_label m hm, nvCanonClass_label c hc]
    rw [hp]

theorem finite_stateLabels (cfg : NvTargetCfg) : (stateLabels cfg).Finite := by
  rw [stateLabels_eq]
  exact ((finite_mem_list _).prod (Set.finite_singleton _)).union
    (((finite_foldingMethods cfg).prod (Set.finite_singleton _)).union (finite_admittedPairs cfg))

theorem finite_stateKeys (cfg : NvTargetCfg) : (stateKeys cfg).Finite := by
  rw [stateKeys_eq]
  exact ((finite_stateLabels cfg).prod (finite_mem_list _)).image _

/-- The exact number of keys of a configuration. -/
theorem stateKeys_ncard (cfg : NvTargetCfg) :
    (stateKeys cfg).ncard =
      (8 + ((admittedPairs cfg).ncard + (foldingMethods cfg).ncard)) * 7 := by
  have hinj : Set.InjOn joinKey (stateLabels cfg ×ˢ {c | c ∈ classLabels}) := by
    intro a ha b hb hab
    exact joinKey_inj ha.1.1 hb.1.1 ha.2 hb.2 hab
  rw [stateKeys_eq, hinj.ncard_image, Set.ncard_prod, stateLabels_ncard, classLabels_ncard]

/-! ## Runs that cannot fill the table -/

/-- An insertion keeps the capacity, and sets `nv_sec_state_saturated` when it
answers that the table is full. -/
theorem nvCovsetInsert_saturated {s : SecState} (hs : TableInv s) (h : UInt64) :
    (nvCovsetInsert s h).2.covCap = s.covCap ∧
      (nvCovsetInsert s h).2.nvSecStateSaturated =
        (s.nvSecStateSaturated || (nvCovsetInsert s h).1 = .saturated) := by
  obtain ⟨t, hslots, hcapt, husedt, hinv, hcap, hstored⟩ := nvCovsetInit_inv hs
  have hflag : (nvCovsetInit s).nvSecStateSaturated = s.nvSecStateSaturated := by
    unfold nvCovsetInit
    split <;> rfl
  rw [← hcap, hcapt, nvCovsetInsert]
  dsimp only
  split_ifs with hsat
  · exact ⟨rfl, by simp [hsat]⟩
  · exact ⟨rfl, by simp [hsat, hflag]⟩

theorem nvRecordObservation_saturated (cfg : NvTargetCfg) (d : NvStatusDoc) {s : SecState}
    (hs : TableInv s) :
    (nvRecordObservation cfg d s).2.covCap = s.covCap ∧
      (nvRecordObservation cfg d s).2.nvSecStateSaturated =
        (s.nvSecStateSaturated ||
          (boundedInsert s.covCap s.stored (nvStateId cfg d)).1 = .saturated) := by
  obtain ⟨err, rec, recMs, hit, hcount⟩ := nvCountDoc_frame d s
  have hstored : (nvCountDoc d s).stored = s.stored := by rw [hcount]; rfl
  have hcap : (nvCountDoc d s).covCap = s.covCap := by rw [hcount]; rfl
  have hflag : (nvCountDoc d s).nvSecStateSaturated = s.nvSecStateSaturated := by rw [hcount]
  have htable : TableInv (nvCountDoc d s) := by rw [hcount]; exact hs
  obtain ⟨-, hanswer, -, -⟩ := nvCovsetInsert_spec htable (nvFnv1a64_ne_zero (nvStateKey cfg d))
  obtain ⟨hcap', hflag'⟩ := nvCovsetInsert_saturated htable (nvFnv1a64 (nvStateKey cfg d))
  rw [hanswer] at hflag'
  rw [hstored, hcap, hflag] at hflag'
  rw [hcap] at hcap'
  rw [nvRecordObservation]
  revert hcap' hflag'
  generalize nvCovsetInsert (nvCountDoc d s) (nvFnv1a64 (nvStateKey cfg d)) = ins
  obtain ⟨r, s'⟩ := ins
  intro hcap' hflag'
  obtain ⟨cnts, credit, hnew, -⟩ := nvCreditNewState_frame r
    { s' with
      nvSecStateObs := s'.nvSecStateObs + 1
      nvSecStateDeltaLast := (nvObsOfDoc d (nvFnv1a64 (nvStateKey cfg d)) (r = .inserted)).newStates }
  dsimp only at hcap' hflag' ⊢
  rw [hnew]
  exact ⟨hcap', hflag'⟩

/-- A state of a run whose table has room for every key of the configuration. -/
structure RoomForKeys (cfg : NvTargetCfg) (s : SecState) : Prop where
  table : TableInv s
  cap : s.covCap = 65536
  stored : (s.stored : Set UInt64) ⊆ nvFnv1a64 '' stateKeys cfg
  saturated : s.nvSecStateSaturated = false

theorem RoomForKeys.init (cfg : NvTargetCfg) : RoomForKeys cfg (SecState.init none) where
  table := rfl
  cap := rfl
  stored := by
    intro h hh
    simp [SecState.init, SecState.stored] at hh
  saturated := rfl

/-- The states that are stored are fewer than the cells of the table. -/
theorem RoomForKeys.card_lt {cfg : NvTargetCfg} {s : SecState} (hs : RoomForKeys cfg s)
    (hroom : (stateKeys cfg).ncard < 65536) : s.stored.card < s.covCap := by
  have hfin := (finite_stateKeys cfg).image nvFnv1a64
  calc s.stored.card
      = (s.stored : Set UInt64).ncard := (Set.ncard_coe_finset _).symm
    _ ≤ (nvFnv1a64 '' stateKeys cfg).ncard := Set.ncard_le_ncard hs.stored hfin
    _ ≤ (stateKeys cfg).ncard := Set.ncard_image_le (finite_stateKeys cfg)
    _ < 65536 := hroom
    _ = s.covCap := hs.cap.symm

/-- A table with room never refuses a state. -/
theorem boundedInsert_ne_saturated {cap : ℕ} {stored : Finset UInt64} (h : UInt64)
    (hroom : stored.card < cap) : (boundedInsert cap stored h).1 ≠ .saturated := by
  rw [boundedInsert]
  split_ifs <;> exact NvCovsetResult.noConfusion

theorem RoomForKeys.step {lib : CLib} {cfg : NvTargetCfg} {s : SecState} (hs : RoomForKeys cfg s)
    (hroom : (stateKeys cfg).ncard < 65536) (e : ObserverEvent) :
    RoomForKeys cfg (observerStep lib cfg s e).2 := by
  cases e with
  | observe w path minimumExecSeq =>
    have hexit := nvObserve_exit lib cfg w path minimumExecSeq s
    rw [observerStep]
    generalize nvObserveSecurityStateOnce lib cfg w path minimumExecSeq s = o at hexit ⊢
    cases hexit with
    | unread fails => exact ⟨hs.table, hs.cap, hs.stored, hs.saturated⟩
    | rejected buf ledgerEnd root replays hfetch hparse hreplays =>
      exact ⟨hs.table, hs.cap, hs.stored, hs.saturated⟩
    | accepted buf ledgerEnd root marks hfetch hparse hbelow hfresh =>
      have htable : TableInv (s.accept marks ledgerEnd) := hs.table
      have hcard : (s.accept marks ledgerEnd).stored.card < (s.accept marks ledgerEnd).covCap :=
        hs.card_lt hroom
      obtain ⟨r, e⟩ := nvRecordObservation_effect cfg (nvParseStatusDoc lib root) htable
      obtain ⟨hcap, hflag⟩ := nvRecordObservation_saturated cfg (nvParseStatusDoc lib root) htable
      refine ⟨e.table, hcap.trans hs.cap, ?_, ?_⟩
      · rw [e.stored, boundedInsert_stored]
        split_ifs
        · rw [Finset.coe_insert]
          exact Set.insert_subset ⟨_, Set.mem_range_self (nvParseStatusDoc lib root), rfl⟩ hs.stored
        · exact hs.stored
      · rw [hflag, decide_eq_false (boundedInsert_ne_saturated _ hcard), Bool.or_false]
        exact hs.saturated
  | setQueueCur q => exact ⟨hs.table, hs.cap, hs.stored, hs.saturated⟩
  | addToQueue => exact ⟨hs.table, hs.cap, hs.stored, hs.saturated⟩

/-- The number of keys a list of `n` rules is meant to give: the known methods
and `INVALID`, one path for each rule, `malformed_path` and `unknown_path`, the
known classes and `other`. -/
def NvTargetCfg.keyBound (cfg : NvTargetCfg) : ℕ := 8 * (cfg.nvAllowPairs.length + 2) * 7

/-- The state space is bounded by the rules: no sequence of documents has more
keys, and a table that is larger is never full. -/
structure BoundedStates (cfg : NvTargetCfg) : Prop where
  keys_le : ∀ docs : List NvStatusDoc, (docs.map (nvStateKey cfg)).toFinset.card ≤ cfg.keyBound
  unsaturated : cfg.keyBound < 65536 → ∀ (lib : CLib) (es : List ObserverEvent),
    (Machine.run (observerStep lib cfg) (SecState.init none) es).nvSecStateSaturated = false

/-- Finitely many documents have all the keys of the configuration. -/
theorem keys_le_iff (cfg : NvTargetCfg) (bound : ℕ) :
    (∀ docs : List NvStatusDoc, (docs.map (nvStateKey cfg)).toFinset.card ≤ bound) ↔
      (stateKeys cfg).ncard ≤ bound := by
  constructor
  · intro h
    have hfin := finite_stateKeys cfg
    have hkeys : hfin.toFinset.toList ∈ Set.range (List.map (nvStateKey cfg)) := by
      rw [Set.range_list_map]
      intro key hkey
      exact hfin.mem_toFinset.mp (Finset.mem_toList.mp hkey)
    obtain ⟨docs, hdocs⟩ := hkeys
    have hle := h docs
    rw [hdocs, Finset.toList_toFinset] at hle
    rw [Set.ncard_eq_toFinset_card _ hfin]
    exact hle
  · intro h docs
    have hsub : (↑(docs.map (nvStateKey cfg)).toFinset : Set Bytes) ⊆ stateKeys cfg := by
      intro key hkey
      rw [Finset.mem_coe, List.mem_toFinset] at hkey
      obtain ⟨d, -, rfl⟩ := List.mem_map.mp hkey
      exact Set.mem_range_self d
    calc (docs.map (nvStateKey cfg)).toFinset.card
        = (↑(docs.map (nvStateKey cfg)).toFinset : Set Bytes).ncard := (Set.ncard_coe_finset _).symm
      _ ≤ (stateKeys cfg).ncard := Set.ncard_le_ncard hsub (finite_stateKeys cfg)
      _ ≤ bound := h

theorem unsaturated_of_room {cfg : NvTargetCfg} (hroom : (stateKeys cfg).ncard < 65536)
    (lib : CLib) (es : List ObserverEvent) :
    (Machine.run (observerStep lib cfg) (SecState.init none) es).nvSecStateSaturated = false :=
  (Machine.run_inv (observerStep lib cfg) (RoomForKeys cfg)
    (fun _ e hs => hs.step hroom e) (RoomForKeys.init cfg) es).saturated

/-- The state space is bounded by the rules exactly when the pairs that the
allowlist lets through, with the methods for which it refuses some path, are at
most eight for each rule and eight more. -/
theorem boundedStates_iff (cfg : NvTargetCfg) :
    BoundedStates cfg ↔
      (admittedPairs cfg).ncard + (foldingMethods cfg).ncard ≤
        8 * cfg.nvAllowPairs.length + 8 := by
  have hcount : (stateKeys cfg).ncard ≤ cfg.keyBound ↔
      (admittedPairs cfg).ncard + (foldingMethods cfg).ncard ≤
        8 * cfg.nvAllowPairs.length + 8 := by
    rw [stateKeys_ncard, NvTargetCfg.keyBound]
    omega
  rw [← hcount, ← keys_le_iff]
  constructor
  · intro h
    exact h.keys_le
  · intro h
    refine ⟨h, ?_⟩
    intro hlt lib es
    have hle := (keys_le_iff cfg cfg.keyBound).mp h
    exact unsaturated_of_room (by omega) lib es

/-! ## Exact rules and prefix rules -/

/-- The rule that admits exactly one pair. -/
def exactRule (l : Bytes × Bytes) : Bytes := l.1 ++ 32 :: l.2

/-- One rule of `nv_is_allowed_pair`. -/
def ruleAdmits (rule method path : Bytes) : Bool :=
  let key := (method ++ [32] ++ path).take 1023
  rule = key || (rule.getLast? = some 42 && rule.dropLast.isPrefixOf key)

theorem nvIsAllowedPair_iff_rule {cfg : NvTargetCfg} (hcfg : cfg.nvTcfgLoaded = true)
    (method path : Bytes) :
    nvIsAllowedPair cfg method path = true ↔
      ∃ rule, some rule ∈ cfg.nvAllowPairs ∧ ruleAdmits rule method path = true := by
  rw [nvIsAllowedPair, hcfg, Bool.not_true, if_neg Bool.false_ne_true, List.any_eq_true]
  constructor
  · intro h
    obtain ⟨rule, hmem, hrule⟩ := h
    cases rule with
    | none => exact absurd hrule Bool.false_ne_true
    | some rule => exact ⟨rule, hmem, hrule⟩
  · intro h
    obtain ⟨rule, hmem, hrule⟩ := h
    exact ⟨some rule, hmem, hrule⟩

/-- The key of a folded method and a printable path is not cut. -/
theorem ruleAdmits_iff {m p : Bytes} (hm : m ∈ methodLabels) (hp : p.length ≤ 200) (rule : Bytes) :
    ruleAdmits rule m p = true ↔
      rule = exactRule (m, p) ∨ rule.getLast? = some 42 ∧ rule.dropLast <+: exactRule (m, p) := by
  have hkey : (m ++ [32] ++ p).take 1023 = exactRule (m, p) := by
    have hml := methodLabels_length_le m hm
    rw [List.take_of_length_le]
    · simp [exactRule]
    · simp only [List.length_append, List.length_cons, List.length_nil]
      omega
  rw [ruleAdmits, hkey]
  simp

/-- A list of exact rules admits at most one pair for each rule. -/
theorem admittedPairs_ncard_le_of_exact {cfg : NvTargetCfg} (hcfg : cfg.nvTcfgLoaded = true)
    (hexact : ∀ rule, some rule ∈ cfg.nvAllowPairs → rule.getLast? ≠ some 42) :
    (admittedPairs cfg).ncard ≤ cfg.nvAllowPairs.length := by
  have hmaps : ∀ l ∈ admittedPairs cfg, some (exactRule l) ∈
      (↑cfg.nvAllowPairs.toFinset : Set (Option Bytes)) := by
    intro l hl
    obtain ⟨rule, hmem, hadmits⟩ := (nvIsAllowedPair_iff_rule hcfg l.1 l.2).mp hl.2.2
    rcases (ruleAdmits_iff hl.1 hl.2.1.length_le rule).mp hadmits with rfl | ⟨hstar, -⟩
    · simpa using hmem
    · exact absurd hstar (hexact rule hmem)
  have hinj : Set.InjOn (fun l => some (exactRule l)) (admittedPairs cfg) := by
    intro l hl l' hl' heq
    obtain ⟨hm, hp⟩ := append_cons_inj_left (methodLabels_blank _ hl.1)
      (methodLabels_blank _ hl'.1) (Option.some.inj heq)
    exact Prod.ext hm hp
  calc (admittedPairs cfg).ncard
      ≤ (↑cfg.nvAllowPairs.toFinset : Set (Option Bytes)).ncard :=
        Set.ncard_le_ncard_of_injOn _ hmaps hinj
    _ = cfg.nvAllowPairs.toFinset.card := Set.ncard_coe_finset _
    _ ≤ cfg.nvAllowPairs.length := List.toFinset_card_le _

/-- A list of exact rules meets the condition of `boundedStates_iff`. -/
theorem pairs_le_of_exact {cfg : NvTargetCfg} (hcfg : cfg.nvTcfgLoaded = true)
    (hexact : ∀ rule, some rule ∈ cfg.nvAllowPairs → rule.getLast? ≠ some 42) :
    (admittedPairs cfg).ncard + (foldingMethods cfg).ncard ≤ 8 * cfg.nvAllowPairs.length + 8 := by
  have hadmitted := admittedPairs_ncard_le_of_exact hcfg hexact
  have hfolding : (foldingMethods cfg).ncard ≤ 8 := by
    have hlabels : foldingMethods cfg ⊆ ↑methodLabels.toFinset := fun m hm => by
      simpa using hm.1
    refine (Set.ncard_le_ncard hlabels).trans ?_
    rw [Set.ncard_coe_finset]
    decide
  omega

/-- A rule `METHOD q*` whose prefix leaves `k` bytes of the longest path free
admits a pair for each word of `k` printable bytes. -/
theorem pow_le_admittedPairs_ncard {cfg : NvTargetCfg} {m q : Bytes} {k : ℕ}
    (hrule : some (exactRule (m, q) ++ [42]) ∈ cfg.nvAllowPairs) (hm : m ∈ methodLabels)
    (hq : FinePath q) (hk : q.length + k ≤ 200) : 95 ^ k ≤ (admittedPairs cfg).ncard := by
  have hcard : (Set.univ : Set (Fin k → Fin 95)).ncard = 95 ^ k := by
    rw [Set.ncard_univ, Nat.card_eq_fintype_card, Fintype.card_fun, Fintype.card_fin,
      Fintype.card_fin]
  let word : (Fin k → Fin 95) → Bytes := fun w => List.ofFn fun i => UInt8.ofNat (32 + (w i).val)
  have hbyte : ∀ n : Fin 95, (UInt8.ofNat (32 + n.val)).toNat = 32 + n.val := by
    intro n
    rw [UInt8.toNat_ofNat', Nat.mod_eq_of_lt]
    omega
  have hfine : ∀ w, FinePath (q ++ word w) := by
    intro w
    obtain ⟨hhead, hlen, hbytes⟩ := (finePath_iff q).mp hq
    refine (finePath_iff _).mpr ⟨?_, ?_, ?_⟩
    · rw [List.head?_append, hhead, Option.some_or]
    · simp only [word, List.length_append, List.length_ofFn]
      exact hk
    · intro ch hch
      rcases List.mem_append.mp hch with hch | hch
      · exact hbytes ch hch
      · obtain ⟨i, rfl⟩ := List.mem_ofFn.mp hch
        rw [UInt8.le_iff_toNat_le, UInt8.le_iff_toNat_le, hbyte]
        have hlt := (w i).isLt
        exact ⟨Nat.le_add_right 32 _, by show _ ≤ 126; omega⟩
  have hallow : ∀ w, nvIsAllowedPair cfg m (q ++ word w) = true := by
    intro w
    by_cases hcfg : cfg.nvTcfgLoaded = true
    · refine (nvIsAllowedPair_iff_rule hcfg m _).mpr ⟨_, hrule, ?_⟩
      refine (ruleAdmits_iff hm (hfine w).length_le _).mpr (.inr ⟨by simp, ?_⟩)
      rw [List.dropLast_concat]
      exact ⟨word w, by simp [exactRule]⟩
    · rw [nvIsAllowedPair, Bool.eq_false_iff.mpr hcfg]
      rfl
  rw [← hcard]
  refine Set.ncard_le_ncard_of_injOn (fun w => (m, q ++ word w))
    (fun w _ => ⟨hm, hfine w, hallow w⟩) ?_ (finite_admittedPairs cfg)
  intro w _ w' _ heq
  have hword : word w = word w' := List.append_cancel_left (Prod.mk.inj heq).2
  funext i
  have hbytes := congrFun (List.ofFn_injective hword) i
  have hnat := congrArg UInt8.toNat hbytes
  rw [hbyte, hbyte] at hnat
  exact Fin.ext (by omega)

/-- The allowlist of one rule with a trailing `*`. -/
def wildcardCfg : NvTargetCfg where
  nvTcfgLoaded := true
  nvAllowPairs := [some (ascii "GET /api/*")]

/-- One rule with a trailing `*` gives more keys than 168. -/
theorem wildcard_unbounded : ¬ BoundedStates wildcardCfg := by
  intro h
  have hle := (keys_le_iff _ _).mp h.keys_le
  have hpow : 95 ^ 2 ≤ (admittedPairs wildcardCfg).ncard :=
    pow_le_admittedPairs_ncard (m := ascii "GET") (q := ascii "/api/")
      (by decide) (by decide) (by decide) (by decide)
  rw [stateKeys_ncard] at hle
  have hbound : wildcardCfg.keyBound = 168 := rfl
  omega

end AflNv
