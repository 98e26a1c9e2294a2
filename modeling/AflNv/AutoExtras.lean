import AflNv.Extras
import AflNv.MultipartSeed
import AflNv.TestcaseCache

/-!
# The automatic dictionary

`maybe_add_auto` (afl-fuzz-extras.c) adds a token that fuzzing came across to `a_extras`, counts a
hit of a token that is there already, or overwrites an entry in the lower half of a full list; then
it sorts the list twice.  `qsort` is a parameter: it may leave the entries in any order.

* `Change` lists what a call can do to the entries, and `maybeAddAuto_change` says that it does
  nothing else.
* `Inv` is what the list holds: distinct tokens up to ASCII case, none of them in `extras`, and at
  most `MAX_AUTO_EXTRAS` of them.  `run_inv` carries it through any sequence of calls.
-/

namespace AflNv.AutoExtras

open AflNv.Extras

/-- `MAX_AUTO_EXTRA` -/
def maxAutoExtra : ℕ := 32

/-- `USE_AUTO_EXTRAS` -/
def useAutoExtras : ℕ := 4096

/-- `MAX_AUTO_EXTRAS` -/
def maxAutoExtras : ℕ := useAutoExtras * 8

/-- `struct auto_extra_data`, with the first `len` bytes of its buffer. -/
structure AutoExtra where
  data : Bytes
  hitCnt : UInt32
  deriving DecidableEq

def AutoExtra.len (e : AutoExtra) : ℕ := e.data.length

/-- The dictionaries. -/
structure AutoDict where
  extras : List ExtraData
  aExtras : List AutoExtra
  autoChanged : Bool

/-- `qsort` of the C library, with the comparison as its first argument. -/
structure QSort where
  sort : {α : Type} → (α → α → ℤ) → List α → List α
  perm : ∀ {α : Type} (compare : α → α → ℤ) (l : List α), (sort compare l).Perm l

/-- A `u32` difference that is returned as an `int`. -/
def differenceInt (a b : UInt32) : ℤ := (a - b).toInt32.toInt

/-- `compare_auto_extras_use_d` -/
def compareAutoExtrasUseD (a b : AutoExtra) : ℤ := differenceInt b.hitCnt a.hitCnt

/-- `compare_auto_extras_len` -/
def compareAutoExtrasLen (a b : AutoExtra) : ℤ :=
  differenceInt (UInt32.ofNat a.len) (UInt32.ofNat b.len)

/-! ## The filters -/

/-- `memcmp_nocase(m1, m2, len)`: the bytes differ in more than their case. -/
def memcmpNocase : Bytes → Bytes → ℕ → Bool
  | b₁ :: m₁, b₂ :: m₂, len + 1 =>
    if tolower b₁ ^^^ tolower b₂ ≠ 0 then true else memcmpNocase m₁ m₂ len
  | _, _, _ => false

/-- Where the search for a byte other than the first one stops; it starts at index 1. -/
def runStop (mem : Bytes) : ℕ := 1 + (mem.tail.takeWhile fun b => mem.head? = some b).length

/-- `INTERESTING_8` -/
def interesting8 : List ℤ := [-128, -1, 0, 1, 16, 32, 64, 100, 127]

/-- `interesting_16` -/
def interesting16 : List ℤ :=
  interesting8 ++ [-32768, -129, 128, 255, 256, 512, 1000, 1024, 4096, 32767]

/-- `interesting_32` -/
def interesting32 : List ℤ :=
  interesting16 ++ [-2147483648, -100663046, -32769, 32768, 65535, 65536, 100663045, 2139095040,
    2147483647]

/-- `SWAP16` -/
def swap16 (x : UInt16) : UInt16 := (x <<< 8) ||| (x >>> 8)

/-- `SWAP32` -/
def swap32 (x : UInt32) : UInt32 :=
  (x <<< 24) ||| (x >>> 24) ||| ((x <<< 8) &&& (0x00FF0000 : UInt32)) |||
    ((x >>> 8) &&& (0x0000FF00 : UInt32))

/-- The number that the bytes hold, little endian. -/
def wordAt (mem : Bytes) : ℕ := mem.foldr (fun b n => b.toNat + 256 * n) 0

/-- The two comparisons with a builtin value.  A `u16` is compared with an `s16` as an `int`, so a
negative value is only found with its bytes swapped. -/
def isInteresting (mem : Bytes) : Bool :=
  if mem.length = 2 then
    interesting16.any fun x =>
      decide ((wordAt mem : ℤ) = x ∨ wordAt mem = (swap16 (UInt16.ofInt x)).toNat)
  else if mem.length = 4 then
    interesting32.any fun x =>
      decide (wordAt mem = (UInt32.ofInt x).toNat ∨ wordAt mem = (swap32 (UInt32.ofInt x)).toNat)
  else false

/-- The search in `extras`, from the first entry that is long enough through those that are as long
as the token. -/
def inExtras (extras : List ExtraData) (mem : Bytes) : Bool :=
  ((extras.dropWhile fun e => decide (e.len < mem.length)).takeWhile
    fun e => decide (e.len = mem.length)).any fun e => !memcmpNocase e.data mem mem.length

/-- The call returns before it comes to `a_extras`. -/
def rejects (extras : List ExtraData) (mem : Bytes) : Bool :=
  decide (runStop mem = mem.length ∨ maxAutoExtra < mem.length) || isInteresting mem ||
    inExtras extras mem

/-! ## The call -/

/-- The entry is the token, up to case. -/
def matchesToken (mem : Bytes) (e : AutoExtra) : Bool :=
  decide (e.len = mem.length) && !memcmpNocase e.data mem mem.length

def AutoExtra.hit (e : AutoExtra) : AutoExtra := { e with hitCnt := e.hitCnt + 1 }

/-- The entry that an eviction overwrites, with the number that `rand_below` draws. -/
def evictedIndex (drawn : ℕ) : ℕ :=
  maxAutoExtras / 2 + TestcaseCache.randBelow ((maxAutoExtras + 1) / 2) drawn

/-- Count the hit, append the token, or overwrite an entry. -/
def updateEntries (aExtras : List AutoExtra) (mem : Bytes) (drawn : ℕ) : List AutoExtra :=
  match aExtras.findIdx? (matchesToken mem) with
  | some i => aExtras.modify i AutoExtra.hit
  | none =>
    if aExtras.length < maxAutoExtras then aExtras ++ [⟨mem, 0⟩]
    else aExtras.set (evictedIndex drawn) ⟨mem, 0⟩

/-- `sort_a_extras`: by use, then the first `USE_AUTO_EXTRAS` by length. -/
def sortAExtras (lib : QSort) (aExtras : List AutoExtra) : List AutoExtra :=
  let byUse := lib.sort compareAutoExtrasUseD aExtras
  let used := min useAutoExtras byUse.length
  lib.sort compareAutoExtrasLen (byUse.take used) ++ byUse.drop used

/-- `maybe_add_auto(afl, mem, len)`, where `mem` holds `len` bytes. -/
def maybeAddAuto (lib : QSort) (d : AutoDict) (mem : Bytes) (drawn : ℕ) : AutoDict :=
  if rejects d.extras mem then d
  else
    { d with
      autoChanged := true
      aExtras := sortAExtras lib (updateEntries d.aExtras mem drawn) }

/-- A sequence of calls, each with its token and the number that is drawn if one is needed. -/
def run (lib : QSort) (d : AutoDict) (calls : List (Bytes × ℕ)) : AutoDict :=
  calls.foldl (fun d c => maybeAddAuto lib d c.1 c.2) d

/-! ## Equal up to case -/

/-- Equal but for the case of ASCII letters. -/
def SameNocase (a b : Bytes) : Prop := a.map tolower = b.map tolower

theorem memcmpNocase_eq_false {a b : Bytes} (h : a.length = b.length) :
    memcmpNocase a b b.length = false ↔ SameNocase a b := by
  unfold SameNocase
  induction a generalizing b with
  | nil =>
    obtain rfl := List.length_eq_zero_iff.mp h.symm
    simp [memcmpNocase]
  | cons x a ih =>
    cases b with
    | nil => simp at h
    | cons y b =>
      have hx : tolower x ^^^ tolower y = 0 ↔ tolower x = tolower y := UInt8.xor_eq_zero_iff
      rw [List.length_cons, memcmpNocase, List.map_cons, List.map_cons, List.cons.injEq]
      split_ifs with hne
      · simp only [false_iff, not_and]
        exact fun he => absurd (hx.mpr he) hne
      · rw [ih (by simpa using h)]
        exact ⟨fun he => ⟨hx.mp (not_not.mp hne), he⟩, And.right⟩

theorem matchesToken_iff {mem : Bytes} {e : AutoExtra} :
    matchesToken mem e = true ↔ SameNocase e.data mem := by
  unfold matchesToken AutoExtra.len
  by_cases hlen : e.data.length = mem.length
  · simp only [hlen, decide_true, Bool.true_and, Bool.not_eq_true']
    exact memcmpNocase_eq_false hlen
  · simp only [hlen, decide_false, Bool.false_and, Bool.false_eq_true, false_iff]
    intro h
    have := congrArg List.length h
    simp only [List.length_map] at this
    exact hlen this

theorem SameNocase.symm {a b : Bytes} (h : SameNocase a b) : SameNocase b a := Eq.symm h

theorem SameNocase.trans {a b c : Bytes} (h : SameNocase a b) (h' : SameNocase b c) :
    SameNocase a c := Eq.trans h h'

/-! ## The search in extras -/

/-- Among entries that are at least `n` long, those of length `n` come first. -/
theorem mem_takeWhile_len {extras : List ExtraData} (hsorted : SortedByLen extras) {n : ℕ}
    (hle : ∀ e ∈ extras, n ≤ e.len) (e : ExtraData) :
    e ∈ extras.takeWhile (fun e => decide (e.len = n)) ↔ e ∈ extras ∧ e.len = n := by
  induction extras with
  | nil => simp
  | cons f rest ih =>
    obtain ⟨hfirst, hrest⟩ := List.pairwise_cons.mp hsorted
    by_cases hf : f.len = n
    · rw [List.takeWhile_cons_of_pos (by simpa using hf), List.mem_cons, List.mem_cons,
        ih hrest fun e he => hle e (List.mem_cons_of_mem _ he)]
      constructor
      · rintro (rfl | ⟨he, hn⟩)
        · exact ⟨.inl rfl, hf⟩
        · exact ⟨.inr he, hn⟩
      · rintro ⟨rfl | he, hn⟩
        · exact .inl rfl
        · exact .inr ⟨he, hn⟩
    · rw [List.takeWhile_cons_of_neg (by simpa using hf)]
      have hlt : n < f.len := lt_of_le_of_ne (hle f List.mem_cons_self) (Ne.symm hf)
      constructor
      · intro h
        exact absurd h List.not_mem_nil
      · rintro ⟨he, hn⟩
        rcases List.mem_cons.mp he with rfl | he
        · exact absurd hn hf
        · have := hfirst e he
          omega

/-- The loop meets exactly the entries that are as long as the token. -/
theorem mem_candidates {extras : List ExtraData} (hsorted : SortedByLen extras) (n : ℕ)
    (e : ExtraData) :
    e ∈ (extras.dropWhile fun e => decide (e.len < n)).takeWhile (fun e => decide (e.len = n)) ↔
      e ∈ extras ∧ e.len = n := by
  induction extras with
  | nil => simp
  | cons f rest ih =>
    obtain ⟨hfirst, hrest⟩ := List.pairwise_cons.mp hsorted
    by_cases hf : f.len < n
    · rw [List.dropWhile_cons_of_pos (by simpa using hf), ih hrest, List.mem_cons]
      refine and_congr_left fun hn => ⟨.inr, ?_⟩
      rintro (rfl | he)
      · omega
      · exact he
    · rw [List.dropWhile_cons_of_neg (by simpa using hf)]
      apply mem_takeWhile_len hsorted
      intro e he
      rcases List.mem_cons.mp he with rfl | he
      · exact not_lt.mp hf
      · have := hfirst e he
        omega

theorem inExtras_iff {extras : List ExtraData} (hsorted : SortedByLen extras) (mem : Bytes) :
    inExtras extras mem = true ↔ ∃ e ∈ extras, SameNocase e.data mem := by
  rw [inExtras, List.any_eq_true]
  constructor
  · rintro ⟨e, he, hsame⟩
    obtain ⟨hmem, hlen⟩ := (mem_candidates hsorted _ e).mp he
    rw [Bool.not_eq_true'] at hsame
    exact ⟨e, hmem, (memcmpNocase_eq_false hlen).mp hsame⟩
  · rintro ⟨e, hmem, hsame⟩
    have hlen : e.data.length = mem.length := by
      have := congrArg List.length hsame
      rwa [List.length_map, List.length_map] at this
    refine ⟨e, (mem_candidates hsorted _ e).mpr ⟨hmem, hlen⟩, ?_⟩
    rw [Bool.not_eq_true']
    exact (memcmpNocase_eq_false hlen).mpr hsame

/-! ## What a call changes -/

/-- The entry after a call that found `mem` in it, if it did. -/
def hitIf (mem : Bytes) (e : AutoExtra) : AutoExtra :=
  if matchesToken mem e then e.hit else e

theorem sortAExtras_perm (lib : QSort) (aExtras : List AutoExtra) :
    (sortAExtras lib aExtras).Perm aExtras := by
  unfold sortAExtras
  generalize hbyUse : lib.sort compareAutoExtrasUseD aExtras = byUse
  have hperm : byUse.Perm aExtras := hbyUse ▸ lib.perm _ _
  have hused := (lib.perm compareAutoExtrasLen (byUse.take (min useAutoExtras byUse.length)))
  have hall := hused.append_right (byUse.drop (min useAutoExtras byUse.length))
  rw [List.take_append_drop] at hall
  exact hall.trans hperm

theorem useAutoExtras_le_evictedIndex (drawn : ℕ) : useAutoExtras ≤ evictedIndex drawn := by
  have : useAutoExtras ≤ maxAutoExtras / 2 := by decide
  unfold evictedIndex
  omega

theorem evictedIndex_lt (drawn : ℕ) : evictedIndex drawn < maxAutoExtras := by
  have hlimit : (maxAutoExtras + 1) / 2 = 16384 := by decide
  have hmax : maxAutoExtras = 32768 := by decide
  have hdraw := Nat.mod_lt drawn (show 0 < 16384 by decide)
  rw [evictedIndex, TestcaseCache.randBelow, hlimit, hmax, if_neg (by decide)]
  omega

/-- What the update makes of a list that holds every token once. -/
theorem updateEntries_cases {aExtras : List AutoExtra} (mem : Bytes) (drawn : ℕ)
    (hdistinct : aExtras.Pairwise fun a b => ¬ SameNocase a.data b.data) :
    ((∃ e ∈ aExtras, SameNocase e.data mem) ∧
        updateEntries aExtras mem drawn = aExtras.map (hitIf mem)) ∨
      ((∀ e ∈ aExtras, ¬ SameNocase e.data mem) ∧ aExtras.length < maxAutoExtras ∧
        updateEntries aExtras mem drawn = aExtras ++ [⟨mem, 0⟩]) ∨
      ((∀ e ∈ aExtras, ¬ SameNocase e.data mem) ∧ maxAutoExtras ≤ aExtras.length ∧
        updateEntries aExtras mem drawn = aExtras.set (evictedIndex drawn) ⟨mem, 0⟩) := by
  unfold updateEntries
  cases hfind : aExtras.findIdx? (matchesToken mem) with
  | some i =>
    obtain ⟨hi, hmatch, -⟩ := List.findIdx?_eq_some_iff_getElem.mp hfind
    refine .inl ⟨⟨aExtras[i], List.getElem_mem hi, matchesToken_iff.mp hmatch⟩, ?_⟩
    apply List.ext_getElem (by simp)
    intro j hj hj'
    rw [List.length_map] at hj'
    rw [List.getElem_modify, List.getElem_map, hitIf]
    split_ifs with hij hother hother
    · rfl
    · subst hij
      exact absurd hmatch hother
    · -- two entries would hold one token
      have hsame := (matchesToken_iff.mp hmatch).trans (matchesToken_iff.mp hother).symm
      rcases Nat.lt_or_gt_of_ne hij with hlt | hgt
      · exact absurd hsame (List.pairwise_iff_getElem.mp hdistinct i j hi hj' hlt)
      · exact absurd hsame.symm (List.pairwise_iff_getElem.mp hdistinct j i hj' hi hgt)
    · rfl
  | none =>
    have hnew : ∀ e ∈ aExtras, ¬ SameNocase e.data mem := fun e he hsame =>
      absurd (matchesToken_iff.mpr hsame)
        (by simpa using List.findIdx?_eq_none_iff.mp hfind e he)
    right
    dsimp only
    split_ifs with hroom
    · exact .inl ⟨hnew, hroom, rfl⟩
    · exact .inr ⟨hnew, not_lt.mp hroom, rfl⟩

/-! ## What the list holds -/

/-- The entries of the list. -/
structure Inv (d : AutoDict) : Prop where
  distinct : d.aExtras.Pairwise fun a b => ¬ SameNocase a.data b.data
  accepted : ∀ a ∈ d.aExtras, rejects d.extras a.data = false
  length_le : d.aExtras.length ≤ maxAutoExtras

theorem inv_nil (extras : List ExtraData) (changed : Bool) : Inv ⟨extras, [], changed⟩ where
  distinct := List.Pairwise.nil
  accepted := by simp
  length_le := Nat.zero_le _

theorem data_hitIf (mem : Bytes) (e : AutoExtra) : (hitIf mem e).data = e.data := by
  unfold hitIf
  split_ifs <;> rfl

theorem maybeAddAuto_of_accepts (lib : QSort) {d : AutoDict} {mem : Bytes}
    (h : rejects d.extras mem = false) (drawn : ℕ) :
    (maybeAddAuto lib d mem drawn).extras = d.extras ∧
      (maybeAddAuto lib d mem drawn).aExtras.Perm (updateEntries d.aExtras mem drawn) := by
  rw [maybeAddAuto, if_neg (by rw [h]; exact Bool.false_ne_true)]
  exact ⟨rfl, sortAExtras_perm lib _⟩

theorem maybeAddAuto_extras (lib : QSort) (d : AutoDict) (mem : Bytes) (drawn : ℕ) :
    (maybeAddAuto lib d mem drawn).extras = d.extras := by
  unfold maybeAddAuto
  split_ifs <;> rfl

theorem distinct_symm {a b : AutoExtra} (h : ¬ SameNocase a.data b.data) :
    ¬ SameNocase b.data a.data := fun hsame => h hsame.symm

/-- The tokens stay distinct when a new one is put anywhere. -/
theorem updateEntries_inv {d : AutoDict} (h : Inv d) {mem : Bytes}
    (haccept : rejects d.extras mem = false) (drawn : ℕ) :
    Inv { d with aExtras := updateEntries d.aExtras mem drawn } := by
  rcases updateEntries_cases mem drawn h.distinct with ⟨-, heq⟩ | ⟨hnew, hroom, heq⟩ | ⟨hnew, hfull, heq⟩
  · refine ⟨?_, ?_, ?_⟩ <;> dsimp only <;> rw [heq]
    · simp only [List.pairwise_map, data_hitIf]
      exact h.distinct
    · intro a ha
      obtain ⟨e, he, rfl⟩ := List.mem_map.mp ha
      rw [data_hitIf]
      exact h.accepted e he
    · rw [List.length_map]
      exact h.length_le
  · refine ⟨?_, ?_, ?_⟩ <;> dsimp only <;> rw [heq]
    · rw [List.pairwise_append]
      refine ⟨h.distinct, List.pairwise_singleton _ _, fun a ha b hb => ?_⟩
      obtain rfl := List.mem_singleton.mp hb
      exact hnew a ha
    · intro a ha
      rcases List.mem_append.mp ha with ha | ha
      · exact h.accepted a ha
      · obtain rfl := List.mem_singleton.mp ha
        exact haccept
    · rw [List.length_append, List.length_singleton]
      exact hroom
  · have hlt : evictedIndex drawn < d.aExtras.length :=
      Nat.lt_of_lt_of_le (evictedIndex_lt drawn) hfull
    have hperm := List.set_perm_cons_eraseIdx hlt (⟨mem, 0⟩ : AutoExtra)
    have hsub := List.eraseIdx_sublist d.aExtras (evictedIndex drawn)
    refine ⟨?_, ?_, ?_⟩ <;> dsimp only <;> rw [heq]
    · rw [hperm.pairwise_iff distinct_symm, List.pairwise_cons]
      exact ⟨fun a ha hsame => hnew a (hsub.subset ha) hsame.symm, h.distinct.sublist hsub⟩
    · intro a ha
      rcases List.mem_cons.mp (hperm.subset ha) with rfl | ha
      · exact haccept
      · exact h.accepted a (hsub.subset ha)
    · rw [List.length_set]
      exact h.length_le

theorem maybeAddAuto_inv (lib : QSort) {d : AutoDict} (h : Inv d) (mem : Bytes) (drawn : ℕ) :
    Inv (maybeAddAuto lib d mem drawn) := by
  cases hreject : rejects d.extras mem with
  | true =>
    rw [maybeAddAuto, if_pos hreject]
    exact h
  | false =>
    obtain ⟨hextras, hperm⟩ := maybeAddAuto_of_accepts lib hreject drawn
    have hinv := updateEntries_inv h hreject drawn
    refine ⟨?_, ?_, ?_⟩
    · rw [hperm.pairwise_iff distinct_symm]
      exact hinv.distinct
    · intro a ha
      rw [hextras]
      exact hinv.accepted a (hperm.subset ha)
    · rw [hperm.length_eq]
      exact hinv.length_le

theorem run_inv (lib : QSort) {d : AutoDict} (h : Inv d) (calls : List (Bytes × ℕ)) :
    Inv (run lib d calls) ∧ (run lib d calls).extras = d.extras := by
  induction calls generalizing d with
  | nil => exact ⟨h, rfl⟩
  | cons c calls ih =>
    obtain ⟨hinv, hextras⟩ := ih (maybeAddAuto_inv lib h c.1 c.2)
    exact ⟨hinv, hextras.trans (maybeAddAuto_extras lib d c.1 c.2)⟩

/-- The dictionary holds no token twice, and a call counts the hit of a known token, leaves the
entries that fuzzing uses when it evicts one, and does nothing else to the list. -/
structure Sound (lib : QSort) (d : AutoDict) : Prop where
  distinct : d.aExtras.Pairwise fun a b => ¬ SameNocase a.data b.data
  apart : ∀ a ∈ d.aExtras, ∀ e ∈ d.extras, ¬ SameNocase e.data a.data
  length_le : d.aExtras.length ≤ maxAutoExtras
  known : ∀ mem drawn, (∃ a ∈ d.aExtras, SameNocase a.data mem) →
    maybeAddAuto lib d mem drawn = d ∨
      (maybeAddAuto lib d mem drawn).aExtras.Perm (d.aExtras.map (hitIf mem))
  readded : ∀ a ∈ d.aExtras, ∀ drawn,
    (maybeAddAuto lib d a.data drawn).aExtras.Perm (d.aExtras.map (hitIf a.data))
  evicted : ∀ mem drawn, rejects d.extras mem = false →
    (∀ a ∈ d.aExtras, ¬ SameNocase a.data mem) → d.aExtras.length = maxAutoExtras →
    ∃ i, min useAutoExtras d.aExtras.length ≤ i ∧ i < d.aExtras.length ∧
      (maybeAddAuto lib d mem drawn).aExtras.Perm (d.aExtras.set i ⟨mem, 0⟩)

/-- A token that matches an entry and is accepted counts a hit. -/
theorem maybeAddAuto_known (lib : QSort) {d : AutoDict} (h : Inv d) {mem : Bytes} (drawn : ℕ)
    (haccept : rejects d.extras mem = false) (hknown : ∃ a ∈ d.aExtras, SameNocase a.data mem) :
    (maybeAddAuto lib d mem drawn).aExtras.Perm (d.aExtras.map (hitIf mem)) := by
  have hperm := (maybeAddAuto_of_accepts lib haccept drawn).2
  obtain ⟨a, ha, hsame⟩ := hknown
  rcases updateEntries_cases mem drawn h.distinct with ⟨-, heq⟩ | ⟨hnew, -⟩ | ⟨hnew, -⟩
  · rwa [heq] at hperm
  · exact absurd hsame (hnew a ha)
  · exact absurd hsame (hnew a ha)

theorem Inv.sound (lib : QSort) {d : AutoDict} (h : Inv d) (hsorted : SortedByLen d.extras) :
    Sound lib d where
  distinct := h.distinct
  apart := by
    intro a ha e he hsame
    have hfound := (inExtras_iff hsorted a.data).mpr ⟨e, he, hsame⟩
    have haccept := h.accepted a ha
    rw [rejects, hfound, Bool.or_true] at haccept
    exact Bool.false_ne_true haccept.symm
  length_le := h.length_le
  known := by
    intro mem drawn hknown
    cases hreject : rejects d.extras mem with
    | true => exact .inl (by rw [maybeAddAuto, if_pos hreject])
    | false => exact .inr (maybeAddAuto_known lib h drawn hreject hknown)
  readded := fun a ha drawn =>
    maybeAddAuto_known lib h drawn (h.accepted a ha) ⟨a, ha, rfl⟩
  evicted := by
    intro mem drawn haccept hnew hfull
    have hperm := (maybeAddAuto_of_accepts lib haccept drawn).2
    have hlt := evictedIndex_lt drawn
    refine ⟨evictedIndex drawn, ?_, by omega, ?_⟩
    · exact (Nat.min_le_left _ _).trans (useAutoExtras_le_evictedIndex drawn)
    · rcases updateEntries_cases mem drawn h.distinct with ⟨⟨a, ha, hsame⟩, -⟩ | ⟨-, hroom, -⟩ |
        ⟨-, -, heq⟩
      · exact absurd hsame (hnew a ha)
      · omega
      · rwa [heq] at hperm

/-- After any sequence of calls the dictionary is sound. -/
theorem autoDict_sound (lib : QSort) {extras : List ExtraData} (hsorted : SortedByLen extras)
    (changed : Bool) (calls : List (Bytes × ℕ)) :
    Sound lib (run lib ⟨extras, [], changed⟩ calls) := by
  obtain ⟨hinv, hextras⟩ := run_inv lib (inv_nil extras changed) calls
  exact hinv.sound lib (hextras.symm ▸ hsorted)

/-- A stable sort. -/
def mergeSort : QSort where
  sort := fun compare l => l.mergeSort fun a b => decide (compare a b ≤ 0)
  perm := fun _ l => List.mergeSort_perm l _

theorem autoDict_sound_calls :
    Sound mergeSort (run mergeSort ⟨[⟨[1], 0⟩, ⟨[65, 66, 67], 0⟩], [], false⟩
      [([97, 98, 99], 0), ([97, 98, 100], 5), ([97, 66, 100], 7)]) :=
  autoDict_sound mergeSort (by decide) false _

/-! ## The hit counter -/

theorem run_concat (lib : QSort) (d : AutoDict) (calls : List (Bytes × ℕ)) (c : Bytes × ℕ) :
    run lib d (calls ++ [c]) = maybeAddAuto lib (run lib d calls) c.1 c.2 := by
  rw [run, List.foldl_append]
  rfl

/-- The counter of a token that is added again and again. -/
theorem aExtras_replicate (lib : QSort) {mem : Bytes} (haccept : rejects [] mem = false) (n : ℕ) :
    (run lib ⟨[], [], false⟩ (List.replicate (n + 1) (mem, 0))).aExtras =
      [⟨mem, UInt32.ofNat n⟩] := by
  induction n with
  | zero => exact List.perm_singleton.mp (maybeAddAuto_of_accepts lib haccept 0).2
  | succ n ih =>
    rw [List.replicate_succ', run_concat]
    generalize hd : run lib ⟨[], [], false⟩ (List.replicate (n + 1) (mem, 0)) = d at ih ⊢
    have hextras : d.extras = [] := hd ▸ (run_inv lib (inv_nil [] false) _).2
    have haccept' : rejects d.extras mem = false := by rwa [hextras]
    have hupdate : updateEntries d.aExtras mem 0 = [⟨mem, UInt32.ofNat (n + 1)⟩] := by
      have hmatch : matchesToken mem ⟨mem, UInt32.ofNat n⟩ = true := matchesToken_iff.mpr rfl
      rw [ih, updateEntries, List.findIdx?_cons, hmatch, if_pos rfl]
      simp [AutoExtra.hit, UInt32.ofNat_add]
    have hstep := (maybeAddAuto_of_accepts lib haccept' 0).2
    rw [hupdate] at hstep
    exact List.perm_singleton.mp hstep

/-- The hit that overflows the counter of a token. -/
theorem hit_lowers_count :
    ∃ (calls : List (Bytes × ℕ)) (e e' : AutoExtra),
      (run mergeSort ⟨[], [], false⟩ calls).aExtras = [e] ∧
        (maybeAddAuto mergeSort (run mergeSort ⟨[], [], false⟩ calls) e.data 0).aExtras = [e'] ∧
          e'.hitCnt < e.hitCnt := by
  have haccept : rejects [] [97, 98, 99] = false := by decide
  obtain ⟨n, hn⟩ : ∃ n, UInt32.ofNat (n + 1) < UInt32.ofNat n := ⟨4294967295, by decide⟩
  refine ⟨List.replicate (n + 1) ([97, 98, 99], 0), ⟨[97, 98, 99], UInt32.ofNat n⟩,
    ⟨[97, 98, 99], UInt32.ofNat (n + 1)⟩, aExtras_replicate mergeSort haccept n, ?_, hn⟩
  have hnext := aExtras_replicate mergeSort haccept (n + 1)
  rwa [List.replicate_succ', run_concat] at hnext

end AflNv.AutoExtras
