import AflNv.AutoExtras
import AflNv.DictFile
import AflNv.Lib.Lanes

/-!
# Loading the dictionaries

The target sends its own tokens to `afl_fsrv_start` (afl-forkserver.c), which hands them to
`add_extra`.  Then `main` (afl-fuzz.c) calls `load_extras` for every `-x` argument, and after that
`deunicode_extras` and `dedup_extras` (afl-fuzz-extras.c).  An argument names a file, which may
carry a level behind an `@`, or a directory with one token a file.  `deunicode_extras` adds the
plain text of tokens that look like UTF-16 or UTF-32.

* `mem_readings_iff` says which texts without a zero byte `deunicode_extras` finds in a token.
* `loadDictionary_spec` says which tokens the fuzzer starts with.
-/

namespace AflNv.DictLoad

open AflNv.Lib.Lanes AflNv.Extras AflNv.AutoExtras AflNv.DictFile

/-! ## `load_extras` -/

/-- `compare_extras_len` -/
def compareExtrasLen (a b : ExtraData) : ℤ :=
  differenceInt (UInt32.ofNat a.len) (UInt32.ofNat b.len)

/-- `qsort`, which sorts entries whose lengths fit into an `int`. -/
structure LenSort extends QSort where
  sorted : ∀ extras : List ExtraData, (∀ e ∈ extras, e.len < 2 ^ 31) →
    SortedByLen (sort compareExtrasLen extras)

/-- An entry that `readdir` returns. -/
inductive DirEntry
  | unreadable
  /-- Not a regular file. -/
  | other
  | regular (content : Bytes)

/-- What stands at a path. -/
inductive Node
  | file (content : Bytes)
  | dir (entries : List DirEntry)

inductive Fatal
  | unableToOpen (path : Bytes)
  | unableToAccess
  | levelsNotSupported
  deriving DecidableEq

/-- The path before the first `@`, and the level behind it. -/
def splitLevel (arg : Bytes) : Bytes × Option ℤ :=
  (arg.takeWhile (· ≠ 64), match arg.dropWhile (· ≠ 64) with
    | [] => none
    | _ :: level => some (atoi level))

/-- The tokens of a directory. -/
def dirTokens : List DirEntry → Except Fatal (List Bytes)
  | [] => .ok []
  | .unreadable :: _ => .error .unableToAccess
  | .other :: entries => dirTokens entries
  | .regular content :: entries =>
    (dirTokens entries).map fun tokens =>
      if content = [] ∨ maxDictFile < content.length then tokens else content :: tokens

/-- The tokens that one call of `load_extras` adds. -/
def loadTokens (fs : Bytes → Option Node) (arg : Bytes) : Except Fatal (List Bytes) :=
  match fs (splitLevel arg).1 with
  | none => .error (.unableToOpen (splitLevel arg).1)
  | some (.file content) => .ok (loadExtrasFile ((splitLevel arg).2.getD 0) content).tokens
  | some (.dir entries) =>
    if (splitLevel arg).2.isSome then .error .levelsNotSupported
    else dirTokens entries

section Calls

variable (lib : LenSort) (hit : ℕ → UInt32)

/-- `add_extra_nocheck`; `hit` is what the memory behind the entries holds as their `hit_cnt`. -/
def addExtraNocheck (extras : List ExtraData) (mem : Bytes) : List ExtraData :=
  extras ++ [⟨mem, hit extras.length⟩]

/-- The loop of `add_extra`: the entries of one length stand together, and it stops behind them. -/
def hasExtra (mem : Bytes) : List ExtraData → Bool → Bool
  | [], _ => false
  | e :: extras, found =>
    if e.len = mem.length then if e.data = mem then true else hasExtra mem extras true
    else if found then false else hasExtra mem extras found

/-- `add_extra` -/
def addExtra (extras : List ExtraData) (mem : Bytes) : List ExtraData :=
  if hasExtra mem extras false || maxDictFile < mem.length then extras
  else lib.sort compareExtrasLen (addExtraNocheck hit extras mem)

/-- The tokens that `afl_fsrv_start` finds in the dictionary of the target: a byte with the length
stands before each, and what is cut off is left out. -/
def autodictTokens : Bytes → List Bytes
  | [] => []
  | n :: dict =>
    if n.toNat ≤ dict.length then dict.take n.toNat :: autodictTokens (dict.drop n.toNat) else []
termination_by dict => dict.length
decreasing_by
  rw [List.length_drop, List.length_cons]
  omega

/-- `load_extras`, with the sort of `extras_check_and_sort`. -/
def loadExtras (fs : Bytes → Option Node) (extras : List ExtraData) (arg : Bytes) :
    Except Fatal (List ExtraData) :=
  (loadTokens fs arg).map fun tokens =>
    let extras := tokens.foldl (addExtraNocheck hit) extras
    if extras = [] then extras else lib.sort compareExtrasLen extras

/-! ## `deunicode_extras` -/

/-- The counters of zero bytes. -/
structure Zeros where
  z1 : ℕ
  z2 : ℕ
  z3 : ℕ
  z4 : ℕ

/-- The loop over `data` from the index `j` on. -/
def countZeros : ℕ → Bytes → Zeros → Zeros
  | _, [], z => z
  | j, b :: data, z =>
    if b ≠ 0 then countZeros (j + 1) data z
    else countZeros (j + 1) data
      (match j % 4 with
      | 0 => { z with z1 := z.z1 + 1 }
      | 1 => { z with z2 := z.z2 + 1 }
      | 2 => { z with z3 := z.z3 + 1, z1 := z.z1 + 1 }
      | _ => { z with z4 := z.z4 + 1, z2 := z.z2 + 1 })

/-- Which byte of four `deunicode_extras` copies. -/
def wideLane (z : Zeros) (half quarter : ℕ) : ℕ :=
  if z.z4 < quarter then 3 else if z.z3 < quarter then 2 else if z.z2 < half then 1 else 0

/-- What one entry adds. -/
def readings (data : Bytes) : List Bytes :=
  let half := data.length / 2
  let quarter := half / 2
  let z := countZeros 0 data ⟨0, 0, 0, 0⟩
  if data.length < 6 ∨ 64 < data.length ∨ data.length % 2 ≠ 0 then []
  else if (z.z1 < half ∧ z.z2 < half) ∨ z.z1 + z.z2 = data.length then []
  else
    (if data.length % 4 = 0 ∧ 12 ≤ data.length ∧ (z.z3 = quarter ∨ z.z4 = quarter) ∧
        z.z1 + z.z2 = quarter * 3 then
      [lane 4 (wideLane z half quarter) data]
    else []) ++ [lane 2 (if z.z1 < half then 0 else 1) data]

/-- `deunicode_extras` -/
def deunicodeExtras (extras : List ExtraData) : List ExtraData :=
  if extras = [] then extras
  else lib.sort compareExtrasLen
    ((extras.flatMap fun e => readings e.data).foldl (addExtraNocheck hit) extras)

/-- The dictionary that `main` starts the fuzzer with, from the dictionary `dict` of the target and
the arguments of `-x`.  The three tokens that `main` adds before them under `AFL_LLVM_INJECTIONS_*`
are left out. -/
def loadDictionary (fs : Bytes → Option Node) (dict : Bytes) (args : List Bytes) :
    Except Fatal (List ExtraData) :=
  (args.foldlM (loadExtras lib hit fs) ((autodictTokens dict).foldl (addExtra lib hit) [])).map
    fun extras => dedupExtras (deunicodeExtras lib hit extras)

end Calls

/-! ## The counters -/

theorem countZeros_eq (j : ℕ) (data : Bytes) (z : Zeros) :
    countZeros j data z =
      ⟨z.z1 + (laneFrom 2 0 j data).count 0, z.z2 + (laneFrom 2 1 j data).count 0,
        z.z3 + (laneFrom 4 2 j data).count 0, z.z4 + (laneFrom 4 3 j data).count 0⟩ := by
  induction data generalizing j z with
  | nil => rfl
  | cons b data ih =>
    have hj : j % 4 = 0 ∨ j % 4 = 1 ∨ j % 4 = 2 ∨ j % 4 = 3 := by omega
    have hhalf : j % 2 = j % 4 % 2 := by omega
    rw [countZeros]
    by_cases hb : b = 0
    · rw [if_neg (not_not.mpr hb), ih]
      subst hb
      rcases hj with h | h | h | h <;>
        simp [laneFrom, h, hhalf, Nat.add_assoc, Nat.add_comm 1]
    · rw [if_pos hb, ih]
      rcases hj with h | h | h | h <;>
        simp [laneFrom, h, hhalf, List.count_cons_of_ne hb]

/-- Every second byte is every fourth one, twice. -/
theorem count_laneFrom_two {s : ℕ} (hs : s < 2) (j : ℕ) (data : Bytes) :
    (laneFrom 2 s j data).count 0 =
      (laneFrom 4 s j data).count 0 + (laneFrom 4 (s + 2) j data).count 0 := by
  induction data generalizing j with
  | nil => rfl
  | cons b data ih =>
    have hmod : j % 2 = s ↔ j % 4 = s ∨ j % 4 = s + 2 := by omega
    simp only [laneFrom, hmod]
    by_cases h4 : j % 4 = s
    · rw [if_pos (.inl h4), if_pos h4, if_neg (by omega), List.count_cons, List.count_cons, ih]
      omega
    · by_cases h6 : j % 4 = s + 2
      · rw [if_pos (.inr h6), if_neg h4, if_pos h6, List.count_cons, List.count_cons, ih]
        omega
      · rw [if_neg (by omega), if_neg h4, if_neg h6, ih]

/-- A lane with as many zeros as bytes is all zero. -/
theorem eq_zero_of_count {l : Bytes} (h : l.length ≤ l.count 0) : ∀ b ∈ l, b = 0 := by
  have heq := Nat.le_antisymm (List.count_le_length (a := 0) (l := l)) h
  exact fun b hb => (List.count_eq_length.mp heq b hb).symm

/-! ## The texts -/

/-- The zero bytes on a lane. -/
def zerosOn (n s : ℕ) (data : Bytes) : ℕ := (lane n s data).count 0

theorem countZeros_zero (data : Bytes) : countZeros 0 data ⟨0, 0, 0, 0⟩ =
    ⟨zerosOn 2 0 data, zerosOn 2 1 data, zerosOn 4 2 data, zerosOn 4 3 data⟩ := by
  rw [countZeros_eq]
  simp only [Nat.zero_add, zerosOn, lane]

theorem zerosOn_two {s : ℕ} (hs : s < 2) (data : Bytes) :
    zerosOn 2 s data = zerosOn 4 s data + zerosOn 4 (s + 2) data :=
  count_laneFrom_two hs 0 data

theorem zerosOn_le {n s : ℕ} (hs : s < n) {data : Bytes} (hdata : n ∣ data.length) :
    n * zerosOn n s data ≤ data.length := by
  have hlen := length_lane hs hdata
  have hcount := Nat.mul_le_mul_left n (List.count_le_length (a := 0) (l := lane n s data))
  rw [zerosOn]
  omega

/-- `z` zeros on a lane of `z` bytes. -/
theorem lane_eq_zero {n s : ℕ} (hs : s < n) {data : Bytes} (hdata : n ∣ data.length)
    (h : data.length ≤ n * zerosOn n s data) : ∀ b ∈ lane n s data, b = 0 := by
  apply eq_zero_of_count
  have hlen := length_lane hs hdata
  rw [zerosOn] at h
  exact Nat.le_of_mul_le_mul_left (hlen ▸ h) (Nat.zero_lt_of_lt hs)

theorem zerosOn_spread {n r : ℕ} (hr : r < n) {t : Bytes} (h0 : 0 ∉ t) :
    zerosOn n r (spread 0 n r t) = 0 := by
  rw [zerosOn, lane_spread 0 hr]
  exact List.count_eq_zero_of_not_mem h0

theorem zerosOn_spread_of_ne {n r s : ℕ} (hs : s < n) (hne : s ≠ r) (t : Bytes) :
    zerosOn n s (spread 0 n r t) = t.length := by
  rw [zerosOn, lane_spread_of_ne 0 hs hne, List.count_replicate_self]

/-- The zeros of the two lanes of a token that is taken for UTF-16. -/
def Narrow (data : Bytes) : Prop :=
  6 ≤ data.length ∧ data.length ≤ 64 ∧ 2 ∣ data.length ∧
    (data.length / 2 ≤ zerosOn 2 0 data ∨ data.length / 2 ≤ zerosOn 2 1 data) ∧
    zerosOn 2 0 data + zerosOn 2 1 data ≠ data.length

/-- Those of a token that may be UTF-32 as well. -/
def Wide (data : Bytes) : Prop :=
  4 ∣ data.length ∧ 12 ≤ data.length ∧
    (zerosOn 4 2 data = data.length / 4 ∨ zerosOn 4 3 data = data.length / 4) ∧
    zerosOn 2 0 data + zerosOn 2 1 data = 3 * (data.length / 4)

def narrowLane (data : Bytes) : ℕ := if zerosOn 2 0 data < data.length / 2 then 0 else 1

def wideLaneOf (data : Bytes) : ℕ :=
  if zerosOn 4 3 data < data.length / 4 then 3 else if zerosOn 4 2 data < data.length / 4 then 2
  else if zerosOn 2 1 data < data.length / 2 then 1 else 0

theorem mem_readings_eq {data t : Bytes} : t ∈ readings data ↔
    Narrow data ∧ (t = lane 2 (narrowLane data) data ∨
      Wide data ∧ t = lane 4 (wideLaneOf data) data) := by
  have hquarter : data.length / 2 / 2 = data.length / 4 := by omega
  unfold readings
  simp only [countZeros_zero, hquarter]
  change (t ∈ if _ then [] else if _ then [] else (if _ then
    [lane 4 (wideLaneOf data) data] else []) ++ [lane 2 (narrowLane data) data]) ↔ _
  split_ifs with hlen hskip hwide
  · apply iff_of_false List.not_mem_nil
    rintro ⟨⟨h6, h64, h2, -⟩, -⟩
    omega
  · apply iff_of_false List.not_mem_nil
    rintro ⟨⟨-, -, -, hhalf, hsum⟩, -⟩
    omega
  · have hnarrow : Narrow data := ⟨by omega, by omega, by omega, by omega, by omega⟩
    have hwide : Wide data := ⟨by omega, hwide.2.1, hwide.2.2.1, by omega⟩
    simp only [List.singleton_append, List.mem_cons, List.not_mem_nil, or_false, hnarrow, hwide,
      true_and]
    exact or_comm
  · have hnarrow : Narrow data := ⟨by omega, by omega, by omega, by omega, by omega⟩
    have hwide : ¬ Wide data := by
      rintro ⟨h4, h12, hz, hsum⟩
      exact hwide ⟨by omega, h12, hz, by omega⟩
    simp only [List.nil_append, List.mem_singleton, hnarrow, hwide, true_and, false_and, or_false]

theorem narrowLane_lt (data : Bytes) : narrowLane data < 2 := by
  unfold narrowLane
  split_ifs <;> decide

theorem wideLaneOf_lt (data : Bytes) : wideLaneOf data < 4 := by
  unfold wideLaneOf
  split_ifs <;> decide

/-- What `deunicode_extras` adds are the bytes of one lane. -/
theorem mem_readings {data t : Bytes} (h : t ∈ readings data) :
    ∃ n s, (n = 2 ∨ n = 4) ∧ s < n ∧ t = lane n s data := by
  obtain ⟨-, h | ⟨-, h⟩⟩ := mem_readings_eq.mp h
  · exact ⟨2, narrowLane data, .inl rfl, narrowLane_lt data, h⟩
  · exact ⟨4, wideLaneOf data, .inr rfl, wideLaneOf_lt data, h⟩

/-- `t` with a zero byte before or behind each of its bytes. -/
def IsUtf16 (data t : Bytes) : Prop :=
  3 ≤ t.length ∧ t.length ≤ 32 ∧ ∃ s < 2, data = spread 0 2 s t

/-- `t` with three zero bytes around each of its bytes. -/
def IsUtf32 (data t : Bytes) : Prop :=
  3 ≤ t.length ∧ t.length ≤ 16 ∧ ∃ s < 4, data = spread 0 4 s t

/-- A token that is taken for UTF-16 is that of the text on its lane. -/
theorem Narrow.isUtf16 {data : Bytes} (h : Narrow data) :
    IsUtf16 data (lane 2 (narrowLane data) data) := by
  obtain ⟨h6, h64, h2, hhalf, -⟩ := h
  have hs := narrowLane_lt data
  have hlen := length_lane hs h2
  refine ⟨by omega, by omega, narrowLane data, hs, (spread_lane 0 hs h2 ?_).symm⟩
  intro s hs hne
  apply lane_eq_zero hs h2
  unfold narrowLane at hne
  split_ifs at hne with hlt
  · obtain rfl : s = 1 := by omega
    omega
  · obtain rfl : s = 0 := by omega
    omega

/-- With no zero byte on its lane, a wide token is UTF-32. -/
theorem Wide.isUtf32 {data : Bytes} (hnarrow : Narrow data) (h : Wide data)
    (h0 : 0 ∉ lane 4 (wideLaneOf data) data) : IsUtf32 data (lane 4 (wideLaneOf data) data) := by
  obtain ⟨h4, h12, -, hsum⟩ := h
  have hs := wideLaneOf_lt data
  have hlen := length_lane hs h4
  have hzero : zerosOn 4 (wideLaneOf data) data = 0 := List.count_eq_zero_of_not_mem h0
  have heven := zerosOn_two (s := 0) (by decide) data
  have hodd := zerosOn_two (s := 1) (by decide) data
  have hle (s : ℕ) (hs : s < 4) := zerosOn_le hs h4
  have hle0 := hle 0 (by decide)
  have hle1 := hle 1 (by decide)
  have hle2 := hle 2 (by decide)
  have hle3 := hle 3 (by decide)
  simp only [Nat.zero_add, Nat.reduceAdd] at heven hodd
  refine ⟨by omega, ?_, wideLaneOf data, hs, (spread_lane 0 hs h4 ?_).symm⟩
  · have := hnarrow.2.1
    omega
  · intro s hs' hne
    apply lane_eq_zero hs' h4
    -- three quarters of the bytes are zero, and none of them is on the lane
    have hcases : wideLaneOf data = 0 ∨ wideLaneOf data = 1 ∨ wideLaneOf data = 2 ∨
        wideLaneOf data = 3 := by omega
    have hs4 : s = 0 ∨ s = 1 ∨ s = 2 ∨ s = 3 := by omega
    rcases hcases with h | h | h | h <;> rw [h] at hzero hne <;>
      rcases hs4 with rfl | rfl | rfl | rfl <;> omega

section Found

variable {data t : Bytes} (h0 : 0 ∉ t)

include h0

theorem IsUtf16.mem_readings (h : IsUtf16 data t) : t ∈ readings data := by
  obtain ⟨hmin, hmax, s, hs, rfl⟩ := h
  have hlen := length_spread 0 2 s t
  have hzero := zerosOn_spread hs h0
  have hother (r : ℕ) (hr : r < 2) (hne : r ≠ s) := zerosOn_spread_of_ne hr hne t
  have hlane : narrowLane (spread 0 2 s t) = s := by
    unfold narrowLane
    have hs' : s = 0 ∨ s = 1 := by omega
    rcases hs' with rfl | rfl
    · rw [if_pos (by omega)]
    · have := hother 0 (by decide) (by decide)
      rw [if_neg (by omega)]
  rw [mem_readings_eq, hlane]
  refine ⟨⟨by omega, by omega, ⟨t.length, hlen⟩, ?_⟩, .inl (lane_spread 0 hs t).symm⟩
  have hs' : s = 0 ∨ s = 1 := by omega
  rcases hs' with rfl | rfl
  · have := hother 1 (by decide) (by decide)
    omega
  · have := hother 0 (by decide) (by decide)
    omega

theorem IsUtf32.mem_readings (h : IsUtf32 data t) : t ∈ readings data := by
  obtain ⟨hmin, hmax, s, hs, rfl⟩ := h
  have hlen := length_spread 0 4 s t
  have hquarter : (spread 0 4 s t).length / 4 = t.length := by omega
  have heven := zerosOn_two (s := 0) (by decide) (spread 0 4 s t)
  have hodd := zerosOn_two (s := 1) (by decide) (spread 0 4 s t)
  -- every lane but `s` holds a zero for each byte of the text
  have hcount (r : ℕ) (hr : r < 4) :
      zerosOn 4 r (spread 0 4 s t) = if r = s then 0 else t.length := by
    split_ifs with heq
    · rw [heq, zerosOn_spread hs h0]
    · exact zerosOn_spread_of_ne hr heq t
  have h0 := hcount 0 (by decide)
  have h1 := hcount 1 (by decide)
  have h2 := hcount 2 (by decide)
  have h3 := hcount 3 (by decide)
  simp only [Nat.zero_add, Nat.reduceAdd] at heven hodd
  have hs' : s = 0 ∨ s = 1 ∨ s = 2 ∨ s = 3 := by omega
  have hlane : wideLaneOf (spread 0 4 s t) = s := by
    unfold wideLaneOf
    rw [hquarter]
    split_ifs with hz3 hz2 hz1 <;> split_ifs at h0 h1 h2 h3 <;> omega
  rw [mem_readings_eq, hlane]
  refine ⟨⟨by omega, by omega, by omega, ?_, ?_⟩, .inr ⟨⟨⟨t.length, hlen⟩, by omega, ?_, ?_⟩,
    (lane_spread 0 hs t).symm⟩⟩
  all_goals
    split_ifs at h0 h1 h2 h3 <;> omega

/-- The texts without a zero byte that `deunicode_extras` finds. -/
theorem mem_readings_iff : t ∈ readings data ↔ IsUtf16 data t ∨ IsUtf32 data t := by
  constructor
  · intro h
    obtain ⟨hnarrow, rfl | ⟨hwide, rfl⟩⟩ := mem_readings_eq.mp h
    · exact .inl hnarrow.isUtf16
    · exact .inr (hwide.isUtf32 hnarrow h0)
  · intro h
    cases h with
    | inl h => exact h.mem_readings h0
    | inr h => exact h.mem_readings h0

end Found

/-! ## The entries -/

/-- The entries hold the tokens `source`, and none that is too big. -/
def Holds (source : List Bytes) (extras : List ExtraData) : Prop :=
  (∀ t, t ∈ extras.map ExtraData.data ↔ t ∈ source) ∧ ∀ t ∈ source, t.length ≤ maxDictFile

theorem holds_nil : Holds [] [] := ⟨fun _ => Iff.rfl, by simp⟩

theorem hasExtra_mem {mem : Bytes} {extras : List ExtraData} {found : Bool}
    (h : hasExtra mem extras found = true) : mem ∈ extras.map ExtraData.data := by
  induction extras generalizing found with
  | nil => exact absurd h Bool.false_ne_true
  | cons e extras ih =>
    rw [hasExtra] at h
    rw [List.map_cons, List.mem_cons]
    split_ifs at h with hlen hdata
    · exact .inl hdata.symm
    · exact .inr (ih h)
    · exact .inr (ih h)

section Calls

variable (lib : LenSort) (hit : ℕ → UInt32)

theorem map_addExtraNocheck (extras : List ExtraData) (tokens : List Bytes) :
    (tokens.foldl (addExtraNocheck hit) extras).map ExtraData.data =
      extras.map ExtraData.data ++ tokens := by
  induction tokens generalizing extras with
  | nil => rw [List.foldl_nil, List.append_nil]
  | cons t tokens ih =>
    rw [List.foldl_cons, ih, addExtraNocheck, List.map_append, List.append_assoc]
    rfl

theorem mem_map_sort (compare : ExtraData → ExtraData → ℤ) (extras : List ExtraData) (t : Bytes) :
    t ∈ (lib.sort compare extras).map ExtraData.data ↔ t ∈ extras.map ExtraData.data :=
  ((lib.perm compare extras).map ExtraData.data).mem_iff

variable {source : List Bytes} {extras : List ExtraData} (h : Holds source extras)

include h

theorem Holds.addExtra (mem : Bytes) :
    Holds (source ++ [mem].filter fun t => t.length ≤ maxDictFile)
      (addExtra lib hit extras mem) := by
  unfold DictLoad.addExtra
  by_cases hlen : mem.length ≤ maxDictFile
  · have hfilter : ([mem].filter fun t => t.length ≤ maxDictFile) = [mem] := by simp [hlen]
    have hbig : ∀ t ∈ source ++ [mem], t.length ≤ maxDictFile := by
      intro t ht
      rcases List.mem_append.mp ht with ht | ht
      · exact h.2 t ht
      · exact List.mem_singleton.mp ht ▸ hlen
    rw [hfilter]
    split_ifs with hskip
    · have hfound : hasExtra mem extras false = true := by
        simpa [Nat.not_lt.mpr hlen] using hskip
      have hmem := hasExtra_mem hfound
      refine ⟨fun t => ?_, hbig⟩
      rw [h.1 t, List.mem_append, List.mem_singleton]
      refine ⟨.inl, fun ht => ht.elim id ?_⟩
      rintro rfl
      exact (h.1 t).mp hmem
    · refine ⟨fun t => ?_, hbig⟩
      rw [mem_map_sort, addExtraNocheck, List.map_append, List.mem_append, List.mem_append, h.1 t]
      rfl
  · have hfilter : ([mem].filter fun t => t.length ≤ maxDictFile) = [] := by simp [hlen]
    have hskip : (hasExtra mem extras false || maxDictFile < mem.length) = true := by
      simp [Nat.not_le.mp hlen]
    rw [hfilter, if_pos hskip, List.append_nil]
    exact h

theorem Holds.addExtras (tokens : List Bytes) :
    Holds (source ++ tokens.filter fun t => t.length ≤ maxDictFile)
      (tokens.foldl (DictLoad.addExtra lib hit) extras) := by
  induction tokens generalizing source extras with
  | nil =>
    rw [List.filter_nil, List.append_nil]
    exact h
  | cons t tokens ih =>
    have hrest := ih (h.addExtra lib hit t)
    rwa [List.append_assoc, ← List.filter_append] at hrest

theorem Holds.loadTokens {tokens : List Bytes} (htokens : ∀ t ∈ tokens, t.length ≤ maxDictFile) :
    Holds (source ++ tokens)
      (if tokens.foldl (addExtraNocheck hit) extras = [] then
        tokens.foldl (addExtraNocheck hit) extras
      else lib.sort compareExtrasLen (tokens.foldl (addExtraNocheck hit) extras)) := by
  refine ⟨fun t => ?_, ?_⟩
  · have hmem : t ∈ (tokens.foldl (addExtraNocheck hit) extras).map ExtraData.data ↔
        t ∈ source ++ tokens := by
      rw [map_addExtraNocheck, List.mem_append, List.mem_append, h.1 t]
    split_ifs
    · exact hmem
    · rw [mem_map_sort]
      exact hmem
  · intro t ht
    rcases List.mem_append.mp ht with ht | ht
    · exact h.2 t ht
    · exact htokens t ht

end Calls

/-! ## The arguments -/

theorem length_loadExtrasFile {dictLevel : ℤ} {file : Bytes} :
    ∀ t ∈ (loadExtrasFile dictLevel file).tokens, t.length ≤ maxDictFile := by
  intro t ht
  obtain ⟨buf, -, hbuf⟩ := List.mem_filterMap.mp ht
  exact length_of_loadLine hbuf

theorem length_dirTokens {entries : List DirEntry} {tokens : List Bytes}
    (h : dirTokens entries = .ok tokens) : ∀ t ∈ tokens, t.length ≤ maxDictFile := by
  induction entries generalizing tokens with
  | nil =>
    obtain rfl := Except.ok.inj h
    simp
  | cons entry entries ih =>
    cases entry with
    | unreadable => exact absurd h (by simp [dirTokens])
    | other => exact ih h
    | regular content =>
      rw [dirTokens] at h
      cases hrest : dirTokens entries with
      | error e =>
        rw [hrest] at h
        exact absurd h (by simp [Except.map])
      | ok rest =>
        rw [hrest] at h
        obtain rfl := Except.ok.inj h
        split_ifs with hskip
        · exact ih hrest
        · intro t ht
          rcases List.mem_cons.mp ht with rfl | ht
          · exact Nat.not_lt.mp fun hlt => hskip (.inr hlt)
          · exact ih hrest t ht

theorem length_loadTokens {fs : Bytes → Option Node} {arg : Bytes} {tokens : List Bytes}
    (h : loadTokens fs arg = .ok tokens) : ∀ t ∈ tokens, t.length ≤ maxDictFile := by
  unfold loadTokens at h
  split at h
  · exact absurd h (by simp)
  · obtain rfl := Except.ok.inj h
    exact length_loadExtrasFile
  · split_ifs at h
    exact length_dirTokens h

/-- The arguments one after the other. -/
theorem foldlM_loadExtras (lib : LenSort) (hit : ℕ → UInt32) {fs : Bytes → Option Node}
    {args : List Bytes} {source : List Bytes} {extras final : List ExtraData}
    (hholds : Holds source extras) (h : args.foldlM (loadExtras lib hit fs) extras = .ok final) :
    ∃ loaded, List.Forall₂ (fun arg tokens => loadTokens fs arg = .ok tokens) args loaded ∧
      Holds (source ++ loaded.flatten) final := by
  induction args generalizing source extras with
  | nil =>
    obtain rfl := Except.ok.inj h
    refine ⟨[], .nil, ?_⟩
    rwa [List.flatten_nil, List.append_nil]
  | cons arg args ih =>
    rw [List.foldlM_cons, loadExtras] at h
    cases htokens : loadTokens fs arg with
    | error e =>
      rw [htokens] at h
      exact absurd h (by simp [Except.map, bind, Except.bind])
    | ok tokens =>
      rw [htokens] at h
      obtain ⟨loaded, hloaded, hfinal⟩ :=
        ih (hholds.loadTokens lib hit (length_loadTokens htokens)) h
      refine ⟨tokens :: loaded, .cons htokens hloaded, ?_⟩
      rwa [List.flatten_cons, ← List.append_assoc]

/-! ## The dictionary -/

/-- What `final` holds when the tokens `source` were loaded. -/
structure StartsWith (source : List Bytes) (final : List ExtraData) : Prop where
  sorted : SortedByLen final
  nodup : (final.map ExtraData.data).Nodup
  bounded : ∀ e ∈ final, e.len ≤ maxDictFile
  loaded : ∀ t ∈ source, t ∈ final.map ExtraData.data
  /-- Any other token is a lane of one that was loaded. -/
  origin : ∀ t ∈ final.map ExtraData.data, t ∈ source ∨
    ∃ d ∈ source, ∃ n s, (n = 2 ∨ n = 4) ∧ s < n ∧ t = lane n s d
  /-- The other texts without a zero byte are those of the UTF-16 and UTF-32 tokens. -/
  texts : ∀ t, 0 ∉ t → (t ∈ final.map ExtraData.data ↔
    t ∈ source ∨ ∃ d ∈ source, IsUtf16 d t ∨ IsUtf32 d t)

theorem length_lane_le (n s : ℕ) (d : Bytes) : (lane n s d).length ≤ d.length := by
  have hle (j : ℕ) : (laneFrom n s j d).length ≤ d.length := by
    induction d generalizing j with
    | nil => exact Nat.le_refl _
    | cons b d ih =>
      have := ih (j + 1)
      rw [laneFrom]
      split_ifs <;> simp only [List.length_cons] <;> omega
  exact hle 0

theorem Holds.startsWith (lib : LenSort) (hit : ℕ → UInt32) {source : List Bytes}
    {extras : List ExtraData} (h : Holds source extras) :
    StartsWith source (dedupExtras (deunicodeExtras lib hit extras)) := by
  set found := extras.flatMap fun e => readings e.data with hfound
  have hmem : ∀ t, t ∈ (deunicodeExtras lib hit extras).map ExtraData.data ↔
      t ∈ source ∨ t ∈ found := by
    intro t
    unfold deunicodeExtras
    split_ifs with hnil
    · rw [h.1 t, hfound, hnil]
      simp
    · rw [mem_map_sort, map_addExtraNocheck, List.mem_append, h.1 t]
  have hfound_iff : ∀ t, t ∈ found ↔ ∃ d ∈ source, t ∈ readings d := by
    intro t
    rw [hfound, List.mem_flatMap]
    constructor
    · rintro ⟨e, he, ht⟩
      exact ⟨e.data, (h.1 e.data).mp (List.mem_map_of_mem he), ht⟩
    · rintro ⟨d, hd, ht⟩
      obtain ⟨e, he, rfl⟩ := List.mem_map.mp ((h.1 d).mpr hd)
      exact ⟨e, he, ht⟩
  have horigin : ∀ t ∈ found, ∃ d ∈ source, ∃ n s, (n = 2 ∨ n = 4) ∧ s < n ∧ t = lane n s d := by
    intro t ht
    obtain ⟨d, hd, ht⟩ := (hfound_iff t).mp ht
    exact ⟨d, hd, mem_readings ht⟩
  have hbounded : ∀ e ∈ deunicodeExtras lib hit extras, e.len ≤ maxDictFile := by
    intro e he
    rcases (hmem e.data).mp (List.mem_map_of_mem he) with hd | hd
    · exact h.2 e.data hd
    · obtain ⟨d, hd, n, s, -, -, heq⟩ := horigin e.data hd
      have hle := length_lane_le n s d
      have := h.2 d hd
      rw [ExtraData.len, heq]
      omega
  have hsorted : SortedByLen (deunicodeExtras lib hit extras) := by
    unfold deunicodeExtras at hbounded ⊢
    split_ifs at hbounded ⊢ with hnil
    · rw [hnil]
      exact List.Pairwise.nil
    · apply lib.sorted
      intro e he
      have hlen := hbounded e ((lib.perm compareExtrasLen _).mem_iff.mpr he)
      exact Nat.lt_of_le_of_lt hlen (by decide)
  have hsub := Lib.FirstSeen.firsts_sublist ExtraData.data (deunicodeExtras lib hit extras)
  have hfinal : ∀ t, t ∈ (dedupExtras (deunicodeExtras lib hit extras)).map ExtraData.data ↔
      t ∈ source ∨ t ∈ found := by
    intro t
    rw [dedupExtras_eq hsorted, Lib.FirstSeen.map_firsts, List.mem_eraseDups, hmem t]
  refine ⟨?_, ?_, ?_, ?_, ?_, ?_⟩
  · rw [dedupExtras_eq hsorted]
    exact hsorted.sublist hsub
  · rw [dedupExtras_eq hsorted, Lib.FirstSeen.map_firsts]
    exact Lib.FirstSeen.nodup_eraseDups _
  · rw [dedupExtras_eq hsorted]
    exact fun e he => hbounded e (hsub.mem he)
  · exact fun t ht => (hfinal t).mpr (.inl ht)
  · exact fun t ht => ((hfinal t).mp ht).imp_right (horigin t)
  · intro t h0
    rw [hfinal t, hfound_iff t]
    refine or_congr_right (exists_congr fun d => and_congr_right fun _ => ?_)
    exact mem_readings_iff h0

/-- The dictionary holds the tokens of the target that are not too big, those of every argument, and
the texts that are found in them; it is sorted and holds each of them once. -/
theorem loadDictionary_spec (lib : LenSort) (hit : ℕ → UInt32) {fs : Bytes → Option Node}
    {dict : Bytes} {args : List Bytes} {final : List ExtraData}
    (h : loadDictionary lib hit fs dict args = .ok final) :
    ∃ loaded, List.Forall₂ (fun arg tokens => loadTokens fs arg = .ok tokens) args loaded ∧
      StartsWith (((autodictTokens dict).filter fun t => t.length ≤ maxDictFile) ++
        loaded.flatten) final := by
  unfold loadDictionary at h
  have htarget := holds_nil.addExtras lib hit (autodictTokens dict)
  rw [List.nil_append] at htarget
  cases hfold : args.foldlM (loadExtras lib hit fs)
      ((autodictTokens dict).foldl (addExtra lib hit) []) with
  | error e =>
    rw [hfold] at h
    exact absurd h (by simp [Except.map])
  | ok extras =>
    rw [hfold] at h
    obtain rfl := Except.ok.inj h
    obtain ⟨loaded, hloaded, hholds⟩ := foldlM_loadExtras lib hit htarget hfold
    exact ⟨loaded, hloaded, hholds.startsWith lib hit⟩

/-! ## A sort -/

theorem differenceInt_ofNat {x y : ℕ} (hx : x < 2 ^ 31) (hy : y < 2 ^ 31) :
    differenceInt (UInt32.ofNat x) (UInt32.ofNat y) = (x : ℤ) - y := by
  have hbits : differenceInt (UInt32.ofNat x) (UInt32.ofNat y) =
      (BitVec.ofNat 32 x - BitVec.ofNat 32 y).toInt := rfl
  have h1 : (x : ℤ).bmod (2 ^ 32) = x := Int.bmod_eq_of_le (by omega) (by omega)
  have h2 : (y : ℤ).bmod (2 ^ 32) = y := Int.bmod_eq_of_le (by omega) (by omega)
  rw [hbits, BitVec.toInt_sub, BitVec.toInt_ofNat', BitVec.toInt_ofNat', h1, h2]
  exact Int.bmod_eq_of_le (by omega) (by omega)

/-- The stable sort, which sorts by length. -/
def mergeSortLen : LenSort where
  toQSort := mergeSort
  sorted := by
    intro extras hlen
    have hle : ∀ a ∈ extras, ∀ b ∈ extras,
        decide (compareExtrasLen a b ≤ 0) = decide (a.len ≤ b.len) := by
      intro a ha b hb
      rw [compareExtrasLen, differenceInt_ofNat (hlen a ha) (hlen b hb)]
      apply decide_eq_decide.mpr
      omega
    have hmap := List.map_mergeSort (f := ExtraData.len) (s := fun x y => decide (x ≤ y)) hle
    have hsorted : ((extras.map ExtraData.len).mergeSort fun x y => decide (x ≤ y)).Pairwise
        fun x y => decide (x ≤ y) = true := by
      apply List.pairwise_mergeSort
      · intro a b c hab hbc
        exact decide_eq_true (Nat.le_trans (of_decide_eq_true hab) (of_decide_eq_true hbc))
      · intro a b
        rw [Bool.or_eq_true, decide_eq_true_iff, decide_eq_true_iff]
        exact Nat.le_total a b
    rw [← hmap, List.pairwise_map] at hsorted
    exact hsorted.imp fun h => of_decide_eq_true h

/-- A directory with a UTF-16 token. -/
theorem loadDictionary_utf16 : ∃ final, loadDictionary mergeSortLen (fun _ => 0)
    (fun _ => some (.dir [.other, .regular [65, 0, 66, 0, 67, 0]])) [] [ascii "dict"] = .ok final ∧
      [65, 66, 67] ∈ final.map ExtraData.data := by
  have hload : loadDictionary mergeSortLen (fun _ => 0)
      (fun _ => some (.dir [.other, .regular [65, 0, 66, 0, 67, 0]])) [] [ascii "dict"] =
        .ok _ := rfl
  refine ⟨_, hload, ?_⟩
  obtain ⟨loaded, hloaded, hstart⟩ := loadDictionary_spec mergeSortLen (fun _ => 0) hload
  cases hloaded with
  | cons htokens hnil =>
    cases hnil
    obtain rfl := Except.ok.inj htokens
    rw [hstart.texts [65, 66, 67] (by decide)]
    refine .inr ⟨[65, 0, 66, 0, 67, 0], ?_, .inl ⟨by decide, by decide, 0, by decide, rfl⟩⟩
    simp [autodictTokens, maxDictFile]

end AflNv.DictLoad
