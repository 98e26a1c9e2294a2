import AflNv.Lib.Alias
import AflNv.TopRated
import Mathlib.Algebra.BigOperators.Ring.List

/-!
# The alias table of the queue

`create_alias_table` of `src/afl-fuzz-queue.c`: the weights of the entries under each power
schedule, their normalisation, and the two stacks on which the table is built.  The numbers
are those of an ordered field, so the sums are exact.

* `AliasQueue` is what the function reads, `AliasWork` its local arrays and the table.
* `Shows` connects a state of its loops with a draft of `Lib.Alias`; `shows_pairStep` and
  its neighbours are the steps.
* `correct_iff`: the table encodes the normalised weights exactly if the weights that were
  summed up are those that are normalised.
-/

namespace AflNv

open Lib

/-! ## What the function reads -/

/-- The number of a schedule in its enumeration. -/
def PowerSchedule.num : PowerSchedule → ℕ
  | explore => 0
  | mmopt => 1
  | exploit => 2
  | fast => 3
  | coe => 4
  | lin => 5
  | quad => 6
  | rare => 7
  | seek => 8

/-- The fields of a `queue_entry` that its weight depends on, and the weight. -/
structure AliasEntry (R : Type) where
  disabled : Bool
  wasFuzzed : Bool
  fsRedundant : Bool
  execUs : ℕ
  len : ℕ
  bitmapSize : ℕ
  nFuzzEntry : ℕ
  weight : R
  perfScore : R

/-- The fields of `afl_state_t` that the weights depend on. -/
structure AliasQueue (R : Type) where
  schedule : PowerSchedule
  queueBuf : List (AliasEntry R)
  nFuzz : ℕ → ℕ
  queuedDiscovered : ℕ

/-- The functions of `math.h` on positive numbers, and `calculate_score`. -/
structure AliasMath (R : Type) [Field R] [LinearOrder R] where
  log : ℕ → R
  log10 : ℕ → R
  log10_nonneg : ∀ x, 0 < x → 0 ≤ log10 x
  calculateScore : AliasEntry R → ℕ

namespace AliasTable

variable {R : Type} [Field R] [LinearOrder R]

/-! ## Weights -/

/-- A quotient of doubles that are not negative; `none` is an infinity or a NaN, of which no
comparison with a bound holds. -/
def quot (a b : R) : Option R := if b = 0 then none else some (a / b)

/-- `x < c` -/
def below (x : Option R) (c : R) : Bool := x.any fun x => decide (x < c)

/-- `x <= c` -/
def atMost (x : Option R) (c : R) : Bool := x.any fun x => decide (x ≤ c)

/-- The factor for the run time, relative to the average. -/
def execFactor (t : Option R) : R :=
  if below t (1 / 10) then 1
  else if atMost t (1 / 4) then 95 / 100
  else if atMost t (1 / 2) then 1
  else if atMost t (3 / 4) then 105 / 100
  else if atMost t 1 then 11 / 10
  else if below t (5 / 4) then 2 / 10
  else if atMost t (3 / 2) then 1
  else if atMost t 2 then 11 / 10
  else if atMost t (5 / 2) then 1
  else if atMost t 5 then 115 / 100
  else if atMost t 20 then 11 / 10
  else 1

/-- The factor for the length. -/
def lenFactor (l : Option R) : R :=
  if below l (1 / 10) then 1 / 2
  else if atMost l (1 / 2) then 1
  else if atMost l (5 / 4) then 105 / 100
  else if atMost l (7 / 4) then 1
  else if atMost l 2 then 95 / 100
  else if atMost l 5 then 1
  else if atMost l 10 then 105 / 100
  else 115 / 100

/-- The factor for the size of the bitmap. -/
def bitmapFactor (bms : Option R) : R :=
  if below bms (1 / 10) then 1 / 100
  else if atMost bms (1 / 4) then 55 / 100
  else if atMost bms (1 / 2) then 1
  else if atMost bms (3 / 4) then 12 / 10
  else if atMost bms (5 / 4) then 13 / 10
  else if atMost bms (7 / 4) then 125 / 100
  else if atMost bms 2 then 1
  else if atMost bms (5 / 2) then 13 / 10
  else 3 / 4

variable (m : AliasMath R)

/-- `log(q->bitmap_size)`; `none` is `-inf`. -/
def logSize (q : AliasEntry R) : Option R :=
  if q.bitmapSize = 0 then none else some (m.log q.bitmapSize)

/-- The averages over the entries that are not disabled. -/
structure Averages (R : Type) where
  execUs : R
  /-- `none` is `-inf`. -/
  bitmapSize : Option R
  len : R

/-- The entries that are not disabled. -/
def enabled (queue : List (AliasEntry R)) : List (AliasEntry R) := queue.filter (!·.disabled)

/-- The first loop. -/
def averages (queue : List (AliasEntry R)) : Averages R :=
  let active := (enabled queue).length
  { execUs := ((enabled queue).map fun q => (q.execUs : R)).sum / active
    bitmapSize := ((enabled queue).foldl
      (fun sum q => (sum.bind fun s => (logSize m q).map (s + ·))) (some 0)).map (· / active)
    len := ((enabled queue).map fun q => (q.len : R)).sum / active }

/-- The factor for the executions with the same path, under `FAST` to `RARE`. -/
def hitsFactor (afl : AliasQueue R) (q : AliasEntry R) : R :=
  if PowerSchedule.fast.num ≤ afl.schedule.num ∧ afl.schedule.num ≤ PowerSchedule.rare.num then
    let hits := afl.nFuzz q.nFuzzEntry
    if hits ≠ 0 then 1 / (m.log10 hits + 1) else 1
  else 1

/-- The size of the bitmap relative to the average; a quotient by `-inf` is 0. -/
def relativeSize (avg : Averages R) (q : AliasEntry R) : Option R :=
  match avg.bitmapSize with
  | none => some 0
  | some size => quot (q.bitmapSize : R) size

/-- The weight of an entry under a schedule below `RARE`: the product of the factors. -/
def weightOf (afl : AliasQueue R) (avg : Averages R) (q : AliasEntry R) : R :=
  hitsFactor m afl q *
    (if afl.schedule.num < PowerSchedule.rare.num then
      execFactor (quot (q.execUs : R) avg.execUs) else 1) *
    lenFactor (quot (q.len : R) avg.len) * bitmapFactor (relativeSize avg q) *
    (if !q.wasFuzzed then 5 / 2 else 1) * (if q.fsRedundant then 3 / 4 else 1)

/-- The second loop: the weight and the score of an entry. -/
def weigh (afl : AliasQueue R) (avg : Averages R) (q : AliasEntry R) : AliasEntry R :=
  if q.disabled then q
  else
    let q := { q with weight := weightOf m afl avg q }
    { q with perfScore := m.calculateScore q }

/-- The first index whose weight is doubled. -/
def doubledFrom (afl : AliasQueue R) : ℕ :=
  (afl.queueBuf.length + 2 ^ 32 - min 5 afl.queuedDiscovered) % 2 ^ 32

/-- The loop behind the sum: what was discovered last counts double. -/
def double (afl : AliasQueue R) (queue : List (AliasEntry R)) : List (AliasEntry R) :=
  if afl.schedule = .mmopt ∧ afl.queuedDiscovered ≠ 0 then
    queue.mapIdx fun i q =>
      if doubledFrom afl ≤ i ∧ q.disabled = false then { q with weight := q.weight * 2 } else q
  else queue

/-- The loop that fills `P`. -/
def shares (value : AliasEntry R → R) (sum : R) (queue : List (AliasEntry R)) :
    List (Option R) :=
  queue.map fun q => if q.disabled then some 0 else quot (value q * queue.length) sum

/-- The queue with its weights and scores, and `P`; `none` is a NaN. -/
def collect (afl : AliasQueue R) : List (AliasEntry R) × List (Option R) :=
  if afl.schedule.num < PowerSchedule.rare.num then
    let queue := afl.queueBuf.map (weigh m afl (averages m afl.queueBuf))
    let sum := ((enabled queue).map (·.weight)).sum
    let queue := double afl queue
    (queue, shares (·.weight) sum queue)
  else
    let queue := afl.queueBuf.map fun q =>
      if q.disabled then q else { q with perfScore := m.calculateScore q }
    let sum := ((enabled queue).map (·.perfScore)).sum
    (queue, shares (·.perfScore) sum queue)

/-! ## The stacks -/

/-- A `u32` one less. -/
def pred32 (x : ℕ) : ℕ := (x + (2 ^ 32 - 1)) % 2 ^ 32

/-- A `u32` one more. -/
def succ32 (x : ℕ) : ℕ := (x + 1) % 2 ^ 32

/-- The arrays of the function, the table, and the indexes whose `alias_probability` was
stored, the last one first. -/
structure Work (R : Type) where
  p : List (Option R)
  small : List ℕ
  large : List ℕ
  nSmall : ℕ
  nLarge : ℕ
  aliasProbability : List (Option R)
  aliasTable : List ℕ
  stored : List ℕ

namespace Work

/-- `Small[nSmall++] = j`; `none` where that is outside the array. -/
def pushSmall (j : ℕ) (w : Work R) : Option (Work R) :=
  if w.nSmall < w.small.length then
    some { w with small := w.small.set w.nSmall j, nSmall := succ32 w.nSmall }
  else none

/-- `Large[nLarge--] = j` -/
def pushLarge (j : ℕ) (w : Work R) : Option (Work R) :=
  if w.nLarge < w.large.length then
    some { w with large := w.large.set w.nLarge j, nLarge := pred32 w.nLarge }
  else none

/-- `Small[--nSmall]` -/
def popSmall (w : Work R) : Option (ℕ × Work R) :=
  w.small[pred32 w.nSmall]?.map fun i => (i, { w with nSmall := pred32 w.nSmall })

/-- `Large[++nLarge]` -/
def popLarge (w : Work R) : Option (ℕ × Work R) :=
  w.large[succ32 w.nLarge]?.map fun i => (i, { w with nLarge := succ32 w.nLarge })

/-- `P[j] < 1` decides on the stack. -/
def put (j : ℕ) (w : Work R) : Option (Work R) :=
  w.p[j]?.bind fun x => if below x 1 then w.pushSmall j else w.pushLarge j

/-- `alias_probability[i] = x` -/
def store (i : ℕ) (x : Option R) (w : Work R) : Option (Work R) :=
  if i < w.aliasProbability.length then
    some { w with aliasProbability := w.aliasProbability.set i x, stored := i :: w.stored }
  else none

/-- `alias_table[i] = j` -/
def setAlias (i j : ℕ) (w : Work R) : Option (Work R) :=
  if i < w.aliasTable.length then some { w with aliasTable := w.aliasTable.set i j } else none

/-- `P[large] = P[large] - (1 - P[small])` -/
def reduce (small large : ℕ) (w : Work R) : Option (Work R) :=
  w.p[small]?.bind fun x => w.p[large]?.map fun y =>
    { w with p := w.p.set large (y.bind fun y => x.map fun x => y - (1 - x)) }

/-- The loop that fills the stacks, from `j - 1` down to 0. -/
def fill : ℕ → Work R → Option (Work R)
  | 0, w => some w
  | j + 1, w => (w.put j).bind (fill j)

/-- The body of the loop that pairs. -/
def pairStep (w : Work R) : Option (Work R) :=
  w.popSmall.bind fun (small, w) => w.popLarge.bind fun (large, w) =>
    w.p[small]?.bind fun x =>
      (w.store small x).bind fun w => (w.setAlias small large).bind fun w =>
        (w.reduce small large).bind fun w => w.put large

/-- The loop that pairs; `none` where it has not ended. -/
def pairLoop (n : ℕ) : ℕ → Work R → Option (Work R)
  | 0, _ => none
  | k + 1, w =>
    if w.nSmall ≠ 0 ∧ w.nLarge ≠ pred32 n then w.pairStep.bind (pairLoop n k) else some w

/-- The loop over what is left of `Small`. -/
def restSmall : ℕ → Work R → Option (Work R)
  | 0, _ => none
  | k + 1, w =>
    if w.nSmall ≠ 0 then
      w.popSmall.bind fun (i, w) => (w.store i (some 1)).bind (restSmall k)
    else some w

/-- The loop over what is left of `Large`. -/
def restLarge (n : ℕ) : ℕ → Work R → Option (Work R)
  | 0, _ => none
  | k + 1, w =>
    if w.nLarge ≠ pred32 n then
      w.popLarge.bind fun (i, w) => (w.store i (some 1)).bind (restLarge n k)
    else some w

/-- The arrays before the stacks are filled. -/
def init (p : List (Option R)) : Work R :=
  { p := p
    small := List.replicate p.length 0
    large := List.replicate p.length 0
    nSmall := 0
    nLarge := pred32 p.length
    aliasProbability := List.replicate p.length (some 0)
    aliasTable := List.replicate p.length 0
    stored := [] }

end Work

/-- The rounds of the loop that fills the stacks: its counter is an `s32`. -/
def rounds (n : ℕ) : ℕ := if n ≤ 2 ^ 31 then n else 0

/-- The loops of the function on the weights `P`. -/
def build (p : List (Option R)) : Option (Work R) :=
  (Work.fill (rounds p.length) (Work.init p)).bind fun w =>
    (w.pairLoop p.length (p.length + 1)).bind fun w =>
      (w.restSmall (p.length + 1)).bind fun w => w.restLarge p.length (p.length + 1)

/-- `create_alias_table`: the queue and the arrays; `none` where it leaves an array. -/
def createAliasTable (afl : AliasQueue R) : Option (List (AliasEntry R) × Work R) :=
  (build (collect m afl).2).map fun w => ((collect m afl).1, w)

/-! ## The specification -/

/-- The weights `P` are shares of `n` that leave out the disabled entries, and the table
encodes them: no access leaves an array, every index is stored once, the probabilities lie
between 0 and 1, and the second indexes are indexes of entries. -/
structure Encoding (afl : AliasQueue R) (P prob : ℕ → R) (other : ℕ → ℕ) (w : Work R) :
    Prop where
  runs : createAliasTable m afl = some ((collect m afl).1, w)
  weights : (collect m afl).2 = (List.range afl.queueBuf.length).map fun i => some (P i)
  nonneg : ∀ i < afl.queueBuf.length, 0 ≤ P i
  sum : ((List.range afl.queueBuf.length).map P).sum = afl.queueBuf.length
  disabled : ∀ i q, afl.queueBuf[i]? = some q → q.disabled = true → P i = 0
  probability : w.aliasProbability = (List.range afl.queueBuf.length).map fun i => some (prob i)
  table : w.aliasTable = (List.range afl.queueBuf.length).map other
  encodes : Alias.Encodes afl.queueBuf.length P prob other
  bounds : ∀ i < afl.queueBuf.length, 0 ≤ prob i ∧ prob i ≤ 1
  other : ∀ i < afl.queueBuf.length, other i < afl.queueBuf.length
  once : w.stored.Perm (List.range afl.queueBuf.length)

def Correct (afl : AliasQueue R) : Prop := ∃ P prob other w, Encoding m afl P prob other w

/-- The weight of the entry is doubled behind the sum. -/
def Doubled (afl : AliasQueue R) (i : ℕ) : Prop :=
  afl.schedule = .mmopt ∧ afl.queuedDiscovered ≠ 0 ∧
    min 5 afl.queuedDiscovered ≤ afl.queueBuf.length ∧
    afl.queueBuf.length - min 5 afl.queuedDiscovered ≤ i

instance (afl : AliasQueue R) (i : ℕ) : Decidable (Doubled afl i) := by
  unfold Doubled; infer_instance

/-- Some weight is positive, none is doubled behind the sum, and the counter of the loop
that fills the stacks, an `s32`, reaches every index. -/
def Weighted (afl : AliasQueue R) : Prop :=
  afl.queueBuf.length ≤ 2 ^ 31 ∧
    if afl.schedule.num < PowerSchedule.rare.num then
      (∃ q ∈ afl.queueBuf, q.disabled = false) ∧
        ∀ i q, afl.queueBuf[i]? = some q → Doubled afl i → q.disabled = true
    else ∃ q ∈ afl.queueBuf, q.disabled = false ∧ m.calculateScore q ≠ 0

/-! ## The loops and the drafts -/

/-- The arrays hold the draft. -/
structure Shows (n : ℕ) (w : Work R) (d : Alias.Draft R) : Prop where
  p : w.p = (List.range n).map fun i => some (d.weight i)
  aliasProbability : w.aliasProbability = (List.range n).map fun i => some (d.prob i)
  aliasTable : w.aliasTable = (List.range n).map d.other
  stored : w.stored = d.closed
  smallLength : w.small.length = n
  largeLength : w.large.length = n
  nSmall : w.nSmall = d.small.length
  nLarge : w.nLarge = (n + (2 ^ 32 - 1) - d.large.length) % 2 ^ 32
  small : w.small.take d.small.length = d.small.reverse
  large : w.large.drop (n - d.large.length) = d.large

theorem set_range_map {α : Type} (f : ℕ → α) (n i : ℕ) (x : α) :
    ((List.range n).map f).set i x = (List.range n).map (Function.update f i x) := by
  apply List.ext_getElem (by simp)
  intro j h₁ h₂
  rw [List.getElem_set]
  by_cases h : i = j
  · simp [h]
  · simp [h, Function.update_of_ne (Ne.symm h)]

theorem getElem?_range_map {α : Type} (f : ℕ → α) {n i : ℕ} (hi : i < n) :
    ((List.range n).map f)[i]? = some (f i) := by
  rw [List.getElem?_map, List.getElem?_range hi, Option.map_some]

open Alias

section Stacks

variable {X : Type} {n : ℕ} {w : Work X} {d : Draft X}

theorem shows_pushSmall (h : Shows n w d) (hn : n < 2 ^ 32) (hlt : d.small.length < n) (j : ℕ) :
    ∃ w', w.pushSmall j = some w' ∧ Shows n w' { d with small := j :: d.small } := by
  refine ⟨_, if_pos (by rw [h.nSmall, h.smallLength]; exact hlt), ?_⟩
  refine ⟨h.p, h.aliasProbability, h.aliasTable, h.stored, by simp [h.smallLength],
    h.largeLength, ?_, h.nLarge, ?_, h.large⟩
  · show (w.nSmall + 1) % 2 ^ 32 = d.small.length + 1
    rw [h.nSmall]
    omega
  · show (w.small.set w.nSmall j).take (d.small.length + 1) = (j :: d.small).reverse
    have hlen : d.small.length < w.small.length := by rw [h.smallLength]; exact hlt
    rw [h.nSmall, List.take_add_one, List.take_set_of_le (le_refl _), h.small,
      List.getElem?_set_self hlen, List.reverse_cons]
    rfl

theorem shows_pushLarge (h : Shows n w d) (hn : n < 2 ^ 32) (hlt : d.large.length < n) (j : ℕ) :
    ∃ w', w.pushLarge j = some w' ∧ Shows n w' { d with large := j :: d.large } := by
  have hidx : w.nLarge = n - (d.large.length + 1) := by
    rw [h.nLarge]
    omega
  have hlen : w.nLarge < w.large.length := by
    rw [hidx, h.largeLength]
    omega
  refine ⟨_, if_pos hlen, ?_⟩
  refine ⟨h.p, h.aliasProbability, h.aliasTable, h.stored, h.smallLength,
    by simp [h.largeLength], h.nSmall, ?_, h.small, ?_⟩
  · show pred32 w.nLarge = (n + (2 ^ 32 - 1) - (d.large.length + 1)) % 2 ^ 32
    rw [hidx, pred32]
    omega
  · show (w.large.set w.nLarge j).drop (n - (d.large.length + 1)) = j :: d.large
    rw [← hidx, List.drop_eq_getElem_cons (by simpa using hlen), List.getElem_set_self,
      List.drop_set_of_lt (by omega)]
    have hsucc : w.nLarge + 1 = n - d.large.length := by omega
    rw [hsucc, h.large]

theorem shows_popSmall (h : Shows n w d) (hn : n < 2 ^ 32) {i : ℕ} {small : List ℕ}
    (hd : d.small = i :: small) (hlt : d.small.length ≤ n) :
    ∃ w', w.popSmall = some (i, w') ∧ Shows n w' { d with small := small } := by
  have hsmall := h.small
  have hnSmall := h.nSmall
  rw [hd, List.length_cons] at hsmall hnSmall hlt
  have hlen : small.length < w.small.length := by
    rw [h.smallLength]
    omega
  have hidx : pred32 w.nSmall = small.length := by
    rw [hnSmall, pred32]
    omega
  rw [List.take_succ_eq_append_getElem hlen, List.reverse_cons] at hsmall
  obtain ⟨htake, hget⟩ := List.append_inj' hsmall rfl
  refine ⟨{ w with nSmall := small.length }, ?_, ?_⟩
  · unfold Work.popSmall
    rw [hidx, List.getElem?_eq_getElem hlen, (List.cons.inj hget).1]
    rfl
  · exact ⟨h.p, h.aliasProbability, h.aliasTable, h.stored, h.smallLength, h.largeLength, rfl,
      h.nLarge, htake, h.large⟩

theorem shows_popLarge (h : Shows n w d) (hn : n < 2 ^ 32) {i : ℕ} {large : List ℕ}
    (hd : d.large = i :: large) (hlt : d.large.length ≤ n) :
    ∃ w', w.popLarge = some (i, w') ∧ Shows n w' { d with large := large } := by
  have hlarge := h.large
  have hnLarge := h.nLarge
  rw [hd, List.length_cons] at hlarge hnLarge hlt
  have hidx : succ32 w.nLarge = n - (large.length + 1) := by
    rw [hnLarge, succ32]
    omega
  have hlen : n - (large.length + 1) < w.large.length := by
    rw [h.largeLength]
    omega
  rw [List.drop_eq_getElem_cons hlen] at hlarge
  obtain ⟨hget, hdrop⟩ := List.cons.inj hlarge
  have hsucc : n - (large.length + 1) + 1 = n - large.length := by omega
  refine ⟨{ w with nLarge := n - (large.length + 1) }, ?_, ?_⟩
  · unfold Work.popLarge
    rw [hidx, List.getElem?_eq_getElem hlen, hget]
    rfl
  · refine ⟨h.p, h.aliasProbability, h.aliasTable, h.stored, h.smallLength, h.largeLength,
      h.nSmall, ?_, h.small, ?_⟩
    · show n - (large.length + 1) = (n + (2 ^ 32 - 1) - large.length) % 2 ^ 32
      omega
    · show w.large.drop (n - large.length) = large
      rw [← hsucc, hdrop]

theorem shows_store (h : Shows n w d) {i : ℕ} (hi : i < n) (x : X) :
    ∃ w', w.store i (some x) = some w' ∧ w'.p = w.p ∧
      Shows n w' { d with prob := Function.update d.prob i x, closed := i :: d.closed } := by
  refine ⟨_, if_pos (by rw [h.aliasProbability]; simpa using hi), rfl, ?_⟩
  refine ⟨h.p, ?_, h.aliasTable, ?_, h.smallLength, h.largeLength, h.nSmall, h.nLarge, h.small,
    h.large⟩
  · show w.aliasProbability.set i (some x) = _
    rw [h.aliasProbability, set_range_map]
    refine List.map_congr_left fun j _ => ?_
    by_cases hji : j = i
    · simp [hji]
    · simp [Function.update_of_ne hji]
  · show i :: w.stored = i :: d.closed
    rw [h.stored]

theorem shows_setAlias (h : Shows n w d) {i : ℕ} (hi : i < n) (j : ℕ) :
    ∃ w', w.setAlias i j = some w' ∧
      Shows n w' { d with other := Function.update d.other i j } := by
  refine ⟨_, if_pos (by rw [h.aliasTable]; simpa using hi), ?_⟩
  refine ⟨h.p, h.aliasProbability, ?_, h.stored, h.smallLength, h.largeLength, h.nSmall,
    h.nLarge, h.small, h.large⟩
  show w.aliasTable.set i j = _
  rw [h.aliasTable, set_range_map]

/-- Both stacks are empty where the code finds them so. -/
theorem Shows.nSmall_eq_zero_iff (h : Shows n w d) : w.nSmall = 0 ↔ d.small = [] := by
  rw [h.nSmall, List.length_eq_zero_iff]

theorem Shows.nLarge_eq_iff (h : Shows n w d) (hn : n < 2 ^ 32) (hlt : d.large.length ≤ n) :
    w.nLarge = pred32 n ↔ d.large = [] := by
  rw [h.nLarge, pred32, ← List.length_eq_zero_iff]
  omega

end Stacks

section Steps

variable {n : ℕ} {w : Work R} {d : Draft R}

theorem shows_put (h : Shows n w d) (hn : n < 2 ^ 32) {j : ℕ} (hj : j < n)
    (hroom : d.small.length + d.large.length < n) :
    ∃ w', w.put j = some w' ∧ Shows n w' (d.place j) := by
  have hp : w.p[j]? = some (some (d.weight j)) := by
    rw [h.p, getElem?_range_map _ hj]
  unfold Work.put Draft.place
  rw [hp, Option.bind_some]
  show ∃ w', (if decide (d.weight j < 1) = true then _ else _) = _ ∧ _
  by_cases hlt : d.weight j < 1
  · rw [if_pos (by simpa using hlt), if_pos hlt]
    exact shows_pushSmall h hn (by omega) j
  · rw [if_neg (by simpa using hlt), if_neg hlt]
    exact shows_pushLarge h hn (by omega) j

omit [LinearOrder R] in
theorem shows_reduce (h : Shows n w d) {small large : ℕ} (hs : small < n) (hl : large < n) :
    ∃ w', w.reduce small large = some w' ∧
      Shows n w' { d with
        weight := Function.update d.weight large (d.weight large - (1 - d.weight small)) } := by
  have hps : w.p[small]? = some (some (d.weight small)) := by
    rw [h.p, getElem?_range_map _ hs]
  have hpl : w.p[large]? = some (some (d.weight large)) := by
    rw [h.p, getElem?_range_map _ hl]
  unfold Work.reduce
  rw [hps, hpl]
  refine ⟨_, rfl, ?_⟩
  refine ⟨?_, h.aliasProbability, h.aliasTable, h.stored, h.smallLength, h.largeLength, h.nSmall,
    h.nLarge, h.small, h.large⟩
  show w.p.set large (some (d.weight large - (1 - d.weight small))) = _
  rw [h.p, set_range_map]
  refine List.map_congr_left fun j _ => ?_
  by_cases hjl : j = large
  · simp [hjl]
  · simp [Function.update_of_ne hjl]

theorem shows_fill (h : Shows n w d) (hn : n < 2 ^ 32) {j : ℕ}
    (hroom : d.small.length + d.large.length + j ≤ n) :
    ∃ w', Work.fill j w = some w' ∧ Shows n w' ((List.range j).foldr Draft.place d) := by
  induction j generalizing w d with
  | zero => exact ⟨w, rfl, h⟩
  | succ j ih =>
    obtain ⟨w₁, hput, h₁⟩ := shows_put h hn (j := j) (by omega) (by omega)
    have hlen := d.place_length j
    obtain ⟨w₂, hfill, h₂⟩ := ih h₁ (by omega)
    refine ⟨w₂, ?_, ?_⟩
    · unfold Work.fill
      rw [hput, Option.bind_some, hfill]
    · rw [List.range_succ, List.foldr_append]
      exact h₂

omit [LinearOrder R] in
theorem shows_restSmall (h : Shows n w d) (hn : n < 2 ^ 32) {small : List ℕ}
    (hd : d.small = small) (hlt : d.small.length ≤ n) (hmem : ∀ i ∈ small, i < n) {k : ℕ}
    (hk : small.length < k) :
    ∃ w', w.restSmall k = some w' ∧
      Shows n w' (small.foldl (fun d i => d.close i) { d with small := [] }) := by
  induction small generalizing w d k with
  | nil =>
    obtain ⟨k, rfl⟩ : ∃ k', k = k' + 1 := ⟨k - 1, by simp at hk; omega⟩
    refine ⟨w, ?_, ?_⟩
    · unfold Work.restSmall
      rw [if_neg (by simpa using h.nSmall_eq_zero_iff.mpr hd)]
    · show Shows n w { d with small := [] }
      rw [← hd]
      exact h
  | cons i small ih =>
    obtain ⟨k, rfl⟩ : ∃ k', k = k' + 1 := ⟨k - 1, by simp at hk; omega⟩
    obtain ⟨hi, hmem⟩ := List.forall_mem_cons.mp hmem
    obtain ⟨w₁, hpop, h₁⟩ := shows_popSmall h hn hd hlt
    obtain ⟨w₂, hstore, -, h₂⟩ := shows_store h₁ hi 1
    have hlen : small.length ≤ n := by
      rw [hd, List.length_cons] at hlt
      omega
    obtain ⟨w₃, hrest, h₃⟩ := ih h₂ rfl hlen hmem (by simpa using hk)
    refine ⟨w₃, ?_, h₃⟩
    unfold Work.restSmall
    rw [if_pos (by rw [ne_eq, h.nSmall_eq_zero_iff, hd]; simp), hpop]
    show (w₁.store i (some 1)).bind _ = _
    rw [hstore, Option.bind_some, hrest]

omit [LinearOrder R] in
theorem shows_restLarge (h : Shows n w d) (hn : n < 2 ^ 32) {large : List ℕ}
    (hd : d.large = large) (hlt : d.large.length ≤ n) (hmem : ∀ i ∈ large, i < n) {k : ℕ}
    (hk : large.length < k) :
    ∃ w', w.restLarge n k = some w' ∧
      Shows n w' (large.foldl (fun d i => d.close i) { d with large := [] }) := by
  induction large generalizing w d k with
  | nil =>
    obtain ⟨k, rfl⟩ : ∃ k', k = k' + 1 := ⟨k - 1, by simp at hk; omega⟩
    refine ⟨w, ?_, ?_⟩
    · unfold Work.restLarge
      rw [if_neg (by simpa using (h.nLarge_eq_iff hn hlt).mpr hd)]
    · show Shows n w { d with large := [] }
      rw [← hd]
      exact h
  | cons i large ih =>
    obtain ⟨k, rfl⟩ : ∃ k', k = k' + 1 := ⟨k - 1, by simp at hk; omega⟩
    obtain ⟨hi, hmem⟩ := List.forall_mem_cons.mp hmem
    obtain ⟨w₁, hpop, h₁⟩ := shows_popLarge h hn hd hlt
    obtain ⟨w₂, hstore, -, h₂⟩ := shows_store h₁ hi 1
    have hlen : large.length ≤ n := by
      rw [hd, List.length_cons] at hlt
      omega
    obtain ⟨w₃, hrest, h₃⟩ := ih h₂ rfl hlen hmem (by simpa using hk)
    refine ⟨w₃, ?_, h₃⟩
    unfold Work.restLarge
    rw [if_pos (by rw [ne_eq, h.nLarge_eq_iff hn hlt, hd]; simp), hpop]
    show (w₁.store i (some 1)).bind _ = _
    rw [hstore, Option.bind_some, hrest]

variable {P : ℕ → R}

/-- The body of the loop that pairs is a step of the draft. -/
theorem shows_pairStep (h : Shows n w d) (hs : Sound n P d) (hn : n < 2 ^ 32) {d' : Draft R}
    (hstep : d.step = some d') : ∃ w', w.pairStep = some w' ∧ Shows n w' d' := by
  obtain ⟨s, small, l, large, hsmall, hlarge, rfl⟩ := Draft.step_cases hstep
  have hlen := hs.length_eq
  have hsn : s < n := hs.mem_lt (by simp [hsmall])
  have hln : l < n := hs.mem_lt (by simp [hlarge])
  obtain ⟨w₁, hpop₁, h₁⟩ := shows_popSmall h hn hsmall (by omega)
  obtain ⟨w₂, hpop₂, h₂⟩ := shows_popLarge h₁ hn hlarge (show d.large.length ≤ n by omega)
  have hps : w₂.p[s]? = some (some (d.weight s)) := by
    rw [h₂.p, getElem?_range_map _ hsn]
  obtain ⟨w₃, hstore, -, h₃⟩ := shows_store h₂ hsn (d.weight s)
  obtain ⟨w₄, hset, h₄⟩ := shows_setAlias h₃ hsn l
  obtain ⟨w₅, hreduce, h₅⟩ := shows_reduce h₄ hsn hln
  have hroom : small.length + large.length < n := by
    rw [hsmall, hlarge] at hlen
    simp only [List.length_cons] at hlen
    omega
  obtain ⟨w₆, hput, h₆⟩ := shows_put h₅ hn hln hroom
  refine ⟨w₆, ?_, h₆⟩
  unfold Work.pairStep
  rw [hpop₁]
  show w₁.popLarge.bind _ = _
  rw [hpop₂]
  show w₂.p[s]?.bind _ = _
  rw [hps, Option.bind_some, hstore, Option.bind_some, hset, Option.bind_some, hreduce,
    Option.bind_some, hput]

theorem shows_pairLoop [IsStrictOrderedRing R] (h : Shows n w d) (hs : Sound n P d)
    (hn : n < 2 ^ 32) {k : ℕ} (hk : d.small.length + d.large.length < k) :
    ∃ w', w.pairLoop n k = some w' ∧ Shows n w' (d.run k) := by
  induction k generalizing w d with
  | zero => omega
  | succ k ih =>
    have hlen := hs.length_eq
    have hgo : (w.nSmall ≠ 0 ∧ w.nLarge ≠ pred32 n) ↔ d.small ≠ [] ∧ d.large ≠ [] :=
      and_congr h.nSmall_eq_zero_iff.not (h.nLarge_eq_iff hn (by omega)).not
    unfold Work.pairLoop Draft.run
    cases hstep : d.step with
    | none =>
      rw [if_neg (by rw [hgo]; have := Draft.step_eq_none hstep; tauto)]
      exact ⟨w, rfl, h⟩
    | some d' =>
      obtain ⟨s, small, l, large, hsmall, hlarge, -⟩ := Draft.step_cases hstep
      obtain ⟨w₁, hpair, h₁⟩ := shows_pairStep h hs hn hstep
      have hless := Draft.step_length hstep
      obtain ⟨w₂, hloop, h₂⟩ := ih h₁ (hs.step hstep) (by omega)
      refine ⟨w₂, ?_, h₂⟩
      rw [if_pos (by rw [hgo, hsmall, hlarge]; simp), hpair, Option.bind_some, hloop]

omit [LinearOrder R] in
theorem shows_init (hp : w = Work.init ((List.range n).map fun i => some (P i))) :
    Shows n w ⟨P, [], [], fun _ => 0, fun _ => 0, []⟩ := by
  subst hp
  refine ⟨rfl, ?_, ?_, rfl, ?_, ?_, rfl, ?_, rfl, ?_⟩
  all_goals simp [Work.init, pred32]

/-- The last two loops finish the draft. -/
theorem shows_rest (h : Shows n w d) (hs : Sound n P d) (hn : n < 2 ^ 32) :
    ∃ w', ((w.restSmall (n + 1)).bind fun w => w.restLarge n (n + 1)) = some w' ∧
      Shows n w' d.finish := by
  have hlen := hs.length_eq
  obtain ⟨w₁, hsmall, h₁⟩ := shows_restSmall (k := n + 1) h hn rfl (by omega)
    (fun i hi => hs.mem_lt (by simp [hi])) (by omega)
  have hlarge : (d.small.foldl (fun d i => Draft.close i d) { d with small := [] }).large =
      d.large := by
    have h := close_list_large d.small d.large { d with small := [] }
    exact (congrArg Draft.large h).trans rfl
  obtain ⟨w₂, hrest, h₂⟩ := shows_restLarge (k := n + 1) h₁ hn hlarge (by rw [hlarge]; omega)
    (fun i hi => hs.mem_lt (by simp [hi])) (by omega)
  refine ⟨w₂, ?_, ?_⟩
  · rw [hsmall, Option.bind_some, hrest]
  · rw [← close_list_large] at h₂
    rw [Draft.finish, List.foldl_append]
    exact h₂

/-- The loops end with the finished draft. -/
theorem shows_build [IsStrictOrderedRing R] (hn₀ : 0 < n) (hn : n ≤ 2 ^ 31) (hP : ∀ i, 0 ≤ P i) :
    ∃ w, build ((List.range n).map fun i => some (P i)) = some w ∧
      Shows n w ((Draft.start n P).run (n + 1)).finish := by
  have hn' : n < 2 ^ 32 := by omega
  have hlen : ((List.range n).map fun i => some (P i)).length = n := by simp
  have hstart := sound_start hn₀ hP
  have hstartLen := hstart.length_eq
  obtain ⟨w₁, hfill, h₁⟩ := shows_fill (j := n) (shows_init (P := P) rfl) hn' (by simp)
  obtain ⟨w₂, hpair, h₂⟩ := shows_pairLoop (k := n + 1) h₁ hstart hn'
    (show (Draft.start n P).small.length + (Draft.start n P).large.length < n + 1 by omega)
  obtain ⟨w₃, hrest, h₃⟩ := shows_rest h₂ (hstart.run (n + 1)) hn'
  refine ⟨w₃, ?_, h₃⟩
  unfold build
  rw [hlen, rounds, if_pos hn, hfill, Option.bind_some, hpair, Option.bind_some, hrest]

end Steps

/-! ## Normalisation -/

section Shares

/-- What an entry adds to the sum of the values. -/
def part (value : AliasEntry R → R) (q : AliasEntry R) : R := if q.disabled then 0 else value q

omit [LinearOrder R] in
theorem sum_enabled (value : AliasEntry R → R) (queue : List (AliasEntry R)) :
    ((enabled queue).map value).sum = (queue.map (part value)).sum := by
  induction queue with
  | nil => rfl
  | cons q queue ih =>
    unfold enabled at ih ⊢
    cases hq : q.disabled with
    | true => simp [hq, part, ih]
    | false => simp [hq, part, ih]

omit [LinearOrder R] in
theorem range_getD (l : List R) : ((List.range l.length).map fun i => l.getD i 0) = l := by
  apply List.ext_getElem (by simp)
  intro i h₁ h₂
  simp [List.getD_eq_getElem?_getD, h₂]

variable {value : AliasEntry R → R} {sum : R} {queue : List (AliasEntry R)}

/-- The shares of the entries. -/
def shareList (value : AliasEntry R → R) (sum : R) (queue : List (AliasEntry R)) : List R :=
  queue.map fun q => part value q * queue.length / sum

theorem shares_eq (hsum : sum ≠ 0) :
    shares value sum queue = (shareList value sum queue).map some := by
  unfold shares shareList
  rw [List.map_map]
  refine List.map_congr_left fun q _ => ?_
  show _ = some (part value q * queue.length / sum)
  cases hq : q.disabled with
  | true => simp [part, hq]
  | false => simp [part, hq, quot, hsum]

omit [LinearOrder R] in
theorem sum_shareList : (shareList value sum queue).sum =
    (queue.map (part value)).sum * queue.length / sum := by
  unfold shareList
  rw [mul_div_assoc, ← List.sum_map_mul_right]
  simp only [mul_div_assoc]

theorem range_map_some {α : Type} {l : List α} {P : ℕ → α} {n : ℕ}
    (h : l.map some = (List.range n).map fun i => some (P i)) : l = (List.range n).map P := by
  have hinj : Function.Injective (List.map (some : α → Option α)) :=
    List.map_injective_iff.mpr (Option.some_injective α)
  refine hinj ?_
  rw [h, List.map_map]
  rfl

/-- The share of the entry `i`. -/
def share (value : AliasEntry R → R) (sum : R) (queue : List (AliasEntry R)) (i : ℕ) : R :=
  (shareList value sum queue).getD i 0

omit [LinearOrder R] in
theorem range_share :
    (List.range queue.length).map (share value sum queue) = shareList value sum queue := by
  have hrange := range_getD (shareList value sum queue)
  rwa [show (shareList value sum queue).length = queue.length from List.length_map _] at hrange

theorem shares_eq_range (hsum : sum ≠ 0) : shares value sum queue =
    (List.range queue.length).map fun i => some (share value sum queue i) := by
  rw [shares_eq hsum, ← range_share, List.map_map]
  rfl

/-- The shares are numbers that sum up to the length exactly if the values do to the sum by
which they are divided. -/
theorem shares_spec [CharZero R] (hlen : 0 < queue.length) :
    (∃ P : ℕ → R, shares value sum queue = (List.range queue.length).map (fun i => some (P i)) ∧
      ((List.range queue.length).map P).sum = queue.length) ↔
      sum ≠ 0 ∧ (queue.map (part value)).sum = sum := by
  have hn : (queue.length : R) ≠ 0 := Nat.cast_ne_zero.mpr (by omega)
  constructor
  · intro ⟨P, hP, hsum⟩
    by_cases hzero : sum = 0
    · -- Without a sum the share of an enabled entry is no number.
      exfalso
      have hall : ∀ q ∈ queue, (if q.disabled then some 0 else quot (value q * queue.length) sum) =
          some (0 : R) := by
        intro q hq
        cases hdis : q.disabled with
        | true => rfl
        | false =>
          exfalso
          have hmem : (none : Option R) ∈ shares value sum queue :=
            List.mem_map.mpr ⟨q, hq, by simp [hdis, quot, hzero]⟩
          rw [hP] at hmem
          simp at hmem
      have hzeros : (queue.map fun _ => (0 : R)).map some =
          (List.range queue.length).map fun i => some (P i) := by
        rw [← hP, List.map_map]
        exact List.map_congr_left fun q hq => (hall q hq).symm
      rw [← range_map_some hzeros] at hsum
      exact hn (hsum.symm.trans (by simp))
    · refine ⟨hzero, ?_⟩
      rw [shares_eq hzero] at hP
      rw [← range_map_some hP, sum_shareList, div_eq_iff hzero] at hsum
      exact mul_right_cancel₀ hn (hsum.trans (mul_comm _ _))
  · intro ⟨hzero, hsum⟩
    refine ⟨share value sum queue, shares_eq_range hzero, ?_⟩
    rw [range_share, sum_shareList, hsum, mul_comm, mul_div_cancel_right₀ _ hzero]

theorem share_nonneg [IsStrictOrderedRing R] (hvalue : ∀ q ∈ queue, 0 ≤ part value q)
    (hsum : 0 ≤ sum) (i : ℕ) : 0 ≤ share value sum queue i := by
  unfold share shareList
  rw [List.getD_eq_getElem?_getD, List.getElem?_map]
  cases hq : queue[i]? with
  | none => exact le_refl 0
  | some q =>
    show 0 ≤ part value q * queue.length / sum
    have := hvalue q (List.mem_of_getElem? hq)
    positivity

omit [LinearOrder R] in
theorem share_disabled {i : ℕ} {q : AliasEntry R} (hq : queue[i]? = some q)
    (hdis : q.disabled = true) : share value sum queue i = 0 := by
  simp [share, shareList, List.getD_eq_getElem?_getD, hq, part, hdis]

end Shares

section Correct

variable {m} {afl : AliasQueue R}

/-- Too many entries for the `s32`: the loop that fills the stacks does nothing. -/
theorem build_of_lt {p : List (Option R)} (hp : 2 ^ 31 < p.length) :
    build p = some (Work.init p) := by
  have hrounds : rounds p.length = 0 := by
    unfold rounds
    rw [if_neg (not_le.mpr hp)]
  have hnSmall : (Work.init p).nSmall = 0 := rfl
  have hnLarge : (Work.init p).nLarge = pred32 p.length := rfl
  have hsmall : ∀ k, (Work.init p).restSmall (k + 1) = some (Work.init p) := by
    intro k
    unfold Work.restSmall
    rw [if_neg (not_not.mpr hnSmall)]
  have hlarge : ∀ k, (Work.init p).restLarge p.length (k + 1) = some (Work.init p) := by
    intro k
    unfold Work.restLarge
    rw [if_neg (not_not.mpr hnLarge)]
  have hpair : ∀ k, (Work.init p).pairLoop p.length (k + 1) = some (Work.init p) := by
    intro k
    unfold Work.pairLoop
    rw [if_neg fun h => h.1 hnSmall]
  have hfill : Work.fill 0 (Work.init p) = some (Work.init p) := rfl
  unfold build
  rw [hrounds, hfill, Option.bind_some, hpair, Option.bind_some, hsmall, Option.bind_some, hlarge]

/-- The table is right if and only if the weights that are normalised sum up to the sum. -/
theorem correct_iff_sum [IsStrictOrderedRing R] {value : AliasEntry R → R} {sum : R}
    {queue : List (AliasEntry R)} (hp : (collect m afl).2 = shares value sum queue)
    (hlen : queue.length = afl.queueBuf.length)
    (hdis : ∀ (i : ℕ) (q : AliasEntry R), afl.queueBuf[i]? = some q → q.disabled = true →
      ∃ q' : AliasEntry R, queue[i]? = some q' ∧ q'.disabled = true)
    (hvalue : ∀ q ∈ queue, 0 ≤ part value q) (hsum : 0 ≤ sum) (hn₀ : 0 < afl.queueBuf.length) :
    Correct m afl ↔ afl.queueBuf.length ≤ 2 ^ 31 ∧
      sum ≠ 0 ∧ (queue.map (part value)).sum = sum := by
  have hspec : (∃ P : ℕ → R, shares value sum queue =
      (List.range queue.length).map (fun i => some (P i)) ∧
        ((List.range queue.length).map P).sum = queue.length) ↔
      sum ≠ 0 ∧ (queue.map (part value)).sum = sum := shares_spec (by omega)
  rw [hlen] at hspec
  constructor
  · intro ⟨P, prob, other, w, h⟩
    refine ⟨?_, hspec.mp ⟨P, hp ▸ h.weights, h.sum⟩⟩
    by_contra hbig
    have hbuild : build (collect m afl).2 = some (Work.init (collect m afl).2) :=
      build_of_lt (by rw [h.weights]; simpa using hbig)
    have hruns := h.runs
    unfold createAliasTable at hruns
    rw [hbuild] at hruns
    have hw : w = Work.init (collect m afl).2 :=
      (congrArg Prod.snd (Option.some.inj hruns)).symm
    have honce := h.once.length_eq
    rw [hw] at honce
    have hzero : 0 = afl.queueBuf.length := by simpa [Work.init] using honce
    omega
  · intro ⟨hn, hzero, hmass⟩
    have hP := share_nonneg hvalue hsum
    have hrange : (collect m afl).2 = (List.range afl.queueBuf.length).map
        fun i => some (share value sum queue i) := by
      rw [hp, shares_eq_range hzero, hlen]
    have hn32 : ((List.range afl.queueBuf.length).map (share value sum queue)).sum =
        afl.queueBuf.length := by
      rw [← hlen, range_share, sum_shareList, hmass, mul_comm, mul_div_cancel_right₀ _ hzero]
    obtain ⟨w, hbuild, hshows⟩ := shows_build hn₀ hn hP
    have hstart := sound_start hn₀ hP
    have hrun := hstart.run (afl.queueBuf.length + 1)
    have hstartLen := hstart.length_eq
    obtain ⟨hencodes, hperm, hbounds, hother⟩ :=
      hrun.encodes (Draft.run_stops _ (by omega)) hn32
    refine ⟨share value sum queue, _, _, w, ?_, hrange, fun i _ => hP i, hn32, ?_,
      hshows.aliasProbability, hshows.aliasTable, hencodes, hbounds, fun i _ => hother i, ?_⟩
    · unfold createAliasTable
      rw [hrange, hbuild]
      rfl
    · intro i q hq hqdis
      obtain ⟨q', hq', hdis'⟩ := hdis i q hq hqdis
      exact share_disabled hq' hdis'
    · rw [hshows.stored]
      exact hperm

end Correct

/-! ## The weights of the schedules -/

section Weights

variable [IsStrictOrderedRing R]

omit [Field R] [IsStrictOrderedRing R] in
theorem ite_pos [Zero R] {c : Prop} [Decidable c] {x y : R} (hx : 0 < x) (hy : 0 < y) :
    0 < if c then x else y := by
  split
  · exact hx
  · exact hy

theorem execFactor_pos (t : Option R) : 0 < execFactor t := by
  unfold execFactor
  repeat' apply ite_pos
  all_goals norm_num

theorem lenFactor_pos (l : Option R) : 0 < lenFactor l := by
  unfold lenFactor
  repeat' apply ite_pos
  all_goals norm_num

theorem bitmapFactor_pos (bms : Option R) : 0 < bitmapFactor bms := by
  unfold bitmapFactor
  repeat' apply ite_pos
  all_goals norm_num

variable {m} {afl : AliasQueue R}

theorem hitsFactor_pos (q : AliasEntry R) : 0 < hitsFactor m afl q := by
  unfold hitsFactor
  refine ite_pos ?_ zero_lt_one
  show 0 < if afl.nFuzz q.nFuzzEntry ≠ 0 then _ else _
  split
  next hne =>
    have hlog := m.log10_nonneg _ (Nat.pos_of_ne_zero hne)
    exact div_pos zero_lt_one (by linarith)
  next => exact zero_lt_one

theorem weightOf_pos (avg : Averages R) (q : AliasEntry R) : 0 < weightOf m afl avg q := by
  have hhits : 0 < hitsFactor m afl q := hitsFactor_pos q
  have hexec := execFactor_pos (quot (q.execUs : R) avg.execUs)
  have hlen := lenFactor_pos (quot (q.len : R) avg.len)
  have hsize := bitmapFactor_pos (relativeSize avg q)
  unfold weightOf
  refine mul_pos (mul_pos (mul_pos (mul_pos (mul_pos hhits ?_) hlen) hsize) ?_) ?_
  · exact ite_pos hexec zero_lt_one
  · exact ite_pos (by norm_num) zero_lt_one
  · exact ite_pos (by norm_num) zero_lt_one

/-- Values that are not negative sum up to 0 only if all are 0. -/
theorem sum_part_ne_zero_iff {value : AliasEntry R → R} {queue : List (AliasEntry R)}
    (hvalue : ∀ q ∈ queue, 0 ≤ part value q) :
    (queue.map (part value)).sum ≠ 0 ↔ ∃ q ∈ queue, part value q ≠ 0 := by
  induction queue with
  | nil => simp
  | cons q queue ih =>
    obtain ⟨hq, hqueue⟩ := List.forall_mem_cons.mp hvalue
    have hrest : 0 ≤ (queue.map (part value)).sum :=
      List.sum_nonneg fun x hx => by
        obtain ⟨q', hq', rfl⟩ := List.mem_map.mp hx
        exact hqueue q' hq'
    rw [List.map_cons, List.sum_cons, ne_eq, add_eq_zero_iff_of_nonneg hq hrest, not_and_or,
      List.exists_mem_cons_iff]
    exact or_congr Iff.rfl (ih hqueue)

omit [IsStrictOrderedRing R] in
theorem part_weigh (avg : Averages R) (q : AliasEntry R) :
    part (·.weight) (weigh m afl avg q) = if q.disabled then 0 else weightOf m afl avg q := by
  unfold part weigh
  cases hq : q.disabled with
  | true => simp [hq]
  | false => simp

theorem part_weigh_nonneg (avg : Averages R) (q : AliasEntry R) :
    0 ≤ part (·.weight) (weigh m afl avg q) := by
  rw [part_weigh]
  split
  · exact le_refl 0
  · exact (weightOf_pos avg q).le

omit [IsStrictOrderedRing R] in
theorem weigh_disabled (avg : Averages R) (q : AliasEntry R) :
    (weigh m afl avg q).disabled = q.disabled := by
  unfold weigh
  split <;> rfl

omit [Field R] [LinearOrder R] [IsStrictOrderedRing R] in
theorem doubled_iff (hn : afl.queueBuf.length < 2 ^ 32) {i : ℕ} (hi : i < afl.queueBuf.length) :
    Doubled afl i ↔ (afl.schedule = .mmopt ∧ afl.queuedDiscovered ≠ 0) ∧ doubledFrom afl ≤ i := by
  unfold Doubled doubledFrom
  rw [and_assoc]
  refine and_congr Iff.rfl (and_congr Iff.rfl ?_)
  generalize hc : min 5 afl.queuedDiscovered = c
  have hc5 : c ≤ 5 := hc ▸ Nat.min_le_left _ _
  omega

omit [LinearOrder R] [IsStrictOrderedRing R] in
theorem double_getElem? (queue : List (AliasEntry R)) (i : ℕ) :
    (double afl queue)[i]? = queue[i]?.map fun q =>
      if (afl.schedule = .mmopt ∧ afl.queuedDiscovered ≠ 0) ∧ doubledFrom afl ≤ i ∧
        q.disabled = false then { q with weight := q.weight * 2 } else q := by
  unfold double
  split
  next h => simp [h]
  next h => simp [h]

omit [LinearOrder R] [IsStrictOrderedRing R] in
theorem length_double (queue : List (AliasEntry R)) :
    (double afl queue).length = queue.length := by
  unfold double
  split
  · exact List.length_mapIdx
  · rfl

/-- The queue behind the second loop. -/
def weighed (m : AliasMath R) (afl : AliasQueue R) : List (AliasEntry R) :=
  afl.queueBuf.map (weigh m afl (averages m afl.queueBuf))

omit [IsStrictOrderedRing R] in
/-- What the entry `i` adds to the sum behind the loop that doubles. -/
theorem part_double (hn : afl.queueBuf.length < 2 ^ 32) {i : ℕ} {q : AliasEntry R}
    (hq : afl.queueBuf[i]? = some q) :
    ((double afl (weighed m afl)).map (part (·.weight)))[i]? =
      some (part (·.weight) (weigh m afl (averages m afl.queueBuf) q) +
        if Doubled afl i ∧ q.disabled = false then
          weightOf m afl (averages m afl.queueBuf) q else 0) := by
  obtain ⟨hi, -⟩ := List.getElem?_eq_some_iff.mp hq
  have hiff : ((afl.schedule = .mmopt ∧ afl.queuedDiscovered ≠ 0) ∧ doubledFrom afl ≤ i ∧
      q.disabled = false) ↔ Doubled afl i ∧ q.disabled = false := by
    rw [doubled_iff hn hi]
    tauto
  rw [List.getElem?_map, double_getElem?, weighed, List.getElem?_map, hq]
  simp only [Option.map_some, weigh_disabled, hiff, Option.some.injEq]
  cases hdis : q.disabled with
  | true => simp [part_weigh, hdis]
  | false =>
    by_cases hd : Doubled afl i
    · simp [part, weigh, hdis, hd, mul_two]
    · simp [hd]

/-- The doubled weights are missing in the sum, unless nothing is doubled. -/
theorem sum_double_iff (hn : afl.queueBuf.length < 2 ^ 32) :
    ((double afl (weighed m afl)).map (part (·.weight))).sum =
        ((weighed m afl).map (part (·.weight))).sum ↔
      ∀ i q, afl.queueBuf[i]? = some q → Doubled afl i → q.disabled = true := by
  have hold : ∀ (i : ℕ) (q : AliasEntry R), afl.queueBuf[i]? = some q →
      ((weighed m afl).map (part (·.weight)))[i]? =
        some (part (·.weight) (weigh m afl (averages m afl.queueBuf) q)) := by
    intro i q hq
    rw [List.getElem?_map, weighed, List.getElem?_map, hq]
    rfl
  have hlen₁ : ((weighed m afl).map (part (·.weight))).length = afl.queueBuf.length := by
    simp [weighed]
  have hlen₂ : ((double afl (weighed m afl)).map (part (·.weight))).length =
      afl.queueBuf.length := by
    simp [length_double, weighed]
  have hsum₁ := congrArg List.sum (range_getD ((weighed m afl).map (part (·.weight))))
  have hsum₂ := congrArg List.sum (range_getD ((double afl (weighed m afl)).map (part (·.weight))))
  rw [hlen₁] at hsum₁
  rw [hlen₂] at hsum₂
  constructor
  · intro heq i q hq hd
    obtain ⟨hi, -⟩ := List.getElem?_eq_some_iff.mp hq
    have hle : ∀ j ∈ List.range afl.queueBuf.length,
        ((weighed m afl).map (part (·.weight))).getD j 0 ≤
          ((double afl (weighed m afl)).map (part (·.weight))).getD j 0 := by
      intro j hj
      have hq' := List.getElem?_eq_getElem (List.mem_range.mp hj)
      rw [List.getD_eq_getElem?_getD, List.getD_eq_getElem?_getD, hold j _ hq', part_double hn hq']
      show _ ≤ _ + _
      refine le_add_of_nonneg_right ?_
      split
      · exact (weightOf_pos _ _).le
      · exact le_refl 0
    have hsame := Alias.eq_of_sum_le hle (by rw [hsum₁, hsum₂, heq]) i (List.mem_range.mpr hi)
    rw [List.getD_eq_getElem?_getD, List.getD_eq_getElem?_getD, hold i q hq, part_double hn hq]
      at hsame
    by_contra hdis
    have hpos : 0 < weightOf m afl (averages m afl.queueBuf) q := weightOf_pos _ q
    rw [if_pos ⟨hd, Bool.not_eq_true _ ▸ hdis⟩] at hsame
    have hzero : weightOf m afl (averages m afl.queueBuf) q = 0 := left_eq_add.mp hsame
    exact hpos.ne' hzero
  · intro hnone
    refine congrArg List.sum (List.ext_getElem? fun i => ?_)
    cases hq : afl.queueBuf[i]? with
    | none =>
      have hi := List.getElem?_eq_none_iff.mp hq
      rw [List.getElem?_eq_none (by omega), List.getElem?_eq_none (by omega)]
    | some q =>
      rw [hold i q hq, part_double hn hq, if_neg, add_zero]
      intro ⟨hd, hdis⟩
      rw [hnone i q hq hd] at hdis
      exact Bool.false_ne_true hdis.symm

/-- The sum of the weights is 0 only if every entry is disabled. -/
theorem sum_weighed_ne_zero_iff : ((weighed m afl).map (part (·.weight))).sum ≠ 0 ↔
    ∃ q ∈ afl.queueBuf, q.disabled = false := by
  rw [sum_part_ne_zero_iff]
  · constructor
    · intro ⟨q', hq', hne⟩
      obtain ⟨q, hq, rfl⟩ := List.mem_map.mp hq'
      refine ⟨q, hq, ?_⟩
      by_contra hdis
      exact hne (by rw [part_weigh, if_pos (Bool.not_eq_false _ ▸ hdis)])
    · intro ⟨q, hq, hdis⟩
      refine ⟨_, List.mem_map_of_mem hq, ?_⟩
      rw [part_weigh, hdis]
      exact (weightOf_pos _ q).ne'
  · intro q' hq'
    obtain ⟨q, -, rfl⟩ := List.mem_map.mp hq'
    exact part_weigh_nonneg _ q

/-- The schedules below `RARE`. -/
theorem correct_iff_weights (hschedule : afl.schedule.num < PowerSchedule.rare.num)
    (hn₀ : 0 < afl.queueBuf.length) (hn : afl.queueBuf.length < 2 ^ 32) :
    Correct m afl ↔ afl.queueBuf.length ≤ 2 ^ 31 ∧ (∃ q ∈ afl.queueBuf, q.disabled = false) ∧
      ∀ i q, afl.queueBuf[i]? = some q → Doubled afl i → q.disabled = true := by
  rw [← sum_double_iff (m := m) hn, ← sum_weighed_ne_zero_iff (m := m)]
  refine correct_iff_sum ?_ ?_ ?_ ?_ ?_ hn₀
  · unfold collect
    rw [if_pos hschedule, ← sum_enabled]
    rfl
  · rw [length_double, weighed, List.length_map]
  · intro i q hq hdis
    have hq' : (double afl (weighed m afl))[i]? = some q := by
      rw [double_getElem?, weighed, List.getElem?_map, hq]
      simp [weigh, hdis]
    exact ⟨q, hq', hdis⟩
  · intro q' hq'
    obtain ⟨i, hi⟩ := List.mem_iff_getElem?.mp hq'
    have hlen : i < afl.queueBuf.length := by
      have hlt := (List.getElem?_eq_some_iff.mp hi).1
      rwa [length_double, weighed, List.length_map] at hlt
    have hvalue := part_double (m := m) hn (List.getElem?_eq_getElem hlen)
    rw [List.getElem?_map, hi] at hvalue
    rw [Option.some.inj hvalue]
    refine add_nonneg (part_weigh_nonneg _ _) ?_
    split
    · exact (weightOf_pos _ _).le
    · exact le_refl 0
  · refine List.sum_nonneg fun x hx => ?_
    obtain ⟨q', hq', rfl⟩ := List.mem_map.mp hx
    obtain ⟨q, -, rfl⟩ := List.mem_map.mp hq'
    exact part_weigh_nonneg _ q

/-- The schedules from `RARE` on. -/
theorem correct_iff_scores (hschedule : ¬ afl.schedule.num < PowerSchedule.rare.num)
    (hn₀ : 0 < afl.queueBuf.length) :
    Correct m afl ↔ afl.queueBuf.length ≤ 2 ^ 31 ∧
      ∃ q ∈ afl.queueBuf, q.disabled = false ∧ m.calculateScore q ≠ 0 := by
  let scored (q : AliasEntry R) : AliasEntry R :=
    if q.disabled then q else { q with perfScore := m.calculateScore q }
  have hpart : ∀ q, part (·.perfScore) (scored q) =
      if q.disabled then 0 else (m.calculateScore q : R) := by
    intro q
    cases hdis : q.disabled with
    | true => simp [part, scored, hdis]
    | false => simp [part, scored, hdis]
  have hnonneg : ∀ q' ∈ afl.queueBuf.map scored, 0 ≤ part (·.perfScore) q' := by
    intro q' hq'
    obtain ⟨q, -, rfl⟩ := List.mem_map.mp hq'
    rw [hpart]
    split
    · exact le_refl 0
    · exact Nat.cast_nonneg _
  have hpos : ((afl.queueBuf.map scored).map (part (·.perfScore))).sum ≠ 0 ↔
      ∃ q ∈ afl.queueBuf, q.disabled = false ∧ m.calculateScore q ≠ 0 := by
    rw [sum_part_ne_zero_iff hnonneg]
    simp only [List.mem_map, exists_exists_and_eq_and]
    refine exists_congr fun q => and_congr Iff.rfl ?_
    rw [hpart]
    cases hdis : q.disabled with
    | true => simp
    | false => simp
  have hcollect : (collect m afl).2 = shares (·.perfScore)
      ((afl.queueBuf.map scored).map (part (·.perfScore))).sum (afl.queueBuf.map scored) := by
    unfold collect
    rw [if_neg hschedule, ← sum_enabled]
  rw [← hpos]
  refine (correct_iff_sum hcollect (List.length_map _) ?_ hnonneg ?_ hn₀).trans ?_
  · intro i q hq hdis
    have hq' : (afl.queueBuf.map scored)[i]? = some q := by
      rw [List.getElem?_map, hq]
      simp [scored, hdis]
    exact ⟨q, hq', hdis⟩
  · refine List.sum_nonneg fun x hx => ?_
    obtain ⟨q', hq', rfl⟩ := List.mem_map.mp hx
    exact hnonneg q' hq'
  · exact and_congr Iff.rfl (and_iff_left rfl)

/-- `create_alias_table`: the table encodes the normalised weights exactly if some weight is
positive, the sum is that of the weights that are normalised, and the queue is no longer than
the counter of the loop allows. -/
theorem aliasTable_iff (hn₀ : 0 < afl.queueBuf.length) (hn : afl.queueBuf.length < 2 ^ 32) :
    Correct m afl ↔ Weighted m afl := by
  unfold Weighted
  by_cases hschedule : afl.schedule.num < PowerSchedule.rare.num
  · rw [if_pos hschedule]
    exact correct_iff_weights hschedule hn₀ hn
  · rw [if_neg hschedule]
    exact correct_iff_scores hschedule hn₀

end Weights

/-! ## Three entries, and two -/

/-- The functions at 1, and the score of a quick new entry while nothing is calibrated. -/
def plainMath : AliasMath ℚ where
  log _ := 0
  log10 _ := 0
  log10_nonneg _ _ := le_refl 0
  calculateScore _ := 30

/-- A new entry. -/
def newEntry : AliasEntry ℚ :=
  { disabled := false, wasFuzzed := false, fsRedundant := false, execUs := 100, len := 10,
    bitmapSize := 1, nFuzzEntry := 0, weight := 1, perfScore := 0 }

/-- Two entries alike, the second one discovered last. -/
def twin (schedule : PowerSchedule) : AliasQueue ℚ where
  schedule := schedule
  queueBuf := [newEntry, newEntry]
  nFuzz _ := 0
  queuedDiscovered := 1

/-- A new entry, one that was fuzzed, and one that is disabled. -/
def threeEntries : AliasQueue ℚ where
  schedule := .explore
  queueBuf :=
    [newEntry, { newEntry with wasFuzzed := true }, { newEntry with disabled := true }]
  nFuzz _ := 0
  queuedDiscovered := 2

theorem collect_threeEntries :
    (collect plainMath threeEntries).2 = [some (15 / 7), some (6 / 7), some 0] := by
  decide +kernel

/-- The entry that was fuzzed and the disabled one are paired with the new one. -/
theorem aliasTable_threeEntries :
    Correct plainMath threeEntries ∧
      (createAliasTable plainMath threeEntries).map
        (fun t => (t.2.aliasProbability, t.2.aliasTable)) =
          some ([some 1, some (6 / 7), some 0], [0, 0, 0]) := by
  constructor
  · refine (aliasTable_iff (by decide) (by decide)).mpr ⟨by decide, ?_⟩
    rw [if_pos (by decide)]
    refine ⟨⟨_, List.mem_cons_self, rfl⟩, ?_⟩
    intro i q hq hd
    exact absurd hd.1 (by decide)
  · unfold createAliasTable
    rw [collect_threeEntries]
    decide +kernel

theorem collect_twin : (collect plainMath (twin .mmopt)).2 = [some 1, some 2] := by
  decide +kernel

/-- Under `MMOPT` the last entry weighs 2, and the table draws it as often as the other. -/
theorem newest_weight_lost :
    (collect plainMath (twin .mmopt)).2 = [some 1, some 2] ∧
      (createAliasTable plainMath (twin .mmopt)).map
        (fun t => (t.2.aliasProbability, t.2.aliasTable)) =
          some ([some 1, some 1], [0, 0]) ∧
      ¬ Correct plainMath (twin .mmopt) := by
  refine ⟨collect_twin, ?_, ?_⟩
  · unfold createAliasTable
    rw [collect_twin]
    decide +kernel
  · intro ⟨P, prob, other, w, h⟩
    have hweights := h.weights
    have hsum := h.sum
    rw [collect_twin] at hweights
    have hP : P 0 = 1 ∧ P 1 = 2 := by
      simpa [twin, List.range_succ, eq_comm] using hweights
    norm_num [twin, List.range_succ, hP] at hsum

end AliasTable

end AflNv
