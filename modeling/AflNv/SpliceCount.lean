import Mathlib.Algebra.Order.Ring.Nat
import Mathlib.Data.List.Count

/-!
# How many entries are ready for splicing

`add_to_queue` (afl-fuzz-queue.c) counts an entry of more than 4 bytes in
`ready_for_splicing_count`, and `fuzz_one_original` (afl-fuzz-one.c) takes an entry off the count
that trimming brought down to 4 bytes.  The search for a splicing partner starts when two entries
are counted, and draws until it has another entry that is long enough.

Between the two, `add_to_queue` hands the new file to the custom mutators, once there is a current
entry or while another fuzzer's entry is imported, and takes the length again when one of them has
changed it; the count stays as it is.

* `Inv` says that the count is the number of long entries, in 32 bits.
* `step_inv` keeps it for every step in which no custom mutator carries a length over the 4 bytes,
  and `run_inv` for every run of such steps.
-/

namespace AflNv.SpliceCount

/-- `struct queue_entry` -/
structure QueueEntry where
  len : ℕ
  trimDone : Bool
  deriving DecidableEq

/-- The queue, with the count (`u32`) and the index of `queue_cur`. -/
structure State where
  queueBuf : List QueueEntry
  readyForSplicingCount : UInt32
  queueCur : Option ℕ
  deriving DecidableEq

inductive Event where
  /-- `add_to_queue`, with a `syncing_party` or without.  The second length is the size of the file
  when a custom mutator says that it has changed it. -/
  | addToQueue (len : ℕ) (syncing : Bool) (changed : Option ℕ)
  /-- An entry becomes the current one. -/
  | select (currentEntry : ℕ)
  /-- The trimming of the current entry, that ends without a request to stop. -/
  | trim (newLen : ℕ)

/-- `run_afl_custom_queue_new_entry`; an empty file is fatal. -/
def runAflCustomQueueNewEntry (q : QueueEntry) : Option ℕ → Option QueueEntry
  | none => some q
  | some stSize => if stSize = 0 then none else some { q with len := stSize % 2 ^ 32 }

/-- Without a current entry and a `syncing_party` no custom mutator is asked. -/
def addToQueue (s : State) (len : ℕ) (syncing : Bool) (changed : Option ℕ) : Option State :=
  if s.queueCur = none ∧ syncing = false ∧ changed ≠ none then none
  else do
    let q : QueueEntry := { len := len, trimDone := false }
    let count := if q.len > 4 then s.readyForSplicingCount + 1 else s.readyForSplicingCount
    let q ← runAflCustomQueueNewEntry q changed
    return { s with queueBuf := s.queueBuf ++ [q], readyForSplicingCount := count }

def select (s : State) (currentEntry : ℕ) : Option State :=
  if currentEntry < s.queueBuf.length then some { s with queueCur := some currentEntry } else none

/-- The trimming in `fuzz_one_original`; `trim_case` shortens the entry or leaves it. -/
def trim (s : State) (newLen : ℕ) : Option State := do
  let currentEntry ← s.queueCur
  let queueCur ← s.queueBuf[currentEntry]?
  if queueCur.trimDone then none
  else
    let oldLen := queueCur.len
    if oldLen < newLen then none
    else
      -- maybe current entry is not ready for splicing anymore
      let count :=
        if newLen ≤ 4 ∧ oldLen > 4 then s.readyForSplicingCount - 1 else s.readyForSplicingCount
      return { s with
        queueBuf := s.queueBuf.set currentEntry { len := newLen, trimDone := true }
        readyForSplicingCount := count }

/-- `none` when the step is not possible, or ends the fuzzer. -/
def step (s : State) : Event → Option State
  | .addToQueue len syncing changed => addToQueue s len syncing changed
  | .select currentEntry => select s currentEntry
  | .trim newLen => trim s newLen

def run (s : State) (events : List Event) : Option State := events.foldlM step s

/-- Before the first seed. -/
def init : State := ⟨[], 0, none⟩

/-! ## The search for a partner -/

/-- The condition of the `do … while`: the draw is no partner. -/
def drawsAgain (s : State) (currentEntry tid : ℕ) : Bool :=
  decide (tid = currentEntry) || s.queueBuf[tid]?.any fun q => decide (q.len < 4)

/-- The search, on the draws of `rand_below`; `none` while no draw is a partner. -/
def partner (s : State) (currentEntry : ℕ) (draws : List ℕ) : Option ℕ :=
  draws.find? fun tid => !drawsAgain s currentEntry tid

/-- The number of entries that are long enough. -/
def ready (queue : List QueueEntry) : ℕ := queue.countP fun q => 4 < q.len

/-- A second entry that is counted is at another index. -/
theorem exists_other {α : Type*} {p : α → Bool} {l : List α} (h : 2 ≤ l.countP p) (i : ℕ) :
    ∃ j x, j ≠ i ∧ l[j]? = some x ∧ p x = true := by
  induction l generalizing i with
  | nil => simp at h
  | cons a l ih =>
    rw [List.countP_cons] at h
    cases i with
    | zero =>
      have hrest : 0 < l.countP p := by
        split at h <;> omega
      obtain ⟨x, hx, hp⟩ := List.countP_pos_iff.mp hrest
      obtain ⟨j, hj⟩ := List.getElem?_of_mem hx
      exact ⟨j + 1, x, by omega, hj, hp⟩
    | succ i =>
      by_cases ha : p a = true
      · exact ⟨0, a, by omega, rfl, ha⟩
      · rw [if_neg ha] at h
        obtain ⟨j, x, hne, hj, hp⟩ := ih h i
        exact ⟨j + 1, x, by omega, hj, hp⟩

/-! ## The invariant -/

def Inv (s : State) : Prop := s.readyForSplicingCount = UInt32.ofNat (ready s.queueBuf)

/-- A custom mutator leaves the length of a new entry on its side of the 4 bytes. -/
def KeepsClass : Event → Prop
  | .addToQueue len _ (some stSize) => 4 < len ↔ 4 < stSize % 2 ^ 32
  | _ => True

instance (e : Event) : Decidable (KeepsClass e) := by
  unfold KeepsClass
  split <;> infer_instance

theorem addToQueue_inv {s s' : State} {len : ℕ} {syncing : Bool} {changed : Option ℕ}
    (hstep : addToQueue s len syncing changed = some s')
    (hkeeps : KeepsClass (.addToQueue len syncing changed)) (h : Inv s) : Inv s' := by
  have hadd (q : QueueEntry) (hq : 4 < len ↔ 4 < q.len) :
      Inv ⟨s.queueBuf ++ [q],
        if len > 4 then s.readyForSplicingCount + 1 else s.readyForSplicingCount,
        s.queueCur⟩ := by
    unfold Inv ready
    rw [List.countP_append, List.countP_singleton]
    by_cases hlen : 4 < len
    · simp only [gt_iff_lt, hlen, if_true, hq.mp hlen, decide_true, UInt32.ofNat_add]
      rw [h]
      rfl
    · have hq' : ¬ 4 < q.len := fun hq' => hlen (hq.mpr hq')
      simp only [gt_iff_lt, hlen, if_false, hq', decide_false, Bool.false_eq_true, Nat.add_zero]
      exact h
  unfold addToQueue at hstep
  split at hstep
  · cases hstep
  cases changed with
  | none =>
    cases hstep
    exact hadd _ Iff.rfl
  | some stSize =>
    unfold runAflCustomQueueNewEntry at hstep
    by_cases hempty : stSize = 0
    · simp [hempty] at hstep
    · simp only [hempty, if_false] at hstep
      cases hstep
      exact hadd _ hkeeps

theorem ofNat_pred {n : ℕ} (h : 0 < n) : UInt32.ofNat n - 1 = UInt32.ofNat (n - 1) := by
  obtain ⟨k, rfl⟩ := Nat.exists_eq_succ_of_ne_zero (Nat.ne_of_gt h)
  show UInt32.ofNat (k + 1) - 1 = UInt32.ofNat k
  rw [UInt32.ofNat_add]
  exact UInt32.add_sub_cancel _ _

theorem trim_inv {s s' : State} {newLen : ℕ} (hstep : trim s newLen = some s') (h : Inv s) :
    Inv s' := by
  unfold trim at hstep
  cases hindex : s.queueCur with
  | none => simp [hindex] at hstep
  | some currentEntry =>
  cases hcur : s.queueBuf[currentEntry]? with
  | none => simp [hindex, hcur] at hstep
  | some queueCur =>
    obtain ⟨hlt, hget⟩ := List.getElem?_eq_some_iff.mp hcur
    rw [hindex, Option.bind_eq_bind, Option.bind_some, hcur] at hstep
    simp only [Option.bind_eq_bind, Option.bind_some] at hstep
    split at hstep
    · cases hstep
    split at hstep
    · cases hstep
    cases hstep
    unfold Inv ready
    have hpos (hlong : 4 < queueCur.len) : 0 < s.queueBuf.countP fun q => 4 < q.len :=
      List.countP_pos_iff.mpr ⟨queueCur, List.mem_of_getElem? hcur, decide_eq_true hlong⟩
    rw [List.countP_set hlt, hget]
    by_cases hlong : 4 < queueCur.len
    · by_cases hnew : 4 < newLen
      · have hsame : ready s.queueBuf - 1 + 1 = ready s.queueBuf := Nat.sub_add_cancel (hpos hlong)
        simp only [hlong, hnew, decide_true, if_true, Nat.not_le.mpr hnew, false_and, if_false]
        rw [h]
        exact congrArg UInt32.ofNat hsame.symm
      · simp only [hlong, hnew, decide_true, decide_false, Nat.not_lt.mp hnew, and_self,
          if_true, Bool.false_eq_true, if_false, Nat.add_zero]
        rw [h]
        exact ofNat_pred (hpos hlong)
    · have hnew : ¬ 4 < newLen := by omega
      simp only [hlong, hnew, decide_false, and_false, Bool.false_eq_true, if_false,
        Nat.sub_zero, Nat.add_zero]
      exact h

/-- What one step keeps. -/
theorem step_inv {s s' : State} {e : Event} (hstep : step s e = some s') (hkeeps : KeepsClass e)
    (h : Inv s) : Inv s' := by
  cases e with
  | addToQueue len syncing changed => exact addToQueue_inv hstep hkeeps h
  | select currentEntry =>
    have hstep : select s currentEntry = some s' := hstep
    unfold select at hstep
    split_ifs at hstep
    cases hstep
    exact h
  | trim newLen => exact trim_inv hstep h

/-- What a run of such steps keeps. -/
theorem run_inv {events : List Event} (hkeeps : ∀ e ∈ events, KeepsClass e) {s s' : State}
    (hrun : run s events = some s') (h : Inv s) : Inv s' := by
  induction events generalizing s with
  | nil =>
    cases hrun
    exact h
  | cons e events ih =>
    unfold run at hrun
    rw [List.foldlM_cons] at hrun
    cases hstep : step s e with
    | none =>
      rw [hstep] at hrun
      cases hrun
    | some t =>
      rw [hstep] at hrun
      exact ih (fun e he => hkeeps e (List.mem_cons_of_mem _ he)) hrun
        (step_inv hstep (hkeeps e List.mem_cons_self) h)

/-! ## The partner -/

theorem Inv.count_le {s : State} (h : Inv s) :
    s.readyForSplicingCount.toNat ≤ ready s.queueBuf := by
  rw [h]
  exact Nat.mod_le _ _

/-- Where two entries are counted a draw can end the search. -/
theorem Inv.exists_partner {s : State} (h : Inv s) (hcount : s.readyForSplicingCount > 1)
    (currentEntry : ℕ) : ∃ tid < s.queueBuf.length, drawsAgain s currentEntry tid = false := by
  have hready : 2 ≤ ready s.queueBuf := by
    have hle := h.count_le
    have hlt : 1 < s.readyForSplicingCount.toNat := UInt32.lt_iff_toNat_lt.mp hcount
    omega
  obtain ⟨tid, q, hne, hq, hlong⟩ := exists_other hready currentEntry
  have hlen : ¬ q.len < 4 := by
    have := of_decide_eq_true hlong
    omega
  refine ⟨tid, (List.getElem?_eq_some_iff.mp hq).1, ?_⟩
  rw [drawsAgain, hq, decide_eq_false hne]
  exact decide_eq_false hlen

/-- In a run in which no custom mutator carries the length of a new entry over the 4 bytes the
count is never larger than the number of long entries, and a search that starts can end: a draw of
another entry with 4 bytes or more ends it. -/
theorem ready_for_splicing {events : List Event} {s : State} (hrun : run init events = some s)
    (hkeeps : ∀ e ∈ events, KeepsClass e) :
    s.readyForSplicingCount.toNat ≤ ready s.queueBuf ∧
    (s.readyForSplicingCount > 1 → ∀ currentEntry, ∃ tid < s.queueBuf.length, tid ≠ currentEntry ∧
      (∃ q, s.queueBuf[tid]? = some q ∧ 4 ≤ q.len) ∧
      ∀ draws, tid ∈ draws → (partner s currentEntry draws).isSome) := by
  have hinv : Inv s := run_inv hkeeps hrun rfl
  refine ⟨hinv.count_le, fun hcount currentEntry => ?_⟩
  obtain ⟨tid, hlt, hends⟩ := hinv.exists_partner hcount currentEntry
  have hsearch := hends
  rw [drawsAgain, List.getElem?_eq_getElem hlt, Bool.or_eq_false_iff] at hends
  refine ⟨tid, hlt, of_decide_eq_false hends.1,
    ⟨_, List.getElem?_eq_getElem hlt, Nat.not_lt.mp (of_decide_eq_false hends.2)⟩, ?_⟩
  intro draws hdrawn
  rw [partner, List.find?_isSome]
  exact ⟨tid, hdrawn, by rw [hsearch]; rfl⟩

/-- Three seeds, the second one imported and changed by a custom mutator, and then trimmed to
nothing much. -/
theorem ready_for_splicing_trimmed :
    let s : State := ⟨[⟨6, false⟩, ⟨3, true⟩, ⟨7, false⟩], 2, some 1⟩
    s.readyForSplicingCount.toNat ≤ ready s.queueBuf ∧
    (s.readyForSplicingCount > 1 → ∀ currentEntry, ∃ tid < s.queueBuf.length, tid ≠ currentEntry ∧
      (∃ q, s.queueBuf[tid]? = some q ∧ 4 ≤ q.len) ∧
      ∀ draws, tid ∈ draws → (partner s currentEntry draws).isSome) :=
  @ready_for_splicing [.addToQueue 6 false none, .addToQueue 8 true (some 9), .select 1, .trim 3,
    .addToQueue 7 false none] _ (by decide) (by decide)

/-- Behind a short seed, two new entries of 5 bytes that a custom mutator rewrites to 3: both are
counted, none is long enough, and no draw ends the search. -/
theorem changed_entries_stay_counted :
    ∃ s, run init [.addToQueue 2 false none, .select 0, .addToQueue 5 false (some 3),
        .addToQueue 5 false (some 3)] = some s ∧
      s.readyForSplicingCount.toNat = 2 ∧ ready s.queueBuf = 0 ∧
      s.readyForSplicingCount > 1 ∧
      ∀ tid < s.queueBuf.length, drawsAgain s 0 tid = true :=
  ⟨⟨[⟨2, false⟩, ⟨3, false⟩, ⟨3, false⟩], 2, some 0⟩, by decide⟩

end AflNv.SpliceCount
