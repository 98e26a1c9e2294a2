import AflNv.CBase
import Mathlib.Data.List.Basic
import Mathlib.Data.List.TakeDrop

/-!
# The dictionary stages

`src/afl-fuzz-one.c`: each token is written over the input, and then inserted into it, at each
effective position; first the tokens of the user, then those that were found.

* `overwriteStage` edits one buffer and repairs it behind every position.
* `insertStage` builds its buffer in a scratch area that it does not clear: the head grows by one
  byte at each effective position, and a position that is skipped leaves what is there.
* `Dict` carries the order of the tokens that the first stage relies on.
* `OverwriteLaw` and `InsertLaw` say what is to be executed; `Clean` is the condition for the
  second, in terms of `residue`, the byte that a skipped position keeps.

No call is abandoned or timed out.
-/

namespace AflNv.DictStages

def maxFile : ℕ := 1024 * 1024

def useAutoExtras : ℕ := 4096

/-- `memcpy(buf + i, data, len)` -/
def memcpy (buf : Bytes) (i : ℕ) (data : Bytes) : Bytes :=
  buf.take i ++ data ++ buf.drop (i + data.length)

/-- `extras` and `a_extras` -/
structure Dict where
  extras : List Bytes
  aExtras : List Bytes
  extras_sorted : extras.Pairwise fun s t => s.length ≤ t.length
  aExtras_sorted : (aExtras.take useAutoExtras).Pairwise fun s t => s.length ≤ t.length

/-- The entry: `in_buf`, and `bitmap_read` of `skip_eff_map`. -/
structure Seed where
  input : Bytes
  effective : ℕ → Bool

namespace Seed

def len (s : Seed) : ℕ := s.input.length

end Seed

/-! ## Overwriting -/

structure Over where
  outBuf : Bytes
  lastLen : ℕ
  executed : List (ℕ × Bytes)

/-- The inner loop, from token `j` on; `skip` are the tokens left out at random. -/
def overwriteTokens (s : Seed) (skip : ℕ → Bool) (i : ℕ) : ℕ → List Bytes → Over → Over
  | _, [], o => o
  | j, t :: ts, o =>
    if skip j = true ∨ s.len - i < t.length ∨ t = (o.outBuf.drop i).take t.length then
      overwriteTokens s skip i (j + 1) ts o
    else
      let out := memcpy o.outBuf i t
      overwriteTokens s skip i (j + 1) ts ⟨out, t.length, o.executed ++ [(i, out)]⟩

def overwritePosition (s : Seed) (skip : ℕ → ℕ → Bool) (ts : List Bytes) (o : Over) (i : ℕ) :
    Over :=
  if s.effective i then
    let r := overwriteTokens s (skip i) i 0 ts { o with lastLen := 0 }
    { r with outBuf := memcpy r.outBuf i ((s.input.drop i).take r.lastLen) }
  else o

def overwriteStage (s : Seed) (skip : ℕ → ℕ → Bool) (ts : List Bytes) (outBuf : Bytes) : Over :=
  (List.range s.len).foldl (overwritePosition s skip ts) ⟨outBuf, 0, []⟩

/-! ## Inserting -/

/-- `ex_tmp`, and what has been executed. -/
structure Insert where
  exTmp : ℕ → UInt8
  executed : List (ℕ × Bytes)

/-- `memcpy(ex_tmp + i, data, len)` -/
def store (ex : ℕ → UInt8) (i : ℕ) (data : Bytes) : ℕ → UInt8 := fun k =>
  if i ≤ k then (data[k - i]?).getD (ex k) else ex k

def insertToken (s : Seed) (outBuf : Bytes) (i : ℕ) (r : Insert) (t : Bytes) : Insert :=
  if maxFile < s.len + t.length then r
  else
    let ex := store (store r.exTmp i t) (i + t.length) (outBuf.drop i)
    ⟨ex, r.executed ++ [(i, (List.range (s.len + t.length)).map ex)]⟩

/-- `beyond` is the byte behind `out_buf`, which the last position reads. -/
def insertPosition (s : Seed) (outBuf : Bytes) (beyond : UInt8) (ts : List Bytes) (r : Insert)
    (i : ℕ) : Insert :=
  if s.effective (i % s.len) then
    let r := ts.foldl (insertToken s outBuf i) r
    { r with exTmp := Function.update r.exTmp i ((outBuf[i]?).getD beyond) }
  else r

def insertStage (s : Seed) (outBuf : Bytes) (beyond : UInt8) (ts : List Bytes)
    (exTmp : ℕ → UInt8) : Insert :=
  (List.range (s.len + 1)).foldl (insertPosition s outBuf beyond ts) ⟨exTmp, []⟩

/-! ## The four stages -/

structure Stages where
  userOver : Over
  userInsert : Insert
  autoOver : Over
  autoInsert : Insert

/-- `rand i j` is what `rand_below` returns for token `j` at position `i`. -/
def dictionaryStages (s : Seed) (d : Dict) (maxDetExtras : ℕ) (rand : ℕ → ℕ → ℕ) (beyond : UInt8)
    (exTmp : ℕ → UInt8) : Stages :=
  let skip := fun i j => decide (maxDetExtras < d.extras.length) && decide (maxDetExtras ≤ rand i j)
  let userOver :=
    if d.extras = [] then ⟨s.input, 0, []⟩ else overwriteStage s skip d.extras s.input
  let userInsert :=
    if d.extras = [] then ⟨exTmp, []⟩
    else insertStage s userOver.outBuf beyond d.extras exTmp
  let autoOver :=
    if d.aExtras = [] then ⟨userOver.outBuf, 0, []⟩
    else overwriteStage s (fun _ _ => false) (d.aExtras.take useAutoExtras) userOver.outBuf
  let autoInsert :=
    if d.aExtras = [] then ⟨userInsert.exTmp, []⟩
    else insertStage s autoOver.outBuf beyond d.aExtras userInsert.exTmp
  ⟨userOver, userInsert, autoOver, autoInsert⟩

/-! ## What is to be executed -/

/-- Single-token edits of the input, and all of them but the input itself. -/
def OverwriteLaw (s : Seed) (ts : List Bytes) (o : Over) : Prop :=
  o.outBuf = s.input ∧
  (∀ x ∈ o.executed, x.1 < s.len ∧ s.effective x.1 = true ∧
    ∃ t ∈ ts, t.length ≤ s.len - x.1 ∧ x.2 = memcpy s.input x.1 t) ∧
  ∀ i < s.len, s.effective i = true → ∀ t ∈ ts, t.length ≤ s.len - i →
    memcpy s.input i t = s.input ∨ (i, memcpy s.input i t) ∈ o.executed

/-- The input with a token inserted. -/
def inserted (s : Seed) (i : ℕ) (t : Bytes) : Bytes := s.input.take i ++ t ++ s.input.drop i

def InsertLaw (s : Seed) (ts : List Bytes) (executed : List (ℕ × Bytes)) : Prop :=
  (∀ x ∈ executed, x.1 ≤ s.len ∧ s.effective (x.1 % s.len) = true ∧
    ∃ t ∈ ts, s.len + t.length ≤ maxFile ∧ x.2 = inserted s x.1 t) ∧
  ∀ i ≤ s.len, s.effective (i % s.len) = true → ∀ t ∈ ts, s.len + t.length ≤ maxFile →
    (i, inserted s i t) ∈ executed

/-- The tokens that may be inserted. -/
def fitting (s : Seed) (ts : List Bytes) : List Bytes :=
  ts.filter fun t => s.len + t.length ≤ maxFile

/-- The last effective position before `m`. -/
def lastEffective (s : Seed) (m : ℕ) : Option ℕ := ((List.range m).filter s.effective).getLast?

/-- What lies at `k` when the positions before `m` are done and `k` is not: the last token at the
last effective position, and the input behind it. -/
def residueAt (s : Seed) (ts : List Bytes) (exTmp : ℕ → UInt8) (m k : ℕ) : UInt8 :=
  match (fitting s ts).getLast?, lastEffective s m with
  | some t, some i => ((t ++ s.input.drop i)[k - i]?).getD 0
  | _, _ => exTmp k

/-- What a skipped position keeps. -/
def residue (s : Seed) (ts : List Bytes) (exTmp : ℕ → UInt8) (k : ℕ) : UInt8 :=
  residueAt s ts exTmp k k

/-- Each skipped position in front of an insertion keeps the byte of the input. -/
def Clean (s : Seed) (ts : List Bytes) (exTmp : ℕ → UInt8) : Prop :=
  ∀ k < s.len, s.effective k = false →
    (∃ i ≤ s.len, k < i ∧ s.effective (i % s.len) = true) → fitting s ts ≠ [] →
      s.input[k]? = some (residue s ts exTmp k)

/-! ## The overwriting stage -/

section Overwrite

variable {s : Seed}

theorem memcpy_nil (b : Bytes) (i : ℕ) : memcpy b i [] = b := by
  rw [memcpy, List.append_nil, List.length_nil, Nat.add_zero, List.take_append_drop]

/-- A longer token covers a shorter one. -/
theorem memcpy_memcpy {b u t : Bytes} {i : ℕ} (hi : i ≤ b.length) (hut : u.length ≤ t.length) :
    memcpy (memcpy b i u) i t = memcpy b i t := by
  have htake : (b.take i ++ u ++ b.drop (i + u.length)).take i = b.take i := by
    rw [List.append_assoc, List.take_append_of_le_length (by rw [List.length_take]; omega),
      List.take_take, Nat.min_self]
  have hdrop : (b.take i ++ u ++ b.drop (i + u.length)).drop (i + t.length) =
      b.drop (i + t.length) := by
    have hfront : (b.take i ++ u).length = i + u.length := by
      rw [List.length_append, List.length_take, Nat.min_eq_left hi]
    rw [List.drop_append, List.drop_eq_nil_of_le (by omega), List.nil_append, List.drop_drop,
      hfront]
    congr 1
    omega
  rw [memcpy, memcpy, memcpy, htake, hdrop]

/-- A token that is already there. -/
theorem memcpy_same {b t : Bytes} {i : ℕ} (h : t = (b.drop i).take t.length) :
    memcpy b i t = b := by
  have hrest : t ++ b.drop (i + t.length) = b.drop i := by
    calc t ++ b.drop (i + t.length)
        = (b.drop i).take t.length ++ (b.drop i).drop t.length := by rw [← h, List.drop_drop]
      _ = b.drop i := List.take_append_drop _ _
  rw [memcpy, List.append_assoc, hrest, List.take_append_drop]

/-- The bytes that were there before repair the buffer. -/
theorem memcpy_restore {b u : Bytes} {i : ℕ} (hi : i + u.length ≤ b.length) :
    memcpy (memcpy b i u) i ((b.drop i).take u.length) = b := by
  have hlength : ((b.drop i).take u.length).length = u.length := by
    rw [List.length_take, List.length_drop]
    omega
  rw [memcpy_memcpy (by omega) (by omega)]
  apply memcpy_same
  rw [hlength]

/-- At position `i`: one token over the input, not longer than those that follow. -/
def Edited (s : Seed) (i : ℕ) (ts : List Bytes) (o : Over) : Prop :=
  ∃ u : Bytes, u.length = o.lastLen ∧ u.length ≤ s.len - i ∧ o.outBuf = memcpy s.input i u ∧
    (o.outBuf = s.input ∨ (i, o.outBuf) ∈ o.executed) ∧ ∀ t ∈ ts, u.length ≤ t.length

/-- What the inner loop does with tokens that are sorted and of which none is left out. -/
theorem overwriteTokens_spec {i : ℕ} (hi : i < s.len) {skip : ℕ → Bool}
    (hskip : ∀ j, skip j = false) {ts : List Bytes}
    (hsorted : ts.Pairwise fun s t => s.length ≤ t.length) (j : ℕ) {o : Over}
    (h : Edited s i ts o) :
    Edited s i [] (overwriteTokens s skip i j ts o) ∧
    (∀ x ∈ o.executed, x ∈ (overwriteTokens s skip i j ts o).executed) ∧
    (∀ x ∈ (overwriteTokens s skip i j ts o).executed, x ∈ o.executed ∨
      (x.1 = i ∧ ∃ t ∈ ts, t.length ≤ s.len - i ∧ x.2 = memcpy s.input i t)) ∧
    ∀ t ∈ ts, t.length ≤ s.len - i → memcpy s.input i t = s.input ∨
      (i, memcpy s.input i t) ∈ (overwriteTokens s skip i j ts o).executed := by
  induction ts generalizing j o with
  | nil =>
    exact ⟨h, fun x hx => hx, fun x hx => .inl hx, fun t ht => absurd ht List.not_mem_nil⟩
  | cons t ts ih =>
    obtain ⟨hfirst, hrest⟩ := List.pairwise_cons.mp hsorted
    obtain ⟨u, hlast, hfit, hout, hdone, hle⟩ := h
    obtain ⟨hut, hle⟩ := List.forall_mem_cons.mp hle
    have hcover : memcpy o.outBuf i t = memcpy s.input i t := by
      rw [hout]
      exact memcpy_memcpy (Nat.le_of_lt hi) hut
    rw [overwriteTokens]
    split
    · next hleft =>
      obtain ⟨hedited, hmono, honly, hall⟩ := ih hrest (j + 1) ⟨u, hlast, hfit, hout, hdone, hle⟩
      refine ⟨hedited, hmono, fun x hx => ?_, ?_⟩
      · rcases honly x hx with hold | ⟨hpos, t', ht', hnew⟩
        · exact .inl hold
        · exact .inr ⟨hpos, t', List.mem_cons_of_mem t ht', hnew⟩
      · rw [List.forall_mem_cons]
        refine ⟨fun hroom => ?_, hall⟩
        rcases hleft with hno | hlong | hsame
        · rw [hskip j] at hno
          cases hno
        · omega
        · -- the buffer is the one that stands there already
          rw [← hcover, memcpy_same hsame]
          rcases hdone with hinput | hexecuted
          · exact .inl hinput
          · exact .inr (hmono _ hexecuted)
    · next hleft =>
      have hroom : t.length ≤ s.len - i := by
        by_contra hlong
        exact hleft (.inr (.inl (by omega)))
      have hedited : Edited s i ts
          ⟨memcpy o.outBuf i t, t.length, o.executed ++ [(i, memcpy o.outBuf i t)]⟩ :=
        ⟨t, rfl, hroom, hcover, .inr (List.mem_append_right _ List.mem_cons_self), hfirst⟩
      obtain ⟨hedited, hmono, honly, hall⟩ := ih hrest (j + 1) hedited
      refine ⟨hedited, fun x hx => hmono x (List.mem_append_left _ hx), fun x hx => ?_, ?_⟩
      · rcases honly x hx with hold | ⟨hpos, t', ht', hnew⟩
        · rcases List.mem_append.mp hold with hold | hnew
          · exact .inl hold
          · rw [List.mem_singleton.mp hnew]
            exact .inr ⟨rfl, t, List.mem_cons_self, hroom, hcover⟩
        · exact .inr ⟨hpos, t', List.mem_cons_of_mem t ht', hnew⟩
      · rw [List.forall_mem_cons]
        refine ⟨fun _ => .inr ?_, hall⟩
        rw [← hcover]
        exact hmono _ (List.mem_append_right _ List.mem_cons_self)

/-- The law for the positions before `m`. -/
def OverwrittenTo (s : Seed) (ts : List Bytes) (m : ℕ) (o : Over) : Prop :=
  o.outBuf = s.input ∧
  (∀ x ∈ o.executed, x.1 < m ∧ s.effective x.1 = true ∧
    ∃ t ∈ ts, t.length ≤ s.len - x.1 ∧ x.2 = memcpy s.input x.1 t) ∧
  ∀ i < m, s.effective i = true → ∀ t ∈ ts, t.length ≤ s.len - i →
    memcpy s.input i t = s.input ∨ (i, memcpy s.input i t) ∈ o.executed

theorem overwritePosition_spec {skip : ℕ → ℕ → Bool} (hskip : ∀ i j, skip i j = false)
    {ts : List Bytes} (hsorted : ts.Pairwise fun s t => s.length ≤ t.length) {m : ℕ}
    (hm : m < s.len) {o : Over} (h : OverwrittenTo s ts m o) :
    OverwrittenTo s ts (m + 1) (overwritePosition s skip ts o m) := by
  obtain ⟨hout, honly, hall⟩ := h
  rw [overwritePosition]
  split
  · next heff =>
    have hstart : Edited s m ts { o with lastLen := 0 } :=
      ⟨[], rfl, Nat.zero_le _, by rw [memcpy_nil]; exact hout, .inl hout, fun t _ => Nat.zero_le _⟩
    obtain ⟨⟨u, hlast, hfit, hbuf, -, -⟩, hmono, hnew, hdone⟩ :=
      overwriteTokens_spec hm (hskip m) hsorted 0 hstart
    refine ⟨?_, fun x hx => ?_, fun i hi heffi t ht hroom => ?_⟩
    · show memcpy _ m _ = s.input
      rw [hbuf, ← hlast]
      apply memcpy_restore
      rw [Seed.len] at hfit hm
      omega
    · rcases hnew x hx with hold | ⟨hpos, hedit⟩
      · obtain ⟨hlt, hrest⟩ := honly x hold
        exact ⟨Nat.lt_succ_of_lt hlt, hrest⟩
      · rw [hpos]
        exact ⟨Nat.lt_succ_self m, heff, hedit⟩
    · rcases Nat.lt_succ_iff_lt_or_eq.mp hi with hlt | heq
      · rcases hall i hlt heffi t ht hroom with hinput | hexecuted
        · exact .inl hinput
        · exact .inr (hmono _ hexecuted)
      · rw [heq] at hroom ⊢
        exact hdone t ht hroom
  · next heff =>
    refine ⟨hout, fun x hx => ?_, fun i hi heffi => ?_⟩
    · obtain ⟨hlt, hrest⟩ := honly x hx
      exact ⟨Nat.lt_succ_of_lt hlt, hrest⟩
    · rcases Nat.lt_succ_iff_lt_or_eq.mp hi with hlt | heq
      · exact hall i hlt heffi
      · rw [heq] at heffi
        exact absurd heffi heff

theorem overwriteStage_law {skip : ℕ → ℕ → Bool} (hskip : ∀ i j, skip i j = false)
    {ts : List Bytes} (hsorted : ts.Pairwise fun s t => s.length ≤ t.length) :
    OverwriteLaw s ts (overwriteStage s skip ts s.input) := by
  have hrun : ∀ m ≤ s.len, OverwrittenTo s ts m
      ((List.range m).foldl (overwritePosition s skip ts) ⟨s.input, 0, []⟩) := by
    intro m
    induction m with
    | zero =>
      intro _
      exact ⟨rfl, fun x hx => absurd hx List.not_mem_nil, fun i hi => absurd hi (Nat.not_lt_zero i)⟩
    | succ m ih =>
      intro hm
      rw [List.range_succ, List.foldl_append]
      exact overwritePosition_spec hskip hsorted hm (ih (Nat.le_of_succ_le hm))
  exact hrun s.len (Nat.le_refl _)

end Overwrite

/-! ## The inserting stage -/

section Insertion

variable {s : Seed} {ts : List Bytes}

/-- The scratch area in front of a position. -/
def head (ex : ℕ → UInt8) (i : ℕ) : Bytes := (List.range i).map ex

/-- What is executed for a token at position `i`. -/
def built (s : Seed) (ex : ℕ → UInt8) (i : ℕ) (t : Bytes) : Bytes :=
  head ex i ++ t ++ s.input.drop i

theorem store_store {ex : ℕ → UInt8} {i : ℕ} (t tail : Bytes) :
    store (store ex i t) (i + t.length) tail = store ex i (t ++ tail) := by
  funext k
  unfold store
  by_cases hk : i + t.length ≤ k
  · have hnone : t[k - i]? = none := List.getElem?_eq_none (by omega)
    rw [if_pos hk, if_pos (by omega), hnone, if_pos (by omega), Option.getD_none,
      List.getElem?_append_right (by omega), show k - i - t.length = k - (i + t.length) by omega]
  · rw [if_neg hk]
    by_cases hik : i ≤ k
    · rw [if_pos hik, if_pos hik, List.getElem?_append_left (by omega)]
    · rw [if_neg hik, if_neg hik]

/-- A text stored behind the head. -/
theorem map_store (ex : ℕ → UInt8) (i : ℕ) (data : Bytes) :
    (List.range (i + data.length)).map (store ex i data) = head ex i ++ data := by
  apply List.ext_getElem
  · simp [head]
  · intro k hk hk'
    rw [List.length_map, List.length_range] at hk
    rw [List.getElem_map, List.getElem_range, store]
    by_cases hik : i ≤ k
    · rw [if_pos hik, List.getElem_append_right (by simpa [head] using hik),
        List.getElem?_eq_getElem (by omega), Option.getD_some]
      simp [head]
    · rw [if_neg hik, List.getElem_append_left (by simpa [head] using hik)]
      simp [head]

/-- The head does not change while tokens are stored behind it. -/
theorem head_store (ex : ℕ → UInt8) (i : ℕ) (data : Bytes) :
    head (store ex i data) i = head ex i := by
  apply List.map_congr_left
  intro k hk
  rw [store, if_neg (Nat.not_le.mpr (List.mem_range.mp hk))]

/-- The inner loop: every fitting token is executed behind the same head, and the last stays. -/
theorem insertTokens_spec {i : ℕ} (hi : i ≤ s.len) (ts : List Bytes) (r : Insert) :
    (ts.foldl (insertToken s s.input i) r).executed =
      r.executed ++ (fitting s ts).map (fun t => (i, built s r.exTmp i t)) ∧
    head (ts.foldl (insertToken s s.input i) r).exTmp i = head r.exTmp i ∧
    ∀ k, i ≤ k → k < s.len → (ts.foldl (insertToken s s.input i) r).exTmp k =
      match (fitting s ts).getLast? with
      | some t => ((t ++ s.input.drop i)[k - i]?).getD 0
      | none => r.exTmp k := by
  induction ts generalizing r with
  | nil => exact ⟨(List.append_nil _).symm, rfl, fun k _ _ => rfl⟩
  | cons t ts ih =>
    rw [List.foldl_cons]
    by_cases hfit : s.len + t.length ≤ maxFile
    · have hkeep : fitting s (t :: ts) = t :: fitting s ts :=
        List.filter_cons_of_pos (by rwa [decide_eq_true_eq])
      have htoken : insertToken s s.input i r t = ⟨store r.exTmp i (t ++ s.input.drop i),
          r.executed ++ [(i, built s r.exTmp i t)]⟩ := by
        have hlength : s.len + t.length = i + (t ++ s.input.drop i).length := by
          rw [Seed.len] at hi ⊢
          rw [List.length_append, List.length_drop]
          omega
        rw [insertToken, if_neg (Nat.not_lt.mpr hfit)]
        simp only [store_store]
        rw [hlength, map_store, built, List.append_assoc]
      obtain ⟨hexecuted, hhead, hlast⟩ := ih (insertToken s s.input i r t)
      rw [htoken] at hexecuted hhead hlast ⊢
      rw [head_store] at hhead
      refine ⟨?_, hhead, fun k hik hk => ?_⟩
      · rw [hexecuted, hkeep, List.map_cons, List.append_assoc]
        simp only [built, head_store, List.singleton_append]
      · rw [hlast k hik hk, hkeep]
        cases hts : (fitting s ts).getLast? with
        | none =>
          rw [List.getLast?_eq_none_iff.mp hts, List.getLast?_singleton]
          show store r.exTmp i (t ++ s.input.drop i) k = ((t ++ s.input.drop i)[k - i]?).getD 0
          have hsome : k - i < (t ++ s.input.drop i).length := by
            rw [Seed.len] at hk
            rw [List.length_append, List.length_drop]
            omega
          rw [store, if_pos hik, List.getElem?_eq_getElem hsome]
          rfl
        | some u => rw [List.getLast?_cons, hts]; rfl
    · have hdrop : fitting s (t :: ts) = fitting s ts :=
        List.filter_cons_of_neg (by rwa [decide_eq_true_eq])
      have htoken : insertToken s s.input i r t = r := if_pos (by omega)
      rw [htoken, hdrop]
      exact ih r

/-- What the scratch area holds when the positions before `m` are done. -/
def Scratch (s : Seed) (ts : List Bytes) (exTmp : ℕ → UInt8) (m : ℕ) (ex : ℕ → UInt8) : Prop :=
  (∀ k < m, k < s.len →
    ex k = if s.effective k then (s.input[k]?).getD 0 else residue s ts exTmp k) ∧
  ∀ k, m ≤ k → k < s.len → ex k = residueAt s ts exTmp m k

theorem lastEffective_succ (s : Seed) (m : ℕ) :
    lastEffective s (m + 1) = if s.effective m then some m else lastEffective s m := by
  rw [lastEffective, List.range_succ, List.filter_append]
  by_cases h : s.effective m = true
  · rw [if_pos h, List.filter_cons_of_pos h, List.filter_nil, List.getLast?_concat]
  · rw [if_neg h, List.filter_cons_of_neg h, List.filter_nil, List.append_nil]
    rfl

theorem head_apply {ex ex' : ℕ → UInt8} {i : ℕ} (h : head ex i = head ex' i) {k : ℕ} (hk : k < i) :
    ex k = ex' k :=
  List.map_inj_left.mp h k (List.mem_range.mpr hk)

theorem scratch_position {exTmp : ℕ → UInt8} {m : ℕ} (hm : m < s.len) (beyond : UInt8)
    {r : Insert} (h : Scratch s ts exTmp m r.exTmp) :
    Scratch s ts exTmp (m + 1) (insertPosition s s.input beyond ts r m).exTmp := by
  obtain ⟨hbefore, hbehind⟩ := h
  have hmod : m % s.len = m := Nat.mod_eq_of_lt hm
  rw [insertPosition, hmod]
  split
  · next heff =>
    obtain ⟨-, hhead, hlast⟩ := insertTokens_spec (Nat.le_of_lt hm) ts r
    refine ⟨fun k hk hlen => ?_, fun k hk hlen => ?_⟩
    · rcases Nat.lt_succ_iff_lt_or_eq.mp hk with hlt | heq
      · show Function.update _ m _ k = _
        rw [Function.update_of_ne (Nat.ne_of_lt hlt), head_apply hhead hlt]
        exact hbefore k hlt hlen
      · rw [heq, if_pos heff]
        show Function.update _ m _ m = _
        rw [Function.update_self, List.getElem?_eq_getElem hm]
        rfl
    · show Function.update _ m _ k = _
      rw [Function.update_of_ne (by omega), hlast k (by omega) hlen, residueAt, lastEffective_succ,
        if_pos heff]
      cases hfit : (fitting s ts).getLast? with
      | some t => rfl
      | none =>
        have hsame := hbehind k (by omega) hlen
        rw [residueAt, hfit] at hsame
        exact hsame
  · next heff =>
    refine ⟨fun k hk hlen => ?_, fun k hk hlen => ?_⟩
    · rcases Nat.lt_succ_iff_lt_or_eq.mp hk with hlt | heq
      · exact hbefore k hlt hlen
      · rw [heq, if_neg heff]
        exact hbehind m (Nat.le_refl m) hm
    · rw [hbehind k (by omega) hlen, residueAt, residueAt, lastEffective_succ, if_neg heff]

/-- The scratch area when position `m` is reached. -/
theorem scratch_run (s : Seed) (ts : List Bytes) (beyond : UInt8) (exTmp : ℕ → UInt8) :
    ∀ m ≤ s.len, Scratch s ts exTmp m
      ((List.range m).foldl (insertPosition s s.input beyond ts) ⟨exTmp, []⟩).exTmp := by
  intro m
  induction m with
  | zero =>
    intro _
    refine ⟨fun k hk => absurd hk (Nat.not_lt_zero k), fun k _ _ => ?_⟩
    rw [residueAt]
    cases (fitting s ts).getLast? <;> rfl
  | succ m ih =>
    intro hm
    rw [List.range_succ, List.foldl_append]
    exact scratch_position hm beyond (ih (Nat.le_of_succ_le hm))

/-- What the stage executes. -/
theorem mem_executed (s : Seed) (ts : List Bytes) (beyond : UInt8) (exTmp : ℕ → UInt8)
    (x : ℕ × Bytes) : ∀ m ≤ s.len + 1,
    x ∈ ((List.range m).foldl (insertPosition s s.input beyond ts) ⟨exTmp, []⟩).executed ↔
      x.1 < m ∧ s.effective (x.1 % s.len) = true ∧ ∃ t ∈ fitting s ts, x.2 = built s
        ((List.range x.1).foldl (insertPosition s s.input beyond ts) ⟨exTmp, []⟩).exTmp x.1 t := by
  intro m
  induction m with
  | zero =>
    intro _
    exact iff_of_false List.not_mem_nil fun h => Nat.not_lt_zero _ h.1
  | succ m ih =>
    intro hm
    rw [List.range_succ, List.foldl_append, List.foldl_cons, List.foldl_nil]
    have hold := ih (Nat.le_of_succ_le hm)
    rw [insertPosition]
    split
    · next heff =>
      obtain ⟨hexecuted, -, -⟩ := insertTokens_spec (Nat.le_of_succ_le_succ hm) ts
        ((List.range m).foldl (insertPosition s s.input beyond ts) ⟨exTmp, []⟩)
      show x ∈ (List.foldl (insertToken s s.input m) _ ts).executed ↔ _
      rw [hexecuted, List.mem_append, hold, List.mem_map]
      constructor
      · rintro (⟨hlt, hrest⟩ | ⟨t, ht, rfl⟩)
        · exact ⟨Nat.lt_succ_of_lt hlt, hrest⟩
        · exact ⟨Nat.lt_succ_self m, heff, t, ht, rfl⟩
      · intro ⟨hlt, heffx, t, ht, hbuf⟩
        rcases Nat.lt_succ_iff_lt_or_eq.mp hlt with hlt | heq
        · exact .inl ⟨hlt, heffx, t, ht, hbuf⟩
        · refine .inr ⟨t, ht, ?_⟩
          rw [← heq, ← hbuf]
    · next heff =>
      rw [hold]
      constructor
      · exact fun ⟨hlt, hrest⟩ => ⟨Nat.lt_succ_of_lt hlt, hrest⟩
      · intro ⟨hlt, heffx, hrest⟩
        rcases Nat.lt_succ_iff_lt_or_eq.mp hlt with hlt | heq
        · exact ⟨hlt, heffx, hrest⟩
        · rw [heq] at heffx
          exact absurd heffx heff

/-- The head is that of the input if and only if no skipped position in it keeps another byte. -/
theorem head_eq_iff {exTmp ex : ℕ → UInt8} {i : ℕ} (hi : i ≤ s.len)
    (h : Scratch s ts exTmp i ex) :
    head ex i = s.input.take i ↔
      ∀ k < i, s.effective k = false → s.input[k]? = some (residue s ts exTmp k) := by
  have hpoint : head ex i = s.input.take i ↔ ∀ k < i, s.input[k]? = some (ex k) := by
    rw [List.ext_getElem?_iff]
    constructor
    · intro hall k hk
      have hk' := hall k
      rw [List.getElem?_take_of_lt hk] at hk'
      rw [← hk', head, List.getElem?_map, List.getElem?_range hk]
      rfl
    · intro hall k
      by_cases hk : k < i
      · rw [List.getElem?_take_of_lt hk, hall k hk, head, List.getElem?_map, List.getElem?_range hk]
        rfl
      · rw [List.getElem?_eq_none (by simp [head]; omega),
          List.getElem?_eq_none (by rw [List.length_take]; omega)]
  rw [hpoint]
  constructor
  · intro hall k hk heff
    rw [hall k hk, h.1 k hk (by omega), heff, if_neg Bool.false_ne_true]
  · intro hall k hk
    rw [h.1 k hk (by omega)]
    by_cases heff : s.effective k = true
    · rw [if_pos heff]
      have hlt : k < s.input.length := Nat.lt_of_lt_of_le hk hi
      rw [List.getElem?_eq_getElem hlt, Option.getD_some]
    · rw [if_neg heff]
      exact hall k hk (by simpa using heff)

/-- The law of the stage. -/
theorem insertStage_law (s : Seed) (ts : List Bytes) (beyond : UInt8) (exTmp : ℕ → UInt8) :
    InsertLaw s ts (insertStage s s.input beyond ts exTmp).executed ↔ Clean s ts exTmp := by
  have hmem := fun x => mem_executed s ts beyond exTmp x (s.len + 1) (Nat.le_refl _)
  have hscratch := scratch_run s ts beyond exTmp
  have hfits : ∀ t, t ∈ fitting s ts ↔ t ∈ ts ∧ s.len + t.length ≤ maxFile := by
    intro t
    rw [fitting, List.mem_filter, decide_eq_true_eq]
  constructor
  · intro hlaw k hk heff ⟨i, hi, hki, heffi⟩ hne
    obtain ⟨t, ht⟩ := List.exists_mem_of_ne_nil _ hne
    obtain ⟨-, -, u, hu, -, heq⟩ := hlaw.1 (i, built s
      ((List.range i).foldl (insertPosition s s.input beyond ts) ⟨exTmp, []⟩).exTmp i t)
      ((hmem _).mpr ⟨Nat.lt_succ_of_le hi, heffi, t, ht, rfl⟩)
    have hfront := (List.append_inj (by simpa only [built, inserted, List.append_assoc] using heq)
      (by rw [Seed.len] at hi; simp [head, hi])).1
    exact (head_eq_iff hi (hscratch i hi)).mp hfront k hki heff
  · intro hclean
    have hhead : ∀ i ≤ s.len, s.effective (i % s.len) = true → ∀ t ∈ fitting s ts,
        built s ((List.range i).foldl (insertPosition s s.input beyond ts) ⟨exTmp, []⟩).exTmp i t =
          inserted s i t := by
      intro i hi heffi t ht
      have hfront := (head_eq_iff hi (hscratch i hi)).mpr fun k hk heff =>
        hclean k (by omega) heff ⟨i, hi, hk, heffi⟩ (List.ne_nil_of_mem ht)
      rw [built, inserted, hfront]
    constructor
    · intro x hx
      obtain ⟨hlt, heffx, t, ht, hbuf⟩ := (hmem x).mp hx
      have hi := Nat.le_of_lt_succ hlt
      exact ⟨hi, heffx, t, ((hfits t).mp ht).1, ((hfits t).mp ht).2,
        hbuf.trans (hhead x.1 hi heffx t ht)⟩
    · intro i hi heffi t ht hfit
      have htf := (hfits t).mpr ⟨ht, hfit⟩
      exact (hmem _).mpr ⟨Nat.lt_succ_of_le hi, heffi, t, htf, (hhead i hi heffi t htf).symm⟩

end Insertion

/-! ## All four stages -/

section Stages

variable {s : Seed}

/-- The law of the four stages. -/
def Law (s : Seed) (d : Dict) (r : Stages) : Prop :=
  OverwriteLaw s d.extras r.userOver ∧
  OverwriteLaw s (d.aExtras.take useAutoExtras) r.autoOver ∧
  InsertLaw s d.extras r.userInsert.executed ∧
  InsertLaw s d.aExtras r.autoInsert.executed

theorem overwriteLaw_nil (s : Seed) : OverwriteLaw s [] ⟨s.input, 0, []⟩ :=
  ⟨rfl, fun _ hx => absurd hx List.not_mem_nil, fun _ _ _ _ ht => absurd ht List.not_mem_nil⟩

theorem insertLaw_nil (s : Seed) : InsertLaw s [] [] :=
  ⟨fun _ hx => absurd hx List.not_mem_nil, fun _ _ _ _ ht => absurd ht List.not_mem_nil⟩

theorem clean_nil (s : Seed) (exTmp : ℕ → UInt8) : Clean s [] exTmp :=
  fun _ _ _ _ hne => absurd rfl hne

/-- The last position writes behind the input only. -/
theorem insertStage_exTmp (s : Seed) (ts : List Bytes) (beyond : UInt8) (exTmp : ℕ → UInt8) {k : ℕ}
    (hk : k < s.len) (heff : s.effective k = false) :
    (insertStage s s.input beyond ts exTmp).exTmp k = residue s ts exTmp k := by
  have hrun := (scratch_run s ts beyond exTmp s.len (Nat.le_refl _)).1 k hk hk
  rw [heff, if_neg Bool.false_ne_true] at hrun
  rw [← hrun, insertStage, List.range_succ, List.foldl_append, List.foldl_cons, List.foldl_nil,
    insertPosition]
  split
  · obtain ⟨-, hhead, -⟩ := insertTokens_spec (Nat.le_refl s.len) ts
      ((List.range s.len).foldl (insertPosition s s.input beyond ts) ⟨exTmp, []⟩)
    show Function.update _ s.len _ k = _
    rw [Function.update_of_ne (Nat.ne_of_lt hk), head_apply hhead hk]
  · rfl

/-- What the first insertion stage leaves makes no difference to the second. -/
theorem clean_insertStage (s : Seed) (ts us : List Bytes) (beyond : UInt8) (exTmp : ℕ → UInt8) :
    Clean s us (insertStage s s.input beyond ts exTmp).exTmp ↔ Clean s us exTmp := by
  have hsame : ∀ k < s.len, s.effective k = false → fitting s us ≠ [] →
      residue s us (insertStage s s.input beyond ts exTmp).exTmp k = residue s us exTmp k := by
    intro k hk heff hne
    rw [residue, residue, residueAt, residueAt, List.getLast?_eq_some_getLast hne]
    cases hlast : lastEffective s k with
    | some i => rfl
    | none =>
      -- no position before was effective, so nothing was written up to here
      show (insertStage s s.input beyond ts exTmp).exTmp k = exTmp k
      rw [insertStage_exTmp s ts beyond exTmp hk heff, residue, residueAt, hlast]
      cases (fitting s ts).getLast? <;> rfl
  constructor
  · intro h k hk heff hi hne
    rw [← hsame k hk heff hne]
    exact h k hk heff hi hne
  · intro h k hk heff hi hne
    rw [hsame k hk heff hne]
    exact h k hk heff hi hne

/-- With a dictionary of which no token is left out, both overwriting stages keep their law, and
the inserting stages do if and only if every skipped position in front of an insertion keeps the
byte of the input. -/
theorem dictionary_stages (s : Seed) (d : Dict) (maxDetExtras : ℕ) (rand : ℕ → ℕ → ℕ)
    (beyond : UInt8) (exTmp : ℕ → UInt8) (h : d.extras.length ≤ maxDetExtras) :
    Law s d (dictionaryStages s d maxDetExtras rand beyond exTmp) ↔
      Clean s d.extras exTmp ∧ Clean s d.aExtras exTmp := by
  have hskip : ∀ i j, (decide (maxDetExtras < d.extras.length) &&
      decide (maxDetExtras ≤ rand i j)) = false := by
    intro i j
    rw [decide_eq_false (Nat.not_lt.mpr h), Bool.false_and]
  have huser : OverwriteLaw s d.extras
      (dictionaryStages s d maxDetExtras rand beyond exTmp).userOver := by
    show OverwriteLaw s d.extras (if d.extras = [] then _ else _)
    split
    · next hnil =>
      rw [hnil]
      exact overwriteLaw_nil s
    · exact overwriteStage_law hskip d.extras_sorted
  have hauto : OverwriteLaw s (d.aExtras.take useAutoExtras)
      (dictionaryStages s d maxDetExtras rand beyond exTmp).autoOver := by
    show OverwriteLaw s _ (if d.aExtras = [] then
      ⟨(dictionaryStages s d maxDetExtras rand beyond exTmp).userOver.outBuf, 0, []⟩
      else overwriteStage s (fun _ _ => false) (d.aExtras.take useAutoExtras)
        (dictionaryStages s d maxDetExtras rand beyond exTmp).userOver.outBuf)
    rw [huser.1]
    split
    · next hnil =>
      rw [hnil]
      exact overwriteLaw_nil s
    · exact overwriteStage_law (fun _ _ => rfl) d.aExtras_sorted
  have huserInsert : InsertLaw s d.extras
      (dictionaryStages s d maxDetExtras rand beyond exTmp).userInsert.executed ↔
        Clean s d.extras exTmp := by
    show InsertLaw s d.extras (Insert.executed (if d.extras = [] then ⟨exTmp, []⟩
      else insertStage s (dictionaryStages s d maxDetExtras rand beyond exTmp).userOver.outBuf
        beyond d.extras exTmp)) ↔ _
    rw [huser.1]
    split
    · next hnil =>
      rw [hnil]
      exact iff_of_true (insertLaw_nil s) (clean_nil s exTmp)
    · exact insertStage_law s d.extras beyond exTmp
  have hclean : ∀ us, Clean s us
      (dictionaryStages s d maxDetExtras rand beyond exTmp).userInsert.exTmp ↔
        Clean s us exTmp := by
    intro us
    show Clean s us (Insert.exTmp (if d.extras = [] then ⟨exTmp, []⟩
      else insertStage s (dictionaryStages s d maxDetExtras rand beyond exTmp).userOver.outBuf
        beyond d.extras exTmp)) ↔ _
    rw [huser.1]
    split
    · exact Iff.rfl
    · exact clean_insertStage s d.extras us beyond exTmp
  have hautoInsert : InsertLaw s d.aExtras
      (dictionaryStages s d maxDetExtras rand beyond exTmp).autoInsert.executed ↔
        Clean s d.aExtras exTmp := by
    show InsertLaw s d.aExtras (Insert.executed (if d.aExtras = [] then
      ⟨(dictionaryStages s d maxDetExtras rand beyond exTmp).userInsert.exTmp, []⟩
      else insertStage s (dictionaryStages s d maxDetExtras rand beyond exTmp).autoOver.outBuf
        beyond d.aExtras
        (dictionaryStages s d maxDetExtras rand beyond exTmp).userInsert.exTmp)) ↔ _
    rw [hauto.1, ← hclean]
    split
    · next hnil =>
      rw [hnil]
      exact iff_of_true (insertLaw_nil s) (clean_nil s _)
    · exact insertStage_law s d.aExtras beyond _
  rw [Law, huserInsert, hautoInsert]
  exact ⟨fun hlaw => hlaw.2.2, fun hboth => ⟨huser, hauto, hboth⟩⟩

/-- The first position is skipped, and what lies there happens to be the byte of the input. -/
theorem dictionary_stages_skipped :
    Law ⟨[7, 8], fun i => decide (i = 1)⟩ ⟨[[9]], [], by decide, by decide⟩
      (dictionaryStages ⟨[7, 8], fun i => decide (i = 1)⟩ ⟨[[9]], [], by decide, by decide⟩ 256
        (fun _ _ => 0) 0 fun _ => 7) := by
  apply (dictionary_stages ⟨[7, 8], fun i => decide (i = 1)⟩ ⟨[[9]], [], by decide, by decide⟩ 256
    (fun _ _ => 0) 0 (fun _ => 7) (by decide)).mpr
  refine ⟨fun k hk heff _ _ => ?_, clean_nil _ _⟩
  have hzero : k = 0 := by
    have hlt : k < 2 := hk
    have hne : k ≠ 1 := of_decide_eq_false heff
    omega
  rw [hzero]
  decide

/-- The insertion behind a skipped position has another head than the input. -/
theorem head_is_lost :
    ¬ InsertLaw ⟨[7, 8], fun i => decide (i = 1)⟩ [[9]]
      (dictionaryStages ⟨[7, 8], fun i => decide (i = 1)⟩ ⟨[[9]], [], by decide, by decide⟩ 256
        (fun _ _ => 0) 0 fun _ => 0).userInsert.executed := by
  intro hlaw
  have hexecuted : (dictionaryStages ⟨[7, 8], fun i => decide (i = 1)⟩
      ⟨[[9]], [], by decide, by decide⟩ 256 (fun _ _ => 0) 0 fun _ => 0).userInsert.executed =
        [(1, [0, 9, 8])] := by decide
  rw [hexecuted] at hlaw
  have hall := hlaw.2 1 (by decide) (by decide) [9] List.mem_cons_self (by decide)
  exact absurd hall (by decide)

end Stages

end AflNv.DictStages
