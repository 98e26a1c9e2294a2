import Mathlib.Data.Nat.Find
import Mathlib.Order.Monotone.Basic

/-!
# Loops that ask before each step

A loop works through a sequence of states.  Before each step it asks an outside
party; when the answer is no, it asks again in the same state.  Question `i` of
the whole run may be answered in any way that depends on `i` and on the state.

* `Loop.chain` is the sequence of states without the waiting.
* `Loop.halts_iff`: the loop comes to an end exactly when the sequence does and
  each of its states gets a yes, at increasing questions.
* `exists_iterate_abs` and `iterate_abs` compare a machine that makes some silent
  steps with one that does not.
-/

namespace AflNv.Lib.Polling

/-- A loop that asks before each step. -/
structure Loop (σ : Type*) where
  done : σ → Bool
  /-- Step `k` of the loop. -/
  next : ℕ → σ → σ
  /-- The answer to question `i`. -/
  accepts : ℕ → σ → Bool

/-- How far a loop got. -/
structure Pos (σ : Type*) where
  asked : ℕ
  steps : ℕ
  state : σ

namespace Loop

variable {σ : Type*} (L : Loop σ)

/-- One question, and the step if the answer is yes. -/
def ask (p : Pos σ) : Pos σ :=
  if L.done p.state then p
  else if L.accepts p.asked p.state then ⟨p.asked + 1, p.steps + 1, L.next p.steps p.state⟩
  else { p with asked := p.asked + 1 }

/-- The state after `k` steps. -/
def chain (s : σ) : ℕ → σ
  | 0 => s
  | k + 1 => if L.done (chain s k) then chain s k else L.next k (chain s k)

@[simp] theorem chain_zero (s : σ) : L.chain s 0 = s := rfl

variable {L}

theorem chain_succ {s : σ} {k : ℕ} (h : L.done (L.chain s k) = false) :
    L.chain s (k + 1) = L.next k (L.chain s k) := by
  rw [chain, if_neg (by simp [h])]

/-- Once done, the sequence of states stays where it is. -/
theorem chain_of_done {s : σ} {k m : ℕ} (h : L.done (L.chain s k) = true) (hle : k ≤ m) :
    L.chain s m = L.chain s k := by
  induction m, hle using Nat.le_induction with
  | base => rfl
  | succ m _ ih => rw [chain, ih, if_pos h]

theorem lt_of_not_done {s : σ} {j k : ℕ} (hk : L.done (L.chain s k) = true)
    (hj : L.done (L.chain s j) = false) : j < k := by
  by_contra hle
  rw [chain_of_done hk (Nat.le_of_not_lt hle), hk] at hj
  exact absurd hj (by decide)

theorem ask_of_done {p : Pos σ} (h : L.done p.state = true) : L.ask p = p := if_pos h

/-- Two loops that take the same steps below `k` have the same first states. -/
theorem chain_congr {L' : Loop σ} (hdone : L'.done = L.done) {s : σ} {k : ℕ}
    (hnext : ∀ j < k, L'.next j = L.next j) : ∀ j ≤ k, L'.chain s j = L.chain s j := by
  intro j
  induction j with
  | zero => exact fun _ => rfl
  | succ j ih =>
    intro hj
    rw [chain, chain, ih (by omega), hdone, hnext j (by omega)]

/-- A measure that every step lowers bounds the number of steps. -/
theorem exists_done_of_measure {s : σ} (μ : σ → ℕ)
    (hnext : ∀ k, L.done (L.chain s k) = false →
      μ (L.next k (L.chain s k)) < μ (L.chain s k)) :
    ∃ k ≤ μ s, L.done (L.chain s k) = true := by
  suffices key : ∀ k, (∀ j < k, L.done (L.chain s j) = false) → μ (L.chain s k) + k ≤ μ s by
    by_contra hnone
    have hrun : ∀ k ≤ μ s, L.done (L.chain s k) = false := by
      intro k hk
      by_contra hdone
      exact hnone ⟨k, hk, by simpa using hdone⟩
    have hlast := hnext _ (hrun _ (Nat.le_refl _))
    have hle := key (μ s) fun j hj => hrun j hj.le
    omega
  intro k
  induction k with
  | zero => exact fun _ => Nat.le_refl _
  | succ k ih =>
    intro hrun
    have hk := hrun k (Nat.lt_succ_self k)
    have hlt := hnext k hk
    have hle := ih fun j hj => hrun j (Nat.lt_succ_of_lt hj)
    rw [chain_succ hk]
    omega

/-! ## The waiting -/

/-- Where a loop is after `n` questions, and the questions that were answered with
a yes. -/
theorem ask_iterate (s : σ) (n : ℕ) :
    ∃ i k, L.ask^[n] ⟨0, 0, s⟩ = ⟨i, k, L.chain s k⟩ ∧ ∃ yes : ℕ → ℕ,
      (∀ j < k, yes j < i ∧ L.done (L.chain s j) = false ∧
        L.accepts (yes j) (L.chain s j) = true) ∧
      ∀ j, j + 1 < k → yes j < yes (j + 1) := by
  induction n with
  | zero => exact ⟨0, 0, rfl, id, by simp, by simp⟩
  | succ n ih =>
    obtain ⟨i, k, hpos, yes, hyes, hmono⟩ := ih
    rw [Function.iterate_succ_apply', hpos, ask]
    by_cases hdone : L.done (L.chain s k) = true
    · rw [if_pos hdone]
      exact ⟨i, k, rfl, yes, hyes, hmono⟩
    · rw [if_neg hdone]
      by_cases hacc : L.accepts i (L.chain s k) = true
      · -- The yes to question `i` is the one for state `k`.
        rw [if_pos hacc]
        refine ⟨i + 1, k + 1, ?_, Function.update yes k i, fun j hj => ?_, fun j hj => ?_⟩
        · rw [chain_succ (by simpa using hdone)]
        · by_cases hjk : j = k
          · subst hjk
            rw [Function.update_self]
            exact ⟨Nat.lt_succ_self i, by simpa using hdone, hacc⟩
          · rw [Function.update_of_ne hjk]
            obtain ⟨hlt, hrest⟩ := hyes j (by omega)
            exact ⟨by omega, hrest⟩
        · rw [Function.update_of_ne (by omega)]
          by_cases hjk : j + 1 = k
          · rw [hjk, Function.update_self]
            exact (hyes j (by omega)).1
          · rw [Function.update_of_ne hjk]
            exact hmono j (by omega)
      · rw [if_neg hacc]
        refine ⟨i + 1, k, rfl, yes, fun j hj => ?_, hmono⟩
        obtain ⟨hlt, hrest⟩ := hyes j hj
        exact ⟨by omega, hrest⟩

/-- Asking until question `q` is answered with a yes. -/
theorem ask_until {i k q : ℕ} {s : σ} (hle : i ≤ q) (hdone : L.done s = false)
    (hacc : L.accepts q s = true) :
    ∃ n i', i' ≤ q + 1 ∧ L.ask^[n] ⟨i, k, s⟩ = ⟨i', k + 1, L.next k s⟩ := by
  induction hd : q - i generalizing i with
  | zero =>
    obtain rfl : i = q := by omega
    exact ⟨1, i + 1, Nat.le_refl _, by rw [Function.iterate_one, ask]; simp [hdone, hacc]⟩
  | succ d ih =>
    by_cases hnow : L.accepts i s = true
    · exact ⟨1, i + 1, by omega, by rw [Function.iterate_one, ask]; simp [hdone, hnow]⟩
    · obtain ⟨n, i', hle', hrun⟩ := ih (i := i + 1) (by omega) (by omega)
      refine ⟨n + 1, i', hle', ?_⟩
      rw [Function.iterate_succ_apply, ask]
      simpa [hdone, hnow] using hrun

/-- A loop comes to an end exactly when its sequence of states does and each of
these states gets a yes, one after the other. -/
theorem halts_iff (s : σ) :
    (∃ n, L.done (L.ask^[n] ⟨0, 0, s⟩).state = true) ↔
      (∃ m, L.done (L.chain s m) = true) ∧
        ∃ q : ℕ → ℕ, StrictMono q ∧
          ∀ k, L.done (L.chain s k) = false → L.accepts (q k) (L.chain s k) = true := by
  constructor
  · rintro ⟨n, hn⟩
    obtain ⟨i, k, hpos, yes, hyes, hmono⟩ := ask_iterate (L := L) s n
    rw [hpos] at hn
    refine ⟨⟨k, hn⟩, fun j => if j < k then yes j else i + j, ?_, fun j hj => ?_⟩
    · refine strictMono_nat_of_lt_succ fun j => ?_
      by_cases hj : j + 1 < k
      · rw [if_pos hj, if_pos (by omega)]
        exact hmono j hj
      · rw [if_neg hj]
        by_cases hjk : j < k
        · have := (hyes j hjk).1
          rw [if_pos hjk]
          omega
        · rw [if_neg hjk]
          omega
    · have hjk := lt_of_not_done hn hj
      show L.accepts (if j < k then yes j else i + j) (L.chain s j) = true
      rw [if_pos hjk]
      exact (hyes j hjk).2.2
  · rintro ⟨⟨m, hm⟩, q, hq, hacc⟩
    -- The loop reaches state `k` before question `q k`, unless it ends earlier.
    have hreach : ∀ k, (∀ j < k, L.done (L.chain s j) = false) →
        ∃ n i, i ≤ q k ∧ L.ask^[n] ⟨0, 0, s⟩ = ⟨i, k, L.chain s k⟩ := by
      intro k
      induction k with
      | zero => exact fun _ => ⟨0, 0, Nat.zero_le _, rfl⟩
      | succ k ih =>
        intro hrun
        have hk := hrun k (Nat.lt_succ_self k)
        obtain ⟨n, i, hle, hpos⟩ := ih fun j hj => hrun j (Nat.lt_succ_of_lt hj)
        obtain ⟨n', i', hle', hstep⟩ := ask_until (k := k) hle hk (hacc k hk)
        refine ⟨n' + n, i', hle'.trans (hq (Nat.lt_succ_self k)), ?_⟩
        rw [Function.iterate_add_apply, hpos, hstep, chain_succ hk]
    have hex : ∃ m, L.done (L.chain s m) = true := ⟨m, hm⟩
    obtain ⟨n, i, -, hpos⟩ := hreach (Nat.find hex) fun j hj => by
      simpa using Nat.find_min hex hj
    refine ⟨n, ?_⟩
    rw [hpos]
    exact Nat.find_spec hex

/-- A loop that always gets a yes does not wait. -/
theorem ask_iterate_of_accepts {s : σ} {n : ℕ}
    (h : ∀ k < n, L.done (L.chain s k) = false ∧ L.accepts k (L.chain s k) = true) :
    L.ask^[n] ⟨0, 0, s⟩ = ⟨n, n, L.chain s n⟩ := by
  induction n with
  | zero => rfl
  | succ n ih =>
    obtain ⟨hdone, hacc⟩ := h n (Nat.lt_succ_self n)
    rw [Function.iterate_succ_apply', ih fun k hk => h k (Nat.lt_succ_of_lt hk), ask,
      chain_succ hdone]
    simp [hdone, hacc]

end Loop

/-! ## Silent steps -/

section Silent

variable {α β : Type*} {f : α → α} {g : β → β} {abs : α → β}

/-- What a machine shows after `n` steps is what the abstract one shows after some
number of steps. -/
theorem iterate_abs (hstep : ∀ a, abs (f a) = g (abs a) ∨ abs (f a) = abs a) (a : α) (n : ℕ) :
    ∃ m, abs (f^[n] a) = g^[m] (abs a) := by
  induction n with
  | zero => exact ⟨0, rfl⟩
  | succ n ih =>
    obtain ⟨m, hm⟩ := ih
    rw [Function.iterate_succ_apply']
    rcases hstep (f^[n] a) with hmove | hsilent
    · exact ⟨m + 1, by rw [hmove, hm, Function.iterate_succ_apply']⟩
    · exact ⟨m, hsilent.trans hm⟩

/-- When silent steps lower a measure, every abstract step is eventually made. -/
theorem exists_iterate_abs (μ : α → ℕ)
    (hstep : ∀ a, abs (f a) = g (abs a) ∨ abs (f a) = abs a ∧ μ (f a) < μ a) (a : α) (m : ℕ) :
    ∃ n, abs (f^[n] a) = g^[m] (abs a) := by
  have hone : ∀ a, ∃ n, abs (f^[n] a) = g (abs a) := by
    intro a
    induction hd : μ a using Nat.strong_induction_on generalizing a with
    | _ d ih =>
      rcases hstep a with hmove | ⟨hsilent, hlt⟩
      · exact ⟨1, hmove⟩
      · obtain ⟨n, hn⟩ := ih (μ (f a)) (hd ▸ hlt) (f a) rfl
        exact ⟨n + 1, by rw [Function.iterate_succ_apply, hn, hsilent]⟩
  induction m with
  | zero => exact ⟨0, rfl⟩
  | succ m ih =>
    obtain ⟨n, hn⟩ := ih
    obtain ⟨n', hn'⟩ := hone (f^[n] a)
    exact ⟨n' + n, by rw [Function.iterate_add_apply, hn', hn, Function.iterate_succ_apply']⟩

end Silent

end AflNv.Lib.Polling
