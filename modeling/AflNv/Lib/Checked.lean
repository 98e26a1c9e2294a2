import Mathlib.Data.List.Basic

/-!
# Programs that draw numbers and use buffers

A program takes numbers from a list, which stands for whatever a generator returns.  It stops where
the list ends, and it *faults* where it leaves a buffer, subtracts a number from a smaller one,
divides by zero, makes more passes through a loop than were allowed, or goes round a loop without
drawing a number, which it then does forever.

`Safe x Q` says that `x` never faults and that its result has the property `Q`.  A program that is
safe therefore ends as soon as the numbers let it.  There is one rule for each operation, in front
of what follows it, so that a proof goes through a program from its first operation on.
-/

namespace AflNv.Lib.Checked

/-- Why a program stops before its end. -/
inductive Stop
  /-- No number is left. -/
  | starved
  /-- An access outside of a buffer, a difference below zero, a division by zero, or a loop that
  makes more passes than it may or does not end. -/
  | fault
  deriving DecidableEq

abbrev Prog := StateT (List ℕ) (Except Stop)

variable {α β : Type}

def fault : Prog α := fun _ => .error .fault

/-- The next number. -/
def draw : Prog ℕ
  | [] => .error .starved
  | d :: ds => .ok (d, ds)

/-- A number below `limit`; where there is no choice, none is drawn. -/
def below (limit : ℕ) : Prog ℕ := if limit ≤ 1 then pure 0 else (· % limit) <$> draw

/-- `a - b` -/
def minus (a b : ℕ) : Prog ℕ := if b ≤ a then pure (a - b) else fault

/-- `a / b` -/
def divide (a b : ℕ) : Prog ℕ := if 0 < b then pure (a / b) else fault

/-! ## Buffers -/

/-- The element at `i`. -/
def load (buf : List α) (i : ℕ) : Prog α :=
  match buf[i]? with
  | some a => pure a
  | none => fault

/-- The buffer with `a` at `i`. -/
def store (buf : List α) (i : ℕ) (a : α) : Prog (List α) :=
  if i < buf.length then pure (buf.set i a) else fault

/-- The `n` elements from `i` on. -/
def slice (buf : List α) (i n : ℕ) : Prog (List α) :=
  if i + n ≤ buf.length then pure ((buf.drop i).take n) else fault

/-- The buffer with `src` from `i` on. -/
def blit (buf : List α) (i : ℕ) (src : List α) : Prog (List α) :=
  if i + src.length ≤ buf.length then
    pure (buf.take i ++ src ++ buf.drop (i + src.length))
  else fault

/-! ## Loops -/

/-- `x` again and again, until it has a result. -/
def retryFuel (x : Prog (Option α)) : ℕ → Prog α
  | 0 => fault
  | fuel + 1 => x >>= fun
    | some a => pure a
    | none => retryFuel x fuel

/-- `do .. while`.  When it makes more passes than there are numbers, one of them has drawn none, and
every later pass does what that one did. -/
def retry (x : Prog (Option α)) : Prog α := fun ds => retryFuel x (ds.length + 1) ds

/-- The first index from `i` on where `p` holds; `n` elements are looked at, at most. -/
def scan (p : α → Bool) (buf : List α) : ℕ → ℕ → Prog ℕ
  | 0, i => pure i
  | n + 1, i => load buf i >>= fun a => if p a then pure i else scan p buf n (i + 1)

/-- `step`, `n` times. -/
def iterate (step : α → Prog α) : ℕ → α → Prog α
  | 0, a => pure a
  | n + 1, a => step a >>= iterate step n

/-- `step` until it has a result, which it must have after at most `fuel` passes. -/
def loop (step : α → Prog (α ⊕ β)) : ℕ → α → Prog β
  | 0, _ => fault
  | fuel + 1, a => step a >>= fun
    | .inl next => loop step fuel next
    | .inr b => pure b

/-! ## Safety -/

/-- What a run may end in that had `n` numbers. -/
def Ends (Q : α → Prop) (n : ℕ) : Except Stop (α × List ℕ) → Prop
  | .ok r => Q r.1 ∧ r.2.length ≤ n
  | .error stop => stop = .starved

theorem Ends.mono {Q R : α → Prop} {m n : ℕ} {r : Except Stop (α × List ℕ)} (hr : Ends Q m r)
    (hle : m ≤ n) (h : ∀ a, Q a → R a) : Ends R n r := by
  cases r with
  | error stop => exact hr
  | ok r => exact ⟨h r.1 hr.1, Nat.le_trans hr.2 hle⟩

/-- The program does not fault, and its result has the property `Q`. -/
structure Safe (x : Prog α) (Q : α → Prop) : Prop where
  ends : ∀ ds, Ends Q ds.length (x ds)

variable {Q : α → Prop} {P : β → Prop}

theorem safe_pure {a : α} (h : Q a) : Safe (pure a) Q := ⟨fun _ => ⟨h, Nat.le_refl _⟩⟩

theorem Safe.bind {x : Prog α} {f : α → Prog β} (hx : Safe x Q) (hf : ∀ a, Q a → Safe (f a) P) :
    Safe (x >>= f) P := by
  constructor
  intro ds
  have hstep := hx.ends ds
  change Ends P ds.length (x ds >>= fun r => f r.1 r.2)
  cases hr : x ds with
  | error stop =>
    rw [hr] at hstep
    exact hstep
  | ok r =>
    rw [hr] at hstep
    exact ((hf r.1 hstep.1).ends r.2).mono hstep.2 fun _ hb => hb

theorem Safe.mono {x : Prog α} {R : α → Prop} (hx : Safe x Q) (h : ∀ a, Q a → R a) : Safe x R :=
  ⟨fun ds => (hx.ends ds).mono (Nat.le_refl _) h⟩

theorem Safe.map {x : Prog α} {g : α → β} (hx : Safe x fun a => P (g a)) : Safe (g <$> x) P :=
  hx.bind fun _ h => safe_pure h

section Rules

variable {f : ℕ → Prog β}

theorem safe_draw : Safe draw fun _ => True := by
  constructor
  intro ds
  cases ds with
  | nil => rfl
  | cons d ds => exact ⟨trivial, Nat.le_succ ds.length⟩

theorem below_safe {limit : ℕ} (hlimit : 0 < limit) (hf : ∀ r, r < limit → Safe (f r) P) :
    Safe (below limit >>= f) P := by
  unfold below
  split_ifs with h
  · rw [pure_bind]
    exact hf 0 hlimit
  · refine Safe.bind (Q := fun r => r < limit) ?_ hf
    exact Safe.map (safe_draw.mono fun d _ => Nat.mod_lt d hlimit)

theorem safe_below {limit : ℕ} (hlimit : 0 < limit) : Safe (below limit) fun r => r < limit := by
  rw [← bind_pure (below limit)]
  exact below_safe hlimit fun r hr => safe_pure hr

theorem below_any_safe {limit : ℕ} (hf : ∀ r, Safe (f r) P) : Safe (below limit >>= f) P := by
  cases limit with
  | zero => exact hf 0
  | succ limit => exact below_safe (Nat.succ_pos limit) fun r _ => hf r

theorem minus_safe {a b : ℕ} (h : b ≤ a) (hf : Safe (f (a - b)) P) : Safe (minus a b >>= f) P := by
  rwa [minus, if_pos h, pure_bind]

theorem divide_safe {a b : ℕ} (h : 0 < b) (hf : Safe (f (a / b)) P) :
    Safe (divide a b >>= f) P := by
  rwa [divide, if_pos h, pure_bind]

/-- A place for `n` elements among `len`. -/
theorem place_safe {n len : ℕ} (h : n ≤ len) (hf : ∀ pos, pos + n ≤ len → Safe (f pos) P) :
    Safe (minus len n >>= fun room => below (room + 1) >>= f) P :=
  minus_safe h (below_safe (Nat.succ_pos _) fun pos hpos => hf pos (by omega))

end Rules

section Buffers

variable {buf src : List α} {i n : ℕ}

theorem load_safe {f : α → Prog β} (h : i < buf.length) (hf : Safe (f buf[i]) P) :
    Safe (load buf i >>= f) P := by
  rw [load, List.getElem?_eq_getElem h]
  dsimp only
  rwa [pure_bind]

theorem safe_load (h : i < buf.length) : Safe (load buf i) fun a => a ∈ buf := by
  rw [load, List.getElem?_eq_getElem h]
  exact safe_pure (List.getElem_mem h)

theorem safe_store {a : α} (h : i < buf.length) :
    Safe (store buf i a) fun r => r.length = buf.length := by
  rw [store, if_pos h]
  exact safe_pure List.length_set

theorem safe_blit (h : i + src.length ≤ buf.length) :
    Safe (blit buf i src) fun r => r.length = buf.length := by
  rw [blit, if_pos h]
  apply safe_pure
  rw [List.length_append, List.length_append, List.length_take, List.length_drop]
  omega

variable {f : List α → Prog β}

theorem store_safe {a : α} (h : i < buf.length) (hf : Safe (f (buf.set i a)) P) :
    Safe (store buf i a >>= f) P := by
  rwa [store, if_pos h, pure_bind]

theorem slice_safe (h : i + n ≤ buf.length)
    (hf : ∀ r, r.length = n → r = (buf.drop i).take n → Safe (f r) P) :
    Safe (slice buf i n >>= f) P := by
  rw [slice, if_pos h, pure_bind]
  refine hf _ ?_ rfl
  rw [List.length_take, List.length_drop]
  omega

/-- The buffer keeps its length, and up to the end of `src` it is known. -/
theorem blit_safe (h : i + src.length ≤ buf.length)
    (hf : ∀ r, r.length = buf.length → r.take (i + src.length) = buf.take i ++ src →
      Safe (f r) P) : Safe (blit buf i src >>= f) P := by
  rw [blit, if_pos h, pure_bind]
  apply hf
  · rw [List.length_append, List.length_append, List.length_take, List.length_drop]
    omega
  · apply List.take_left'
    rw [List.length_append, List.length_take]
    omega

/-- What is drawn from a list is gone. -/
theorem draws_below {limit : ℕ} {f : ℕ → Prog α} (hlimit : 1 < limit)
    (hf : ∀ r, r < limit → Safe (f r) Q) (d : ℕ) (ds : List ℕ) :
    Ends Q ds.length ((below limit >>= f) (d :: ds)) := by
  have hdraw : (below limit >>= f) (d :: ds) = f (d % limit) ds := by
    rw [below, if_neg (Nat.not_le.mpr hlimit)]
    rfl
  rw [hdraw]
  exact (hf _ (Nat.mod_lt d (Nat.zero_lt_of_lt hlimit))).ends ds

/-- A loop whose passes begin with a choice draws a number in each of them. -/
theorem retry_below_safe {limit : ℕ} {f : ℕ → Prog (Option α)} (hlimit : 1 < limit)
    (hf : ∀ r, r < limit → Safe (f r) fun o => ∀ a ∈ o, Q a) :
    Safe (retry (below limit >>= f)) Q := by
  have hfuel (fuel : ℕ) (ds : List ℕ) (h : ds.length < fuel) :
      Ends Q ds.length (retryFuel (below limit >>= f) fuel ds) := by
    induction fuel generalizing ds with
    | zero => exact absurd h (Nat.not_lt_zero _)
    | succ fuel ih =>
      cases ds with
      | nil =>
        have hnone : (below limit >>= f) [] = .error .starved := by
          rw [below, if_neg (Nat.not_le.mpr hlimit)]
          rfl
        change Ends Q 0 ((below limit >>= f) [] >>= _)
        rw [hnone]
        rfl
      | cons d ds =>
        have hpass := draws_below hlimit hf d ds
        change Ends Q (ds.length + 1) ((below limit >>= f) (d :: ds) >>= _)
        cases hr : (below limit >>= f) (d :: ds) with
        | error stop =>
          rw [hr] at hpass
          exact hpass
        | ok r =>
          obtain ⟨o, rest⟩ := r
          rw [hr] at hpass
          obtain ⟨ho, hrest⟩ := hpass
          replace hrest : rest.length ≤ ds.length := hrest
          cases o with
          | some a => exact ⟨ho a rfl, Nat.le_succ_of_le hrest⟩
          | none =>
            have hless : rest.length < fuel := by
              simp only [List.length_cons] at h
              omega
            exact (ih rest hless).mono (Nat.le_succ_of_le hrest) fun _ ha => ha
  exact ⟨fun ds => hfuel _ ds (Nat.lt_succ_self _)⟩

/-- A loop that draws nothing does not end. -/
example : ¬ Safe (retry (pure none)) Q := by
  intro h
  cases h.ends []

/-- A draw that is not repeated. -/
theorem safe_unless {c : Prop} [Decidable c] {a : α} (h : ¬ c → Q a) :
    Safe (pure (if c then none else some a)) fun r => ∀ b ∈ r, Q b := by
  apply safe_pure
  intro b hb
  split_ifs at hb with hc
  · cases hb
  · cases hb
    exact h hc

/-- The scan stays between its ends, and where it stops early, `p` holds. -/
theorem safe_scan (p : α → Bool) (h : i + n ≤ buf.length) :
    Safe (scan p buf n i) fun r => i ≤ r ∧ r ≤ i + n := by
  induction n generalizing i with
  | zero => exact safe_pure ⟨Nat.le_refl i, Nat.le_refl i⟩
  | succ n ih =>
    refine load_safe (by omega) ?_
    split_ifs
    · exact safe_pure ⟨Nat.le_refl i, by omega⟩
    · exact (ih (by omega)).mono fun r hr => by omega

theorem safe_iterate {step : α → Prog α} {I : ℕ → α → Prop}
    (hstep : ∀ k a, I k a → Safe (step a) (I (k + 1))) (n : ℕ) {k : ℕ} {a : α} (h : I k a) :
    Safe (iterate step n a) (I (k + n)) := by
  induction n generalizing k a with
  | zero => exact safe_pure h
  | succ n ih =>
    refine (hstep k a h).bind fun b hb => ?_
    have hnext : k + (n + 1) = k + 1 + n := by omega
    rw [hnext]
    exact ih hb

end Buffers

/-- What one pass may end in: the invariant with one pass less to go, or the property. -/
def Next (I : ℕ → α → Prop) (P : β → Prop) (n : ℕ) : α ⊕ β → Prop
  | .inl a => I n a
  | .inr b => P b

/-- A loop whose invariant bounds the passes that are left needs no more of them. -/
theorem safe_loop {step : α → Prog (α ⊕ β)} {I : ℕ → α → Prop} (hzero : ∀ a, ¬ I 0 a)
    (hstep : ∀ n a, I (n + 1) a → Safe (step a) (Next I P n)) {n : ℕ} {a : α} (h : I n a) :
    Safe (loop step n a) P := by
  induction n generalizing a with
  | zero => exact absurd h (hzero a)
  | succ n ih =>
    refine (hstep n a h).bind fun r hr => ?_
    cases r with
    | inl next => exact ih hr
    | inr b => exact safe_pure hr

end AflNv.Lib.Checked
