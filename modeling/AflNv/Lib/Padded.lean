import AflNv.Lib.Numeral

/-!
# Zero-padded numbers in byte order

Digit strings of one length are in byte order as their numbers are, and so are the texts that
begin with them.  `padded w ds` fills digits up to `w` bytes; from the first number with more
digits on, that order is lost.
-/

namespace AflNv.Lib.Padded

open AflNv.Lib.Numeral

/-- `%0<w>u`, for the digits of a number. -/
def padded (w : ℕ) (ds : Text) : Text := List.replicate (w - ds.length) 48 ++ ds

theorem length_padded {w : ℕ} {ds : Text} (h : ds.length ≤ w) : (padded w ds).length = w := by
  rw [padded, List.length_append, List.length_replicate]
  omega

theorem natOf_cons (b : UInt8) (ds : Text) :
    natOf (b :: ds) = (b.toNat - 48) * 10 ^ ds.length + natOf ds := by
  have happend := natOf_append [b] ds
  simpa [natOf] using happend

theorem natOf_padded (w : ℕ) (ds : Text) : natOf (padded w ds) = natOf ds := by
  have hzeros : ∀ k : ℕ, natOf (List.replicate k 48) = 0 := by
    intro k
    induction k with
    | zero => rfl
    | succ k ih =>
      rw [List.replicate_succ, natOf_cons, ih]
      simp
  rw [padded, natOf_append, hzeros, Nat.zero_mul, Nat.zero_add]

theorem digit_bounds {b : UInt8} (h : isDigit b = true) : 48 ≤ b.toNat ∧ b.toNat ≤ 57 := by
  rw [isDigit, Bool.and_eq_true, decide_eq_true_eq, decide_eq_true_eq] at h
  exact ⟨UInt8.le_iff_toNat_le.mp h.1, UInt8.le_iff_toNat_le.mp h.2⟩

theorem padded_digits {w : ℕ} {ds : Text} (h : ∀ b ∈ ds, isDigit b = true) :
    ∀ b ∈ padded w ds, isDigit b = true := by
  intro b hb
  rcases List.mem_append.mp hb with hb | hb
  · rw [(List.mem_replicate.mp hb).2]
    decide
  · exact h b hb

theorem natOf_lt {ds : Text} (h : ∀ b ∈ ds, isDigit b = true) : natOf ds < 10 ^ ds.length := by
  induction ds with
  | nil => exact Nat.one_pos
  | cons b ds ih =>
    have htail := ih fun c hc => h c (List.mem_cons_of_mem b hc)
    have hb := digit_bounds (h b List.mem_cons_self)
    have hmul : (b.toNat - 48) * 10 ^ ds.length ≤ 9 * 10 ^ ds.length :=
      Nat.mul_le_mul_right _ (by omega)
    rw [natOf_cons, List.length_cons, pow_succ]
    omega

/-- Digit strings of one length are ordered as their numbers are. -/
theorem lt_of_natOf_lt {a b : Text} (ha : ∀ d ∈ a, isDigit d = true)
    (hb : ∀ d ∈ b, isDigit d = true) (hlength : a.length = b.length)
    (h : natOf a < natOf b) : a < b := by
  induction a generalizing b with
  | nil =>
    rw [List.length_eq_zero_iff.mp hlength.symm] at h
    exact absurd h (Nat.lt_irrefl _)
  | cons x a ih =>
    cases b with
    | nil => cases hlength
    | cons y b =>
      have hsame : a.length = b.length := Nat.succ.inj hlength
      have hlow := natOf_lt fun d hd => hb d (List.mem_cons_of_mem y hd)
      have hx := digit_bounds (ha x List.mem_cons_self)
      have hy := digit_bounds (hb y List.mem_cons_self)
      rw [natOf_cons, natOf_cons, hsame] at h
      rw [List.cons_lt_cons_iff]
      rcases Nat.lt_trichotomy x.toNat y.toNat with hlt | heq | hgt
      · exact .inl (UInt8.lt_iff_toNat_lt.mpr hlt)
      · rw [heq] at h
        exact .inr ⟨UInt8.toNat_inj.mp heq, ih (fun d hd => ha d (List.mem_cons_of_mem x hd))
          (fun d hd => hb d (List.mem_cons_of_mem y hd)) hsame (by omega)⟩
      · -- the greater leading digit outweighs all the others
        have hmul : (y.toNat - 48 + 1) * 10 ^ b.length ≤ (x.toNat - 48) * 10 ^ b.length :=
          Nat.mul_le_mul_right _ (by omega)
        rw [Nat.add_mul, Nat.one_mul] at hmul
        omega

/-- The order of two texts is decided where their fronts of one length differ. -/
theorem append_lt_append {a b : Text} (hlength : a.length = b.length) (h : a < b) (x y : Text) :
    a ++ x < b ++ y := by
  induction a generalizing b with
  | nil =>
    rw [List.length_eq_zero_iff.mp hlength.symm] at h
    exact absurd h (List.lt_irrefl [])
  | cons c a ih =>
    cases b with
    | nil => cases hlength
    | cons d b =>
      rw [List.cons_append, List.cons_append, List.cons_lt_cons_iff]
      rcases List.cons_lt_cons_iff.mp h with hlt | ⟨heq, hlt⟩
      · exact .inl hlt
      · exact .inr ⟨heq, ih (Nat.succ.inj hlength) hlt⟩

/-- Padded numbers in front of texts put them in the order of the numbers. -/
theorem padded_lt {w : ℕ} {a b : Text} (ha : ∀ d ∈ a, isDigit d = true)
    (hb : ∀ d ∈ b, isDigit d = true) (hwa : a.length ≤ w) (hwb : b.length ≤ w)
    (h : natOf a < natOf b) (x y : Text) : padded w a ++ x < padded w b ++ y := by
  have hlength : (padded w a).length = (padded w b).length := by
    rw [length_padded hwa, length_padded hwb]
  refine append_lt_append hlength ?_ x y
  apply lt_of_natOf_lt (padded_digits ha) (padded_digits hb) hlength
  rwa [natOf_padded, natOf_padded]

end AflNv.Lib.Padded
