import Mathlib.Data.List.GetD
import Mathlib.Tactic.IntervalCases

/-!
# Arrays of bits in bytes

Bit `i` of an array of bytes is bit `i % 8` of byte `i / 8`; behind the end every bit
is clear.
-/

namespace AflNv.Lib.ByteBits

/-- Bit `i` of an array of bytes. -/
def bitAt (bs : List UInt8) (i : ℕ) : Bool := (bs.getD (i / 8) 0).toBitVec.getLsbD (i % 8)

/-- Set bit `i`. -/
def setBit (bs : List UInt8) (i : ℕ) : List UInt8 :=
  bs.modify (i / 8) fun b => b ||| 1 <<< UInt8.ofNat (i % 8)

/-- Clear the bits that the second array has. -/
def andNot (as bs : List UInt8) : List UInt8 := List.zipWith (fun a b => a &&& ~~~b) as bs

@[simp] theorem length_setBit (bs : List UInt8) (i : ℕ) : (setBit bs i).length = bs.length :=
  List.length_modify _ _ _

theorem length_andNot {as bs : List UInt8} (h : as.length ≤ bs.length) :
    (andNot as bs).length = as.length := by
  rw [andNot, List.length_zipWith]
  omega

/-- The bits of a byte with one bit more. -/
theorem getLsbD_or_shift (b : UInt8) {k m : ℕ} (hk : k < 8) (hm : m < 8) :
    (b ||| 1 <<< UInt8.ofNat k).toBitVec.getLsbD m = (b.toBitVec.getLsbD m || decide (k = m)) := by
  have hbit : ((1 : UInt8) <<< UInt8.ofNat k).toBitVec.getLsbD m = decide (k = m) := by
    interval_cases k <;> interval_cases m <;> rfl
  rw [UInt8.toBitVec_or, BitVec.getLsbD_or, hbit]

theorem bitAt_setBit {bs : List UInt8} {i : ℕ} (hi : i / 8 < bs.length) (j : ℕ) :
    bitAt (setBit bs i) j = (bitAt bs j || decide (i = j)) := by
  rw [bitAt, bitAt, setBit, List.getD_eq_getElem?_getD, List.getElem?_modify,
    List.getD_eq_getElem?_getD]
  by_cases hij : i / 8 = j / 8
  · have hmod : decide (i % 8 = j % 8) = decide (i = j) := by
      refine decide_eq_decide.mpr ⟨fun h => ?_, fun h => by rw [h]⟩
      omega
    simp only [if_pos hij]
    rw [← hij, List.getElem?_eq_getElem hi, ← hmod]
    exact getLsbD_or_shift _ (Nat.mod_lt _ (by decide)) (Nat.mod_lt _ (by decide))
  · have hne : decide (i = j) = false := decide_eq_false fun h => hij (by rw [h])
    simp only [if_neg hij, hne, Bool.or_false, id_map']

theorem bitAt_andNot {as bs : List UInt8} (h : as.length ≤ bs.length) (i : ℕ) :
    bitAt (andNot as bs) i = (bitAt as i && !bitAt bs i) := by
  rw [bitAt, bitAt, bitAt, andNot, List.getD_eq_getElem?_getD, List.getElem?_zipWith,
    List.getD_eq_getElem?_getD, List.getD_eq_getElem?_getD]
  by_cases hi : i / 8 < as.length
  · rw [List.getElem?_eq_getElem hi, List.getElem?_eq_getElem (Nat.lt_of_lt_of_le hi h)]
    show (_ &&& ~~~_ : UInt8).toBitVec.getLsbD (i % 8) = _
    have hmod : i % 8 < 8 := Nat.mod_lt _ (by decide)
    rw [UInt8.toBitVec_and, BitVec.getLsbD_and, UInt8.toBitVec_not, BitVec.getLsbD_not]
    simp [hmod]
  · rw [List.getElem?_eq_none (by omega)]
    simp

end AflNv.Lib.ByteBits
