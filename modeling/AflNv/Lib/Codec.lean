import Mathlib.Algebra.Group.Nat.Defs
import Mathlib.Data.List.GetD

/-!
# Codecs of fixed size

A codec writes a value as a fixed number of bytes and reads it back; the length and
the round trip are fields of the structure.  Numbers are little-endian.

* `byte`, `flag`, `padding` and `nat` are the basic codecs, and `pair` and `imap` build
  others from them.
* `split` takes a block of bytes from a stream.
-/

namespace AflNv.Lib

/-- A block of `n` bytes. -/
abbrev Block (n : ℕ) := { bs : List UInt8 // bs.length = n }

/-- Take a block from the front of a stream that is long enough. -/
def Block.split (n : ℕ) (bs : List UInt8) : Option (Block n × List UInt8) :=
  if h : n ≤ bs.length then some (⟨bs.take n, List.length_take_of_le h⟩, bs.drop n) else none

@[simp] theorem Block.split_append {n : ℕ} (b : Block n) (rest : List UInt8) :
    Block.split n (b.val ++ rest) = some (b, rest) := by
  have hle : n ≤ (b.val ++ rest).length := by
    rw [List.length_append, b.property]
    exact Nat.le_add_right n _
  rw [Block.split, dif_pos hle, Option.some.injEq, Prod.mk.injEq, Subtype.mk.injEq]
  exact ⟨List.take_left' b.property, List.drop_left' b.property⟩

/-- A way to write values as blocks of one size, and to read them from the front of a
stream. -/
structure Codec (α : Type*) where
  size : ℕ
  put : α → List UInt8
  get : List UInt8 → α
  length_put : ∀ a, (put a).length = size
  get_put : ∀ a rest, get (put a ++ rest) = a

namespace Codec

variable {α β : Type*}

/-- The block of a value. -/
def block (c : Codec α) (a : α) : Block c.size := ⟨c.put a, c.length_put a⟩

theorem get_block (c : Codec α) (a : α) : c.get (c.block a).val = a := by
  have h := c.get_put a []
  rwa [List.append_nil] at h

/-- One byte. -/
def byte : Codec UInt8 where
  size := 1
  put b := [b]
  get bs := bs.headD 0
  length_put _ := rfl
  get_put _ _ := rfl

/-- Bytes that hold no value. -/
def padding (n : ℕ) : Codec Unit where
  size := n
  put _ := List.replicate n 0
  get _ := ()
  length_put _ := List.length_replicate
  get_put _ _ := rfl

/-- One value after the other. -/
def pair (c : Codec α) (d : Codec β) : Codec (α × β) where
  size := c.size + d.size
  put p := c.put p.1 ++ d.put p.2
  get bs := (c.get bs, d.get (bs.drop c.size))
  length_put p := by rw [List.length_append, c.length_put, d.length_put]
  get_put p rest := by
    rw [List.append_assoc, c.get_put, List.drop_left' (c.length_put p.1), d.get_put]

/-- The same bytes for another type. -/
def imap (c : Codec α) (f : α → β) (g : β → α) (h : ∀ b, f (g b) = b) : Codec β where
  size := c.size
  put b := c.put (g b)
  get bs := f (c.get bs)
  length_put b := c.length_put (g b)
  get_put b rest := by rw [c.get_put, h]

/-- A truth value in one byte. -/
def flag : Codec Bool :=
  byte.imap (fun b => b ≠ 0) (fun b => if b then 1 else 0) (by decide)

/-! ## Numbers -/

/-- The lowest bytes of a number. -/
def putLE : ℕ → ℕ → List UInt8
  | 0, _ => []
  | k + 1, n => UInt8.ofNat n :: putLE k (n / 256)

/-- The number of the first bytes. -/
def getLE : ℕ → List UInt8 → ℕ
  | 0, _ => 0
  | _ + 1, [] => 0
  | k + 1, b :: bs => b.toNat + 256 * getLE k bs

theorem length_putLE : ∀ k n, (putLE k n).length = k
  | 0, _ => rfl
  | k + 1, n => by rw [putLE, List.length_cons, length_putLE]

theorem getLE_putLE (rest : List UInt8) : ∀ k n,
    getLE k (putLE k n ++ rest) = n % 256 ^ k
  | 0, n => (Nat.mod_one n).symm
  | k + 1, n => by
    have hpow : 256 ^ (k + 1) = 256 * 256 ^ k := Nat.pow_succ'
    rw [putLE, List.cons_append, getLE, getLE_putLE rest k, hpow, Nat.mod_mul,
      UInt8.toNat_ofNat']

/-- A number of `k` bytes. -/
def nat (k : ℕ) : Codec (Fin (256 ^ k)) where
  size := k
  put n := putLE k n
  get bs := Fin.ofNat (256 ^ k) (getLE k bs)
  length_put n := length_putLE k n
  get_put n rest := by
    rw [getLE_putLE, Nat.mod_eq_of_lt n.isLt]
    exact Fin.ext (Nat.mod_eq_of_lt n.isLt)

/-- A `u32`. -/
def u32 : Codec UInt32 :=
  (nat 4).imap (fun n => UInt32.ofNat n) (fun w => ⟨w.toNat, w.toNat_lt⟩)
    fun _ => UInt32.ofNat_toNat

/-- A `u64`. -/
def u64 : Codec UInt64 :=
  (nat 8).imap (fun n => UInt64.ofNat n) (fun w => ⟨w.toNat, w.toNat_lt⟩)
    fun _ => UInt64.ofNat_toNat

end Codec

end AflNv.Lib
