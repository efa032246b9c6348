-- Bit lengths: how long a result can be, told from the lengths of the operands
-- alone. Only a power can be much longer than what it is made of, and the
-- limits see to powers.
import Abacus.Arithmetic
import Mathlib.Algebra.Order.Ring.Int
import Mathlib.Data.Nat.Size

namespace Abacus

/-! ## The length and the size of a power -/

theorem bitLength_eq_size (n : Int) : bitLength n = n.natAbs.size := by
  unfold bitLength
  split
  · rename_i h
    rw [h]
    rfl
  · rename_i h
    have hne : n.natAbs ≠ 0 := Int.natAbs_ne_zero.mpr h
    apply Nat.le_antisymm
    · rw [Nat.succ_le_iff, Nat.lt_size]
      exact Nat.log2_self_le hne
    · rw [Nat.size_le]
      exact Nat.lt_log2_self

theorem powerSize_le_iff (limit : UInt64) (base : Int) (exponent : Nat) :
    powerSize base exponent ≤ limit.toNat ↔
      base.natAbs.size * exponent ≤ limit.toNat ∨ limit.toNat = UInt64.size - 1 := by
  have hlimit := limit.toNat_lt
  have hsize : UInt64.size = 2 ^ 64 := rfl
  unfold powerSize
  rw [bitLength_eq_size]
  omega

/-! ## Operations -/

theorem bitLength_le_iff {n : Int} {k : Nat} : bitLength n ≤ k ↔ n.natAbs < 2 ^ k := by
  rw [bitLength_eq_size, Nat.size_le]

theorem natAbs_lt_of_bitLength (n : Int) : n.natAbs < 2 ^ bitLength n :=
  bitLength_le_iff.mp (Nat.le_refl _)

@[simp] theorem bitLength_neg (n : Int) : bitLength (-n) = bitLength n := by
  rw [bitLength_eq_size, bitLength_eq_size, Int.natAbs_neg]

/-- A sum can be one bit longer than the longer of its parts. -/
theorem bitLength_add_le (a b : Int) :
    bitLength (a + b) ≤ max (bitLength a) (bitLength b) + 1 := by
  rw [bitLength_le_iff]
  have ha : a.natAbs < 2 ^ max (bitLength a) (bitLength b) :=
    bitLength_le_iff.mp (Nat.le_max_left _ _)
  have hb : b.natAbs < 2 ^ max (bitLength a) (bitLength b) :=
    bitLength_le_iff.mp (Nat.le_max_right _ _)
  have hsum := Int.natAbs_add_le a b
  rw [Nat.pow_succ]
  omega

theorem bitLength_sub_le (a b : Int) :
    bitLength (a - b) ≤ max (bitLength a) (bitLength b) + 1 := by
  rw [Int.sub_eq_add_neg, ← bitLength_neg b]
  exact bitLength_add_le a (-b)

/-- A product is no longer than its factors end to end. -/
theorem bitLength_mul_le (a b : Int) : bitLength (a * b) ≤ bitLength a + bitLength b := by
  rw [bitLength_le_iff, Int.natAbs_mul, Nat.pow_add]
  exact Nat.mul_lt_mul'' (natAbs_lt_of_bitLength a) (natAbs_lt_of_bitLength b)

/-- A quotient is no longer than what is divided. -/
theorem bitLength_tdiv_le (a b : Int) : bitLength (a.tdiv b) ≤ bitLength a := by
  rw [bitLength_le_iff, Int.natAbs_tdiv]
  exact Nat.lt_of_le_of_lt (Nat.div_le_self _ _) (natAbs_lt_of_bitLength a)

/-- A power is no longer than its base as often as the exponent says. The power 1 has a bit
all the same when the exponent is zero. -/
theorem bitLength_pow_le (a : Int) (e : Nat) : bitLength (a ^ e) ≤ max 1 (bitLength a * e) := by
  rcases Nat.eq_zero_or_pos e with rfl | hpos
  · rw [Int.pow_zero]
    exact Nat.le_max_left _ _
  · refine Nat.le_trans ?_ (Nat.le_max_right _ _)
    rw [bitLength_le_iff, Int.natAbs_pow, Nat.pow_mul]
    exact Nat.pow_lt_pow_left (natAbs_lt_of_bitLength a) (Nat.pos_iff_ne_zero.mp hpos)

end Abacus
