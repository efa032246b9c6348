-- The limits of powers: exactly which powers are computed. How long a power can
-- be is counted before it is computed. The count stops at the largest word, so
-- a power that is longer still passes the one limit that is this word itself.
import Abacus.Proofs.BitLength

namespace Abacus

/-! ## What the limits allow -/

/-- The limits allow this power. The bits of the base, as often as the exponent says, keep
the limit of bits; the largest limit there is keeps out no result. -/
def Limits.Allow (limits : Limits) (base exponent : Int) : Prop :=
  (0 ≤ exponent ∧ exponent ≤ limits.maxExponent.toNat) ∧
    (base.natAbs.size * exponent.toNat ≤ limits.maxResultBits.toNat ∨
      limits.maxResultBits.toNat = UInt64.size - 1)

instance (limits : Limits) (base exponent : Int) : Decidable (limits.Allow base exponent) :=
  inferInstanceAs (Decidable (_ ∧ _))

/-- The count that stops and the count that does not give one verdict, except for the limit
at which the first one stops. -/
theorem powerSize_le_iff_of_ne {limit : UInt64} (h : limit.toNat ≠ UInt64.size - 1) (base : Int)
    (exponent : Nat) :
    powerSize base exponent ≤ limit.toNat ↔ bitLength base * exponent ≤ limit.toNat := by
  rw [powerSize_le_iff, ← bitLength_eq_size]
  omega

theorem bitLength_two_pow (k : Nat) : bitLength (2 ^ k) = k + 1 := by
  rw [bitLength_eq_size, Int.natAbs_pow]
  exact Nat.size_pow

/-- A square can be too long for the largest word, and then the count stops. -/
theorem exists_powerSize_lt :
    ∃ base : Int, powerSize base 2 = UInt64.size - 1 ∧ UInt64.size - 1 < bitLength base * 2 := by
  have hlong : ∃ base : Int, bitLength base = UInt64.size := ⟨_, bitLength_two_pow _⟩
  obtain ⟨base, hbase⟩ := hlong
  have hsize : UInt64.size = 2 ^ 64 := rfl
  refine ⟨base, ?_, by omega⟩
  unfold powerSize
  omega

section Power

variable {limits : Limits} {place : Span} {base exponent : Placed Int} {n : Int}

/-- A power that the limits allow is computed, and it is the power. -/
theorem power_of_allow (h : limits.Allow base.what exponent.what) :
    power limits place base exponent = .ok (base.what ^ exponent.what.toNat) := by
  obtain ⟨hrange, hfits⟩ := h
  have hsize := (powerSize_le_iff _ _ _).mpr hfits
  unfold power
  rw [if_neg (by omega), if_neg (Nat.not_lt.mpr hsize)]
  rfl

theorem allow_of_power_eq_ok (h : power limits place base exponent = .ok n) :
    limits.Allow base.what exponent.what := by
  unfold power at h
  split at h
  · cases h
  · rename_i hrange
    split at h
    · cases h
    · rename_i hsize
      exact ⟨by omega, (powerSize_le_iff _ _ _).mp (Nat.le_of_not_lt hsize)⟩

/-- A power that they do not allow is refused, for its exponent or for its size. -/
theorem power_of_not_allow (h : ¬limits.Allow base.what exponent.what) :
    ∃ fault, power limits place base exponent = .error fault ∧ fault.kind = .arithmeticRange := by
  rcases hpower : power limits place base exponent with fault | n
  · refine ⟨fault, rfl, ?_⟩
    unfold power at hpower
    split at hpower
    · cases hpower
      rfl
    · split at hpower <;> cases hpower
      rfl
  · exact absurd (allow_of_power_eq_ok hpower) h

theorem eq_pow_of_power_eq_ok (h : power limits place base exponent = .ok n) :
    n = base.what ^ exponent.what.toNat := by
  rw [power_of_allow (allow_of_power_eq_ok h), Except.ok.injEq] at h
  exact h.symm

/-- A power that the limits allow is no longer than the limit, or 1. The largest limit there
is allows every power. -/
theorem bitLength_power_le (finite : limits.maxResultBits.toNat < UInt64.size - 1)
    (h : power limits place base exponent = .ok n) :
    bitLength n ≤ max 1 limits.maxResultBits.toNat := by
  have hfits := (allow_of_power_eq_ok h).2.resolve_right (Nat.ne_of_lt finite)
  have hpow := bitLength_pow_le base.what exponent.what.toNat
  rw [← bitLength_eq_size] at hfits
  rw [eq_pow_of_power_eq_ok h]
  omega

end Power

/-! ## The law -/

/-- A power is computed exactly when the limits allow it, and is refused otherwise. What is
computed is the power, of which the exponent 0 makes 1 whatever the base is; it is no longer
than what was counted, nor than the limit. The count can stop too early, but only the limit at
which it stops does not notice. -/
theorem a_power_is_computed_exactly_within_its_limits :
    (∀ (limits : Limits) (place : Span) (base exponent : Placed Int),
      (limits.Allow base.what exponent.what ↔
        ∃ n, BinOp.pow.apply limits place base exponent = .ok n) ∧
      (¬limits.Allow base.what exponent.what →
        ∃ fault, BinOp.pow.apply limits place base exponent = .error fault ∧
          fault.kind = .arithmeticRange) ∧
      ∀ n, BinOp.pow.apply limits place base exponent = .ok n →
        n = base.what ^ exponent.what.toNat ∧ (exponent.what = 0 → n = 1) ∧
        bitLength n ≤ max 1 (bitLength base.what * exponent.what.toNat) ∧
        (limits.maxResultBits.toNat < UInt64.size - 1 →
          bitLength n ≤ max 1 limits.maxResultBits.toNat)) ∧
    (∀ limit : UInt64, limit.toNat ≠ UInt64.size - 1 → ∀ (base : Int) (exponent : Nat),
      (powerSize base exponent ≤ limit.toNat ↔ bitLength base * exponent ≤ limit.toNat)) ∧
    ∃ base : Int, powerSize base 2 = UInt64.size - 1 ∧ UInt64.size - 1 < bitLength base * 2 := by
  refine ⟨?_, fun limit h => powerSize_le_iff_of_ne h, exists_powerSize_lt⟩
  intro limits place base exponent
  refine ⟨⟨fun h => ⟨_, power_of_allow h⟩, fun ⟨n, h⟩ => allow_of_power_eq_ok h⟩,
    power_of_not_allow, ?_⟩
  intro n h
  have hn := eq_pow_of_power_eq_ok h
  refine ⟨hn, ?_, ?_, fun finite => bitLength_power_le finite h⟩
  · intro hzero
    rw [hn, hzero]
    exact Int.pow_zero _
  · rw [hn]
    exact bitLength_pow_le _ _

/-- With at most 20 bits, `16^4` is computed and keeps them. With at most 16 bits it is refused,
since 5 bits four times are counted. -/
theorem sixteen_to_the_fourth_takes_twenty_bits :
    let base : Placed Int := ⟨16, 0, 2⟩
    let exponent : Placed Int := ⟨4, 3, 4⟩
    BinOp.pow.apply { maxResultBits := 20 } ⟨2, 3⟩ base exponent = .ok 65536 ∧
      bitLength 65536 ≤ 20 ∧ ¬Limits.Allow { maxResultBits := 16 } 16 4 ∧
      ∃ fault, BinOp.pow.apply { maxResultBits := 16 } ⟨2, 3⟩ base exponent = .error fault ∧
        fault.kind = .arithmeticRange := by
  intro base exponent
  obtain ⟨hlaw, _⟩ := a_power_is_computed_exactly_within_its_limits
  obtain ⟨hallow, _, hvalue⟩ := hlaw { maxResultBits := 20 } ⟨2, 3⟩ base exponent
  obtain ⟨n, hn⟩ := hallow.mp (by decide)
  obtain ⟨rfl, _, _, hbits⟩ := hvalue n hn
  have hnot : ¬Limits.Allow { maxResultBits := 16 } 16 4 := by decide
  exact ⟨hn, hbits (by decide), hnot,
    (hlaw { maxResultBits := 16 } ⟨2, 3⟩ base exponent).2.1 hnot⟩

end Abacus
