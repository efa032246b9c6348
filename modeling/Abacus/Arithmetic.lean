-- Arithmetic: what each operator does with two integers. Integers are exact.
-- Division cuts off toward zero. A power is refused before it is computed when
-- its exponent is out of range or its result may be too large.
import Abacus.Fault
import Abacus.Token

namespace Abacus

/-! ## Limits -/

/-- The limits that a power has to keep. -/
structure Limits where
  /-- The largest exponent. -/
  maxExponent : UInt32 := 1000000
  /-- The largest result of a power, in bits, as `powerSize` reckons it. -/
  maxResultBits : UInt64 := 16000000
  deriving DecidableEq, Repr

/-- The bits of the absolute value. Zero has none. -/
def bitLength (n : Int) : Nat := if n = 0 then 0 else n.natAbs.log2 + 1

/-- The bits that the power may take: those of the base, as often as the exponent says.
The count stops at the largest 64-bit word, so a limit that large refuses no result. -/
def powerSize (base : Int) (exponent : Nat) : Nat :=
  min (bitLength base * exponent) (UInt64.size - 1)

/-! ## Operators -/

/-- The power of two values. A wrong exponent is blamed on the exponent, a result that is
too large on the operator and the exponent. -/
def power (limits : Limits) (place : Span) (base exponent : Placed Int) : Except Fault Int :=
  if exponent.what < 0 ∨ (limits.maxExponent.toNat : Int) < exponent.what then
    .error ⟨.exponentOutOfRange limits.maxExponent, exponent.span⟩
  else if limits.maxResultBits.toNat < powerSize base.what exponent.what.toNat then
    .error ⟨.resultTooLarge limits.maxResultBits, place.join exponent.span⟩
  else
    .ok (base.what.pow exponent.what.toNat)

/-- The quotient of two values, cut off toward zero. -/
def quotient (place : Span) (dividend divisor : Placed Int) : Except Fault Int :=
  if divisor.what = 0 then
    .error ⟨.divisionByZero, place.join divisor.span⟩
  else
    .ok (dividend.what.tdiv divisor.what)

/-- The value of an operator that stands at `place` between two values. -/
def BinOp.apply (limits : Limits) (op : BinOp) (place : Span) (left right : Placed Int) :
    Except Fault Int :=
  match op with
  | .add => .ok (left.what + right.what)
  | .sub => .ok (left.what - right.what)
  | .mul => .ok (left.what * right.what)
  | .div => quotient place left right
  | .pow => power limits place left right

end Abacus
