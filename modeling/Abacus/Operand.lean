-- Operands: what a run of characters between operators can be, and the value
-- that it has.
import Abacus.Decimal
import Abacus.Store

namespace Abacus.Operand

/-- A name is one Latin letter or more, and nothing else. -/
def isName (t : Text) : Bool := !t.isEmpty && t.all Char.isAlpha

/-- An operand of an expression is a name or a numeral without a sign. -/
def isPlain (t : Text) : Bool := isName t || t.all Char.isDigit

/-- Letters and digits in any mix, at least one of them. -/
def isWord (t : Text) : Bool := !t.isEmpty && t.all Char.isAlphanum

/-- The value of an operand. A literal denotes itself, whatever the store says; all else
is looked up, under any name. -/
def resolve (store : Store) (operand : Placed Text) : Except Fault Int :=
  match Decimal.read? operand.what with
  | some value => .ok value
  | none =>
    match store.get? operand.what with
    | some value => .ok value
    | none => .error ⟨.unknownVariable operand.what, operand.span⟩

end Abacus.Operand
