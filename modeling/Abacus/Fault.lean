-- Faults: the ways in which a line can fail, what is said about each, and the
-- stretch of the line that is to blame.
import Abacus.Span
import Abacus.Text.Basic

namespace Abacus

/-! ## Kinds -/

/-- The kinds of failure that a user can tell apart by their message. -/
inductive FaultKind where
  | unknownOperator
  | unknownVariable
  | invalidIdentifier
  | invalidAssignment
  | invalidExpression
  | divisionByZero
  | arithmeticRange
  deriving DecidableEq, Repr

/-- The colours that a message can have on a terminal. -/
inductive Colour where
  | red
  | yellow
  | magenta
  deriving DecidableEq, Repr

namespace FaultKind

/-- What is said about every failure of the kind. -/
def message : FaultKind → String
  | unknownOperator => "Unknown operator"
  | unknownVariable => "Unknown variable"
  | invalidIdentifier => "Invalid identifier"
  | invalidAssignment => "Invalid assignment"
  | invalidExpression => "Invalid expression"
  | divisionByZero => "Division by zero"
  | arithmeticRange => "Exponent out of range"

/-- Red is for what cannot be read, yellow for what does not fit together, magenta for
what has no value. -/
def colour : FaultKind → Colour
  | invalidIdentifier | invalidAssignment => .red
  | invalidExpression | unknownOperator => .yellow
  | unknownVariable | divisionByZero | arithmeticRange => .magenta

end FaultKind

/-! ## Causes -/

/-- Why a line failed. -/
inductive Cause where
  /-- A parenthesis is used like an operator between two values. -/
  | unknownOperator
  /-- The name has no value. -/
  | unknownVariable (name : Text)
  /-- An operand is neither a name nor a number. -/
  | invalidIdentifier
  /-- One side of the equals sign cannot stand there. -/
  | invalidAssignment
  /-- The operands and operators do not fit together. -/
  | malformed
  /-- An opening parenthesis has no partner. -/
  | unclosed
  /-- A closing parenthesis has no partner. -/
  | unmatched
  /-- A divisor is zero. -/
  | divisionByZero
  /-- An exponent is negative, or above the limit. -/
  | exponentOutOfRange (limit : UInt32)
  /-- A power may take more bits than the limit. -/
  | resultTooLarge (limit : UInt64)
  deriving DecidableEq, Repr

namespace Cause

def kind : Cause → FaultKind
  | unknownOperator => .unknownOperator
  | unknownVariable _ => .unknownVariable
  | invalidIdentifier => .invalidIdentifier
  | invalidAssignment => .invalidAssignment
  | malformed | unclosed | unmatched => .invalidExpression
  | divisionByZero => .divisionByZero
  | exponentOutOfRange _ | resultTooLarge _ => .arithmeticRange

/-- What the user can do about it, where there is something to say. -/
def help : Cause → Option String
  | unknownVariable name =>
    some ("assign a value first, e.g. `" ++ String.ofList name ++ " = 1`")
  | invalidIdentifier => some "names are made of ASCII letters only, numbers of digits only"
  | invalidAssignment => some "use `name = number` or `name = other_name`"
  | unclosed => some "this parenthesis is never closed"
  | unmatched => some "no matching `(` for this parenthesis"
  | exponentOutOfRange limit =>
    some ("exponents must be between 0 and " ++ toString limit.toNat)
  | resultTooLarge limit =>
    some ("the result would need more than " ++ toString limit.toNat ++ " bits")
  | unknownOperator | malformed | divisionByZero => none

end Cause

/-! ## Faults -/

/-- A failure of a line: why, and where. -/
structure Fault where
  cause : Cause
  span : Span
  deriving DecidableEq, Repr

namespace Fault

def kind (f : Fault) : FaultKind := f.cause.kind

def message (f : Fault) : String := f.kind.message

def help (f : Fault) : Option String := f.cause.help

end Fault

end Abacus
