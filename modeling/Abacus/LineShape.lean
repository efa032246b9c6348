-- Line shapes: what a line asks for, told from its characters alone, before
-- anything has a value.
import Abacus.Operand
import Abacus.Token

namespace Abacus

/-- What a line asks for. -/
inductive LineShape where
  /-- The value of one operand. -/
  | value
  /-- The value of operands joined by operators. -/
  | expression
  /-- A literal for a name. -/
  | assignment (name : Text) (literal : Placed Text)
  /-- The value of another name for a name. -/
  | reference (name : Text) (source : Placed Text)
  deriving DecidableEq, Repr

namespace LineShape

/-- The whole line as a span. -/
def whole (line : Text) : Span := ⟨0, line.byteLength⟩

/-- The operands among the tokens. -/
def operands (tokens : List Token) : List (Placed Text) :=
  tokens.filterMap fun t =>
    match t.what with
    | .operand text => some ⟨text, t.span⟩
    | .operator _ => none

/-- The line is one operand: a word, or a minus and a word that is neither a name nor a
numeral. Such a word is looked up with its minus. -/
def isSingle : Text → Bool
  | '-' :: body => Operand.isWord body && !Operand.isPlain body
  | line => Operand.isWord line

/-- The shape of a line without an equals sign. The first operand that is neither a name
nor a numeral is at fault, or the whole line when it has no operand. -/
def ofFormula (line : Text) : Except Fault LineShape :=
  if isSingle line then .ok .value
  else
    let tokens := Token.ofLine line
    match (operands tokens).find? fun t => !Operand.isPlain t.what with
    | some t => .error ⟨.invalidIdentifier, t.span⟩
    | none =>
      if (operands tokens).isEmpty then .error ⟨.invalidIdentifier, whole line⟩
      else if line.any isOperator then .ok .expression
      else .ok .value

/-- The shape of the line `left = right`. On the left stands a name, on the right a
literal or a name. -/
def ofEquation (left right : Text) : Except Fault LineShape :=
  let equals := left.byteLength
  let source : Placed Text := ⟨right, equals + 1, equals + 1 + right.byteLength⟩
  if !Operand.isName left then .error ⟨.invalidAssignment, 0, max equals 1⟩
  else if Decimal.isLiteral right then .ok (.assignment left source)
  else if Operand.isName right then .ok (.reference left source)
  else if right.isEmpty then .error ⟨.invalidAssignment, Span.single equals⟩
  else .error ⟨.invalidAssignment, source.span⟩

/-- The shape of a line. The first equals sign divides it. -/
def ofLine (line : Text) : Except Fault LineShape :=
  match line.dropWhile (· ≠ '=') with
  | [] => ofFormula line
  | _ :: right => ofEquation (line.takeWhile (· ≠ '=')) right

end LineShape

end Abacus
