-- Postfix order: the tokens of a line, rearranged so that each operator stands
-- after its operands. Parentheses are gone then, and so is the plus in front of
-- an operand; the minus in front of an operand is an operator of its own.
import Abacus.Fault
import Abacus.Token

namespace Abacus

/-- A conversion that has read some of the tokens. -/
structure Conversion where
  /-- The tokens in postfix order, the newest first. -/
  output : List Token := []
  /-- The operators that wait for their right operand, the newest first. -/
  pending : List (Placed Op) := []
  /-- An operand has to come next, so a plus or minus is a sign. -/
  expectsOperand : Bool := true
  deriving DecidableEq, Repr

namespace Conversion

/-- The operator as a token. -/
def token (op : Placed Op) : Token := ⟨.operator op.what, op.span⟩

/-- The output after these operators leave the pending ones, in this order. -/
def emit (ops : List (Placed Op)) (output : List Token) : List Token :=
  (ops.map token).reverse ++ output

/-- The operator is an opening parenthesis. -/
def opens (op : Placed Op) : Bool := op.what = .lparen

/-- The operator binds at least as tightly as the rank. -/
def bindsAt (rank : Nat) (op : Placed Op) : Bool := rank ≤ op.what.rank

/-- A closing parenthesis: all that waits since the opening one has its operands. -/
def close (c : Conversion) (place : Span) : Except Fault Conversion :=
  match c.pending.dropWhile (!opens ·) with
  | [] => .error ⟨.unmatched, place⟩
  | _ :: outer =>
    .ok { output := emit (c.pending.takeWhile (!opens ·)) c.output
          pending := outer
          expectsOperand := false }

/-- A sign in front of an operand. A minus waits for the operand, a plus does nothing. -/
def sign (c : Conversion) (op : Placed Op) : Conversion :=
  if op.what = .binary .sub then { c with pending := ⟨.neg, op.span⟩ :: c.pending } else c

/-- An operator between two operands: what binds at least as tightly has its operands. -/
def between (c : Conversion) (op : Placed Op) : Conversion where
  output := emit (c.pending.takeWhile (bindsAt op.what.rank)) c.output
  pending := op :: c.pending.dropWhile (bindsAt op.what.rank)
  expectsOperand := true

/-- Reads one token. -/
def step (c : Conversion) (t : Token) : Except Fault Conversion :=
  match t.what with
  | .operand _ => .ok { c with output := t :: c.output, expectsOperand := false }
  | .operator .lparen =>
    .ok { c with pending := ⟨.lparen, t.span⟩ :: c.pending, expectsOperand := true }
  | .operator .rparen => c.close t.span
  | .operator op =>
    if c.expectsOperand && op.isSign then .ok (c.sign ⟨op, t.span⟩)
    else .ok (c.between ⟨op, t.span⟩)

/-- The end of the tokens: nothing may wait for a closing parenthesis. -/
def finish (c : Conversion) : Except Fault (List Token) :=
  match c.pending.find? opens with
  | some op => .error ⟨.unclosed, op.span⟩
  | none => .ok (emit c.pending c.output).reverse

end Conversion

namespace Postfix

/-- The tokens in postfix order. -/
def ofTokens (tokens : List Token) : Except Fault (List Token) := do
  let c ← tokens.foldlM Conversion.step {}
  c.finish

/-- The tokens of a line in postfix order. -/
def ofLine (line : Text) : Except Fault (List Token) := ofTokens (Token.ofLine line)

end Postfix

end Abacus
