-- Evaluation: tokens in postfix order are worked off on a stack of values.
-- Each value carries the stretch of the line that it was computed from.
import Abacus.Arithmetic
import Abacus.Operand

namespace Abacus

/-- The values that wait for an operator, the newest first. -/
abbrev Stack := List (Placed Int)

namespace Stack

/-- Works off one token. A parenthesis takes two values like an operator, and is at fault
when they are there; an operator is at fault when its values are not there. -/
def step (limits : Limits) (store : Store) (stack : Stack) (t : Token) : Except Fault Stack :=
  match t.what, stack with
  | .operand text, stack => do
    let value ← Operand.resolve store ⟨text, t.span⟩
    .ok (⟨value, t.span⟩ :: stack)
  | .operator .neg, value :: stack => .ok (⟨-value.what, t.span.join value.span⟩ :: stack)
  | .operator (.binary op), right :: left :: stack => do
    let value ← op.apply limits t.span left right
    .ok (⟨value, left.span.join right.span⟩ :: stack)
  | .operator .lparen, _ :: _ :: _ => .error ⟨.unknownOperator, t.span⟩
  | .operator .rparen, _ :: _ :: _ => .error ⟨.unknownOperator, t.span⟩
  | .operator _, _ => .error ⟨.malformed, t.span⟩

@[simp] theorem step_operand (limits : Limits) (store : Store) (stack : Stack) (text : Text)
    (span : Span) :
    step limits store stack ⟨.operand text, span⟩ =
      (Operand.resolve store ⟨text, span⟩).map (⟨·, span⟩ :: stack) := by
  simp only [step]
  cases Operand.resolve store ⟨text, span⟩ <;> rfl

@[simp] theorem step_neg (limits : Limits) (store : Store) (stack : Stack) (span : Span)
    (n : Placed Int) :
    step limits store (n :: stack) ⟨.operator .neg, span⟩ =
      .ok (⟨-n.what, span.join n.span⟩ :: stack) := rfl

@[simp] theorem step_binary (limits : Limits) (store : Store) (stack : Stack) (op : BinOp)
    (span : Span) (left right : Placed Int) :
    step limits store (right :: left :: stack) ⟨.operator (.binary op), span⟩ =
      (op.apply limits span left right).map (⟨·, left.span.join right.span⟩ :: stack) := by
  simp only [step]
  cases op.apply limits span left right <;> rfl

/-- The value of the whole, when exactly one is left. -/
def result : Stack → Except Fault Int
  | [] => .error ⟨.malformed, Span.single 0⟩
  | [value] => .ok value.what
  | value :: _ => .error ⟨.malformed, value.span⟩

end Stack

/-- The value of tokens in postfix order. -/
def evaluate (limits : Limits) (store : Store) (tokens : List Token) : Except Fault Int := do
  let stack ← tokens.foldlM (Stack.step limits store) []
  Stack.result stack

end Abacus
