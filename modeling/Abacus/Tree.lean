-- Expression trees: what tokens in postfix order say. A tree written out with
-- each operator after its operands has the value of the tree, computed left
-- operand first, then the right one, then the operator.
import Abacus.Evaluation

namespace Abacus

/-- An expression with its operands and operators in their places. -/
inductive Tree where
  | leaf (operand : Placed Text)
  /-- The minus at `place` in front of an expression. -/
  | neg (place : Span) (body : Tree)
  | node (op : Placed BinOp) (left right : Tree)
  deriving DecidableEq, Repr

namespace Tree

/-- The tokens of the tree, each operator after its operands. -/
def postorder : Tree → List Token
  | leaf operand => [⟨.operand operand.what, operand.span⟩]
  | neg place body => body.postorder ++ [⟨.operator .neg, place⟩]
  | node op left right =>
    left.postorder ++ right.postorder ++ [⟨.operator (.binary op.what), op.span⟩]

/-- The value of the tree, and the places that it was computed from. The first failure
is the failure of the whole. -/
def value (limits : Limits) (store : Store) : Tree → Except Fault (Placed Int)
  | leaf operand => do
    let n ← Operand.resolve store operand
    .ok ⟨n, operand.span⟩
  | neg place body => do
    let n ← body.value limits store
    .ok ⟨-n.what, place.join n.span⟩
  | node op left right => do
    let a ← left.value limits store
    let b ← right.value limits store
    let n ← op.what.apply limits op.span a b
    .ok ⟨n, a.span.join b.span⟩

/-! ## The stack against the tree -/

/-- Working off the tokens of a tree puts its value on the stack, whatever is there. -/
theorem foldlM_postorder (limits : Limits) (store : Store) (t : Tree) (stack : Stack) :
    t.postorder.foldlM (Stack.step limits store) stack =
      (t.value limits store).map (· :: stack) := by
  induction t generalizing stack with
  | leaf operand =>
    simp only [postorder, value, List.foldlM_cons, List.foldlM_nil, Stack.step_operand]
    cases Operand.resolve store operand <;> rfl
  | neg place body ih =>
    simp only [postorder, value, List.foldlM_append, ih]
    cases body.value limits store <;> rfl
  | node op left right ihl ihr =>
    simp only [postorder, value, List.foldlM_append, ihl]
    rcases left.value limits store with f | a
    · rfl
    · change (right.postorder.foldlM (Stack.step limits store) (a :: stack) >>= _) = _
      rw [ihr]
      rcases right.value limits store with f | b
      · rfl
      · change (Stack.step limits store (b :: a :: stack) _ >>= _) = _
        rw [Stack.step_binary]
        rcases h : op.what.apply limits op.span a b with f | n <;>
          simp [h, bind, Except.bind, Except.map, pure, Except.pure]

/-- The tokens of a tree evaluate to its value, or fail as it does. -/
theorem evaluate_postorder (limits : Limits) (store : Store) (t : Tree) :
    evaluate limits store t.postorder = (t.value limits store).map (·.what) := by
  simp only [evaluate, foldlM_postorder]
  cases t.value limits store <;> rfl

end Tree

end Abacus
