-- The stack as a row of trees: whatever tokens were worked off, they are the
-- tokens of some trees one after another, and the stack holds the values of
-- these trees.
import Abacus.Proofs.SessionSteps
import Abacus.Tree
import Mathlib.Data.List.Induction

namespace Abacus

/-! ## One token -/

/-- All that one token can do to the stack when it does not fail. -/
inductive Stack.Move (limits : Limits) (store : Store) : Stack → Token → Stack → Prop
  /-- An operand puts its value on the stack. -/
  | operand {stack : Stack} (text : Text) (span : Span) {n : Int}
      (denotes : Operand.resolve store ⟨text, span⟩ = .ok n) :
      Move limits store stack ⟨.operand text, span⟩ (⟨n, span⟩ :: stack)
  /-- A minus in front negates the newest value. -/
  | neg {rest : Stack} (span : Span) (value : Placed Int) :
      Move limits store (value :: rest) ⟨.operator .neg, span⟩
        (⟨-value.what, span.join value.span⟩ :: rest)
  /-- An operator takes the two newest values, the newest on its right. -/
  | binary {rest : Stack} (op : BinOp) (span : Span) (left right : Placed Int) {n : Int}
      (applies : op.apply limits span left right = .ok n) :
      Move limits store (right :: left :: rest) ⟨.operator (.binary op), span⟩
        (⟨n, left.span.join right.span⟩ :: rest)

namespace Stack

variable {limits : Limits} {store : Store} {stack stack' : Stack} {t : Token}

/-- A step that does not fail is a move. -/
theorem move_of_step (h : step limits store stack t = .ok stack') :
    Move limits store stack t stack' := by
  obtain ⟨what, span⟩ := t
  rcases what with text | (op | _ | _ | _)
  · rw [step_operand] at h
    cases hresolve : Operand.resolve store ⟨text, span⟩ <;> rw [hresolve] at h <;> cases h
    exact .operand text span hresolve
  · rcases stack with _ | ⟨right, _ | ⟨left, rest⟩⟩
    · cases h
    · cases h
    · rw [step_binary] at h
      cases happly : op.apply limits span left right <;> rw [happly] at h <;> cases h
      exact .binary op span left right happly
  · rcases stack with _ | ⟨right, _ | ⟨left, rest⟩⟩ <;> cases h
  · rcases stack with _ | ⟨right, _ | ⟨left, rest⟩⟩ <;> cases h
  · rcases stack with _ | ⟨value, rest⟩ <;> cases h
    exact .neg span value

/-- The last token is worked off on the stack that the ones before it left. -/
theorem exists_move_of_foldlM_concat {tokens : List Token}
    (h : (tokens ++ [t]).foldlM (step limits store) stack = .ok stack') :
    ∃ middle, tokens.foldlM (step limits store) stack = .ok middle ∧
      Move limits store middle t stack' := by
  rw [List.foldlM_append] at h
  obtain ⟨middle, hmiddle, hlast⟩ := Except.exists_of_bind_eq_ok h
  rw [List.foldlM_cons] at hlast
  obtain ⟨after, hstep, hnil⟩ := Except.exists_of_bind_eq_ok hlast
  cases hnil
  exact ⟨middle, hmiddle, move_of_step hstep⟩

end Stack

/-! ## The operands of a tree -/

namespace Tree

@[simp] theorem operands_postorder_neg (place : Span) (body : Tree) :
    LineShape.operands (neg place body).postorder = LineShape.operands body.postorder := by
  rw [postorder, Conversion.operands_append]
  exact List.append_nil _

@[simp] theorem operands_postorder_node (op : Placed BinOp) (left right : Tree) :
    LineShape.operands (node op left right).postorder =
      LineShape.operands left.postorder ++ LineShape.operands right.postorder := by
  rw [postorder, Conversion.operands_append, Conversion.operands_append]
  exact List.append_nil _

end Tree

/-! ## Many tokens -/

/-- The tokens of trees side by side, the newest tree first in the list. -/
def Tree.written : List Tree → List Token
  | [] => []
  | tree :: older => written older ++ tree.postorder

/-- The stack holds the values of the trees, the newest first. -/
def Stack.Holds (limits : Limits) (store : Store) (trees : List Tree) (stack : Stack) : Prop :=
  List.Forall₂ (fun tree value => tree.value limits store = .ok value) trees stack

namespace Stack

variable {limits : Limits} {store : Store} {stack stack' : Stack} {t : Token} {trees : List Tree}

/-- A token makes a leaf of an operand, and joins the newest trees under an operator. -/
theorem Holds.move (h : Holds limits store trees stack) (move : Move limits store stack t stack') :
    ∃ trees', Tree.written trees' = Tree.written trees ++ [t] ∧
      Holds limits store trees' stack' := by
  cases move with
  | operand text span denotes =>
    refine ⟨.leaf ⟨text, span⟩ :: trees, rfl, .cons ?_ h⟩
    unfold Tree.value
    rw [denotes]
    rfl
  | neg span value =>
    cases h with
    | @cons body _ older _ hbody holder =>
      refine ⟨.neg span body :: older, ?_, .cons ?_ holder⟩
      · simp [Tree.written, Tree.postorder]
      · unfold Tree.value
        rw [hbody]
        rfl
  | binary op span left right applies =>
    cases h with
    | @cons rightTree _ _ _ hright hrest =>
      cases hrest with
      | @cons leftTree _ older _ hleft holder =>
        refine ⟨.node ⟨op, span⟩ leftTree rightTree :: older, ?_, .cons ?_ holder⟩
        · simp [Tree.written, Tree.postorder]
        · unfold Tree.value
          rw [hleft, hright]
          change (op.apply limits span left right >>= _) = _
          rw [applies]
          rfl

/-- Tokens that were worked off from the empty stack are those of trees, and the stack holds
the values of the trees. -/
theorem exists_trees_of_foldlM {tokens : List Token}
    (h : tokens.foldlM (step limits store) [] = .ok stack) :
    ∃ trees, Tree.written trees = tokens ∧ Holds limits store trees stack := by
  induction tokens using List.reverseRecOn generalizing stack with
  | nil =>
    cases h
    exact ⟨[], rfl, .nil⟩
  | append_singleton tokens t ih =>
    obtain ⟨middle, hmiddle, move⟩ := exists_move_of_foldlM_concat h
    obtain ⟨trees, hwritten, hholds⟩ := ih hmiddle
    obtain ⟨trees', hwritten', hholds'⟩ := hholds.move move
    exact ⟨trees', by rw [hwritten', hwritten], hholds'⟩

end Stack

/-- Tokens that have a value are the tokens of a tree with this value. -/
theorem exists_tree_of_evaluate {limits : Limits} {store : Store} {tokens : List Token} {n : Int}
    (h : evaluate limits store tokens = .ok n) :
    ∃ (tree : Tree) (value : Placed Int), tree.postorder = tokens ∧
      tree.value limits store = .ok value ∧ value.what = n := by
  obtain ⟨stack, hfold, hresult⟩ := Except.exists_of_bind_eq_ok h
  obtain ⟨trees, hwritten, hholds⟩ := Stack.exists_trees_of_foldlM hfold
  rcases stack with _ | ⟨value, _ | ⟨next, rest⟩⟩
  · cases hresult
  · cases hresult
    cases hholds with
    | @cons tree _ _ _ hvalue hnil =>
      cases hnil
      exact ⟨tree, value, by simpa [Tree.written] using hwritten, hvalue, rfl⟩
  · cases hresult

end Abacus
