-- Trees read back: tokens in postfix order are those of one tree at most, so
-- what they evaluate to is what this tree comes to, and tokens of no tree come
-- to nothing.
import Abacus.Proofs.FormulaMeaning
import Abacus.Proofs.StackTrees

namespace Abacus

namespace Tree

/-! ## One tree for its tokens -/

/-- Works off one token to trees, the newest first: an operator takes its operands from
them. -/
def grow : List Tree → Token → Option (List Tree)
  | trees, ⟨.operand text, span⟩ => some (leaf ⟨text, span⟩ :: trees)
  | body :: trees, ⟨.operator .neg, span⟩ => some (neg span body :: trees)
  | right :: left :: trees, ⟨.operator (.binary op), span⟩ =>
    some (node ⟨op, span⟩ left right :: trees)
  | _, _ => none

/-- The tokens of a tree are read back as the tree, whatever trees are there. -/
theorem foldlM_grow_postorder (t : Tree) (trees : List Tree) :
    t.postorder.foldlM grow trees = some (t :: trees) := by
  induction t generalizing trees with
  | leaf operand => rfl
  | neg place body ih =>
    rw [postorder, List.foldlM_append, ih]
    rfl
  | node op left right ihl ihr =>
    rw [postorder, List.foldlM_append, List.foldlM_append, ihl]
    change ((right.postorder.foldlM grow (left :: trees)) >>= _) = _
    rw [ihr]
    rfl

theorem postorder_injective {t t' : Tree} (h : t.postorder = t'.postorder) : t = t' := by
  have hread := foldlM_grow_postorder t []
  rw [h, foldlM_grow_postorder] at hread
  cases hread
  rfl

/-! ## What its tokens come to -/

variable {limits : Limits} {store : Store} {t : Tree}

theorem evaluate_of_result_ok {v : Int} (h : t.result limits store = .ok v) :
    evaluate limits store t.postorder = .ok v := by
  rw [← mapError_value] at h
  rw [evaluate_postorder]
  rcases hvalue : t.value limits store with fault | value <;> rw [hvalue] at h <;> cases h
  rfl

theorem evaluate_of_result_error {kind : FaultKind} (h : t.result limits store = .error kind) :
    ∃ fault, evaluate limits store t.postorder = .error fault ∧ fault.kind = kind := by
  rw [← mapError_value] at h
  rw [evaluate_postorder]
  rcases hvalue : t.value limits store with fault | value <;> rw [hvalue] at h <;> cases h
  exact ⟨fault, rfl, rfl⟩

end Tree

/-! ## The law -/

/-- Tokens evaluate to an integer exactly when they are those of a tree that comes to this
integer. There is one such tree at most; where the tree fails, the tokens fail with the kind
of its first failure, and tokens that are those of no tree fail in any case. -/
theorem tokens_evaluate_as_their_only_tree (limits : Limits) (store : Store) (tokens : List Token) :
    (∀ v, evaluate limits store tokens = .ok v ↔
      ∃ t : Tree, t.postorder = tokens ∧ t.result limits store = .ok v) ∧
    (∀ t t' : Tree, t.postorder = tokens → t'.postorder = tokens → t = t') ∧
    (∀ (t : Tree) (kind : FaultKind), t.postorder = tokens →
      t.result limits store = .error kind →
        ∃ fault, evaluate limits store tokens = .error fault ∧ fault.kind = kind) ∧
    ((∀ t : Tree, t.postorder ≠ tokens) → ∃ fault, evaluate limits store tokens = .error fault) := by
  refine ⟨?_, ?_, ?_, ?_⟩
  · intro v
    constructor
    · intro h
      obtain ⟨t, value, ht, hvalue, rfl⟩ := exists_tree_of_evaluate h
      refine ⟨t, ht, ?_⟩
      rw [← Tree.mapError_value, hvalue]
      rfl
    · rintro ⟨t, rfl, ht⟩
      exact Tree.evaluate_of_result_ok ht
  · intro t t' ht ht'
    exact Tree.postorder_injective (ht.trans ht'.symm)
  · rintro t kind rfl ht
    exact Tree.evaluate_of_result_error ht
  · intro hnone
    rcases h : evaluate limits store tokens with fault | v
    · exact ⟨fault, rfl⟩
    · obtain ⟨t, _, ht, _, _⟩ := exists_tree_of_evaluate h
      exact absurd ht (hnone t)

/-- The tokens of `1/0+y`, where `y` has no value: the division fails before `y` is looked up. -/
theorem a_division_fails_before_its_right_neighbour :
    let tokens : List Token := [⟨.operand ['1'], 0, 1⟩, ⟨.operand ['0'], 2, 3⟩,
      ⟨.operator (.binary .div), 1, 2⟩, ⟨.operand ['y'], 4, 5⟩, ⟨.operator (.binary .add), 3, 4⟩]
    ∃ fault, evaluate {} {} tokens = .error fault ∧ fault.kind = .divisionByZero :=
  (tokens_evaluate_as_their_only_tree {} {} _).2.2.1
    (.node ⟨.add, 3, 4⟩ (.node ⟨.div, 1, 2⟩ (.leaf ⟨['1'], 0, 1⟩) (.leaf ⟨['0'], 2, 3⟩))
      (.leaf ⟨['y'], 4, 5⟩)) .divisionByZero rfl (by decide)

end Abacus
