-- The size of results: no value on the stack is much longer than all its
-- operands together, however its powers and products are nested. A unit is as
-- long as the longest operand, and as the longest power that the limits allow.
import Abacus.Proofs.PowerLimits
import Abacus.Proofs.StackTrees

namespace Abacus

/-! ## The unit -/

/-- The length of the longest value that one of the operands has. -/
def operandBits (store : Store) (tokens : List Token) : Nat :=
  ((LineShape.operands tokens).map fun operand =>
    match Operand.resolve store operand with
    | .ok n => bitLength n
    | .error _ => 0).foldr max 0

/-- A length that is enough for each operand, and for each power that the limits allow. -/
def sizeUnit (limits : Limits) (store : Store) (tokens : List Token) : Nat :=
  max 1 (max limits.maxResultBits.toNat (operandBits store tokens))

theorem bitLength_le_operandBits {store : Store} {tokens : List Token} {operand : Placed Text}
    (h : operand ∈ LineShape.operands tokens) {n : Int}
    (hn : Operand.resolve store operand = .ok n) : bitLength n ≤ operandBits store tokens := by
  unfold operandBits
  generalize LineShape.operands tokens = operands at h ⊢
  induction operands with
  | nil => cases h
  | cons first rest ih =>
    rw [List.map_cons, List.foldr_cons]
    rcases List.mem_cons.mp h with rfl | h
    · rw [hn]
      exact Nat.le_max_left _ _
    · exact Nat.le_trans (ih h) (Nat.le_max_right _ _)

/-! ## One operator -/

theorem quotient_eq_ok {place : Span} {dividend divisor : Placed Int} {n : Int}
    (h : quotient place dividend divisor = .ok n) : n = dividend.what.tdiv divisor.what := by
  unfold quotient at h
  split at h
  · cases h
  · cases h
    rfl

/-- Two values that keep the bound of their operands make a value that keeps the bound of
all these operands. -/
theorem bitLength_apply_lt {limits : Limits} {unit : Nat}
    (finite : limits.maxResultBits.toNat < UInt64.size - 1)
    (enough : max 1 limits.maxResultBits.toNat ≤ unit) {op : BinOp} {place : Span}
    {left right : Placed Int} {n : Int} (h : op.apply limits place left right = .ok n) {k l : Nat}
    (hleft : bitLength left.what < k * (unit + 1)) (hright : bitLength right.what < l * (unit + 1)) :
    bitLength n < (k + l) * (unit + 1) := by
  -- Each side has an operand, so one unit and a bit is always there to be spent.
  have hk : unit + 1 ≤ k * (unit + 1) :=
    Nat.le_mul_of_pos_left _ (Nat.pos_of_lt_mul_right hleft)
  have hl : unit + 1 ≤ l * (unit + 1) :=
    Nat.le_mul_of_pos_left _ (Nat.pos_of_lt_mul_right hright)
  rw [Nat.add_mul]
  cases op with
  | add =>
    cases h
    have hadd := bitLength_add_le left.what right.what
    omega
  | sub =>
    cases h
    have hsub := bitLength_sub_le left.what right.what
    omega
  | mul =>
    cases h
    have hmul := bitLength_mul_le left.what right.what
    omega
  | div =>
    obtain rfl := quotient_eq_ok h
    have hdiv := bitLength_tdiv_le left.what right.what
    omega
  | pow =>
    have hpow := bitLength_power_le finite h
    omega

/-! ## Trees -/

theorem Tree.bitLength_value_lt {limits : Limits} {store : Store} {unit : Nat}
    (finite : limits.maxResultBits.toNat < UInt64.size - 1)
    (enough : max 1 limits.maxResultBits.toNat ≤ unit) {tree : Tree}
    (fits : ∀ operand ∈ LineShape.operands tree.postorder, ∀ n,
      Operand.resolve store operand = .ok n → bitLength n ≤ unit)
    {value : Placed Int} (h : tree.value limits store = .ok value) :
    bitLength value.what < (LineShape.operands tree.postorder).length * (unit + 1) := by
  induction tree generalizing value with
  | leaf operand =>
    obtain ⟨n, hn, h⟩ := Except.exists_of_bind_eq_ok h
    cases h
    have hfits := fits operand List.mem_cons_self n hn
    change bitLength n < 1 * (unit + 1)
    omega
  | neg place body ih =>
    obtain ⟨inner, hinner, h⟩ := Except.exists_of_bind_eq_ok h
    cases h
    rw [operands_postorder_neg] at fits ⊢
    rw [bitLength_neg]
    exact ih fits hinner
  | node op left right ihl ihr =>
    obtain ⟨a, ha, h⟩ := Except.exists_of_bind_eq_ok h
    obtain ⟨b, hb, h⟩ := Except.exists_of_bind_eq_ok h
    obtain ⟨n, hn, h⟩ := Except.exists_of_bind_eq_ok h
    cases h
    rw [operands_postorder_node] at fits ⊢
    rw [List.length_append]
    exact bitLength_apply_lt finite enough hn
      (ihl (fun operand hmem => fits operand (List.mem_append_left _ hmem)) ha)
      (ihr (fun operand hmem => fits operand (List.mem_append_right _ hmem)) hb)

/-- The value is the value of the tree, and keeps the bound that the operands of the tree
set. -/
def Tree.Bounds (limits : Limits) (store : Store) (unit : Nat) (tree : Tree) (value : Placed Int) :
    Prop :=
  tree.value limits store = .ok value ∧
    bitLength value.what ≤ (LineShape.operands tree.postorder).length * (unit + 1) - 1

/-- On a stack that holds the values of trees, each value keeps the bound of its own tree. -/
theorem Stack.Holds.bounds {limits : Limits} {store : Store} {unit : Nat}
    (finite : limits.maxResultBits.toNat < UInt64.size - 1)
    (enough : max 1 limits.maxResultBits.toNat ≤ unit) {trees : List Tree} {stack : Stack}
    (h : Holds limits store trees stack)
    (fits : ∀ operand ∈ LineShape.operands (Tree.written trees), ∀ n,
      Operand.resolve store operand = .ok n → bitLength n ≤ unit) :
    List.Forall₂ (Tree.Bounds limits store unit) trees stack := by
  induction h with
  | nil => exact .nil
  | @cons tree value older rest hvalue _ ih =>
    rw [Tree.written, Conversion.operands_append] at fits
    have hlt := Tree.bitLength_value_lt finite enough
      (fun operand hmem => fits operand (List.mem_append_right _ hmem)) hvalue
    have holder := ih fun operand hmem => fits operand (List.mem_append_left _ hmem)
    exact .cons ⟨hvalue, Nat.le_sub_one_of_lt hlt⟩ holder

/-! ## The law -/

/-- Where the limit of bits is not the largest there is: whatever tokens are worked off, at any
time the stack holds the values of trees that the tokens so far are made of, and a value that
was computed from `k` operands has at most `k * (unit + 1) - 1` bits. So has the result. -/
theorem every_value_is_bounded_by_its_operands (limits : Limits) (store : Store)
    (tokens : List Token) (finite : limits.maxResultBits.toNat < UInt64.size - 1) :
    let unit := sizeUnit limits store tokens
    (∀ before later stack, tokens = before ++ later →
      before.foldlM (Stack.step limits store) [] = .ok stack →
        ∃ trees, Tree.written trees = before ∧
          List.Forall₂ (Tree.Bounds limits store unit) trees stack) ∧
    ∀ n, evaluate limits store tokens = .ok n →
      bitLength n ≤ (LineShape.operands tokens).length * (unit + 1) - 1 := by
  intro unit
  have enough : max 1 limits.maxResultBits.toNat ≤ unit :=
    max_le_max_left 1 (Nat.le_max_left _ _)
  have fits : ∀ operand ∈ LineShape.operands tokens, ∀ n,
      Operand.resolve store operand = .ok n → bitLength n ≤ unit := by
    intro operand hmem n hn
    have hbits := bitLength_le_operandBits hmem hn
    exact Nat.le_trans hbits (Nat.le_trans (Nat.le_max_right _ _) (Nat.le_max_right _ _))
  refine ⟨?_, ?_⟩
  · rintro before later stack rfl hfold
    obtain ⟨trees, rfl, hholds⟩ := Stack.exists_trees_of_foldlM hfold
    refine ⟨trees, rfl, hholds.bounds finite enough fun operand hmem => fits operand ?_⟩
    rw [Conversion.operands_append]
    exact List.mem_append_left _ hmem
  · intro n hn
    obtain ⟨tree, value, rfl, hvalue, rfl⟩ := exists_tree_of_evaluate hn
    exact Nat.le_sub_one_of_lt (Tree.bitLength_value_lt finite enough fits hvalue)

/-- With powers of at most 20 bits and `x` bound to 9, the result of `2^10*x` has 14 bits, of
the 62 that three operands allow. -/
theorem a_product_with_a_power_is_bounded :
    let limits : Limits := { maxResultBits := 20 }
    let store := Store.assign {} ['x'] 9
    let tokens := Tree.postorder (.node ⟨.mul, 4, 5⟩
      (.node ⟨.pow, 1, 2⟩ (.leaf ⟨['2'], 0, 1⟩) (.leaf ⟨['1', '0'], 2, 4⟩)) (.leaf ⟨['x'], 5, 6⟩))
    limits.maxResultBits.toNat < UInt64.size - 1 ∧ evaluate limits store tokens = .ok 9216 ∧
      bitLength 9216 ≤ 3 * (20 + 1) - 1 := by
  intro limits store tokens
  have hvalue : evaluate limits store tokens = .ok 9216 := by decide
  exact ⟨by decide, hvalue,
    (every_value_is_bounded_by_its_operands limits store tokens (by decide)).2 9216 hvalue⟩

end Abacus
