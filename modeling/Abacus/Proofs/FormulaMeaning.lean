-- What an expression means: its integer, or the kind of the first failure in
-- it, said of the tree alone. The calculator answers with the meaning.
import Abacus.Proofs.FormulaAnswer
import Abacus.Proofs.PowerLimits
import Mathlib.Algebra.Group.Int.Defs
import Mathlib.Data.Nat.Size

namespace Abacus

/-! ## The meaning -/

def BinOp.meaning (limits : Limits) : BinOp → Int → Int → Except FaultKind Int
  | add, a, b => .ok (a + b)
  | sub, a, b => .ok (a - b)
  | mul, a, b => .ok (a * b)
  | div, a, b => if b = 0 then .error .divisionByZero else .ok (a.tdiv b)
  | pow, a, b => if limits.Allow a b then .ok (a ^ b.toNat) else .error .arithmeticRange

/-- A numeral means its number and a name what the store says. The left operand comes before
the right one, and both before the operator. -/
def Tree.meaning (limits : Limits) (store : Store) : Tree → Except FaultKind Int
  | leaf operand =>
    if operand.what.all Char.isDigit then .ok (Decimal.value operand.what)
    else
      match store.get? operand.what with
      | some n => .ok n
      | none => .error .unknownVariable
  | neg _ body => do
    let n ← body.meaning limits store
    .ok (-n)
  | node op left right => do
    let a ← left.meaning limits store
    let b ← right.meaning limits store
    op.what.meaning limits a b

/-- What any tree comes to, with whatever texts for operands: its integer, or the kind of the
first failure in it. A literal denotes itself, and all else is looked up. -/
def Tree.result (limits : Limits) (store : Store) : Tree → Except FaultKind Int
  | leaf operand =>
    match (Decimal.read? operand.what).or (store.get? operand.what) with
    | some n => .ok n
    | none => .error .unknownVariable
  | neg _ body => do
    let n ← body.result limits store
    .ok (-n)
  | node op left right => do
    let a ← left.result limits store
    let b ← right.result limits store
    op.what.meaning limits a b

/-! ## Operators -/

/-- A power that the limits do not allow is out of range, and all else is exact. -/
theorem BinOp.mapError_apply (limits : Limits) (op : BinOp) (place : Span)
    (left right : Placed Int) :
    (op.apply limits place left right).mapError Fault.kind =
      op.meaning limits left.what right.what := by
  cases op with
  | add | sub | mul => rfl
  | div =>
    unfold apply quotient meaning
    by_cases h : right.what = 0
    · simp [h, Except.mapError, Fault.kind, Cause.kind]
    · simp [h, Except.mapError]
  | pow =>
    change (power limits place left right).mapError Fault.kind =
      if limits.Allow left.what right.what then _ else _
    by_cases hallow : limits.Allow left.what right.what
    · rw [power_of_allow hallow, if_pos hallow]
      rfl
    · obtain ⟨fault, hfault, hkind⟩ := @power_of_not_allow limits place left right hallow
      rw [hfault, if_neg hallow, ← hkind]
      rfl

/-! ## Trees -/

theorem Decimal.read?_of_isPlain {t : Text} (nonempty : t ≠ []) (plain : Operand.isPlain t = true) :
    read? t = if t.all Char.isDigit then some (value t : Int) else none := by
  have hne : t.isEmpty = false := by simpa using nonempty
  rw [read?_of_isWord (Operand.isWord_of_isPlain nonempty plain), isNumeral, hne, Bool.not_false,
    Bool.true_and]

namespace Tree

theorem mapError_resolve (store : Store) (operand : Placed Text) (limits : Limits) :
    (Operand.resolve store operand).mapError Fault.kind =
      (leaf operand).result limits store := by
  unfold Operand.resolve result
  rcases Decimal.read? operand.what with _ | n
  · rcases store.get? operand.what with _ | n <;> rfl
  · rfl

/-- The value of a tree, without its places, is what the tree comes to. -/
theorem mapError_value (limits : Limits) (store : Store) (t : Tree) :
    ((t.value limits store).map (·.what)).mapError Fault.kind = t.result limits store := by
  induction t with
  | leaf operand =>
    rw [← mapError_resolve, value]
    cases Operand.resolve store operand <;> rfl
  | neg place body ih =>
    rw [value, result, ← ih]
    cases body.value limits store <;> rfl
  | node op left right ihl ihr =>
    rw [value, result, ← ihl, ← ihr]
    rcases left.value limits store with f | a
    · rfl
    · rcases right.value limits store with f | b
      · rfl
      · change _ = op.what.meaning limits a.what b.what
        rw [← BinOp.mapError_apply limits op.what op.span a b]
        change ((op.what.apply limits op.span a b >>= _).map _).mapError _ = _
        cases op.what.apply limits op.span a b <;> rfl

theorem result_leaf {operand : Placed Text} (nonempty : operand.what ≠ [])
    (plain : Operand.isPlain operand.what = true) (limits : Limits) (store : Store) :
    (leaf operand).result limits store = (leaf operand).meaning limits store := by
  unfold result meaning
  rw [Decimal.read?_of_isPlain nonempty plain]
  by_cases h : operand.what.all Char.isDigit = true
  · simp only [if_pos h]
    rfl
  · simp only [if_neg h]
    cases store.get? operand.what <;> rfl

end Tree

/-- An expression comes to its meaning, as each of its operands is a name or a numeral. -/
theorem Formula.result_eq_meaning {level start : Nat} {t : Text} {e : Tree}
    (h : Formula level start t e) (limits : Limits) (store : Store) :
    e.result limits store = e.meaning limits store := by
  induction h with
  | operand nonempty plain => exact Tree.result_leaf nonempty plain limits store
  | group _ ih | plus _ ih | tighter _ ih => exact ih
  | minus _ ih =>
    unfold Tree.result Tree.meaning
    rw [ih]
  | binary _ _ ihl ihr =>
    unfold Tree.result Tree.meaning
    rw [ihl, ihr]

/-- The value of an expression, without its places, is its meaning. -/
theorem Formula.mapError_value {level start : Nat} {t : Text} {e : Tree}
    (h : Formula level start t e) (limits : Limits) (store : Store) :
    ((e.value limits store).map (·.what)).mapError Fault.kind = e.meaning limits store := by
  rw [Tree.mapError_value, h.result_eq_meaning]

/-- The ways in which the evaluation of an expression can fail. -/
def FaultKind.OfEvaluation (kind : FaultKind) : Prop :=
  kind = .unknownVariable ∨ kind = .divisionByZero ∨ kind = .arithmeticRange

theorem BinOp.ofEvaluation_of_meaning {limits : Limits} {op : BinOp} {a b : Int} {kind : FaultKind}
    (h : op.meaning limits a b = .error kind) : kind.OfEvaluation := by
  unfold meaning at h
  split at h
  · cases h
  · cases h
  · cases h
  · split at h <;> cases h
    exact Or.inr (Or.inl rfl)
  · split at h <;> cases h
    exact Or.inr (Or.inr rfl)

theorem Tree.ofEvaluation_of_meaning {limits : Limits} {store : Store} {e : Tree}
    {kind : FaultKind} (h : e.meaning limits store = .error kind) : kind.OfEvaluation := by
  induction e generalizing kind with
  | leaf operand =>
    unfold meaning at h
    split at h
    · cases h
    · split at h <;> cases h
      exact Or.inl rfl
  | neg place body ih =>
    unfold meaning at h
    rcases hb : body.meaning limits store with k | n
    · rw [hb] at h
      cases h
      exact ih hb
    · rw [hb] at h
      cases h
  | node op left right ihl ihr =>
    unfold meaning at h
    rcases ha : left.meaning limits store with k | a
    · rw [ha] at h
      cases h
      exact ihl ha
    · rcases hb : right.meaning limits store with k | b
      · rw [ha, hb] at h
        cases h
        exact ihr hb
      · rw [ha, hb] at h
        exact BinOp.ofEvaluation_of_meaning h

/-! ## The answer -/

/-- The outcome without its words and places: a value, silence, or a kind of failure. -/
def Outcome.gist : Outcome → Except FaultKind (Option Int)
  | value n => .ok (some n)
  | silent => .ok none
  | failed fault => .error fault.kind

theorem Session.gist_execute_formula (s : Session) {line : Text} {e : Tree}
    (h : Formula.Line line e) :
    (s.execute line).1.gist = (e.meaning s.limits s.store).map some := by
  rw [s.execute_formula h, ← Formula.mapError_value h s.limits s.store]
  unfold Tree.answer
  cases e.value s.limits s.store <;> rfl

theorem Session.execute_formula_ne_silent (s : Session) {line : Text} {e : Tree}
    (h : Formula.Line line e) : (s.execute line).1 ≠ .silent := by
  intro hsilent
  have hgist := s.gist_execute_formula h
  rw [hsilent] at hgist
  rcases hm : e.meaning s.limits s.store with k | n <;> rw [hm] at hgist <;> cases hgist

/-- Every expression is answered with its meaning, in every session: with the value of its
tree, or with the first failure in it. It is never answered in silence or called malformed. -/
theorem an_expression_is_answered_with_its_meaning (s : Session) (line : Text) (e : Tree)
    (h : Formula.Line line e) :
    (∀ v, e.meaning s.limits s.store = .ok v → s.execute line = (.value v, s)) ∧
    (∀ kind, e.meaning s.limits s.store = .error kind →
      (kind = .unknownVariable ∨ kind = .divisionByZero ∨ kind = .arithmeticRange) ∧
        ∃ fault, fault.kind = kind ∧ s.execute line = (.failed fault, s)) ∧
    (s.execute line).1 ≠ .silent := by
  have hgist := s.gist_execute_formula h
  refine ⟨?_, ?_, s.execute_formula_ne_silent h⟩ <;> rw [s.execute_formula h] at hgist ⊢
  · intro v hv
    rw [hv] at hgist
    rcases ha : e.answer s.limits s.store with n | _ | fault <;> rw [ha] at hgist <;> cases hgist
    rfl
  · intro kind hkind
    refine ⟨Tree.ofEvaluation_of_meaning hkind, ?_⟩
    rw [hkind] at hgist
    rcases ha : e.answer s.limits s.store with n | _ | fault <;> rw [ha] at hgist <;> cases hgist
    exact ⟨fault, rfl, rfl⟩

/-- `-x^2-7/2`, where `x` is 5: the minus belongs to the `x`, and 7 / 2 is cut off. -/
theorem a_minus_binds_before_a_power :
    ∃ e, Formula.Line "-x^2-7/2".toList e ∧
      e.meaning {} (Store.assign {} ['x'] 5) = .ok 22 ∧
      (Session.execute { store := Store.assign {} ['x'] 5 } "-x^2-7/2".toList).1 = .value 22 := by
  have hx : Formula 5 1 ['x'] _ := .operand (by decide) (by decide)
  have htwo : Formula 5 3 ['2'] _ := .operand (by decide) (by decide)
  have hseven : Formula 5 5 ['7'] _ := .operand (by decide) (by decide)
  have hcut : Formula 5 7 ['2'] _ := .operand (by decide) (by decide)
  have hnegated : Formula 4 0 "-x".toList _ := .minus hx.tighter
  have hpower : Formula 1 0 "-x^2".toList _ :=
    Formula.joined .pow hnegated.tighter htwo.tighter (by decide)
  have hquotient : Formula 2 5 "7/2".toList _ :=
    Formula.joined .div (hseven.loosen (by decide)) (hcut.loosen (by decide)) (by decide)
  obtain ⟨e, hline, hmeaning⟩ : ∃ e, Formula.Line "-x^2-7/2".toList e ∧
      e.meaning {} (Store.assign {} ['x'] 5) = .ok 22 :=
    ⟨_, Formula.joined .sub hpower hquotient (by decide), by decide⟩
  refine ⟨e, hline, hmeaning, ?_⟩
  rw [(an_expression_is_answered_with_its_meaning _ _ e hline).1 22 hmeaning]

end Abacus
