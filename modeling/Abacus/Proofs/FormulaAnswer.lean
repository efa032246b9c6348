-- How an expression is answered: it passes every check of its line, and what
-- the calculator says is the value of its tree, or the first failure in it.
import Abacus.Proofs.FormulaOrder
import Abacus.Proofs.LineShapes
import Abacus.Session

namespace Abacus

/-! ## No doubled operator -/

/-- No two `c` stand side by side in the text. -/
def Text.Undoubled (c : Char) (t : Text) : Prop := t.IsChain fun a b => ¬(a = c ∧ b = c)

theorem Text.firstPair_eq_none_iff {c : Char} {start : Nat} {t : Text} :
    t.firstPair c start = none ↔ t.Undoubled c := by
  unfold Undoubled
  induction t generalizing start with
  | nil => simp [firstPair]
  | cons d rest ih =>
    rcases rest with _ | ⟨b, rest⟩
    · simp [firstPair]
    · unfold firstPair
      simp only [List.isChain_cons_cons, List.head?_cons, Option.some.injEq]
      by_cases h : d = c ∧ b = c
      · simp [h]
      · rw [if_neg h, ih]
        simp [h]

/-- Nothing is doubled that does not occur. -/
theorem Text.undoubled_of_not_mem {c : Char} {t : Text} (h : c ∉ t) : t.Undoubled c := by
  apply List.Pairwise.isChain
  rw [List.pairwise_iff_forall_sublist]
  rintro a b hab ⟨rfl, _⟩
  exact h (hab.subset (by simp))

theorem Neighbours.not_doubled {a b c : Char} (h : Neighbours a b) (hc : c = '*' ∨ c = '/') :
    ¬(a = c ∧ b = c) := by
  rintro ⟨ha, hb⟩
  rw [ha, hb] at h
  have halnum : c.isAlphanum = false := by rcases hc with rfl | rfl <;> decide
  have hcloses : ¬Closes c := by
    rintro (h | rfl)
    · rw [halnum] at h
      cases h
    · rcases hc with h | h <;> cases h
  have hopens : ¬Opens c := by
    rintro (h | rfl | h)
    · rw [halnum] at h
      cases h
    · rcases hc with h | h <;> cases h
    · rcases hc with rfl | rfl <;> exact absurd h (by decide)
  cases h with
  | run hc _ =>
    rw [halnum] at hc
    cases hc
  | after h _ => exact hcloses h
  | before _ h => exact hopens h

theorem Session.refuseDoubled_formula {line : Text} {e : Tree} (h : Formula.Line line e) :
    Session.refuseDoubled line = .ok () := by
  have hnone : ∀ c : Char, c = '*' ∨ c = '/' → line.firstPair c 0 = none := fun c hc =>
    Text.firstPair_eq_none_iff.mpr (h.isChain_neighbours.imp fun _ _ hab => hab.not_doubled hc)
  unfold Session.refuseDoubled
  rw [hnone '*' (Or.inl rfl), hnone '/' (Or.inr rfl)]
  rfl

/-! ## The shape -/

namespace LineShape

theorem isSingle_of_isWord {t : Text} (h : Operand.isWord t = true) : isSingle t = true := by
  unfold isSingle
  split
  · exact absurd (Operand.isAlphanum_of_isWord h '-' List.mem_cons_self) (by decide)
  · exact h

theorem ne_equals_of_plainOperands {line : Text} (h : PlainOperands line) :
    ∀ c ∈ line, c ≠ '=' := by
  rintro c hc rfl
  rw [← Lexeme.flatMap_text_ofLine line] at hc
  obtain ⟨l, hl, hc⟩ := List.mem_flatMap.mp hc
  cases l with
  | operand run => exact absurd (Operand.isAlphanum_of_isPlain (h.1 run hl) '=' hc) (by decide)
  | operator op => rcases op with (_ | _ | _ | _ | _) | _ | _ | _ <;> exact absurd hc (by decide)

/-- With plain operands, a line that has an operator is not a single operand. -/
theorem not_isSingle {line : Text} (h : PlainOperands line) (operator : line.any isOperator = true) :
    ¬isSingle line = true := by
  intro single
  rcases isSingle_cases single with ⟨body, rfl, hbody, hplain⟩ | hword
  · have hfree : ∀ c ∈ body, Op.ofChar? c = none :=
      fun c hc => Op.ofChar?_of_isAlphanum (Operand.isAlphanum_of_isWord hbody c hc)
    have hmem : .operand body ∈ Lexeme.ofLine ('-' :: body) := by
      rw [Lexeme.ofLine_cons_operator rfl,
        Lexeme.ofLine_of_no_operator (Operand.ne_nil_of_isWord hbody) hfree]
      exact List.mem_cons_of_mem _ List.mem_cons_self
    rw [h.1 body hmem] at hplain
    cases hplain
  · obtain ⟨c, hc, hop⟩ := List.any_eq_true.mp operator
    rw [isOperator_of_isAlphanum (Operand.isAlphanum_of_isWord hword c hc)] at hop
    cases hop

/-- A line is called an expression exactly when it has an operator, and plain operands. -/
theorem ofLine_eq_expression_iff {line : Text} :
    ofLine line = .ok .expression ↔ line.any isOperator = true ∧ PlainOperands line := by
  refine ⟨of_expression, ?_⟩
  rintro ⟨hany, hplain⟩
  have hfind : (operands (Token.ofLine line)).find? (fun t => !Operand.isPlain t.what) = none := by
    rw [List.find?_eq_none]
    intro operand hmem
    have := hplain.1 _ (exists_mem_operands_iff.mp ⟨operand, hmem, rfl⟩)
    simp [this]
  obtain ⟨run, hrun⟩ := hplain.2
  obtain ⟨operand, hmem, _⟩ := exists_mem_operands_iff.mpr hrun
  have hne : (operands (Token.ofLine line)).isEmpty = false := by
    rw [List.isEmpty_eq_false_iff]
    exact List.ne_nil_of_mem hmem
  rw [ofLine_of_no_equals (ne_equals_of_plainOperands hplain)]
  unfold ofFormula
  simp [not_isSingle hplain hany, hfind, hne, hany]

/-- An expression without an operator is a single operand. -/
theorem ofLine_operand {line : Text} {e : Tree} (h : Formula.Line line e)
    (none : ∀ c ∈ line, isOperator c = false) : ofLine line = .ok .value := by
  have hword := Operand.isWord_of_isPlain h.ne_nil (h.eq_leaf_of_no_operator none).1
  have hplain : PlainOperands line := ⟨h.isPlain_of_mem_ofLine, h.exists_operand⟩
  rw [ofLine_of_no_equals (ne_equals_of_plainOperands hplain)]
  unfold ofFormula
  rw [if_pos (isSingle_of_isWord hword)]

/-- All else that is an expression has the shape of one. -/
theorem ofLine_formula {line : Text} {e : Tree} (h : Formula.Line line e)
    (some : ¬∀ c ∈ line, isOperator c = false) : ofLine line = .ok .expression := by
  have hany : line.any isOperator = true := by
    rw [List.any_eq_true]
    by_contra hno
    exact some fun c hc => Bool.not_eq_true _ ▸ fun hop => hno ⟨c, hc, hop⟩
  exact ofLine_eq_expression_iff.mpr ⟨hany, h.isPlain_of_mem_ofLine, h.exists_operand⟩

end LineShape

/-! ## The answer -/

namespace Tree

theorem postorder_ne_nil (e : Tree) : e.postorder ≠ [] := by
  cases e <;> simp [postorder]

/-- The answer that a tree gives: its value, or the first failure in it. -/
def answer (limits : Limits) (store : Store) (e : Tree) : Outcome :=
  match e.value limits store with
  | .ok n => .value n.what
  | .error fault => .failed fault

end Tree

theorem Session.perform_formula (s : Session) {line : Text} {e : Tree} (h : Formula.Line line e) :
    s.perform line = (e.value s.limits s.store).map fun n => (some n.what, s.store) := by
  unfold perform
  rw [refuseDoubled_formula h]
  by_cases hop : ∀ c ∈ line, isOperator c = false
  · rw [LineShape.ofLine_operand h hop, (h.eq_leaf_of_no_operator hop).2]
    change (Operand.resolve s.store ⟨line, LineShape.whole line⟩ >>= _) = _
    unfold Tree.value LineShape.whole
    rw [Nat.zero_add]
    cases Operand.resolve s.store ⟨line, ⟨0, line.byteLength⟩⟩ <;> rfl
  · rw [LineShape.ofLine_formula h hop]
    have hne : e.postorder.isEmpty = false := List.isEmpty_eq_false_iff.mpr e.postorder_ne_nil
    have hvalue : s.valueOf line = (e.value s.limits s.store).map fun n => some n.what := by
      unfold valueOf
      rw [Postfix.ofLine_formula h]
      change (if e.postorder.isEmpty = true then _ else _) = _
      rw [hne, Tree.evaluate_postorder]
      cases e.value s.limits s.store <;> rfl
    change (s.valueOf line >>= _) = _
    rw [hvalue]
    cases e.value s.limits s.store <;> rfl

/-- An expression is answered with the value of its tree or the first failure in it, and the
session stays as it was. -/
theorem Session.execute_formula (s : Session) {line : Text} {e : Tree} (h : Formula.Line line e) :
    s.execute line = (e.answer s.limits s.store, s) := by
  unfold execute Tree.answer
  rw [s.perform_formula h]
  cases e.value s.limits s.store <;> rfl

end Abacus
