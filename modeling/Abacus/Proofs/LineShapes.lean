-- The shapes of lines: what a line with a given shape looks like, and where
-- its first equals sign divides it.
import Abacus.LineShape
import Abacus.Proofs.Lexemes
import Mathlib.Data.List.TakeWhile

namespace Abacus.LineShape

/-! ## Operands of a line -/

theorem mem_operands {tokens : List Token} {operand : Placed Text} :
    operand ∈ operands tokens ↔ ⟨.operand operand.what, operand.span⟩ ∈ tokens := by
  unfold operands
  rw [List.mem_filterMap]
  constructor
  · rintro ⟨⟨what, span⟩, ht, heq⟩
    rcases what with text | op <;> cases heq
    exact ht
  · intro h
    exact ⟨_, h, rfl⟩

/-- An operand stands among the tokens of a line exactly when it is read there. -/
theorem exists_mem_operands_iff {line run : Text} :
    (∃ operand ∈ operands (Token.ofLine line), operand.what = run) ↔
      Lexeme.operand run ∈ Lexeme.ofLine line := by
  rw [← Token.map_what_ofLine, List.mem_map]
  constructor
  · rintro ⟨operand, hmem, rfl⟩
    exact ⟨_, mem_operands.mp hmem, rfl⟩
  · rintro ⟨⟨what, span⟩, hmem, rfl⟩
    exact ⟨⟨run, span⟩, mem_operands.mpr hmem, rfl⟩

/-! ## The equals sign -/

theorem ofLine_of_no_equals {line : Text} (h : ∀ c ∈ line, c ≠ '=') :
    ofLine line = ofFormula line := by
  have hdrop : line.dropWhile (fun c => decide (c ≠ '=')) = [] := by
    rw [List.dropWhile_eq_nil_iff]
    intro c hc
    exact decide_eq_true (h c hc)
  unfold ofLine
  rw [hdrop]

theorem ofLine_of_equals {left right : Text} (h : ∀ c ∈ left, c ≠ '=') :
    ofLine (left ++ '=' :: right) = ofEquation left right := by
  have hleft : ∀ c ∈ left, decide (c ≠ '=') = true := fun c hc => decide_eq_true (h c hc)
  unfold ofLine
  rw [List.dropWhile_append_of_pos hleft, List.takeWhile_append_of_pos hleft]
  simp

/-- A line has no equals sign, or its first one divides it. -/
theorem ofLine_cases (line : Text) :
    ((∀ c ∈ line, c ≠ '=') ∧ ofLine line = ofFormula line) ∨
      ∃ left right, line = left ++ '=' :: right ∧ (∀ c ∈ left, c ≠ '=') ∧
        ofLine line = ofEquation left right := by
  by_cases h : '=' ∈ line
  · obtain ⟨left, right, rfl, hnot⟩ := List.eq_append_cons_of_mem h
    have hleft : ∀ c ∈ left, c ≠ '=' := fun c hc heq => hnot (heq ▸ hc)
    exact Or.inr ⟨left, right, rfl, hleft, ofLine_of_equals hleft⟩
  · have hno : ∀ c ∈ line, c ≠ '=' := fun c hc heq => h (heq ▸ hc)
    exact Or.inl ⟨hno, ofLine_of_no_equals hno⟩

/-! ## What a shape says of its line -/

theorem isSingle_cases {line : Text} (h : isSingle line = true) :
    (∃ body, line = '-' :: body ∧ Operand.isWord body = true ∧ Operand.isPlain body = false) ∨
      Operand.isWord line = true := by
  unfold isSingle at h
  split at h
  · rename_i body
    rw [Bool.and_eq_true, Bool.not_eq_true'] at h
    exact Or.inl ⟨body, rfl, h⟩
  · exact Or.inr h

/-- Every operand of the line is a name or a numeral, and there is one at least. -/
def PlainOperands (line : Text) : Prop :=
  (∀ run, Lexeme.operand run ∈ Lexeme.ofLine line → Operand.isPlain run = true) ∧
    ∃ run, Lexeme.operand run ∈ Lexeme.ofLine line

theorem ofFormula_eq_ok {line : Text} {shape : LineShape} (h : ofFormula line = .ok shape) :
    (shape = .value ∧
      (isSingle line = true ∨ line.any isOperator = false ∧ PlainOperands line)) ∨
      (shape = .expression ∧ line.any isOperator = true ∧ PlainOperands line) := by
  unfold ofFormula at h
  split at h
  · rename_i hsingle
    cases h
    exact Or.inl ⟨rfl, Or.inl hsingle⟩
  · dsimp only at h
    split at h
    · cases h
    · rename_i hfind
      split at h
      · cases h
      · rename_i hne
        have hplain : PlainOperands line := by
          constructor
          · intro run hrun
            obtain ⟨operand, hmem, rfl⟩ := exists_mem_operands_iff.mpr hrun
            simpa using List.find?_eq_none.mp hfind operand hmem
          · rw [List.isEmpty_iff] at hne
            obtain ⟨operand, hmem⟩ := List.exists_mem_of_ne_nil _ hne
            exact ⟨operand.what, exists_mem_operands_iff.mp ⟨operand, hmem, rfl⟩⟩
        split at h
        · rename_i hany
          cases h
          exact Or.inr ⟨rfl, hany, hplain⟩
        · rename_i hany
          rw [Bool.not_eq_true] at hany
          cases h
          exact Or.inl ⟨rfl, Or.inr ⟨hany, hplain⟩⟩

/-- The right side of an equation, in its place. -/
def rightSide (left right : Text) : Placed Text :=
  ⟨right, left.byteLength + 1, left.byteLength + 1 + right.byteLength⟩

theorem ofEquation_eq_ok {left right : Text} {shape : LineShape}
    (h : ofEquation left right = .ok shape) :
    Operand.isName left = true ∧
      ((shape = .assignment left (rightSide left right) ∧ Decimal.isLiteral right = true) ∨
        (shape = .reference left (rightSide left right) ∧ Operand.isName right = true)) := by
  unfold ofEquation at h
  dsimp only at h
  split at h
  · cases h
  · rename_i hleft
    refine ⟨by simpa using hleft, ?_⟩
    split at h
    · rename_i hright
      cases h
      exact Or.inl ⟨rfl, hright⟩
    · split at h
      · rename_i hright
        cases h
        exact Or.inr ⟨rfl, hright⟩
      · split at h <;> cases h

/-- An assignment gives a literal to a name. -/
theorem of_assignment {line name : Text} {literal : Placed Text}
    (h : ofLine line = .ok (.assignment name literal)) :
    line = name ++ '=' :: literal.what ∧ Operand.isName name = true ∧
      Decimal.isLiteral literal.what = true := by
  rcases ofLine_cases line with ⟨_, hof⟩ | ⟨left, right, rfl, _, hof⟩ <;> rw [hof] at h
  · rcases ofFormula_eq_ok h with ⟨h, _⟩ | ⟨h, _⟩ <;> cases h
  · obtain ⟨hleft, ⟨h, hright⟩ | ⟨h, _⟩⟩ := ofEquation_eq_ok h <;> cases h
    exact ⟨rfl, hleft, hright⟩

/-- A reference gives the value of a name to a name. -/
theorem of_reference {line name : Text} {source : Placed Text}
    (h : ofLine line = .ok (.reference name source)) :
    line = name ++ '=' :: source.what ∧ Operand.isName name = true ∧
      Operand.isName source.what = true := by
  rcases ofLine_cases line with ⟨_, hof⟩ | ⟨left, right, rfl, _, hof⟩ <;> rw [hof] at h
  · rcases ofFormula_eq_ok h with ⟨h, _⟩ | ⟨h, _⟩ <;> cases h
  · obtain ⟨hleft, ⟨h, _⟩ | ⟨h, hright⟩⟩ := ofEquation_eq_ok h <;> cases h
    exact ⟨rfl, hleft, hright⟩

/-- An expression has an operator, and plain operands. -/
theorem of_expression {line : Text} (h : ofLine line = .ok .expression) :
    line.any isOperator = true ∧ PlainOperands line := by
  rcases ofLine_cases line with ⟨_, hof⟩ | ⟨left, right, rfl, _, hof⟩ <;> rw [hof] at h
  · rcases ofFormula_eq_ok h with ⟨h, _⟩ | ⟨_, h⟩
    · cases h
    · exact h
  · obtain ⟨_, ⟨h, _⟩ | ⟨h, _⟩⟩ := ofEquation_eq_ok h <;> cases h

/-- The line of a value is one operand. -/
theorem of_value {line : Text} (h : ofLine line = .ok .value) :
    isSingle line = true ∨ (line ≠ [] ∧ Operand.isPlain line = true) := by
  rcases ofLine_cases line with ⟨_, hof⟩ | ⟨left, right, rfl, _, hof⟩ <;> rw [hof] at h
  · rcases ofFormula_eq_ok h with ⟨_, h | ⟨hany, hplain, run, hrun⟩⟩ | ⟨h, _⟩
    · exact Or.inl h
    · have hne : line ≠ [] := by
        rintro rfl
        cases hrun
      have hno : ∀ c ∈ line, Op.ofChar? c = none := by
        simpa [isOperator] using hany
      rw [Lexeme.ofLine_of_no_operator hne hno] at hplain
      exact Or.inr ⟨hne, hplain line List.mem_cons_self⟩
    · cases h
  · obtain ⟨_, ⟨h, _⟩ | ⟨h, _⟩⟩ := ofEquation_eq_ok h <;> cases h

end Abacus.LineShape
