-- The order of an expression: the conversion writes an expression out as its
-- tree says, each operator after its operands. It does so wherever the
-- expression stands, as long as nothing that waits there binds too tightly.
import Abacus.Proofs.ConversionMoves
import Abacus.Proofs.FormulaText

namespace Abacus

namespace Conversion

/-- The newest operator that waits does not take an operand away from an expression of the
level. Signs and atoms, from level 4 on, can stand behind any operator. -/
def Admits (level : Nat) (c : Conversion) : Prop :=
  4 ≤ level ∨ ∀ op ∈ c.pending.head?, op.what.rank < level

/-- The tokens bring the conversion from `c` to a state that has read an expression with the
tree `e`: what still waits of it binds at least as tightly as the level, and the output will
go on with the tree once that is put out. -/
def Reads (level : Nat) (c : Conversion) (tokens : List Token) (e : Tree) : Prop :=
  ∃ ops out, tokens.foldlM step c = .ok ⟨out, ops ++ c.pending, false⟩ ∧
    (∀ op ∈ ops, level ≤ op.what.rank) ∧ emit ops out = e.postorder.reverse ++ c.output

variable {level start : Nat} {c : Conversion}

theorem Admits.succ (h : Admits level c) : Admits (level + 1) c := by
  rcases h with h | h
  · exact Or.inl (Nat.le_succ_of_le h)
  · exact Or.inr fun op hop => Nat.lt_succ_of_lt (h op hop)

theorem reads_operand {t : Text} (nonempty : t ≠ []) (plain : Operand.isPlain t = true) :
    Reads 5 c (Token.ofPiece start t) (.leaf ⟨t, start, start + t.byteLength⟩) := by
  refine ⟨[], ⟨.operand t, start, start + t.byteLength⟩ :: c.output, ?_, ?_, rfl⟩
  · rw [Token.ofPiece_of_no_operator nonempty fun d hd =>
      Op.ofChar?_of_isAlphanum (Operand.isAlphanum_of_isPlain plain d hd)]
    rfl
  · intro op hop
    cases hop

/-- A group is put out whole: nothing of it waits behind its closing parenthesis. -/
theorem reads_group {t : Text} {e : Tree}
    (ih : ∀ c : Conversion, c.expectsOperand = true → Admits 1 c →
      Reads 1 c (Token.ofPiece (start + 1) t) e) :
    Reads 5 c (Token.ofPiece start ('(' :: t ++ [')'])) e := by
  let inside : Conversion := ⟨c.output, ⟨.lparen, Span.single start⟩ :: c.pending, true⟩
  obtain ⟨ops, out, hfold, hrank, hemit⟩ := ih inside rfl (Or.inr fun op hop => by
    rw [List.head?_cons, Option.mem_some_iff] at hop
    subst hop
    exact Nat.one_pos)
  refine ⟨[], emit ops out, ?_, by simp, hemit⟩
  have hclosed : ∀ op ∈ ops, op.what ≠ .lparen := by
    intro op hop heq
    have := hrank op hop
    rw [heq] at this
    exact absurd this (by decide)
  have hopen : Op.ofChar? '(' = some .lparen := rfl
  have hclose : Op.ofChar? ')' = some .rparen := rfl
  rw [List.cons_append, Token.ofPiece_cons_operator hopen, Token.ofPiece_append_operator hclose,
    foldlM_cons_of_move (.opening _), foldlM_append_of_ok hfold,
    foldlM_cons_of_move (.closing _ _ rfl hclosed)]
  rfl

theorem reads_plus {t : Text} {e : Tree} (expects : c.expectsOperand = true)
    (ih : Reads 4 c (Token.ofPiece (start + 1) t) e) :
    Reads 4 c (Token.ofPiece start ('+' :: t)) e := by
  obtain ⟨ops, out, hfold, hrank, hemit⟩ := ih
  refine ⟨ops, out, ?_, hrank, hemit⟩
  have hplus : Op.ofChar? '+' = some (.binary .add) := rfl
  rw [Token.ofPiece_cons_operator hplus, foldlM_cons_of_move (.plus _ expects)]
  exact hfold

/-- The minus waits below what waits of its operand, so it is put out after it. -/
theorem reads_minus {t : Text} {e : Tree} (expects : c.expectsOperand = true)
    (ih : ∀ c : Conversion, c.expectsOperand = true → Admits 4 c →
      Reads 4 c (Token.ofPiece (start + 1) t) e) :
    Reads 4 c (Token.ofPiece start ('-' :: t)) (.neg (Span.single start) e) := by
  let behind : Conversion := ⟨c.output, ⟨.neg, Span.single start⟩ :: c.pending, true⟩
  obtain ⟨ops, out, hfold, hrank, hemit⟩ := ih behind rfl (Or.inl (Nat.le_refl 4))
  refine ⟨ops ++ [⟨.neg, Span.single start⟩], out, ?_, ?_, ?_⟩
  · have hminus : Op.ofChar? '-' = some (.binary .sub) := rfl
    rw [Token.ofPiece_cons_operator hminus, foldlM_cons_of_move (.minus _ expects), hfold,
      List.append_assoc]
    rfl
  · intro op hop
    rcases List.mem_append.mp hop with hop | hop
    · exact hrank op hop
    · rw [List.mem_singleton.mp hop]
      exact Nat.le_refl 4
  · rw [emit_append, hemit, emit_cons, emit_nil]
    simp [Tree.postorder, token, behind]

/-- The operator puts out what waits of its left operand, then waits for its right one. -/
theorem reads_binary {op : BinOp} {s t : Text} {a b : Tree} (admits : Admits op.rank c)
    (ihl : Reads op.rank c (Token.ofPiece start s) a)
    (ihr : ∀ c : Conversion, c.expectsOperand = true → Admits (op.rank + 1) c →
      Reads (op.rank + 1) c (Token.ofPiece (start + s.byteLength + 1) t) b) :
    Reads op.rank c (Token.ofPiece start (s ++ op.symbol :: t))
      (.node ⟨op, Span.single (start + s.byteLength)⟩ a b) := by
  have hrank4 : op.rank < 4 := by cases op <;> decide
  obtain ⟨ops, out, hfold, hrank, hemit⟩ := ihl
  let here : Placed Op := ⟨.binary op, Span.single (start + s.byteLength)⟩
  let after : Conversion := ⟨emit ops out, here :: c.pending, true⟩
  obtain ⟨ops', out', hfold', hrank', hemit'⟩ := ihr after rfl (Or.inr fun o ho => by
    rw [List.head?_cons, Option.mem_some_iff] at ho
    subst ho
    exact Nat.lt_succ_self op.rank)
  have hloose : ∀ o ∈ c.pending.head?, o.what.rank < op.rank := by
    rcases admits with h | h
    · exact absurd h (Nat.not_le_of_lt hrank4)
    · exact h
  refine ⟨ops' ++ [here], out', ?_, ?_, ?_⟩
  · rw [Token.ofPiece_append_operator (Op.ofChar?_symbol op), foldlM_append_of_ok hfold,
      foldlM_cons_of_move (.between (.binary op) _ rfl (by simp) rfl hrank hloose),
      hfold', List.append_assoc]
    rfl
  · intro o ho
    rcases List.mem_append.mp ho with ho | ho
    · exact Nat.le_of_succ_le (hrank' o ho)
    · rw [List.mem_singleton.mp ho]
      exact Nat.le_refl op.rank
  · rw [emit_append, hemit', emit_cons, emit_nil]
    simp [Tree.postorder, token, after, here, hemit]

theorem reads_formula {t : Text} {e : Tree} (h : Formula level start t e) :
    ∀ c : Conversion, c.expectsOperand = true → Admits level c →
      Reads level c (Token.ofPiece start t) e := by
  induction h with
  | operand nonempty plain => exact fun c _ _ => reads_operand nonempty plain
  | group _ ih => exact fun c _ _ => reads_group ih
  | plus _ ih => exact fun c expects admits => reads_plus expects (ih c expects admits)
  | minus _ ih => exact fun c expects _ => reads_minus expects ih
  | binary _ _ ihl ihr =>
    exact fun c expects admits => reads_binary admits (ihl c expects admits) ihr
  | tighter _ ih =>
    intro c expects admits
    obtain ⟨ops, out, hfold, hrank, hemit⟩ := ih c expects admits.succ
    exact ⟨ops, out, hfold, fun op hop => Nat.le_of_succ_le (hrank op hop), hemit⟩

end Conversion

/-- A line that is an expression comes out in the order of its tree. -/
theorem Postfix.ofLine_formula {line : Text} {e : Tree} (h : Formula.Line line e) :
    Postfix.ofLine line = .ok e.postorder := by
  obtain ⟨ops, out, hfold, hrank, hemit⟩ :=
    Conversion.reads_formula h {} rfl (Or.inr fun op hop => by cases hop)
  have hclosed : ops.find? Conversion.opens = none := by
    rw [List.find?_eq_none]
    intro op hop hopen
    have := hrank op hop
    rw [Conversion.opens_iff.mp hopen] at this
    exact absurd this (by decide)
  change ((Token.ofPiece 0 line).foldlM Conversion.step {} >>= Conversion.finish) = _
  rw [hfold]
  change Conversion.finish ⟨out, ops ++ [], false⟩ = _
  simp [Conversion.finish, hclosed, hemit]

end Abacus
