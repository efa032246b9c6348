-- The operands of a line come out of the conversion as they went in: each one
-- once, in its order and in its place.
import Abacus.LineShape
import Abacus.Proofs.ConversionMoves

namespace Abacus

namespace Conversion

open LineShape (operands)

theorem operands_append (first second : List Token) :
    operands (first ++ second) = operands first ++ operands second := by
  unfold operands
  rw [List.filterMap_append]

theorem operands_cons_operator (op : Op) (span : Span) (tokens : List Token) :
    operands (⟨.operator op, span⟩ :: tokens) = operands tokens := rfl

/-- An operator that leaves brings no operand. -/
theorem operands_emit (ops : List (Placed Op)) (output : List Token) :
    operands (emit ops output) = operands output := by
  induction ops generalizing output with
  | nil => rfl
  | cons op ops ih =>
    rw [emit_cons, ih]
    exact operands_cons_operator op.what op.span output

variable {c c' : Conversion} {t : Token}

theorem Move.operands_output (h : Move c t c') :
    operands c'.output = operands [t] ++ operands c.output := by
  cases h with
  | operand | opening | plus | minus => rfl
  | closing | between => exact operands_emit _ _

theorem operands_of_foldlM {tokens : List Token} (h : tokens.foldlM step c = .ok c') :
    operands c'.output = (operands tokens).reverse ++ operands c.output := by
  induction tokens generalizing c with
  | nil =>
    cases h
    rfl
  | cons t rest ih =>
    obtain ⟨d, hmove, hrest⟩ := exists_move_of_foldlM_cons h
    have hone : (operands [t]).reverse = operands [t] := by
      obtain ⟨what, span⟩ := t
      cases what <;> rfl
    have hcons : operands (t :: rest) = operands [t] ++ operands rest := operands_append [t] rest
    rw [ih hrest, hmove.operands_output, hcons, List.reverse_append, hone, List.append_assoc]

end Conversion

theorem LineShape.operands_reverse (tokens : List Token) :
    operands tokens.reverse = (operands tokens).reverse := by
  unfold operands
  rw [List.filterMap_reverse]

/-- The conversion keeps the operands. -/
theorem Postfix.operands_ofTokens {tokens out : List Token} (h : ofTokens tokens = .ok out) :
    LineShape.operands out = LineShape.operands tokens := by
  obtain ⟨c, hfold, hfinish⟩ := Conversion.ofTokens_eq_ok h
  have hout := Conversion.operands_of_foldlM hfold
  rw [(Conversion.finish_eq_ok hfinish).2, LineShape.operands_reverse, Conversion.operands_emit,
    hout, List.reverse_append, List.reverse_reverse]
  rfl

end Abacus
