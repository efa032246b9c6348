-- Formulas: which lines are expressions, and the tree of each. Sums are made of
-- products, products of powers, powers of signed atoms; an atom is an operand
-- or a sum in parentheses. The operators of one level join from the left.
import Abacus.Tree

namespace Abacus

/-- `Formula level start t e`: the text `t`, which begins at offset `start` of its line,
is an expression with the tree `e`. At the levels of sums, products and powers the
operators bind at least as tightly as the level says; at level 4 the text is an atom
behind its signs, at level 5 an atom. -/
inductive Formula : Nat → Nat → Text → Tree → Prop
  /-- A name or a numeral. -/
  | operand {start : Nat} {t : Text} (nonempty : t ≠ []) (plain : Operand.isPlain t = true) :
      Formula 5 start t (.leaf ⟨t, start, start + t.byteLength⟩)
  /-- A sum in parentheses. -/
  | group {start : Nat} {t : Text} {e : Tree} (sum : Formula 1 (start + 1) t e) :
      Formula 5 start ('(' :: t ++ [')']) e
  /-- A plus in front says nothing. -/
  | plus {start : Nat} {t : Text} {e : Tree} (body : Formula 4 (start + 1) t e) :
      Formula 4 start ('+' :: t) e
  /-- A minus in front negates what follows. -/
  | minus {start : Nat} {t : Text} {e : Tree} (body : Formula 4 (start + 1) t e) :
      Formula 4 start ('-' :: t) (.neg (Span.single start) e)
  /-- An operator takes all before it of its own level, and one part of the next. -/
  | binary {start : Nat} {op : BinOp} {s t : Text} {a b : Tree}
      (left : Formula op.rank start s a)
      (right : Formula (op.rank + 1) (start + s.byteLength + 1) t b) :
      Formula op.rank start (s ++ op.symbol :: t)
        (.node ⟨op, Span.single (start + s.byteLength)⟩ a b)
  /-- What binds more tightly can stand alone. -/
  | tighter {level start : Nat} {t : Text} {e : Tree} (part : Formula (level + 1) start t e) :
      Formula level start t e

namespace Formula

/-- The line as a whole is an expression with this tree. -/
def Line (line : Text) (e : Tree) : Prop := Formula 1 0 line e

theorem ne_nil {level start : Nat} {t : Text} {e : Tree} (h : Formula level start t e) :
    t ≠ [] := by
  induction h with
  | operand nonempty _ => exact nonempty
  | tighter _ ih => exact ih
  | _ => simp

end Formula

end Abacus
