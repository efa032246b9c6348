-- Printed expressions: a tree is written out with no parentheses but those
-- that its operators ask for. The conversion finds the tree again, and every
-- token of it on the characters that it was written as.
import Abacus.Proofs.FormulaOrder
import Abacus.Proofs.TokensKept
import Abacus.Proofs.TreesReadBack

namespace Abacus

/-! ## Written tokens -/

/-- The characters that are read as the lexeme. In front of an operand a minus is read, as
anywhere. -/
def Lexeme.written : Lexeme → Text
  | operator .neg => ['-']
  | l => l.text

namespace Token

/-- The token stands on characters of the text that are read as it. -/
def WrittenIn (t : Token) (text : Text) : Prop :=
  ∃ before after, text = before ++ t.what.written ++ after ∧
    t.span = ⟨before.byteLength, before.byteLength + t.what.written.byteLength⟩

/-- What is kept of a line stands on the characters that it was read from. -/
theorem Kept.writtenIn {line : Text} {t : Token} (h : Kept line t) : t.WrittenIn line := by
  cases h with
  | operand read | operator read | minus read =>
    exact exists_of_mem_ofLine (read ▸ List.mem_append_right _ List.mem_cons_self)

end Token

/-! ## Expressions without places -/

/-- A name or a numeral. -/
structure Atom where
  text : Text
  nonempty : text ≠ []
  plain : Operand.isPlain text = true
  deriving DecidableEq

/-- An expression with its operands and operators, wherever they are written. -/
inductive Expression where
  | atom (a : Atom)
  | negated (body : Expression)
  | joined (op : BinOp) (left right : Expression)
  deriving DecidableEq

namespace Expression

/-- How tightly an expression holds together: an operator as its rank says, a minus in front
more tightly, and an operand most tightly. -/
def rank : Expression → Nat
  | atom _ => 5
  | negated _ => 4
  | joined op _ _ => op.rank

/-- The lexemes of the expression, each operator after its operands. -/
def postorder : Expression → List Lexeme
  | atom a => [.operand a.text]
  | negated body => body.postorder ++ [.operator .neg]
  | joined op left right => left.postorder ++ right.postorder ++ [.operator (.binary op)]

/-! ## Printing -/

/-- Where only what holds together as tightly as `level` can stand, a looser text stands in
parentheses. -/
def guarded (level rank : Nat) (t : Text) : Text := if rank < level then '(' :: t ++ [')'] else t

/-- The characters that come before a text where it stands. -/
def lead (level rank : Nat) : Nat := if rank < level then 1 else 0

/-- The expression as a text. An operator has on its left what is as tight as it is, and on
its right what is tighter; a minus has behind it what is no operator with two sides. -/
def print : Expression → Text
  | atom a => a.text
  | negated body => '-' :: guarded 4 body.rank body.print
  | joined op left right =>
    guarded op.rank left.rank left.print ++
      op.symbol :: guarded (op.rank + 1) right.rank right.print

/-- The expression with the places of its printed form, which begins at `start`. -/
def placed (start : Nat) : Expression → Tree
  | atom a => .leaf ⟨a.text, start, start + a.text.byteLength⟩
  | negated body => .neg (Span.single start) (body.placed (start + 1 + lead 4 body.rank))
  | joined op left right =>
    let middle := start + (guarded op.rank left.rank left.print).byteLength
    .node ⟨op, Span.single middle⟩ (left.placed (start + lead op.rank left.rank))
      (right.placed (middle + 1 + lead (op.rank + 1) right.rank))

/-! ## What is printed is read -/

theorem formula_guarded {level start rank : Nat} {t : Text} {e : Nat → Tree} (fits : level ≤ 5)
    (loose : 1 ≤ rank) (h : ∀ start, Formula rank start t (e start)) :
    Formula level start (guarded level rank t) (e (start + lead level rank)) := by
  unfold guarded lead
  split
  · exact (Formula.group ((h (start + 1)).loosen loose)).loosen fits
  · exact (h start).loosen (by omega)

theorem one_le_rank (e : Expression) : 1 ≤ e.rank := by
  cases e with
  | atom | negated => simp [rank]
  | joined op => cases op <;> simp [rank, BinOp.rank]

/-- A printed expression is an expression with this tree, at the level of its own operator. -/
theorem formula_print (e : Expression) (start : Nat) :
    Formula e.rank start e.print (e.placed start) := by
  induction e generalizing start with
  | atom a => exact .operand a.nonempty a.plain
  | negated body ih => exact .minus (formula_guarded (by decide) body.one_le_rank ih)
  | joined op left right ihl ihr =>
    have hrank : op.rank + 1 ≤ 5 := by cases op <;> decide
    exact .binary (formula_guarded (by omega) left.one_le_rank ihl)
      (formula_guarded hrank right.one_le_rank ihr)

theorem ofLine_print (e : Expression) : Postfix.ofLine e.print = .ok (e.placed 0).postorder :=
  Postfix.ofLine_formula ((e.formula_print 0).loosen e.one_le_rank)

theorem map_what_placed (e : Expression) (start : Nat) :
    (e.placed start).postorder.map (·.what) = e.postorder := by
  induction e generalizing start with
  | atom a => rfl
  | negated body ih => simp [placed, Tree.postorder, postorder, ih]
  | joined op left right ihl ihr => simp [placed, Tree.postorder, postorder, ihl, ihr]

/-- An expression can be told from its tree, wherever that is placed. -/
theorem placed_injective {e e' : Expression} {start start' : Nat}
    (h : e.placed start = e'.placed start') : e = e' := by
  induction e generalizing e' start start' with
  | atom a =>
    cases e' with
    | atom a' =>
      obtain ⟨text, nonempty, plain⟩ := a
      obtain ⟨text', nonempty', plain'⟩ := a'
      cases h
      rfl
    | negated | joined => cases h
  | negated body ih =>
    cases e' with
    | negated body' => rw [ih (Tree.neg.inj h).2]
    | atom | joined => cases h
  | joined op left right ihl ihr =>
    cases e' with
    | joined op' left' right' =>
      obtain ⟨hop, hleft, hright⟩ := Tree.node.inj h
      rw [(Placed.mk.inj hop).1, ihl hleft, ihr hright]
    | atom | negated => cases h

end Expression

/-! ## The law -/

/-- A printed expression is converted to its own operands and operators in postfix order, each
on the characters that it is printed as. No other expression is printed as this text. -/
theorem conversion_undoes_printing (e : Expression) :
    Postfix.ofLine e.print = .ok (e.placed 0).postorder ∧
    (e.placed 0).postorder.map (·.what) = e.postorder ∧
    (∀ t ∈ (e.placed 0).postorder, t.WrittenIn e.print) ∧
    ∀ e' : Expression, e'.print = e.print → e' = e := by
  refine ⟨e.ofLine_print, e.map_what_placed 0, ?_, ?_⟩
  · intro t ht
    have hperm := Postfix.perm_kept e.ofLine_print
    exact (Token.mem_kept_ofLine_iff.mp (hperm.mem_iff.mp ht)).writtenIn
  · intro e' h
    have htokens := e'.ofLine_print
    rw [h, e.ofLine_print, Except.ok.injEq] at htokens
    exact (Expression.placed_injective (Tree.postorder_injective htokens)).symm

/-- The group of `1--(2-x)` keeps its parentheses, as a minus binds more tightly in front of an
operand than between two. -/
theorem one_minus_a_negated_difference :
    ∃ e : Expression, e.print = "1--(2-x)".toList ∧
      String.ofList (e.postorder.flatMap Lexeme.text) = "12x-neg-" ∧
      Postfix.ofLine e.print = .ok (e.placed 0).postorder :=
  let one : Expression := .atom ⟨['1'], by decide, by decide⟩
  let two : Expression := .atom ⟨['2'], by decide, by decide⟩
  let x : Expression := .atom ⟨['x'], by decide, by decide⟩
  let e : Expression := .joined .sub one (.negated (.joined .sub two x))
  ⟨e, rfl, rfl, (conversion_undoes_printing e).1⟩

end Abacus
