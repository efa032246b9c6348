-- What the text of an expression looks like: which characters it has, what it
-- begins and ends with, and which characters stand side by side in it.
import Abacus.Formula
import Abacus.Proofs.Lexemes
import Abacus.Signs
import Mathlib.Data.List.Chain

namespace Abacus

namespace Operand

theorem isWord_of_isPlain {t : Text} (nonempty : t ≠ []) (h : isPlain t = true) :
    isWord t = true := by
  have hne : t.isEmpty = false := by simpa using nonempty
  unfold isPlain isName at h
  simp only [Bool.or_eq_true, Bool.and_eq_true, List.all_eq_true] at h
  simp only [isWord, hne, Bool.not_false, Bool.true_and, List.all_eq_true]
  intro c hc
  unfold Char.isAlphanum
  rcases h with ⟨_, h⟩ | h
  · rw [h c hc, Bool.true_or]
  · rw [h c hc, Bool.or_true]

theorem isAlphanum_of_isWord {t : Text} (h : isWord t = true) :
    ∀ c ∈ t, c.isAlphanum = true := by
  unfold isWord at h
  rw [Bool.and_eq_true, List.all_eq_true] at h
  exact h.2

theorem isAlphanum_of_isPlain {t : Text} (h : isPlain t = true) :
    ∀ c ∈ t, c.isAlphanum = true := by
  intro c hc
  exact isAlphanum_of_isWord (isWord_of_isPlain (List.ne_nil_of_mem hc) h) c hc

theorem ne_nil_of_isWord {t : Text} (h : isWord t = true) : t ≠ [] := by
  rintro rfl
  cases h

theorem isPlain_of_isNumeral {t : Text} (h : Decimal.isNumeral t = true) : isPlain t = true := by
  unfold Decimal.isNumeral at h
  rw [Bool.and_eq_true] at h
  unfold isPlain
  rw [h.2, Bool.or_true]

end Operand

theorem Decimal.read?_of_isWord {t : Text} (h : Operand.isWord t = true) :
    read? t = if isNumeral t then some (value t : Int) else none := by
  have halnum := Operand.isAlphanum_of_isWord h
  unfold read?
  split
  · exact absurd (halnum '-' List.mem_cons_self) (by decide)
  · exact absurd (halnum '+' List.mem_cons_self) (by decide)
  · rfl

/-! ## Characters -/

/-- The character can be the first of an expression. -/
def Opens (c : Char) : Prop := c.isAlphanum = true ∨ c = '(' ∨ isSign c = true

/-- The character can be the last of an expression. -/
def Closes (c : Char) : Prop := c.isAlphanum = true ∨ c = ')'

/-- The two characters can stand side by side in an expression. -/
inductive Neighbours : Char → Char → Prop
  /-- One operand goes on. -/
  | run {c d : Char} (hc : c.isAlphanum = true) (hd : d.isAlphanum = true) : Neighbours c d
  /-- An operator, or the end of a group, comes after an expression. -/
  | after {c d : Char} (hc : Closes c) (hd : d = ')' ∨ ∃ op : BinOp, d = op.symbol) :
      Neighbours c d
  /-- An expression comes after an operator, a sign, or the beginning of a group. -/
  | before {c d : Char} (hc : c = '(' ∨ ∃ op : BinOp, c = op.symbol) (hd : Opens d) :
      Neighbours c d

theorem Closes.not_isSign {c : Char} (h : Closes c) : isSign c = false := by
  rcases h with h | rfl
  · unfold isSign
    rw [decide_eq_false_iff_not]
    rintro (rfl | rfl) <;> exact absurd h (by decide)
  · rfl

theorem isSign_of_isAlphanum {c : Char} (h : c.isAlphanum = true) : isSign c = false :=
  Closes.not_isSign (Or.inl h)

namespace Formula

variable {level start : Nat} {t : Text} {e : Tree}

/-! ## Levels -/

theorem loosen {level' : Nat} (h : Formula level start t e) (hle : level' ≤ level) :
    Formula level' start t e := by
  induction hle with
  | refl => exact h
  | step _ ih => exact ih h.tighter

/-- An operator and its two sides make an expression of its level and of every looser one. -/
theorem joined (op : BinOp) {s u : Text} {a b : Tree} (left : Formula op.rank start s a)
    (right : Formula (op.rank + 1) (start + s.byteLength + 1) u b) (hle : level ≤ op.rank) :
    Formula level start (s ++ op.symbol :: u)
      (.node ⟨op, Span.single (start + s.byteLength)⟩ a b) :=
  (Formula.binary left right).loosen hle

/-! ## The ends -/

theorem opens_head (h : Formula level start t e) : ∃ c rest, t = c :: rest ∧ Opens c := by
  induction h with
  | @operand _ t nonempty plain =>
    obtain ⟨c, rest, rfl⟩ := List.exists_cons_of_ne_nil nonempty
    exact ⟨c, rest, rfl, Or.inl (Operand.isAlphanum_of_isPlain plain c List.mem_cons_self)⟩
  | group _ _ => exact ⟨'(', _, rfl, Or.inr (Or.inl rfl)⟩
  | plus _ _ => exact ⟨'+', _, rfl, Or.inr (Or.inr rfl)⟩
  | minus _ _ => exact ⟨'-', _, rfl, Or.inr (Or.inr rfl)⟩
  | binary _ _ ih _ =>
    obtain ⟨c, rest, rfl, hc⟩ := ih
    exact ⟨c, _, rfl, hc⟩
  | tighter _ ih => exact ih

theorem closes_last (h : Formula level start t e) : ∃ init c, t = init ++ [c] ∧ Closes c := by
  induction h with
  | @operand _ t nonempty plain =>
    refine ⟨t.dropLast, t.getLast nonempty, (List.dropLast_append_getLast nonempty).symm, ?_⟩
    exact Or.inl (Operand.isAlphanum_of_isPlain plain _ (List.getLast_mem nonempty))
  | @group _ t _ _ _ => exact ⟨'(' :: t, ')', rfl, Or.inr rfl⟩
  | plus _ ih | minus _ ih =>
    obtain ⟨init, c, rfl, hc⟩ := ih
    exact ⟨_ :: init, c, rfl, hc⟩
  | @binary _ op s _ _ _ _ _ _ ih =>
    obtain ⟨init, c, rfl, hc⟩ := ih
    exact ⟨s ++ op.symbol :: init, c, by simp, hc⟩
  | tighter _ ih => exact ih

/-! ## Side by side -/

theorem isChain_neighbours (h : Formula level start t e) : t.IsChain Neighbours := by
  induction h with
  | @operand _ t _ plain =>
    have hall := Operand.isAlphanum_of_isPlain plain
    apply List.Pairwise.isChain
    rw [List.pairwise_iff_forall_sublist]
    intro c d hcd
    exact .run (hall c (hcd.subset (by simp))) (hall d (hcd.subset (by simp)))
  | @group _ t _ sum ih =>
    obtain ⟨c, rest, rfl, hc⟩ := sum.opens_head
    obtain ⟨init, d, hd, hcl⟩ := sum.closes_last
    rw [List.cons_append, List.cons_append, List.isChain_cons_cons, ← List.cons_append]
    refine ⟨.before (Or.inl rfl) hc, List.isChain_append.mpr ⟨ih, List.isChain_singleton _, ?_⟩⟩
    intro x hx y hy
    rw [hd, List.getLast?_concat, Option.mem_some_iff] at hx
    rw [List.head?_cons, Option.mem_some_iff] at hy
    subst hx hy
    exact .after hcl (Or.inl rfl)
  | plus body ih =>
    obtain ⟨c, rest, rfl, hc⟩ := body.opens_head
    exact List.isChain_cons_cons.mpr ⟨.before (Or.inr ⟨.add, rfl⟩) hc, ih⟩
  | minus body ih =>
    obtain ⟨c, rest, rfl, hc⟩ := body.opens_head
    exact List.isChain_cons_cons.mpr ⟨.before (Or.inr ⟨.sub, rfl⟩) hc, ih⟩
  | @binary _ op s t _ _ left right ihl ihr =>
    obtain ⟨init, d, hd, hcl⟩ := left.closes_last
    obtain ⟨c, rest, rfl, hc⟩ := right.opens_head
    refine List.isChain_append.mpr
      ⟨ihl, List.isChain_cons_cons.mpr ⟨.before (Or.inr ⟨op, rfl⟩) hc, ihr⟩, ?_⟩
    intro x hx y hy
    rw [hd, List.getLast?_concat, Option.mem_some_iff] at hx
    rw [List.head?_cons, Option.mem_some_iff] at hy
    subst hx hy
    exact .after hcl (Or.inr ⟨op, rfl⟩)
  | tighter _ ih => exact ih

/-! ## All characters -/

theorem isAlphanum_or_isOperator (h : Formula level start t e) :
    ∀ c ∈ t, c.isAlphanum = true ∨ isOperator c = true := by
  induction h with
  | operand _ plain => exact fun c hc => Or.inl (Operand.isAlphanum_of_isPlain plain c hc)
  | group _ ih =>
    intro c hc
    simp only [List.cons_append, List.mem_cons, List.mem_append, List.not_mem_nil, or_false] at hc
    rcases hc with rfl | hc | rfl
    · exact Or.inr rfl
    · exact ih c hc
    · exact Or.inr rfl
  | plus _ ih | minus _ ih =>
    intro c hc
    rcases List.mem_cons.mp hc with rfl | hc
    · exact Or.inr rfl
    · exact ih c hc
  | @binary _ op _ _ _ _ _ _ ihl ihr =>
    intro c hc
    rcases List.mem_append.mp hc with hc | hc
    · exact ihl c hc
    · rcases List.mem_cons.mp hc with rfl | hc
      · exact Or.inr (by cases op <;> rfl)
      · exact ihr c hc
  | tighter _ ih => exact ih

/-! ## Operands -/

/-- Every operand that is read in an expression is a name or a numeral. -/
theorem isPlain_of_mem_ofLine (h : Formula level start t e) :
    ∀ run, Lexeme.operand run ∈ Lexeme.ofLine t → Operand.isPlain run = true := by
  induction h with
  | operand nonempty plain =>
    intro run hrun
    rw [Lexeme.ofLine_of_no_operator nonempty fun c hc =>
      Op.ofChar?_of_isAlphanum (Operand.isAlphanum_of_isPlain plain c hc)] at hrun
    simp only [List.mem_singleton, Lexeme.operand.injEq] at hrun
    exact hrun ▸ plain
  | @group _ t _ _ ih =>
    intro run hrun
    rw [List.cons_append, Lexeme.ofLine_cons_operator rfl, Lexeme.ofLine_append_operator rfl] at hrun
    simp only [Lexeme.ofLine, List.foldr_nil, List.mem_cons, List.mem_append, List.not_mem_nil,
      reduceCtorEq, false_or, or_false] at hrun
    exact ih run hrun
  | plus _ ih | minus _ ih =>
    intro run hrun
    rw [Lexeme.ofLine_cons_operator rfl] at hrun
    rcases List.mem_cons.mp hrun with hrun | hrun
    · cases hrun
    · exact ih run hrun
  | @binary _ op _ _ _ _ _ _ ihl ihr =>
    intro run hrun
    rw [Lexeme.ofLine_append_operator (Op.ofChar?_symbol op)] at hrun
    rcases List.mem_append.mp hrun with hrun | hrun
    · exact ihl run hrun
    · rcases List.mem_cons.mp hrun with hrun | hrun
      · cases hrun
      · exact ihr run hrun
  | tighter _ ih => exact ih

theorem exists_operand (h : Formula level start t e) :
    ∃ run, Lexeme.operand run ∈ Lexeme.ofLine t := by
  induction h with
  | @operand _ t nonempty plain =>
    refine ⟨t, ?_⟩
    rw [Lexeme.ofLine_of_no_operator nonempty fun c hc =>
      Op.ofChar?_of_isAlphanum (Operand.isAlphanum_of_isPlain plain c hc)]
    exact List.mem_cons_self
  | group _ ih =>
    obtain ⟨run, hrun⟩ := ih
    refine ⟨run, ?_⟩
    rw [List.cons_append, Lexeme.ofLine_cons_operator rfl, Lexeme.ofLine_append_operator rfl]
    exact List.mem_cons_of_mem _ (List.mem_append_left _ hrun)
  | plus _ ih | minus _ ih =>
    obtain ⟨run, hrun⟩ := ih
    refine ⟨run, ?_⟩
    rw [Lexeme.ofLine_cons_operator rfl]
    exact List.mem_cons_of_mem _ hrun
  | @binary _ op _ _ _ _ _ _ ihl _ =>
    obtain ⟨run, hrun⟩ := ihl
    refine ⟨run, ?_⟩
    rw [Lexeme.ofLine_append_operator (Op.ofChar?_symbol op)]
    exact List.mem_append_left _ hrun
  | tighter _ ih => exact ih

/-- An expression without an operator is one operand. -/
theorem eq_leaf_of_no_operator (h : Formula level start t e)
    (none : ∀ c ∈ t, isOperator c = false) :
    Operand.isPlain t = true ∧ e = .leaf ⟨t, start, start + t.byteLength⟩ := by
  induction h with
  | operand _ plain => exact ⟨plain, rfl⟩
  | group _ _ => exact absurd (none '(' List.mem_cons_self) (by decide)
  | plus _ _ => exact absurd (none '+' List.mem_cons_self) (by decide)
  | minus _ _ => exact absurd (none '-' List.mem_cons_self) (by decide)
  | @binary _ op _ _ _ _ _ _ _ _ =>
    exact absurd (none op.symbol (by simp)) (by cases op <;> decide)
  | tighter _ ih => exact ih none

end Formula

end Abacus
