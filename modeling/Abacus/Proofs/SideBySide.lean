-- Operands side by side: where one operand or group ends and the next begins
-- with nothing between them. No expression has such a place.
import Abacus.Proofs.FormulaText

namespace Abacus

/-! ## Characters -/

/-- An operand or group ends with the first character, and another one begins with the
second. Between two characters that are no operators one operand goes on. -/
def Abut (c d : Char) : Prop :=
  (c = ')' ∧ (d = '(' ∨ isOperator d = false)) ∨ (isOperator c = false ∧ d = '(')

instance (c d : Char) : Decidable (Abut c d) := inferInstanceAs (Decidable (_ ∨ _))

/-- Two operands or groups stand in the line with no operator between them. -/
def SideBySide (line : Text) : Prop :=
  ∃ before c d later, line = before ++ c :: d :: later ∧ Abut c d

theorem not_sideBySide_iff {line : Text} :
    ¬SideBySide line ↔ line.IsChain fun c d => ¬Abut c d := by
  rw [List.isChain_iff_forall_rel_of_append_cons_cons]
  constructor
  · exact fun h c d before later hline habut => h ⟨before, c, d, later, hline, habut⟩
  · rintro h ⟨before, c, d, later, hline, habut⟩
    exact h hline habut

theorem symbol_ne_paren (op : BinOp) : op.symbol ≠ '(' ∧ op.symbol ≠ ')' := by
  cases op <;> decide

theorem Neighbours.not_abut {c d : Char} (h : Neighbours c d) : ¬Abut c d := by
  cases h with
  | run hc hd =>
    rintro (⟨rfl, _⟩ | ⟨_, rfl⟩)
    · exact absurd hc (by decide)
    · exact absurd hd (by decide)
  | after hc hd =>
    rcases hd with rfl | ⟨op, rfl⟩
    · rintro (⟨_, h | h⟩ | ⟨_, h⟩) <;> cases h
    · rintro (⟨_, h | h⟩ | ⟨_, h⟩)
      · exact (symbol_ne_paren op).1 h
      · rw [isOperator_symbol] at h
        cases h
      · exact (symbol_ne_paren op).1 h
  | before hc hd =>
    rcases hc with rfl | ⟨op, rfl⟩
    · rintro (⟨h, _⟩ | ⟨h, _⟩) <;> cases h
    · rintro (⟨h, _⟩ | ⟨h, _⟩)
      · exact (symbol_ne_paren op).2 h
      · rw [isOperator_symbol] at h
        cases h

/-- In an expression no two operands stand side by side. -/
theorem Formula.not_sideBySide {level start : Nat} {t : Text} {e : Tree}
    (h : Formula level start t e) : ¬SideBySide t :=
  not_sideBySide_iff.mpr (h.isChain_neighbours.imp fun _ _ hcd => hcd.not_abut)

/-! ## Lexemes -/

namespace Lexeme

/-- An operand or a group ends with the lexeme. -/
def ends : Lexeme → Bool
  | operand _ | operator .rparen => true
  | operator _ => false

/-- An operand or a group begins with the lexeme. -/
def begins : Lexeme → Bool
  | operand _ | operator .lparen => true
  | operator _ => false

/-- The second lexeme can come after the first. -/
def Apart (l m : Lexeme) : Prop := ¬(l.ends = true ∧ m.begins = true)

theorem push_other {c : Char} (h : Op.ofChar? c = none) (later : List Lexeme) :
    (∃ run rest, later = .operand run :: rest ∧ push c later = .operand (c :: run) :: rest) ∨
      ((∀ l ∈ later.head?, ∃ op, l = .operator op) ∧ push c later = .operand [c] :: later) := by
  unfold push
  rw [h]
  rcases later with _ | ⟨run | op, rest⟩
  · exact Or.inr ⟨by simp, rfl⟩
  · exact Or.inl ⟨run, rest, rfl, rfl⟩
  · exact Or.inr ⟨by simp, rfl⟩

/-- An operand or group that begins with the first lexeme of a line begins with its first
character. -/
theorem begins_head {d : Char} {rest : Text} {l : Lexeme}
    (hl : l ∈ (ofLine (d :: rest)).head?) (h : l.begins = true) :
    d = '(' ∨ isOperator d = false := by
  rcases hd : Op.ofChar? d with _ | op
  · exact Or.inr (by simp [isOperator, hd])
  · rw [ofLine_cons_operator hd, List.head?_cons, Option.mem_some_iff] at hl
    subst hl
    cases op with
    | lparen =>
      have := Op.ofChar?_eq_some_iff.mp hd
      exact Or.inl (by simpa [Op.symbol] using this.symm)
    | rparen | binary | neg => cases h

theorem eq_lparen_of_begins {d : Char} {rest : Text} {op : Op}
    (hl : .operator op ∈ (ofLine (d :: rest)).head?) (h : (operator op).begins = true) :
    d = '(' := by
  rcases begins_head hl h with hd | hd
  · exact hd
  · have hc : Op.ofChar? d = none := by simpa [isOperator] using hd
    change _ ∈ (push d (ofLine rest)).head? at hl
    rcases push_other hc (ofLine rest) with ⟨run, later, _, hpush⟩ | ⟨_, hpush⟩ <;>
      rw [hpush] at hl <;> cases hl

theorem eq_rparen_of_ends {c : Char} {op : Op} (hc : Op.ofChar? c = some op)
    (h : (operator op).ends = true) : c = ')' := by
  cases op with
  | rparen =>
    have := Op.ofChar?_eq_some_iff.mp hc
    simpa [Op.symbol] using this.symm
  | lparen | binary | neg => cases h

/-- Where no operands stand side by side, no lexemes do. -/
theorem isChain_apart {line : Text} (h : line.IsChain fun c d => ¬Abut c d) :
    (ofLine line).IsChain Apart := by
  induction line with
  | nil => exact List.isChain_nil
  | cons c rest ih =>
    obtain ⟨hhead, hrest⟩ := List.isChain_cons.mp h
    have hchain := ih hrest
    rcases hc : Op.ofChar? c with _ | op
    · change (push c (ofLine rest)).IsChain Apart
      rcases push_other hc (ofLine rest) with ⟨run, later, hl, hpush⟩ | ⟨hop, hpush⟩ <;> rw [hpush]
      · rw [hl] at hchain
        refine hchain.imp_head ?_
        exact fun hrun => hrun
      · refine List.isChain_cons.mpr ⟨?_, hchain⟩
        rintro l hl ⟨_, hbegins⟩
        obtain ⟨op, rfl⟩ := hop l hl
        rcases rest with _ | ⟨d, rest⟩
        · cases hl
        · exact hhead d rfl (Or.inr ⟨by simp [isOperator, hc], eq_lparen_of_begins hl hbegins⟩)
    · rw [ofLine_cons_operator hc]
      refine List.isChain_cons.mpr ⟨?_, hchain⟩
      rintro l hl ⟨hends, hbegins⟩
      rcases rest with _ | ⟨d, rest⟩
      · cases hl
      · exact hhead d rfl (Or.inl ⟨eq_rparen_of_ends hc hends, begins_head hl hbegins⟩)

/-! ## What is read in a line -/

/-- A lexeme that an expression can have: a name, a numeral, or an operator that a character
stands for. -/
def Readable : Lexeme → Prop
  | operand run => run ≠ [] ∧ Operand.isPlain run = true
  | operator op => op ≠ .neg

/-- No operand of a line is empty, and no operator is the minus that only its place can tell. -/
theorem ne_of_mem_ofLine {line : Text} {l : Lexeme} (h : l ∈ ofLine line) :
    l ≠ .operand [] ∧ l ≠ .operator .neg := by
  induction line with
  | nil => cases h
  | cons c rest ih =>
    change l ∈ push c (ofLine rest) at h
    rcases hc : Op.ofChar? c with _ | op
    · rcases push_other hc (ofLine rest) with ⟨run, later, hl, hpush⟩ | ⟨_, hpush⟩ <;>
        rw [hpush, List.mem_cons] at h <;> rcases h with rfl | h
      · simp
      · exact ih (hl ▸ List.mem_cons_of_mem _ h)
      · simp
      · exact ih h
    · rw [push_operator hc, List.mem_cons] at h
      rcases h with rfl | h
      · refine ⟨by simp, ?_⟩
        intro hneg
        cases hneg
        cases Op.ofChar?_eq_some_iff.mp hc
      · exact ih h

theorem readable_of_plain {line : Text}
    (plain : ∀ run, .operand run ∈ ofLine line → Operand.isPlain run = true) :
    ∀ l ∈ ofLine line, l.Readable := by
  intro l hl
  obtain ⟨hempty, hneg⟩ := ne_of_mem_ofLine hl
  cases l with
  | operand run => exact ⟨fun h => hempty (h ▸ rfl), plain run hl⟩
  | operator op => exact fun h => hneg (h ▸ rfl)

end Lexeme

end Abacus
