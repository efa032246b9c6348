-- Derivations from the left: an expression grows by one operator and one
-- signed atom at a time. What is read of a line is a row of open groups, each
-- an expression that goes on or one that is complete.
import Abacus.Proofs.FormulaText
import Abacus.Proofs.SignRows

namespace Abacus

/-! ## Expressions wherever they stand -/

/-- The text is an expression of the level, wherever in a line it begins. -/
def Derives (level : Nat) (t : Text) : Prop := ∀ start, ∃ e, Formula level start t e

namespace Derives

variable {level : Nat} {s t u : Text}

theorem operand (nonempty : t ≠ []) (plain : Operand.isPlain t = true) : Derives 5 t :=
  fun _ => ⟨_, .operand nonempty plain⟩

theorem group (h : Derives 1 t) : Derives 5 ('(' :: t ++ [')']) := by
  intro start
  obtain ⟨e, he⟩ := h (start + 1)
  exact ⟨e, .group he⟩

theorem loosen {level' : Nat} (h : Derives level t) (hle : level' ≤ level) : Derives level' t := by
  intro start
  obtain ⟨e, he⟩ := h start
  exact ⟨e, he.loosen hle⟩

theorem signs (h : Derives 4 t) {row : Text} (hrow : ∀ c ∈ row, isSign c = true) :
    Derives 4 (row ++ t) := by
  induction row with
  | nil => exact h
  | cons c row ih =>
    intro start
    obtain ⟨e, he⟩ := ih (fun d hd => hrow d (List.mem_cons_of_mem c hd)) (start + 1)
    rcases isSign_iff.mp (hrow c List.mem_cons_self) with rfl | rfl
    · exact ⟨e, .plus he⟩
    · exact ⟨_, .minus he⟩

end Derives

/-! ## One operator more -/

namespace Formula

variable {level start : Nat} {s u : Text} {a : Tree} {op : BinOp}

theorem exists_binary (h : Formula level start s a) (heq : level = op.rank) (hu : Derives 4 u) :
    ∃ e, Formula level start (s ++ op.symbol :: u) e := by
  have hrank : op.rank + 1 ≤ 4 := by cases op <;> decide
  subst heq
  obtain ⟨b, hb⟩ := hu.loosen hrank (start + s.byteLength + 1)
  exact ⟨_, .binary h hb⟩

/-- An expression goes on with an operator that binds at least as tightly as its level, and
with a signed atom. What the operator takes for its left operand stands at the end. -/
theorem exists_append (h : Formula level start s a) (hlevel : level ≤ op.rank)
    (hu : Derives 4 u) : ∃ e, Formula level start (s ++ op.symbol :: u) e := by
  have hrank : op.rank < 4 := by cases op <;> decide
  induction h with
  | operand | group | plus | minus => omega
  | @binary _ op' s t _ _ left right _ ihr =>
    -- An operator of the same level takes the whole, a tighter one takes from the right side.
    by_cases heq : op'.rank = op.rank
    · exact (Formula.binary left right).exists_binary heq hu
    · obtain ⟨e, he⟩ := ihr (Nat.lt_of_le_of_ne hlevel heq)
      rw [List.append_assoc, List.cons_append]
      exact ⟨_, .binary left he⟩
  | @tighter level _ _ _ part ih =>
    by_cases heq : level = op.rank
    · exact (Formula.tighter part).exists_binary heq hu
    · obtain ⟨e, he⟩ := ih (Nat.lt_of_le_of_ne hlevel heq)
      exact ⟨e, .tighter he⟩

end Formula

theorem Derives.append {s u : Text} (h : Derives 1 s) (op : BinOp) (hu : Derives 4 u) :
    Derives 1 (s ++ op.symbol :: u) := by
  intro start
  obtain ⟨e, he⟩ := h start
  exact he.exists_append (by cases op <;> decide) hu

/-! ## Unfinished expressions -/

/-- The text is an expression as far as it goes, and an operand comes next: there are signs
and nothing else, or an expression, an operator, and signs. -/
def Unfinished (t : Text) : Prop :=
  ∃ row, (∀ c ∈ row, isSign c = true) ∧
    (t = row ∨ ∃ s, ∃ op : BinOp, Derives 1 s ∧ t = s ++ op.symbol :: row)

namespace Unfinished

variable {t u : Text}

theorem nil : Unfinished [] := ⟨[], by simp, Or.inl rfl⟩

theorem sign (h : Unfinished t) {c : Char} (hc : isSign c = true) : Unfinished (t ++ [c]) := by
  obtain ⟨row, hrow, hsplit⟩ := h
  refine ⟨row ++ [c], ?_, ?_⟩
  · intro d hd
    rcases List.mem_append.mp hd with hd | hd
    · exact hrow d hd
    · exact List.mem_singleton.mp hd ▸ hc
  · rcases hsplit with rfl | ⟨s, op, hs, rfl⟩
    · exact Or.inl rfl
    · exact Or.inr ⟨s, op, hs, by simp⟩

theorem operator (h : Derives 1 t) (op : BinOp) : Unfinished (t ++ [op.symbol]) :=
  ⟨[], by simp, Or.inr ⟨t, op, h, rfl⟩⟩

/-- The operand that comes next completes the expression. -/
theorem atom (h : Unfinished t) (hu : Derives 5 u) : Derives 1 (t ++ u) := by
  obtain ⟨row, hrow, rfl | ⟨s, op, hs, rfl⟩⟩ := h
  · exact ((hu.loosen (by decide)).signs hrow).loosen (by decide)
  · rw [List.append_assoc, List.cons_append]
    exact hs.append op ((hu.loosen (by decide)).signs hrow)

end Unfinished

/-! ## Open groups -/

/-- The text that is read when these pieces, the innermost first, stand each in a group of
the next. -/
def joinGroups : List Text → Text
  | [] => []
  | [t] => t
  | t :: outer => joinGroups outer ++ '(' :: t

/-- The pieces are all unfinished, but the innermost is complete when no operand is due. -/
def Nested (due : Bool) : List Text → Prop
  | [] => False
  | t :: outer => (if due then Unfinished t else Derives 1 t) ∧ ∀ s ∈ outer, Unfinished s

theorem joinGroups_append (t u : Text) (outer : List Text) :
    joinGroups ((t ++ u) :: outer) = joinGroups (t :: outer) ++ u := by
  cases outer <;> simp [joinGroups]

/-- The line as far as it is read has this many open groups in it, and could be read on to an
expression. -/
def ReadsOn (depth : Nat) (due : Bool) (read : Text) : Prop :=
  ∃ pieces, Nested due pieces ∧ pieces.length = depth + 1 ∧ joinGroups pieces = read

namespace ReadsOn

variable {depth : Nat} {read t : Text}

theorem nil : ReadsOn 0 true [] := ⟨[[]], ⟨Unfinished.nil, by simp⟩, rfl, rfl⟩

theorem atom (h : ReadsOn depth true read) (ht : Derives 5 t) :
    ReadsOn depth false (read ++ t) := by
  obtain ⟨_ | ⟨piece, outer⟩, hnested, hlength, rfl⟩ := h
  · cases hnested
  · exact ⟨(piece ++ t) :: outer, ⟨hnested.1.atom ht, hnested.2⟩, hlength, joinGroups_append _ _ _⟩

theorem sign (h : ReadsOn depth true read) {c : Char} (hc : isSign c = true) :
    ReadsOn depth true (read ++ [c]) := by
  obtain ⟨_ | ⟨piece, outer⟩, hnested, hlength, rfl⟩ := h
  · cases hnested
  · exact ⟨(piece ++ [c]) :: outer, ⟨hnested.1.sign hc, hnested.2⟩, hlength,
      joinGroups_append _ _ _⟩

theorem operator (h : ReadsOn depth false read) (op : BinOp) :
    ReadsOn depth true (read ++ [op.symbol]) := by
  obtain ⟨_ | ⟨piece, outer⟩, hnested, hlength, rfl⟩ := h
  · cases hnested
  · exact ⟨(piece ++ [op.symbol]) :: outer, ⟨.operator hnested.1 op, hnested.2⟩, hlength,
      joinGroups_append _ _ _⟩

theorem opening (h : ReadsOn depth true read) : ReadsOn (depth + 1) true (read ++ ['(']) := by
  obtain ⟨_ | ⟨piece, outer⟩, hnested, hlength, rfl⟩ := h
  · cases hnested
  · refine ⟨[] :: piece :: outer, ⟨Unfinished.nil, ?_⟩, by simpa using hlength, rfl⟩
    intro s hs
    rcases List.mem_cons.mp hs with rfl | hs
    · exact hnested.1
    · exact hnested.2 s hs

/-- The innermost group is complete: with its parentheses it is an operand of the piece
around it. -/
theorem closing (h : ReadsOn (depth + 1) false read) : ReadsOn depth false (read ++ [')']) := by
  obtain ⟨_ | ⟨piece, _ | ⟨around, outer⟩⟩, hnested, hlength, rfl⟩ := h
  · cases hnested
  · cases hlength
  · have hgroup : Derives 5 ('(' :: piece ++ [')']) := Derives.group hnested.1
    refine ⟨(around ++ ('(' :: piece ++ [')'])) :: outer, ⟨?_, ?_⟩, by simpa using hlength, ?_⟩
    · exact (hnested.2 around List.mem_cons_self).atom hgroup
    · exact fun s hs => hnested.2 s (List.mem_cons_of_mem _ hs)
    · rw [joinGroups_append]
      simp [joinGroups]

/-- A line without an open group that no operand is due in is an expression. -/
theorem derives (h : ReadsOn 0 false read) : Derives 1 read := by
  obtain ⟨_ | ⟨piece, _ | ⟨around, outer⟩⟩, hnested, hlength, rfl⟩ := h
  · cases hnested
  · exact hnested.1
  · simp at hlength

end ReadsOn

end Abacus
