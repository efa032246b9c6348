-- The moves of the conversion: all that one token can do to it. Each law of
-- the postfix order looks at the moves, and none at the step itself.
import Abacus.Postfix
import Mathlib.Data.List.TakeWhile

namespace Abacus.Conversion

/-- The conversion goes on with a token. -/
inductive Move (c : Conversion) : Token → Conversion → Prop
  /-- An operand is put out at once. -/
  | operand (text : Text) (span : Span) :
      Move c ⟨.operand text, span⟩
        { c with output := ⟨.operand text, span⟩ :: c.output, expectsOperand := false }
  /-- An opening parenthesis waits. -/
  | opening (span : Span) :
      Move c ⟨.operator .lparen, span⟩
        { c with pending := ⟨.lparen, span⟩ :: c.pending, expectsOperand := true }
  /-- A closing parenthesis puts out all that waits since the newest opening one. -/
  | closing (span place : Span) {inner outer : List (Placed Op)}
      (split : c.pending = inner ++ ⟨.lparen, place⟩ :: outer)
      (closed : ∀ op ∈ inner, op.what ≠ .lparen) :
      Move c ⟨.operator .rparen, span⟩ ⟨emit inner c.output, outer, false⟩
  /-- A plus in front of an operand does nothing. -/
  | plus (span : Span) (expects : c.expectsOperand = true) :
      Move c ⟨.operator (.binary .add), span⟩ c
  /-- A minus in front of an operand waits for it. -/
  | minus (span : Span) (expects : c.expectsOperand = true) :
      Move c ⟨.operator (.binary .sub), span⟩ ⟨c.output, ⟨.neg, span⟩ :: c.pending, true⟩
  /-- An operator puts out all that binds at least as tightly as it does, and waits. -/
  | between (op : Op) (span : Span) {tight rest : List (Placed Op)}
      (unsigned : (c.expectsOperand && op.isSign) = false)
      (parens : op ≠ .lparen ∧ op ≠ .rparen)
      (split : c.pending = tight ++ rest)
      (binds : ∀ o ∈ tight, op.rank ≤ o.what.rank)
      (loose : ∀ o ∈ rest.head?, o.what.rank < op.rank) :
      Move c ⟨.operator op, span⟩ ⟨emit tight c.output, ⟨op, span⟩ :: rest, true⟩

/-! ## Operators that leave -/

@[simp] theorem emit_nil (output : List Token) : emit [] output = output := rfl

theorem emit_append (first second : List (Placed Op)) (output : List Token) :
    emit (first ++ second) output = emit second (emit first output) := by
  simp [emit]

theorem emit_cons (op : Placed Op) (ops : List (Placed Op)) (output : List Token) :
    emit (op :: ops) output = emit ops (token op :: output) := by
  simp [emit]

/-! ## The step -/

variable {c c' : Conversion} {t : Token}

theorem opens_iff {op : Placed Op} : opens op = true ↔ op.what = .lparen := by
  unfold opens
  rw [decide_eq_true_eq]

theorem bindsAt_iff {rank : Nat} {op : Placed Op} : bindsAt rank op = true ↔ rank ≤ op.what.rank := by
  unfold bindsAt
  rw [decide_eq_true_eq]

/-- Operators without an opening parenthesis change nothing about those that wait. -/
theorem filter_opens_append {ops : List (Placed Op)} (h : ∀ op ∈ ops, op.what ≠ .lparen)
    (rest : List (Placed Op)) : (ops ++ rest).filter opens = rest.filter opens := by
  have hnone : ops.filter opens = [] :=
    List.filter_eq_nil_iff.mpr fun op hop hopens => h op hop (opens_iff.mp hopens)
  rw [List.filter_append, hnone, List.nil_append]

/-- A parenthesis binds less tightly than all that is none. -/
theorem ne_lparen_of_rank_le {op o : Op} (parens : op ≠ .lparen ∧ op ≠ .rparen)
    (h : op.rank ≤ o.rank) : o ≠ .lparen := by
  rintro rfl
  cases op with
  | lparen => exact parens.1 rfl
  | rparen => exact parens.2 rfl
  | neg => exact absurd h (by decide)
  | binary op => cases op <;> exact absurd h (by decide)

theorem close_eq_of_split {place : Span} {span : Span} {inner outer : List (Placed Op)}
    (split : c.pending = inner ++ ⟨.lparen, place⟩ :: outer)
    (closed : ∀ op ∈ inner, op.what ≠ .lparen) :
    c.close span = .ok ⟨emit inner c.output, outer, false⟩ := by
  have hin : ∀ op ∈ inner, (!opens op) = true := by
    intro op hop
    rw [Bool.not_eq_true', ← Bool.not_eq_true, opens_iff]
    exact closed op hop
  unfold close
  rw [split, List.dropWhile_append_of_pos hin, List.takeWhile_append_of_pos hin]
  simp [opens]

theorem between_eq_of_split (op : Placed Op) {tight rest : List (Placed Op)}
    (split : c.pending = tight ++ rest) (binds : ∀ o ∈ tight, op.what.rank ≤ o.what.rank)
    (loose : ∀ o ∈ rest.head?, o.what.rank < op.what.rank) :
    c.between op = ⟨emit tight c.output, op :: rest, true⟩ := by
  have htight : ∀ o ∈ tight, bindsAt op.what.rank o = true :=
    fun o ho => bindsAt_iff.mpr (binds o ho)
  unfold between
  rw [split, List.dropWhile_append_of_pos htight, List.takeWhile_append_of_pos htight]
  rcases rest with _ | ⟨o, rest⟩
  · simp
  · have ho : bindsAt op.what.rank o = false := by
      rw [← Bool.not_eq_true, bindsAt_iff, Nat.not_le]
      exact loose o rfl
    simp [ho]

theorem Move.step_eq (h : Move c t c') : c.step t = .ok c' := by
  cases h with
  | operand | opening => rfl
  | closing _ _ split closed => exact close_eq_of_split split closed
  | plus _ expects => simp [step, expects, Op.isSign, sign]
  | minus _ expects => simp [step, expects, Op.isSign, sign]
  | between op span unsigned parens split binds loose =>
    rw [← between_eq_of_split ⟨op, span⟩ split binds loose]
    cases op with
    | lparen => exact absurd rfl parens.1
    | rparen => exact absurd rfl parens.2
    | binary op | neg => simp [step, unsigned]

theorem move_of_close {span : Span} (h : c.close span = .ok c') :
    Move c ⟨.operator .rparen, span⟩ c' := by
  unfold close at h
  split at h
  · cases h
  · rename_i opening outer hdrop
    cases h
    have hopen : opens opening = true := by
      have hnot := List.head?_dropWhile_not (!opens ·) c.pending
      rw [hdrop] at hnot
      simpa using hnot
    obtain ⟨what, place⟩ := opening
    cases opens_iff.mp hopen
    refine .closing span place ?_ ?_
    · rw [← hdrop, List.takeWhile_append_dropWhile]
    · intro op hop
      have := List.mem_takeWhile_imp hop
      simpa [opens] using this

theorem move_of_between {op : Op} {span : Span}
    (unsigned : (c.expectsOperand && op.isSign) = false) (parens : op ≠ .lparen ∧ op ≠ .rparen) :
    Move c ⟨.operator op, span⟩ (c.between ⟨op, span⟩) := by
  refine .between op span unsigned parens List.takeWhile_append_dropWhile.symm ?_ ?_
  · intro o ho
    exact bindsAt_iff.mp (List.mem_takeWhile_imp ho)
  · intro o ho
    have hnot := List.head?_dropWhile_not (bindsAt op.rank) c.pending
    rw [Option.mem_def] at ho
    rw [ho] at hnot
    simpa [bindsAt] using hnot

/-- A step that does not fail is a move. -/
theorem move_of_step (h : c.step t = .ok c') : Move c t c' := by
  obtain ⟨what, span⟩ := t
  rcases what with text | op
  · cases h
    exact .operand text span
  · by_cases hsign : (c.expectsOperand && op.isSign) = true
    · obtain ⟨expects, hop⟩ := Bool.and_eq_true_iff.mp hsign
      rcases op with (_ | _ | _ | _ | _) | _ | _ | _ <;> cases hop
      · simp only [step, expects, Op.isSign, Bool.and_self, if_true, sign] at h
        cases h
        exact .plus span expects
      · simp only [step, expects, Op.isSign, Bool.and_self, if_true, sign] at h
        cases h
        exact .minus span expects
    · rw [Bool.not_eq_true] at hsign
      cases op with
      | lparen =>
        cases h
        exact .opening span
      | rparen => exact move_of_close h
      | binary op | neg =>
        simp only [step, hsign] at h
        cases h
        exact move_of_between hsign (by simp)

/-! ## Many steps -/

theorem foldlM_cons_of_move (h : Move c t c') (rest : List Token) :
    (t :: rest).foldlM step c = rest.foldlM step c' := by
  rw [List.foldlM_cons, h.step_eq]
  rfl

theorem foldlM_append_of_ok {tokens : List Token} (h : tokens.foldlM step c = .ok c')
    (rest : List Token) : (tokens ++ rest).foldlM step c = rest.foldlM step c' := by
  rw [List.foldlM_append, h]
  rfl

theorem exists_move_of_foldlM_cons {rest : List Token} {c'' : Conversion}
    (h : (t :: rest).foldlM step c = .ok c'') :
    ∃ c', Move c t c' ∧ rest.foldlM step c' = .ok c'' := by
  rw [List.foldlM_cons] at h
  rcases hs : c.step t with f | c' <;> rw [hs] at h
  · cases h
  · exact ⟨c', move_of_step hs, h⟩

theorem finish_eq_ok {out : List Token} (h : c.finish = .ok out) :
    (∀ op ∈ c.pending, op.what ≠ .lparen) ∧ out = (emit c.pending c.output).reverse := by
  unfold finish at h
  split at h
  · cases h
  · rename_i hfind
    cases h
    rw [List.find?_eq_none] at hfind
    exact ⟨fun op hop heq => hfind op hop (opens_iff.mpr heq), rfl⟩

theorem ofTokens_eq_ok {tokens out : List Token} (h : Postfix.ofTokens tokens = .ok out) :
    ∃ c : Conversion, tokens.foldlM step {} = .ok c ∧ c.finish = .ok out := by
  change (tokens.foldlM step {} >>= finish) = _ at h
  rcases hc : tokens.foldlM step {} with f | c <;> rw [hc] at h
  · cases h
  · exact ⟨c, rfl, h⟩

end Abacus.Conversion
