-- The tokens that are kept: the conversion puts out each operand and each
-- operator that it reads, once and on its own place. Only parentheses and the
-- plus in front of an operand are left out, and the minus in front of an
-- operand becomes an operator of its own.
import Abacus.Proofs.Acceptance
import Abacus.Proofs.Parentheses
import Mathlib.Data.List.Nodup
import Mathlib.Data.List.Perm.Basic

namespace Abacus

/-! ## What is kept of a line -/

namespace Token

/-- An operand is due behind these tokens: they are none, or the last of them is an opening
parenthesis or an operator. A plus or minus is a sign there. -/
def due (before : List Token) : Bool := before.getLast?.all fun t => !t.what.ends

/-- The token belongs to the postfix form of the line. A star, a slash or a caret is an operator
with two sides wherever it stands; a plus or minus is one where no operand is due. -/
inductive Kept (line : Text) : Token → Prop
  | operand {before after : List Token} {run : Text} {span : Span}
      (read : ofLine line = before ++ ⟨.operand run, span⟩ :: after) :
      Kept line ⟨.operand run, span⟩
  | operator {before after : List Token} {op : BinOp} {span : Span}
      (read : ofLine line = before ++ ⟨.operator (.binary op), span⟩ :: after)
      (between : op = .add ∨ op = .sub → due before = false) :
      Kept line ⟨.operator (.binary op), span⟩
  | minus {before after : List Token} {span : Span}
      (read : ofLine line = before ++ ⟨.operator (.binary .sub), span⟩ :: after)
      (leads : due before = true) : Kept line ⟨.operator .neg, span⟩

theorem due_concat (before : List Token) (t : Token) : due (before ++ [t]) = !t.what.ends := by
  simp [due]

end Token

/-- What is put out for a lexeme. Of a sign it depends on whether an operand is due. -/
def Lexeme.kept (due : Bool) : Lexeme → Option Lexeme
  | operator .lparen | operator .rparen => none
  | operator (.binary .add) => if due then none else some (operator (.binary .add))
  | operator (.binary .sub) => some (operator (if due then .neg else .binary .sub))
  | l => some l

theorem Lexeme.kept_binary {op : BinOp} {due : Bool}
    (between : op = .add ∨ op = .sub → due = false) :
    (operator (.binary op)).kept due = some (operator (.binary op)) := by
  cases op with
  | add | sub => simp [kept, between]
  | mul | div | pow => rfl

namespace Token

/-- What is put out for a token, on the place of the token. -/
def kept? (due : Bool) (t : Token) : Option Token := (t.what.kept due).map (⟨·, t.span⟩)

/-- What is put out for the tokens, in the order in which they are read. -/
def kept (due : Bool) : List Token → List Token
  | [] => []
  | t :: rest => (t.kept? due).toList ++ kept (!t.what.ends) rest

theorem span_of_kept? {due : Bool} {t u : Token} (h : t.kept? due = some u) : u.span = t.span := by
  obtain ⟨l, _, rfl⟩ := Option.map_eq_some_iff.mp h
  rfl

/-- A token that is put out comes from one that was read, and from what it stands behind. -/
theorem mem_kept_iff (front tokens : List Token) (t : Token) :
    t ∈ kept (due front) tokens ↔
      ∃ before u after, tokens = before ++ u :: after ∧
        u.kept? (due (front ++ before)) = some t := by
  induction tokens generalizing front with
  | nil => simp [kept]
  | cons v rest ih =>
    rw [kept, List.mem_append, Option.mem_toList, ← due_concat front v, ih]
    constructor
    · rintro (h | ⟨before, u, after, rfl, h⟩)
      · exact ⟨[], v, rest, rfl, by rwa [List.append_nil]⟩
      · exact ⟨v :: before, u, after, rfl, by rwa [List.append_cons]⟩
    · rintro ⟨before, u, after, hsplit, h⟩
      rcases before with _ | ⟨w, before⟩
      · obtain ⟨rfl, rfl⟩ := List.cons.inj hsplit
        exact Or.inl (by rwa [List.append_nil] at h)
      · obtain ⟨rfl, rfl⟩ := List.cons.inj hsplit
        exact Or.inr ⟨before, u, after, rfl, by rwa [List.append_cons] at h⟩

theorem mem_kept_ofLine_iff {line : Text} {t : Token} :
    t ∈ kept true (ofLine line) ↔ Kept line t := by
  refine (mem_kept_iff [] (ofLine line) t).trans ?_
  constructor
  · rintro ⟨before, ⟨what, span⟩, after, read, h⟩
    obtain ⟨l, hl, rfl⟩ := Option.map_eq_some_iff.mp h
    rw [List.nil_append] at hl
    rcases what with run | (op | _ | _ | _)
    · cases hl
      exact .operand read
    · cases hdue : due before with
      | true =>
        rw [hdue] at hl
        cases op with
        | add => cases hl
        | sub =>
          cases hl
          exact .minus read hdue
        | mul | div | pow =>
          cases hl
          exact .operator read (by simp)
      | false =>
        rw [hdue, Lexeme.kept_binary fun _ => rfl] at hl
        cases hl
        exact .operator read fun _ => hdue
    · cases hl
    · cases hl
    · have hmem : (⟨.operator .neg, span⟩ : Token) ∈ ofLine line := by simp [read]
      exact absurd rfl (Lexeme.ne_of_mem_ofLine (what_mem_ofLine hmem)).2
  · rintro (⟨read⟩ | ⟨read, between⟩ | ⟨read, leads⟩)
    · exact ⟨_, _, _, read, rfl⟩
    · refine ⟨_, _, _, read, ?_⟩
      rw [List.nil_append, kept?, Lexeme.kept_binary between]
      rfl
    · refine ⟨_, _, _, read, ?_⟩
      rw [List.nil_append, leads]
      rfl

/-! ## No place twice -/

theorem map_span_kept_sublist (due : Bool) (tokens : List Token) :
    ((kept due tokens).map (·.span)).Sublist (tokens.map (·.span)) := by
  induction tokens generalizing due with
  | nil => exact List.Sublist.refl []
  | cons t rest ih =>
    rw [kept, List.map_append, List.map_cons]
    rcases h : t.kept? due with _ | u
    · exact (ih _).cons _
    · rw [Option.toList_some, List.map_singleton, span_of_kept? h, List.singleton_append]
      exact (ih _).cons_cons _

/-- Of lexemes that are not empty, no two stand on one place. -/
theorem nodup_span_place {ls : List Lexeme} (nonempty : ∀ l ∈ ls, l.text ≠ []) (start : Nat) :
    ((place start ls).map (·.span)).Nodup := by
  induction ls generalizing start with
  | nil => exact List.nodup_nil
  | cons l rest ih =>
    rw [place, List.map_cons, List.nodup_cons]
    refine ⟨?_, ih (fun m hm => nonempty m (List.mem_cons_of_mem l hm)) _⟩
    intro hmem
    obtain ⟨t, ht, hspan⟩ := List.mem_map.mp hmem
    obtain ⟨_, _, _, hstart, _⟩ := exists_of_mem_place ht
    have hpos := Text.byteLength_pos (nonempty l List.mem_cons_self)
    rw [hspan] at hstart
    dsimp only at hstart
    omega

theorem nodup_span_ofLine (line : Text) : ((ofLine line).map (·.span)).Nodup :=
  nodup_span_place (fun _ hl => text_ne_nil_of_mem_ofLine hl) 0

end Token

/-! ## In the conversion -/

namespace Conversion

/-- What was put out, and what waits to be. -/
def held (c : Conversion) : List Token :=
  (c.pending.filter (!opens ·)).map token ++ c.output

variable {c c' : Conversion} {t : Token}

/-- Operators that leave for the output are still held. -/
theorem perm_emit {ops : List (Placed Op)} (closed : ∀ op ∈ ops, op.what ≠ .lparen)
    (rest : List (Placed Op)) (output : List Token) :
    ((rest.filter (!opens ·)).map token ++ emit ops output).Perm
      (((ops ++ rest).filter (!opens ·)).map token ++ output) := by
  have hops : ops.filter (!opens ·) = ops := by
    rw [List.filter_eq_self]
    intro op hop
    rw [Bool.not_eq_true', ← Bool.not_eq_true, opens_iff]
    exact closed op hop
  rw [List.filter_append, hops, List.map_append, emit, ← List.append_assoc]
  refine List.Perm.append_right output ?_
  exact ((List.reverse_perm _).append_left _).trans List.perm_append_comm

/-- The step: what is held grows by what is put out for the token. -/
theorem Move.held_perm (h : Move c t c') :
    c'.held.Perm ((t.kept? c.expectsOperand).toList ++ c.held) := by
  cases h with
  | operand text span => exact List.perm_middle
  | opening span =>
    unfold held
    rw [List.filter_cons_of_neg (by simp [opens])]
    exact List.Perm.refl _
  | @closing span place inner outer split closed =>
    have h := perm_emit closed (⟨.lparen, place⟩ :: outer) c.output
    rw [List.filter_cons_of_neg (by simp [opens]), ← split] at h
    exact h
  | plus span expects =>
    rw [expects]
    exact List.Perm.refl _
  | minus span expects =>
    unfold held
    rw [expects, List.filter_cons_of_pos (by simp [opens])]
    exact List.Perm.refl _
  | @between op span tight rest unsigned parens split binds loose =>
    have hkept : Lexeme.kept c.expectsOperand (.operator op) = some (.operator op) := by
      cases op with
      | lparen => exact absurd rfl parens.1
      | rparen => exact absurd rfl parens.2
      | neg => rfl
      | binary op =>
        apply Lexeme.kept_binary
        rintro (rfl | rfl) <;> simpa [Op.isSign] using unsigned
    have htight : ∀ o ∈ tight, o.what ≠ .lparen :=
      fun o ho => ne_lparen_of_rank_le parens (binds o ho)
    have h := perm_emit htight rest c.output
    rw [← split] at h
    unfold held
    rw [Token.kept?, hkept, List.filter_cons_of_pos (by simpa [opens] using parens.1)]
    exact h.cons _

/-- The run: what is held grows by all that is put out for the tokens. -/
theorem held_perm_of_foldlM {tokens : List Token} (h : tokens.foldlM step c = .ok c') :
    c'.held.Perm (Token.kept c.expectsOperand tokens ++ c.held) := by
  induction tokens generalizing c with
  | nil =>
    cases h
    exact List.Perm.refl _
  | cons t rest ih =>
    obtain ⟨d, hmove, hrest⟩ := exists_move_of_foldlM_cons h
    have hd := (ih hrest).trans (hmove.held_perm.append_left _)
    rw [hmove.expectsOperand_eq] at hd
    rw [Token.kept, List.append_assoc]
    exact hd.trans (List.perm_append_comm_assoc _ _ _)

end Conversion

/-- The postfix form of a line is what is kept of it, in another order. -/
theorem Postfix.perm_kept {line : Text} {out : List Token} (h : ofLine line = .ok out) :
    out.Perm (Token.kept true (Token.ofLine line)) := by
  obtain ⟨c, hfold, hfinish⟩ := Conversion.ofTokens_eq_ok h
  obtain ⟨hclosed, rfl⟩ := Conversion.finish_eq_ok hfinish
  have hemit := Conversion.perm_emit hclosed [] c.output
  rw [List.append_nil] at hemit
  have hheld := Conversion.held_perm_of_foldlM hfold
  rw [show Conversion.held {} = [] from rfl, List.append_nil] at hheld
  exact (List.reverse_perm _).trans (hemit.trans hheld)

/-! ## The law -/

/-- A text is converted just when its parentheses are balanced. Otherwise the expression is
invalid at the first closing parenthesis that has no opening one before it, or, where there
is none, at the last opening one that is never closed. What is converted holds the operands
of the text in their order; it holds the tokens that belong to the postfix form and no other,
and no two of them on one place. -/
theorem the_conversion_keeps_all_it_reads (line : Text) :
    ((∃ fault, Postfix.ofLine line = .error fault) ↔ ¬line.Balanced) ∧
    (∀ fault, Postfix.ofLine line = .error fault →
      fault.kind = .invalidExpression ∧ fault.span = Span.single fault.span.start ∧
      (line.FirstUnmatched fault.span.start ∨
        line.Covered ∧ line.LastUnclosed fault.span.start)) ∧
    ∀ out, Postfix.ofLine line = .ok out →
      LineShape.operands out = LineShape.operands (Token.ofLine line) ∧
      (∀ t, t ∈ out ↔ Token.Kept line t) ∧ (out.map (·.span)).Nodup := by
  refine ⟨?_, ?_, ?_⟩
  · rcases Postfix.ofLine_parentheses line with ⟨hbalanced, out, hout⟩ | ⟨hnot, _, _, hfault, _⟩
    · exact iff_of_false (by rintro ⟨fault, hfault⟩; rw [hout] at hfault; cases hfault)
        (not_not_intro hbalanced)
    · exact iff_of_true ⟨_, hfault⟩ hnot
  · intro fault hfault
    rcases Postfix.ofLine_parentheses line with
      ⟨_, out, hout⟩ | ⟨_, cause, place, herror, hplace, hwhere⟩
    · rw [hout] at hfault
      cases hfault
    · rw [herror] at hfault
      cases hfault
      rcases hwhere with ⟨rfl, hfirst⟩ | ⟨rfl, hlast⟩
      · exact ⟨rfl, hplace, Or.inl hfirst⟩
      · exact ⟨rfl, hplace, Or.inr hlast⟩
  · intro out hout
    have hperm := Postfix.perm_kept hout
    refine ⟨Postfix.operands_ofTokens hout, ?_, ?_⟩
    · intro t
      rw [hperm.mem_iff, Token.mem_kept_ofLine_iff]
    · have hkept := (Token.nodup_span_ofLine line).sublist (Token.map_span_kept_sublist true _)
      exact (hperm.map _).nodup_iff.mpr hkept

/-- Of `2*-(+x)` four tokens are kept: the operands, the star and the minus. The parentheses of
`)(` are blamed. -/
theorem four_tokens_are_kept_of_two_times_minus_x :
    (∃ out, Postfix.ofLine "2*-(+x)".toList = .ok out ∧ out.length = 4 ∧
      ∀ t, t ∈ out ↔ Token.Kept "2*-(+x)".toList t) ∧
    ∃ fault, Postfix.ofLine ")(".toList = .error fault ∧ ¬Text.Balanced ")(".toList := by
  obtain ⟨-, -, hkept⟩ := the_conversion_keeps_all_it_reads "2*-(+x)".toList
  obtain ⟨hfails, -, -⟩ := the_conversion_keeps_all_it_reads ")(".toList
  have hout : Postfix.ofLine "2*-(+x)".toList =
      .ok [⟨.operand ['2'], 0, 1⟩, ⟨.operand ['x'], 5, 6⟩, ⟨.operator .neg, 2, 3⟩,
        ⟨.operator (.binary .mul), 1, 2⟩] := by decide
  have hfault : Postfix.ofLine ")(".toList = .error ⟨.unmatched, 0, 1⟩ := by decide
  exact ⟨⟨_, hout, rfl, (hkept _ hout).2.1⟩, _, hfault, hfails.mp ⟨_, hfault⟩⟩

end Abacus
