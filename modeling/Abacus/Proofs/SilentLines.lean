-- Lines that are answered in silence, and branches that no line takes. No
-- parenthesis is left when an expression is evaluated, an expression always
-- has tokens and leaves a value, and a literal always has one. So silence says
-- that a name has a new value, and nothing else.
import Abacus.Proofs.FailedSteps
import Abacus.Proofs.StackTrees

namespace Abacus

/-! ## Where a run of steps fails -/

/-- Of steps that fail in turn, one fails on what the steps before it left. -/
theorem Except.exists_of_foldlM_eq_error {ε α β : Type} {f : β → α → Except ε β} {items : List α}
    {b : β} {e : ε} (h : items.foldlM f b = .error e) : ∃ b', ∃ a ∈ items, f b' a = .error e := by
  induction items generalizing b with
  | nil => cases h
  | cons a rest ih =>
    rw [List.foldlM_cons] at h
    rcases Except.bind_eq_error_iff.mp h with h | ⟨b', _, h⟩
    · exact ⟨b, a, List.mem_cons_self, h⟩
    · obtain ⟨b'', a', hmem, h⟩ := ih h
      exact ⟨b'', a', List.mem_cons_of_mem _ hmem, h⟩

/-! ## Doubled operators -/

theorem Text.firstPair_eq_none_iff_not_doubled (c : Char) (start : Nat) (t : Text) :
    t.firstPair c start = none ↔ ¬[c, c] <:+: t := by
  rw [firstPair_eq_none_iff, Undoubled, List.isChain_iff_forall_rel_of_append_cons_cons]
  constructor
  · rintro h ⟨before, after, rfl⟩
    have hsplit : before ++ [c, c] ++ after = before ++ c :: c :: after := by simp
    exact h hsplit ⟨rfl, rfl⟩
  · rintro h a b before after rfl ⟨rfl, rfl⟩
    exact h ⟨before, after, by simp⟩

theorem Session.refuseDoubled_eq_ok_iff {line : Text} :
    refuseDoubled line = .ok () ↔ ¬['*', '*'] <:+: line ∧ ¬['/', '/'] <:+: line := by
  rw [← Text.firstPair_eq_none_iff_not_doubled '*' 0,
    ← Text.firstPair_eq_none_iff_not_doubled '/' 0]
  unfold refuseDoubled
  rcases line.firstPair '*' 0 with _ | _ <;> rcases line.firstPair '/' 0 with _ | _ <;> simp

/-! ## Faults before the evaluation -/

theorem Session.kind_of_refuseDoubled {line : Text} {fault : Fault}
    (h : refuseDoubled line = .error fault) : fault.kind = .invalidExpression := by
  unfold refuseDoubled at h
  split at h <;> cases h
  rfl

theorem LineShape.kind_of_ofLine {line : Text} {fault : Fault} (h : ofLine line = .error fault) :
    fault.kind = .invalidIdentifier ∨ fault.kind = .invalidAssignment := by
  rcases ofLine_cases line with ⟨_, hof⟩ | ⟨left, right, _, _, hof⟩ <;> rw [hof] at h
  · unfold ofFormula at h
    dsimp only at h
    repeat' split at h
    all_goals cases h
    all_goals exact Or.inl rfl
  · unfold ofEquation at h
    dsimp only at h
    repeat' split at h
    all_goals cases h
    all_goals exact Or.inr rfl

theorem Postfix.kind_of_ofLine {line : Text} {fault : Fault} (h : ofLine line = .error fault) :
    fault.kind = .invalidExpression := by
  rcases ofLine_parentheses line with ⟨_, out, hout⟩ | ⟨_, cause, place, hfault, _, hcause⟩
  · rw [hout] at h
    cases h
  · rw [hfault] at h
    cases h
    rcases hcause with ⟨rfl, _⟩ | ⟨rfl, _⟩ <;> rfl

/-! ## No parenthesis is evaluated -/

/-- The lexeme is a parenthesis. -/
def Lexeme.isParenthesis : Lexeme → Bool
  | operator .lparen | operator .rparen => true
  | _ => false

theorem Postfix.not_isParenthesis {line : Text} {tokens : List Token}
    (h : ofLine line = .ok tokens) : ∀ t ∈ tokens, t.what.isParenthesis = false := by
  intro t ht
  have hkept := Token.mem_kept_ofLine_iff.mp ((perm_kept h).mem_iff.mp ht)
  cases hkept <;> rfl

theorem BinOp.kind_of_apply {op : BinOp} {limits : Limits} {place : Span}
    {left right : Placed Int} {fault : Fault}
    (h : op.apply limits place left right = .error fault) :
    fault.kind = .divisionByZero ∨ fault.kind = .arithmeticRange := by
  cases op with
  | add | sub | mul => cases h
  | div =>
    obtain ⟨_, rfl⟩ := quotient_eq_error_iff.mp h
    exact Or.inl rfl
  | pow => rcases power_eq_error_iff.mp h with ⟨_, rfl⟩ | ⟨_, _, rfl⟩ <;> exact Or.inr rfl

namespace Stack

variable {limits : Limits} {store : Store} {stack stack' : Stack} {t : Token} {fault : Fault}

/-- Only a parenthesis can be an unknown operator. -/
theorem kind_of_step (h : step limits store stack t = .error fault)
    (plain : t.what.isParenthesis = false) : fault.kind ≠ .unknownOperator := by
  obtain ⟨what, span⟩ := t
  rcases what with text | (op | _ | _ | _)
  · rw [step_operand] at h
    rcases hresolve : Operand.resolve store ⟨text, span⟩ with fault' | n <;> rw [hresolve] at h <;>
      cases h
    obtain ⟨_, _, rfl⟩ := Operand.resolve_eq_error_iff.mp hresolve
    simp [Fault.kind, Cause.kind]
  · rcases stack with _ | ⟨right, _ | ⟨left, rest⟩⟩
    · cases h
      simp [Fault.kind, Cause.kind]
    · cases h
      simp [Fault.kind, Cause.kind]
    · rw [step_binary] at h
      rcases happly : op.apply limits span left right with fault' | n <;> rw [happly] at h <;>
        cases h
      rcases BinOp.kind_of_apply happly with h | h <;> rw [h] <;> decide
  · cases plain
  · cases plain
  · rcases stack with _ | ⟨value, rest⟩ <;> cases h
    simp [Fault.kind, Cause.kind]

theorem ne_nil_of_move (h : Move limits store stack t stack') : stack' ≠ [] := by
  cases h <;> exact List.cons_ne_nil _ _

/-- The last token leaves a value, whatever the ones before it left. -/
theorem ne_nil_of_foldlM {tokens : List Token} (nonempty : tokens ≠ [])
    (h : tokens.foldlM (step limits store) stack = .ok stack') : stack' ≠ [] := by
  rcases List.eq_nil_or_concat' tokens with rfl | ⟨front, last, rfl⟩
  · exact absurd rfl nonempty
  · obtain ⟨middle, _, move⟩ := exists_move_of_foldlM_concat h
    exact ne_nil_of_move move

theorem kind_of_result (h : result stack = .error fault) : fault.kind = .invalidExpression := by
  unfold result at h
  split at h <;> cases h <;> rfl

end Stack

theorem kind_of_evaluate {limits : Limits} {store : Store} {tokens : List Token} {fault : Fault}
    (h : evaluate limits store tokens = .error fault)
    (plain : ∀ t ∈ tokens, t.what.isParenthesis = false) : fault.kind ≠ .unknownOperator := by
  rcases Except.bind_eq_error_iff.mp h with h | ⟨stack, _, h⟩
  · obtain ⟨stack, t, ht, h⟩ := Except.exists_of_foldlM_eq_error h
    exact Stack.kind_of_step h (plain t ht)
  · rw [Stack.kind_of_result h]
    decide

/-! ## Lines that fail -/

theorem LineShape.exists_resolve_of_assignment {line name : Text} {literal : Placed Text}
    (h : ofLine line = .ok (.assignment name literal)) (store : Store) :
    ∃ n, Operand.resolve store literal = .ok n := by
  obtain ⟨_, _, hliteral⟩ := of_assignment h
  obtain ⟨n, hn⟩ := Option.isSome_iff_exists.mp hliteral
  unfold Operand.resolve
  rw [hn]
  exact ⟨n, rfl⟩

theorem Store.copy_eq_error_iff {store : Store} {name : Text} {source : Placed Text}
    {fault : Fault} :
    store.copy name source = .error fault ↔
      store.contains source.what = false ∧
        fault = ⟨.unknownVariable source.what, source.span⟩ := by
  unfold copy contains
  rcases store.get? source.what with _ | n
  · simp [eq_comm]
  · simp

namespace Session

variable {s : Session} {line : Text}

/-- All the ways in which a line can fail. An assignment that was told from its characters
cannot, and no expression comes to the evaluation without a token. -/
inductive Fails (s : Session) (line : Text) : Fault → Prop
  | doubled {fault : Fault} (refused : refuseDoubled line = .error fault) : Fails s line fault
  | shapeless {fault : Fault} (unread : LineShape.ofLine line = .error fault) : Fails s line fault
  | reference {name : Text} {source : Placed Text}
      (shape : LineShape.ofLine line = .ok (.reference name source))
      (unbound : s.store.contains source.what = false) :
      Fails s line ⟨.unknownVariable source.what, source.span⟩
  | value (shape : LineShape.ofLine line = .ok .value)
      (unbound : s.store.contains line = false) :
      Fails s line ⟨.unknownVariable line, LineShape.whole line⟩
  | unbalanced {fault : Fault} (shape : LineShape.ofLine line = .ok .expression)
      (order : Postfix.ofLine line = .error fault) : Fails s line fault
  | evaluation {tokens : List Token} {fault : Fault}
      (shape : LineShape.ofLine line = .ok .expression)
      (order : Postfix.ofLine line = .ok tokens) (nonempty : tokens ≠ [])
      (evaluates : evaluate s.limits s.store tokens = .error fault) : Fails s line fault

theorem fails_of_valueOf {fault : Fault} (shape : LineShape.ofLine line = .ok .expression)
    (h : s.valueOf line = .error fault) : s.Fails line fault := by
  rcases Except.bind_eq_error_iff.mp h with horder | ⟨tokens, horder, h⟩
  · exact .unbalanced shape horder
  · have hne := postfix_ne_nil shape horder
    rw [if_neg (by simpa using hne)] at h
    rcases Except.bind_eq_error_iff.mp h with h | ⟨_, _, h⟩
    · exact .evaluation shape horder hne h
    · cases h

theorem fails_of_perform {fault : Fault} (h : s.perform line = .error fault) :
    s.Fails line fault := by
  rcases Except.bind_eq_error_iff.mp h with h | ⟨_, _, h⟩
  · exact .doubled h
  rcases Except.bind_eq_error_iff.mp h with h | ⟨shape, hshape, h⟩
  · exact .shapeless h
  cases shape with
  | assignment name literal =>
    -- The shape was told from a literal, so the fault that could come here does not.
    obtain ⟨n, hn⟩ := LineShape.exists_resolve_of_assignment hshape s.store
    rcases Except.bind_eq_error_iff.mp h with h | ⟨_, _, h⟩
    · rw [hn] at h
      cases h
    · cases h
  | reference name source =>
    rcases Except.bind_eq_error_iff.mp h with h | ⟨_, _, h⟩
    · obtain ⟨hunbound, rfl⟩ := Store.copy_eq_error_iff.mp h
      exact .reference hshape hunbound
    · cases h
  | value =>
    rcases Except.bind_eq_error_iff.mp h with h | ⟨_, _, h⟩
    · obtain ⟨_, hunbound, rfl⟩ := Operand.resolve_eq_error_iff.mp h
      exact .value hshape (by rw [Store.contains, hunbound, Option.isSome_none])
    · cases h
  | expression =>
    rcases Except.bind_eq_error_iff.mp h with h | ⟨_, _, h⟩
    · exact fails_of_valueOf hshape h
    · cases h

theorem Fails.kind_ne {fault : Fault} (h : s.Fails line fault) : fault.kind ≠ .unknownOperator := by
  cases h with
  | doubled refused =>
    rw [kind_of_refuseDoubled refused]
    decide
  | shapeless unread => rcases LineShape.kind_of_ofLine unread with h | h <;> rw [h] <;> decide
  | reference | value => simp [Fault.kind, Cause.kind]
  | unbalanced shape order =>
    rw [Postfix.kind_of_ofLine order]
    decide
  | evaluation shape order nonempty evaluates =>
    exact kind_of_evaluate evaluates (Postfix.not_isParenthesis order)

end Session

/-! ## The law -/

/-- No line is told that it has an unknown operator: when an expression is evaluated, no
parenthesis is left. A line that counts as an expression has an operator, its postfix form has
tokens, and working them off leaves a value. The right side of an assignment always has a
value. So the lines that are answered in silence are those without a doubled star or slash that
give a literal to a name, or the value of a bound name. -/
theorem only_a_new_value_of_a_name_is_silent (s : Session) (line : Text) :
    (∀ fault, (s.execute line).1 = .failed fault → fault.kind ≠ .unknownOperator) ∧
    (∀ tokens, Postfix.ofLine line = .ok tokens → ∀ t ∈ tokens, t.what.isParenthesis = false) ∧
    (LineShape.ofLine line = .ok .expression →
      (∃ c ∈ line, isOperator c = true) ∧
      ∀ tokens, Postfix.ofLine line = .ok tokens → tokens ≠ [] ∧
        ∀ stack, tokens.foldlM (Stack.step s.limits s.store) [] = .ok stack → stack ≠ []) ∧
    (∀ name literal, LineShape.ofLine line = .ok (.assignment name literal) →
      ∃ n, Operand.resolve s.store literal = .ok n) ∧
    ((s.execute line).1 = .silent ↔
      ¬['*', '*'] <:+: line ∧ ¬['/', '/'] <:+: line ∧
        ((∃ name literal, LineShape.ofLine line = .ok (.assignment name literal)) ∨
          ∃ name source, LineShape.ofLine line = .ok (.reference name source) ∧
            s.store.contains source.what = true)) := by
  refine ⟨?_, ?_, ?_, ?_, ?_⟩
  · intro fault h
    exact (Session.fails_of_perform (Session.execute_failed_iff.mp h)).kind_ne
  · intro tokens h
    exact Postfix.not_isParenthesis h
  · intro shape
    refine ⟨List.any_eq_true.mp (LineShape.of_expression shape).1, ?_⟩
    intro tokens h
    have hne := Session.postfix_ne_nil shape h
    exact ⟨hne, fun stack hstack => Stack.ne_nil_of_foldlM hne hstack⟩
  · intro name literal shape
    exact LineShape.exists_resolve_of_assignment shape s.store
  · rw [Session.execute_silent_iff, ← and_assoc, ← Session.refuseDoubled_eq_ok_iff]
    constructor
    · rintro ⟨store, h⟩
      obtain ⟨hapart, hperforms⟩ := Session.perform_eq_ok_iff.mp h
      refine ⟨hapart, ?_⟩
      cases hperforms with
      | assignment shape denotes => exact Or.inl ⟨_, _, shape⟩
      | @reference name source value shape bound =>
        exact Or.inr ⟨name, source, shape, by rw [Store.contains, bound, Option.isSome_some]⟩
    · rintro ⟨hapart, ⟨name, literal, shape⟩ | ⟨name, source, shape, bound⟩⟩
      · obtain ⟨n, hn⟩ := LineShape.exists_resolve_of_assignment shape s.store
        exact ⟨_, Session.perform_eq_ok_iff.mpr ⟨hapart, .assignment shape hn⟩⟩
      · obtain ⟨n, hn⟩ := Option.isSome_iff_exists.mp bound
        exact ⟨_, Session.perform_eq_ok_iff.mpr ⟨hapart, .reference shape hn⟩⟩

/-- The line `b=a` is silent once `a` has a value, and not before. In `(1)(2)` the two values
are blamed, not the parentheses. -/
theorem a_copy_is_silent_when_its_source_is_bound :
    (Session.execute { store := Store.assign {} ['a'] 2 } "b=a".toList).1 = .silent ∧
      (Session.execute {} "b=a".toList).1 ≠ .silent ∧
      ∃ fault, (Session.execute {} "(1)(2)".toList).1 = .failed fault ∧
        fault.kind ≠ .unknownOperator := by
  let bound : Session := { store := Store.assign {} ['a'] 2 }
  have hshape : LineShape.ofLine "b=a".toList = .ok (.reference ['b'] ⟨['a'], 2, 3⟩) := by decide
  have hfailed : (Session.execute {} "(1)(2)".toList).1 = .failed ⟨.malformed, 4, 5⟩ := by decide
  obtain ⟨_, _, _, _, hbound⟩ := only_a_new_value_of_a_name_is_silent bound "b=a".toList
  obtain ⟨_, _, _, _, hunbound⟩ := only_a_new_value_of_a_name_is_silent {} "b=a".toList
  obtain ⟨hknown, _⟩ := only_a_new_value_of_a_name_is_silent {} "(1)(2)".toList
  refine ⟨?_, ?_, _, hfailed, hknown _ hfailed⟩
  · exact hbound.mpr ⟨by decide, by decide, Or.inr ⟨_, _, hshape, by decide⟩⟩
  · rw [ne_eq, hunbound, hshape]
    rintro ⟨_, _, ⟨_, _, h⟩ | ⟨_, _, h, hcontains⟩⟩
    · cases h
    · cases h
      cases hcontains

end Abacus
