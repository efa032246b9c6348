-- The steps of a session: all that one line can do to it. A line either
-- leaves the session as it is, or binds one name.
import Abacus.Command
import Abacus.Proofs.LineShapes
import Abacus.Proofs.PostfixOperands

namespace Abacus

theorem Except.exists_of_bind_eq_ok {ε α β : Type} {x : Except ε α} {f : α → Except ε β} {b : β}
    (h : (x >>= f) = .ok b) : ∃ a, x = .ok a ∧ f a = .ok b := by
  cases x with
  | error e => cases h
  | ok a => exact ⟨a, rfl, h⟩

/-- The right side of an equation has this value now: it is a literal that denotes it, or a
name that is bound to it. -/
def Store.Gives (store : Store) (right : Text) (value : Int) : Prop :=
  Decimal.read? right = some value ∨
    (Operand.isName right = true ∧ store.get? right = some value)

namespace Session

variable {s : Session} {line : Text}

/-! ## One line in plain form -/

theorem gives_of_resolve {literal : Placed Text} {value : Int} (store : Store)
    (hlit : Decimal.isLiteral literal.what = true)
    (h : Operand.resolve store literal = .ok value) :
    Decimal.read? literal.what = some value := by
  unfold Decimal.isLiteral at hlit
  obtain ⟨n, hn⟩ := Option.isSome_iff_exists.mp hlit
  unfold Operand.resolve at h
  rw [hn] at h
  cases h
  exact hn

theorem get?_of_copy {store store' : Store} {name : Text} {source : Placed Text}
    (h : store.copy name source = .ok store') :
    ∃ value, store.get? source.what = some value ∧ store' = store.assign name value := by
  unfold Store.copy at h
  split at h
  · rename_i value hvalue
    cases h
    exact ⟨value, hvalue, rfl⟩
  · cases h

/-- All that a line can come to when it succeeds: a value or none, and a store. -/
inductive Performs (s : Session) (line : Text) : Option Int → Store → Prop
  | assignment {name : Text} {literal : Placed Text} {value : Int}
      (shape : LineShape.ofLine line = .ok (.assignment name literal))
      (denotes : Operand.resolve s.store literal = .ok value) :
      Performs s line none (s.store.assign name value)
  | reference {name : Text} {source : Placed Text} {value : Int}
      (shape : LineShape.ofLine line = .ok (.reference name source))
      (bound : s.store.get? source.what = some value) :
      Performs s line none (s.store.assign name value)
  | value {value : Int} (shape : LineShape.ofLine line = .ok .value)
      (denotes : Operand.resolve s.store ⟨line, LineShape.whole line⟩ = .ok value) :
      Performs s line (some value) s.store
  | expression {tokens : List Token} {value : Int}
      (shape : LineShape.ofLine line = .ok .expression)
      (order : Postfix.ofLine line = .ok tokens)
      (evaluates : evaluate s.limits s.store tokens = .ok value) :
      Performs s line (some value) s.store

theorem perform_of_expression (h : LineShape.ofLine line = .ok .expression) :
    s.perform line =
      (refuseDoubled line >>= fun _ => s.valueOf line >>= fun value? => .ok (value?, s.store)) := by
  unfold perform
  rw [h]
  rfl

/-- The operands of an expression are tokens of its postfix form. -/
theorem postfix_ne_nil {tokens : List Token} (shape : LineShape.ofLine line = .ok .expression)
    (order : Postfix.ofLine line = .ok tokens) : tokens ≠ [] := by
  rintro rfl
  obtain ⟨run, hrun⟩ := (LineShape.of_expression shape).2.2
  obtain ⟨operand, hmem, _⟩ := LineShape.exists_mem_operands_iff.mpr hrun
  rw [← Postfix.operands_ofTokens order] at hmem
  cases hmem

/-- An expression is never answered in silence: its operands come out of the conversion. -/
theorem valueOf_eq_ok {value? : Option Int} (shape : LineShape.ofLine line = .ok .expression)
    (h : s.valueOf line = .ok value?) :
    ∃ tokens value, value? = some value ∧ Postfix.ofLine line = .ok tokens ∧
      evaluate s.limits s.store tokens = .ok value := by
  obtain ⟨tokens, hpost, h⟩ := Except.exists_of_bind_eq_ok h
  rw [if_neg (by simpa using postfix_ne_nil shape hpost)] at h
  obtain ⟨value, hvalue, h⟩ := Except.exists_of_bind_eq_ok h
  cases h
  exact ⟨tokens, value, rfl, hpost, hvalue⟩

theorem performs_of_perform {value? : Option Int} {store : Store}
    (h : s.perform line = .ok (value?, store)) : s.Performs line value? store := by
  obtain ⟨_, _, h⟩ := Except.exists_of_bind_eq_ok h
  obtain ⟨shape, hshape, h⟩ := Except.exists_of_bind_eq_ok h
  cases shape with
  | assignment name literal =>
    obtain ⟨value, hvalue, h⟩ := Except.exists_of_bind_eq_ok h
    cases h
    exact .assignment hshape hvalue
  | reference name source =>
    obtain ⟨store', hcopy, h⟩ := Except.exists_of_bind_eq_ok h
    obtain ⟨value, hvalue, rfl⟩ := get?_of_copy hcopy
    cases h
    exact .reference hshape hvalue
  | value =>
    obtain ⟨value, hvalue, h⟩ := Except.exists_of_bind_eq_ok h
    cases h
    exact .value hshape hvalue
  | expression =>
    obtain ⟨value?', hvalue, h⟩ := Except.exists_of_bind_eq_ok h
    obtain ⟨tokens, value, rfl, hpost, heval⟩ := valueOf_eq_ok hshape hvalue
    cases h
    exact .expression hshape hpost heval

/-- A line that can be performed is, unless a star or slash in it is doubled. -/
theorem perform_eq_ok_iff {value? : Option Int} {store : Store} :
    s.perform line = .ok (value?, store) ↔
      refuseDoubled line = .ok () ∧ s.Performs line value? store := by
  constructor
  · intro h
    obtain ⟨⟨⟩, hapart, _⟩ := Except.exists_of_bind_eq_ok h
    exact ⟨hapart, performs_of_perform h⟩
  · rintro ⟨hapart, hperforms⟩
    unfold perform
    rw [hapart]
    cases hperforms with
    | @assignment name literal value shape denotes =>
      rw [shape]
      change (Operand.resolve s.store literal >>= _) = _
      rw [denotes]
      rfl
    | @reference name source value shape bound =>
      rw [shape]
      change (s.store.copy name source >>= _) = _
      unfold Store.copy
      rw [bound]
      rfl
    | value shape denotes =>
      rw [shape]
      change (Operand.resolve s.store ⟨line, LineShape.whole line⟩ >>= _) = _
      rw [denotes]
      rfl
    | expression shape order evaluates =>
      rw [shape]
      change (s.valueOf line >>= _) = _
      unfold valueOf
      rw [order]
      dsimp only [bind, Except.bind]
      rw [if_neg (by simpa using postfix_ne_nil shape order), evaluates]

theorem execute_value_iff {value : Int} :
    (s.execute line).1 = .value value ↔ ∃ store, s.perform line = .ok (some value, store) := by
  unfold execute
  rcases s.perform line with fault | ⟨_ | value', store⟩ <;> simp

theorem execute_silent_iff :
    (s.execute line).1 = .silent ↔ ∃ store, s.perform line = .ok (none, store) := by
  unfold execute
  rcases s.perform line with fault | ⟨_ | value, store⟩ <;> simp

theorem execute_failed_iff {fault : Fault} :
    (s.execute line).1 = .failed fault ↔ s.perform line = .error fault := by
  unfold execute
  rcases s.perform line with fault' | ⟨_ | value, store⟩ <;> simp

theorem performs_of_execute {value : Int} (h : (s.execute line).1 = .value value) :
    s.Performs line (some value) s.store := by
  obtain ⟨store, hperform⟩ := execute_value_iff.mp h
  cases performs_of_perform hperform with
  | value shape denotes => exact .value shape denotes
  | expression shape order evaluates => exact .expression shape order evaluates

theorem perform_ne_none_of_expression {store : Store}
    (shape : LineShape.ofLine line = .ok .expression) : s.perform line ≠ .ok (none, store) := by
  intro h
  cases performs_of_perform h with
  | assignment other _ | reference other _ =>
    rw [shape] at other
    cases other

/-- A line with a value leaves the store as it is. -/
theorem Performs.store_eq {value : Int} {store : Store} (h : s.Performs line (some value) store) :
    store = s.store := by
  cases h <;> rfl

/-- A line without a value binds the name on its left. -/
theorem Performs.binds {store : Store} (h : s.Performs line none store) :
    ∃ name right value, line = name ++ '=' :: right ∧ Operand.isName name = true ∧
      s.store.Gives right value ∧ store = s.store.assign name value := by
  cases h with
  | @assignment name literal value shape denotes =>
    obtain ⟨hline, hname, hlit⟩ := LineShape.of_assignment shape
    have hgives := gives_of_resolve s.store hlit denotes
    exact ⟨name, literal.what, value, hline, hname, Or.inl hgives, rfl⟩
  | @reference name source value shape bound =>
    obtain ⟨hline, hname, hsource⟩ := LineShape.of_reference shape
    exact ⟨name, source.what, value, hline, hname, Or.inr ⟨hsource, bound⟩, rfl⟩

/-! ## Entries -/

end Session

/-- What is handed to a calculator: a line as it was typed, or a line that is taken as it is. -/
inductive Entry where
  | typed (raw : Text)
  | plain (line : Text)
  deriving DecidableEq, Repr

namespace Session

def enter (s : Session) : Entry → Action × Session
  | .typed raw => s.answer raw
  | .plain line => (.evaluated line (s.execute line).1, (s.execute line).2)

end Session

/-- The line that an entry hands to the calculator: none for a blank line or a command. -/
def Entry.line? : Entry → Option Text
  | typed raw =>
    match raw.trim with
    | [] => none
    | '/' :: _ => none
    | line => some (plainForm line)
  | plain line => some line

namespace Session

theorem answer_of_plain (s : Session) {raw : Text} (nonempty : raw.trim ≠ [])
    (plain : ∀ rest, raw.trim ≠ '/' :: rest) :
    s.answer raw = (.evaluated (plainForm raw.trim) (s.execute (plainForm raw.trim)).1,
      (s.execute (plainForm raw.trim)).2) := by
  unfold answer
  split
  · rename_i hblank
    exact absurd hblank nonempty
  · rename_i rest hcommand
    exact absurd hcommand (plain rest)
  · rfl

/-- What is evaluated is the plain form of the line, without the blanks around it. -/
theorem of_answer_evaluated {s : Session} {raw line : Text} {outcome : Outcome}
    (h : (s.answer raw).1 = .evaluated line outcome) :
    raw.trim ≠ [] ∧ line = plainForm raw.trim ∧ outcome = (s.execute line).1 := by
  unfold answer at h
  split at h
  · cases h
  · rename_i rest _
    cases hcommand : Command.ofLine ('/' :: rest) <;> rw [hcommand] at h <;> cases h
  · rename_i hne _
    cases h
    exact ⟨hne, rfl, rfl⟩

theorem enter_of_line (s : Session) {entry : Entry} {line : Text} (h : entry.line? = some line) :
    s.enter entry = (.evaluated line (s.execute line).1, (s.execute line).2) := by
  cases entry with
  | plain line =>
    cases h
    rfl
  | typed raw =>
    unfold Entry.line? at h
    dsimp only at h
    split at h
    · cases h
    · cases h
    · rename_i hne hcommand
      cases h
      exact s.answer_of_plain hne hcommand

/-- An entry that hands no line over is answered alike in all sessions, and leaves them. -/
theorem enter_of_no_line {entry : Entry} (h : entry.line? = none) :
    ∃ action, ∀ s : Session, s.enter entry = (action, s) := by
  cases entry with
  | plain line => cases h
  | typed raw =>
    change ∃ action, ∀ s : Session, s.answer raw = (action, s)
    unfold Entry.line? at h
    unfold answer
    dsimp only at h
    generalize raw.trim = trimmed at h ⊢
    split at h
    · exact ⟨_, fun _ => rfl⟩
    · exact ⟨_, fun _ => rfl⟩
    · cases h

/-- The session after these entries. -/
def after (s : Session) (entries : List Entry) : Session :=
  entries.foldl (fun s entry => (s.enter entry).2) s

/-- What is done about the entries, in turn. -/
def actions (s : Session) : List Entry → List Action
  | [] => []
  | entry :: rest => (s.enter entry).1 :: (s.enter entry).2.actions rest

/-- What an action may come with. -/
inductive Step (s : Session) : Action → Session → Prop
  /-- All but silence leaves the session as it is. -/
  | still {action : Action} (spoken : ∀ line, action ≠ .evaluated line .silent) : Step s action s
  /-- Silence comes with a new value for the name on the left. -/
  | binds {line name right : Text} {value : Int} (split : line = name ++ '=' :: right)
      (named : Operand.isName name = true) (gives : s.store.Gives right value) :
      Step s (.evaluated line .silent) { s with store := s.store.assign name value }

theorem step_execute (s : Session) (line : Text) :
    s.Step (.evaluated line (s.execute line).1) (s.execute line).2 := by
  unfold execute
  rcases h : s.perform line with fault | ⟨_ | value, store⟩
  · exact .still (by simp)
  · obtain ⟨name, right, value, hline, hname, hgives, rfl⟩ := (performs_of_perform h).binds
    exact .binds hline hname hgives
  · obtain rfl := (performs_of_perform h).store_eq
    exact .still (by simp)

theorem step_answer (s : Session) (raw : Text) : s.Step (s.answer raw).1 (s.answer raw).2 := by
  unfold answer
  split
  · exact .still (by simp)
  · rename_i rest _
    refine .still fun line h => ?_
    cases hc : Command.ofLine ('/' :: rest) <;> rw [hc] at h <;> cases h
  · exact s.step_execute _

theorem step_enter (s : Session) (entry : Entry) : s.Step (s.enter entry).1 (s.enter entry).2 := by
  cases entry with
  | typed raw => exact s.step_answer raw
  | plain line => exact s.step_execute line

/-! ## Many entries -/

theorem after_append (s : Session) (first second : List Entry) :
    s.after (first ++ second) = (s.after first).after second := by
  unfold after
  rw [List.foldl_append]

theorem after_concat (s : Session) (entries : List Entry) (entry : Entry) :
    s.after (entries ++ [entry]) = ((s.after entries).enter entry).2 := by
  rw [after_append]
  rfl

/-- No entry changes the limits. -/
theorem limits_enter (s : Session) (entry : Entry) : (s.enter entry).2.limits = s.limits := by
  have hstep := s.step_enter entry
  generalize (s.enter entry).1 = action at hstep
  generalize (s.enter entry).2 = next at hstep ⊢
  cases hstep <;> rfl

theorem limits_after (s : Session) (entries : List Entry) : (s.after entries).limits = s.limits := by
  induction entries generalizing s with
  | nil => rfl
  | cons entry rest ih => exact (ih _).trans (s.limits_enter entry)

end Session

end Abacus
