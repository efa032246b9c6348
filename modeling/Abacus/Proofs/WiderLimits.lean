-- Wider limits: what the limits of a calculator can change. Where narrow limits
-- refuse a power, wider ones may allow it. They change no other answer, and no
-- value in the store knows of them.
import Abacus.Proofs.SessionSteps
import Mathlib.Data.List.Induction

namespace Abacus

/-! ## Refusals -/

/-- The second result is the first one, unless the first is a refusal by a limit. -/
inductive Relaxes {α : Type} : Except Fault α → Except Fault α → Prop
  | same (r : Except Fault α) : Relaxes r r
  | refused {fault : Fault} (range : fault.kind = .arithmeticRange) (r : Except Fault α) :
      Relaxes (.error fault) r

namespace Relaxes

variable {α β : Type}

/-- A refusal ends a computation at once, so it is the refusal of the whole. -/
theorem bind {x y : Except Fault α} {f g : α → Except Fault β} (h : Relaxes x y)
    (next : ∀ a, Relaxes (f a) (g a)) : Relaxes (x >>= f) (y >>= g) := by
  cases h with
  | same =>
    cases x with
    | error fault => exact .same _
    | ok a => exact next a
  | refused range => exact .refused range _

theorem map {x y : Except Fault α} (f : α → β) (h : Relaxes x y) :
    Relaxes (x.map f) (y.map f) := by
  cases h with
  | same => exact .same _
  | refused range => exact .refused range _

theorem foldlM {f g : β → α → Except Fault β} (step : ∀ b a, Relaxes (f b a) (g b a))
    (items : List α) (b : β) : Relaxes (items.foldlM f b) (items.foldlM g b) := by
  induction items generalizing b with
  | nil => exact .same _
  | cons a rest ih =>
    rw [List.foldlM_cons, List.foldlM_cons]
    exact (step b a).bind ih

end Relaxes

/-! ## Evaluation -/

/-- The second limits allow all that the first ones allow. -/
structure Limits.Within (small large : Limits) : Prop where
  maxExponent : small.maxExponent.toNat ≤ large.maxExponent.toNat
  maxResultBits : small.maxResultBits.toNat ≤ large.maxResultBits.toNat

section Evaluation

variable {small large : Limits}

theorem relaxes_power (h : small.Within large) (place : Span) (base exponent : Placed Int) :
    Relaxes (power small place base exponent) (power large place base exponent) := by
  have hexponent := h.maxExponent
  have hbits := h.maxResultBits
  unfold power
  by_cases hrange : exponent.what < 0 ∨ (small.maxExponent.toNat : Int) < exponent.what
  · rw [if_pos hrange]
    exact .refused rfl _
  · rw [if_neg hrange]
    by_cases hsize : small.maxResultBits.toNat < powerSize base.what exponent.what.toNat
    · rw [if_pos hsize]
      exact .refused rfl _
    · rw [if_neg hsize, if_neg (by omega), if_neg (by omega)]
      exact .same _

theorem relaxes_apply (h : small.Within large) (op : BinOp) (place : Span)
    (left right : Placed Int) :
    Relaxes (op.apply small place left right) (op.apply large place left right) := by
  cases op with
  | add | sub | mul | div => exact .same _
  | pow => exact relaxes_power h place left right

theorem Stack.relaxes_step (h : small.Within large) (store : Store) (stack : Stack) (t : Token) :
    Relaxes (step small store stack t) (step large store stack t) := by
  obtain ⟨what, span⟩ := t
  rcases what with text | (op | _ | _ | _)
  · exact .same _
  · rcases stack with _ | ⟨right, _ | ⟨left, stack⟩⟩
    · exact .same _
    · exact .same _
    · rw [step_binary, step_binary]
      exact (relaxes_apply h op span left right).map _
  · rcases stack with _ | ⟨right, _ | ⟨left, stack⟩⟩ <;> exact .same _
  · rcases stack with _ | ⟨right, _ | ⟨left, stack⟩⟩ <;> exact .same _
  · cases stack <;> exact .same _

theorem relaxes_evaluate (h : small.Within large) (store : Store) (tokens : List Token) :
    Relaxes (evaluate small store tokens) (evaluate large store tokens) := by
  unfold evaluate
  exact (Relaxes.foldlM (Stack.relaxes_step h store) tokens []).bind fun stack => .same _

end Evaluation

/-! ## Lines -/

/-- The second action is the first one, unless the first is a refusal by a limit of a line
that the second one answers. -/
def Action.Relaxes (a b : Action) : Prop :=
  a = b ∨ ∃ line fault outcome, a = .evaluated line (.failed fault) ∧
    fault.kind = .arithmeticRange ∧ b = .evaluated line outcome

namespace Session

variable {s t : Session} {line : Text}

theorem relaxes_valueOf (h : s.limits.Within t.limits) (store : s.store = t.store) (line : Text) :
    Relaxes (s.valueOf line) (t.valueOf line) := by
  unfold valueOf
  refine (Relaxes.same _).bind fun tokens => ?_
  by_cases hempty : tokens.isEmpty = true
  · rw [if_pos hempty, if_pos hempty]
    exact .same _
  · rw [if_neg hempty, if_neg hempty, store]
    exact (relaxes_evaluate h t.store tokens).bind fun value => .same _

/-- Only an expression can meet a limit. -/
theorem perform_eq_of_ne_expression (h : LineShape.ofLine line ≠ .ok .expression)
    (store : s.store = t.store) : s.perform line = t.perform line := by
  unfold perform
  rw [store]
  rcases hshape : LineShape.ofLine line with fault | ⟨_ | _ | _ | _⟩
  · rfl
  · rfl
  · exact absurd hshape h
  · rfl
  · rfl

/-- An expression leaves the store as it is. -/
theorem store_execute_of_expression (h : LineShape.ofLine line = .ok .expression) :
    (s.execute line).2.store = s.store := by
  unfold execute
  rcases hperform : s.perform line with fault | ⟨value?, store⟩
  · rfl
  · have hstore : store = s.store := by
      cases performs_of_perform hperform with
      | assignment shape _ | reference shape _ =>
        rw [h] at shape
        cases shape
      | value | expression => rfl
    cases value? <;> exact hstore

theorem relaxes_perform_of_expression (h : s.limits.Within t.limits) (store : s.store = t.store)
    (shape : LineShape.ofLine line = .ok .expression) :
    Relaxes (s.perform line) (t.perform line) := by
  rw [perform_of_expression shape, perform_of_expression shape, store]
  exact (Relaxes.same _).bind fun _ => (relaxes_valueOf h store line).bind fun _ => .same _

/-- With wider limits a line leaves the same store, and is answered alike or relaxed. -/
theorem relaxes_execute (h : s.limits.Within t.limits) (store : s.store = t.store) (line : Text) :
    (s.execute line).2.store = (t.execute line).2.store ∧
      Action.Relaxes (.evaluated line (s.execute line).1) (.evaluated line (t.execute line).1) := by
  by_cases shape : LineShape.ofLine line = .ok .expression
  · refine ⟨?_, ?_⟩
    · rw [store_execute_of_expression shape, store_execute_of_expression shape, store]
    · have hperform := relaxes_perform_of_expression h store shape
      unfold execute
      generalize s.perform line = x at hperform ⊢
      generalize t.perform line = y at hperform ⊢
      cases hperform with
      | same => rcases x with fault | ⟨_ | value, _⟩ <;> exact Or.inl rfl
      | @refused fault range _ => exact Or.inr ⟨line, fault, _, rfl, range, rfl⟩
  · unfold execute
    rw [perform_eq_of_ne_expression shape store]
    rcases t.perform line with fault | ⟨_ | value, _⟩
    · exact ⟨store, Or.inl rfl⟩
    · exact ⟨rfl, Or.inl rfl⟩
    · exact ⟨rfl, Or.inl rfl⟩

theorem relaxes_enter (h : s.limits.Within t.limits) (store : s.store = t.store) (entry : Entry) :
    (s.enter entry).2.store = (t.enter entry).2.store ∧
      Action.Relaxes (s.enter entry).1 (t.enter entry).1 := by
  rcases hline : entry.line? with _ | line
  · obtain ⟨action, henter⟩ := enter_of_no_line hline
    rw [henter, henter]
    exact ⟨store, Or.inl rfl⟩
  · rw [enter_of_line s hline, enter_of_line t hline]
    exact relaxes_execute h store line

/-- A wider limit changes nothing about the store. -/
theorem store_after_eq {small large : Limits} (h : small.Within large) (entries : List Entry) :
    (after { limits := small } entries).store = (after { limits := large } entries).store := by
  induction entries using List.reverseRecOn with
  | nil => rfl
  | append_singleton entries entry ih =>
    rw [after_concat, after_concat]
    exact (relaxes_enter (by rwa [limits_after, limits_after]) ih entry).1

end Session

/-! ## The law -/

/-- Two calculators begin without names and read the same lines, and the limits of the second are
no narrower than those of the first. Then they have the same store after each line, and each line
is answered alike by both, with the same value or with the same fault in the same place, unless
the first refuses it as out of range. -/
theorem wider_limits_change_only_refusals (small large : Limits)
    (exponent : small.maxExponent ≤ large.maxExponent)
    (bits : small.maxResultBits ≤ large.maxResultBits) (entries : List Entry) :
    let s := Session.after { limits := small } entries
    let t := Session.after { limits := large } entries
    s.store = t.store ∧
    ∀ entry, (s.enter entry).2.store = (t.enter entry).2.store ∧
      ((s.enter entry).1 = (t.enter entry).1 ∨
        ∃ line fault outcome, (s.enter entry).1 = .evaluated line (.failed fault) ∧
          fault.kind = .arithmeticRange ∧ (t.enter entry).1 = .evaluated line outcome) := by
  intro s t
  have hwithin : small.Within large :=
    ⟨UInt32.le_iff_toNat_le.mp exponent, UInt64.le_iff_toNat_le.mp bits⟩
  have hstore : s.store = t.store := Session.store_after_eq hwithin entries
  refine ⟨hstore, fun entry => ?_⟩
  have hlimits : s.limits.Within t.limits := by
    rwa [Session.limits_after, Session.limits_after]
  exact Session.relaxes_enter hlimits hstore entry

/-- With exponents up to 3 the line `x^4+q` is refused, and with exponents up to 4 it fails at
the `q`, which has no value. Both calculators have the same value for `x`. -/
theorem a_refused_power_hides_an_unbound_name :
    let small : Limits := { maxExponent := 3 }
    let large : Limits := { maxExponent := 4 }
    let s := Session.after { limits := small } [.typed "x = 2".toList]
    let t := Session.after { limits := large } [.typed "x = 2".toList]
    small.maxExponent ≤ large.maxExponent ∧ small.maxResultBits ≤ large.maxResultBits ∧
      s.store = t.store ∧
      (s.execute "x^4+q".toList).1 = .failed ⟨.exponentOutOfRange 3, 2, 3⟩ ∧
      (t.execute "x^4+q".toList).1 = .failed ⟨.unknownVariable ['q'], 4, 5⟩ := by
  intro small large s t
  have hstore := (wider_limits_change_only_refusals small large (by decide) (by decide)
    [.typed "x = 2".toList]).1
  exact ⟨by decide, by decide, hstore, by decide, by decide⟩

end Abacus
