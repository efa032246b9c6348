-- The balance of values: how many values tokens in postfix order leave. What
-- evaluates leaves one value, and the conversion keeps the balance whatever
-- order it puts the tokens in.
import Abacus.Evaluation
import Abacus.Proofs.ConversionMoves

namespace Abacus

/-- What a token does to the number of values on the stack. -/
def Lexeme.gain : Lexeme → Int
  | operand _ => 1
  | operator (.binary _) => -1
  | operator _ => 0

/-- What tokens do to the number of values on the stack. -/
def balance (tokens : List Token) : Int := tokens.foldr (fun t n => t.what.gain + n) 0

theorem balance_cons (t : Token) (tokens : List Token) :
    balance (t :: tokens) = t.what.gain + balance tokens := rfl

theorem balance_append (first second : List Token) :
    balance (first ++ second) = balance first + balance second := by
  induction first with
  | nil => exact (Int.zero_add _).symm
  | cons t rest ih => rw [List.cons_append, balance_cons, balance_cons, ih, Int.add_assoc]

theorem balance_reverse (tokens : List Token) : balance tokens.reverse = balance tokens := by
  induction tokens with
  | nil => rfl
  | cons t rest ih =>
    have hone : balance [t] = t.what.gain := Int.add_zero _
    rw [List.reverse_cons, balance_append, ih, hone, balance_cons, Int.add_comm]

/-! ## On the stack -/

namespace Stack

variable {limits : Limits} {store : Store} {stack stack' : Stack}

theorem length_step {t : Token} (h : step limits store stack t = .ok stack') :
    (stack'.length : Int) = stack.length + t.what.gain := by
  obtain ⟨what, span⟩ := t
  rcases what with text | (op | _ | _ | _)
  · rw [step_operand] at h
    cases hr : Operand.resolve store ⟨text, span⟩ <;> rw [hr] at h <;> cases h
    simp [Lexeme.gain]
  · rcases stack with _ | ⟨right, _ | ⟨left, stack⟩⟩
    · cases h
    · cases h
    · rw [step_binary] at h
      cases hv : op.apply limits span left right <;> rw [hv] at h <;> cases h
      simp only [List.length_cons, Lexeme.gain]
      omega
  · rcases stack with _ | ⟨right, _ | ⟨left, stack⟩⟩ <;> cases h
  · rcases stack with _ | ⟨right, _ | ⟨left, stack⟩⟩ <;> cases h
  · rcases stack with _ | ⟨value, stack⟩ <;> cases h
    simp [Lexeme.gain]

theorem length_foldlM {tokens : List Token}
    (h : tokens.foldlM (step limits store) stack = .ok stack') :
    (stack'.length : Int) = stack.length + balance tokens := by
  induction tokens generalizing stack with
  | nil =>
    cases h
    simp [balance]
  | cons t rest ih =>
    rw [List.foldlM_cons] at h
    rcases hs : step limits store stack t with f | next <;> rw [hs] at h
    · cases h
    · rw [ih h, length_step hs, balance_cons]
      omega

theorem length_of_result {n : Int} (h : result stack = .ok n) : stack.length = 1 := by
  rcases stack with _ | ⟨value, _ | ⟨next, rest⟩⟩
  · cases h
  · rfl
  · cases h

end Stack

/-- Tokens that have a value leave one value. -/
theorem balance_of_evaluate {limits : Limits} {store : Store} {tokens : List Token} {n : Int}
    (h : evaluate limits store tokens = .ok n) : balance tokens = 1 := by
  unfold evaluate at h
  rcases hs : tokens.foldlM (Stack.step limits store) [] with f | stack <;> rw [hs] at h
  · cases h
  · have hlength := Stack.length_foldlM hs
    rw [Stack.length_of_result h] at hlength
    simpa using hlength.symm

/-! ## In the conversion -/

namespace Conversion

/-- The balance of all that a conversion has put out and all that waits. -/
def total (c : Conversion) : Int := balance (c.pending.map token) + balance c.output

/-- What a lexeme does to the total: where an operand is due, a plus or minus is a sign and
does nothing. -/
def gain (c : Conversion) : Lexeme → Int
  | .operand text => (Lexeme.operand text).gain
  | .operator op => if c.expectsOperand && op.isSign then 0 else (Lexeme.operator op).gain

@[simp] theorem gain_operand (c : Conversion) (text : Text) : c.gain (.operand text) = 1 := rfl

@[simp] theorem gain_lparen (c : Conversion) : c.gain (.operator .lparen) = 0 := by
  simp [gain, Op.isSign, Lexeme.gain]

@[simp] theorem gain_rparen (c : Conversion) : c.gain (.operator .rparen) = 0 := by
  simp [gain, Op.isSign, Lexeme.gain]

theorem gain_of_sign {c : Conversion} {op : Op} (h : (c.expectsOperand && op.isSign) = true) :
    c.gain (.operator op) = 0 := by
  simp only [gain, h, if_true]

theorem gain_of_not_sign {c : Conversion} {op : Op}
    (h : (c.expectsOperand && op.isSign) = false) :
    c.gain (.operator op) = (Lexeme.operator op).gain := by
  simp only [gain, h, Bool.false_eq_true, if_false]

theorem balance_emit (ops : List (Placed Op)) (output : List Token) :
    balance (emit ops output) = balance (ops.map token) + balance output := by
  unfold emit
  rw [balance_append, balance_reverse]

variable {c c' : Conversion} {t : Token}

theorem Move.total_eq (h : Move c t c') : c'.total = c.total + c.gain t.what := by
  unfold total
  cases h with
  | operand text span =>
    simp only [balance_cons, gain_operand, Lexeme.gain]
    omega
  | opening span =>
    rw [List.map_cons, balance_cons, gain_lparen]
    simp [Lexeme.gain, token]
  | closing span place split closed =>
    rw [split, List.map_append, List.map_cons, balance_append, balance_cons, balance_emit,
      gain_rparen]
    simp only [Lexeme.gain, token]
    omega
  | plus span expects =>
    rw [gain_of_sign (by rw [expects]; rfl), Int.add_zero]
  | minus span expects =>
    rw [List.map_cons, balance_cons, gain_of_sign (by rw [expects]; rfl)]
    simp [Lexeme.gain, token]
  | between op span unsigned parens split binds loose =>
    rw [split, List.map_append, List.map_cons, balance_append, balance_cons, balance_emit,
      gain_of_not_sign unsigned]
    simp only [token]
    omega

theorem balance_of_finish {out : List Token} (h : c.finish = .ok out) :
    balance out = c.total := by
  rw [(finish_eq_ok h).2, balance_reverse, balance_emit]
  rfl

end Conversion

end Abacus
