-- The step that failed: of all the steps of an expression, left operand first,
-- then the right one, then the operator, the first that has no value is to
-- blame. A value carries the stretch of the line from the first operand or
-- negating minus that it was computed from to the end of the last operand. An
-- operator is at fault with its own place and the stretch of its right operand.
import Abacus.Proofs.FormulaMeaning
import Abacus.Proofs.TokensKept

namespace Abacus

/-! ## Trees as they are read -/

/-- The token is an operand, or a minus in front of one. -/
def Lexeme.leads : Lexeme → Bool
  | operand _ | operator .neg => true
  | operator _ => false

namespace Tree

/-- The tokens of the tree from left to right: a minus stands before what it negates, an
operator between its operands. -/
def inOrder : Tree → List Token
  | leaf operand => [⟨.operand operand.what, operand.span⟩]
  | neg place body => ⟨.operator .neg, place⟩ :: body.inOrder
  | node op left right =>
    left.inOrder ++ ⟨.operator (.binary op.what), op.span⟩ :: right.inOrder

/-- The tree reaches over this stretch of the line: from its first operand or negating minus to
the end of its last operand. -/
structure Reaches (e : Tree) (stretch : Span) : Prop where
  first : (e.inOrder.find? (·.what.leads)).map (·.span.start) = some stretch.start
  last : (LineShape.operands e.inOrder).getLast?.map (·.span.stop) = some stretch.stop

/-! ## Steps that fail -/

/-- The operator has no value for these two integers, and this is its fault, when its right
operand reaches over the stretch. -/
inductive Refused (limits : Limits) (stretch : Span) : Placed BinOp → Int → Int → Fault → Prop
  /-- A zero divisor is blamed on all from the operator on. -/
  | divisor {place : Span} {a : Int} :
      Refused limits stretch ⟨.div, place⟩ a 0 ⟨.divisionByZero, place.start, stretch.stop⟩
  /-- A wrong exponent is blamed on the exponent alone. -/
  | exponent {place : Span} {a b : Int} (outside : ¬(0 ≤ b ∧ b ≤ limits.maxExponent.toNat)) :
      Refused limits stretch ⟨.pow, place⟩ a b ⟨.exponentOutOfRange limits.maxExponent, stretch⟩
  /-- A result that is too large is blamed on all from the operator on. -/
  | size {place : Span} {a b : Int} (inside : 0 ≤ b ∧ b ≤ limits.maxExponent.toNat)
      (large : ¬limits.Allow a b) :
      Refused limits stretch ⟨.pow, place⟩ a b
        ⟨.resultTooLarge limits.maxResultBits, place.start, stretch.stop⟩

/-- The first step of the tree that fails is at fault with this. All steps before it have a
value. -/
inductive FirstFault (limits : Limits) (store : Store) : Tree → Fault → Prop
  | operand {operand : Placed Text} (name : Decimal.read? operand.what = none)
      (unbound : store.get? operand.what = none) :
      FirstFault limits store (leaf operand) ⟨.unknownVariable operand.what, operand.span⟩
  | negated {place : Span} {body : Tree} {fault : Fault}
      (inside : FirstFault limits store body fault) : FirstFault limits store (neg place body) fault
  | left {op : Placed BinOp} {left right : Tree} {fault : Fault}
      (inside : FirstFault limits store left fault) :
      FirstFault limits store (node op left right) fault
  | right {op : Placed BinOp} {left right : Tree} {fault : Fault} {a : Int}
      (before : left.result limits store = .ok a) (inside : FirstFault limits store right fault) :
      FirstFault limits store (node op left right) fault
  | operator {op : Placed BinOp} {left right : Tree} {fault : Fault} {a b : Int} {stretch : Span}
      (first : left.result limits store = .ok a) (second : right.result limits store = .ok b)
      (reach : right.Reaches stretch) (refused : Refused limits stretch op a b fault) :
      FirstFault limits store (node op left right) fault

/-! ## The stretch of a value -/

/-- All that the value of the tree is computed from, joined. -/
def extent : Tree → Span
  | leaf operand => operand.span
  | neg place body => place.join body.extent
  | node _ left right => left.extent.join right.extent

variable {limits : Limits} {store : Store}

theorem span_of_value {e : Tree} {n : Placed Int} (h : e.value limits store = .ok n) :
    n.span = e.extent := by
  induction e generalizing n with
  | leaf operand =>
    obtain ⟨m, _, hn⟩ := Except.exists_of_bind_eq_ok h
    cases hn
    rfl
  | neg place body ih =>
    obtain ⟨m, hbody, hn⟩ := Except.exists_of_bind_eq_ok h
    cases hn
    rw [extent, ← ih hbody]
  | node op left right ihl ihr =>
    obtain ⟨a, hleft, h⟩ := Except.exists_of_bind_eq_ok h
    obtain ⟨b, hright, h⟩ := Except.exists_of_bind_eq_ok h
    obtain ⟨m, _, hn⟩ := Except.exists_of_bind_eq_ok h
    cases hn
    rw [extent, ← ihl hleft, ← ihr hright]

theorem result_of_value {e : Tree} {n : Placed Int} (h : e.value limits store = .ok n) :
    e.result limits store = .ok n.what := by
  rw [← mapError_value, h]
  rfl

theorem exists_value_of_result {e : Tree} {a : Int} (h : e.result limits store = .ok a) :
    ∃ n, e.value limits store = .ok n ∧ n.what = a := by
  rw [← mapError_value] at h
  rcases hvalue : e.value limits store with fault | n <;> rw [hvalue] at h <;> cases h
  exact ⟨n, rfl, rfl⟩

theorem Reaches.eq {e : Tree} {first second : Span} (h : e.Reaches first) (h' : e.Reaches second) :
    first = second := by
  have hstart := h.first.symm.trans h'.first
  have hstop := h.last.symm.trans h'.last
  rw [Option.some.injEq] at hstart hstop
  cases first
  cases second
  exact congrArg₂ Span.mk hstart hstop

end Tree

theorem Span.join_of_le {a b : Span} (start : a.start ≤ b.start) (stop : a.stop ≤ b.stop) :
    a.join b = ⟨a.start, b.stop⟩ := by
  rw [join, Nat.min_eq_left start, Nat.max_eq_right stop]

namespace Formula

variable {level start : Nat} {t : Text} {e : Tree}

/-- What is kept of an expression is its tree, read from left to right. -/
theorem kept_ofPiece (h : Formula level start t e) (rest : List Token) :
    Token.kept true (Token.ofPiece start t ++ rest) = e.inOrder ++ Token.kept false rest := by
  induction h generalizing rest with
  | operand nonempty plain =>
    rw [Token.ofPiece_of_no_operator nonempty fun c hc =>
      Op.ofChar?_of_isAlphanum (Operand.isAlphanum_of_isPlain plain c hc)]
    rfl
  | group _ ih =>
    have hopen : Op.ofChar? '(' = some .lparen := rfl
    have hclose : Op.ofChar? ')' = some .rparen := rfl
    rw [List.cons_append, Token.ofPiece_cons_operator hopen, Token.ofPiece_append_operator hclose,
      List.cons_append, List.append_assoc]
    exact ih _
  | plus _ ih =>
    have hplus : Op.ofChar? '+' = some (.binary .add) := rfl
    rw [Token.ofPiece_cons_operator hplus]
    exact ih rest
  | minus _ ih =>
    have hminus : Op.ofChar? '-' = some (.binary .sub) := rfl
    rw [Token.ofPiece_cons_operator hminus]
    exact congrArg (_ :: ·) (ih rest)
  | @binary start op s t a b _ _ ihl ihr =>
    have hop : Lexeme.kept false (.operator (.binary op)) = some (.operator (.binary op)) :=
      Lexeme.kept_binary fun _ => rfl
    rw [Token.ofPiece_append_operator (Op.ofChar?_symbol op), List.append_assoc, ihl,
      Tree.inOrder, List.append_assoc, List.cons_append, List.cons_append, ← ihr]
    simp [Token.kept, Token.kept?, hop, Lexeme.ends]
  | tighter _ ih => exact ih rest

/-- An expression is computed from what stands in its own text. -/
theorem extent_within (h : Formula level start t e) :
    start ≤ e.extent.start ∧ e.extent.start < e.extent.stop ∧
      e.extent.stop ≤ start + t.byteLength := by
  induction h with
  | @operand start t nonempty plain =>
    have hpos := Text.byteLength_pos nonempty
    simp only [Tree.extent]
    omega
  | group _ ih | plus _ ih =>
    have hopen : '('.utf8Size = 1 := rfl
    have hplus : '+'.utf8Size = 1 := rfl
    simp only [List.cons_append, Text.byteLength_cons, Text.byteLength_append, hopen, hplus]
    omega
  | minus _ ih =>
    have hminus : '-'.utf8Size = 1 := rfl
    simp only [Tree.extent, Span.start_join, Span.stop_join, Span.single, Text.byteLength_cons,
      hminus]
    omega
  | @binary start op s t a b _ _ ihl ihr =>
    have hsymbol : op.symbol.utf8Size = 1 := Op.utf8Size_of_ofChar? (Op.ofChar?_symbol op)
    simp only [Tree.extent, Span.start_join, Span.stop_join, Text.byteLength_append,
      Text.byteLength_cons, hsymbol]
    omega
  | tighter _ ih => exact ih

/-- An expression reaches from the first to the last of what it is computed from. -/
theorem reaches (h : Formula level start t e) : e.Reaches e.extent := by
  induction h with
  | operand _ _ => exact ⟨rfl, rfl⟩
  | group _ ih | plus _ ih | tighter _ ih => exact ih
  | @minus start t e body ih =>
    obtain ⟨hstart, hlt, _⟩ := body.extent_within
    have hjoin : (Span.single start).join e.extent = ⟨start, e.extent.stop⟩ :=
      Span.join_of_le (by simp only [Span.single]; omega) (by simp only [Span.single]; omega)
    rw [Tree.extent, hjoin]
    exact ⟨rfl, ih.last⟩
  | @binary start op s t a b left right ihl ihr =>
    obtain ⟨_, hltl, hstopl⟩ := left.extent_within
    obtain ⟨hstartr, hltr, _⟩ := right.extent_within
    rw [Tree.extent, Span.join_of_le (by omega) (by omega)]
    obtain ⟨first, hfirst, hstart⟩ := Option.map_eq_some_iff.mp ihl.first
    obtain ⟨last, hlast, hstop⟩ := Option.map_eq_some_iff.mp ihr.last
    constructor
    · rw [Tree.inOrder, List.find?_append, hfirst, Option.some_or, Option.map_some, hstart]
    · rw [Tree.inOrder, Conversion.operands_append, Conversion.operands_cons_operator,
        List.getLast?_append, hlast, Option.some_or, Option.map_some, hstop]

end Formula

/-! ## Operators -/

theorem Operand.resolve_eq_error_iff {store : Store} {operand : Placed Text} {fault : Fault} :
    resolve store operand = .error fault ↔
      Decimal.read? operand.what = none ∧ store.get? operand.what = none ∧
        fault = ⟨.unknownVariable operand.what, operand.span⟩ := by
  unfold resolve
  rcases Decimal.read? operand.what with _ | n
  · rcases store.get? operand.what with _ | n
    · simp [eq_comm]
    · simp
  · simp

section Operators

variable {limits : Limits} {place : Span} {left right : Placed Int} {fault : Fault}

theorem quotient_eq_error_iff :
    quotient place left right = .error fault ↔
      right.what = 0 ∧ fault = ⟨.divisionByZero, place.join right.span⟩ := by
  unfold quotient
  by_cases h : right.what = 0
  · simp [h, eq_comm]
  · simp [h]

theorem power_eq_error_iff :
    power limits place left right = .error fault ↔
      ¬(0 ≤ right.what ∧ right.what ≤ limits.maxExponent.toNat) ∧
          fault = ⟨.exponentOutOfRange limits.maxExponent, right.span⟩ ∨
        (0 ≤ right.what ∧ right.what ≤ limits.maxExponent.toNat) ∧
          ¬limits.Allow left.what right.what ∧
          fault = ⟨.resultTooLarge limits.maxResultBits, place.join right.span⟩ := by
  unfold power
  by_cases hinside : 0 ≤ right.what ∧ right.what ≤ limits.maxExponent.toNat
  · rw [if_neg (by omega)]
    have hallow : limits.maxResultBits.toNat < powerSize left.what right.what.toNat ↔
        ¬limits.Allow left.what right.what := by
      rw [Limits.Allow, ← Nat.not_le, powerSize_le_iff]
      simp [hinside]
    simp only [hallow]
    by_cases hlarge : ¬limits.Allow left.what right.what
    · simp [hlarge, hinside, eq_comm]
    · simp [hlarge, hinside]
  · rw [if_pos (by omega)]
    simp [hinside, eq_comm]

/-- An operator fails with the fault that its two integers call for. -/
theorem BinOp.apply_eq_error_iff {op : BinOp} (start : place.start ≤ right.span.start)
    (stop : place.stop ≤ right.span.stop) :
    op.apply limits place left right = .error fault ↔
      Tree.Refused limits right.span ⟨op, place⟩ left.what right.what fault := by
  have hjoin := Span.join_of_le start stop
  constructor
  · intro h
    cases op with
    | add | sub | mul => cases h
    | div =>
      obtain ⟨hzero, rfl⟩ := quotient_eq_error_iff.mp h
      rw [hzero, hjoin]
      exact .divisor
    | pow =>
      rcases power_eq_error_iff.mp h with ⟨houtside, rfl⟩ | ⟨hinside, hlarge, rfl⟩
      · exact .exponent houtside
      · rw [hjoin]
        exact .size hinside hlarge
  · intro h
    obtain ⟨dividend, _⟩ := left
    obtain ⟨divisor, stretch⟩ := right
    cases h with
    | divisor => exact quotient_eq_error_iff.mpr ⟨rfl, by rw [hjoin]⟩
    | exponent outside => exact power_eq_error_iff.mpr (Or.inl ⟨outside, rfl⟩)
    | size inside large => exact power_eq_error_iff.mpr (Or.inr ⟨inside, large, by rw [hjoin]⟩)

end Operators

/-! ## The first fault -/

theorem Except.bind_eq_error_iff {ε α β : Type} {x : Except ε α} {f : α → Except ε β} {e : ε} :
    (x >>= f) = .error e ↔ x = .error e ∨ ∃ a, x = .ok a ∧ f a = .error e := by
  cases x with
  | error e' => simp [bind, Except.bind]
  | ok a => simp [bind, Except.bind]

namespace Tree

variable {limits : Limits} {store : Store} {fault : Fault}

theorem value_leaf_eq_error_iff {operand : Placed Text} :
    (leaf operand).value limits store = .error fault ↔
      Operand.resolve store operand = .error fault := by
  rw [value, Except.bind_eq_error_iff]
  simp

theorem value_neg_eq_error_iff {place : Span} {body : Tree} :
    (neg place body).value limits store = .error fault ↔
      body.value limits store = .error fault := by
  rw [value, Except.bind_eq_error_iff]
  simp

/-- A tree with an operator fails on its left, or then on its right, or then at the operator. -/
theorem value_node_eq_error_iff {op : Placed BinOp} {left right : Tree} :
    (node op left right).value limits store = .error fault ↔
      left.value limits store = .error fault ∨
      ∃ a, left.value limits store = .ok a ∧
        (right.value limits store = .error fault ∨
          ∃ b, right.value limits store = .ok b ∧
            op.what.apply limits op.span a b = .error fault) := by
  simp only [value, Except.bind_eq_error_iff]
  simp

end Tree

/-- An expression fails with its first fault, and only when it has one. -/
theorem Formula.value_eq_error_iff {level start : Nat} {t : Text} {e : Tree}
    (h : Formula level start t e) {limits : Limits} {store : Store} {fault : Fault} :
    e.value limits store = .error fault ↔ e.FirstFault limits store fault := by
  induction h generalizing fault with
  | operand _ _ =>
    rw [Tree.value_leaf_eq_error_iff, Operand.resolve_eq_error_iff]
    constructor
    · rintro ⟨hname, hunbound, rfl⟩
      exact .operand hname hunbound
    · intro hfirst
      cases hfirst with
      | operand name unbound => exact ⟨name, unbound, rfl⟩
  | group _ ih | plus _ ih | tighter _ ih => exact ih
  | minus _ ih =>
    rw [Tree.value_neg_eq_error_iff, ih]
    constructor
    · exact .negated
    · intro hfirst
      cases hfirst with
      | negated inside => exact inside
  | @binary start op s t a b left right ihl ihr =>
    obtain ⟨hstart, hlt, _⟩ := right.extent_within
    have happly {m n : Placed Int} (hn : b.value limits store = .ok n) :
        op.apply limits (Span.single (start + s.byteLength)) m n = .error fault ↔
          Tree.Refused limits b.extent ⟨op, Span.single (start + s.byteLength)⟩ m.what n.what
            fault := by
      rw [← Tree.span_of_value hn] at hstart hlt ⊢
      exact BinOp.apply_eq_error_iff (by simp only [Span.single]; omega)
        (by simp only [Span.single]; omega)
    rw [Tree.value_node_eq_error_iff, ihl]
    constructor
    · rintro (hleft | ⟨m, hm, hright | ⟨n, hn, hrefused⟩⟩)
      · exact .left hleft
      · exact .right (Tree.result_of_value hm) (ihr.mp hright)
      · exact .operator (Tree.result_of_value hm) (Tree.result_of_value hn) right.reaches
          ((happly hn).mp hrefused)
    · intro hfirst
      cases hfirst with
      | left inside => exact Or.inl inside
      | right before inside =>
        obtain ⟨m, hm, _⟩ := Tree.exists_value_of_result before
        exact Or.inr ⟨m, hm, Or.inl (ihr.mpr inside)⟩
      | operator first second reach refused =>
        obtain ⟨m, hm, rfl⟩ := Tree.exists_value_of_result first
        obtain ⟨n, hn, rfl⟩ := Tree.exists_value_of_result second
        obtain rfl := reach.eq right.reaches
        exact Or.inr ⟨m, hm, Or.inr ⟨n, hn, (happly hn).mpr refused⟩⟩

/-! ## The law -/

/-- The operands and operators of an expression are those of its tree, which they make up from
left to right. The expression fails with the first fault of the tree, and only when it has one:
a name without a value stands alone in its fault; a zero divisor and a result that is too large
are blamed from the operator to the last operand on its right; a wrong exponent is blamed from
its first operand or negating minus to its last operand. -/
theorem an_expression_fails_with_its_first_fault (s : Session) (line : Text) (e : Tree)
    (h : Formula.Line line e) :
    Token.kept true (Token.ofLine line) = e.inOrder ∧
    ∀ fault, (s.execute line).1 = .failed fault ↔ e.FirstFault s.limits s.store fault := by
  refine ⟨?_, fun fault => ?_⟩
  · have hkept := h.kept_ofPiece []
    rwa [List.append_nil, Token.kept, List.append_nil] at hkept
  · rw [s.execute_formula h, ← h.value_eq_error_iff, Tree.answer]
    cases e.value s.limits s.store <;> simp

/-- The exponent of `2^-(+3)*y` is blamed from its minus to its last operand, without the
parentheses. That `y` has no value does not matter then. -/
theorem a_negative_exponent_is_blamed_from_its_minus :
    let exponent : Tree := .neg ⟨2, 3⟩ (.leaf ⟨['3'], 5, 6⟩)
    let e : Tree :=
      .node ⟨.mul, 7, 8⟩ (.node ⟨.pow, 1, 2⟩ (.leaf ⟨['2'], 0, 1⟩) exponent) (.leaf ⟨['y'], 8, 9⟩)
    Formula.Line "2^-(+3)*y".toList e ∧ exponent.Reaches ⟨2, 6⟩ ∧
      (Session.execute {} "2^-(+3)*y".toList).1 = .failed ⟨.exponentOutOfRange 1000000, 2, 6⟩ := by
  intro exponent e
  have htwo : Formula 5 0 ['2'] _ := .operand (by decide) (by decide)
  have hthree : Formula 5 5 ['3'] _ := .operand (by decide) (by decide)
  have hy : Formula 5 8 ['y'] _ := .operand (by decide) (by decide)
  have hgroup : Formula 5 3 "(+3)".toList _ :=
    .group ((Formula.plus hthree.tighter).loosen (by decide))
  have hexponent : Formula 4 2 "-(+3)".toList _ := .minus hgroup.tighter
  have hpower : Formula 2 0 "2^-(+3)".toList _ :=
    Formula.joined .pow (htwo.loosen (by decide)) hexponent (by decide)
  have hline : Formula.Line "2^-(+3)*y".toList e :=
    Formula.joined .mul hpower (hy.loosen (by decide)) (by decide)
  have hreaches : exponent.Reaches ⟨2, 6⟩ := ⟨rfl, rfl⟩
  have hrefused : Tree.Refused {} ⟨2, 6⟩ ⟨.pow, 1, 2⟩ 2 (-3) ⟨.exponentOutOfRange 1000000, 2, 6⟩ :=
    .exponent (by decide)
  have hfirst : e.FirstFault {} {} ⟨.exponentOutOfRange 1000000, 2, 6⟩ :=
    .left (.operator (by decide) (by decide) hreaches hrefused)
  exact ⟨hline, hreaches,
    ((an_expression_fails_with_its_first_fault {} _ e hline).2 _).mpr hfirst⟩

end Abacus
