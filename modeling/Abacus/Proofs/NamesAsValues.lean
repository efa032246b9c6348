-- Names as values: a name means what its value means in parentheses. The two
-- lines are worked off side by side, and each token of the first keeps step
-- with the tokens that stand for it in the second, whether the line is well
-- formed or not.
import Abacus.Proofs.ConversionMoves
import Abacus.Proofs.FormulaMeaning
import Abacus.Proofs.NamesRead
import Abacus.Proofs.ValuedLines

namespace Abacus

/-! ## Keeping step -/

/-- Both fail with one kind of fault, or both succeed with related results. -/
inductive SameWay {α β : Type} (R : α → β → Prop) : Except Fault α → Except Fault β → Prop
  | failed {fault fault' : Fault} (kind : fault'.kind = fault.kind) :
      SameWay R (.error fault) (.error fault')
  | done {a : α} {b : β} (related : R a b) : SameWay R (.ok a) (.ok b)

namespace SameWay

variable {α β γ δ : Type} {R : α → β → Prop} {Q : γ → δ → Prop}

theorem bind {x : Except Fault α} {y : Except Fault β} {f : α → Except Fault γ}
    {g : β → Except Fault δ} (h : SameWay R x y)
    (next : ∀ a b, R a b → SameWay Q (f a) (g b)) : SameWay Q (x >>= f) (y >>= g) := by
  cases h with
  | failed kind => exact .failed kind
  | done related => exact next _ _ related

theorem map {x : Except Fault α} {y : Except Fault β} {f : α → γ} {g : β → δ} (h : SameWay R x y)
    (next : ∀ a b, R a b → Q (f a) (g b)) : SameWay Q (x.map f) (y.map g) := by
  cases h with
  | failed kind => exact .failed kind
  | done related => exact .done (next _ _ related)

theorem of_mapError {x y : Except Fault α}
    (h : y.mapError Fault.kind = x.mapError Fault.kind) : SameWay Eq x y := by
  cases x with
  | error fault =>
    cases y with
    | error fault' =>
      simp only [Except.mapError, Except.error.injEq] at h
      exact .failed h
    | ok b => simp [Except.mapError] at h
  | ok a =>
    cases y with
    | error fault' => simp [Except.mapError] at h
    | ok b =>
      simp only [Except.mapError, Except.ok.injEq] at h
      exact .done h.symm

/-- Where each token keeps step with the tokens that stand for it, the runs do. -/
theorem foldlM_flatMap {put : Lexeme → List Lexeme} {f : α → Token → Except Fault α}
    {g : β → Token → Except Fault β}
    (step : ∀ a b t (piece : List Token), R a b → piece.map (·.what) = put t.what →
      SameWay R (f a t) (piece.foldlM g b))
    {tokens tokens' : List Token}
    (split : tokens'.map (·.what) = (tokens.map (·.what)).flatMap put) {a : α} {b : β}
    (related : R a b) : SameWay R (tokens.foldlM f a) (tokens'.foldlM g b) := by
  induction tokens generalizing tokens' a b with
  | nil =>
    obtain rfl : tokens' = [] := by simpa using split
    exact .done related
  | cons t rest ih =>
    rw [List.map_cons, List.flatMap_cons] at split
    obtain ⟨piece, later, rfl, hpiece, hlater⟩ := List.map_eq_append_iff.mp split
    rw [List.foldlM_cons, List.foldlM_append]
    apply (step a b t piece related hpiece).bind
    intro a' b' related'
    exact ih hlater related'

end SameWay

/-! ## Postfix order -/

theorem Token.of_map_what_cons {tokens : List Token} {l : Lexeme} {ls : List Lexeme}
    (h : tokens.map (·.what) = l :: ls) :
    ∃ place rest, tokens = ⟨l, place⟩ :: rest ∧ rest.map (·.what) = ls := by
  obtain ⟨⟨what, place⟩, rest, rfl, rfl, hrest⟩ := List.map_eq_cons_iff.mp h
  exact ⟨place, rest, rfl, hrest⟩

theorem Token.of_map_what_singleton {tokens : List Token} {l : Lexeme}
    (h : tokens.map (·.what) = [l]) : ∃ place, tokens = [⟨l, place⟩] := by
  obtain ⟨place, rest, rfl, hrest⟩ := of_map_what_cons h
  obtain rfl := List.map_eq_nil_iff.mp hrest
  exact ⟨place, rfl⟩

namespace Lexeme

/-- An integer in postfix order: its digits, and then the minus where it is negative. -/
def literal (n : Int) : List Lexeme :=
  .operand (Decimal.digits n.natAbs) :: if n < 0 then [.operator .neg] else []

/-- The value of the lexeme in postfix order, or the lexeme itself where it has none. -/
def worth (store : Store) (l : Lexeme) : List Lexeme :=
  match l.bound? store with
  | some n => literal n
  | none => [l]

theorem worth_ne_nil (store : Store) (l : Lexeme) : l.worth store ≠ [] := by
  unfold worth
  split <;> exact List.cons_ne_nil _ _

end Lexeme

/-- The second tokens are the first ones, each with what it is worth in its place. -/
def Token.Worth (store : Store) (tokens tokens' : List Token) : Prop :=
  tokens'.map (·.what) = (tokens.map (·.what)).flatMap (Lexeme.worth store)

namespace Conversion

/-- The second conversion has put out the values of what the first one has put out, and waits
with the same operators for the same. -/
structure Valued (store : Store) (c c' : Conversion) : Prop where
  output : Token.Worth store c.output.reverse c'.output.reverse
  pending : c'.pending.map (·.what) = c.pending.map (·.what)
  expects : c'.expectsOperand = c.expectsOperand

variable {store : Store} {c c' : Conversion} {ops ops' : List (Placed Op)}

/-! ### Pending operators -/

theorem map_what_emit (ops : List (Placed Op)) (output : List Token) :
    (emit ops output).reverse.map (·.what) =
      output.reverse.map (·.what) ++ (ops.map (·.what)).map Lexeme.operator := by
  simp [emit, token, List.map_reverse]

theorem flatMap_worth_operators (ops : List Op) :
    (ops.map Lexeme.operator).flatMap (Lexeme.worth store) = ops.map Lexeme.operator := by
  induction ops with
  | nil => rfl
  | cons op rest ih =>
    rw [List.map_cons, List.flatMap_cons, ih]
    rfl

/-- The same operators leave, in whatever places. -/
theorem Valued.emit (h : Valued store c c') (same : ops'.map (·.what) = ops.map (·.what)) :
    Token.Worth store (emit ops c.output).reverse (emit ops' c'.output).reverse := by
  have houtput := h.output
  unfold Token.Worth at houtput ⊢
  rw [map_what_emit, map_what_emit, houtput, same, List.flatMap_append, flatMap_worth_operators]

theorem takeWhile_what (p : Op → Bool) (same : ops'.map (·.what) = ops.map (·.what)) :
    (ops'.takeWhile fun o => p o.what).map (·.what) =
      (ops.takeWhile fun o => p o.what).map (·.what) := by
  have h := congrArg (List.takeWhile p) same
  rwa [List.takeWhile_map, List.takeWhile_map] at h

theorem dropWhile_what (p : Op → Bool) (same : ops'.map (·.what) = ops.map (·.what)) :
    (ops'.dropWhile fun o => p o.what).map (·.what) =
      (ops.dropWhile fun o => p o.what).map (·.what) := by
  have h := congrArg (List.dropWhile p) same
  rwa [List.dropWhile_map, List.dropWhile_map] at h

/-! ### One token -/

theorem Valued.close (h : Valued store c c') (place place' : Span) :
    SameWay (Valued store) (c.close place) (c'.close place') := by
  have htake : (c'.pending.takeWhile (!opens ·)).map (·.what) =
      (c.pending.takeWhile (!opens ·)).map (·.what) :=
    takeWhile_what (fun op => !decide (op = .lparen)) h.pending
  have hdrop : (c'.pending.dropWhile (!opens ·)).map (·.what) =
      (c.pending.dropWhile (!opens ·)).map (·.what) :=
    dropWhile_what (fun op => !decide (op = .lparen)) h.pending
  unfold Conversion.close
  rcases hc : c.pending.dropWhile (!opens ·) with _ | ⟨opening, outer⟩ <;> rw [hc] at hdrop
  · rw [List.map_nil, List.map_eq_nil_iff] at hdrop
    rw [hdrop]
    exact .failed rfl
  · rw [List.map_cons, List.map_eq_cons_iff] at hdrop
    obtain ⟨opening', outer', hc', _, houter⟩ := hdrop
    rw [hc']
    exact .done ⟨h.emit htake, houter, rfl⟩

theorem Valued.between (h : Valued store c c') {op op' : Placed Op} (same : op'.what = op.what) :
    Valued store (c.between op) (c'.between op') := by
  have htake : (c'.pending.takeWhile (bindsAt op.what.rank)).map (·.what) =
      (c.pending.takeWhile (bindsAt op.what.rank)).map (·.what) :=
    takeWhile_what (fun o => decide (op.what.rank ≤ o.rank)) h.pending
  have hdrop : (c'.pending.dropWhile (bindsAt op.what.rank)).map (·.what) =
      (c.pending.dropWhile (bindsAt op.what.rank)).map (·.what) :=
    dropWhile_what (fun o => decide (op.what.rank ≤ o.rank)) h.pending
  unfold Conversion.between
  rw [same]
  refine ⟨h.emit htake, ?_, rfl⟩
  rw [List.map_cons, List.map_cons, same, hdrop]

theorem Valued.sign (h : Valued store c c') {op op' : Placed Op} (same : op'.what = op.what) :
    Valued store (c.sign op) (c'.sign op') := by
  unfold Conversion.sign
  rw [same]
  split
  · exact ⟨h.output, by simp [h.pending], h.expects⟩
  · exact h

/-- One operator does the same to both. -/
theorem Valued.step_operator (h : Valued store c c') (op : Op) (place place' : Span) :
    SameWay (Valued store) (c.step ⟨.operator op, place⟩) (c'.step ⟨.operator op, place'⟩) := by
  cases op with
  | lparen => exact .done ⟨h.output, by simp [h.pending], rfl⟩
  | rparen => exact h.close place place'
  | binary op | neg =>
    unfold step
    dsimp only
    rw [h.expects]
    split
    · exact .done (h.sign rfl)
    · exact .done (h.between rfl)

/-- An operand is put out in both. -/
theorem Valued.step_operand (h : Valued store c c') {run : Text}
    (unbound : store.get? run = none) (place place' : Span) :
    SameWay (Valued store) (c.step ⟨.operand run, place⟩) (c'.step ⟨.operand run, place'⟩) := by
  have houtput := h.output
  refine .done ⟨?_, h.pending, rfl⟩
  unfold Token.Worth at houtput ⊢
  simp [houtput, Lexeme.worth, Lexeme.bound?, unbound]

/-- A value in parentheses is put out, whatever waits, and nothing else is left of it. -/
theorem foldlM_group (c : Conversion) {n : Int} {piece : List Token}
    (hpiece : piece.map (·.what) =
      .operator .lparen :: Lexeme.ofLine (Decimal.write n) ++ [.operator .rparen]) :
    ∃ out, piece.foldlM step c = .ok ⟨out, c.pending, false⟩ ∧
      out.reverse.map (·.what) = c.output.reverse.map (·.what) ++ Lexeme.literal n := by
  rcases Decimal.write_cases n with ⟨hn, hwrite⟩ | ⟨hn, hwrite⟩
  · rw [hwrite, Lexeme.ofLine_digits] at hpiece
    obtain ⟨p, _, rfl, hp⟩ := Token.of_map_what_cons hpiece
    obtain ⟨q, _, rfl, hq⟩ := Token.of_map_what_cons hp
    obtain ⟨r, _, rfl, hr⟩ := Token.of_map_what_cons hq
    obtain rfl := List.map_eq_nil_iff.mp hr
    rw [foldlM_cons_of_move (.opening p), foldlM_cons_of_move (.operand _ q),
      foldlM_cons_of_move (.closing r p (List.nil_append _).symm (by simp))]
    refine ⟨_, rfl, ?_⟩
    have hpos : ¬n < 0 := by omega
    simp [Lexeme.literal, hpos]
  · rw [hwrite, Lexeme.ofLine_cons_operator rfl, Lexeme.ofLine_digits] at hpiece
    obtain ⟨p, _, rfl, hp⟩ := Token.of_map_what_cons hpiece
    obtain ⟨m, _, rfl, hm⟩ := Token.of_map_what_cons hp
    obtain ⟨q, _, rfl, hq⟩ := Token.of_map_what_cons hm
    obtain ⟨r, _, rfl, hr⟩ := Token.of_map_what_cons hq
    obtain rfl := List.map_eq_nil_iff.mp hr
    have hinner : ∀ op ∈ [(⟨.neg, m⟩ : Placed Op)], op.what ≠ .lparen := by simp
    rw [foldlM_cons_of_move (.opening p), foldlM_cons_of_move (.minus m rfl),
      foldlM_cons_of_move (.operand _ q), foldlM_cons_of_move (.closing r p rfl hinner)]
    refine ⟨_, rfl, ?_⟩
    simp [Lexeme.literal, hn, emit, token]

/-- A token keeps step with the tokens that it is spelled with. -/
theorem Valued.sameWay_step (h : Valued store c c') (t : Token) {piece : List Token}
    (hpiece : piece.map (·.what) = t.what.spelled store) :
    SameWay (Valued store) (c.step t) (piece.foldlM Conversion.step c') := by
  obtain ⟨what, place⟩ := t
  cases what with
  | operator op =>
    obtain ⟨place', rfl⟩ := Token.of_map_what_singleton hpiece
    simp only [List.foldlM_cons, List.foldlM_nil, bind_pure]
    exact h.step_operator op place place'
  | operand run =>
    rcases hget : store.get? run with _ | n
    · simp only [Lexeme.spelled, Lexeme.bound?, hget] at hpiece
      obtain ⟨place', rfl⟩ := Token.of_map_what_singleton hpiece
      simp only [List.foldlM_cons, List.foldlM_nil, bind_pure]
      exact h.step_operand hget place place'
    · simp only [Lexeme.spelled, Lexeme.bound?, hget] at hpiece
      obtain ⟨out, hfold, hout⟩ := foldlM_group c' hpiece
      have houtput := h.output
      rw [hfold]
      refine .done ⟨?_, h.pending, rfl⟩
      unfold Token.Worth at houtput ⊢
      rw [hout, houtput]
      simp [Lexeme.worth, Lexeme.bound?, hget]

theorem Valued.sameWay_finish (h : Valued store c c') :
    SameWay (Token.Worth store) c.finish c'.finish := by
  have hfind : (c'.pending.find? opens).map (·.what) = (c.pending.find? opens).map (·.what) := by
    have hsame := congrArg (List.find? fun op => decide (op = .lparen)) h.pending
    rwa [List.find?_map, List.find?_map] at hsame
  unfold finish
  rcases hc : c.pending.find? opens with _ | op <;> rw [hc] at hfind
  · rw [Option.map_none, Option.map_eq_none_iff] at hfind
    rw [hfind]
    exact .done (h.emit h.pending)
  · rw [Option.map_some, Option.map_eq_some_iff] at hfind
    obtain ⟨op', hc', _⟩ := hfind
    rw [hc']
    exact .failed rfl

end Conversion

/-- In postfix order each bound name has its value in its place. -/
theorem Postfix.sameWay_ofLine_valued (store : Store) (line : Text) :
    SameWay (Token.Worth store) (ofLine line) (ofLine (line.valued store)) := by
  have hsplit : (Token.ofLine (line.valued store)).map (·.what) =
      ((Token.ofLine line).map (·.what)).flatMap (Lexeme.spelled store) := by
    rw [Token.map_what_ofLine, Token.map_what_ofLine, Lexeme.ofLine_valued]
  have hstart : Conversion.Valued store {} {} := ⟨rfl, rfl, rfl⟩
  have hread := SameWay.foldlM_flatMap (fun _ _ t _ h hpiece => h.sameWay_step t hpiece) hsplit hstart
  exact hread.bind fun c c' h => h.sameWay_finish

/-! ## Evaluation -/

namespace Stack

/-- The same values, whatever they were computed from. -/
abbrev SameValues (stack stack' : Stack) : Prop :=
  List.Forall₂ (fun value value' => value'.what = value.what) stack stack'

variable {limits : Limits} {store : Store} {stack stack' : Stack}

theorem sameWay_apply (limits : Limits) (op : BinOp) (place place' : Span)
    {left left' right right' : Placed Int} (hleft : left'.what = left.what)
    (hright : right'.what = right.what) :
    SameWay Eq (op.apply limits place left right) (op.apply limits place' left' right') := by
  apply SameWay.of_mapError
  rw [BinOp.mapError_apply, BinOp.mapError_apply, hleft, hright]

theorem SameValues.step_operator (h : SameValues stack stack') (op : Op) (place place' : Span) :
    SameWay SameValues (step limits store stack ⟨.operator op, place⟩)
      (step limits store stack' ⟨.operator op, place'⟩) := by
  cases h with
  | nil => cases op <;> exact .failed rfl
  | @cons right right' rest rest' hright hrest =>
    cases op with
    | neg =>
      rw [step_neg, step_neg]
      exact .done (.cons (congrArg Neg.neg hright) hrest)
    | binary op =>
      cases hrest with
      | nil => exact .failed rfl
      | @cons left left' rest rest' hleft hrest =>
        rw [step_binary, step_binary]
        exact (sameWay_apply limits op place place' hleft hright).map fun _ _ hvalue =>
          .cons hvalue.symm hrest
    | lparen | rparen => cases hrest <;> exact .failed rfl

theorem SameValues.step_operand (h : SameValues stack stack') (run : Text) (place place' : Span) :
    SameWay SameValues (step limits store stack ⟨.operand run, place⟩)
      (step limits store stack' ⟨.operand run, place'⟩) := by
  rw [Stack.step_operand, Stack.step_operand]
  unfold Operand.resolve
  rcases Decimal.read? run with _ | n
  · rcases store.get? run with _ | n
    · exact .failed rfl
    · exact .done (.cons rfl h)
  · exact .done (.cons rfl h)

/-- The lexemes of an integer put it on the stack. -/
theorem foldlM_literal (limits : Limits) (store : Store) (stack : Stack) {n : Int}
    {piece : List Token} (hpiece : piece.map (·.what) = Lexeme.literal n) :
    ∃ place, piece.foldlM (step limits store) stack = .ok (⟨n, place⟩ :: stack) := by
  have hread : ∀ place : Span,
      Operand.resolve store ⟨Decimal.digits n.natAbs, place⟩ = .ok (n.natAbs : Int) := by
    intro place
    have hvalue := Decimal.value_digits n.natAbs
    rw [Decimal.value_eq_positional] at hvalue
    simp only [Operand.resolve, Decimal.read?_of_isNumeral (Decimal.isNumeral_digits _), hvalue]
  unfold Lexeme.literal at hpiece
  split at hpiece
  · obtain ⟨q, _, rfl, hq⟩ := Token.of_map_what_cons hpiece
    obtain ⟨m, rfl⟩ := Token.of_map_what_singleton hq
    have hneg : -(n.natAbs : Int) = n := by omega
    refine ⟨m.join q, ?_⟩
    simp only [List.foldlM_cons, List.foldlM_nil, bind_pure, Stack.step_operand, hread]
    change Except.ok (⟨-(n.natAbs : Int), m.join q⟩ :: stack) = _
    rw [hneg]
  · obtain ⟨q, rfl⟩ := Token.of_map_what_singleton hpiece
    have hpos : (n.natAbs : Int) = n := by omega
    refine ⟨q, ?_⟩
    simp only [List.foldlM_cons, List.foldlM_nil, bind_pure, Stack.step_operand, hread, hpos]
    rfl

/-- A token keeps step with the tokens that it is worth. -/
theorem SameValues.sameWay_step (h : SameValues stack stack') (limits : Limits)
    (names : store.BindsNames) (t : Token) {piece : List Token}
    (hpiece : piece.map (·.what) = t.what.worth store) :
    SameWay SameValues (Stack.step limits store stack t)
      (piece.foldlM (Stack.step limits store) stack') := by
  obtain ⟨what, place⟩ := t
  cases what with
  | operator op =>
    obtain ⟨place', rfl⟩ := Token.of_map_what_singleton hpiece
    simp only [List.foldlM_cons, List.foldlM_nil, bind_pure]
    exact h.step_operator op place place'
  | operand run =>
    rcases hget : store.get? run with _ | n
    · simp only [Lexeme.worth, Lexeme.bound?, hget] at hpiece
      obtain ⟨place', rfl⟩ := Token.of_map_what_singleton hpiece
      simp only [List.foldlM_cons, List.foldlM_nil, bind_pure]
      exact h.step_operand run place place'
    · simp only [Lexeme.worth, Lexeme.bound?, hget] at hpiece
      obtain ⟨place', hfold⟩ := foldlM_literal limits store stack' hpiece
      have hname := names run (Store.contains_iff.mpr ⟨n, hget⟩)
      rw [hfold, Stack.step_operand]
      simp only [Operand.resolve, Decimal.read?_of_isName hname, hget]
      exact .done (.cons rfl h)

theorem SameValues.sameWay_result (h : SameValues stack stack') :
    SameWay Eq (result stack) (result stack') := by
  cases h with
  | nil => exact .failed rfl
  | cons hvalue hrest =>
    cases hrest with
    | nil => exact .done hvalue.symm
    | cons _ _ => exact .failed rfl

end Stack

theorem sameWay_evaluate (limits : Limits) {store : Store} (names : store.BindsNames)
    {tokens tokens' : List Token} (split : Token.Worth store tokens tokens') :
    SameWay Eq (evaluate limits store tokens) (evaluate limits store tokens') := by
  have hstart : Stack.SameValues [] [] := .nil
  have hrun := SameWay.foldlM_flatMap
    (fun _ _ t _ h hpiece => h.sameWay_step limits names t hpiece) split hstart
  exact hrun.bind fun stack stack' h => h.sameWay_result

/-! ## Lines -/

namespace Session

variable {s : Session} {line : Text}

theorem sameWay_valueOf (names : s.store.BindsNames) (line : Text) :
    SameWay Eq (s.valueOf line) (s.valueOf (line.valued s.store)) := by
  unfold valueOf
  apply (Postfix.sameWay_ofLine_valued s.store line).bind
  intro tokens tokens' split
  rcases tokens with _ | ⟨t, rest⟩
  · obtain rfl : tokens' = [] := by simpa [Token.Worth] using split
    exact .done rfl
  · have hne : tokens' ≠ [] := by
      rintro rfl
      simp [Token.Worth, Lexeme.worth_ne_nil] at split
    rw [List.isEmpty_eq_false_iff.mpr hne]
    exact (sameWay_evaluate s.limits names split).bind fun _ _ hvalue => .done (congrArg some hvalue)

/-- A doubled operator is refused in both lines or in none. -/
theorem sameWay_refuseDoubled (store : Store) (line : Text) :
    SameWay Eq (refuseDoubled line) (refuseDoubled (line.valued store)) := by
  have hstar := Text.firstPair_valued_eq_none_iff store (Or.inl rfl) line
  have hslash := Text.firstPair_valued_eq_none_iff store (Or.inr rfl) line
  have hboth : ((line.valued store).firstPair '*' 0).or ((line.valued store).firstPair '/' 0) = none ↔
      (line.firstPair '*' 0).or (line.firstPair '/' 0) = none := by
    rw [Option.or_eq_none_iff, Option.or_eq_none_iff, hstar, hslash]
  unfold refuseDoubled
  rcases hfirst : (line.firstPair '*' 0).or (line.firstPair '/' 0) with _ | start
  · rw [hboth.mpr hfirst]
    exact .done rfl
  · rcases hsecond : ((line.valued store).firstPair '*' 0).or ((line.valued store).firstPair '/' 0)
      with _ | start'
    · rw [hboth.mp hsecond] at hfirst
      cases hfirst
    · exact .failed rfl

theorem sameWay_perform (names : s.store.BindsNames)
    (shape : LineShape.ofLine line = .ok .expression) :
    SameWay Eq (s.perform line) (s.perform (line.valued s.store)) := by
  rw [perform_of_expression shape, perform_of_expression (LineShape.ofLine_valued shape s.store)]
  apply (sameWay_refuseDoubled s.store line).bind
  intro _ _ _
  apply (sameWay_valueOf names line).bind
  rintro value? _ rfl
  exact .done rfl

end Session

/-! ## The law -/

/-- In every session that began without names a name means its value: an expression, well
formed or not, comes to the same with the values of its bound names in their places, in
parentheses. Both lines have the same value, or both fail with faults of one kind. -/
theorem a_name_means_its_value (limits : Limits) (entries : List Entry) (line : Text)
    (shape : LineShape.ofLine line = .ok .expression) :
    let s := Session.after { limits } entries
    (∃ v, (s.execute line).1 = .value v ∧ (s.execute (line.valued s.store)).1 = .value v) ∨
      ∃ fault fault', (s.execute line).1 = .failed fault ∧
        (s.execute (line.valued s.store)).1 = .failed fault' ∧ fault'.kind = fault.kind := by
  intro s
  have hnames : s.store.BindsNames := Session.isName_after limits entries
  have hperform := Session.sameWay_perform hnames shape
  unfold Session.execute
  generalize hfirst : s.perform line = first at hperform
  generalize s.perform (line.valued s.store) = second at hperform
  cases hperform with
  | failed kind => exact Or.inr ⟨_, _, rfl, rfl, kind⟩
  | @done result _ related =>
    subst related
    obtain ⟨_ | v, store⟩ := result
    · exact absurd hfirst (Session.perform_ne_none_of_expression shape)
    · exact Or.inl ⟨v, rfl, rfl⟩

/-- With `x=-3` the line `2(*-x)` has the value 6, and so has `2(*-(-3))`, though neither is
well formed. -/
theorem a_minus_before_a_negative_value :
    let s := Session.after {} [.plain "x=-3".toList]
    LineShape.ofLine "2(*-x)".toList = .ok .expression ∧
      Text.valued s.store "2(*-x)".toList = "2(*-(-3))".toList ∧
      (s.execute "2(*-x)".toList).1 = .value 6 ∧ (s.execute "2(*-(-3))".toList).1 = .value 6 := by
  intro s
  have hshape : LineShape.ofLine "2(*-x)".toList = .ok .expression := by decide
  have hvalued : Text.valued s.store "2(*-x)".toList = "2(*-(-3))".toList := by decide
  have hvalue : (s.execute "2(*-x)".toList).1 = .value 6 := by decide
  refine ⟨hshape, hvalued, hvalue, ?_⟩
  rcases a_name_means_its_value {} [.plain "x=-3".toList] _ hshape with
    ⟨v, hline, hnew⟩ | ⟨fault, _, hline, _⟩
  · rw [hvalue, Outcome.value.injEq] at hline
    rw [← hvalued, hline]
    exact hnew
  · rw [hvalue] at hline
    cases hline

end Abacus
