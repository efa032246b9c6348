-- The laws of reading a line: the lexemes put side by side are the line, a
-- line falls apart at each of its operators, and a piece without an operator
-- is one operand.
import Abacus.Token

namespace Abacus

namespace Op

theorem utf8Size_of_ofChar? {c : Char} {op : Op} (h : ofChar? c = some op) : c.utf8Size = 1 := by
  unfold ofChar? at h
  split at h <;> first | rfl | cases h

theorem ofChar?_symbol (op : BinOp) : ofChar? op.symbol = some (.binary op) := by
  cases op <;> rfl

theorem ofChar?_of_isAlphanum {c : Char} (h : c.isAlphanum = true) : ofChar? c = none := by
  unfold ofChar?
  split <;> first | rfl | exact absurd h (by decide)

end Op

theorem isOperator_symbol (op : BinOp) : isOperator op.symbol = true := by
  unfold isOperator
  rw [Op.ofChar?_symbol]
  rfl

theorem isOperator_of_isAlphanum {c : Char} (h : c.isAlphanum = true) : isOperator c = false := by
  unfold isOperator
  rw [Op.ofChar?_of_isAlphanum h]
  rfl

namespace Lexeme

/-! ## The text of the lexemes -/

theorem push_operator {c : Char} {op : Op} (h : Op.ofChar? c = some op) (later : List Lexeme) :
    push c later = .operator op :: later := by
  unfold push
  rw [h]

theorem flatMap_text_push (c : Char) (later : List Lexeme) :
    (push c later).flatMap text = c :: later.flatMap text := by
  rcases h : Op.ofChar? c with _ | op
  · rcases later with _ | ⟨run | op, rest⟩ <;> simp [push, h, text]
  · rw [push_operator h]
    simp [text, Op.ofChar?_eq_some_iff.mp h]

/-- The lexemes side by side are the line. -/
theorem flatMap_text_ofLine (line : Text) : (ofLine line).flatMap text = line := by
  induction line with
  | nil => rfl
  | cons c rest ih =>
    change (push c (ofLine rest)).flatMap text = c :: rest
    rw [flatMap_text_push, ih]

/-! ## Cuts at an operator -/

/-- No character joins a lexeme beyond an operator. -/
theorem push_append_operator (c : Char) (before : List Lexeme) (op : Op) (later : List Lexeme) :
    push c (before ++ .operator op :: later) = push c before ++ .operator op :: later := by
  rcases h : Op.ofChar? c with _ | op'
  · rcases before with _ | ⟨run | op', rest⟩ <;> simp [push, h]
  · simp [push_operator h]

/-- A line falls apart at an operator. -/
theorem ofLine_append_operator {c : Char} {op : Op} (h : Op.ofChar? c = some op) (s t : Text) :
    ofLine (s ++ c :: t) = ofLine s ++ .operator op :: ofLine t := by
  induction s with
  | nil => exact push_operator h (ofLine t)
  | cons d s ih =>
    change push d (ofLine (s ++ c :: t)) = push d (ofLine s) ++ _
    rw [ih, push_append_operator]

theorem ofLine_cons_operator {c : Char} {op : Op} (h : Op.ofChar? c = some op) (t : Text) :
    ofLine (c :: t) = .operator op :: ofLine t := ofLine_append_operator h [] t

theorem ofLine_of_no_operator {t : Text} (nonempty : t ≠ [])
    (h : ∀ c ∈ t, Op.ofChar? c = none) : ofLine t = [.operand t] := by
  induction t with
  | nil => exact absurd rfl nonempty
  | cons c t ih =>
    have hc : Op.ofChar? c = none := h c List.mem_cons_self
    change push c (ofLine t) = _
    rcases t with _ | ⟨d, t⟩
    · simp [push, hc, ofLine]
    · rw [ih (by simp) fun d hd => h d (List.mem_cons_of_mem c hd)]
      simp [push, hc]

/-- A line is a run without an operator, or such a run with an operator and a line after it. -/
theorem induction_operator {motive : Text → Prop}
    (run : ∀ s, (∀ c ∈ s, Op.ofChar? c = none) → motive s)
    (cut : ∀ s c op t, (∀ d ∈ s, Op.ofChar? d = none) → Op.ofChar? c = some op → motive t →
      motive (s ++ c :: t)) (line : Text) : motive line := by
  suffices hall : ∀ s, (∀ c ∈ s, Op.ofChar? c = none) → motive (s ++ line) from hall [] (by simp)
  induction line with
  | nil =>
    intro s hs
    rw [List.append_nil]
    exact run s hs
  | cons c rest ih =>
    intro s hs
    rcases hc : Op.ofChar? c with _ | op
    · rw [List.append_cons]
      apply ih
      intro d hd
      rcases List.mem_append.mp hd with hd | hd
      · exact hs d hd
      · exact List.mem_singleton.mp hd ▸ hc
    · exact cut s c op rest hs hc (ih [] (by simp))

theorem eq_of_mem_ofLine_of_no_operator {s run : Text} (free : ∀ c ∈ s, Op.ofChar? c = none)
    (h : .operand run ∈ ofLine s) : run = s := by
  by_cases hs : s = []
  · subst hs
    cases h
  · rw [ofLine_of_no_operator hs free, List.mem_singleton, Lexeme.operand.injEq] at h
    exact h

/-- No character of an operand is an operator. -/
theorem no_operator_of_mem_ofLine {line run : Text} (h : .operand run ∈ ofLine line) :
    ∀ c ∈ run, Op.ofChar? c = none := by
  induction line using induction_operator with
  | run s free => exact eq_of_mem_ofLine_of_no_operator free h ▸ free
  | cut s c op t free hc ih =>
    rw [ofLine_append_operator hc] at h
    rcases List.mem_append.mp h with h | h
    · exact eq_of_mem_ofLine_of_no_operator free h ▸ free
    · rcases List.mem_cons.mp h with h | h
      · cases h
      · exact ih h

end Lexeme

namespace Token

/-! ## Places -/

/-- The tokens of a piece of a line that begins at an offset. -/
def ofPiece (start : Nat) (t : Text) : List Token := place start (Lexeme.ofLine t)

theorem place_append (start : Nat) (first second : List Lexeme) :
    place start (first ++ second) =
      place start first ++ place (start + Text.byteLength (first.flatMap Lexeme.text)) second := by
  induction first generalizing start with
  | nil => simp [place]
  | cons l rest ih => simp [place, ih, Nat.add_assoc]

theorem map_what_place (start : Nat) (ls : List Lexeme) :
    (place start ls).map (·.what) = ls := by
  induction ls generalizing start with
  | nil => rfl
  | cons l rest ih => simp [place, ih]

theorem map_what_ofLine (line : Text) : (ofLine line).map (·.what) = Lexeme.ofLine line :=
  map_what_place 0 _

theorem what_mem_ofLine {line : Text} {t : Token} (h : t ∈ ofLine line) :
    t.what ∈ Lexeme.ofLine line :=
  map_what_ofLine line ▸ List.mem_map_of_mem h

/-- The tokens of a piece fall apart at an operator, each part in its own place. -/
theorem ofPiece_append_operator {c : Char} {op : Op} (h : Op.ofChar? c = some op) (start : Nat)
    (s t : Text) :
    ofPiece start (s ++ c :: t) =
      ofPiece start s ++
        ⟨.operator op, Span.single (start + s.byteLength)⟩ ::
          ofPiece (start + s.byteLength + 1) t := by
  unfold ofPiece
  rw [Lexeme.ofLine_append_operator h, place_append, Lexeme.flatMap_text_ofLine]
  simp [place, Lexeme.text, Op.ofChar?_eq_some_iff.mp h, Op.utf8Size_of_ofChar? h, Span.single]

theorem ofPiece_cons_operator {c : Char} {op : Op} (h : Op.ofChar? c = some op) (start : Nat)
    (t : Text) :
    ofPiece start (c :: t) =
      ⟨.operator op, Span.single start⟩ :: ofPiece (start + 1) t :=
  ofPiece_append_operator h start [] t

theorem ofPiece_of_no_operator {t : Text} (nonempty : t ≠ [])
    (h : ∀ c ∈ t, Op.ofChar? c = none) (start : Nat) :
    ofPiece start t = [⟨.operand t, start, start + t.byteLength⟩] := by
  unfold ofPiece
  rw [Lexeme.ofLine_of_no_operator nonempty h]
  rfl

end Token

end Abacus
