-- The four shapes, told from the characters of a line and from nothing else:
-- which lines have which shape, and where every other line is at fault. The
-- rules leave no line out and give no line two answers.
import Abacus.Proofs.Literals
import Abacus.Proofs.Tiling

namespace Abacus

namespace Text

/-! ## Kinds of text -/

/-- One Latin letter or more, and nothing else. -/
def Letters (t : Text) : Prop := t ≠ [] ∧ ∀ c ∈ t, c.isAlpha = true

/-- One digit or more, and nothing else. -/
def Digits (t : Text) : Prop := t ≠ [] ∧ ∀ c ∈ t, c.isDigit = true

/-- Digits, with a sign in front of them or without one. -/
def SignedDigits (t : Text) : Prop :=
  ∃ ds, Digits ds ∧ (t = ds ∨ t = '+' :: ds ∨ t = '-' :: ds)

/-- Letters and digits in any mix, at least one of them, and nothing else. -/
def LettersAndDigits (t : Text) : Prop := t ≠ [] ∧ ∀ c ∈ t, c.isAlpha = true ∨ c.isDigit = true

/-- The line is such a mix, or a minus and a mix that has a letter and a digit. -/
def OneWord (line : Text) : Prop :=
  LettersAndDigits line ∨ ∃ body, line = '-' :: body ∧ LettersAndDigits body ∧
    (∃ c ∈ body, c.isAlpha = true) ∧ ∃ c ∈ body, c.isDigit = true

/-- A run of characters that are no operators stands between these two parts of the line, and
goes on neither to the left nor to the right. -/
structure MaximalRun (line before run after : Text) : Prop where
  split : line = before ++ run ++ after
  nonempty : run ≠ []
  free : ∀ c ∈ run, isOperator c = false
  left : ∀ c ∈ before.getLast?, isOperator c = true
  right : ∀ c ∈ after.head?, isOperator c = true

end Text

open Text

namespace Operand

variable {t : Text}

theorem isName_iff : isName t = true ↔ Letters t := by
  simp [isName, Letters]

theorem isWord_iff : isWord t = true ↔ LettersAndDigits t := by
  simp [isWord, LettersAndDigits, Char.isAlphanum]

theorem isPlain_iff (nonempty : t ≠ []) : isPlain t = true ↔ Letters t ∨ Digits t := by
  simp [isPlain, isName_iff, Digits, nonempty]

/-- A mix is neither a name nor a numeral just when it has a letter and a digit. -/
theorem isPlain_eq_false_iff (h : LettersAndDigits t) :
    isPlain t = false ↔ (∃ c ∈ t, c.isAlpha = true) ∧ ∃ c ∈ t, c.isDigit = true := by
  obtain ⟨hne, hmix⟩ := h
  rw [← Bool.not_eq_true, isPlain_iff hne]
  constructor
  · intro hnot
    constructor
    · by_contra hno
      refine hnot (Or.inr ⟨hne, fun c hc => ?_⟩)
      exact (hmix c hc).resolve_left fun halpha => hno ⟨c, hc, halpha⟩
    · by_contra hno
      refine hnot (Or.inl ⟨hne, fun c hc => ?_⟩)
      exact (hmix c hc).resolve_right fun hdigit => hno ⟨c, hc, hdigit⟩
  · rintro ⟨⟨c, hc, halpha⟩, d, hd, hdigit⟩ (⟨_, hall⟩ | ⟨_, hall⟩)
    · have hnot := not_isDigit_of_isAlpha (hall d hd)
      rw [hdigit] at hnot
      cases hnot
    · have hnot := not_isDigit_of_isAlpha halpha
      rw [hall c hc] at hnot
      cases hnot

end Operand

namespace Decimal

variable {t : Text}

theorem isNumeral_iff : isNumeral t = true ↔ Digits t := by
  simp [isNumeral, Digits]

theorem isLiteral_iff : isLiteral t = true ↔ SignedDigits t := by
  constructor
  · intro h
    obtain ⟨n, hn⟩ := Option.isSome_iff_exists.mp h
    unfold read? at hn
    split at hn <;> split at hn <;> cases hn <;> rename_i numeral
    · exact ⟨_, isNumeral_iff.mp numeral, Or.inr (Or.inr rfl)⟩
    · exact ⟨_, isNumeral_iff.mp numeral, Or.inr (Or.inl rfl)⟩
    · exact ⟨_, isNumeral_iff.mp numeral, Or.inl rfl⟩
  · rintro ⟨ds, hds, hsign⟩
    have numeral := isNumeral_iff.mpr hds
    have hdenotes : ∃ n, Denotes t n := by
      rcases hsign with rfl | rfl | rfl
      · exact ⟨_, .unsigned numeral⟩
      · exact ⟨_, .plus numeral⟩
      · exact ⟨_, .minus numeral⟩
    obtain ⟨n, hn⟩ := hdenotes
    simp [isLiteral, hn.read?_eq]

end Decimal

/-! ## Operands are maximal runs -/

section Runs

variable {line before run after : Text}

theorem Text.MaximalRun.ne_nil (h : MaximalRun line before run after) : line ≠ [] := by
  rintro rfl
  have hsplit := h.split
  simp [h.nonempty] at hsplit

/-- A line without an operator is one maximal run. -/
theorem Text.maximalRun_of_no_operator (nonempty : line ≠ [])
    (free : ∀ c ∈ line, isOperator c = false) : MaximalRun line [] line [] :=
  ⟨by simp, nonempty, free, by simp, by simp⟩

theorem Text.MaximalRun.ofLine_eq (h : MaximalRun line before run after) :
    Lexeme.ofLine line = Lexeme.ofLine before ++ .operand run :: Lexeme.ofLine after := by
  obtain ⟨rfl, hne, hfree, hleft, hright⟩ := h
  have hends : ∀ l ∈ (Lexeme.ofLine after).head?, l.isOperand = false := by
    intro l hl
    rcases after with _ | ⟨c, rest⟩
    · cases hl
    · obtain ⟨op, hop⟩ := Option.isSome_iff_exists.mp (hright c rfl)
      rw [Lexeme.ofLine_cons_operator hop] at hl
      cases hl
      rfl
  have hrun := Lexeme.ofLine_append_of_no_operator hne
    (fun c hc => Lexeme.isOperator_eq_false_iff.mp (hfree c hc)) hends
  rw [List.append_assoc]
  rcases List.eq_nil_or_concat before with rfl | ⟨front, c, rfl⟩
  · exact hrun
  · obtain ⟨op, hop⟩ := Option.isSome_iff_exists.mp (hleft c (by simp))
    rw [List.concat_eq_append, List.append_assoc, List.singleton_append,
      Lexeme.ofLine_append_operator hop, Lexeme.ofLine_append_operator hop, hrun]
    simp [Lexeme.ofLine]

theorem Lexeme.exists_operator_of_not_isOperand {l : Lexeme} {line : Text} (h : l ∈ ofLine line)
    (hl : l.isOperand = false) : ∃ c, l.text = [c] ∧ isOperator c = true := by
  cases l with
  | operand run => cases hl
  | operator op =>
    have hop : op ≠ .neg := by
      rintro rfl
      exact (row_ofLine line).operators h
    obtain ⟨c, hsymbol, hc⟩ := exists_char_of_ne_neg hop
    exact ⟨c, hsymbol, by simp [isOperator, hc]⟩

/-- Where an operand is read, a maximal run stands. -/
theorem Text.maximalRun_of_ofLine_eq {ls ms : List Lexeme}
    (h : Lexeme.ofLine line = ls ++ .operand run :: ms) :
    MaximalRun line (ls.flatMap Lexeme.text) run (ms.flatMap Lexeme.text) := by
  have hrow := Lexeme.row_ofLine line
  have hmem : ∀ l ∈ ls ++ .operand run :: ms, l ∈ Lexeme.ofLine line := fun l hl => h ▸ hl
  have happart := hrow.apart
  rw [h, List.isChain_append] at happart
  obtain ⟨_, hms, hls⟩ := happart
  obtain ⟨hne, hfree⟩ := hrow.operands run (hmem _ (by simp))
  refine ⟨?_, hne, hfree, ?_, ?_⟩
  · rw [← Lexeme.flatMap_text_ofLine line, h]
    simp [Lexeme.text]
  · intro c hc
    rcases List.eq_nil_or_concat ls with rfl | ⟨front, l, rfl⟩
    · cases hc
    · rw [List.concat_eq_append] at hls hmem hc
      have hl : l.isOperand = false := by
        simpa [Lexeme.isOperand] using hls l (by simp) _ rfl
      obtain ⟨d, htext, hd⟩ := Lexeme.exists_operator_of_not_isOperand (hmem l (by simp)) hl
      simp only [List.flatMap_append, List.flatMap_singleton, htext, List.getLast?_concat] at hc
      cases hc
      exact hd
  · intro c hc
    rcases ms with _ | ⟨m, rest⟩
    · cases hc
    · have hm : m.isOperand = false := by
        simpa [Lexeme.isOperand] using (List.isChain_cons_cons.mp hms).1
      obtain ⟨d, htext, hd⟩ := Lexeme.exists_operator_of_not_isOperand (hmem m (by simp)) hm
      simp only [List.flatMap_cons, htext, List.singleton_append, List.head?_cons] at hc
      cases hc
      exact hd

theorem Lexeme.operand_mem_ofLine_iff :
    .operand run ∈ ofLine line ↔ ∃ before after, MaximalRun line before run after := by
  constructor
  · intro h
    obtain ⟨ls, ms, hsplit⟩ := List.append_of_mem h
    exact ⟨_, _, maximalRun_of_ofLine_eq hsplit⟩
  · rintro ⟨before, after, h⟩
    rw [h.ofLine_eq]
    simp

/-- An operand that is read in front of a maximal run is a maximal run further left. -/
theorem Text.MaximalRun.exists_earlier (h : MaximalRun line before run after) {earlier : Text}
    (hmem : .operand earlier ∈ Lexeme.ofLine before) :
    ∃ b a, MaximalRun line b earlier a ∧ b.length < before.length := by
  obtain ⟨ls, ms, hsplit⟩ := List.append_of_mem hmem
  have hne := ((Lexeme.row_ofLine before).operands earlier hmem).1
  have hline := h.ofLine_eq
  rw [hsplit, List.append_assoc, List.cons_append] at hline
  refine ⟨_, _, maximalRun_of_ofLine_eq hline, ?_⟩
  have hbefore := Lexeme.flatMap_text_ofLine before
  rw [hsplit, List.flatMap_append, List.flatMap_cons] at hbefore
  have hlength := congrArg List.length hbefore
  have hpos := List.length_pos_of_ne_nil hne
  simp only [List.length_append, Lexeme.text] at hlength
  omega

end Runs

namespace LineShape

variable {line before run after : Text}

theorem operands_ofLine_of_maximalRun (h : MaximalRun line before run after) :
    operands (Token.ofLine line) = operands (Token.ofLine before) ++
      ⟨run, before.byteLength, (before ++ run).byteLength⟩ ::
        operands (Token.ofPiece (before ++ run).byteLength after) := by
  unfold Token.ofLine Token.ofPiece
  rw [h.ofLine_eq, Token.place_append, Lexeme.flatMap_text_ofLine, Nat.zero_add,
    Conversion.operands_append, byteLength_append]
  rfl

/-! ## The rules -/

/-- What a line asks for or is at fault with, by its characters. An equation is at fault with a
side that cannot stand there, or with its equals sign where that side is empty. Any other line
is at fault with its first run that is neither letters nor digits, or as a whole where it has no
run. -/
inductive Told : Text → Except Fault LineShape → Prop
  | assignment {left right : Text} (first : '=' ∉ left) (name : Letters left)
      (literal : SignedDigits right) :
      Told (left ++ '=' :: right) (.ok (.assignment left
        ⟨right, left.byteLength + 1, (left ++ '=' :: right).byteLength⟩))
  | reference {left right : Text} (first : '=' ∉ left) (name : Letters left)
      (source : Letters right) :
      Told (left ++ '=' :: right) (.ok (.reference left
        ⟨right, left.byteLength + 1, (left ++ '=' :: right).byteLength⟩))
  | wrongLeft {left right : Text} (first : '=' ∉ left) (wrong : ¬Letters left) :
      Told (left ++ '=' :: right) (.error ⟨.invalidAssignment, 0, max left.byteLength 1⟩)
  | wrongRight {left right : Text} (first : '=' ∉ left) (name : Letters left)
      (nonempty : right ≠ []) (wrong : ¬(SignedDigits right ∨ Letters right)) :
      Told (left ++ '=' :: right) (.error ⟨.invalidAssignment,
        left.byteLength + 1, (left ++ '=' :: right).byteLength⟩)
  | emptyRight {left : Text} (first : '=' ∉ left) (name : Letters left) :
      Told (left ++ ['=']) (.error ⟨.invalidAssignment, left.byteLength, left.byteLength + 1⟩)
  | value {line : Text} (noEquals : '=' ∉ line) (single : OneWord line) :
      Told line (.ok .value)
  | expression {line : Text} (noEquals : '=' ∉ line) (several : ¬OneWord line)
      (operator : ∃ c ∈ line, isOperator c = true)
      (operand : ∃ before run after, MaximalRun line before run after)
      (plain : ∀ before run after, MaximalRun line before run after → Letters run ∨ Digits run) :
      Told line (.ok .expression)
  | wrongRun {line before run after : Text} (noEquals : '=' ∉ line) (several : ¬OneWord line)
      (here : MaximalRun line before run after) (wrong : ¬(Letters run ∨ Digits run))
      (first : ∀ b r a, MaximalRun line b r a → b.length < before.length → Letters r ∨ Digits r) :
      Told line (.error ⟨.invalidIdentifier, before.byteLength, (before ++ run).byteLength⟩)
  | noRun {line : Text} (noEquals : '=' ∉ line) (several : ¬OneWord line)
      (none : ∀ before run after, ¬MaximalRun line before run after) :
      Told line (.error ⟨.invalidIdentifier, 0, line.byteLength⟩)

/-! ## The rules are kept -/

theorem isSingle_iff : isSingle line = true ↔ OneWord line := by
  constructor
  · intro h
    rcases isSingle_cases h with ⟨body, rfl, hword, hplain⟩ | hword
    · have hmix := Operand.isWord_iff.mp hword
      exact Or.inr ⟨body, rfl, hmix, (Operand.isPlain_eq_false_iff hmix).mp hplain⟩
    · exact Or.inl (Operand.isWord_iff.mp hword)
  · rintro (hmix | ⟨body, rfl, hmix, hboth⟩)
    · exact isSingle_of_isWord (Operand.isWord_iff.mpr hmix)
    · have hplain := (Operand.isPlain_eq_false_iff hmix).mpr hboth
      simp [isSingle, Operand.isWord_iff.mpr hmix, hplain]

theorem ofLine_of_not_mem (h : '=' ∉ line) : ofLine line = ofFormula line :=
  ofLine_of_no_equals fun _ hc heq => h (heq ▸ hc)

theorem ofLine_eq_ofEquation {left : Text} (h : '=' ∉ left) (right : Text) :
    ofLine (left ++ '=' :: right) = ofEquation left right :=
  ofLine_of_equals fun _ hc heq => h (heq ▸ hc)

theorem ofEquation_eq (left right : Text) :
    ofEquation left right =
      if ¬Operand.isName left = true then .error ⟨.invalidAssignment, 0, max left.byteLength 1⟩
      else if Decimal.isLiteral right = true then
        .ok (.assignment left ⟨right, left.byteLength + 1, (left ++ '=' :: right).byteLength⟩)
      else if Operand.isName right = true then
        .ok (.reference left ⟨right, left.byteLength + 1, (left ++ '=' :: right).byteLength⟩)
      else if right = [] then .error ⟨.invalidAssignment, left.byteLength, left.byteLength + 1⟩
      else .error ⟨.invalidAssignment, left.byteLength + 1, (left ++ '=' :: right).byteLength⟩ := by
  have hsize : '='.utf8Size = 1 := rfl
  have hlength : (left ++ '=' :: right).byteLength = left.byteLength + 1 + right.byteLength := by
    rw [byteLength_append, byteLength_cons, hsize, Nat.add_assoc]
  rw [hlength]
  unfold ofEquation
  simp [Span.single]

theorem exists_maximalRun_of_mem_operands {operand : Placed Text}
    (h : operand ∈ operands (Token.ofLine line)) :
    ∃ before after, MaximalRun line before operand.what after :=
  Lexeme.operand_mem_ofLine_iff.mp (exists_mem_operands_iff.mp ⟨operand, h, rfl⟩)

/-- The operands that are neither names nor numerals: none where every maximal run is letters or
digits. -/
theorem find?_operands_eq_none
    (plain : ∀ before run after, MaximalRun line before run after → Letters run ∨ Digits run) :
    (operands (Token.ofLine line)).find? (fun t => !Operand.isPlain t.what) = none := by
  rw [List.find?_eq_none]
  intro operand hmem
  obtain ⟨before, after, hrun⟩ := exists_maximalRun_of_mem_operands hmem
  simpa using (Operand.isPlain_iff hrun.nonempty).mpr (plain _ _ _ hrun)

/-- And else the first maximal run that is neither. -/
theorem find?_operands_eq_some (here : MaximalRun line before run after)
    (wrong : ¬(Letters run ∨ Digits run))
    (first : ∀ b r a, MaximalRun line b r a → b.length < before.length → Letters r ∨ Digits r) :
    (operands (Token.ofLine line)).find? (fun t => !Operand.isPlain t.what) =
      some ⟨run, before.byteLength, (before ++ run).byteLength⟩ := by
  rw [List.find?_eq_some_iff_append]
  refine ⟨?_, _, _, operands_ofLine_of_maximalRun here, ?_⟩
  · simpa using (Operand.isPlain_iff here.nonempty).not.mpr wrong
  · intro operand hmem
    have hlexeme := exists_mem_operands_iff.mp ⟨operand, hmem, rfl⟩
    obtain ⟨b, a, hrun, hlt⟩ := here.exists_earlier hlexeme
    simpa using (Operand.isPlain_iff hrun.nonempty).mpr (first _ _ _ hrun hlt)

theorem operands_ne_nil (h : MaximalRun line before run after) :
    (operands (Token.ofLine line)).isEmpty = false := by
  rw [operands_ofLine_of_maximalRun h]
  simp

theorem operands_eq_nil (h : ∀ before run after, ¬MaximalRun line before run after) :
    operands (Token.ofLine line) = [] := by
  rw [List.eq_nil_iff_forall_not_mem]
  intro operand hmem
  obtain ⟨before, after, hrun⟩ := exists_maximalRun_of_mem_operands hmem
  exact h _ _ _ hrun

theorem ofFormula_of_several (several : ¬OneWord line) :
    ofFormula line =
      match (operands (Token.ofLine line)).find? fun t => !Operand.isPlain t.what with
      | some t => .error ⟨.invalidIdentifier, t.span⟩
      | none =>
        if (operands (Token.ofLine line)).isEmpty then .error ⟨.invalidIdentifier, whole line⟩
        else if line.any isOperator then .ok .expression
        else .ok .value :=
  if_neg (isSingle_iff.not.mpr several)

theorem Told.ofLine_eq {result : Except Fault LineShape} (h : Told line result) :
    ofLine line = result := by
  cases h with
  | assignment first name literal =>
    have hname := Operand.isName_iff.mpr name
    have hliteral := Decimal.isLiteral_iff.mpr literal
    rw [ofLine_eq_ofEquation first, ofEquation_eq]
    simp [hname, hliteral]
  | @reference left right first name source =>
    have hname := Operand.isName_iff.mpr name
    have hsource := Operand.isName_iff.mpr source
    have hliteral : Decimal.isLiteral right = false := by
      simp [Decimal.isLiteral, Decimal.read?_of_isName hsource]
    rw [ofLine_eq_ofEquation first, ofEquation_eq]
    simp only [hname, hsource, hliteral]
    rfl
  | wrongLeft first wrong =>
    have hname := Operand.isName_iff.not.mpr wrong
    rw [ofLine_eq_ofEquation first, ofEquation_eq, if_pos hname]
  | wrongRight first name nonempty wrong =>
    have hname := Operand.isName_iff.mpr name
    have hliteral := Decimal.isLiteral_iff.not.mpr fun h => wrong (Or.inl h)
    have hsource := Operand.isName_iff.not.mpr fun h => wrong (Or.inr h)
    rw [ofLine_eq_ofEquation first, ofEquation_eq, if_neg (not_not.mpr hname), if_neg hliteral,
      if_neg hsource, if_neg nonempty]
  | emptyRight first name =>
    have hname := Operand.isName_iff.mpr name
    rw [ofLine_eq_ofEquation first, ofEquation_eq, if_neg (not_not.mpr hname)]
    rfl
  | value noEquals single =>
    rw [ofLine_of_not_mem noEquals, ofFormula, if_pos (isSingle_iff.mpr single)]
  | expression noEquals several operator operand plain =>
    obtain ⟨before, run, after, hrun⟩ := operand
    rw [ofLine_of_not_mem noEquals, ofFormula_of_several several, find?_operands_eq_none plain]
    simp only [operands_ne_nil hrun, List.any_eq_true.mpr operator]
    rfl
  | wrongRun noEquals several here wrong first =>
    rw [ofLine_of_not_mem noEquals, ofFormula_of_several several,
      find?_operands_eq_some here wrong first]
  | noRun noEquals several none =>
    rw [ofLine_of_not_mem noEquals, ofFormula_of_several several, operands_eq_nil none]
    rfl

/-! ## No line is left out -/

theorem exists_told_of_equation {left : Text} (first : '=' ∉ left) (right : Text) :
    ∃ result, Told (left ++ '=' :: right) result := by
  by_cases name : Letters left
  · by_cases literal : SignedDigits right
    · exact ⟨_, .assignment first name literal⟩
    · by_cases source : Letters right
      · exact ⟨_, .reference first name source⟩
      · by_cases nonempty : right = []
        · subst nonempty
          exact ⟨_, .emptyRight first name⟩
        · exact ⟨_, .wrongRight first name nonempty (not_or.mpr ⟨literal, source⟩)⟩
  · exact ⟨_, .wrongLeft first name⟩

/-- Of the runs that are neither letters nor digits, one is the first. -/
theorem exists_first_wrong_run
    (h : ∃ before run after, MaximalRun line before run after ∧ ¬(Letters run ∨ Digits run)) :
    ∃ before run after, MaximalRun line before run after ∧ ¬(Letters run ∨ Digits run) ∧
      ∀ b r a, MaximalRun line b r a → b.length < before.length → Letters r ∨ Digits r := by
  classical
  have hlengths : ∃ n before run after, MaximalRun line before run after ∧
      ¬(Letters run ∨ Digits run) ∧ before.length = n := by
    obtain ⟨before, run, after, hrun, hwrong⟩ := h
    exact ⟨_, before, run, after, hrun, hwrong, rfl⟩
  obtain ⟨before, run, after, here, hwrong, hlength⟩ := Nat.find_spec hlengths
  refine ⟨before, run, after, here, hwrong, ?_⟩
  intro b r a hrun hlt
  by_contra hnot
  exact Nat.find_min hlengths (hlength ▸ hlt) ⟨b, r, a, hrun, hnot, rfl⟩

/-- Without an operator the whole line is one run, so letters or digits there are one word. -/
theorem oneWord_of_no_operator (nonempty : line ≠ []) (free : ∀ c ∈ line, isOperator c = false)
    (plain : ∀ before run after, MaximalRun line before run after → Letters run ∨ Digits run) :
    OneWord line := by
  have hplain := plain _ _ _ (maximalRun_of_no_operator nonempty free)
  have hword := Operand.isWord_of_isPlain nonempty ((Operand.isPlain_iff nonempty).mpr hplain)
  exact Or.inl (Operand.isWord_iff.mp hword)

theorem exists_told_of_no_equals (noEquals : '=' ∉ line) : ∃ result, Told line result := by
  by_cases single : OneWord line
  · exact ⟨_, .value noEquals single⟩
  by_cases wrong : ∃ before run after, MaximalRun line before run after ∧
      ¬(Letters run ∨ Digits run)
  · obtain ⟨before, run, after, here, hwrong, first⟩ := exists_first_wrong_run wrong
    exact ⟨_, .wrongRun noEquals single here hwrong first⟩
  have plain : ∀ before run after, MaximalRun line before run after → Letters run ∨ Digits run := by
    intro before run after hrun
    by_contra hnot
    exact wrong ⟨before, run, after, hrun, hnot⟩
  by_cases operand : ∃ before run after, MaximalRun line before run after
  · refine ⟨_, .expression noEquals single ?_ operand plain⟩
    obtain ⟨before, run, after, hrun⟩ := operand
    by_contra hnone
    refine single (oneWord_of_no_operator hrun.ne_nil (fun c hc => ?_) plain)
    rw [← Bool.not_eq_true]
    exact fun hop => hnone ⟨c, hc, hop⟩
  · refine ⟨_, .noRun noEquals single ?_⟩
    intro before run after hrun
    exact operand ⟨before, run, after, hrun⟩

theorem exists_told (line : Text) : ∃ result, Told line result := by
  by_cases h : '=' ∈ line
  · obtain ⟨left, right, rfl, first⟩ := List.eq_append_cons_of_mem h
    exact exists_told_of_equation first right
  · exact exists_told_of_no_equals h

/-! ## The law -/

/-- The right side of an equation stands on its own bytes. -/
theorem slice?_right (left right : Text) :
    slice? (left ++ '=' :: right) ⟨left.byteLength + 1, (left ++ '=' :: right).byteLength⟩ =
      some right := by
  rw [slice?_eq_some_iff]
  refine ⟨left ++ ['='], [], by simp, ?_, by simp⟩
  rw [byteLength_append]
  rfl

/-- The shape of a line, or its fault, is what the rules tell of its characters. Of an equation
both sides are given back as they stand in it. -/
theorem a_line_has_the_shape_of_its_characters :
    (∀ line result, ofLine line = result ↔ Told line result) ∧
    ∀ line name right, ofLine line = .ok (.assignment name right) ∨
        ofLine line = .ok (.reference name right) →
      line = name ++ '=' :: right.what ∧ line.slice? right.span = some right.what := by
  have hiff (line : Text) (result : Except Fault LineShape) :
      ofLine line = result ↔ Told line result := by
    constructor
    · rintro rfl
      obtain ⟨result, h⟩ := exists_told line
      rwa [h.ofLine_eq]
    · exact Told.ofLine_eq
  refine ⟨hiff, ?_⟩
  rintro line name right (h | h) <;> cases (hiff _ _).mp h <;> exact ⟨rfl, slice?_right _ _⟩

/-- `ab=-12` gives a literal to a name, and the literal stands on the last three bytes. -/
theorem minus_twelve_for_ab :
    ofLine "ab=-12".toList = .ok (.assignment "ab".toList ⟨"-12".toList, 3, 6⟩) ∧
      Text.slice? "ab=-12".toList ⟨3, 6⟩ = some "-12".toList := by
  have hshape : ofLine "ab=-12".toList = .ok (.assignment "ab".toList ⟨"-12".toList, 3, 6⟩) := by
    decide
  exact ⟨hshape, (a_line_has_the_shape_of_its_characters.2 _ _ _ (Or.inl hshape)).2⟩

end LineShape

end Abacus
