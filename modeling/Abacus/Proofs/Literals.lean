-- Literals: an integer has one value on both of its ways into a session. As a
-- line its sign is an operator in front of a numeral; right of an equals sign
-- the same text is one literal.
import Abacus.Proofs.DecimalRoundTrip
import Abacus.Proofs.FormulaAnswer
import Abacus.Proofs.SessionSteps

namespace Abacus

/-! ## Names and literals -/

theorem not_isDigit_of_isAlpha {c : Char} (h : c.isAlpha = true) : c.isDigit = false := by
  unfold Char.isAlpha Char.isUpper Char.isLower at h
  unfold Char.isDigit
  simp only [Bool.or_eq_true, Bool.and_eq_true, Bool.and_eq_false_iff, decide_eq_true_eq,
    decide_eq_false_iff_not, UInt32.le_iff_toNat_le, ge_iff_le] at h ⊢
  have hA : 'A'.val.toNat = 65 := rfl
  have ha : 'a'.val.toNat = 97 := rfl
  have h9 : '9'.val.toNat = 57 := rfl
  omega

namespace Operand

variable {name : Text}

theorem ne_nil_of_isName (h : isName name = true) : name ≠ [] := by
  rintro rfl
  cases h

theorem isPlain_of_isName (h : isName name = true) : isPlain name = true := by
  unfold isPlain
  rw [h, Bool.true_or]

theorem isAlpha_of_isName (h : isName name = true) : ∀ c ∈ name, c.isAlpha = true := by
  unfold isName at h
  rw [Bool.and_eq_true, List.all_eq_true] at h
  exact h.2

end Operand

namespace Decimal

variable {t : Text} {n : Int}

theorem isDigit_of_isNumeral (h : isNumeral t = true) : ∀ c ∈ t, c.isDigit = true := by
  unfold isNumeral at h
  rw [Bool.and_eq_true, List.all_eq_true] at h
  exact h.2

theorem ne_nil_of_isNumeral (h : isNumeral t = true) : t ≠ [] := by
  rintro rfl
  cases h

/-- A name denotes no integer. -/
theorem read?_of_isName (h : Operand.isName t = true) : read? t = none := by
  have hne := Operand.ne_nil_of_isName h
  have hnot : ¬isNumeral t = true := by
    intro hnum
    obtain ⟨c, rest, rfl⟩ := List.exists_cons_of_ne_nil hne
    have halpha := not_isDigit_of_isAlpha (Operand.isAlpha_of_isName h c List.mem_cons_self)
    rw [isDigit_of_isNumeral hnum c List.mem_cons_self] at halpha
    cases halpha
  rw [read?_of_isWord (Operand.isWord_of_isPlain hne (Operand.isPlain_of_isName h)), if_neg hnot]

theorem read?_of_isNumeral (h : isNumeral t = true) : read? t = some (positional t : Int) := by
  have hword := Operand.isWord_of_isPlain (ne_nil_of_isNumeral h) (Operand.isPlain_of_isNumeral h)
  rw [read?_of_isWord hword, if_pos h, value_eq_positional]

/-- What a text denotes is read in it. -/
theorem Denotes.read?_eq (h : Denotes t n) : read? t = some n := by
  cases h with
  | unsigned numeral => exact read?_of_isNumeral numeral
  | plus numeral | minus numeral => simp [read?, numeral, value_eq_positional]

theorem Denotes.sign_or_digit (h : Denotes t n) :
    ∀ c ∈ t, isSign c = true ∨ c.isDigit = true := by
  intro c hc
  cases h with
  | unsigned numeral => exact Or.inr (isDigit_of_isNumeral numeral c hc)
  | plus numeral | minus numeral =>
    rcases List.mem_cons.mp hc with rfl | hc
    · exact Or.inl rfl
    · exact Or.inr (isDigit_of_isNumeral numeral c hc)

/-! ## As a line -/

theorem value_leaf_of_isNumeral (limits : Limits) (store : Store) (h : isNumeral t = true)
    (span : Span) :
    (Tree.leaf ⟨t, span⟩).value limits store = .ok ⟨(positional t : Int), span⟩ := by
  simp only [Tree.value, Operand.resolve, read?_of_isNumeral h]
  rfl

/-- A numeral with a sign is an expression: the sign stands in front of an operand. -/
theorem Denotes.exists_formula (h : Denotes t n) (limits : Limits) (store : Store) :
    ∃ e, Formula.Line t e ∧ e.answer limits store = .value n := by
  have hatom : ∀ (start : Nat) (ds : Text), isNumeral ds = true → Formula 5 start ds _ :=
    fun start ds numeral =>
      .operand (ne_nil_of_isNumeral numeral) (Operand.isPlain_of_isNumeral numeral)
  cases h with
  | unsigned numeral =>
    refine ⟨_, (hatom 0 _ numeral).loosen (by decide), ?_⟩
    simp [Tree.answer, value_leaf_of_isNumeral limits store numeral]
  | plus numeral =>
    refine ⟨_, (Formula.plus (hatom 1 _ numeral).tighter).loosen (by decide), ?_⟩
    simp [Tree.answer, value_leaf_of_isNumeral limits store numeral]
  | minus numeral =>
    refine ⟨_, (Formula.minus (hatom 1 _ numeral).tighter).loosen (by decide), ?_⟩
    rw [Tree.answer, Tree.value, value_leaf_of_isNumeral limits store numeral]
    rfl

end Decimal

namespace Session

variable {t name : Text} {n : Int}

theorem execute_of_denotes (s : Session) (h : Decimal.Denotes t n) :
    s.execute t = (.value n, s) := by
  obtain ⟨e, hline, hanswer⟩ := h.exists_formula s.limits s.store
  rw [s.execute_formula hline, hanswer]

/-! ## Right of an equals sign -/

theorem refuseDoubled_of_not_mem {line : Text} (star : '*' ∉ line) (slash : '/' ∉ line) :
    refuseDoubled line = .ok () := by
  have hstar := Text.undoubled_of_not_mem star
  have hslash := Text.undoubled_of_not_mem slash
  unfold refuseDoubled
  rw [Text.firstPair_eq_none_iff.mpr hstar, Text.firstPair_eq_none_iff.mpr hslash]
  rfl

theorem refuseDoubled_assignment (named : Operand.isName name = true)
    (h : Decimal.Denotes t n) : refuseDoubled (name ++ '=' :: t) = .ok () := by
  have hother : ∀ c : Char, c.isAlpha = false → c ≠ '=' → isSign c = false → c.isDigit = false →
      c ∉ name ++ '=' :: t := by
    intro c halpha hequals hsign hdigit hc
    rcases List.mem_append.mp hc with hc | hc
    · rw [Operand.isAlpha_of_isName named c hc] at halpha
      cases halpha
    · rcases List.mem_cons.mp hc with hc | hc
      · exact hequals hc
      · rcases h.sign_or_digit c hc with hc | hc
        · rw [hc] at hsign
          cases hsign
        · rw [hc] at hdigit
          cases hdigit
  apply refuseDoubled_of_not_mem
  · exact hother '*' rfl (by decide) rfl rfl
  · exact hother '/' rfl (by decide) rfl rfl

theorem ofLine_assignment (named : Operand.isName name = true) (h : Decimal.Denotes t n) :
    LineShape.ofLine (name ++ '=' :: t) = .ok (.assignment name (LineShape.rightSide name t)) := by
  have hleft : ∀ c ∈ name, c ≠ '=' := by
    rintro c hc rfl
    exact absurd (Operand.isAlpha_of_isName named '=' hc) (by decide)
  have hliteral : Decimal.isLiteral t = true := by
    simp [Decimal.isLiteral, h.read?_eq]
  rw [LineShape.ofLine_of_equals hleft]
  simp [LineShape.ofEquation, named, hliteral, LineShape.rightSide]

theorem execute_assignment (s : Session) (named : Operand.isName name = true)
    (h : Decimal.Denotes t n) :
    s.execute (name ++ '=' :: t) = (.silent, { s with store := s.store.assign name n }) := by
  have hresolve : Operand.resolve s.store (LineShape.rightSide name t) = .ok n := by
    simp [Operand.resolve, LineShape.rightSide, h.read?_eq]
  have hperform : s.perform (name ++ '=' :: t) = .ok (none, s.store.assign name n) :=
    perform_eq_ok_iff.mpr
      ⟨refuseDoubled_assignment named h, .assignment (ofLine_assignment named h) hresolve⟩
  unfold execute
  rw [hperform]

/-- The line of a bound name has its value. -/
theorem execute_name (s : Session) (named : Operand.isName name = true)
    (h : s.store.get? name = some n) : s.execute name = (.value n, s) := by
  have hplain := Operand.isPlain_of_isName named
  have hline : Formula.Line name _ :=
    (Formula.operand (Operand.ne_nil_of_isName named) hplain).loosen (by decide)
  rw [s.execute_formula hline]
  simp [Tree.answer, Tree.value, Operand.resolve, Decimal.read?_of_isName named, h, bind,
    Except.bind]

end Session

/-! ## The law -/

/-- In every session, whatever is bound in it: a text that denotes an integer has it as its
value as a line; given to a name it is taken in silence, and then the name has the same
value. The displayed form of an integer is such a text, so it reads back as the integer. -/
theorem an_integer_has_one_value_on_both_paths (s : Session) (name : Text)
    (named : Operand.isName name = true) :
    (∀ n : Int,
      let text := (Outcome.value n).display.toList
      (s.execute text).1 = .value n ∧ (s.execute (name ++ '=' :: text)).1 = .silent ∧
        ((s.execute (name ++ '=' :: text)).2.execute name).1 = .value n) ∧
    ∀ text n, Decimal.Denotes text n →
      (s.execute text).1 = .value n ∧ (s.execute (name ++ '=' :: text)).1 = .silent ∧
        ((s.execute (name ++ '=' :: text)).2.execute name).1 = .value n := by
  have hboth : ∀ text n, Decimal.Denotes text n →
      (s.execute text).1 = .value n ∧ (s.execute (name ++ '=' :: text)).1 = .silent ∧
        ((s.execute (name ++ '=' :: text)).2.execute name).1 = .value n := by
    intro text n h
    have hget : (s.store.assign name n).get? name = some n := Store.get?_assign_self _ _ _
    rw [s.execute_of_denotes h, s.execute_assignment named h, Session.execute_name _ named hget]
    exact ⟨rfl, rfl, rfl⟩
  refine ⟨?_, hboth⟩
  intro n text
  have htext : text = Decimal.write n := String.toList_ofList
  rw [htext]
  exact hboth _ n (Decimal.denotes_write n)

/-- The text `-007` as a line, and as what is given to `x`, where `x` was 5. -/
theorem minus_seven_behind_zeros :
    let s : Session := { store := Store.assign {} ['x'] 5 }
    Decimal.Denotes "-007".toList (-7) ∧ (s.execute "-007".toList).1 = .value (-7) ∧
      ((s.execute "x=-007".toList).2.execute ['x']).1 = .value (-7) := by
  intro s
  have hdenotes : Decimal.Denotes "-007".toList (-7) := .minus (by decide)
  obtain ⟨_, hboth⟩ := an_integer_has_one_value_on_both_paths s ['x'] (by decide)
  obtain ⟨hline, _, hname⟩ := hboth _ _ hdenotes
  exact ⟨hdenotes, hline, hname⟩

end Abacus
