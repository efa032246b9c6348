-- Lines with values for names: what is read in a line once the value of each
-- bound name stands in its place, in parentheses. Such a line is an expression
-- where the line was one, and has a doubled operator where the line has one.
import Abacus.Proofs.Literals

namespace Abacus

/-! ## Values in the place of names -/

namespace Lexeme

/-- The value that an operand has in the store under its own text. -/
def bound? (store : Store) : Lexeme → Option Int
  | operand run => store.get? run
  | operator _ => none

/-- The value of the lexeme in parentheses, or its text where it has none. -/
def valued (store : Store) (l : Lexeme) : Text :=
  match l.bound? store with
  | some n => '(' :: Decimal.write n ++ [')']
  | none => l.text

/-- The lexemes of this text. -/
def spelled (store : Store) (l : Lexeme) : List Lexeme :=
  match l.bound? store with
  | some n => .operator .lparen :: ofLine (Decimal.write n) ++ [.operator .rparen]
  | none => [l]

end Lexeme

namespace Text

/-- The line with the value of each bound name in its place, in parentheses. -/
def valued (store : Store) (line : Text) : Text :=
  (Lexeme.ofLine line).flatMap (Lexeme.valued store)

variable {store : Store} {line s t : Text} {c : Char} {op : Op}

theorem valued_append_operator (h : Op.ofChar? c = some op) (s t : Text) :
    valued store (s ++ c :: t) = valued store s ++ c :: valued store t := by
  unfold valued
  rw [Lexeme.ofLine_append_operator h]
  simp [Lexeme.valued, Lexeme.bound?, Lexeme.text, Op.ofChar?_eq_some_iff.mp h]

theorem valued_of_no_operator (nonempty : s ≠ []) (free : ∀ d ∈ s, Op.ofChar? d = none) :
    valued store s = (Lexeme.operand s).valued store := by
  unfold valued
  rw [Lexeme.ofLine_of_no_operator nonempty free]
  exact List.append_nil _

end Text

/-! ## What is read -/

namespace Decimal

theorem no_operator_in_digits (n : Nat) : ∀ c ∈ digits n, Op.ofChar? c = none := by
  intro c hc
  apply Op.ofChar?_of_isAlphanum
  unfold Char.isAlphanum
  rw [isDigit_of_isNumeral (isNumeral_digits n) c hc, Bool.or_true]

end Decimal

namespace Lexeme

variable {store : Store}

theorem ofLine_digits (n : Nat) : ofLine (Decimal.digits n) = [.operand (Decimal.digits n)] :=
  ofLine_of_no_operator (Decimal.ne_nil_of_isNumeral (Decimal.isNumeral_digits n))
    (Decimal.no_operator_in_digits n)

theorem ofLine_valued_operand {run : Text} (nonempty : run ≠ [])
    (free : ∀ c ∈ run, Op.ofChar? c = none) :
    ofLine ((operand run).valued store) = (operand run).spelled store := by
  unfold valued spelled
  rcases (operand run).bound? store with _ | n
  · exact ofLine_of_no_operator nonempty free
  · change ofLine ('(' :: (Decimal.write n ++ ')' :: [])) = _
    rw [ofLine_cons_operator rfl, ofLine_append_operator rfl]
    rfl

theorem ofLine_valued_of_no_operator {run : Text} (free : ∀ c ∈ run, Op.ofChar? c = none) :
    ofLine (run.valued store) = (ofLine run).flatMap (spelled store) := by
  by_cases hrun : run = []
  · subst hrun
    rfl
  · rw [Text.valued_of_no_operator hrun free, ofLine_valued_operand hrun free,
      ofLine_of_no_operator hrun free]
    simp

/-- Each lexeme of the line is read as it is spelled with its value. -/
theorem ofLine_valued (line : Text) :
    ofLine (line.valued store) = (ofLine line).flatMap (spelled store) := by
  induction line using induction_operator with
  | run s free => exact ofLine_valued_of_no_operator free
  | cut s c op t free hc ih =>
    rw [Text.valued_append_operator hc, ofLine_append_operator hc, ofLine_append_operator hc,
      ofLine_valued_of_no_operator free, ih, List.flatMap_append, List.flatMap_cons]
    rfl

/-! ## The shape -/

theorem mem_ofLine_write {run : Text} {n : Int} :
    operand run ∈ ofLine (Decimal.write n) ↔ run = Decimal.digits n.natAbs := by
  rcases Decimal.write_cases n with ⟨_, hwrite⟩ | ⟨_, hwrite⟩ <;> rw [hwrite]
  · simp [ofLine_digits]
  · rw [ofLine_cons_operator rfl]
    simp [ofLine_digits]

/-- An operand is spelled as itself, or as the digits of its value. -/
theorem mem_spelled {l : Lexeme} {run : Text} (h : operand run ∈ l.spelled store) :
    l = operand run ∨ ∃ n, run = Decimal.digits n := by
  unfold spelled at h
  split at h
  · rename_i n _
    have hrun : operand run ∈ ofLine (Decimal.write n) := by simpa using h
    exact Or.inr ⟨n.natAbs, mem_ofLine_write.mp hrun⟩
  · exact Or.inl (List.mem_singleton.mp h).symm

theorem exists_mem_spelled (run : Text) : ∃ run', operand run' ∈ (operand run).spelled store := by
  unfold spelled
  split
  · rename_i n _
    refine ⟨Decimal.digits n.natAbs, ?_⟩
    simp [mem_ofLine_write]
  · exact ⟨run, List.mem_cons_self⟩

end Lexeme

namespace LineShape

variable {line : Text}

theorem PlainOperands.valued (h : PlainOperands line) (store : Store) :
    PlainOperands (line.valued store) := by
  unfold PlainOperands
  rw [Lexeme.ofLine_valued]
  constructor
  · intro run hrun
    obtain ⟨l, hl, hrun⟩ := List.mem_flatMap.mp hrun
    rcases Lexeme.mem_spelled hrun with rfl | ⟨n, rfl⟩
    · exact h.1 run hl
    · exact Operand.isPlain_of_isNumeral (Decimal.isNumeral_digits n)
  · obtain ⟨run, hrun⟩ := h.2
    obtain ⟨run', hrun'⟩ := Lexeme.exists_mem_spelled run
    exact ⟨run', List.mem_flatMap.mpr ⟨_, hrun, hrun'⟩⟩

theorem any_isOperator_valued (h : line.any isOperator = true) (store : Store) :
    (line.valued store).any isOperator = true := by
  obtain ⟨c, hc, hop⟩ := List.any_eq_true.mp h
  obtain ⟨op, hc'⟩ := Option.isSome_iff_exists.mp hop
  obtain ⟨s, t, rfl⟩ := List.append_of_mem hc
  rw [Text.valued_append_operator hc', List.any_append, List.any_cons, hop]
  simp

/-- The values leave an expression an expression. -/
theorem ofLine_valued (h : ofLine line = .ok .expression) (store : Store) :
    ofLine (line.valued store) = .ok .expression := by
  obtain ⟨hany, hplain⟩ := of_expression h
  exact ofLine_eq_expression_iff.mpr ⟨any_isOperator_valued hany store, hplain.valued store⟩

end LineShape

/-! ## Doubled operators -/

namespace Text

variable {store : Store} {c p : Char} {s t : Text}

theorem not_mem_valued (doubles : c = '*' ∨ c = '/') (free : ∀ d ∈ s, Op.ofChar? d = none) :
    c ∉ valued store s := by
  have hop : Op.ofChar? c ≠ none := by rcases doubles with rfl | rfl <;> simp [Op.ofChar?]
  have hs : c ∉ s := fun hc => hop (free c hc)
  by_cases hnil : s = []
  · subst hnil
    simp [valued, Lexeme.ofLine]
  · rw [valued_of_no_operator hnil free]
    unfold Lexeme.valued
    split
    · rename_i n _
      have hdigits : c ∉ Decimal.digits n.natAbs :=
        fun hc => hop (Decimal.no_operator_in_digits _ c hc)
      have hparens : c ≠ '(' ∧ c ≠ '-' ∧ c ≠ ')' := by rcases doubles with rfl | rfl <;> decide
      rcases Decimal.write_cases n with ⟨_, hwrite⟩ | ⟨_, hwrite⟩ <;> simp [hwrite, hdigits, hparens]
    · exact hs

theorem valued_ne_nil (nonempty : s ≠ []) (free : ∀ d ∈ s, Op.ofChar? d = none) :
    valued store s ≠ [] := by
  rw [valued_of_no_operator nonempty free]
  unfold Lexeme.valued
  split
  · simp
  · exact nonempty

theorem undoubled_cons_of_not_mem (absent : c ∉ s) (p : Char) : Undoubled c (p :: s) := by
  unfold Undoubled
  rw [List.isChain_cons]
  refine ⟨?_, undoubled_of_not_mem absent⟩
  rintro d hd ⟨_, rfl⟩
  exact absent (List.mem_of_mem_head? hd)

/-- Across a piece without the character nothing is doubled. -/
theorem undoubled_behind_iff (absent : c ∉ s) (nonempty : s ≠ []) (p : Char) (t : Text) :
    Undoubled c (p :: (s ++ t)) ↔ t.Undoubled c := by
  unfold Undoubled
  rw [← List.cons_append, List.isChain_append]
  refine ⟨fun h => h.2.1, ?_⟩
  intro ht
  refine ⟨undoubled_cons_of_not_mem absent p, ht, ?_⟩
  rintro a ha b _ ⟨rfl, _⟩
  rw [List.getLast?_cons_of_ne_nil nonempty] at ha
  exact absent (List.mem_of_mem_getLast? ha)

/-- Behind any character, the values double a star or slash where the line does. -/
theorem undoubled_cons_valued_iff (doubles : c = '*' ∨ c = '/') (p : Char) (line : Text) :
    Undoubled c (p :: valued store line) ↔ Undoubled c (p :: line) := by
  have habsent : ∀ s : Text, (∀ d ∈ s, Op.ofChar? d = none) → c ∉ s := by
    intro s free hc
    rcases doubles with rfl | rfl <;> cases free _ hc
  induction line using Lexeme.induction_operator generalizing p with
  | run s free =>
    exact iff_of_true (undoubled_cons_of_not_mem (not_mem_valued doubles free) p)
      (undoubled_cons_of_not_mem (habsent s free) p)
  | cut s d op t free hd ih =>
    rw [valued_append_operator hd]
    by_cases hs : s = []
    · subst hs
      change Undoubled c (p :: d :: valued store t) ↔ Undoubled c (p :: d :: t)
      unfold Undoubled
      rw [List.isChain_cons_cons, List.isChain_cons_cons]
      exact and_congr_right fun _ => ih d
    · rw [undoubled_behind_iff (not_mem_valued doubles free) (valued_ne_nil hs free),
        undoubled_behind_iff (habsent s free) hs]
      exact ih d

/-- The values double a star or slash exactly where the line does. -/
theorem firstPair_valued_eq_none_iff (store : Store) (doubles : c = '*' ∨ c = '/') (line : Text) :
    (line.valued store).firstPair c 0 = none ↔ line.firstPair c 0 = none := by
  have hfirst : ∀ t : Text, t.Undoubled c ↔ Undoubled c ('(' :: t) := by
    intro t
    have hne : '(' ≠ c := by rcases doubles with rfl | rfl <;> decide
    simp [Undoubled, List.isChain_cons, hne]
  rw [firstPair_eq_none_iff, firstPair_eq_none_iff, hfirst, undoubled_cons_valued_iff doubles,
    ← hfirst]

end Text

end Abacus
