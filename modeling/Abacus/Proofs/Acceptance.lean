-- What the calculator accepts: a line that has a value is an expression, but
-- for operands that stand side by side. While the line is read either the
-- tokens so far lack a value, or the line can be read on to an expression.
import Abacus.Proofs.Balance
import Abacus.Proofs.Bindings
import Abacus.Proofs.Derivation
import Abacus.Proofs.SideBySide

namespace Abacus

/-! ## The conversion reads expressions -/

namespace Conversion

/-- How many values the tokens have given too few: none is due before the first operand and
after an operator, and one after an operand or a group. -/
def lack (c : Conversion) : Int := (if c.expectsOperand then 0 else 1) - c.total

/-- The tokens have not given too many values, and where they gave all that are due, what was
read can be read on to an expression. -/
def Sound (c : Conversion) (read : Text) : Prop :=
  0 ≤ c.lack ∧ (c.lack = 0 → ReadsOn (c.pending.countP opens) c.expectsOperand read)

variable {c c' : Conversion} {t : Token} {read : Text}

theorem lack_of_expects (h : c.expectsOperand = true) : c.lack = -c.total := by
  unfold lack
  rw [if_pos h]
  omega

theorem lack_of_not_expects (h : c.expectsOperand = false) : c.lack = 1 - c.total := by
  unfold lack
  rw [h]
  rfl

/-- No token may make up for a value that is missing. -/
theorem Sound.move {text : Text} (hs : c.Sound read) (hle : c.lack ≤ c'.lack)
    (hreads : c.lack = c'.lack → ReadsOn (c.pending.countP opens) c.expectsOperand read →
      ReadsOn (c'.pending.countP opens) c'.expectsOperand (read ++ text)) :
    c'.Sound (read ++ text) := by
  refine ⟨Int.le_trans hs.1 hle, fun hzero => ?_⟩
  have hlack : c.lack = 0 := Int.le_antisymm (hzero ▸ hle) hs.1
  exact hreads (hlack.trans hzero.symm) (hs.2 hlack)

theorem sound_start : Sound {} [] := ⟨Int.le_refl _, fun _ => ReadsOn.nil⟩

theorem countP_opens_append {ops : List (Placed Op)} (h : ∀ op ∈ ops, op.what ≠ .lparen)
    (rest : List (Placed Op)) : (ops ++ rest).countP opens = rest.countP opens := by
  rw [List.countP_eq_length_filter, filter_opens_append h, ← List.countP_eq_length_filter]

theorem Move.expectsOperand_eq (h : Move c t c') : c'.expectsOperand = !t.what.ends := by
  cases h with
  | operand | opening | closing | minus => rfl
  | plus _ expects => exact expects
  | between op _ _ parens =>
    cases op with
    | rparen => exact absurd rfl parens.2
    | lparen | binary | neg => rfl

/-- A closing parenthesis or an operator comes where no operand is due, or a value is missing
from then on. -/
theorem Sound.move_of_lack {text : Text} (hs : c.Sound read) (hlack : c'.lack = 1 - c.total)
    (hreads : ReadsOn (c.pending.countP opens) false read →
      ReadsOn (c'.pending.countP opens) c'.expectsOperand (read ++ text)) :
    c'.Sound (read ++ text) := by
  cases hexpects : c.expectsOperand with
  | true =>
    have hc := lack_of_expects hexpects
    exact hs.move (by omega) fun heq => by omega
  | false =>
    have hc := lack_of_not_expects hexpects
    exact hs.move (by omega) fun _ h => hreads (hexpects ▸ h)

/-- The step: no token makes up for a value that is missing. -/
theorem Move.sound (h : Move c t c') (hs : c.Sound read) (readable : t.what.Readable)
    (apart : t.what.begins = true → c.expectsOperand = true) :
    c'.Sound (read ++ t.what.text) := by
  have htotal := h.total_eq
  cases h with
  | operand text span =>
    have hexpects : c.expectsOperand = true := apart rfl
    rw [gain_operand] at htotal
    refine hs.move ?_ fun _ hreads => ?_
    · rw [lack_of_expects hexpects, lack_of_not_expects rfl, htotal]
      omega
    · rw [hexpects] at hreads
      exact hreads.atom (.operand readable.1 readable.2)
  | opening span =>
    have hexpects : c.expectsOperand = true := apart rfl
    rw [gain_lparen] at htotal
    refine hs.move ?_ fun _ hreads => ?_
    · rw [lack_of_expects hexpects, lack_of_expects rfl, htotal]
      omega
    · rw [hexpects] at hreads
      rw [List.countP_cons_of_pos (by rfl)]
      exact hreads.opening
  | @closing span place inner outer split closed =>
    rw [gain_rparen] at htotal
    refine hs.move_of_lack ?_ fun hreads => ?_
    · rw [lack_of_not_expects rfl, htotal, Int.add_zero]
    · rw [split, countP_opens_append closed, List.countP_cons_of_pos (by rfl)] at hreads
      exact hreads.closing
  | plus span expects =>
    refine hs.move (Int.le_refl _) fun _ hreads => ?_
    rw [expects] at hreads ⊢
    exact hreads.sign rfl
  | minus span expects =>
    rw [gain_of_sign (by rw [expects]; rfl)] at htotal
    refine hs.move ?_ fun _ hreads => ?_
    · rw [lack_of_expects expects, lack_of_expects rfl, htotal]
      omega
    · rw [expects] at hreads
      rw [List.countP_cons_of_neg (by simp [opens])]
      exact hreads.sign rfl
  | @between op span tight rest unsigned parens split binds loose =>
    cases op with
    | lparen => exact absurd rfl parens.1
    | rparen => exact absurd rfl parens.2
    | neg => exact absurd rfl readable
    | binary op =>
      rw [gain_of_not_sign unsigned, Lexeme.gain] at htotal
      refine hs.move_of_lack ?_ fun hreads => ?_
      · rw [lack_of_expects rfl, htotal]
        omega
      · have hclosed : ∀ o ∈ tight, o.what ≠ .lparen :=
          fun o ho => ne_lparen_of_rank_le parens (binds o ho)
        rw [split, countP_opens_append hclosed] at hreads
        rw [List.countP_cons_of_neg (by simp [opens])]
        exact hreads.operator op

/-- The run: what is read so far stays sound, token by token. -/
theorem sound_of_foldlM {tokens : List Token} (h : tokens.foldlM step c = .ok c')
    (hs : c.Sound read) (readable : ∀ t ∈ tokens, t.what.Readable)
    (apart : tokens.IsChain fun t u => t.what.Apart u.what)
    (first : ∀ t ∈ tokens.head?, t.what.begins = true → c.expectsOperand = true) :
    c'.Sound (read ++ (tokens.map (·.what)).flatMap Lexeme.text) := by
  induction tokens generalizing c read with
  | nil =>
    cases h
    simpa using hs
  | cons t rest ih =>
    obtain ⟨d, hmove, hrest⟩ := exists_move_of_foldlM_cons h
    obtain ⟨hapart, hchain⟩ := List.isChain_cons.mp apart
    have hd := hmove.sound hs (readable t List.mem_cons_self) (first t rfl)
    have hnext : ∀ u ∈ rest.head?, u.what.begins = true → d.expectsOperand = true := by
      intro u hu hbegins
      rw [hmove.expectsOperand_eq, Bool.not_eq_true', ← Bool.not_eq_true]
      exact fun hends => hapart u hu ⟨hends, hbegins⟩
    have hsound := ih hrest hd (fun u hu => readable u (List.mem_cons_of_mem t hu)) hchain hnext
    rw [List.map_cons, List.flatMap_cons, ← List.append_assoc]
    exact hsound

/-- A conversion that ends with one value has read an expression. -/
theorem Sound.derives {out : List Token} (hs : c.Sound read) (hfinish : c.finish = .ok out)
    (hout : balance out = 1) : Derives 1 read := by
  have htotal : c.total = 1 := balance_of_finish hfinish ▸ hout
  obtain ⟨hle, hreads⟩ := hs
  have hcount := countP_opens_append (finish_eq_ok hfinish).1 []
  rw [List.append_nil] at hcount
  rw [hcount] at hreads
  cases hexpects : c.expectsOperand with
  | true =>
    -- One value is there and none is due, which is one too many.
    rw [lack_of_expects hexpects] at hle
    omega
  | false =>
    rw [lack_of_not_expects hexpects, hexpects] at hreads
    exact (hreads (by omega)).derives

end Conversion

/-! ## Lines that have a value -/

/-- Tokens of a line that evaluate are those of an expression, where no operands stand side
by side. -/
theorem Postfix.derives_of_evaluate {limits : Limits} {store : Store} {line : Text}
    {tokens : List Token} {v : Int} (hpost : ofLine line = .ok tokens)
    (hvalue : evaluate limits store tokens = .ok v)
    (plain : ∀ run, .operand run ∈ Lexeme.ofLine line → Operand.isPlain run = true)
    (apart : ¬SideBySide line) : Derives 1 line := by
  obtain ⟨c, hfold, hfinish⟩ := Conversion.ofTokens_eq_ok hpost
  have hlexemes := Token.map_what_ofLine line
  have hread := Lexeme.readable_of_plain plain
  have hchain := Lexeme.isChain_apart (not_sideBySide_iff.mp apart)
  rw [← hlexemes] at hread hchain
  have hsound := Conversion.sound_of_foldlM hfold Conversion.sound_start
    (fun t ht => hread t.what (List.mem_map_of_mem ht)) ((List.isChain_map _).mp hchain)
    (fun _ _ _ => rfl)
  rw [hlexemes, Lexeme.flatMap_text_ofLine, List.nil_append] at hsound
  exact hsound.derives hfinish (balance_of_evaluate hvalue)

/-- What has a value as one operand is a name or a numeral, when only names are bound. -/
theorem Operand.isPlain_of_resolve {store : Store} {line : Text} {span : Span} {v : Int}
    (h : resolve store ⟨line, span⟩ = .ok v) (single : LineShape.isSingle line = true)
    (names : ∀ name, store.contains name = true → isName name = true) :
    line ≠ [] ∧ isPlain line = true := by
  unfold resolve at h
  dsimp only at h
  split at h
  · rename_i n hn
    rcases LineShape.isSingle_cases single with ⟨body, rfl, _, hplain⟩ | hword
    · have hnum : Decimal.isNumeral body = true := by
        by_contra hnot
        simp [Decimal.read?, hnot] at hn
      rw [isPlain_of_isNumeral hnum] at hplain
      cases hplain
    · have hnum : Decimal.isNumeral line = true := by
        by_contra hnot
        simp [Decimal.read?_of_isWord hword, hnot] at hn
      exact ⟨ne_nil_of_isWord hword, isPlain_of_isNumeral hnum⟩
  · split at h
    · rename_i n hn
      have hname := names line (Store.contains_iff.mpr ⟨n, hn⟩)
      unfold isPlain
      rw [hname, Bool.true_or]
      refine ⟨?_, rfl⟩
      rintro rfl
      cases hname
    · cases h

namespace Session

variable {s : Session} {line : Text} {v : Int}

theorem derives_of_execute (h : (s.execute line).1 = .value v)
    (names : ∀ name, s.store.contains name = true → Operand.isName name = true)
    (apart : ¬SideBySide line) : Derives 1 line := by
  have hperforms := performs_of_execute h
  cases hperforms with
  | value shape denotes =>
    have hplain : line ≠ [] ∧ Operand.isPlain line = true := by
      rcases LineShape.of_value shape with hsingle | hplain
      · exact Operand.isPlain_of_resolve denotes hsingle names
      · exact hplain
    exact (Derives.operand hplain.1 hplain.2).loosen (by decide)
  | expression shape order evaluates =>
    exact Postfix.derives_of_evaluate order evaluates (LineShape.of_expression shape).2.1 apart

end Session

/-! ## The law -/

/-- In every session that began without names: of the lines that are answered with a value,
the expressions are just those in which no two operands or groups stand side by side. -/
theorem a_line_with_a_value_is_an_expression_unless_operands_abut (limits : Limits)
    (entries : List Entry) (line : Text) (v : Int)
    (h : ((Session.after { limits } entries).execute line).1 = .value v) :
    (∃ e, Formula.Line line e) ↔ ¬SideBySide line := by
  constructor
  · rintro ⟨e, he⟩
    exact he.not_sideBySide
  · intro apart
    exact Session.derives_of_execute h (Session.isName_after limits entries) apart 0

/-- With `x=4` the line `2*(3+x)` has the value 14, so it is an expression. -/
theorem two_times_a_group_is_an_expression :
    ((Session.after {} [.plain "x=4".toList]).execute "2*(3+x)".toList).1 = .value 14 ∧
      ∃ e, Formula.Line "2*(3+x)".toList e := by
  have hvalue : ((Session.after {} [.plain "x=4".toList]).execute "2*(3+x)".toList).1 =
      .value 14 := by decide
  refine ⟨hvalue, ?_⟩
  rw [a_line_with_a_value_is_an_expression_unless_operands_abut {} _ _ 14 hvalue,
    not_sideBySide_iff]
  decide

/-- The operator of `2(*3)` finds its left operand outside its group. The line is no
expression, and has the value 6. -/
theorem an_operator_reaches_out_of_its_group :
    (Session.execute {} "2(*3)".toList).1 = .value 6 ∧
      ¬∃ e, Formula.Line "2(*3)".toList e := by
  refine ⟨by decide, ?_⟩
  rintro ⟨e, he⟩
  exact he.not_sideBySide ⟨[], '2', '(', "*3)".toList, rfl, Or.inr ⟨rfl, rfl⟩⟩

end Abacus
