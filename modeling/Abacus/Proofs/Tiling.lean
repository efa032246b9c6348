-- The tiling of a line: its tokens lie end to end from the first byte to the
-- last, each on the characters that it was read from. Lexemes put side by side
-- are read back as they were, if no two operands meet.
import Abacus.Proofs.FaultPlaces

namespace Abacus

/-! ## Slices -/

namespace Text

/-- The text in two, cut after this many bytes. A character cannot be cut. -/
def splitBytes? : Nat → Text → Option (Text × Text)
  | 0, t => some ([], t)
  | _ + 1, [] => none
  | n + 1, c :: rest =>
    if c.utf8Size ≤ n + 1 then
      (splitBytes? (n + 1 - c.utf8Size) rest).map fun (before, after) => (c :: before, after)
    else none

/-- The characters on the bytes of a span, where it has none of them in part. -/
def slice? (t : Text) (span : Span) : Option Text := do
  let (front, _) ← splitBytes? span.stop t
  let (_, piece) ← splitBytes? span.start front
  some piece

variable {t before after piece : Text} {span : Span}

theorem splitBytes?_append (before after : Text) :
    splitBytes? before.byteLength (before ++ after) = some (before, after) := by
  induction before with
  | nil => simp [splitBytes?]
  | cons c before ih =>
    obtain ⟨k, hk⟩ := Nat.exists_eq_add_of_lt c.utf8Size_pos
    have hlength : byteLength (c :: before) = (k + byteLength before) + 1 := by
      simp only [byteLength_cons, hk]
      omega
    have hrest : k + byteLength before + 1 - c.utf8Size = byteLength before := by omega
    have hle : c.utf8Size ≤ k + byteLength before + 1 := by omega
    rw [hlength, List.cons_append, splitBytes?, if_pos hle, hrest, ih]
    rfl

theorem of_splitBytes? {n : Nat} (h : splitBytes? n t = some (before, after)) :
    t = before ++ after ∧ before.byteLength = n := by
  induction t generalizing n before with
  | nil =>
    cases n with
    | zero =>
      cases h
      exact ⟨rfl, rfl⟩
    | succ n => cases h
  | cons c rest ih =>
    cases n with
    | zero =>
      cases h
      exact ⟨rfl, rfl⟩
    | succ n =>
      rw [splitBytes?] at h
      split at h
      · rename_i hle
        obtain ⟨⟨front, back⟩, hsplit, heq⟩ := Option.map_eq_some_iff.mp h
        cases heq
        obtain ⟨rfl, hlength⟩ := ih hsplit
        refine ⟨rfl, ?_⟩
        rw [byteLength_cons, hlength]
        omega
      · cases h

theorem slice?_eq_some_iff :
    t.slice? span = some piece ↔
      ∃ before after, t = before ++ piece ++ after ∧ before.byteLength = span.start ∧
        (before ++ piece).byteLength = span.stop := by
  unfold slice?
  simp only [Option.bind_eq_bind, Option.bind_eq_some_iff, Prod.exists, Option.some.injEq]
  constructor
  · rintro ⟨front, after, hstop, before, _, hstart, rfl⟩
    obtain ⟨rfl, hfront⟩ := of_splitBytes? hstop
    obtain ⟨rfl, hbefore⟩ := of_splitBytes? hstart
    exact ⟨before, after, rfl, hbefore, hfront⟩
  · rintro ⟨before, after, rfl, hstart, hstop⟩
    rw [← hstart, ← hstop]
    exact ⟨_, _, splitBytes?_append _ _, _, _, splitBytes?_append _ _, rfl⟩

end Text

/-! ## Spans end to end -/

/-- The spans begin at the offset, none of them is empty, each begins where the one before it
ends, and they end at the last offset. -/
def Span.Tile (start : Nat) : List Span → Nat → Prop
  | [], last => start = last
  | span :: rest, last => span.start = start ∧ start < span.stop ∧ Tile span.stop rest last

theorem Token.tile_place {ls : List Lexeme} (nonempty : ∀ l ∈ ls, l.text ≠ []) (start : Nat) :
    Span.Tile start ((place start ls).map (·.span))
      (start + Text.byteLength (ls.flatMap Lexeme.text)) := by
  induction ls generalizing start with
  | nil => exact rfl
  | cons l rest ih =>
    have hpos := Text.byteLength_pos (nonempty l List.mem_cons_self)
    have hrest := ih (fun m hm => nonempty m (List.mem_cons_of_mem l hm))
      (start + l.text.byteLength)
    rw [Nat.add_assoc, ← Text.byteLength_append] at hrest
    refine ⟨rfl, ?_, hrest⟩
    change start < start + l.text.byteLength
    omega

namespace Lexeme

/-! ## Rows of lexemes -/

def isOperand : Lexeme → Bool
  | operand _ => true
  | operator _ => false

/-- Lexemes that can stand side by side in a line, and be told apart there. -/
structure Row (ls : List Lexeme) : Prop where
  operands : ∀ run, .operand run ∈ ls → run ≠ [] ∧ ∀ c ∈ run, isOperator c = false
  operators : .operator .neg ∉ ls
  apart : ls.IsChain fun l m => ¬(l.isOperand = true ∧ m.isOperand = true)

theorem isOperator_eq_false_iff {c : Char} : isOperator c = false ↔ Op.ofChar? c = none := by
  simp [isOperator]

theorem apart_ofLine (line : Text) :
    (ofLine line).IsChain fun l m => ¬(l.isOperand = true ∧ m.isOperand = true) := by
  induction line with
  | nil => exact List.isChain_nil
  | cons c rest ih =>
    rcases hc : Op.ofChar? c with _ | op
    · change (push c (ofLine rest)).IsChain _
      rcases push_other hc (ofLine rest) with ⟨run, later, hl, hpush⟩ | ⟨hop, hpush⟩ <;> rw [hpush]
      · rw [hl] at ih
        refine ih.imp_head ?_
        exact fun hrun => hrun
      · refine List.isChain_cons.mpr ⟨?_, ih⟩
        rintro l hl ⟨_, hoperand⟩
        obtain ⟨op, rfl⟩ := hop l hl
        cases hoperand
    · rw [ofLine_cons_operator hc]
      refine List.isChain_cons.mpr ⟨?_, ih⟩
      rintro l _ ⟨hoperator, _⟩
      cases hoperator

/-- The lexemes of a line are such a row. -/
theorem row_ofLine (line : Text) : Row (ofLine line) where
  operands run h := by
    refine ⟨fun hempty => (ne_of_mem_ofLine h).1 (by rw [hempty]), fun c hc => ?_⟩
    exact isOperator_eq_false_iff.mpr (no_operator_of_mem_ofLine h c hc)
  operators h := (ne_of_mem_ofLine h).2 rfl
  apart := apart_ofLine line

/-- A run goes on to the next operator and no further. -/
theorem ofLine_append_of_no_operator {run rest : Text} (nonempty : run ≠ [])
    (free : ∀ c ∈ run, Op.ofChar? c = none)
    (ends : ∀ l ∈ (ofLine rest).head?, l.isOperand = false) :
    ofLine (run ++ rest) = .operand run :: ofLine rest := by
  induction run with
  | nil => exact absurd rfl nonempty
  | cons c run ih =>
    have hc : Op.ofChar? c = none := free c List.mem_cons_self
    change push c (ofLine (run ++ rest)) = _
    by_cases hrun : run = []
    · subst hrun
      rcases push_other hc (ofLine rest) with ⟨later, _, hl, _⟩ | ⟨_, hpush⟩
      · rw [hl] at ends
        cases ends _ rfl
      · exact hpush
    · rw [ih hrun fun d hd => free d (List.mem_cons_of_mem c hd)]
      simp [push, hc]

theorem exists_char_of_ne_neg {op : Op} (h : op ≠ .neg) :
    ∃ c, op.symbol = [c] ∧ Op.ofChar? c = some op := by
  cases op with
  | binary op => exact ⟨op.symbol, rfl, Op.ofChar?_symbol op⟩
  | lparen => exact ⟨'(', rfl, rfl⟩
  | rparen => exact ⟨')', rfl, rfl⟩
  | neg => exact absurd rfl h

theorem Row.tail {l : Lexeme} {ls : List Lexeme} (h : Row (l :: ls)) : Row ls where
  operands run hrun := h.operands run (List.mem_cons_of_mem l hrun)
  operators hneg := h.operators (List.mem_cons_of_mem l hneg)
  apart := (List.isChain_cons.mp h.apart).2

/-- Such a row is read back from its text. -/
theorem Row.ofLine_flatMap_text {ls : List Lexeme} (h : Row ls) : ofLine (ls.flatMap text) = ls := by
  induction ls with
  | nil => rfl
  | cons l rest ih =>
    have hrest := ih h.tail
    rw [List.flatMap_cons]
    cases l with
    | operand run =>
      obtain ⟨hne, hfree⟩ := h.operands run List.mem_cons_self
      have hends : ∀ l ∈ (ofLine (rest.flatMap text)).head?, l.isOperand = false := by
        intro l hl
        rw [hrest] at hl
        simpa [isOperand] using (List.isChain_cons.mp h.apart).1 l hl
      change ofLine (run ++ _) = _
      rw [ofLine_append_of_no_operator hne (fun c hc => isOperator_eq_false_iff.mp (hfree c hc)) hends,
        hrest]
    | operator op =>
      have hop : op ≠ .neg := fun hneg => h.operators (by simp [hneg])
      obtain ⟨c, hsymbol, hc⟩ := exists_char_of_ne_neg hop
      change ofLine (op.symbol ++ _) = _
      rw [hsymbol, List.singleton_append, ofLine_cons_operator hc, hrest]

end Lexeme

/-! ## The law -/

/-- How the tokens of a line stand in it. -/
structure Token.Tiling (line : Text) (tokens : List Token) : Prop where
  tile : Span.Tile 0 (tokens.map (·.span)) line.byteLength
  boundaries : ∀ t ∈ tokens, line.Boundary t.span.start ∧ line.Boundary t.span.stop
  operands : ∀ run span, ⟨.operand run, span⟩ ∈ tokens →
    line.slice? span = some run ∧ ∀ c ∈ run, isOperator c = false
  operators : ∀ op span, ⟨.operator op, span⟩ ∈ tokens →
    op ≠ .neg ∧ ∃ c, line.slice? span = some [c] ∧ Op.ofChar? c = some op
  apart : tokens.IsChain fun t u => ¬(t.what.isOperand = true ∧ u.what.isOperand = true)
  joined : (tokens.flatMap fun t => t.what.text) = line

theorem Token.slice?_of_mem_ofLine {line : Text} {t : Token} (h : t ∈ ofLine line) :
    line.slice? t.span = some t.what.text := by
  obtain ⟨before, after, hline, hspan⟩ := exists_of_mem_ofLine h
  rw [Text.slice?_eq_some_iff, hspan]
  exact ⟨before, after, hline, rfl, Text.byteLength_append _ _⟩

theorem Token.tiling_ofLine (line : Text) : Tiling line (ofLine line) where
  tile := by
    have htile := tile_place (fun l (hl : l ∈ Lexeme.ofLine line) => text_ne_nil_of_mem_ofLine hl) 0
    rwa [Lexeme.flatMap_text_ofLine, Nat.zero_add] at htile
  boundaries t ht := ⟨(covers_of_mem_ofLine ht).start, (covers_of_mem_ofLine ht).stop⟩
  operands run span h :=
    ⟨slice?_of_mem_ofLine h, ((Lexeme.row_ofLine line).operands run (what_mem_ofLine h)).2⟩
  operators op span h := by
    have hop : op ≠ .neg := by
      rintro rfl
      exact (Lexeme.row_ofLine line).operators (what_mem_ofLine h)
    obtain ⟨c, hsymbol, hc⟩ := Lexeme.exists_char_of_ne_neg hop
    exact ⟨hop, c, hsymbol ▸ slice?_of_mem_ofLine h, hc⟩
  apart := by
    have happart := Lexeme.apart_ofLine line
    rw [← map_what_ofLine] at happart
    exact (List.isChain_map _).mp happart
  joined := by
    have hline := Lexeme.flatMap_text_ofLine line
    rwa [← map_what_ofLine, List.flatMap_map] at hline

/-- The tokens of a line tile it, and what is put side by side is read as it was put. -/
theorem tokens_tile_their_line :
    (∀ line, Token.Tiling line (Token.ofLine line)) ∧
      ∀ ls, Lexeme.Row ls → (Token.ofLine (ls.flatMap Lexeme.text)).map (·.what) = ls := by
  refine ⟨Token.tiling_ofLine, fun ls h => ?_⟩
  rw [Token.map_what_ofLine, h.ofLine_flatMap_text]

/-- `é1*(x` has four lexemes, of which the first stands on three bytes. -/
theorem four_lexemes_are_read_back :
    let ls : List Lexeme :=
      [.operand ['é', '1'], .operator (.binary .mul), .operator .lparen, .operand ['x']]
    Lexeme.Row ls ∧ (Token.ofLine "é1*(x".toList).map (·.what) = ls ∧
      Text.slice? "é1*(x".toList ⟨0, 3⟩ = some ['é', '1'] := by
  intro ls
  have hrow : Lexeme.Row ls := ⟨by simp [ls, isOperator, Op.ofChar?], by simp [ls], by decide⟩
  have hslice : Text.slice? "é1*(x".toList ⟨0, 3⟩ = some ['é', '1'] := by decide
  exact ⟨hrow, tokens_tile_their_line.2 ls hrow, hslice⟩

end Abacus
