-- The places of faults: whatever a line fails at, the fault stands on whole
-- characters of it. Each token does, and so does a place that is joined from
-- two such places. So every step of an answer has a good result, or a fault
-- that stands in the line.
import Abacus.Diagnostic
import Abacus.Proofs.SessionSteps
import Abacus.Proofs.SideBySide

namespace Abacus

/-! ## Whole characters -/

/-- A character of the text begins at the offset, or the text ends there. -/
def Text.Boundary (t : Text) (offset : Nat) : Prop :=
  ∃ before after, t = before ++ after ∧ before.byteLength = offset

/-- The span covers characters of the text, one at least, and none of them in part. -/
structure Span.Covers (span : Span) (t : Text) : Prop where
  start : t.Boundary span.start
  stop : t.Boundary span.stop
  nonempty : span.start < span.stop

namespace Text

variable {t : Text} {offset : Nat}

theorem Boundary.le (h : t.Boundary offset) : offset ≤ t.byteLength := by
  obtain ⟨before, after, rfl, rfl⟩ := h
  simp

theorem byteLength_pos (h : t ≠ []) : 0 < t.byteLength := by
  have hlength := t.length_le_byteLength
  have hpos := List.length_pos_of_ne_nil h
  omega

end Text

namespace Span

variable {a b span : Span} {t : Text}

theorem Covers.join (ha : a.Covers t) (hb : b.Covers t) : (a.join b).Covers t := by
  have hstart := ha.nonempty
  refine ⟨?_, ?_, ?_⟩
  · by_cases h : a.start ≤ b.start
    · simpa [Nat.min_eq_left h] using ha.start
    · simpa [Nat.min_eq_right (Nat.le_of_not_le h)] using hb.start
  · by_cases h : a.stop ≤ b.stop
    · simpa [Nat.max_eq_right h] using hb.stop
    · simpa [Nat.max_eq_left (Nat.le_of_not_le h)] using ha.stop
  · simp only [start_join, stop_join]
    omega

/-- A piece of a text covers its characters. -/
theorem covers_piece (before : Text) {piece : Text} (after : Text) (nonempty : piece ≠ []) :
    Covers ⟨before.byteLength, before.byteLength + piece.byteLength⟩ (before ++ piece ++ after) := by
  have hpos := Text.byteLength_pos nonempty
  refine ⟨⟨before, piece ++ after, by simp, rfl⟩, ⟨before ++ piece, after, rfl, by simp⟩, ?_⟩
  change before.byteLength < before.byteLength + piece.byteLength
  omega

theorem covers_whole (nonempty : t ≠ []) : (LineShape.whole t).Covers t := by
  have h := covers_piece [] [] nonempty
  simpa [LineShape.whole] using h

/-- The characters that a span covers. -/
theorem Covers.exists_piece (h : span.Covers t) :
    ∃ before piece after, t = before ++ piece ++ after ∧ piece ≠ [] ∧
      before.byteLength = span.start ∧ (before ++ piece).byteLength = span.stop := by
  obtain ⟨⟨before, rest, hrest, hstart⟩, ⟨front, after, hfront, hstop⟩, hlt⟩ := h
  rw [← hstart, ← hstop] at hlt
  rcases List.append_eq_append_iff.mp (hrest.symm.trans hfront) with
    ⟨piece, hpiece, _⟩ | ⟨piece, hpiece, _⟩
  · refine ⟨before, piece, after, by rw [hfront, hpiece], ?_, hstart, by rw [← hpiece, hstop]⟩
    rintro rfl
    simp [hpiece] at hlt
  · rw [hpiece, Text.byteLength_append] at hlt
    omega

/-- Nothing is cut off from a span that covers characters. -/
theorem Covers.clamp_eq (h : span.Covers t) : Diagnostic.clamp span t = span := by
  have hle := h.stop.le
  have hlt := h.nonempty
  unfold Diagnostic.clamp
  simp only [Nat.min_eq_left hle, Nat.min_eq_left (Nat.le_of_lt hlt)]

end Span

/-! ## Tokens -/

namespace Token

theorem exists_of_mem_place {t : Token} {ls : List Lexeme} {start : Nat} (h : t ∈ place start ls) :
    ∃ before after, ls = before ++ t.what :: after ∧
      t.span.start = start + Text.byteLength (before.flatMap Lexeme.text) ∧
      t.span.stop = t.span.start + t.what.text.byteLength := by
  induction ls generalizing start with
  | nil => cases h
  | cons l rest ih =>
    rcases List.mem_cons.mp h with rfl | h
    · exact ⟨[], rest, rfl, rfl, rfl⟩
    · obtain ⟨before, after, rfl, hstart, hstop⟩ := ih h
      refine ⟨l :: before, after, rfl, ?_, hstop⟩
      simp [hstart, Nat.add_assoc]

theorem text_ne_nil_of_mem_ofLine {line : Text} {l : Lexeme} (h : l ∈ Lexeme.ofLine line) :
    l.text ≠ [] := by
  obtain ⟨hempty, _⟩ := Lexeme.ne_of_mem_ofLine h
  cases l with
  | operand run => simpa [Lexeme.text] using hempty
  | operator op => cases op <;> simp [Lexeme.text, Op.symbol]

/-- A token stands on the characters that it was read from. -/
theorem exists_of_mem_ofLine {line : Text} {t : Token} (h : t ∈ ofLine line) :
    ∃ before after, line = before ++ t.what.text ++ after ∧
      t.span = ⟨before.byteLength, before.byteLength + t.what.text.byteLength⟩ := by
  obtain ⟨before, after, hsplit, hstart, hstop⟩ := exists_of_mem_place h
  refine ⟨before.flatMap Lexeme.text, after.flatMap Lexeme.text, ?_, ?_⟩
  · rw [← Lexeme.flatMap_text_ofLine line, hsplit]
    simp
  · rw [Nat.zero_add] at hstart
    rw [← hstart, ← hstop]

theorem covers_of_mem_ofLine {line : Text} {t : Token} (h : t ∈ ofLine line) :
    t.span.Covers line := by
  obtain ⟨before, after, hline, hspan⟩ := exists_of_mem_ofLine h
  rw [hspan, hline]
  exact Span.covers_piece before after (text_ne_nil_of_mem_ofLine (what_mem_ofLine h))

end Token

/-! ## Steps -/

/-- The result is a good one, or the fault stands on characters of the line. -/
def InPlace {α : Type} (line : Text) (good : α → Prop) : Except Fault α → Prop
  | .ok a => good a
  | .error fault => fault.span.Covers line

namespace InPlace

variable {α β : Type} {line : Text} {good : α → Prop} {better : β → Prop}

theorem bind {x : Except Fault α} {f : α → Except Fault β} (h : InPlace line good x)
    (next : ∀ a, good a → InPlace line better (f a)) : InPlace line better (x >>= f) := by
  cases x with
  | error fault => exact h
  | ok a => exact next a h

theorem foldlM {f : β → α → Except Fault β} {items : List α}
    (step : ∀ b, ∀ a ∈ items, better b → InPlace line better (f b a)) {b : β} (hb : better b) :
    InPlace line better (items.foldlM f b) := by
  induction items generalizing b with
  | nil => exact hb
  | cons a rest ih =>
    rw [List.foldlM_cons]
    apply (step b a List.mem_cons_self hb).bind
    intro b' hb'
    exact ih (fun b a ha => step b a (List.mem_cons_of_mem _ ha)) hb'

end InPlace

variable {line : Text}

/-! ## The conversion -/

/-- All that is in the conversion stands in the line. -/
structure Conversion.Within (line : Text) (c : Conversion) : Prop where
  output : ∀ t ∈ c.output, t.span.Covers line
  pending : ∀ op ∈ c.pending, op.span.Covers line

namespace Conversion

variable {c c' : Conversion} {t : Token}

theorem covers_of_mem_emit {ops : List (Placed Op)} {output : List Token}
    (hops : ∀ op ∈ ops, op.span.Covers line) (houtput : ∀ t ∈ output, t.span.Covers line) :
    ∀ t ∈ emit ops output, t.span.Covers line := by
  intro t ht
  unfold emit at ht
  simp only [List.mem_append, List.mem_reverse, List.mem_map] at ht
  rcases ht with ⟨op, hop, rfl⟩ | ht
  · exact hops op hop
  · exact houtput t ht

theorem Move.within (h : Move c t c') (hc : c.Within line) (ht : t.span.Covers line) :
    c'.Within line := by
  obtain ⟨houtput, hpending⟩ := hc
  cases h with
  | operand | opening => exact ⟨by simpa [ht] using houtput, by simpa [ht] using hpending⟩
  | plus => exact ⟨houtput, hpending⟩
  | minus => exact ⟨houtput, by simpa [ht] using hpending⟩
  | closing span place split closed =>
    simp only [split, List.forall_mem_append, List.forall_mem_cons] at hpending
    exact ⟨covers_of_mem_emit hpending.1 houtput, hpending.2.2⟩
  | between op span unsigned parens split binds loose =>
    simp only [split, List.forall_mem_append] at hpending
    exact ⟨covers_of_mem_emit hpending.1 houtput, by simpa [ht] using hpending.2⟩

/-- Only a closing parenthesis can be at fault when it is read. -/
theorem eq_unmatched_of_step {fault : Fault} (h : c.step t = .error fault) :
    fault = ⟨.unmatched, t.span⟩ := by
  obtain ⟨what, span⟩ := t
  unfold step at h
  dsimp only at h
  split at h
  · cases h
  · cases h
  · unfold close at h
    split at h <;> cases h
    rfl
  · split at h <;> cases h

theorem inPlace_step (hc : c.Within line) (ht : t.span.Covers line) :
    InPlace line (Within line) (c.step t) := by
  rcases h : c.step t with fault | c'
  · obtain rfl := eq_unmatched_of_step h
    exact ht
  · exact (move_of_step h).within hc ht

theorem inPlace_finish (hc : c.Within line) :
    InPlace line (fun tokens => ∀ t ∈ tokens, t.span.Covers line) c.finish := by
  unfold finish
  split
  · rename_i op hfind
    exact hc.pending op (List.mem_of_find?_eq_some hfind)
  · intro t ht
    rw [List.mem_reverse] at ht
    exact covers_of_mem_emit hc.pending hc.output t ht

end Conversion

theorem Postfix.inPlace_ofLine (line : Text) :
    InPlace line (fun tokens => ∀ t ∈ tokens, t.span.Covers line) (ofLine line) := by
  have hstart : Conversion.Within line {} := ⟨by simp, by simp⟩
  have hfold : InPlace line (Conversion.Within line)
      ((Token.ofLine line).foldlM Conversion.step {}) := by
    apply InPlace.foldlM _ hstart
    intro c t ht hc
    exact Conversion.inPlace_step hc (Token.covers_of_mem_ofLine ht)
  apply hfold.bind
  intro c hc
  exact Conversion.inPlace_finish hc

/-! ## Evaluation -/

theorem Operand.inPlace_resolve (store : Store) (operand : Placed Text)
    (h : operand.span.Covers line) : InPlace line (fun _ => True) (resolve store operand) := by
  unfold resolve
  split
  · trivial
  · split
    · trivial
    · exact h

theorem BinOp.inPlace_apply (limits : Limits) (op : BinOp) {place : Span} {left right : Placed Int}
    (hplace : place.Covers line) (hright : right.span.Covers line) :
    InPlace line (fun _ => True) (op.apply limits place left right) := by
  have hjoin := hplace.join hright
  cases op with
  | add | sub | mul => trivial
  | div =>
    unfold apply quotient
    by_cases h : right.what = 0
    · rw [if_pos h]
      exact hjoin
    · rw [if_neg h]
      trivial
  | pow =>
    unfold apply power
    dsimp only
    split
    · exact hright
    · split
      · exact hjoin
      · trivial

namespace Stack

/-- There is a value on the stack, and all of them were computed from the line. -/
def Within (line : Text) (stack : Stack) : Prop :=
  stack ≠ [] ∧ ∀ value ∈ stack, value.span.Covers line

/-- A token leaves a value on the stack, whatever was there. -/
theorem inPlace_step (limits : Limits) (store : Store) (stack : Stack) {t : Token}
    (hstack : ∀ value ∈ stack, value.span.Covers line) (ht : t.span.Covers line) :
    InPlace line (Within line) (step limits store stack t) := by
  obtain ⟨what, span⟩ := t
  rcases what with text | (op | _ | _ | _)
  · apply (Operand.inPlace_resolve store ⟨text, span⟩ ht).bind
    intro n _
    exact ⟨by simp, by simpa using ⟨ht, hstack⟩⟩
  · rcases stack with _ | ⟨right, _ | ⟨left, rest⟩⟩
    · exact ht
    · exact ht
    · simp only [List.forall_mem_cons] at hstack
      obtain ⟨hright, hleft, hrest⟩ := hstack
      apply (BinOp.inPlace_apply limits op ht hright).bind
      intro n _
      exact ⟨by simp, by simpa using ⟨hleft.join hright, hrest⟩⟩
  · rcases stack with _ | ⟨right, _ | ⟨left, rest⟩⟩ <;> exact ht
  · rcases stack with _ | ⟨right, _ | ⟨left, rest⟩⟩ <;> exact ht
  · rcases stack with _ | ⟨value, rest⟩
    · exact ht
    · simp only [List.forall_mem_cons] at hstack
      exact ⟨by simp, by simpa using ⟨ht.join hstack.1, hstack.2⟩⟩

theorem inPlace_result {stack : Stack} (h : stack.Within line) :
    InPlace line (fun _ => True) (result stack) := by
  obtain ⟨hne, hstack⟩ := h
  rcases stack with _ | ⟨value, _ | ⟨next, rest⟩⟩
  · exact absurd rfl hne
  · trivial
  · exact hstack value List.mem_cons_self

end Stack

/-- No token at all would be blamed on the first byte. With a token there is a value to blame. -/
theorem inPlace_evaluate (limits : Limits) (store : Store) {tokens : List Token}
    (nonempty : tokens ≠ []) (h : ∀ t ∈ tokens, t.span.Covers line) :
    InPlace line (fun _ => True) (evaluate limits store tokens) := by
  obtain ⟨t, rest, rfl⟩ := List.exists_cons_of_ne_nil nonempty
  obtain ⟨ht, hrest⟩ := List.forall_mem_cons.mp h
  have hfirst := Stack.inPlace_step limits store [] (by simp) ht
  have hfold : InPlace line (Stack.Within line)
      ((t :: rest).foldlM (Stack.step limits store) []) := by
    rw [List.foldlM_cons]
    apply hfirst.bind
    intro stack hstack
    apply InPlace.foldlM _ hstack
    intro stack t ht hstack
    exact Stack.inPlace_step limits store stack hstack.2 (hrest t ht)
  apply hfold.bind
  intro stack hstack
  exact Stack.inPlace_result hstack

/-! ## The shape of a line -/

theorem Text.exists_of_firstPair {c : Char} {t : Text} {start offset : Nat}
    (h : t.firstPair c start = some offset) :
    ∃ before after, t = before ++ [c, c] ++ after ∧ offset = start + before.byteLength := by
  induction t generalizing start with
  | nil => cases h
  | cons d rest ih =>
    unfold firstPair at h
    by_cases hpair : d = c ∧ rest.head? = some c
    · rw [if_pos hpair, Option.some.injEq] at h
      obtain ⟨rfl, hhead⟩ := hpair
      obtain ⟨after, rfl⟩ := List.head?_eq_some_iff.mp hhead
      exact ⟨[], after, rfl, by simp [h]⟩
    · rw [if_neg hpair] at h
      obtain ⟨before, after, rfl, rfl⟩ := ih h
      exact ⟨d :: before, after, rfl, by simp [Nat.add_assoc]⟩

theorem Session.inPlace_refuseDoubled (line : Text) :
    InPlace line (fun _ => True) (refuseDoubled line) := by
  have hpair : ∀ c : Char, c.utf8Size = 1 → ∀ offset, line.firstPair c 0 = some offset →
      Span.Covers ⟨offset, offset + 2⟩ line := by
    intro c hc offset h
    obtain ⟨before, after, rfl, rfl⟩ := Text.exists_of_firstPair h
    have hcovers := Span.covers_piece before after (List.cons_ne_nil c [c])
    simpa [hc] using hcovers
  unfold refuseDoubled
  rcases hstar : line.firstPair '*' 0 with _ | offset
  · rcases hslash : line.firstPair '/' 0 with _ | offset
    · trivial
    · exact hpair '/' rfl offset hslash
  · exact hpair '*' rfl offset hstar

namespace LineShape

/-- The right side of an equation stands in the line. -/
def Within (line : Text) : LineShape → Prop
  | assignment _ right | reference _ right => right.span.Covers line
  | value | expression => line ≠ []

theorem inPlace_ofFormula (nonempty : line ≠ []) : InPlace line (Within line) (ofFormula line) := by
  unfold ofFormula
  split
  · exact nonempty
  · dsimp only
    split
    · rename_i operand hfind
      exact Token.covers_of_mem_ofLine (mem_operands.mp (List.mem_of_find?_eq_some hfind))
    · split
      · exact Span.covers_whole nonempty
      · split <;> exact nonempty

/-- The equals sign itself stands for a side that is empty. -/
theorem inPlace_ofEquation (left right : Text) :
    InPlace (left ++ '=' :: right) (Within (left ++ '=' :: right)) (ofEquation left right) := by
  have hleft : Span.Covers ⟨0, max left.byteLength 1⟩ (left ++ '=' :: right) := by
    by_cases h : left = []
    · subst h
      exact Span.covers_piece [] right (List.cons_ne_nil '=' [])
    · have hpos := Text.byteLength_pos h
      have hcovers := Span.covers_piece [] ('=' :: right) h
      simpa [Nat.max_eq_left hpos] using hcovers
  have hsize : '='.utf8Size = 1 := rfl
  have hequals : (Span.single left.byteLength).Covers (left ++ '=' :: right) := by
    have hcovers := Span.covers_piece left right (List.cons_ne_nil '=' [])
    simpa [Span.single, hsize] using hcovers
  have hright : right ≠ [] → (rightSide left right).span.Covers (left ++ '=' :: right) := by
    intro h
    have hcovers := Span.covers_piece (left ++ ['=']) [] h
    simpa [rightSide, hsize] using hcovers
  unfold ofEquation
  dsimp only
  by_cases hname : Operand.isName left = true
  · rw [if_neg (by simpa using hname)]
    by_cases hempty : right = []
    · subst hempty
      exact hequals
    · have hplace := hright hempty
      split
      · exact hplace
      · split
        · exact hplace
        · rw [if_neg (by simpa using hempty)]
          exact hplace
  · rw [if_pos (by simpa using hname)]
    exact hleft

theorem inPlace_ofLine (nonempty : line ≠ []) : InPlace line (Within line) (ofLine line) := by
  rcases ofLine_cases line with ⟨_, hof⟩ | ⟨left, right, rfl, _, hof⟩ <;> rw [hof]
  · exact inPlace_ofFormula nonempty
  · exact inPlace_ofEquation left right

end LineShape

/-! ## Lines -/

namespace Session

theorem inPlace_valueOf (s : Session) (line : Text) :
    InPlace line (fun _ => True) (s.valueOf line) := by
  unfold valueOf
  apply (Postfix.inPlace_ofLine line).bind
  intro tokens htokens
  by_cases hempty : tokens = []
  · simp [hempty, InPlace]
  · rw [if_neg (by simpa using hempty)]
    apply (inPlace_evaluate s.limits s.store hempty htokens).bind
    intro value _
    trivial

theorem inPlace_copy (store : Store) (name : Text) {source : Placed Text}
    (h : source.span.Covers line) : InPlace line (fun _ => True) (store.copy name source) := by
  unfold Store.copy
  split
  · trivial
  · exact h

theorem inPlace_perform (s : Session) (nonempty : line ≠ []) :
    InPlace line (fun _ => True) (s.perform line) := by
  unfold perform
  apply (inPlace_refuseDoubled line).bind
  intro _ _
  apply (LineShape.inPlace_ofLine nonempty).bind
  intro shape hshape
  cases shape with
  | assignment name literal =>
    apply (Operand.inPlace_resolve s.store literal hshape).bind
    intro value _
    trivial
  | reference name source =>
    apply (inPlace_copy s.store name hshape).bind
    intro store _
    trivial
  | value =>
    apply (Operand.inPlace_resolve s.store _ (Span.covers_whole nonempty)).bind
    intro value _
    trivial
  | expression =>
    apply (s.inPlace_valueOf line).bind
    intro value? _
    trivial

theorem covers_of_failed {s : Session} {fault : Fault} (nonempty : line ≠ [])
    (h : (s.execute line).1 = .failed fault) : fault.span.Covers line := by
  have hplace := s.inPlace_perform nonempty
  rw [execute_failed_iff.mp h] at hplace
  exact hplace

end Session

/-! ## The law -/

/-- Whatever a line is and whatever the session holds, a fault stands in the line: its two ends
are ends of whole characters, there is a character between them unless the line has none, and
a diagnostic has nothing to cut off from it. -/
theorem every_fault_stands_in_its_line (s : Session) (line : Text) (fault : Fault)
    (h : (s.execute line).1 = .failed fault) :
    fault.span.start ≤ fault.span.stop ∧ fault.span.stop ≤ line.byteLength ∧
    line.Boundary fault.span.start ∧ line.Boundary fault.span.stop ∧
    (line ≠ [] → fault.span.start < fault.span.stop) ∧
    Diagnostic.clamp fault.span line = fault.span := by
  by_cases hline : line = []
  · subst hline
    cases h
    exact ⟨Nat.le_refl 0, Nat.le_refl 0, ⟨[], [], rfl, rfl⟩, ⟨[], [], rfl, rfl⟩,
      fun hne => absurd rfl hne, rfl⟩
  · have hcovers := Session.covers_of_failed hline h
    exact ⟨Nat.le_of_lt hcovers.nonempty, hcovers.stop.le, hcovers.start, hcovers.stop,
      fun _ => hcovers.nonempty, hcovers.clamp_eq⟩

/-- In `(é` the name is blamed, whose one character has two bytes. -/
theorem a_fault_stands_on_a_longer_character :
    (Session.execute {} ['(', 'é']).1 = .failed ⟨.invalidIdentifier, 1, 3⟩ ∧
      Text.Boundary ['(', 'é'] 1 ∧ Text.Boundary ['(', 'é'] 3 ∧
      Diagnostic.clamp ⟨1, 3⟩ ['(', 'é'] = ⟨1, 3⟩ := by
  have hfailed : (Session.execute {} ['(', 'é']).1 = .failed ⟨.invalidIdentifier, 1, 3⟩ := by decide
  obtain ⟨_, _, hstart, hstop, _, hclamp⟩ := every_fault_stands_in_its_line {} _ _ hfailed
  exact ⟨hfailed, hstart, hstop, hclamp⟩

end Abacus
