-- Parentheses: the conversion fails exactly on the texts whose parentheses are
-- not balanced, and blames the first closing one that is too many, or else the
-- last opening one that is never closed. What waits in the conversion is
-- looked at only for its opening parentheses: they are those still open.
import Abacus.Proofs.FaultPlaces
import Mathlib.Data.List.Infix

namespace Abacus

/-! ## Balanced texts -/

namespace Text

/-- Every closing parenthesis of the text has an opening one before it: no beginning of the
text closes more than it opens. -/
def Covered (t : Text) : Prop := ∀ front, front <+: t → front.count ')' ≤ front.count '('

/-- Every parenthesis of the text has its partner. -/
structure Balanced (t : Text) : Prop where
  covered : t.Covered
  settled : t.count '(' = t.count ')'

/-- The first closing parenthesis without an opening one before it stands at this offset: all
closing ones in front of it have theirs. -/
def FirstUnmatched (t : Text) (offset : Nat) : Prop :=
  ∃ before after, t = before ++ ')' :: after ∧ before.byteLength = offset ∧
    Covered before ∧ ¬Covered (before ++ [')'])

/-- The last opening parenthesis that is never closed stands at this offset: the closing ones
behind it all have another one, and this holds of no later opening parenthesis. -/
def LastUnclosed (t : Text) (offset : Nat) : Prop :=
  ∃ before after, t = before ++ '(' :: after ∧ before.byteLength = offset ∧
    Covered after ∧ ∀ front back, after = front ++ '(' :: back → ¬Covered back

instance (t : Text) : Decidable t.Covered :=
  decidable_of_iff (∀ front ∈ t.inits, front.count ')' ≤ front.count '(')
    (forall_congr' fun front => by rw [List.mem_inits])

variable {s t : Text}

theorem Covered.append (hs : s.Covered) (ht : t.Covered) : Covered (s ++ t) := by
  intro front hfront
  rcases List.prefix_or_prefix_of_prefix hfront (List.prefix_append s t) with h | ⟨rest, rfl⟩
  · exact hs front h
  · have hfirst := hs s List.prefix_rfl
    have hsecond := ht rest ((List.prefix_append_right_inj s).mp hfront)
    rw [List.count_append, List.count_append]
    omega

theorem Covered.of_append (h : Covered (s ++ t)) : s.Covered :=
  fun front hfront => h front (hfront.trans (List.prefix_append s t))

theorem covered_of_not_mem (h : ')' ∉ t) : t.Covered := by
  intro front hfront
  rw [List.count_eq_zero.mpr fun hmem => h (hfront.subset hmem)]
  exact Nat.zero_le _

theorem covered_opening : Covered ['('] := covered_of_not_mem (by decide)

theorem balanced_of_not_mem (hopen : '(' ∉ t) (hclose : ')' ∉ t) : t.Balanced :=
  ⟨covered_of_not_mem hclose, by rw [List.count_eq_zero.mpr hopen, List.count_eq_zero.mpr hclose]⟩

theorem balanced_nil : Balanced [] := balanced_of_not_mem List.not_mem_nil List.not_mem_nil

theorem Balanced.append (hs : s.Balanced) (ht : t.Balanced) : Balanced (s ++ t) := by
  refine ⟨hs.covered.append ht.covered, ?_⟩
  rw [List.count_append, List.count_append, hs.settled, ht.settled]

theorem Balanced.group (h : t.Balanced) : Balanced ('(' :: t ++ [')']) := by
  have hinner : Covered ('(' :: t) := covered_opening.append h.covered
  have hsettled := h.settled
  refine ⟨?_, by simp [hsettled]⟩
  intro front hfront
  rcases List.prefix_concat_iff.mp hfront with rfl | hfront
  · simp [hsettled]
  · exact hinner front hfront

/-- Behind a balanced text a closing parenthesis has no opening one. -/
theorem Balanced.not_covered_concat (h : t.Balanced) : ¬Covered (t ++ [')']) := by
  intro hcovered
  have hall := hcovered _ List.prefix_rfl
  have hsettled := h.settled
  simp only [List.count_append, List.count_singleton] at hall
  simp at hall
  omega

/-- No opening parenthesis of a balanced text is left open. -/
theorem Balanced.not_covered_behind (h : t.Balanced) {front back : Text}
    (split : t = front ++ '(' :: back) : ¬Covered back := by
  intro hback
  have hfirst := h.covered front (split ▸ List.prefix_append _ _)
  have hsecond := hback back List.prefix_rfl
  have hsettled := h.settled
  rw [split] at hsettled
  simp at hsettled
  omega

theorem not_balanced_of_open (s : Text) (ht : t.Balanced) : ¬Balanced (s ++ '(' :: t) := by
  intro hall
  exact hall.not_covered_behind rfl ht.covered

/-- These are the places of the parentheses that are open at the end of the text, the newest
first. -/
inductive OpenAt : Text → List Span → Prop
  | none {t : Text} (balanced : t.Balanced) : OpenAt t []
  | one {s t : Text} {places : List Span} (outer : OpenAt s places) (balanced : t.Balanced) :
      OpenAt (s ++ '(' :: t) (Span.single s.byteLength :: places)

namespace OpenAt

variable {places : List Span} {place : Span}

theorem append (h : OpenAt s places) (ht : t.Balanced) : OpenAt (s ++ t) places := by
  cases h with
  | none balanced => exact .none (balanced.append ht)
  | one outer balanced =>
    rw [List.append_assoc, List.cons_append]
    exact .one outer (balanced.append ht)

theorem opening (h : OpenAt t places) : OpenAt (t ++ ['(']) (Span.single t.byteLength :: places) :=
  .one h balanced_nil

theorem closing (h : OpenAt t (place :: places)) : OpenAt (t ++ [')']) places := by
  cases h with
  | one outer balanced =>
    rw [List.append_assoc]
    exact outer.append balanced.group

theorem balanced (h : OpenAt t []) : t.Balanced := by
  cases h with
  | none balanced => exact balanced

theorem covered (h : OpenAt t places) : t.Covered := by
  induction h with
  | none balanced => exact balanced.covered
  | one _ balanced ih => exact ih.append (covered_opening.append balanced.covered)

/-- The newest open parenthesis is the last one that is never closed. -/
theorem lastUnclosed (h : OpenAt t (place :: places)) :
    ¬t.Balanced ∧ place = Span.single place.start ∧ t.LastUnclosed place.start := by
  cases h with
  | @one s u _ outer balanced =>
    exact ⟨not_balanced_of_open s balanced, rfl,
      s, u, rfl, rfl, balanced.covered, fun _ _ => balanced.not_covered_behind⟩

end OpenAt

end Text

/-! ## In the conversion -/

/-- No parenthesis is a part of the operand. -/
theorem Text.balanced_of_no_operator {run : Text} (free : ∀ c ∈ run, Op.ofChar? c = none) :
    run.Balanced := by
  refine balanced_of_not_mem (fun h => ?_) (fun h => ?_) <;> cases free _ h

theorem Lexeme.balanced_text {l : Lexeme} (free : ∀ run, l = .operand run → run.Balanced)
    (parens : l ≠ .operator .lparen ∧ l ≠ .operator .rparen) : l.text.Balanced := by
  rcases l with run | (op | _ | _ | _)
  · exact free run rfl
  · cases op <;> exact Text.balanced_of_not_mem (by decide) (by decide)
  · exact absurd rfl parens.1
  · exact absurd rfl parens.2
  · exact Text.balanced_of_not_mem (by decide) (by decide)

namespace Conversion

open Text (OpenAt)

/-- The opening parentheses that wait are those that are open in what was read. -/
def Opened (c : Conversion) (read : Text) : Prop :=
  OpenAt read ((c.pending.filter opens).map (·.span))

variable {c c' : Conversion} {read : Text}

theorem opened_start : Opened {} [] := .none Text.balanced_nil

/-- The step: a token opens a parenthesis, closes the newest one that is open, or leaves them
as they are. -/
theorem Move.opened {l : Lexeme} {span : Span} (h : Move c ⟨l, span⟩ c') (hc : c.Opened read)
    (place : l = .operator .lparen → span = Span.single read.byteLength)
    (free : ∀ run, l = .operand run → run.Balanced) : c'.Opened (read ++ l.text) := by
  unfold Opened at hc ⊢
  cases h with
  | operand run => exact hc.append (free run rfl)
  | opening =>
    rw [List.filter_cons_of_pos (by rfl), List.map_cons, place rfl]
    exact hc.opening
  | closing _ _ split closed =>
    rw [split, filter_opens_append closed, List.filter_cons_of_pos (by rfl), List.map_cons] at hc
    exact hc.closing
  | plus | minus => exact hc.append (Text.balanced_of_not_mem (by decide) (by decide))
  | between op _ _ parens split binds =>
    have htight := fun o ho => ne_lparen_of_rank_le parens (binds o ho)
    have hop : ¬opens ⟨op, span⟩ = true := fun hopens => parens.1 (opens_iff.mp hopens)
    rw [split, filter_opens_append htight] at hc
    rw [List.filter_cons_of_neg hop]
    exact hc.append (Lexeme.balanced_text free (by simpa using parens))

/-- A closing parenthesis is at fault only when none is open. -/
theorem filter_opens_of_step {t : Token} {fault : Fault} (h : c.step t = .error fault) :
    t.what = .operator .rparen ∧ c.pending.filter opens = [] := by
  obtain ⟨what, span⟩ := t
  unfold step at h
  dsimp only at h
  split at h
  · cases h
  · cases h
  · refine ⟨rfl, ?_⟩
    unfold close at h
    split at h <;> cases h
    rename_i hdrop
    rw [List.dropWhile_eq_nil_iff] at hdrop
    exact List.filter_eq_nil_iff.mpr (by simpa using hdrop)
  · split at h <;> cases h

/-- The run: what is open is known after each lexeme, up to the first closing parenthesis that
is too many. -/
theorem opened_of_foldlM {ls : List Lexeme} (hc : c.Opened read)
    (free : ∀ run, .operand run ∈ ls → run.Balanced) :
    (∃ c', (Token.place read.byteLength ls).foldlM step c = .ok c' ∧
        c'.Opened (read ++ ls.flatMap Lexeme.text)) ∨
      ∃ before after, read ++ ls.flatMap Lexeme.text = before ++ ')' :: after ∧
        before.Balanced ∧
        (Token.place read.byteLength ls).foldlM step c =
          .error ⟨.unmatched, Span.single before.byteLength⟩ := by
  induction ls generalizing c read with
  | nil => exact Or.inl ⟨c, rfl, by simpa using hc⟩
  | cons l rest ih =>
    have hsplit : read ++ (l :: rest).flatMap Lexeme.text =
        read ++ l.text ++ rest.flatMap Lexeme.text := by
      rw [List.flatMap_cons, List.append_assoc]
    have hstop : read.byteLength + l.text.byteLength = Text.byteLength (read ++ l.text) :=
      (Text.byteLength_append read l.text).symm
    rw [hsplit, Token.place, List.foldlM_cons, hstop]
    rcases hstep : c.step ⟨l, read.byteLength, Text.byteLength (read ++ l.text)⟩ with fault | c'
    · obtain ⟨hl, hopens⟩ := filter_opens_of_step hstep
      obtain rfl := eq_unmatched_of_step hstep
      obtain rfl : l = .operator .rparen := hl
      unfold Opened at hc
      rw [hopens] at hc
      refine Or.inr ⟨read, rest.flatMap Lexeme.text, List.append_assoc _ _ _, hc.balanced, ?_⟩
      rw [← hstop]
      rfl
    · have hplace : l = .operator .lparen →
          Span.mk read.byteLength (Text.byteLength (read ++ l.text)) =
            Span.single read.byteLength := by
        rintro rfl
        rw [← hstop]
        rfl
      have hopened := (move_of_step hstep).opened hc hplace fun run hrun =>
        free run (hrun ▸ List.mem_cons_self)
      exact ih hopened fun run hrun => free run (List.mem_cons_of_mem l hrun)

/-- In the end the newest opening parenthesis that still waits is at fault, if there is one. -/
theorem Opened.finish (hc : c.Opened read) :
    (read.Balanced ∧ ∃ out, c.finish = .ok out) ∨
      ∃ place, c.finish = .error ⟨.unclosed, place⟩ ∧ ¬read.Balanced ∧
        place = Span.single place.start ∧ read.LastUnclosed place.start := by
  unfold Opened at hc
  unfold Conversion.finish
  rw [← List.head?_filter]
  rcases hfilter : c.pending.filter opens with _ | ⟨op, rest⟩ <;> rw [hfilter] at hc
  · exact Or.inl ⟨hc.balanced, _, rfl⟩
  · exact Or.inr ⟨op.span, rfl, hc.lastUnclosed⟩

end Conversion

/-- A text is converted when its parentheses are balanced. Otherwise the first closing one
without an opening one is at fault, or, where there is none, the last one that is left open. -/
theorem Postfix.ofLine_parentheses (line : Text) :
    (line.Balanced ∧ ∃ out, ofLine line = .ok out) ∨
      ¬line.Balanced ∧ ∃ cause place, ofLine line = .error ⟨cause, place⟩ ∧
        place = Span.single place.start ∧
        (cause = .unmatched ∧ line.FirstUnmatched place.start ∨
          cause = .unclosed ∧ line.Covered ∧ line.LastUnclosed place.start) := by
  have hfree : ∀ run, .operand run ∈ Lexeme.ofLine line → run.Balanced :=
    fun _ hrun => Text.balanced_of_no_operator (Lexeme.no_operator_of_mem_ofLine hrun)
  have hrun := Conversion.opened_of_foldlM Conversion.opened_start hfree
  rw [List.nil_append, Lexeme.flatMap_text_ofLine] at hrun
  have hline : ofLine line =
      (Token.place 0 (Lexeme.ofLine line)).foldlM Conversion.step {} >>= Conversion.finish := rfl
  rw [hline]
  rcases hrun with ⟨c, hfold, hopened⟩ | ⟨before, after, hsplit, hbefore, hfold⟩ <;>
    rw [Text.byteLength_nil] at hfold <;> rw [hfold]
  · rcases hopened.finish with hdone | ⟨place, hfinish, hopen, hplace, hlast⟩
    · exact Or.inl hdone
    · exact Or.inr ⟨hopen, _, place, hfinish, hplace, Or.inr ⟨rfl, hopened.covered, hlast⟩⟩
  · have hnot : ¬line.Covered := by
      rw [hsplit, List.append_cons]
      exact fun h => hbefore.not_covered_concat h.of_append
    exact Or.inr ⟨fun h => hnot h.covered, _, _, rfl, rfl, Or.inl ⟨rfl, before, after, hsplit, rfl,
      hbefore.covered, hbefore.not_covered_concat⟩⟩

end Abacus
