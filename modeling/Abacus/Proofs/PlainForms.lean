-- The plain form is canonical: two lines have one plain form exactly when they
-- are the same but for their blanks and for how each of their rows of signs is
-- written. Lines with one plain form are answered alike.
import Abacus.Proofs.SessionSteps
import Abacus.Proofs.SignRows
import Abacus.Text.Lines
import Mathlib.Data.List.Chain
import Mathlib.Data.List.Forall2

namespace Abacus

/-! ## Gaps and what stands between them -/

/-- The characters of the text that are no signs. -/
def withoutSigns (t : Text) : Text := t.filter fun c => !isSign c

/-- The rows of signs in the gaps between these characters and at both ends. A row can be
empty. -/
def signRows (t : Text) : List Text := t.splitOnP fun c => !isSign c

/-- Neither row has a sign, or both have, and as to the number of minuses both are even or both
are odd. -/
def SameSigns (r s : Text) : Prop :=
  (r = [] ∧ s = []) ∨ (r ≠ [] ∧ s ≠ [] ∧ r.count '-' % 2 = s.count '-' % 2)

/-- The texts have the same characters apart from the signs, and in each gap rows of signs that
mean the same. -/
structure SameButForRows (a b : Text) : Prop where
  characters : withoutSigns a = withoutSigns b
  gaps : List.Forall₂ SameSigns (signRows a) (signRows b)

section Gaps

variable {c : Char} {t : Text}

theorem signRows_cons_of_isSign (h : isSign c = true) :
    signRows (c :: t) = (signRows t).modifyHead (c :: ·) := by
  simp [signRows, List.splitOnP_cons_eq_if_modifyHead, h]

theorem signRows_cons_of_not_isSign (h : isSign c = false) :
    signRows (c :: t) = [] :: signRows t := by
  simp [signRows, List.splitOnP_cons_eq_if_modifyHead, h]

theorem exists_signRows_eq_cons (t : Text) : ∃ row rest, signRows t = row :: rest :=
  List.exists_cons_of_ne_nil (List.splitOnP_ne_nil _ t)

theorem isSign_of_mem_signRows {row : Text} (h : row ∈ signRows t) :
    ∀ c ∈ row, isSign c = true := by
  intro c hc
  have hfree := (Text.infix_of_mem_splitOnP.2 row h).2 c hc
  simpa using hfree

/-- A text is put together again from its gaps and what stands between them. -/
theorem eq_of_signRows_eq {a b : Text} (characters : withoutSigns a = withoutSigns b)
    (gaps : signRows a = signRows b) : a = b := by
  have hspec (t : Text) := List.splitOnP_spec (p := fun c => !isSign c) t
  unfold signRows at gaps
  unfold withoutSigns at characters
  rw [← hspec a, ← hspec b, gaps, characters]

/-! ## What collapsing does to a gap -/

theorem withoutSigns_pushSign (hc : isSign c = true) (t : Text) :
    withoutSigns (pushSign c t) = withoutSigns t := by
  rcases t with _ | ⟨d, t⟩
  · simp [pushSign, withoutSigns, hc]
  · by_cases hd : isSign d = true
    · rw [pushSign_of_isSign hc hd]
      simp [withoutSigns, hd, isSign_mergeSigns]
    · rw [pushSign_of_not_isSign (by simpa using hd)]
      simp [withoutSigns, hc]

theorem withoutSigns_collapseSigns (t : Text) :
    withoutSigns (collapseSigns t) = withoutSigns t := by
  induction t with
  | nil => rfl
  | cons c t ih =>
    by_cases hc : isSign c = true
    · rw [collapseSigns_cons, withoutSigns_pushSign hc, ih]
      simp [withoutSigns, hc]
    · rw [Bool.not_eq_true] at hc
      rw [collapseSigns_cons_of_not_isSign hc]
      unfold withoutSigns at ih ⊢
      simp [hc, ih]

/-- A sign in front of a text goes into its first gap and no further. -/
theorem signRows_pushSign (hc : isSign c = true) (t : Text) :
    signRows (pushSign c t) = (signRows t).modifyHead (pushSign c) := by
  rcases t with _ | ⟨d, t⟩
  · exact signRows_cons_of_isSign hc
  · by_cases hd : isSign d = true
    · obtain ⟨row, rest, hrows⟩ := exists_signRows_eq_cons t
      rw [pushSign_of_isSign hc hd, signRows_cons_of_isSign (isSign_mergeSigns c d),
        signRows_cons_of_isSign hd, hrows]
      simp [pushSign_of_isSign hc hd]
    · rw [Bool.not_eq_true] at hd
      rw [pushSign_of_not_isSign hd, signRows_cons_of_isSign hc, signRows_cons_of_not_isSign hd]
      rfl

/-- Each gap is collapsed by itself. -/
theorem signRows_collapseSigns (t : Text) :
    signRows (collapseSigns t) = (signRows t).map collapseSigns := by
  induction t with
  | nil => rfl
  | cons c t ih =>
    by_cases hc : isSign c = true
    · obtain ⟨row, rest, hrows⟩ := exists_signRows_eq_cons t
      rw [collapseSigns_cons, signRows_pushSign hc, ih, signRows_cons_of_isSign hc, hrows]
      simp [collapseSigns_cons]
    · rw [Bool.not_eq_true] at hc
      rw [collapseSigns_cons_of_not_isSign hc, signRows_cons_of_not_isSign hc,
        signRows_cons_of_not_isSign hc, ih]
      rfl

/-- What is left of a row of signs. -/
def rowForm (row : Text) : Text :=
  if row = [] then [] else if row.count '-' % 2 = 0 then ['+'] else ['-']

theorem rowForm_eq_iff {r s : Text} : rowForm r = rowForm s ↔ SameSigns r s := by
  unfold rowForm SameSigns
  split_ifs <;> simp_all

theorem pushSign_rowForm (hc : isSign c = true) (row : Text) :
    pushSign c (rowForm row) = rowForm (c :: row) := by
  by_cases hrow : row = []
  · subst hrow
    rcases isSign_iff.mp hc with rfl | rfl <;> decide
  · have hparity := Nat.mod_two_eq_zero_or_one (row.count '-')
    rcases isSign_iff.mp hc with rfl | rfl <;> rcases hparity with h | h <;>
      simp [rowForm, hrow, h, pushSign, isSign, mergeSigns, Nat.add_mod]

theorem collapseSigns_eq_rowForm {row : Text} (h : ∀ c ∈ row, isSign c = true) :
    collapseSigns row = rowForm row := by
  induction row with
  | nil => rfl
  | cons c row ih =>
    obtain ⟨hc, hrow⟩ := List.forall_mem_cons.mp h
    rw [collapseSigns_cons, ih hrow, pushSign_rowForm hc]

end Gaps

theorem collapseSigns_eq_iff (a b : Text) :
    collapseSigns a = collapseSigns b ↔ SameButForRows a b := by
  have hrows (t : Text) : signRows (collapseSigns t) = (signRows t).map rowForm := by
    rw [signRows_collapseSigns]
    exact List.map_congr_left fun row hrow => collapseSigns_eq_rowForm (isSign_of_mem_signRows hrow)
  have hgaps : (signRows a).map rowForm = (signRows b).map rowForm ↔
      List.Forall₂ SameSigns (signRows a) (signRows b) := by
    rw [← List.forall₂_eq_eq_eq, List.forall₂_map_left_iff, List.forall₂_map_right_iff]
    simp only [rowForm_eq_iff]
  constructor
  · intro h
    refine ⟨?_, hgaps.mp ?_⟩
    · rw [← withoutSigns_collapseSigns a, h, withoutSigns_collapseSigns]
    · rw [← hrows, h, hrows]
  · rintro ⟨hcharacters, hsigns⟩
    apply eq_of_signRows_eq
    · rw [withoutSigns_collapseSigns, withoutSigns_collapseSigns, hcharacters]
    · rw [hrows, hrows, hgaps.mpr hsigns]

/-! ## No two signs side by side -/

theorem isChain_collapseSigns (t : Text) :
    (collapseSigns t).IsChain fun c d => ¬(isSign c = true ∧ isSign d = true) := by
  induction t with
  | nil => exact List.isChain_nil
  | cons c t ih =>
    rw [collapseSigns_cons]
    generalize collapseSigns t = u at ih ⊢
    rcases u with _ | ⟨d, rest⟩
    · exact List.isChain_singleton c
    · unfold pushSign
      dsimp only
      split
      · rename_i hboth
        rw [Bool.and_eq_true] at hboth
        refine ih.imp_head ?_
        intro e hd hsigns
        exact hd ⟨hboth.2, hsigns.2⟩
      · rename_i hnot
        rw [Bool.and_eq_true] at hnot
        exact List.isChain_cons_cons.mpr ⟨hnot, ih⟩

theorem collapseSigns_of_isChain {t : Text}
    (h : t.IsChain fun c d => ¬(isSign c = true ∧ isSign d = true)) : collapseSigns t = t := by
  induction t with
  | nil => rfl
  | cons c t ih =>
    obtain ⟨hhead, htail⟩ := List.isChain_cons.mp h
    rw [collapseSigns_cons, ih htail]
    rcases t with _ | ⟨d, t⟩
    · rfl
    · have hnot := hhead d rfl
      rw [← Bool.and_eq_true] at hnot
      simp only [pushSign, if_neg hnot]

theorem plainForm_plainForm (t : Text) : plainForm (plainForm t) = plainForm t := by
  have hblanks : (plainForm t).withoutBlanks = plainForm t := by
    unfold Text.withoutBlanks
    rw [List.filter_eq_self]
    intro c hc
    simp [not_isBlank_of_mem_plainForm hc]
  conv_lhs => rw [plainForm, hblanks]
  exact collapseSigns_of_isChain (isChain_collapseSigns _)

/-! ## Lines as they are typed -/

namespace Text

theorem withoutBlanks_dropWhile (t : Text) :
    withoutBlanks (t.dropWhile isBlank) = t.withoutBlanks := by
  induction t with
  | nil => rfl
  | cons c t ih =>
    by_cases hc : isBlank c = true
    · rw [List.dropWhile_cons_of_pos hc, ih]
      simp [withoutBlanks, hc]
    · rw [List.dropWhile_cons_of_neg hc]

theorem withoutBlanks_trimEnd (t : Text) : t.trimEnd.withoutBlanks = t.withoutBlanks := by
  have hreverse (s : Text) : withoutBlanks s.reverse = (withoutBlanks s).reverse :=
    List.filter_reverse ..
  rw [trimEnd, hreverse, withoutBlanks_dropWhile, hreverse, List.reverse_reverse]

theorem trimEnd_cons {c : Char} (hc : isBlank c = false) (t : Text) :
    trimEnd (c :: t) = c :: trimEnd t := by
  unfold trimEnd
  rw [List.reverse_cons, List.dropWhile_append]
  by_cases h : (t.reverse.dropWhile isBlank).isEmpty = true
  · rw [if_pos h, List.isEmpty_iff.mp h]
    simp [hc]
  · rw [if_neg h, List.reverse_append]
    rfl

/-- A line has nothing but blanks, or is trimmed down to its first other character. -/
theorem trim_cases (t : Text) :
    (t.trim = [] ∧ t.withoutBlanks = []) ∨
      ∃ c rest, t.trim = c :: rest ∧ t.withoutBlanks = c :: withoutBlanks rest := by
  have hkeep := withoutBlanks_dropWhile t
  unfold trim
  rcases hdrop : t.dropWhile isBlank with _ | ⟨c, rest⟩
  · rw [hdrop] at hkeep
    exact Or.inl ⟨rfl, hkeep.symm⟩
  · have hc : isBlank c = false := by
      have hhead := List.head?_dropWhile_not isBlank t
      rw [hdrop] at hhead
      exact hhead
    rw [hdrop] at hkeep
    refine Or.inr ⟨c, trimEnd rest, trimEnd_cons hc rest, ?_⟩
    rw [withoutBlanks_trimEnd, ← hkeep]
    simp [withoutBlanks, hc]

theorem withoutBlanks_trim (t : Text) : t.trim.withoutBlanks = t.withoutBlanks := by
  unfold trim
  rw [withoutBlanks_trimEnd, withoutBlanks_dropWhile]

end Text

theorem head?_collapseSigns_iff {x : Char} (hx : isSign x = false) (t : Text) :
    (collapseSigns t).head? = some x ↔ t.head? = some x := by
  rcases t with _ | ⟨c, t⟩
  · rfl
  · by_cases hc : isSign c = true
    · have hne : c ≠ x := by
        rintro rfl
        rw [hc] at hx
        cases hx
      rw [collapseSigns_cons]
      rcases collapseSigns t with _ | ⟨d, rest⟩
      · rfl
      · by_cases hd : isSign d = true
        · have hmerge : mergeSigns c d ≠ x := by
            rintro rfl
            rw [isSign_mergeSigns] at hx
            cases hx
          rw [pushSign_of_isSign hc hd]
          simp [hne, hmerge]
        · rw [pushSign_of_not_isSign (by simpa using hd)]
          rfl
    · rw [collapseSigns_cons_of_not_isSign (by simpa using hc)]
      rfl

/-- What is done about a line that is no command depends on its plain form alone. -/
theorem Session.answer_eq_of_plainForm (s : Session) {raw : Text}
    (plain : (plainForm raw).head? ≠ some '/') :
    s.answer raw =
      if plainForm raw = [] then (.skip, s)
      else (.evaluated (plainForm raw) (s.execute (plainForm raw)).1,
        (s.execute (plainForm raw)).2) := by
  have htrim : plainForm raw.trim = plainForm raw := by
    unfold plainForm
    rw [Text.withoutBlanks_trim]
  rcases Text.trim_cases raw with ⟨hempty, hblank⟩ | ⟨c, rest, hcons, hfirst⟩
  · rw [if_pos (by rw [plainForm, hblank]; rfl)]
    unfold answer
    rw [hempty]
  · have hne : plainForm raw ≠ [] := collapseSigns_ne_nil (by rw [hfirst]; simp)
    have hslash : c ≠ '/' := by
      rintro rfl
      apply plain
      rw [plainForm, head?_collapseSigns_iff rfl, hfirst]
      rfl
    rw [if_neg hne, ← htrim]
    apply s.answer_of_plain
    · simp [hcons]
    · rintro rest' h
      rw [hcons] at h
      cases h
      exact hslash rfl

/-! ## The law -/

/-- Two lines have the same plain form exactly when, without their blanks, they are the same but
for how their rows of signs are written. The plain form of a plain form is itself; it has no
blank and no two signs side by side. So two such lines that are no commands are answered alike,
whatever the session holds. -/
theorem the_plain_form_is_canonical :
    (∀ a b : Text,
      plainForm a = plainForm b ↔ SameButForRows a.withoutBlanks b.withoutBlanks) ∧
    (∀ t : Text, plainForm (plainForm t) = plainForm t ∧
      (∀ c ∈ plainForm t, Text.isBlank c = false) ∧
      (plainForm t).IsChain fun c d => ¬(isSign c = true ∧ isSign d = true)) ∧
    ∀ (s : Session) (a b : Text), SameButForRows a.withoutBlanks b.withoutBlanks →
      a.withoutBlanks.head? ≠ some '/' → s.answer a = s.answer b := by
  have hiff (a b : Text) :
      plainForm a = plainForm b ↔ SameButForRows a.withoutBlanks b.withoutBlanks :=
    collapseSigns_eq_iff _ _
  refine ⟨hiff, fun t => ⟨plainForm_plainForm t, fun c => not_isBlank_of_mem_plainForm,
    isChain_collapseSigns _⟩, ?_⟩
  intro s a b hsame hslash
  have heq := (hiff a b).mpr hsame
  have hplain : (plainForm a).head? ≠ some '/' := by
    rwa [plainForm, ne_eq, head?_collapseSigns_iff rfl]
  rw [s.answer_eq_of_plainForm hplain, s.answer_eq_of_plainForm (heq ▸ hplain), heq]

/-- `2 - - x` and `2+++x` are answered alike where `x` is 3. -/
theorem two_minuses_and_three_pluses_are_answered_alike :
    let s : Session := { store := Store.assign {} ['x'] 3 }
    SameButForRows (Text.withoutBlanks "2 - - x".toList) (Text.withoutBlanks "2+++x".toList) ∧
      s.answer "2 - - x".toList = s.answer "2+++x".toList ∧
      (s.answer "2+++x".toList).1 = .evaluated "2+x".toList (.value 5) := by
  intro s
  obtain ⟨hiff, _, hanswer⟩ := the_plain_form_is_canonical
  have hsame := (hiff "2 - - x".toList "2+++x".toList).mp (by decide)
  exact ⟨hsame, hanswer s _ _ hsame (by decide), by decide⟩

end Abacus
