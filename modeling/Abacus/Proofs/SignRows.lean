-- Rows of signs: what collapsing does to a text, piece by piece. A row of
-- signs becomes one sign, and a character that is no sign keeps its place.
import Abacus.Signs

namespace Abacus

/-! ## One sign for two -/

theorem isSign_iff {c : Char} : isSign c = true ↔ c = '+' ∨ c = '-' := by
  unfold isSign
  rw [decide_eq_true_eq]

theorem isSign_mergeSigns (a b : Char) : isSign (mergeSigns a b) = true := by
  unfold mergeSigns
  split <;> rfl

/-- A sign in front of the collapsed text merges with a sign there. -/
theorem pushSign_of_isSign {c d : Char} (hc : isSign c = true) (hd : isSign d = true)
    (rest : Text) : pushSign c (d :: rest) = mergeSigns c d :: rest := by
  simp [pushSign, hc, hd]

theorem pushSign_of_not_isSign {d : Char} (hd : isSign d = false) (c : Char) (rest : Text) :
    pushSign c (d :: rest) = c :: d :: rest := by
  simp [pushSign, hd]

/-! ## Pieces -/

theorem collapseSigns_cons (c : Char) (t : Text) :
    collapseSigns (c :: t) = pushSign c (collapseSigns t) := rfl

theorem pushSign_append {x : Char} (hx : isSign x = false) (c : Char) (s t : Text) :
    pushSign c (s ++ x :: t) = pushSign c s ++ x :: t := by
  rcases s with _ | ⟨d, s⟩
  · exact pushSign_of_not_isSign hx c t
  · by_cases h : (isSign c && isSign d) = true <;> simp [pushSign, h]

/-- No row of signs goes on beyond a character that is no sign. -/
theorem collapseSigns_append_cons {x : Char} (hx : isSign x = false) (s t : Text) :
    collapseSigns (s ++ x :: t) = collapseSigns s ++ x :: collapseSigns t := by
  induction s with
  | nil =>
    rw [List.nil_append, collapseSigns_cons]
    rcases h : collapseSigns t with _ | ⟨d, rest⟩
    · rfl
    · simp [pushSign, hx, collapseSigns]
  | cons c s ih =>
    rw [List.cons_append, collapseSigns_cons, ih, pushSign_append hx, collapseSigns_cons]

theorem collapseSigns_cons_of_not_isSign {x : Char} (hx : isSign x = false) (t : Text) :
    collapseSigns (x :: t) = x :: collapseSigns t := collapseSigns_append_cons hx [] t

theorem collapseSigns_of_no_sign {t : Text} (h : ∀ c ∈ t, isSign c = false) :
    collapseSigns t = t := by
  induction t with
  | nil => rfl
  | cons c t ih =>
    rw [collapseSigns_cons_of_not_isSign (h c List.mem_cons_self),
      ih fun d hd => h d (List.mem_cons_of_mem c hd)]

/-- Two pieces collapse apart where the first one ends in no sign. -/
theorem collapseSigns_append {init : Text} {x : Char} (hx : isSign x = false) (t : Text) :
    collapseSigns (init ++ [x] ++ t) = collapseSigns (init ++ [x]) ++ collapseSigns t := by
  rw [List.append_assoc, List.singleton_append, collapseSigns_append_cons hx,
    collapseSigns_append_cons hx, List.append_assoc]
  rfl

/-! ## What is left -/

theorem collapseSigns_ne_nil {t : Text} (h : t ≠ []) : collapseSigns t ≠ [] := by
  obtain ⟨c, rest, rfl⟩ := List.exists_cons_of_ne_nil h
  rw [collapseSigns_cons]
  unfold pushSign
  split
  · simp
  · split <;> simp

/-- A sign that is put in front stays, or is merged into another sign. -/
theorem mem_pushSign {c d : Char} {t : Text} (h : c ∈ pushSign d t) :
    c = d ∨ c ∈ t ∨ isSign c = true := by
  rcases t with _ | ⟨e, rest⟩
  · exact Or.inl (List.mem_singleton.mp h)
  · unfold pushSign at h
    dsimp only at h
    split at h
    · rcases List.mem_cons.mp h with rfl | hrest
      · exact Or.inr (Or.inr (isSign_mergeSigns d e))
      · exact Or.inr (Or.inl (List.mem_cons_of_mem e hrest))
    · rcases List.mem_cons.mp h with rfl | hrest
      · exact Or.inl rfl
      · exact Or.inr (Or.inl hrest)

theorem mem_collapseSigns {c : Char} {t : Text} (h : c ∈ collapseSigns t) :
    c ∈ t ∨ isSign c = true := by
  induction t with
  | nil => cases h
  | cons d rest ih =>
    rw [collapseSigns_cons] at h
    rcases mem_pushSign h with rfl | hrest | hsign
    · exact Or.inl List.mem_cons_self
    · exact (ih hrest).imp_left (List.mem_cons_of_mem d)
    · exact Or.inr hsign

/-! ## The plain form -/

theorem plainForm_ne_nil {t : Text} (h : ∃ c ∈ t, Text.isBlank c = false) : plainForm t ≠ [] := by
  obtain ⟨c, hc, hblank⟩ := h
  refine collapseSigns_ne_nil (List.ne_nil_of_mem (a := c) ?_)
  exact List.mem_filter.mpr ⟨hc, by simp [hblank]⟩

/-- The plain form of a line has no blank. -/
theorem not_isBlank_of_mem_plainForm {c : Char} {line : Text} (h : c ∈ plainForm line) :
    Text.isBlank c = false := by
  rcases mem_collapseSigns h with h | h
  · exact Text.not_isBlank_of_mem_withoutBlanks h
  · rcases isSign_iff.mp h with rfl | rfl <;> decide

end Abacus
