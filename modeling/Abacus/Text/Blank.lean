-- Blanks: the characters that separate and mean nothing. They are those with
-- the Unicode property `White_Space`.
import Abacus.Text.Basic

namespace Abacus.Text

/-- The ranges of code points with the property, both ends included. -/
def blankRanges : List (Nat × Nat) :=
  [(0x0009, 0x000D), (0x0020, 0x0020), (0x0085, 0x0085), (0x00A0, 0x00A0), (0x1680, 0x1680),
   (0x2000, 0x200A), (0x2028, 0x2029), (0x202F, 0x202F), (0x205F, 0x205F), (0x3000, 0x3000)]

/-- The character stands in one of the ranges. -/
def isBlank (c : Char) : Bool :=
  blankRanges.any fun (low, high) => low ≤ c.toNat && c.toNat ≤ high

/-- The text without the blanks at its end. -/
def trimEnd (t : Text) : Text := (t.reverse.dropWhile isBlank).reverse

/-- The text without the blanks at its two ends. -/
def trim (t : Text) : Text := trimEnd (t.dropWhile isBlank)

/-- The text without any of its blanks. -/
def withoutBlanks (t : Text) : Text := t.filter fun c => !isBlank c

/-- The text with a plain space for each of its blanks. -/
def spaced (t : Text) : Text := t.map fun c => if isBlank c then ' ' else c

/-! ## What the blanks are -/

/-- Every blank of plain ASCII text is a blank here. -/
theorem isBlank_of_isWhitespace {c : Char} (h : c.isWhitespace = true) : isBlank c = true := by
  simp only [Char.isWhitespace, Bool.or_eq_true, decide_eq_true_eq] at h
  rcases h with ((h | h) | h) | h <;> subst h <;> decide

theorem not_isBlank_of_mem_withoutBlanks {c : Char} {t : Text} (h : c ∈ t.withoutBlanks) :
    isBlank c = false := by
  simpa using (List.mem_filter.mp h).2

@[simp] theorem withoutBlanks_append (s t : Text) :
    withoutBlanks (s ++ t) = withoutBlanks s ++ withoutBlanks t := by
  simp [withoutBlanks]

theorem trimEnd_of_no_blank {t : Text} (h : ∀ c ∈ t, isBlank c = false) : t.trimEnd = t := by
  have hr : t.reverse.dropWhile isBlank = t.reverse := by
    rcases ht : t.reverse with _ | ⟨c, rest⟩
    · rfl
    · have hc : c ∈ t := by
        rw [← List.mem_reverse, ht]
        exact List.mem_cons_self
      simp [h c hc]
  rw [trimEnd, hr, List.reverse_reverse]

theorem spaced_of_no_blank {t : Text} (h : ∀ c ∈ t, isBlank c = false) : t.spaced = t := by
  induction t with
  | nil => rfl
  | cons c rest ih =>
    have hrest := ih fun d hd => h d (List.mem_cons_of_mem c hd)
    simpa [spaced, h c List.mem_cons_self] using hrest

end Abacus.Text
