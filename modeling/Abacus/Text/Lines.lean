-- Lines: how a stream of characters, or of bytes, falls into lines.
-- A line ends at a mark. One return right before the mark belongs to the mark.
-- What stands after the last mark is a line too, unless it is empty.
import Abacus.Text.Basic

namespace Abacus.Text

section Stream

variable {α : Type} [DecidableEq α]

/-- The line without one return at its end. -/
def dropReturn (ret : α) (line : List α) : List α :=
  if line.getLast? = some ret then line.dropLast else line

/-- The lines of a stream: the pieces between its marks without their returns, and the last
piece as it stands. -/
def linesAt (mark ret : α) (items : List α) : List (List α) :=
  let pieces := items.splitOn mark
  pieces.dropLast.map (dropReturn ret) ++ (pieces.getLast?.filter (!·.isEmpty)).toList

end Stream

/-- The lines of a text. -/
def lines (t : Text) : List Text := linesAt '\n' '\r' t

/-- The lines of a stream of bytes. -/
def byteLines (bytes : List UInt8) : List (List UInt8) := linesAt 10 13 bytes

/-- The lines one under another, each with its end. -/
def unlines (ls : List String) : String := String.join (ls.map (· ++ "\n"))

/-! ## Bytes -/

/-- The UTF-8 form of a text. -/
def encode (t : Text) : List UInt8 := t.flatMap String.utf8EncodeChar

/-- The text that has these bytes as its UTF-8 form, if there is one. -/
def decode? (bytes : List UInt8) : Option Text :=
  (String.fromUTF8? bytes.toByteArray).map String.toList

/-! ## The pieces -/

section Pieces

variable {α : Type} {items piece : List α}

/-- A piece between two marks stands in the list, and no mark is in it. -/
theorem infix_of_mem_splitOnP {p : α → Bool} :
    (∀ first ∈ (items.splitOnP p).head?, first <+: items) ∧
      ∀ piece ∈ items.splitOnP p, piece <:+: items ∧ ∀ item ∈ piece, p item = false := by
  -- The first piece is a front of the list: only so it still stands there with one item more.
  induction items with
  | nil => simp
  | cons item rest ih =>
    obtain ⟨hfirst, hpieces⟩ := ih
    obtain ⟨first, later, hsplit⟩ := List.exists_cons_of_ne_nil (List.splitOnP_ne_nil p rest)
    rw [hsplit] at hfirst hpieces
    have hlater : ∀ piece ∈ first :: later,
        piece <:+: item :: rest ∧ ∀ item ∈ piece, p item = false :=
      fun piece hpiece => ⟨(hpieces piece hpiece).1.trans (List.suffix_cons item rest).isInfix,
        (hpieces piece hpiece).2⟩
    rw [List.splitOnP_cons_eq_if_modifyHead, hsplit]
    by_cases hitem : p item = true
    · rw [if_pos hitem]
      refine ⟨by simp, List.forall_mem_cons.mpr ⟨⟨by simp, by simp⟩, hlater⟩⟩
    · have hfront : item :: first <+: item :: rest :=
        List.cons_prefix_cons.mpr ⟨rfl, hfirst first rfl⟩
      rw [if_neg hitem, List.modifyHead_cons]
      refine ⟨by simpa using hfront, List.forall_mem_cons.mpr ⟨⟨hfront.isInfix, ?_⟩, ?_⟩⟩
      · exact List.forall_mem_cons.mpr
          ⟨by simpa using hitem, (hpieces first List.mem_cons_self).2⟩
      · exact fun piece hpiece => hlater piece (List.mem_cons_of_mem first hpiece)

theorem not_mem_of_mem_splitOn [DecidableEq α] {mark : α} (h : piece ∈ items.splitOn mark) :
    mark ∉ piece := by
  rw [List.splitOn_eq_splitOnP] at h
  intro hmark
  simpa using (infix_of_mem_splitOnP.2 piece h).2 mark hmark

end Pieces

end Abacus.Text
