-- Text: a line is a list of characters, and offsets into it count the bytes
-- of its UTF-8 form.

namespace Abacus

/-- A piece of text, as its characters in order. -/
abbrev Text := List Char

namespace Text

/-- The number of bytes of the UTF-8 form. -/
def byteLength (t : Text) : Nat := t.foldr (fun c n => c.utf8Size + n) 0

/-! ## Byte length -/

@[simp] theorem byteLength_nil : byteLength [] = 0 := rfl

@[simp] theorem byteLength_cons (c : Char) (t : Text) :
    byteLength (c :: t) = c.utf8Size + byteLength t := rfl

@[simp] theorem byteLength_append (s t : Text) :
    byteLength (s ++ t) = byteLength s + byteLength t := by
  induction s with
  | nil => simp
  | cons c s ih => simp [ih, Nat.add_assoc]

theorem length_le_byteLength (t : Text) : t.length ≤ t.byteLength := by
  induction t with
  | nil => simp
  | cons c t ih =>
    have := c.utf8Size_pos
    simp
    omega

/-! ## Pieces of text -/

/-- `piece` stands somewhere in the text, its characters side by side. -/
def hasPiece (piece : Text) : Text → Bool
  | [] => piece.isEmpty
  | c :: rest => piece.isPrefixOf (c :: rest) || hasPiece piece rest

/-- The offset, counted on from `start`, of the first two `c` side by side. -/
def firstPair (c : Char) (start : Nat) : Text → Option Nat
  | [] => none
  | d :: rest =>
    if d = c ∧ rest.head? = some c then some start
    else firstPair c (start + d.utf8Size) rest

theorem hasPiece_iff (piece t : Text) : hasPiece piece t = true ↔ piece <:+: t := by
  induction t with
  | nil => simp [hasPiece]
  | cons c t ih => simp [hasPiece, ih, List.infix_cons_iff]

end Text

end Abacus
