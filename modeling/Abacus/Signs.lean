-- Signs: a row of plus and minus signs means one sign, a minus exactly when
-- the row has an odd number of them. The plain form of a line has no blank and
-- no two signs side by side.
import Abacus.Text.Blank

namespace Abacus

/-- The character is a plus or a minus. -/
def isSign (c : Char) : Bool := c = '+' ∨ c = '-'

/-- The one sign that two signs mean. -/
def mergeSigns (a b : Char) : Char := if a = b then '+' else '-'

/-- One turn of the collapsing, from the right: a sign merges with a sign right after it. -/
def pushSign (c : Char) : Text → Text
  | [] => [c]
  | d :: rest => if isSign c && isSign d then mergeSigns c d :: rest else c :: d :: rest

/-- The text with each row of signs collapsed to one. -/
def collapseSigns (t : Text) : Text := t.foldr pushSign []

/-- The plain form of a line. -/
def plainForm (line : Text) : Text := collapseSigns line.withoutBlanks

end Abacus
