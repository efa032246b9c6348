-- Decimals: how integers are written and read.
-- The written form has no sign but a leading minus, and no needless zero. The
-- read forms are more: one plus or minus may lead, and so may any zeros.
import Abacus.Text.Basic

namespace Abacus.Decimal

/-! ## Writing -/

/-- The last `2 ^ k` digits of the number, with zeros in front where it has fewer. The
two halves are written apart, so a long number costs no more than its divisions. -/
def block : Nat → Nat → Text
  | 0, n => [Nat.digitChar (n % 10)]
  | k + 1, n => block k (n / 10 ^ 2 ^ k) ++ block k (n % 10 ^ 2 ^ k)

/-- A `k` for which the number has no more than `2 ^ k` digits: one digit for each three
bits is enough. -/
def blockSize (n : Nat) : Nat := (n.log2 / 3 + 1).log2 + 1

/-- The digits of the number, with no zero in front of another digit. -/
def digits (n : Nat) : Text :=
  match (block (blockSize n) n).dropWhile (· = '0') with
  | [] => ['0']
  | ds => ds

/-- The written form of an integer. -/
def write : Int → Text
  | .ofNat n => digits n
  | .negSucc n => '-' :: digits (n + 1)

/-! ## Reading -/

/-- The number that a row of digits denotes. -/
def value (ds : Text) : Nat := ds.foldl (fun n d => 10 * n + (d.toNat - '0'.toNat)) 0

/-- One digit or more, and nothing else. -/
def isNumeral (t : Text) : Bool := !t.isEmpty && t.all Char.isDigit

/-- The integer that the text denotes, when it is a numeral behind at most one sign. -/
def read? : Text → Option Int
  | '-' :: ds => if isNumeral ds then some (-(value ds : Int)) else none
  | '+' :: ds => if isNumeral ds then some (value ds) else none
  | ds => if isNumeral ds then some (value ds) else none

/-- The text denotes an integer. -/
def isLiteral (t : Text) : Bool := (read? t).isSome

end Abacus.Decimal
