-- Tokens: the operands and operators of a line. An operator is one character;
-- an operand is all that stands between two operators. The tokens lie end to
-- end, so together they cover the line.
import Abacus.Span
import Abacus.Text.Basic

namespace Abacus

/-! ## Operators -/

/-- The operators that stand between two operands. -/
inductive BinOp where
  | add
  | sub
  | mul
  | div
  | pow
  deriving DecidableEq, Repr

/-- The operators of a line. -/
inductive Op where
  | binary (op : BinOp)
  | lparen
  | rparen
  /-- The minus in front of an operand. No character is read as this one: only the place
  of a minus can tell. -/
  | neg
  deriving DecidableEq, Repr

namespace BinOp

/-- The character that stands for the operator. -/
def symbol : BinOp → Char
  | add => '+'
  | sub => '-'
  | mul => '*'
  | div => '/'
  | pow => '^'

/-- How tightly the operator binds its operands. -/
def rank : BinOp → Nat
  | add | sub => 1
  | mul | div => 2
  | pow => 3

end BinOp

namespace Op

/-- The operator that a character stands for. -/
def ofChar? : Char → Option Op
  | '+' => some (.binary .add)
  | '-' => some (.binary .sub)
  | '*' => some (.binary .mul)
  | '/' => some (.binary .div)
  | '^' => some (.binary .pow)
  | '(' => some .lparen
  | ')' => some .rparen
  | _ => none

/-- The text of the operator. The minus in front of an operand has a name of its own. -/
def symbol : Op → Text
  | binary op => [op.symbol]
  | lparen => ['(']
  | rparen => [')']
  | neg => ['n', 'e', 'g']

/-- How tightly the operator binds. A parenthesis binds nothing. -/
def rank : Op → Nat
  | lparen | rparen => 0
  | binary op => op.rank
  | neg => 4

/-- A plus or a minus, which can also be a sign. -/
def isSign : Op → Bool
  | binary .add | binary .sub => true
  | _ => false

/-- A character is read as an operator exactly when it is the text of it. -/
theorem ofChar?_eq_some_iff {c : Char} {op : Op} : ofChar? c = some op ↔ op.symbol = [c] := by
  constructor
  · intro h
    unfold ofChar? at h
    split at h <;> simp at h <;> subst h <;> rfl
  · intro h
    cases op with
    | binary op => cases op <;> simp [symbol, BinOp.symbol] at h <;> subst h <;> rfl
    | _ => simp [symbol] at h <;> subst h <;> rfl

end Op

/-- The character is an operator. -/
def isOperator (c : Char) : Bool := (Op.ofChar? c).isSome

/-! ## Lexemes -/

/-- What a token is, without its place. -/
inductive Lexeme where
  | operand (text : Text)
  | operator (op : Op)
  deriving DecidableEq, Repr

namespace Lexeme

def text : Lexeme → Text
  | operand text => text
  | operator op => op.symbol

/-- How tightly the lexeme binds. An operand binds nothing. -/
def rank : Lexeme → Int
  | operand _ => -1
  | operator op => op.rank

/-- One turn of the reading, from the right: a character that is no operator joins the
operand after it. -/
def push (c : Char) (later : List Lexeme) : List Lexeme :=
  match Op.ofChar? c, later with
  | some op, _ => operator op :: later
  | none, operand run :: rest => operand (c :: run) :: rest
  | none, _ => operand [c] :: later

/-- The lexemes of a line, in order. -/
def ofLine (line : Text) : List Lexeme := line.foldr push []

end Lexeme

/-! ## Tokens -/

/-- A lexeme and its place in the line. -/
abbrev Token := Placed Lexeme

namespace Token

/-- The lexemes end to end, from an offset on. -/
def place (start : Nat) : List Lexeme → List Token
  | [] => []
  | l :: rest =>
    let stop := start + l.text.byteLength
    ⟨l, start, stop⟩ :: place stop rest

/-- The tokens of a line. -/
def ofLine (line : Text) : List Token := place 0 (Lexeme.ofLine line)

end Token

end Abacus
