-- Sessions: a calculator that answers one line after another. Only a line that
-- gives a name a value changes what later lines see.
import Abacus.Evaluation
import Abacus.LineShape
import Abacus.Postfix
import Abacus.Signs

namespace Abacus

/-! ## Outcomes -/

/-- What one line came to. -/
inductive Outcome where
  /-- The line has a value. -/
  | value (n : Int)
  /-- The line succeeded, and there is nothing to say. -/
  | silent
  | failed (fault : Fault)
  deriving DecidableEq, Repr

namespace Outcome

def isFailure : Outcome → Bool
  | failed _ => true
  | _ => false

/-- The outcome in words: the value, or the message of the fault. -/
def display : Outcome → String
  | value n => String.ofList (Decimal.write n)
  | silent => ""
  | failed fault => fault.message

end Outcome

/-! ## One line -/

/-- A calculator between two lines. -/
structure Session where
  limits : Limits := {}
  store : Store := {}
  deriving DecidableEq, Repr

namespace Session

/-- A doubled star is at fault, and so is a doubled slash where there is no such star. -/
def refuseDoubled (line : Text) : Except Fault Unit :=
  match (line.firstPair '*' 0).or (line.firstPair '/' 0) with
  | some start => .error ⟨.malformed, start, start + 2⟩
  | none => .ok ()

/-- The value of an expression. An expression of no tokens has none. -/
def valueOf (s : Session) (line : Text) : Except Fault (Option Int) := do
  let tokens ← Postfix.ofLine line
  if tokens.isEmpty then .ok none
  else
    let value ← evaluate s.limits s.store tokens
    .ok (some value)

/-- What the line comes to and the store after it, or the fault. -/
def perform (s : Session) (line : Text) : Except Fault (Option Int × Store) := do
  refuseDoubled line
  match ← LineShape.ofLine line with
  | .assignment name literal =>
    let value ← Operand.resolve s.store literal
    .ok (none, s.store.assign name value)
  | .reference name source =>
    let store ← s.store.copy name source
    .ok (none, store)
  | .value =>
    let value ← Operand.resolve s.store ⟨line, LineShape.whole line⟩
    .ok (some value, s.store)
  | .expression =>
    let value? ← s.valueOf line
    .ok (value?, s.store)

/-- Answers a line in its plain form. A line that fails leaves the session as it was. -/
def execute (s : Session) (line : Text) : Outcome × Session :=
  match s.perform line with
  | .ok (some value, store) => (.value value, { s with store })
  | .ok (none, store) => (.silent, { s with store })
  | .error fault => (.failed fault, s)

end Session

end Abacus
