-- Commands: the lines that begin with a slash, and what a line as it was typed
-- makes the calculator do.
import Abacus.Session

namespace Abacus

/-! ## Commands -/

inductive Command where
  | help
  | exit
  | unknown
  deriving DecidableEq, Repr

namespace Command

/-- The full name of the help command. -/
def helpName : Text := ['/', 'h', 'e', 'l', 'p']

/-- The full name of the exit command. -/
def exitName : Text := ['/', 'e', 'x', 'i', 't']

/-- The command that a line means. Any piece of a name will do, and a piece of both names
means help. -/
def ofLine (line : Text) : Command :=
  if line.hasPiece helpName then .help
  else if line.hasPiece exitName then .exit
  else .unknown

/-- What the help command says. -/
def helpText : String :=
  "Smart Calculator evaluates integer expressions of any size.\n" ++
  "Operators: + - * / ^ and parentheses, e.g. 3 + 8 * ((4 + 3) * 2 + 1) - 6 / (2 + 1)\n" ++
  "Division truncates toward zero. Repeated signs collapse: 2 -- 2 is 2 + 2.\n" ++
  "Variables are made of Latin letters: a = 10, then b = a, then a + b.\n" ++
  "Commands: /help shows this text, /exit quits."

end Command

/-! ## Lines as they are typed -/

/-- What the calculator does about a line. -/
inductive Action where
  /-- The line is blank. -/
  | skip
  | help
  | exit
  | unknownCommand
  /-- The plain form of the line was answered. -/
  | evaluated (line : Text) (outcome : Outcome)
  deriving DecidableEq, Repr

/-- What a command makes the calculator do. -/
def Command.action : Command → Action
  | help => .help
  | exit => .exit
  | unknown => .unknownCommand

/-- Answers a line as it was typed. -/
def Session.answer (s : Session) (raw : Text) : Action × Session :=
  match raw.trim with
  | [] => (.skip, s)
  | '/' :: rest => ((Command.ofLine ('/' :: rest)).action, s)
  | line =>
    let plain := plainForm line
    let (outcome, s') := s.execute plain
    (.evaluated plain outcome, s')

end Abacus
