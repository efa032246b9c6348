-- Scripts: the lines of a file are answered one after another. Values are
-- collected, and each failure is put on record with the number of its line.
import Abacus.Command
import Abacus.Diagnostic

namespace Abacus.Script

/-- What can be wrong with a line of a script. -/
inductive Complaint where
  | unknownCommand
  /-- The plain form of the line failed. -/
  | failure (line : Text) (fault : Fault)
  deriving DecidableEq, Repr

/-- A complaint about a line. Lines are counted from one. -/
structure Record where
  number : Nat
  complaint : Complaint
  deriving DecidableEq, Repr

/-- The record as it is printed. -/
def Record.render (file : String) (r : Record) : String :=
  let place := file ++ ":" ++ toString r.number
  match r.complaint with
  | .unknownCommand => Text.unlines [place ++ ": Unknown command"]
  | .failure line fault => fault.diagnostic.render place line

/-- A script after some of its lines. -/
structure Run where
  session : Session
  /-- The lines so far. -/
  read : Nat := 0
  /-- The lines that were answered with a value, in silence, or with a fault. -/
  evaluated : Nat := 0
  /-- What was printed, the newest first. -/
  printed : List String := []
  /-- What was put on record, the newest first. -/
  recorded : List Record := []
  /-- An exit command was read. -/
  exited : Bool := false
  deriving DecidableEq, Repr

namespace Run

/-- Prints something. -/
def print (r : Run) (text : String) : Run := { r with printed := text :: r.printed }

/-- Puts a complaint about the newest line on record. -/
def complain (r : Run) (complaint : Complaint) : Run :=
  { r with recorded := ⟨r.read, complaint⟩ :: r.recorded }

/-- Notes the outcome of the newest line. -/
def conclude (r : Run) (line : Text) : Outcome → Run
  | .value n => r.print (Outcome.value n).display
  | .silent => r
  | .failed fault => r.complain (.failure line fault)

/-- Notes what was done about the newest line. -/
def note (r : Run) : Action → Run
  | .skip => r
  | .help => r.print Command.helpText
  | .exit => { r with exited := true }
  | .unknownCommand => r.complain .unknownCommand
  | .evaluated line outcome => { r with evaluated := r.evaluated + 1 }.conclude line outcome

/-- Answers one line. After an exit command no line has an effect. -/
def step (r : Run) (raw : Text) : Run :=
  if r.exited then r
  else
    let (action, session) := r.session.answer raw
    { r with session, read := r.read + 1 }.note action

/-- The run that goes on from a session with the lines of this source. -/
def ofSource (session : Session) (source : Text) : Run :=
  source.lines.foldl step { session }

/-- The complaints, in the order of the lines. -/
def records (r : Run) : List Record := r.recorded.reverse

/-- The number of complaints. -/
def errors (r : Run) : Nat := r.recorded.length

/-- All that was printed. -/
def output (r : Run) : String := Text.unlines r.printed.reverse

/-- All complaints as they are printed. -/
def complaints (r : Run) (file : String) : String :=
  String.join (r.records.map (Record.render file))

end Run

/-- The name of a source that is in no file. -/
def unnamed : String := "<input>"

end Abacus.Script
