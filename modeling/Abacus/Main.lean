-- The command line: reads the words, the file and the standard input, and
-- writes what the program says. A conversation is answered line by line, as
-- the lines come.
import Abacus.Program

namespace Abacus

/-- Looks for a file. A place that is no place, such as a file in a file, holds nothing. -/
def findFile (name : String) : IO Program.Found := do
  try
    let content ← IO.FS.readBinFile name
    return .bytes content.toList
  catch
    | .noFileOrDirectory _ _ _ => return .nothing
    | .inappropriateType _ code details =>
      return if code = notADirectory then .nothing else .unreadable (reason details code)
    | .permissionDenied _ code details => return .unreadable (reason details code)
    | e => return .unreadable e.toString
where
  /-- The number that the system gives to the error. -/
  notADirectory : UInt32 := 20
  /-- The words of the system for what is wrong. -/
  reason (details : String) (code : UInt32) : String :=
    details ++ " (os error " ++ toString code.toNat ++ ")"

/-- Writes a line to the log, if one is wanted. -/
def log (options : Options) (line : String) : IO Unit :=
  if options.verbose then IO.eprintln line else return ()

/-- Reads the bytes of one line without its end. `none` is the end of the input. -/
partial def readLine (stdin : IO.FS.Stream) : IO (Option (List UInt8)) := do
  let rec go (line : Array UInt8) : IO (Option (List UInt8)) := do
    let next ← stdin.read 1
    match next.toList with
    | [] => return if line.isEmpty then none else some line.toList
    | byte :: _ =>
      if byte = 10 then return some (Text.dropReturn 13 line.toList) else go (line.push byte)
  go #[]

/-- Answers each line as it comes. -/
partial def converse (stdin stdout : IO.FS.Stream) (c : Conversation) : IO Conversation := do
  let (c, heard) ← match ← readLine stdin with
    | some line => pure (c.hear line, true)
    | none => pure (c.close, false)
  stdout.putStr c.output
  stdout.flush
  if heard && c.ending.isNone then converse stdin stdout { c with said := [] } else return c

/-- Holds the conversation that goes on from a session. -/
def talk (session : Session) : IO UInt32 := do
  let c ← converse (← IO.getStdin) (← IO.getStdout) { session }
  IO.eprint (Program.complaint c)
  return 0

/-- Runs the script, then the conversation, as the options say. -/
def runProgram (options : Options) : IO UInt32 := do
  log options "starting"
  let session := Program.start options
  match options.file with
  | none => talk session
  | some name =>
    match Program.runFile session name (← findFile name) with
    | .error text => do
      IO.eprint text
      return 1
    | .ok run => do
      IO.print run.output
      IO.eprint (run.complaints name)
      log options ("script finished, evaluated " ++ toString run.evaluated ++ ", errors " ++
        toString run.errors)
      if options.interactive then talk run.session else return 0

end Abacus

def main (words : List String) : IO UInt32 := do
  match Abacus.Options.ofWords words with
  | .ok options => Abacus.runProgram options
  | .error _ => do
    let written := Abacus.Program.run words (fun _ => .nothing) []
    IO.print written.stdout
    IO.eprint written.stderr
    return written.status
