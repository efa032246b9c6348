-- The program: the words of a command line, the file that they name and the
-- standard input decide the exit status and all that is written.
import Abacus.Conversation
import Abacus.Options
import Abacus.Script

namespace Abacus.Program

/-- What is found where a file is looked for. -/
inductive Found where
  | nothing
  /-- There is something, but it cannot be read. -/
  | unreadable (reason : String)
  | bytes (content : List UInt8)
  deriving DecidableEq, Repr

/-- What the program writes, and its exit status. -/
structure Written where
  status : UInt32
  stdout : String
  stderr : String
  deriving DecidableEq, Repr

/-- Answers the lines of a file, or says why they cannot be read. -/
def runFile (session : Session) (name : String) : Found → Except String Script.Run
  | .nothing => .error (Text.unlines ["Error: File '" ++ name ++ "' not found"])
  | .unreadable reason => .error (cannotRead reason)
  | .bytes content =>
    match Text.decode? content with
    | none => .error (cannotRead Conversation.notText)
    | some source => .ok (Script.Run.ofSource session source)
where
  /-- The file is there, but it has no text. -/
  cannotRead (reason : String) : String :=
    Text.unlines ["Error reading file '" ++ name ++ "': " ++ reason]

/-- What a conversation leaves on the error channel. -/
def complaint (c : Conversation) : String :=
  if c.ending = some .unreadable then
    Text.unlines ["Error reading input: " ++ Conversation.notText]
  else ""

/-- The conversation over the whole input, as what it writes. -/
def converse (session : Session) (input : List UInt8) : Written :=
  let c := Conversation.ofInput session input
  ⟨0, c.output, complaint c⟩

/-- The session that the options ask for, before any line. -/
def start (options : Options) : Session := { limits := options.limits }

/-- Runs the script, then holds the conversation if there is no script, or if one is
asked for. The conversation goes on with the names of the script. -/
def runWith (options : Options) (find : String → Found) (input : List UInt8) : Written :=
  let session := start options
  match options.file with
  | none => converse session input
  | some name =>
    match runFile session name (find name) with
    | .error text => ⟨1, "", text⟩
    | .ok run =>
      let before : Written := ⟨0, run.output, run.complaints name⟩
      if options.interactive then
        let after := converse run.session input
        ⟨after.status, before.stdout ++ after.stdout, before.stderr ++ after.stderr⟩
      else before

/-- The whole program. -/
def run (words : List String) (find : String → Found) (input : List UInt8) : Written :=
  match Options.ofWords words with
  | .error .helpWanted => ⟨0, Options.helpText, ""⟩
  | .error e => ⟨2, "", Text.unlines ["error: " ++ e.message]⟩
  | .ok options => runWith options find input

end Abacus.Program
