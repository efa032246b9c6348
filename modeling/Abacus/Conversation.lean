-- Conversations: a user types lines and reads a reply to each. A conversation
-- ends with the exit command, with the end of the input, or with a line that
-- is no text; only the last goes without a farewell.
import Abacus.Command
import Abacus.Diagnostic

namespace Abacus

/-- How a conversation came to its end. -/
inductive Ending where
  | farewell
  /-- A line was no UTF-8 text. -/
  | unreadable
  deriving DecidableEq, Repr

/-- A conversation after some of its lines. -/
structure Conversation where
  session : Session
  /-- What was said, the newest first. -/
  said : List String := []
  /-- Set once the conversation is over. -/
  ending : Option Ending := none
  deriving DecidableEq, Repr

/-- What is said about an action, if anything. -/
def Action.reply : Action → Option String
  | .skip | .evaluated _ .silent => none
  | .help => some Command.helpText
  | .exit => some "Bye!"
  | .unknownCommand => some "Unknown command"
  | .evaluated _ outcome => some outcome.display

namespace Conversation

/-- Says something. -/
def say (c : Conversation) (reply : Option String) : Conversation :=
  { c with said := reply.toList ++ c.said }

/-- Takes a line. After the end no line has an effect. -/
def hear (c : Conversation) (line : List UInt8) : Conversation :=
  if c.ending.isSome then c
  else
    match Text.decode? line with
    | none => { c with ending := some .unreadable }
    | some raw =>
      let (action, session) := c.session.answer raw
      let heard := { c with session }.say action.reply
      if action = .exit then { heard with ending := some .farewell } else heard

/-- The end of the input is a farewell too. -/
def close (c : Conversation) : Conversation :=
  if c.ending.isSome then c else { c.say (some "Bye!") with ending := some .farewell }

/-- The conversation that goes on from a session with these bytes as input. -/
def ofInput (session : Session) (input : List UInt8) : Conversation :=
  ((Text.byteLines input).foldl hear { session }).close

/-- All that was said. -/
def output (c : Conversation) : String := Text.unlines c.said.reverse

/-- What is wrong with input that is no text. -/
def notText : String := "stream did not contain valid UTF-8"

end Conversation

end Abacus
