-- Diagnostics: how a fault is shown to the user. Under a header stands a frame
-- with the place, the source, a line of marks under the part that is to blame,
-- a pointer to its middle with the message, and a note where there is help.
--
-- A fault counts bytes, and the frame draws columns of characters. It takes the
-- one number for the other, so the marks are under the right characters where
-- all characters before and in the marked part are one byte long.
--
-- The frame is the work of a renderer that is no part of this library. Its rules
-- are assumed here: when a frame is drawn and the source is shown in it, what the
-- rows of marks and the pointer look like, and how blanks are shown.
import Abacus.Fault
import Abacus.Text.Blank
import Abacus.Text.Lines

namespace Abacus

/-- What is shown of a fault. -/
structure Diagnostic where
  kind : FaultKind
  span : Span
  help : Option String
  deriving DecidableEq, Repr

/-- The diagnostic of a fault. -/
def Fault.diagnostic (f : Fault) : Diagnostic := ⟨f.kind, f.span, f.help⟩

namespace Diagnostic

/-! ## Marks -/

/-- The part of the span that lies in the source. -/
def clamp (span : Span) (source : Text) : Span :=
  let stop := min span.stop source.byteLength
  ⟨min span.start stop, stop⟩

/-- The frame is drawn when the marked columns start in the source or right after it, and
stop no more than one column after it. -/
def isDrawn (mark : Span) (source : Text) : Bool :=
  !source.isEmpty && mark.start ≤ source.length &&
    (mark.start = mark.stop || mark.stop ≤ source.length + 1)

/-- The source is shown when the marks stop in it. -/
def showsSource (mark : Span) (source : Text) : Bool := mark.stop ≤ source.length

/-- The column that the pointer stands in. -/
def middle (mark : Span) : Nat := (mark.start + mark.stop) / 2

/-- The marks under the source, and two columns more. -/
def underline (mark : Span) : Text :=
  (List.range (mark.stop + 2)).map fun column =>
    if column = middle mark then (if mark.start = mark.stop then '│' else '┬')
    else if mark.start ≤ column ∧ column < mark.stop then '─'
    else ' '

/-- The pointer from the marks to the message. -/
def pointer (mark : Span) : Text :=
  (List.range (mark.stop + 2)).map fun column =>
    if column < middle mark then ' ' else if column = middle mark then '╰' else '─'

/-- The column of the place in the frame, counted from one. -/
def column (mark : Span) : Nat := mark.start + 1

/-! ## The frame -/

/-- The source as it is shown: blanks at its end are left out, and each other blank is a
plain space. -/
def shown (source : Text) : Text := source.trimEnd.spaced

/-- A source without blanks is shown as it stands. -/
theorem shown_of_no_blank {source : Text} (h : ∀ c ∈ source, Text.isBlank c = false) :
    shown source = source := by
  rw [shown, Text.trimEnd_of_no_blank h, Text.spaced_of_no_blank h]

/-- The source with its marks, or a blank line in its place. -/
def sourceLines (d : Diagnostic) (mark : Span) (source : Text) : List String :=
  if showsSource mark source then
    [" 1 │ " ++ String.ofList (shown source),
     "   │ " ++ String.ofList (underline mark),
     "   │ " ++ String.ofList (pointer mark) ++ " " ++ d.kind.message]
  else ["   │ "]

/-- The note with the help. -/
def noteLines (d : Diagnostic) : List String :=
  match d.help with
  | some help => ["   │ ", "   │ Note: help: " ++ help]
  | none => []

/-- The frame around the source. -/
def frame (d : Diagnostic) (file : String) (mark : Span) (source : Text) : List String :=
  ["   ╭─[" ++ file ++ ":1:" ++ toString (column mark) ++ "]", "   │"] ++
    d.sourceLines mark source ++ d.noteLines ++ ["───╯"]

/-- The lines of the diagnostic. `file` names the place that the source is from. -/
def lines (d : Diagnostic) (file : String) (source : Text) : List String :=
  let mark := clamp d.span source
  ("Error: " ++ d.kind.message) :: if isDrawn mark source then d.frame file mark source else []

/-- The diagnostic as it is printed. -/
def render (d : Diagnostic) (file : String) (source : Text) : String :=
  Text.unlines (d.lines file source)

end Diagnostic

end Abacus
