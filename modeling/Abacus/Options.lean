-- Options: what the words of a command line ask for. Words are read from left
-- to right, and the first mistake is reported. One mistake is found late: a
-- value is checked only when the next option or file is recognised, or at the
-- end, so a word that is not recognised is reported before a wrong value
-- that stands in front of it.
import Abacus.Arithmetic
import Abacus.Decimal

namespace Abacus

/-! ## What can be asked for -/

/-- The settings of one run of the program. -/
structure Options where
  /-- The script to run. -/
  file : Option String := none
  /-- Start a conversation, also after a script. -/
  interactive : Bool := false
  /-- Log the evaluation. -/
  verbose : Bool := false
  limits : Limits := {}
  deriving DecidableEq, Repr

/-- Why the words of a command line give no options. -/
inductive UsageError where
  /-- Help was asked for. -/
  | helpWanted
  /-- A word is no option, or one file too many. -/
  | unknownWord
  /-- An option is given twice. -/
  | repeatedOption
  /-- An option has no value. -/
  | missingValue
  /-- The value of an option is not a number in its range. -/
  | wrongValue
  /-- An option that takes no value has one. -/
  | needlessValue
  deriving DecidableEq, Repr

namespace UsageError

/-- What is said about the mistake. The wording is this library's own: what is fixed is the kind
of the mistake and the exit status. -/
def message : UsageError → String
  | helpWanted => "help was asked for"
  | unknownWord => "unexpected argument found"
  | repeatedOption => "an option was used more than once"
  | missingValue => "a value is required for an option but none was supplied"
  | wrongValue => "invalid value for an option"
  | needlessValue => "unexpected value for an option found; no more were expected"

end UsageError

/-- The options that are on or off. -/
inductive Switch where
  | help
  | interactive
  | verbose
  deriving DecidableEq, Repr

/-- The options that take a value. -/
inductive Setting where
  | maxExponent
  | maxResultBits
  deriving DecidableEq, Repr

/-- The switch that a letter stands for. -/
def Switch.ofLetter? : Char → Option Switch
  | 'h' => some .help
  | 'i' => some .interactive
  | 'v' => some .verbose
  | _ => none

/-- The switch or setting of a name. Names are not abbreviated. -/
def optionOfName? (name : String) : Option (Switch ⊕ Setting) :=
  if name = "help" then some (.inl .help)
  else if name = "interactive" then some (.inl .interactive)
  else if name = "verbose" then some (.inl .verbose)
  else if name = "max-exponent" then some (.inr .maxExponent)
  else if name = "max-result-bits" then some (.inr .maxResultBits)
  else none

/-! ## Values -/

/-- The exponent that a text denotes. Its sign may be a minus when it is zero. -/
def exponent? (text : String) : Option UInt32 :=
  match Decimal.read? text.toList with
  | some n => if 0 ≤ n ∧ n < UInt32.size then some (UInt32.ofNat n.toNat) else none
  | none => none

/-- The number of bits that a text denotes. Its sign can only be a plus. -/
def bits? (text : String) : Option UInt64 :=
  if text.toList.head? = some '-' then none
  else
    match Decimal.read? text.toList with
    | some n => if 0 ≤ n ∧ n < UInt64.size then some (UInt64.ofNat n.toNat) else none
    | none => none

/-! ## Reading the words -/

/-- The command line after some of its words. -/
structure CommandLine where
  file : Option String := none
  interactive : Bool := false
  verbose : Bool := false
  maxExponent : Option UInt32 := none
  maxResultBits : Option UInt64 := none
  /-- A setting that is not checked yet, and its value once that is read. -/
  unchecked : Option (Setting × Option String) := none
  /-- After `--` all words are files. -/
  filesOnly : Bool := false
  deriving DecidableEq, Repr

namespace CommandLine

/-- Stores the value of a setting. -/
def store (c : CommandLine) (setting : Setting) (value : String) :
    Except UsageError CommandLine :=
  match setting with
  | .maxExponent =>
    if c.maxExponent.isSome then .error .repeatedOption
    else
      match exponent? value with
      | some n => .ok { c with maxExponent := some n }
      | none => .error .wrongValue
  | .maxResultBits =>
    if c.maxResultBits.isSome then .error .repeatedOption
    else
      match bits? value with
      | some n => .ok { c with maxResultBits := some n }
      | none => .error .wrongValue

/-- Checks the setting that is not checked yet. -/
def settle (c : CommandLine) : Except UsageError CommandLine :=
  match c.unchecked with
  | none => .ok c
  | some (_, none) => .error .missingValue
  | some (setting, some value) => { c with unchecked := none }.store setting value

/-- Turns a switch on. -/
def turnOn (c : CommandLine) (switch : Switch) : Except UsageError CommandLine := do
  let c ← c.settle
  match switch with
  | .help => .error .helpWanted
  | .interactive =>
    if c.interactive then .error .repeatedOption else .ok { c with interactive := true }
  | .verbose =>
    if c.verbose then .error .repeatedOption else .ok { c with verbose := true }

/-- Reads one letter behind a dash. -/
def readLetter (c : CommandLine) (letter : Char) : Except UsageError CommandLine :=
  match Switch.ofLetter? letter with
  | some switch => c.turnOn switch
  | none => .error .unknownWord

/-- Reads an option by its name, with the value behind its equals sign if it has one. -/
def readName (c : CommandLine) (name : String) (value : Option String) :
    Except UsageError CommandLine :=
  match optionOfName? name, value with
  | none, _ => .error .unknownWord
  | some (.inl _), some _ => .error .needlessValue
  | some (.inl switch), none => c.turnOn switch
  | some (.inr setting), some value => do
    let c ← c.settle
    c.store setting value
  | some (.inr setting), none => do
    let c ← c.settle
    .ok { c with unchecked := some (setting, none) }

/-- Reads the name of a file. -/
def readFile (c : CommandLine) (word : String) : Except UsageError CommandLine :=
  if c.file.isSome then .error .unknownWord
  else do
    let c ← c.settle
    .ok { c with file := some word }

/-- Reads a word that is no option: the value that a setting waits for, or a file. -/
def readPlain (c : CommandLine) (word : String) : Except UsageError CommandLine :=
  match c.unchecked with
  | some (setting, none) => .ok { c with unchecked := some (setting, some word) }
  | _ => c.readFile word

/-- Reads one word. -/
def step (c : CommandLine) (word : String) : Except UsageError CommandLine :=
  if c.filesOnly then c.readFile word
  else
    match word.toList with
    | ['-', '-'] => .ok { c with filesOnly := true }
    | '-' :: '-' :: rest =>
      let name := String.ofList (rest.takeWhile (· ≠ '='))
      match rest.dropWhile (· ≠ '=') with
      | [] => c.readName name none
      | _ :: value => c.readName name (some (String.ofList value))
    | '-' :: letter :: letters => (letter :: letters).foldlM readLetter c
    | _ => c.readPlain word

/-- The options, once every word is read. What is not given has its default. -/
def finish (c : CommandLine) : Except UsageError Options := do
  let c ← c.settle
  let defaults : Limits := {}
  .ok {
    file := c.file
    interactive := c.interactive
    verbose := c.verbose
    limits := {
      maxExponent := c.maxExponent.getD defaults.maxExponent
      maxResultBits := c.maxResultBits.getD defaults.maxResultBits } }

end CommandLine

namespace Options

/-- The options that the words ask for. -/
def ofWords (words : List String) : Except UsageError Options := do
  let c ← words.foldlM CommandLine.step {}
  c.finish

/-- What the help switch prints. -/
def helpText : String :=
  "An arbitrary-precision integer calculator with variables\n\n" ++
  "Usage: smartcalc [OPTIONS] [FILE]\n\n" ++
  "Arguments:\n" ++
  "  [FILE]  A file of calculator lines to evaluate\n\n" ++
  "Options:\n" ++
  "  -i, --interactive             Start in interactive REPL mode\n" ++
  "      --max-exponent <N>        Largest exponent accepted by `^` [default: 1000000]\n" ++
  "      --max-result-bits <BITS>  " ++
    "Largest result, in bits, that `^` may produce [default: 16000000]\n" ++
  "  -v, --verbose                 Log evaluation details to stderr\n" ++
  "  -h, --help                    Print help\n"

end Options

end Abacus
