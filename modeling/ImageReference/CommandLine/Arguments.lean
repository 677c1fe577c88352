import ImageReference.Text.Decimal

/-!
# Arguments

A word is an option, an operand, or neither. Long options may be shortened as
long as only one of them begins that way, and may carry a value behind an
equals sign. Negative numbers, words with a space and a lone hyphen are
operands although they start with a hyphen.

Options come first, then the command and its operand. Reading goes from left to
right and ends at the first request for help or the first misuse; words that
belong nowhere are a misuse only once everything has been read.
-/

namespace ImageReference.CommandLine

inductive Flag
  | help
  | maxNameLength
  | canonical
deriving DecidableEq

def programFlags : List (Text × Flag) :=
  [("--help".toList, .help), ("--max-name-length".toList, .maxNameLength),
    ("--canonical".toList, .canonical)]

def commandFlags : List (Text × Flag) := [("--help".toList, .help)]

inductive Word
  | operand
  | option (flag : Flag) (value : Option Text)
  | shortHelp (rest : Text)
  | ambiguous
  | unknown
deriving DecidableEq

/-- The word that makes operands of all words behind it. -/
def terminator : Text := ['-', '-']

def isDigit (c : Char) : Bool := (Decimal.digitValue? c).isSome

def isUnsigned (text : Text) : Bool :=
  match text.dropWhile isDigit with
  | [] => !text.isEmpty
  | '.' :: rest => !rest.isEmpty && rest.all isDigit
  | _ => false

def isNegativeNumber : Text → Bool
  | '-' :: rest => isUnsigned (if rest.getLast? = some '\n' then rest.dropLast else rest)
  | _ => false

def unnamed (word : Text) : Word :=
  if isNegativeNumber word || word.contains ' ' then .operand else .unknown

def valueOf (word : Text) : Option Text :=
  match word.dropWhile (· != '=') with
  | [] => none
  | _ :: value => some value

def Word.ofLong (flags : List (Text × Flag)) (word : Text) : Word :=
  let name := word.takeWhile (· != '=')
  match flags.filter fun entry => name.isPrefixOf entry.1 with
  | [] => unnamed word
  | [(_, flag)] => .option flag (valueOf word)
  | _ => .ambiguous

def Word.ofText (flags : List (Text × Flag)) : Text → Word
  | ['-'] => .operand
  | '-' :: '-' :: rest => ofLong flags ('-' :: '-' :: rest)
  | '-' :: 'h' :: rest => .shortHelp rest
  | '-' :: rest => unnamed ('-' :: rest)
  | _ => .operand

/-- Whether what follows `-h` in the same word leaves it a request for help. Letters there are short
options of their own, and there is no other one; an equals sign in front of them is passed over. -/
def asksForHelp : Text → Bool
  | '=' :: letters => !letters.isEmpty && letters.all (· == 'h')
  | letters => letters.all (· == 'h')

inductive Command
  | parse (reference : Option Text)
  | check (fixture : Text)
deriving DecidableEq

/-- What the option for the longest accepted name sets. The terminator as its value takes the value
away, and then there is a limit, but none that a name can be compared with. -/
inductive NameLimit
  | atMost (length : Int)
  | withoutValue
deriving DecidableEq

def NameLimit.ofText? (text : Text) : Option NameLimit :=
  if text = terminator then some .withoutValue else (Decimal.toInt? text).map .atMost

structure Settings where
  maxNameLength : Option NameLimit := none
  canonical : Bool := false
  command : Option Command := none
deriving DecidableEq

inductive Topic
  | program
  | parse
  | check
deriving DecidableEq

inductive Request
  | run (settings : Settings)
  | help (topic : Topic)
  | misuse
deriving DecidableEq

/-- The words behind a command: the operand, and whether there are more words than it takes. -/
structure Operands where
  first : Option Text := none
  stray : Bool := false
deriving DecidableEq

def Operands.add (operands : Operands) (word : Text) : Operands :=
  match operands.first with
  | none => { operands with first := some word }
  | some _ => { operands with stray := true }

def readOperands (topic : Topic) (operands : Operands) : List Text → Except Request Operands
  | [] => .ok operands
  | word :: rest =>
      if word = terminator then .ok (rest.foldl Operands.add operands)
      else match Word.ofText commandFlags word with
        | .operand => readOperands topic (operands.add word) rest
        | .unknown => readOperands topic { operands with stray := true } rest
        | .option .help none => .error (.help topic)
        | .shortHelp more => .error (if asksForHelp more then .help topic else .misuse)
        | _ => .error .misuse

def readCommand (word : Text) (rest : List Text) : Except Request (Command × Bool) :=
  if word = "parse".toList then do
    let operands ← readOperands .parse {} rest
    return (.parse operands.first, operands.stray)
  else if word = "check".toList then do
    let operands ← readOperands .check {} rest
    match operands.first with
    | some fixture => return (.check fixture, operands.stray)
    | none => .error .misuse
  else .error .misuse

/-- Reads the options and the command. The flag remembers words that belong nowhere. -/
def readFrom (settings : Settings) (stray : Bool) : List Text → Request
  | [] => if stray then .misuse else .run settings
  | word :: rest =>
      if word = terminator then .misuse
      else match Word.ofText programFlags word with
        | .operand =>
            match readCommand word rest with
            | .error request => request
            | .ok (command, more) =>
                if stray || more then .misuse else .run { settings with command := some command }
        | .unknown => readFrom settings true rest
        | .option .help none => .help .program
        | .shortHelp more => if asksForHelp more then .help .program else .misuse
        | .option .canonical none => readFrom { settings with canonical := true } stray rest
        | .option .maxNameLength (some value) =>
            match NameLimit.ofText? value with
            | some limit => readFrom { settings with maxNameLength := some limit } stray rest
            | none => .misuse
        | .option .maxNameLength none =>
            match rest with
            | [] => .misuse
            | value :: rest =>
                if value = terminator ∨ Word.ofText programFlags value ≠ .operand then .misuse
                else match NameLimit.ofText? value with
                  | some limit => readFrom { settings with maxNameLength := some limit } stray rest
                  | none => .misuse
        | _ => .misuse

/-- Reads all arguments. An ambiguous option counts wherever it stands in front of the
terminator. -/
def readArguments (arguments : List Text) : Request :=
  if (arguments.takeWhile (· != terminator)).any fun word =>
      Word.ofText programFlags word == .ambiguous then .misuse
  else readFrom {} false arguments

end ImageReference.CommandLine
