import ImageReference.CommandLine.Arguments
import ImageReference.Corpus

/-!
# Running the program

One command parses a reference and prints its row; the other checks a corpus
and prints a report. The longest accepted name comes from the command line,
else from the environment.
-/

namespace ImageReference.CommandLine

def Topic.lines : Topic → List String
  | .program =>
      ["usage: image-reference [-h] [--max-name-length MAX_NAME_LENGTH] [--canonical]",
        "                       \x7bparse,check\x7d ...",
        "",
        "positional arguments:",
        "  \x7bparse,check\x7d",
        "",
        "options:",
        "  -h, --help            show this help message and exit",
        "  --max-name-length MAX_NAME_LENGTH",
        "                        Longest accepted name, will use",
        "                        REFERENCE_MAX_NAME_LENGTH from environment or 255 if",
        "                        not supplied",
        "  --canonical           Require both a domain and a digest"]
  | .parse =>
      ["usage: image-reference parse [-h] [reference]",
        "",
        "positional arguments:",
        "  reference   [domain/]path[:tag][@digest], read from stdin if not supplied",
        "",
        "options:",
        "  -h, --help  show this help message and exit"]
  | .check =>
      ["usage: image-reference check [-h] fixture",
        "",
        "positional arguments:",
        "  fixture     tab separated golden file",
        "",
        "options:",
        "  -h, --help  show this help message and exit"]

def Topic.text (topic : Topic) : Text :=
  topic.lines.flatMap fun line => line.toList ++ ['\n']

structure Invocation where
  arguments : List Text
  maxNameLength : Option Text := none
  input : Text := []
  files : Files := fun _ => none

/-- Why a run breaks off: the corpus is no text, or a name has to be compared with a limit that has
no value. -/
inductive Breakdown
  | noText (reason : NoText)
  | noLimit
deriving DecidableEq

/-- What a run prints, and the code that it ends with or the reason why it breaks off. -/
inductive Ending
  | exit (code : Nat) (output : Text)
  | broken (output : Text) (reason : Breakdown)
deriving DecidableEq

def limitVariable : Text := "REFERENCE_MAX_NAME_LENGTH".toList

def nameLimit (settings : Settings) (invocation : Invocation) : Except Text NameLimit :=
  match settings.maxNameLength, invocation.maxNameLength with
  | some limit, _ => .ok limit
  | none, none => .ok (.atMost ({} : Limits).maxNameLength)
  | none, some value =>
      match Decimal.toInt? value with
      | some limit => .ok (.atMost limit)
      | none => .error value

def firstLine (input : Text) : Text := input.takeWhile fun c => c != '\n' && c != '\r'

def runParse (canonical : Bool) (limits : Limits) (source : Text) : Ending :=
  let outcome := Reference.parseWith canonical source limits
  let code := match outcome with | .ok _ => 0 | .error _ => 1
  .exit code ((Row.ofOutcome source outcome).write ++ ['\n'])

def checkRows (canonical : Bool) (limits : Limits) (rows : List Row) : Ending :=
  let report := Report.ofRows canonical limits rows
  .exit (if report.mismatches.isEmpty then 0 else 1) report.describe

def rejectedUnmeasured (source : Text) : Bool := !(Reference.leadingName source).isOk

def runParseUnlimited (canonical : Bool) (source : Text) : Ending :=
  if rejectedUnmeasured source then runParse canonical {} source else .broken [] .noLimit

/-- Checks where the limit has no value. The first row whose name has to be measured ends the run,
and what was found before it has been printed. -/
def checkRowsUnlimited (canonical : Bool) (rows : List Row) : Ending :=
  let before := rows.takeWhile fun row => rejectedUnmeasured row.input
  if before.length = rows.length then checkRows canonical {} rows
  else .broken (Report.ofRows canonical {} before).describeMismatches .noLimit

def runCheck (check : List Row → Ending) (files : Files) (fixture : Text) : Ending :=
  match Corpus.load files (.ofText fixture) with
  | .error (.corpus error) => .exit 2 (error.message ++ ['\n'])
  | .error (.noText reason) => .broken [] (.noText reason)
  | .ok rows => check rows

def runCommand (canonical : Bool) (limit : NameLimit) (invocation : Invocation) : Command → Ending
  | .parse reference =>
      let source := reference.getD (firstLine invocation.input)
      match limit with
      | .atMost length => runParse canonical { maxNameLength := length } source
      | .withoutValue => runParseUnlimited canonical source
  | .check fixture =>
      let check := match limit with
        | .atMost length => checkRows canonical { maxNameLength := length }
        | .withoutValue => checkRowsUnlimited canonical
      runCheck check invocation.files fixture

def runSettings (settings : Settings) (invocation : Invocation) : Ending :=
  match nameLimit settings invocation with
  | .error value =>
      .exit 2 (limitVariable ++ " must be an integer, got ".toList ++ Quoted.write value ++ ['\n'])
  | .ok limit =>
      match settings.command with
      | none => .exit 2 Topic.program.text
      | some command => runCommand settings.canonical limit invocation command

def run (invocation : Invocation) : Ending :=
  match readArguments invocation.arguments with
  | .misuse => .exit 2 []
  | .help topic => .exit 0 topic.text
  | .run settings => runSettings settings invocation

end ImageReference.CommandLine
