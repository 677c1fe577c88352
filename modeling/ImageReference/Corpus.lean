import ImageReference.FileTree
import ImageReference.Reference
import ImageReference.Text.CharClass
import ImageReference.Text.Span

/-!
# Corpora

A row records what parsing a text should give: the parts of the reference, or
the description of why it was rejected. It is written as eight cells with tabs
between them; an absent cell is written empty. A cell is written without tabs
and line breaks: these and the backslash have escapes of two characters. Reading
is lenient and leaves a backslash alone that starts no escape.

A corpus is a UTF-8 file whose first line is the header; every other line that
is not empty is a row. To check it, every row is compared with the row of its
input as it is parsed now. The report lists the rows that differ, in order, with
the columns in which they do.
-/

namespace ImageReference

def escapeChar (c : Char) : Text :=
  if c = '\\' then ['\\', '\\']
  else if c = '\t' then ['\\', 't']
  else if c = '\n' then ['\\', 'n']
  else if c = '\r' then ['\\', 'r']
  else [c]

def escape (text : Text) : Text := text.flatMap escapeChar

def unescapePair (c : Char) : Text :=
  if c = '\\' then ['\\']
  else if c = 't' then ['\t']
  else if c = 'n' then ['\n']
  else if c = 'r' then ['\r']
  else ['\\', c]

/-- The flag says that a backslash stands in front. -/
def unescapeFrom : Bool → Text → Text
  | false, [] => []
  | true, [] => ['\\']
  | true, c :: rest => unescapePair c ++ unescapeFrom false rest
  | false, c :: rest =>
      if c = '\\' then unescapeFrom true rest else c :: unescapeFrom false rest

def unescape (text : Text) : Text := unescapeFrom false text

structure Row where
  input : Text
  name : Option Text := none
  domain : Option Text := none
  path : Option Text := none
  tag : Option Text := none
  digestAlgorithm : Option Text := none
  digestEncoded : Option Text := none
  error : Option Text := none
deriving DecidableEq

namespace Row

def columns : List Text :=
  ["input".toList, "name".toList, "domain".toList, "path".toList, "tag".toList,
    "digest_algo".toList, "digest_encoded".toList, "err".toList]

def header : Text := joinWith '\t' columns

def cells (row : Row) : List (Option Text) :=
  [some row.input, row.name, row.domain, row.path, row.tag, row.digestAlgorithm,
    row.digestEncoded, row.error]

def ofReference (r : Reference) : Row where
  input := r.source
  name := some r.name
  domain := r.domain
  path := some r.path
  tag := r.tag
  digestAlgorithm := r.digestAlgorithm
  digestEncoded := r.digestEncoded

def ofOutcome (source : Text) : Except Rejection Reference → Row
  | .ok reference => ofReference reference
  | .error rejection => { input := source, error := some rejection.description }

def ofText (source : Text) (canonical : Bool := false) (limits : Limits := {}) : Row :=
  ofOutcome source (Reference.parseWith canonical source limits)

def writeCells (cells : List (Option Text)) : Text :=
  joinWith '\t' (cells.map fun cell => escape (cell.getD []))

def write (row : Row) : Text := writeCells row.cells

def readCell (cell : Text) : Option Text :=
  if cell.isEmpty then none else some (unescape cell)

def read (line : Text) : Except Nat Row :=
  match splitWhere (· == '\t') line with
  | [input, name, domain, path, tag, digestAlgorithm, digestEncoded, error] =>
      .ok { input := unescape input
            name := readCell name
            domain := readCell domain
            path := readCell path
            tag := readCell tag
            digestAlgorithm := readCell digestAlgorithm
            digestEncoded := readCell digestEncoded
            error := readCell error }
  | pieces => .error pieces.length

structure Difference where
  column : Text
  actual : Option Text
  expected : Option Text
deriving DecidableEq

def Difference.describe (d : Difference) : Text :=
  d.column ++ [' '] ++ Quoted.writeOption d.actual ++ " != ".toList ++
    Quoted.writeOption d.expected

def compareCells (actual expected : List (Option Text)) : List Difference :=
  ((columns.zip (actual.zip expected)).map fun (column, got, want) => ⟨column, got, want⟩).filter
    fun d => d.actual != d.expected

def compare (actual expected : Row) : List Difference := compareCells actual.cells expected.cells

end Row

inductive CorpusError
  | missing (path : FilePath)
  | header (path : FilePath)
  | columns (count : Nat) (line : Text)
deriving DecidableEq

def CorpusError.message : CorpusError → Text
  | .missing path => "missing fixture file: ".toList ++ path.toText
  | .header path =>
      path.toText ++ ": first line must be the header ".toList ++ Quoted.write Row.header
  | .columns count line =>
      "expected ".toList ++ Decimal.ofNat Row.columns.length ++ " columns, got ".toList ++
        Decimal.ofNat count ++ ": ".toList ++ Quoted.write line

inductive NoText
  | directory
  | notUtf8
deriving DecidableEq

inductive LoadError
  | corpus (error : CorpusError)
  | noText (reason : NoText)
deriving DecidableEq

namespace Corpus

def readRow (line : Text) : Except CorpusError Row :=
  (Row.read line).mapError fun count => .columns count line

def ofText (path : FilePath) (text : Text) : Except CorpusError (List Row) :=
  match lines (unifyNewlines text) with
  | first :: rest =>
      if first = Row.header then (rest.filter fun line => !line.isEmpty).mapM readRow
      else .error (.header path)
  | [] => .error (.header path)

def toText (rows : List Row) : Text :=
  (Row.header :: rows.map Row.write).flatMap fun line => line ++ ['\n']

def load (files : Files) (path : FilePath) : Except LoadError (List Row) :=
  match files path with
  | none => .error (.corpus (.missing path))
  | some .directory => .error (.noText .directory)
  | some (.file content) =>
      match ofUtf8? content with
      | none => .error (.noText .notUtf8)
      | some text => (ofText path text).mapError .corpus

end Corpus

structure Mismatch where
  row : Row
  differences : List Row.Difference
deriving DecidableEq

def Mismatch.describe (m : Mismatch) : Text :=
  "Input: ".toList ++ Quoted.write m.row.input ++ ['\n'] ++
    m.differences.flatMap fun d => "  ".toList ++ d.describe ++ ['\n']

structure Report where
  total : Nat
  mismatches : List Mismatch
deriving DecidableEq

namespace Report

def ofRow (canonical : Bool) (limits : Limits) (row : Row) : Option Mismatch :=
  let differences := Row.compare (.ofText row.input canonical limits) row
  if differences.isEmpty then none else some ⟨row, differences⟩

def ofRows (canonical : Bool) (limits : Limits) (rows : List Row) : Report :=
  ⟨rows.length, rows.filterMap (ofRow canonical limits)⟩

def describeMismatches (report : Report) : Text := report.mismatches.flatMap Mismatch.describe

def describeTotal (report : Report) : Text :=
  "Checked ".toList ++ Decimal.ofNat report.total ++ " references, ".toList ++
    Decimal.ofNat report.mismatches.length ++ " mismatched\n".toList

def describe (report : Report) : Text := report.describeMismatches ++ report.describeTotal

end Report

end ImageReference
