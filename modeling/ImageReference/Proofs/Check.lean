import ImageReference.Proofs.Corpus

/-!
# Checking against parsing

A check compares the cells of rows, and parsing prints lines. No row that is
loaded and no row of a text has a cell that is present and empty, and such rows
differ exactly if their lines do. So a check counts the rows that parsing their
input does not print, and reports the columns in which these differ.
-/

namespace ImageReference

namespace Row

variable {actual expected : Row} {d : Difference}

theorem compare_eq_nil_iff : compare actual expected = [] ↔ actual = expected := by
  obtain ⟨input, name, domain, path, tag, digestAlgorithm, digestEncoded, error⟩ := actual
  obtain ⟨input', name', domain', path', tag', digestAlgorithm', digestEncoded', error'⟩ := expected
  simp [compare, compareCells, columns, cells, List.filter_eq_nil_iff]

/-- The line for a column, or nothing where both rows have the same cell. -/
def columnLine (column : Text) (actual expected : Option Text) : Text :=
  if actual = expected then []
  else "  ".toList ++ column ++ " ".toList ++ Quoted.writeOption actual ++ " != ".toList ++
    Quoted.writeOption expected ++ ['\n']

/-- The lines for a row, given the row that its input is parsed to. -/
def lines (actual expected : Row) : Text :=
  "Input: ".toList ++ Quoted.write expected.input ++ ['\n'] ++
    columnLine "input".toList (some actual.input) (some expected.input) ++
    columnLine "name".toList actual.name expected.name ++
    columnLine "domain".toList actual.domain expected.domain ++
    columnLine "path".toList actual.path expected.path ++
    columnLine "tag".toList actual.tag expected.tag ++
    columnLine "digest_algo".toList actual.digestAlgorithm expected.digestAlgorithm ++
    columnLine "digest_encoded".toList actual.digestEncoded expected.digestEncoded ++
    columnLine "err".toList actual.error expected.error

theorem flatMap_filter {α β : Type} (p : α → Bool) (f : α → List β) (items : List α) :
    (items.filter p).flatMap f = items.flatMap fun item => if p item then f item else [] := by
  induction items with
  | nil => rfl
  | cons item items ih =>
    rw [List.filter_cons, List.flatMap_cons, ← ih]
    cases p item <;> rfl

theorem columnLine_eq (d : Difference) :
    (if d.actual != d.expected then "  ".toList ++ d.describe ++ ['\n'] else []) =
      columnLine d.column d.actual d.expected := by
  rw [columnLine]
  by_cases hsame : d.actual = d.expected
  · rw [if_pos hsame, if_neg (by simpa using hsame)]
  · rw [if_neg hsame, if_pos (by simpa using hsame)]
    unfold Difference.describe
    simp only [List.append_assoc]
    rfl

theorem lines_eq (actual expected : Row) :
    Mismatch.describe ⟨expected, compare actual expected⟩ = lines actual expected := by
  unfold Mismatch.describe lines
  simp only [compare, compareCells, flatMap_filter, columnLine_eq, columns, cells,
    List.zip_cons_cons, List.zip_nil_left, List.map_cons, List.map_nil, List.flatMap_cons,
    List.flatMap_nil, List.append_nil]
  simp only [List.append_assoc]

end Row

namespace Corpus

variable {path : FilePath} {rows : List Row} {text : Text}

theorem writable_of_ofText (h : ofText path text = .ok rows) : ∀ row ∈ rows, row.Writable := by
  rw [ofText] at h
  split at h
  · split at h
    · intro row hrow
      obtain ⟨line, -, hread⟩ := exists_of_mapM_eq_ok h row hrow
      exact Row.writable_of_read (readRow_eq_ok_iff.mp hread)
    · cases h
  · cases h

theorem writable_of_load {files : Files} (h : load files path = .ok rows) :
    ∀ row ∈ rows, row.Writable := by
  rw [load] at h
  split at h
  · cases h
  · cases h
  · split at h
    · cases h
    · next text _ =>
      cases hrows : ofText path text with
      | error e =>
        rw [hrows] at h
        cases h
      | ok loaded =>
        rw [hrows] at h
        cases h
        exact writable_of_ofText hrows

end Corpus

namespace Report

variable {canonical : Bool} {limits : Limits} {rows : List Row} {row : Row}

def strays (canonical : Bool) (limits : Limits) (rows : List Row) : List Row :=
  rows.filter fun row => Row.ofText row.input canonical limits != row

theorem ofRow_eq : ofRow canonical limits row =
    if Row.ofText row.input canonical limits = row then none
    else some ⟨row, Row.compare (.ofText row.input canonical limits) row⟩ := by
  rw [ofRow]
  simp only [List.isEmpty_iff, Row.compare_eq_nil_iff]

theorem mismatches_eq : (ofRows canonical limits rows).mismatches =
    (strays canonical limits rows).map fun row =>
      ⟨row, Row.compare (.ofText row.input canonical limits) row⟩ := by
  change rows.filterMap (ofRow canonical limits) = (strays canonical limits rows).map _
  rw [strays]
  induction rows with
  | nil => rfl
  | cons row rows ih =>
    rw [List.filterMap_cons, List.filter_cons, ih, ofRow_eq]
    by_cases hrow : Row.ofText row.input canonical limits = row
    · rw [if_pos hrow, if_neg (by simpa using hrow)]
    · rw [if_neg hrow, if_pos (by simpa using hrow), List.map_cons]

end Report

namespace CommandLine

variable {canonical : Bool} {length : Int} {invocation : Invocation} {row : Row} {rows : List Row}

def Ending.output : Ending → Text
  | .exit _ output => output
  | .broken output _ => output

theorem runCommand_parse (source : Text) :
    (runCommand canonical (.atMost length) invocation (.parse (some source))).output =
      (Row.ofText source canonical { maxNameLength := length }).write ++ ['\n'] := rfl

theorem output_parse_iff (h : row.Writable) :
    (runCommand canonical (.atMost length) invocation (.parse (some row.input))).output =
        row.write ++ ['\n'] ↔
      Row.ofText row.input canonical { maxNameLength := length } = row := by
  rw [runCommand_parse, List.append_left_inj]
  exact Row.write_inj (Row.ofText_writable _ _ _) h

/-- The rows for which parsing the input prints another line than the row is written as. -/
def misprinted (canonical : Bool) (length : Int) (invocation : Invocation) (rows : List Row) :
    List Row :=
  rows.filter fun row =>
    (runCommand canonical (.atMost length) invocation (.parse (some row.input))).output !=
      row.write ++ ['\n']

theorem misprinted_eq (h : ∀ row ∈ rows, row.Writable) :
    misprinted canonical length invocation rows =
      Report.strays canonical { maxNameLength := length } rows := by
  refine List.filter_congr fun row hrow => ?_
  rw [Bool.eq_iff_iff, bne_iff_ne, bne_iff_ne, Ne, output_parse_iff (h row hrow)]

theorem checkRows_eq (canonical : Bool) (limits : Limits) (rows : List Row) :
    checkRows canonical limits rows =
      .exit (if (Report.strays canonical limits rows).length = 0 then 0 else 1)
        ((Report.strays canonical limits rows).flatMap
            (fun row => Row.lines (.ofText row.input canonical limits) row) ++
          "Checked ".toList ++ Nat.toDigits 10 rows.length ++ " references, ".toList ++
          Nat.toDigits 10 (Report.strays canonical limits rows).length ++
          " mismatched\n".toList) := by
  have hmismatches : (Report.ofRows canonical limits rows).mismatches =
      (Report.strays canonical limits rows).map fun row =>
        ⟨row, Row.compare (.ofText row.input canonical limits) row⟩ := Report.mismatches_eq
  have hempty : ((Report.strays canonical limits rows).map fun row =>
        (⟨row, Row.compare (.ofText row.input canonical limits) row⟩ : Mismatch)).isEmpty = true ↔
      (Report.strays canonical limits rows).length = 0 := by
    rw [List.isEmpty_iff, List.map_eq_nil_iff, List.length_eq_zero_iff]
  unfold checkRows Report.describe Report.describeMismatches Report.describeTotal
  dsimp only
  rw [hmismatches, List.flatMap_map, List.length_map, if_congr hempty rfl rfl]
  simp only [Row.lines_eq, List.append_assoc]
  rfl

theorem runCheck_eq {check : List Row → Ending} {files : Files} {fixture : Text}
    (h : Corpus.load files (.ofText fixture) = .ok rows) :
    runCheck check files fixture = check rows := by
  rw [runCheck, h]

/-- A check prints the lines of the rows that parsing their input prints another line for, in order:
the input, and one line for each column in which the row differs from the row of its input. The last
line has the number of all rows and of those, and the code is 0 exactly if there are none. -/
theorem check_reports (invocation : Invocation) (fixture : Text) (canonical : Bool) (length : Int)
    (rows : List Row) (hload : Corpus.load invocation.files (.ofText fixture) = .ok rows) :
    let wrong := misprinted canonical length invocation rows
    runCommand canonical (.atMost length) invocation (.check fixture) =
      .exit (if wrong.length = 0 then 0 else 1)
        (wrong.flatMap (fun row =>
            Row.lines (.ofText row.input canonical { maxNameLength := length }) row) ++
          "Checked ".toList ++ Nat.toDigits 10 rows.length ++ " references, ".toList ++
          Nat.toDigits 10 wrong.length ++ " mismatched\n".toList) := by
  intro wrong
  have hwrong : wrong = Report.strays canonical { maxNameLength := length } rows :=
    misprinted_eq (Corpus.writable_of_load hload)
  rw [runCommand, runCheck_eq hload, checkRows_eq, ← hwrong]

theorem check_reports_sentence :
    let right := Row.ofText "a:b".toList
    let renamed : Row := { Row.ofText "a:b".toList with name := some "it's".toList, tag := none }
    let wrong : Row := { input := "A\t".toList, error := some "upper case".toList }
    let invocation : Invocation :=
      { arguments := []
        files := fun _ => some (.file (toUtf8 (Corpus.toText [right, renamed, wrong]))) }
    Corpus.load invocation.files (.ofText "corpus".toList) = .ok [right, renamed, wrong] ∧
      runCommand false (.atMost 255) invocation (.check "corpus".toList) =
        .exit 1 ("Input: 'a:b'\n" ++
          "  name 'a' != \"it's\"\n" ++
          "  tag 'b' != None\n" ++
          "Input: 'A\\t'\n" ++
          "  err 'repository name must be lowercase' != 'upper case'\n" ++
          "Checked 3 references, 2 mismatched\n").toList := by
  intro right renamed wrong invocation
  have hwritten : Corpus.WrittenAt invocation.files (.ofText "corpus".toList)
      [right, renamed, wrong] := rfl
  have hload : Corpus.load invocation.files (.ofText "corpus".toList) =
      .ok [right, renamed, wrong] := by
    rw [hwritten.load_eq]
    rfl
  refine ⟨hload, ?_⟩
  rw [check_reports invocation "corpus".toList false 255 [right, renamed, wrong] hload]
  decide +kernel

end CommandLine

end ImageReference
