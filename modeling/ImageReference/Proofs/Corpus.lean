import ImageReference.CommandLine.Run
import ImageReference.Proofs.CharClass
import ImageReference.Proofs.Row

/-!
# Loading what was written

A written corpus has one line for the header and one for each row, and loading
cuts the file at every line boundary. Only the line feed and the carriage return
have escapes: a corpus is loaded back exactly if no cell has another boundary.
-/

namespace ImageReference

variable {path : FilePath} {rows loaded : List Row} {row : Row} {line : Text}

theorem mapM_map_eq_ok {α β ε : Type} {f : β → Except ε α} {g : α → β} {values : List α}
    (h : ∀ value ∈ values, f (g value) = .ok value) : (values.map g).mapM f = .ok values := by
  induction values with
  | nil => rfl
  | cons first more ih =>
    obtain ⟨hfirst, hmore⟩ := List.forall_mem_cons.mp h
    rw [List.map_cons, List.mapM_cons, hfirst, ih hmore]
    rfl

theorem exists_of_mapM_eq_ok {α β ε : Type} {f : β → Except ε α} {items : List β}
    {values : List α} (h : items.mapM f = .ok values) :
    ∀ value ∈ values, ∃ item ∈ items, f item = .ok value := by
  induction items generalizing values with
  | nil =>
    cases h
    simp
  | cons first more ih =>
    rw [List.mapM_cons] at h
    obtain ⟨value, hvalue, h⟩ := bind_eq_ok h
    obtain ⟨rest, hrest, h⟩ := bind_eq_ok h
    cases h
    rw [List.forall_mem_cons]
    refine ⟨⟨first, List.mem_cons_self, hvalue⟩, fun other hother => ?_⟩
    obtain ⟨item, hitem, hread⟩ := ih hrest other hother
    exact ⟨item, List.mem_cons_of_mem _ hitem, hread⟩

namespace Corpus

theorem readRow_eq_ok_iff : readRow line = .ok row ↔ Row.read line = .ok row := by
  rw [readRow]
  cases Row.read line <;> simp [Except.mapError]

theorem unifyNewlines_toText (rows : List Row) : unifyNewlines (toText rows) = toText rows := by
  refine unifyNewlines_eq_self fun h => ?_
  obtain ⟨line, hline, hmem⟩ := List.mem_flatMap.mp h
  have hreturn : '\r' ∈ line := (List.mem_append.mp hmem).resolve_right (by decide)
  rcases List.mem_cons.mp hline with rfl | hline
  · revert hreturn
    decide
  · obtain ⟨row, -, rfl⟩ := List.mem_map.mp hline
    exact Row.break_notMem_write (.inr rfl) hreturn

theorem lines_toText (rows : List Row) :
    lines (toText rows) =
      Row.header :: (rows.map Row.write).flatMap (splitWhere isLineBoundary) := by
  have hheader : splitWhere isLineBoundary Row.header = [Row.header] := rfl
  rw [toText, lines_terminated, List.flatMap_cons, hheader, List.singleton_append]

theorem ofText_toText (path : FilePath) (rows : List Row) :
    ofText path (toText rows) =
      (((rows.map Row.write).flatMap (splitWhere isLineBoundary)).filter
        fun line => !line.isEmpty).mapM readRow := by
  rw [ofText, unifyNewlines_toText, lines_toText]
  exact if_pos rfl

theorem splitWhere_written (h : ∀ row ∈ rows, row.SingleLine) :
    (rows.map Row.write).flatMap (splitWhere isLineBoundary) = rows.map Row.write := by
  induction rows with
  | nil => rfl
  | cons first more ih =>
    obtain ⟨hfirst, hmore⟩ := List.forall_mem_cons.mp h
    rw [List.map_cons, List.flatMap_cons, splitWhere_clear hfirst.write_clear, ih hmore]
    rfl

theorem filter_written (rows : List Row) :
    ((rows.map Row.write).filter fun line => !line.isEmpty) = rows.map Row.write := by
  refine List.filter_eq_self.mpr fun line hline => ?_
  obtain ⟨row, -, rfl⟩ := List.mem_map.mp hline
  simp [row.write_ne_nil]

theorem singleLine_of_ofText (h : ofText path (toText rows) = .ok loaded) :
    ∀ row ∈ loaded, row.SingleLine := by
  intro row hrow
  rw [ofText_toText] at h
  obtain ⟨line, hline, hread⟩ := exists_of_mapM_eq_ok h row hrow
  obtain ⟨written, -, hpiece⟩ := List.mem_flatMap.mp (List.mem_of_mem_filter hline)
  refine Row.singleLine_of_read (fun c hc => ?_) (readRow_eq_ok_iff.mp hread)
  rw [isBareBoundary, (mem_splitWhere hpiece c hc).2, Bool.false_and]

theorem ofText_toText_iff (path : FilePath) (hrows : ∀ row ∈ rows, row.Writable) :
    ofText path (toText rows) = .ok rows ↔ ∀ row ∈ rows, row.SingleLine := by
  refine ⟨singleLine_of_ofText, fun hsingle => ?_⟩
  rw [ofText_toText, splitWhere_written hsingle, filter_written]
  exact mapM_map_eq_ok fun row hrow => readRow_eq_ok_iff.mpr (Row.read_write (hrows row hrow))

/-- The rows stand at the path, written as UTF-8. -/
def WrittenAt (files : Files) (path : FilePath) (rows : List Row) : Prop :=
  files path = some (.file (toUtf8 (toText rows)))

theorem WrittenAt.load_eq {files : Files} (h : WrittenAt files path rows) :
    load files path = (ofText path (toText rows)).mapError .corpus := by
  rw [load, show files path = _ from h]
  simp only [ofUtf8?_toUtf8]

theorem WrittenAt.load_iff {files : Files} (h : WrittenAt files path rows)
    (hrows : ∀ row ∈ rows, row.Writable) :
    load files path = .ok rows ↔ ∀ row ∈ rows, row.SingleLine := by
  rw [h.load_eq, ← ofText_toText_iff path hrows]
  cases ofText path (toText rows) <;> simp [Except.mapError]

def ofTexts (canonical : Bool) (limits : Limits) (sources : List Text) : List Row :=
  sources.map (Row.ofText · canonical limits)

end Corpus

variable {canonical : Bool} {limits : Limits}

theorem Row.compare_self (row : Row) : row.compare row = [] := by
  simp [Row.compare, compareCells, cells, columns]

theorem Report.ofRow_ofText (source : Text) :
    ofRow canonical limits (.ofText source canonical limits) = none := by
  rw [ofRow, Row.ofText_input, Row.compare_self]
  rfl

theorem Report.ofRows_ofTexts (sources : List Text) :
    ofRows canonical limits (Corpus.ofTexts canonical limits sources) = ⟨sources.length, []⟩ := by
  have hnone : (Corpus.ofTexts canonical limits sources).filterMap (ofRow canonical limits) =
      [] := by
    refine List.filterMap_eq_nil_iff.mpr fun row hrow => ?_
    obtain ⟨source, -, rfl⟩ := List.mem_map.mp hrow
    exact ofRow_ofText source
  rw [ofRows, hnone, Corpus.ofTexts, List.length_map]

theorem CommandLine.checkRows_ofTexts (sources : List Text) :
    checkRows canonical limits (Corpus.ofTexts canonical limits sources) =
      .exit 0 (Report.describe ⟨sources.length, []⟩) := by
  rw [checkRows, Report.ofRows_ofTexts]
  rfl

namespace Corpus

theorem WrittenAt.load_ofTexts_iff {files : Files} {sources : List Text}
    (h : WrittenAt files path (ofTexts canonical limits sources)) :
    load files path = .ok (ofTexts canonical limits sources) ↔
      ∀ source ∈ sources, Unbroken source := by
  have hrows : ∀ row ∈ ofTexts canonical limits sources, row.Writable :=
    List.forall_mem_map.mpr fun source _ => Row.ofText_writable source canonical limits
  rw [h.load_iff hrows, ofTexts]
  simp only [List.forall_mem_map, Row.ofText_singleLine_iff]

/-- A written corpus is loaded back exactly if no cell has a line boundary that has no escape. The
rows of texts are loaded back exactly if no text has one, and a check of them finds no mismatch. -/
theorem load_written (files : Files) :
    (∀ path rows, WrittenAt files path rows → (∀ row ∈ rows, row.Writable) →
      (load files path = .ok rows ↔ ∀ row ∈ rows, row.SingleLine)) ∧
    ∀ fixture canonical limits sources,
      WrittenAt files (.ofText fixture) (ofTexts canonical limits sources) →
        (load files (.ofText fixture) = .ok (ofTexts canonical limits sources) ↔
          ∀ source ∈ sources, Unbroken source) ∧
        ((∀ source ∈ sources, Unbroken source) →
          CommandLine.runCheck (CommandLine.checkRows canonical limits) files fixture =
            .exit 0 (Report.describe ⟨sources.length, []⟩)) := by
  refine ⟨fun path rows h hrows => h.load_iff hrows, fun fixture canonical limits sources h => ?_⟩
  refine ⟨h.load_ofTexts_iff, fun hunbroken => ?_⟩
  rw [CommandLine.runCheck, h.load_ofTexts_iff.mpr hunbroken]
  exact CommandLine.checkRows_ofTexts sources

theorem load_written_escapes :
    let row : Row := { input := "a\tb\n\r\\".toList, tag := some "v1".toList }
    let files (rows : List Row) : Files := fun _ => some (.file (toUtf8 (toText rows)))
    let sources : List Text := ["localhost/a:b".toList, "A\n".toList, []]
    load (files [row]) (.ofText "corpus".toList) = .ok [row] ∧
      CommandLine.runCheck (CommandLine.checkRows true {})
          (files (ofTexts true {} sources)) "corpus".toList =
        .exit 0 "Checked 3 references, 0 mismatched\n".toList := by
  intro row files sources
  have hrow : row.SingleLine := by
    intro text htext
    simp only [row, Row.cells, List.mem_cons, List.not_mem_nil, or_false, reduceCtorEq, false_or,
      Option.some_inj] at htext
    rcases htext with rfl | rfl <;> exact unbroken_iff_all.mpr rfl
  have hsources : ∀ source ∈ sources, Unbroken source := by
    simp only [unbroken_iff_all]
    decide
  refine ⟨((load_written (files [row])).1 _ [row] rfl ?_).mpr (by simpa using hrow), ?_⟩
  · simp [Row.Writable, Row.cells, row]
  · have hreport : Report.describe ⟨sources.length, []⟩ =
        "Checked 3 references, 0 mismatched\n".toList := by decide
    rw [← hreport]
    exact ((load_written (files (ofTexts true {} sources))).2 _ true {} sources rfl).2 hsources

/-- A vertical tab is written as it is, and loading ends the line there. -/
theorem load_vertical_tab :
    let rows := ofTexts false {} ["a\x0bb".toList]
    (∀ row ∈ rows, row.Writable) ∧
      load (fun _ => some (.file (toUtf8 (toText rows)))) (.ofText "corpus".toList) =
        .error (.corpus (.columns 1 "a".toList)) := by
  intro rows
  refine ⟨List.forall_mem_map.mpr fun source _ => Row.ofText_writable source false {}, ?_⟩
  have hwritten : WrittenAt (fun _ => some (.file (toUtf8 (toText rows))))
    (.ofText "corpus".toList) rows := rfl
  rw [hwritten.load_eq]
  rfl

end Corpus

end ImageReference
