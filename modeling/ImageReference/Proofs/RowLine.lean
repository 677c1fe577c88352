import ImageReference.Proofs.Row

/-!
# The lines of rows

A row is written on one line of eight cells, in which the characters that have
escapes are replaced one after another, and reading the line gives the row
again. However a line of eight cells is escaped, the row that it is read as
is such a row, so writing and reading it once more changes nothing.
-/

namespace ImageReference

variable {text line : Text} {row : Row}

def replaceChar (c : Char) (new : Text) (text : Text) : Text :=
  text.flatMap fun d => if d = c then new else [d]

def escapes : List (Char × Text) :=
  [('\\', ['\\', '\\']), ('\t', ['\\', 't']), ('\n', ['\\', 'n']), ('\r', ['\\', 'r'])]

/-- Replaces everywhere the characters of a table, one after another. -/
def replaceAll (table : List (Char × Text)) (text : Text) : Text :=
  table.foldl (fun text entry => replaceChar entry.1 entry.2 text) text

theorem replaceChar_append (c : Char) (new front rest : Text) :
    replaceChar c new (front ++ rest) = replaceChar c new front ++ replaceChar c new rest :=
  List.flatMap_append

theorem replaceAll_append (table : List (Char × Text)) (front rest : Text) :
    replaceAll table (front ++ rest) = replaceAll table front ++ replaceAll table rest := by
  induction table generalizing front rest with
  | nil => rfl
  | cons entry table ih =>
    rw [replaceAll, List.foldl_cons, replaceChar_append]
    exact ih _ _

theorem replaceAll_nil (table : List (Char × Text)) : replaceAll table [] = [] := by
  induction table with
  | nil => rfl
  | cons entry table ih => exact ih

-- The backslash comes first, so no backslash of an escape is replaced again.
theorem replaceAll_escapes_singleton (c : Char) : replaceAll escapes [c] = escapeChar c := by
  fun_cases escapeChar c with
  | case5 hbackslash htab hfeed hreturn =>
    simp [replaceAll, escapes, replaceChar, hbackslash, htab, hfeed, hreturn]
  | _ => simp_all [replaceAll, escapes, replaceChar]

theorem escape_eq_replaceAll (text : Text) : escape text = replaceAll escapes text := by
  induction text with
  | nil => exact (replaceAll_nil escapes).symm
  | cons c text ih =>
    rw [← List.singleton_append, replaceAll_append, replaceAll_escapes_singleton, ← ih]
    rfl

namespace Row

theorem write_eq (row : Row) :
    row.write = joinWith '\t' (row.cells.map fun cell => replaceAll escapes (cell.getD [])) := by
  simp only [write, writeCells, escape_eq_replaceAll]

theorem count_write (row : Row) : row.write.count '\t' = 7 := by
  have hlength := length_splitWhere (· == '\t') row.write
  rw [splitWhere_write, List.length_map] at hlength
  exact (Nat.succ.inj hlength).symm

theorem exists_cells {pieces : List Text} (h : pieces.length = 8) :
    ∃ input name domain path tag digestAlgorithm digestEncoded error,
      pieces = [input, name, domain, path, tag, digestAlgorithm, digestEncoded, error] := by
  rcases pieces with _ | ⟨input, _ | ⟨name, _ | ⟨domain, _ | ⟨path, _ | ⟨tag, _ |
    ⟨digestAlgorithm, _ | ⟨digestEncoded, _ | ⟨error, _ | ⟨_, _⟩⟩⟩⟩⟩⟩⟩⟩⟩
  case cons.cons.cons.cons.cons.cons.cons.cons.nil => exact ⟨_, _, _, _, _, _, _, _, rfl⟩
  all_goals simp at h

theorem exists_read (h : line.count '\t' = 7) : ∃ row, read line = .ok row := by
  have hlength : (splitWhere (· == '\t') line).length = 8 := by
    rw [length_splitWhere]
    exact congrArg (· + 1) h
  obtain ⟨input, name, domain, path, tag, digestAlgorithm, digestEncoded, error, hpieces⟩ :=
    exists_cells hlength
  rw [read, hpieces]
  exact ⟨_, rfl⟩

/-- A row without an empty optional cell is written on one line of eight cells and read back from
it. The rows of texts and the rows that are read are such rows, so a line of eight cells tells the
same row when this has been written and read again. -/
theorem write_reads :
    (∀ row : Row, row.Writable →
      row.write =
        joinWith '\t' (row.cells.map fun cell => replaceAll escapes (cell.getD [])) ∧
      '\n' ∉ row.write ∧ '\r' ∉ row.write ∧ row.write.count '\t' = 7 ∧
      read row.write = .ok row) ∧
    (∀ row row' : Row, row.Writable → row'.Writable → row.write = row'.write → row = row') ∧
    (∀ source canonical limits, (ofText source canonical limits).Writable) ∧
    (∀ line row, read line = .ok row → row.Writable) ∧
    ∀ line : Text, line.count '\t' = 7 →
      ∃ row, read line = .ok row ∧ read row.write = .ok row := by
  refine ⟨?_, ?_, ofText_writable, fun line row => writable_of_read, ?_⟩
  · intro row hrow
    refine ⟨row.write_eq, ?_, ?_, row.count_write, read_write hrow⟩
    · exact break_notMem_write (.inl rfl)
    · exact break_notMem_write (.inr rfl)
  · intro row row' hrow hrow' hwrite
    exact (write_inj hrow hrow').mp hwrite
  · intro line hline
    obtain ⟨row, hread⟩ := exists_read hline
    exact ⟨row, hread, read_write (writable_of_read hread)⟩

theorem write_reads_backslashes :
    let row : Row := { input := [], tag := some "\\t\t\\".toList }
    row.Writable ∧ read row.write = .ok row ∧
      ∃ other, read "\\x\t\\\\n\t\t\t\t\t\t\\".toList = .ok other ∧
        read other.write = .ok other := by
  intro row
  have hrow : row.Writable := by simp [Writable, cells, row]
  obtain ⟨hwritten, -, -, -, hagain⟩ := write_reads
  exact ⟨hrow, (hwritten row hrow).2.2.2.2, hagain _ rfl⟩

end Row

end ImageReference
