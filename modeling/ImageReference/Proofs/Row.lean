import ImageReference.Corpus
import ImageReference.Proofs.Decimal
import ImageReference.Proofs.RoundTrip
import ImageReference.Proofs.Split

/-!
# Writing and reading rows

A cell is written without tabs, line feeds and carriage returns, so a line has
one cell more than it has tabs, and reading the line gives the row again. The
other boundaries of lines have no escape: a row with one of them in a cell is
written with that character as it is.
-/

namespace ImageReference

variable {c : Char} {text line : Text} {row : Row}

theorem unescapeFrom_escapeChar (c : Char) (rest : Text) :
    unescapeFrom false (escapeChar c ++ rest) = c :: unescapeFrom false rest := by
  fun_cases escapeChar c with
  | case5 hbackslash => simp [unescapeFrom, hbackslash]
  | _ => simp_all [unescapeFrom, unescapePair]

theorem unescape_escape (text : Text) : unescape (escape text) = text := by
  rw [unescape, escape]
  induction text with
  | nil => rfl
  | cons c text ih => rw [List.flatMap_cons, unescapeFrom_escapeChar, ih]

theorem escape_ne_nil (h : text ≠ []) : escape text ≠ [] := by
  intro hescape
  have hback := unescape_escape text
  rw [hescape] at hback
  exact h hback.symm

theorem mem_escape (h : c ∈ escape text) :
    (c ∈ text ∧ c ≠ '\t' ∧ c ≠ '\n' ∧ c ≠ '\r') ∨ c ∈ ['\\', 't', 'n', 'r'] := by
  obtain ⟨d, hd, hc⟩ := List.mem_flatMap.mp h
  revert hc
  fun_cases escapeChar d with
  | case5 hbackslash htab hfeed hreturn =>
    intro hc
    obtain rfl : c = d := List.mem_singleton.mp hc
    exact .inl ⟨hd, htab, hfeed, hreturn⟩
  | _ =>
    intro hc
    simp only [List.mem_cons, List.not_mem_nil, or_false] at hc ⊢
    tauto

theorem unescapePair_ne_nil (c : Char) : unescapePair c ≠ [] := by
  fun_cases unescapePair c with
  | _ => exact List.cons_ne_nil _ _

theorem unescape_ne_nil (h : text ≠ []) : unescape text ≠ [] := by
  rw [unescape]
  cases text with
  | nil => exact absurd rfl h
  | cons c rest =>
    rw [unescapeFrom]
    split
    · cases rest with
      | nil => exact List.cons_ne_nil _ _
      | cons d rest => exact List.append_ne_nil_of_left_ne_nil (unescapePair_ne_nil d) _
    · exact List.cons_ne_nil _ _

theorem mem_unescapePair {d : Char} (h : d ∈ unescapePair c) :
    d = c ∨ d ∈ ['\\', '\t', '\n', '\r'] := by
  revert h
  fun_cases unescapePair c with
  | _ =>
    intro h
    simp only [List.mem_cons, List.not_mem_nil, or_false] at h ⊢
    tauto

theorem mem_unescape (h : c ∈ unescape text) : c ∈ text ∨ c ∈ ['\\', '\t', '\n', '\r'] := by
  rw [unescape] at h
  generalize false = pending at h
  fun_induction unescapeFrom pending text with
  | case1 => cases h
  | case2 => simp_all
  | case3 d rest ih =>
    rcases List.mem_append.mp h with h | h
    · exact (mem_unescapePair h).imp_left fun he => List.mem_cons.mpr (.inl he)
    · exact (ih h).imp_left (List.mem_cons_of_mem _)
  | case4 rest ih => exact (ih h).imp_left (List.mem_cons_of_mem _)
  | case5 d rest _ ih =>
    rcases List.mem_cons.mp h with rfl | h
    · exact .inl List.mem_cons_self
    · exact (ih h).imp_left (List.mem_cons_of_mem _)

/-- The line boundaries that have no escape, which are all but the line feed. -/
def isBareBoundary : CharClass := fun c => isLineBoundary c && c != '\n'

/-- No line boundary in the text is written as it is. -/
def Unbroken (text : Text) : Prop := ∀ c ∈ text, isBareBoundary c = false

theorem unbroken_iff_all : Unbroken text ↔ (text.all fun c => !isBareBoundary c) = true := by
  simp [Unbroken]

theorem isBareBoundary_cases (h : isBareBoundary c = true) :
    c ∈ ['\x0b', '\x0c', '\x1c', '\x1d', '\x1e', '\u0085', '\u2028', '\u2029'] := by
  simp only [isBareBoundary, isLineBoundary, Bool.and_eq_true, Bool.or_eq_true, beq_iff_eq,
    bne_iff_ne] at h
  simp only [List.mem_cons, List.not_mem_nil, or_false]
  tauto

namespace Row

/-- No optional cell is present and empty. -/
def Writable (row : Row) : Prop := ∀ cell ∈ row.cells.tail, cell ≠ some []

def SingleLine (row : Row) : Prop := ∀ text, some text ∈ row.cells → Unbroken text

theorem readCell_escape {cell : Option Text} (h : cell ≠ some []) :
    readCell (escape (cell.getD [])) = cell := by
  cases cell with
  | none => rfl
  | some text =>
    have hne : escape text ≠ [] := escape_ne_nil fun he => h (congrArg some he)
    rw [readCell, Option.getD_some, if_neg (by simpa using hne), unescape_escape]

theorem splitWhere_write (row : Row) :
    splitWhere (· == '\t') row.write = row.cells.map fun cell => escape (cell.getD []) := by
  refine splitWhere_joinWith (by simp [cells]) fun piece hpiece htab => ?_
  obtain ⟨cell, -, rfl⟩ := List.mem_map.mp hpiece
  rcases mem_escape htab with ⟨-, hne, -⟩ | hmem
  · exact hne rfl
  · revert hmem
    decide

theorem read_write (h : row.Writable) : read row.write = .ok row := by
  have hsplit := splitWhere_write row
  obtain ⟨input, name, domain, path, tag, digestAlgorithm, digestEncoded, error⟩ := row
  simp only [Writable, cells, List.tail_cons, List.forall_mem_cons] at h
  obtain ⟨hname, hdomain, hpath, htag, halgorithm, hencoded, herror, -⟩ := h
  simp only [cells, List.map_cons, List.map_nil, Option.getD_some] at hsplit
  rw [read, hsplit]
  simp only [unescape_escape, readCell_escape hname, readCell_escape hdomain,
    readCell_escape hpath, readCell_escape htag, readCell_escape halgorithm,
    readCell_escape hencoded, readCell_escape herror]

theorem write_inj {row' : Row} (h : row.Writable) (h' : row'.Writable) :
    row.write = row'.write ↔ row = row' := by
  constructor
  · intro hwrite
    have hread := read_write h
    rw [hwrite, read_write h'] at hread
    exact (Except.ok.inj hread).symm
  · exact congrArg write

theorem readCell_ne (cell : Text) : readCell cell ≠ some [] := by
  rw [readCell]
  split
  · simp
  · next hcell =>
    intro h
    exact unescape_ne_nil (by simpa using hcell) (Option.some_inj.mp h)

theorem writable_of_read (h : read line = .ok row) : row.Writable := by
  rw [read] at h
  split at h
  · cases h
    simp only [Writable, cells, List.tail_cons, List.forall_mem_cons]
    simp [readCell_ne]
  · cases h

theorem eq_unescape_of_readCell {cell : Text} (h : readCell cell = some text) :
    text = unescape cell := by
  rw [readCell] at h
  split at h
  · cases h
  · exact (Option.some_inj.mp h).symm

theorem mem_cells_of_read (h : read line = .ok row) (hmem : some text ∈ row.cells) :
    ∃ piece ∈ splitWhere (· == '\t') line, text = unescape piece := by
  rw [read] at h
  split at h
  · next input name domain path tag digestAlgorithm digestEncoded error hpieces =>
    cases h
    have hcells : some text ∈ some (unescape input) ::
        [name, domain, path, tag, digestAlgorithm, digestEncoded, error].map readCell := hmem
    rw [hpieces]
    rcases List.mem_cons.mp hcells with hinput | hmem
    · exact ⟨input, List.mem_cons_self, Option.some_inj.mp hinput⟩
    · obtain ⟨piece, hpiece, hread⟩ := List.mem_map.mp hmem
      exact ⟨piece, List.mem_cons_of_mem _ hpiece, eq_unescape_of_readCell hread⟩
  · cases h

theorem singleLine_of_read (hline : Unbroken line)
    (h : read line = .ok row) : row.SingleLine := by
  intro text hmem c hc
  obtain ⟨piece, hpiece, rfl⟩ := mem_cells_of_read h hmem
  rcases mem_unescape hc with hc | hc
  · exact hline c (mem_splitWhere hpiece c hc).1
  · have hescaped : ∀ c ∈ ['\\', '\t', '\n', '\r'], isBareBoundary c = false := by
      simp [isBareBoundary, isLineBoundary]
    exact hescaped c hc

theorem mem_write (h : c ∈ row.write) :
    (∃ text, some text ∈ row.cells ∧ c ∈ text ∧ c ≠ '\n' ∧ c ≠ '\r') ∨
      c ∈ ['\\', 't', 'n', 'r', '\t'] := by
  rcases mem_joinWith h with rfl | ⟨piece, hpiece, hc⟩
  · simp
  · obtain ⟨cell, hcell, rfl⟩ := List.mem_map.mp hpiece
    rcases mem_escape hc with ⟨hc, -, hfeed, hreturn⟩ | hc
    · cases cell with
      | none => cases hc
      | some text => exact .inl ⟨text, hcell, hc, hfeed, hreturn⟩
    · exact .inr (List.mem_append_left ['\t'] hc)

theorem break_notMem_write (hc : c = '\n' ∨ c = '\r') : c ∉ row.write := by
  intro h
  rcases mem_write h with ⟨text, -, -, hfeed, hreturn⟩ | hmem
  · exact hc.elim hfeed hreturn
  · rcases hc with rfl | rfl <;> revert hmem <;> decide

theorem SingleLine.write_clear (h : row.SingleLine) :
    ∀ c ∈ row.write, isLineBoundary c = false := by
  intro c hc
  rcases mem_write hc with ⟨text, hmem, hc, hne, -⟩ | hc
  · have hclear := h text hmem c hc
    simpa [isBareBoundary, hne] using hclear
  · have hwritten : ∀ c ∈ ['\\', 't', 'n', 'r', '\t'], isLineBoundary c = false := by
      simp [isLineBoundary]
    exact hwritten c hc

theorem write_ne_nil (row : Row) : row.write ≠ [] := by
  intro h
  have hpieces := splitWhere_write row
  rw [h] at hpieces
  have hlength := congrArg List.length hpieces
  simp [cells, splitWhere] at hlength

end Row

def Rejection.Described (limit : Int) (e : Rejection) : Prop :=
  e.description = e.kind.description ∨
    e.description = RejectionKind.nameTooLongDescription limit

theorem isBareBoundary_of_digit (h : CharClass.digit c = true) : isBareBoundary c = false := by
  by_contra hboundary
  have hnone : ∀ c ∈ ['\x0b', '\x0c', '\x1c', '\x1d', '\x1e', '\u0085', '\u2028', '\u2029'],
      CharClass.digit c = false := by simp [CharClass.digit]
  rw [hnone c (isBareBoundary_cases (by simpa using hboundary))] at h
  cases h

theorem unbroken_nameTooLong (limit : Int) :
    Unbroken (RejectionKind.nameTooLongDescription limit) := by
  have hfront : Unbroken "repository name must not be more than ".toList :=
    unbroken_iff_all.mpr rfl
  have hback : Unbroken " characters".toList := unbroken_iff_all.mpr rfl
  intro c hc
  rcases List.mem_append.mp hc with hc | hc
  · rcases List.mem_append.mp hc with hc | hc
    · exact hfront c hc
    · rcases Decimal.mem_ofInt hc with rfl | hdigit
      · rfl
      · exact isBareBoundary_of_digit hdigit
  · exact hback c hc

theorem nameTooLongDescription_ne_nil (limit : Int) :
    RejectionKind.nameTooLongDescription limit ≠ [] :=
  List.append_ne_nil_of_right_ne_nil _ (List.cons_ne_nil _ _)

theorem RejectionKind.unbroken_description (kind : RejectionKind) :
    Unbroken kind.description := by
  rw [unbroken_iff_all]
  cases kind <;> rfl

theorem RejectionKind.description_ne_nil (kind : RejectionKind) : kind.description ≠ [] := by
  rw [← List.isEmpty_eq_false_iff]
  cases kind <;> rfl

namespace Rejection.Described

variable {limit : Int} {e : Rejection}

theorem unbroken (h : e.Described limit) : Unbroken e.description := by
  rcases h with h | h
  · rw [h]
    exact e.kind.unbroken_description
  · rw [h]
    exact unbroken_nameTooLong limit

theorem ne_nil (h : e.Described limit) : e.description ≠ [] := by
  rcases h with h | h
  · rw [h]
    exact e.kind.description_ne_nil
  · rw [h]
    exact nameTooLongDescription_ne_nil limit

end Rejection.Described

namespace Reference

variable {source : Text} {limits : Limits} {e : Rejection} {r : Reference}

theorem checkDigest_described {registry : Registry} {limit : Int}
    (h : r.checkDigest registry = .error e) : e.Described limit := by
  rw [checkDigest] at h
  split at h
  · cases h
  · rw [Digest.check, Digest.checkTexts] at h
    split at h
    · split at h
      · cases h
        exact .inl rfl
      · cases h
    · split at h
      · cases h
        exact .inl rfl
      · split at h
        · cases h
          exact .inl rfl
        · cases h

theorem parse_described (h : parse source limits = .error e) :
    e.Described limits.maxNameLength := by
  by_cases hlong : LongName source limits.maxNameLength
  · obtain ⟨name, hname⟩ := parse_long hlong
    cases h.symm.trans hname
    exact .inr rfl
  · by_cases hne : source = []
    · subst hne
      cases h
      exact .inl rfl
    · cases hscan : scan source with
      | error failure =>
        rw [parse_scan_error hne hlong hscan] at h
        cases h
        exact .inl rfl
      | ok found =>
        rw [parse_scan_ok hne hlong hscan] at h
        cases hcheck : found.value.checkDigest limits.registry with
        | ok =>
          rw [hcheck] at h
          cases h
        | error other =>
          rw [hcheck] at h
          cases h
          exact checkDigest_described hcheck

theorem parseWith_described {canonical : Bool} (h : parseWith canonical source limits = .error e) :
    e.Described limits.maxNameLength := by
  cases canonical with
  | false => exact parse_described h
  | true =>
    rw [parseWith, if_pos rfl, parseCanonical] at h
    cases hparse : parse source limits with
    | error other =>
      rw [hparse] at h
      cases h
      exact parse_described hparse
    | ok r =>
      rw [hparse] at h
      change (if r.domainHost.isNone then _ else _) = _ at h
      split at h
      · cases h
        exact .inl rfl
      · change (if r.digestSpans.isNone then _ else _) = _ at h
        split at h
        · cases h
          exact .inl rfl
        · cases h

theorem parse_of_parseWith {canonical : Bool} (h : parseWith canonical source limits = .ok r) :
    parse source limits = .ok r := by
  cases canonical with
  | false => exact h
  | true =>
    rw [parseWith, if_pos rfl] at h
    obtain ⟨found, hparse, h⟩ := bind_eq_ok h
    rw [hparse]
    change (if found.domainHost.isNone then _ else _) = _ at h
    split at h
    · cases h
    · change (if found.digestSpans.isNone then _ else _) = _ at h
      split at h
      · cases h
      · exact h

theorem parse_laid (h : parse source limits = .ok r) : Laid source r := by
  obtain ⟨stop, hscan, -⟩ := parse_ok_iff.mp h
  exact scan_laid hscan

namespace Laid

theorem domain_subset (h : Laid source r) (hdomain : r.domain = some text) : text ⊆ source := by
  rw [h.split, hdomain, opened, List.append_assoc]
  exact List.subset_append_left _ _

theorem path_subset (h : Laid source r) : r.path ⊆ source := by
  intro c hc
  rw [h.split, List.mem_append, List.mem_append]
  exact .inr (.inl hc)

theorem name_subset (h : Laid source r) : r.name ⊆ source := by
  intro c hc
  rw [h.name_eq, List.mem_append] at hc
  rw [h.split, List.mem_append, List.mem_append]
  exact hc.imp_right .inl

theorem tag_subset (h : Laid source r) (htag : r.tag = some text) : text ⊆ source := by
  intro c hc
  rw [h.split, htag]
  simp [marked, hc]

theorem digest_subset (h : Laid source r) (hdigest : r.digest = some text) : text ⊆ source := by
  intro c hc
  rw [h.split, hdigest]
  simp [marked, hc]

theorem algorithm_subset (h : Laid source r) (halgorithm : r.digestAlgorithm = some text) :
    text ⊆ source := by
  rcases h.digest_cases with ⟨-, hnone, -⟩ | ⟨algorithm, -, encoded, -, hsome, -, hdigest⟩
  · cases hnone.symm.trans halgorithm
  · cases hsome.symm.trans halgorithm
    exact List.Subset.trans (List.subset_append_left _ _) (h.digest_subset hdigest)

theorem encoded_subset (h : Laid source r) (hencoded : r.digestEncoded = some text) :
    text ⊆ source := by
  rcases h.digest_cases with ⟨-, -, hnone⟩ | ⟨algorithm, -, encoded, -, -, hsome, hdigest⟩
  · cases hnone.symm.trans hencoded
  · cases hsome.symm.trans hencoded
    refine List.Subset.trans ?_ (h.digest_subset hdigest)
    exact List.Subset.trans (List.subset_cons_self _ _) (List.subset_append_right _ _)

theorem cell_subset (h : Laid source r) (hmem : some text ∈ (Row.ofReference r).cells) :
    text ⊆ source := by
  simp only [Row.ofReference, Row.cells, List.mem_cons, List.not_mem_nil, or_false] at hmem
  rcases hmem with hmem | hmem | hmem | hmem | hmem | hmem | hmem | hmem
  · rw [Option.some_inj.mp hmem, h.source_eq]
    exact List.Subset.refl _
  · rw [Option.some_inj.mp hmem]
    exact h.name_subset
  · exact h.domain_subset hmem.symm
  · rw [Option.some_inj.mp hmem]
    exact h.path_subset
  · exact h.tag_subset hmem.symm
  · exact h.algorithm_subset hmem.symm
  · exact h.encoded_subset hmem.symm
  · cases hmem

theorem writable (h : Laid source r) : (Row.ofReference r).Writable := by
  have hoptional := h.optional_ne
  simp only [List.forall_mem_cons] at hoptional
  obtain ⟨hdomain, -, -, htag, -, halgorithm, hencoded, -⟩ := hoptional
  have hpath : r.path ≠ [] := fun he => Path.nil_notMem_path (he ▸ h.decomposes.path_mem)
  have hname : r.name ≠ [] := by
    rw [h.name_eq]
    exact List.append_ne_nil_of_right_ne_nil _ hpath
  simp only [Row.Writable, Row.ofReference, Row.cells, List.tail_cons, List.forall_mem_cons]
  simp [hdomain, htag, halgorithm, hencoded, hname, hpath]

end Laid

end Reference

namespace Row

variable {canonical : Bool} {source : Text} {limits : Limits}

theorem ofText_cases (source : Text) (canonical : Bool) (limits : Limits) :
    (∃ r, Reference.Laid source r ∧ ofText source canonical limits = ofReference r) ∨
      ∃ e : Rejection, e.Described limits.maxNameLength ∧
        ofText source canonical limits = { input := source, error := some e.description } := by
  rw [ofText]
  cases hparse : Reference.parseWith canonical source limits with
  | error e => exact .inr ⟨e, Reference.parseWith_described hparse, rfl⟩
  | ok r => exact .inl ⟨r, Reference.parse_laid (Reference.parse_of_parseWith hparse), rfl⟩

theorem ofText_input (source : Text) (canonical : Bool) (limits : Limits) :
    (ofText source canonical limits).input = source := by
  rcases ofText_cases source canonical limits with ⟨r, hlaid, hrow⟩ | ⟨e, -, hrow⟩
  · rw [hrow]
    exact hlaid.source_eq
  · rw [hrow]

theorem ofText_writable (source : Text) (canonical : Bool) (limits : Limits) :
    (ofText source canonical limits).Writable := by
  rcases ofText_cases source canonical limits with ⟨r, hlaid, hrow⟩ | ⟨e, hdescribed, hrow⟩
  · rw [hrow]
    exact hlaid.writable
  · rw [hrow]
    simp [Writable, cells, hdescribed.ne_nil]

theorem ofText_singleLine_iff :
    (ofText source canonical limits).SingleLine ↔ Unbroken source := by
  constructor
  · intro h
    have hinput : some source ∈ (ofText source canonical limits).cells := by
      rw [cells, ofText_input]
      exact List.mem_cons_self
    exact h source hinput
  · intro h text hmem
    rcases ofText_cases source canonical limits with ⟨r, hlaid, hrow⟩ | ⟨e, hdescribed, hrow⟩
    · rw [hrow] at hmem
      exact fun c hc => h c (hlaid.cell_subset hmem hc)
    · rw [hrow] at hmem
      simp only [cells, List.mem_cons, List.not_mem_nil, or_false, reduceCtorEq, false_or,
        Option.some_inj] at hmem
      rcases hmem with rfl | rfl
      · exact h
      · exact hdescribed.unbroken

end Row

end ImageReference
