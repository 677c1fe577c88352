import ImageReference.Proofs.Safety

/-!
# References on one cursor

A reference can be read with one cursor that goes from production to production
and looks at the marks between them. What comes of it is what parsing the source
gives: no production reads a character that is not there, so the only failures
are rejections of the text.
-/

namespace ImageReference

variable {α β : Type}

theorem shift_zero_span (span : Span) : shift 0 span = span :=
  congrArg (Span.mk · span.length) (Int.add_zero span.offset)

theorem shift_zero_option [Shift α] (hzero : ∀ value : α, shift 0 value = value)
    (found : Option α) : shift 0 found = found := by
  cases found with
  | none => rfl
  | some value => exact congrArg some (hzero value)

theorem shift_zero_list [Shift α] (hzero : ∀ value : α, shift 0 value = value)
    (values : List α) : shift 0 values = values := by
  change values.map (shift 0) = values
  rw [List.map_congr_left fun value _ => hzero value]
  exact List.map_id values

theorem shift_zero_result [Shift α] (hzero : ∀ value : α, shift 0 value = value)
    (result : Except Failure (Scanned α)) : shift 0 result = result := by
  cases result with
  | ok found =>
    change Except.ok (Scanned.mk (shift 0 found.value) (found.stop + 0)) = _
    rw [hzero, Int.add_zero]
  | error failure =>
    change Except.error { failure with
      offset := failure.offset + 0, halted := failure.halted + 0, reach := failure.reach + 0 } = _
    simp only [Int.add_zero]

theorem Path.shift_zero (path : Path) : shift 0 path = path := by
  change Path.mk ⟨shift 0 path.components.first, shift 0 path.components.rest⟩ _ = path
  rw [shift_zero_span, shift_zero_list shift_zero_span]

theorem Host.shift_zero (host : Host) : shift 0 host = host := by
  change Host.mk host.kind (shift 0 host.span) (shift 0 host.labels) (shift 0 host.port) = host
  rw [shift_zero_span, shift_zero_list shift_zero_span, shift_zero_option shift_zero_span]

namespace Cursor

variable {c : Cursor} {mark : Char} {result : Except Failure (Scanned α)}
  {outcome : Except Fault α × Cursor} {scan : Scan α}

def parseMarked (c : Cursor) (mark : Char) (parse : Cursor → Except Fault α × Cursor) :
    Except Fault (Option α) × Cursor :=
  match c.peek with
  | .error fault => (.error fault, c)
  | .ok next =>
      if next = some mark then
        let outcome := parse (c.advance 1)
        (outcome.1.map some, outcome.2)
      else (.ok none, c)

def parseReference (source : Text) (limits : Limits := {}) : Except Fault Reference := do
  if source.isEmpty then
    throw (.rejected { kind := .nameEmpty, offset := 0 })
  let (name, c) := (ofText source).parseName
  let name ← name
  if limits.maxNameLength < name.span.length then
    throw (.rejected (Reference.nameTooLong name limits.maxNameLength))
  let (tag, c) := c.parseMarked ':' parseTag
  let tag ← tag
  let (digest, c) := c.parseMarked '@' parseDigest
  let digest ← digest
  if !c.atEnd then
    throw (.rejected { kind := .referenceInvalidFormat, offset := c.offset })
  if let some spans := digest then
    (spans.check limits.registry true source).mapError .rejected
  return ⟨source, name.domain, name.path, tag, digest⟩

inductive Lands (c : Cursor) : Except Failure (Scanned α) → Except Fault α × Cursor → Prop
  | ok (found : Scanned α) : Lands c (.ok found) (.ok found.value, { c with offset := found.stop })
  | error (failure : Failure) (moved : Cursor) :
      Lands c (.error failure) (.error (.rejected failure.rejection), moved)

theorem Lands.of_place {place : Int} (h : { c with offset := place }.Lands result outcome) :
    c.Lands result outcome := by
  cases h with
  | ok found => exact .ok found
  | error failure moved => exact .error failure moved

theorem Lands.map (h : c.Lands result outcome) (f : α → β) :
    c.Lands (result.map (Scanned.map f)) (outcome.1.map f, outcome.2) := by
  cases h with
  | ok found => exact .ok (found.map f)
  | error failure moved => exact .error failure moved

theorem Lands.ok_eq {found : Scanned α} (h : c.Lands (.ok found) outcome) :
    outcome = (.ok found.value, { c with offset := found.stop }) := by
  cases h
  rfl

theorem Lands.error_eq {failure : Failure} (h : c.Lands (.error failure) outcome) :
    outcome.1 = .error (.rejected failure.rejection) := by
  cases h
  rfl

theorem parseNameBehind_eq (c : Cursor) (domain : Option Host) :
    c.parseNameBehind domain = (c.parsePath.1.map (Name.mk domain), c.parsePath.2) := by
  rw [parseNameBehind]
  rcases c.parsePath with ⟨_ | path, moved⟩ <;> rfl

namespace Within

variable (h : c.Within)
include h

theorem run_lands [Shift α] (scan : Scan α) :
    c.Lands (shift c.offset (scan c.window)) (c.run scan) := by
  rw [h.run_eq]
  cases scan c.window with
  | ok found =>
    rw [settle, Int.add_comm]
    exact .ok (shift c.offset found)
  | error failure => exact .error (shift c.offset failure) _

theorem run_lands_zero [Shift α] (hzero : ∀ value : α, shift 0 value = value)
    (hoffset : c.offset = 0) (scan : Scan α) : c.Lands (scan c.window) (c.run scan) := by
  have hlands := h.run_lands scan
  rwa [hoffset, shift_zero_result hzero] at hlands

theorem window_eq_drop (hstop : c.stop = c.source.length) :
    c.window = c.source.drop c.offset.toNat := by
  rw [h.window_eq]
  apply List.take_of_length_le
  rw [List.length_drop]
  omega

theorem peek_eq (hstop : c.stop = c.source.length) :
    c.peek = .ok (c.source.drop c.offset.toNat).head? := by
  obtain ⟨hnonneg, hordered, -⟩ := h
  rw [peek, peekAt, Int.add_zero, List.head?_drop]
  by_cases hend : c.stop ≤ c.offset
  · rw [if_pos hend, List.getElem?_eq_none (by omega)]
  · have hplace : c.offset.toNat < c.source.length := by omega
    rw [if_neg hend, charAt?, if_pos hnonneg, List.getElem?_eq_getElem hplace]

theorem parseMarked_lands [Shift α] (hstop : c.stop = c.source.length) (mark : Char)
    (scan : Scan α) :
    c.Lands (Scan.marked mark scan c.offset c.source) (c.parseMarked mark fun c => c.run scan) := by
  rw [parseMarked, h.peek_eq hstop, Scan.marked]
  simp only
  split
  · next hmark =>
    obtain ⟨hnonneg, hordered, hbounded⟩ := id h
    have hnext : c.offset < c.stop := by
      by_contra hend
      rw [List.drop_eq_nil_of_le (by omega)] at hmark
      cases hmark
    have hbehind : Within { c with offset := c.offset + 1 } :=
      ⟨by simp only; omega, hnext, hbounded⟩
    have hlands := hbehind.run_lands scan
    rw [hbehind.window_eq_drop hstop] at hlands
    have hadvance : c.advance 1 = { c with offset := c.offset + 1 } := by
      rw [advance, Int.min_eq_left hnext]
    rw [hadvance]
    exact (hlands.map some).of_place
  · exact .ok ⟨none, c.offset⟩

theorem advances_parseMarked {parse : Cursor → Except Fault α × Cursor} (mark : Char)
    (hparse : ∀ c : Cursor, c.Within → c.Advances (parse c)) :
    c.Advances (c.parseMarked mark parse) := by
  obtain ⟨next, hnext⟩ := h.peekAt_ok (Int.le_refl 0)
  obtain ⟨hnonneg, hordered, hbounded⟩ := id h
  rw [parseMarked, show c.peek = _ from hnext]
  simp only
  split
  · have hadvance : Within (c.advance 1) :=
      ⟨by simp only [advance]; omega, by simp only [advance]; omega, hbounded⟩
    have hmarked := (hparse _ hadvance).map some
    refine .of_later ?_ hmarked
    omega
  · exact h.advances_stay none

end Within

theorem scan_host_error {source : Text} {failure : Failure}
    (hkind : SegmentKind.ofText source = .domain)
    (hhost : Host.scan (SegmentKind.leading source) = .error failure) :
    Name.scan source = .error failure := by
  rw [Name.scan, hkind]
  simp only [Name.scanDomain, hhost]
  rfl

theorem Within.parseHost_lands (h : c.Within) (hoffset : c.offset = 0) :
    c.Lands (Host.scan c.window) c.parseHost := by
  rw [h.parseHost_eq]
  exact h.run_lands_zero Host.shift_zero hoffset Host.scan

theorem parseName_path {source : Text} (hkind : SegmentKind.ofText source = .path) :
    (ofText source).Lands (Name.scan source) ((ofText source).parseNameAs .path) := by
  have hpath := (within_ofText source).run_lands_zero Path.shift_zero rfl Path.scan
  rw [window_ofText] at hpath
  rw [parseNameAs, parseNameBehind_eq, Name.scan, hkind]
  exact hpath.map (Name.mk none)

theorem parseName_whole {source : Text} (hkind : SegmentKind.ofText source = .domain)
    (hwhole : SegmentKind.leading source = source) :
    (ofText source).Lands (Name.scan source) (ofText source).parseDomainAlone := by
  have hhost := (within_ofText source).parseHost_lands rfl
  rw [window_ofText] at hhost
  rw [parseDomainAlone]
  generalize (ofText source).parseHost = outcome at hhost
  cases hscan : Host.scan source with
  | ok found =>
    rw [hscan] at hhost
    cases hhost
    rw [Name.scan_whole hkind hwhole hscan]
    exact .error _ _
  | error failure =>
    rw [hscan] at hhost
    cases hhost
    rw [scan_host_error hkind (hwhole.symm ▸ hscan)]
    exact .error failure _

theorem parseName_slash {segment rest : Text}
    (hkind : SegmentKind.ofText (segment ++ '/' :: rest) = .domain) (hslash : '/' ∉ segment) :
    (ofText (segment ++ '/' :: rest)).Lands (Name.scan (segment ++ '/' :: rest))
      ((ofText (segment ++ '/' :: rest)).parseDomainPath segment.length) := by
  have hleading : SegmentKind.leading (segment ++ '/' :: rest) = segment :=
    SegmentKind.leading_append hslash
  have hlength : segment.length + 1 ≤ (segment ++ '/' :: rest).length := by simp
  generalize hsource : segment ++ '/' :: rest = source at hkind hleading hlength ⊢
  have hsegment : Within { ofText source with stop := segment.length } :=
    ⟨Int.le_refl 0, Int.natCast_nonneg _, Int.ofNat_le.mpr (Nat.le_of_succ_le hlength)⟩
  have hbehind : Within { ofText source with offset := segment.length + 1 } :=
    ⟨Int.natCast_nonneg (segment.length + 1), Int.ofNat_le.mpr hlength, Int.le_refl _⟩
  have hwindow : window { ofText source with stop := segment.length } = segment := by
    rw [hsegment.window_eq, ← hsource]
    simp [ofText]
  have hhost := hsegment.parseHost_lands rfl
  have hpath := hbehind.run_lands Path.scan
  rw [hwindow] at hhost
  rw [hbehind.window_eq_drop rfl] at hpath
  rw [parseDomainPath]
  generalize parseHost { ofText source with stop := segment.length } = outcome at hhost
  cases hscan : Host.scan segment with
  | ok found =>
    rw [hscan] at hhost
    cases hhost
    subst hsource
    rw [Name.scan_slash hkind hslash hscan]
    simp only
    rw [parseNameBehind_eq]
    exact (hpath.map (Name.mk (some found.value))).of_place
  | error failure =>
    rw [hscan] at hhost
    cases hhost
    rw [scan_host_error hkind (hleading.symm ▸ hscan)]
    exact .error failure _

theorem parseName_lands (source : Text) :
    (ofText source).Lands (Name.scan source) (ofText source).parseName := by
  rw [parseName_ofText]
  cases hkind : SegmentKind.ofText source with
  | path => exact parseName_path hkind
  | domain =>
    have hclear : '/' ∉ SegmentKind.leading source := SegmentKind.slash_notMem_leading
    rcases SegmentKind.leading_split source with hwhole | ⟨rest, hslash⟩
    · rw [parseNameAs_ofText_domain (hwhole ▸ hclear)]
      exact parseName_whole hkind hwhole
    · generalize SegmentKind.leading source = segment at hclear hslash
      subst hslash
      have hfirst : (segment ++ '/' :: rest).idxOf? '/' = some segment.length := by
        refine List.idxOf?_eq_some_iff.mpr ⟨by simp, by simp, fun i hi he => hclear ?_⟩
        rw [List.getElem_append_left hi] at he
        exact he ▸ List.getElem_mem hi
      rw [parseNameAs, window_ofText, hfirst]
      have hplace : (ofText (segment ++ '/' :: rest)).offset + segment.length = segment.length :=
        Int.zero_add _
      simp only [hplace]
      exact parseName_slash hkind hclear

def atPlace (source : Text) (place : Int) : Cursor := ⟨source, place, source.length⟩

theorem atEnd_atPlace (source : Text) (place : Int) :
    (!(atPlace source place).atEnd) = decide (place < source.length) := by
  rw [atEnd, ← decide_not, decide_eq_decide]
  exact Int.not_le

section Marked

variable [Shift α] {source : Text} {place : Int} (h : (atPlace source place).Within)
  {parse : Cursor → Except Fault α × Cursor} (hparse : ∀ c, parse c = c.run scan)
include h hparse

theorem marked_lands (mark : Char) :
    (atPlace source place).Lands (Scan.marked mark scan place source)
      ((atPlace source place).parseMarked mark parse) := by
  obtain rfl : parse = fun c => c.run scan := funext hparse
  exact h.parseMarked_lands rfl mark scan

theorem parseMarked_ok {found : Scanned (Option α)} (hlies : ∀ text, Lies 0 text (scan text))
    (hscan : Scan.marked mark scan place source = .ok found) :
    (atPlace source place).parseMarked mark parse = (.ok found.value, atPlace source found.stop) ∧
      (atPlace source found.stop).Within := by
  have hlands := marked_lands h hparse mark
  rw [hscan] at hlands
  have hadvances :
      (atPlace source place).Advances ((atPlace source place).parseMarked mark parse) :=
    h.advances_parseMarked mark fun c hc => hparse c ▸ hc.advances_run hlies
  rw [hlands.ok_eq] at hadvances
  exact ⟨hlands.ok_eq, hadvances.within h⟩

theorem parseMarked_error {failure : Failure}
    (hscan : Scan.marked mark scan place source = .error failure) :
    ((atPlace source place).parseMarked mark parse).1 = .error (.rejected failure.rejection) := by
  have hlands := marked_lands h hparse mark
  rw [hscan] at hlands
  exact hlands.error_eq

end Marked

theorem parseReference_eq (source : Text) (limits : Limits) :
    parseReference source limits = (Reference.parse source limits).mapError .rejected := by
  have hparseTag : ∀ c : Cursor, c.parseTag = c.run Tag.scan := fun _ => rfl
  have hparseDigest : ∀ c : Cursor, c.parseDigest = c.run (Digest.scan .distribution) :=
    fun _ => rfl
  by_cases hempty : source.isEmpty
  · simp only [parseReference, Reference.parse, Reference.leadingName, if_pos hempty]
    rfl
  have hname := parseName_lands source
  have hnamed := (within_ofText source).advances_parseName.within (within_ofText source)
  rw [parseReference, Reference.parse, Reference.leadingName, if_neg hempty, if_neg hempty]
  cases hscan : Name.scan source with
  | error failure =>
    rw [hscan] at hname
    simp only [hname.error_eq]
    rfl
  | ok name =>
    rw [hscan] at hname
    have hread : (ofText source).parseName = (.ok name.value, atPlace source name.stop) :=
      hname.ok_eq
    rw [hread] at hnamed ⊢
    simp only [Except.mapError, bind, Except.bind, pure, Except.pure]
    by_cases hlong : limits.maxNameLength < name.value.span.length
    · simp only [if_pos hlong]
      rfl
    simp only [if_neg hlong]
    cases htag : Scan.marked ':' Tag.scan name.stop source with
    | error failure =>
      have hrejected := parseMarked_error hnamed hparseTag htag
      simp only [hrejected]
    | ok tag =>
      obtain ⟨htagRead, htagged⟩ := parseMarked_ok hnamed hparseTag Tag.scan_lies htag
      simp only [htagRead]
      cases hdigest : Scan.marked '@' (Digest.scan .distribution) tag.stop source with
      | error failure =>
        have hrejected := parseMarked_error htagged hparseDigest hdigest
        simp only [hrejected]
      | ok digest =>
        obtain ⟨hdigestRead, -⟩ :=
          parseMarked_ok htagged hparseDigest (Digest.scan_lies _) hdigest
        simp only [hdigestRead, atEnd_atPlace]
        by_cases hend : digest.stop < source.length
        · simp only [hend, decide_true, if_true]
          rfl
        simp only [hend, decide_false]
        rcases digest.value with _ | spans
        · rfl
        · simp only
          cases spans.check limits.registry true source <;> rfl

end Cursor

end ImageReference
