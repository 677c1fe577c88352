import ImageReference.Proofs.Digest
import ImageReference.Proofs.Name
import ImageReference.Proofs.Tag

/-!
# Scanning references

A reference is a name, a tag behind a colon and a digest behind an at sign. No
path has a colon or an at sign and no tag has an at sign, so each part ends
where the next one starts. Parsing is this scan with two checks in it: the
length of the name is checked as soon as the name has been read, and the
registry is asked once everything has been read.
-/

namespace ImageReference.Reference

variable {source before front rest : Text} {start : Int} {limits : Limits}

def scanBehind (source : Text) (name : Scanned Name) : Except Failure (Scanned Reference) := do
  let tag ← Scan.marked ':' Tag.scan name.stop source
  let digest ← Scan.marked '@' (Digest.scan .distribution) tag.stop source
  if digest.stop < source.length then
    .error { kind := .referenceInvalidFormat, offset := digest.stop }
  else
    return ⟨⟨source, name.value.domain, name.value.path, tag.value, digest.value⟩, digest.stop⟩

def scan : Scan Reference := fun source => do
  let name ← Name.scan source
  scanBehind source name

def CoversBehind (start : Int) (back : Text) (r : Reference) : Prop :=
  ∃ t g : Text, back = t ++ g ∧ MarkedHolds ':' (Spans Grammar.tag) start t r.tagSpan ∧
    MarkedHolds '@' Digest.Covers (start + t.length) g r.digestSpans

def Covers (before : Text) (start : Int) (front : Text) (r : Reference) : Prop :=
  ∃ p back : Text, front = p ++ back ∧
    Name.Covers before start p ⟨r.domainHost, r.pathSpans⟩ ∧ CoversBehind (start + p.length) back r

def Reports (front : Text) (next : Option Char) (kind : RejectionKind) : Prop :=
  kind = .nameContainsUppercase ↔
    next.any CharClass.upper = true ∧ ∀ c ∈ front, c ≠ ':' ∧ c ≠ '@'

section Kinds

variable {c : Char} {next : Option Char} {kind : RejectionKind}

theorem reports_behind_mark (hkind : kind ≠ .nameContainsUppercase) (hmem : c ∈ front)
    (hc : c = ':' ∨ c = '@') : Reports front next kind := by
  refine ⟨fun h => absurd h hkind, fun h => ?_⟩
  have hne := h.2 c hmem
  rcases hc with rfl | rfl
  · exact absurd rfl hne.1
  · exact absurd rfl hne.2

theorem reports_in_path (hfront : Viable Grammar.path front) (h : Path.Reports front next kind) :
    Reports front next kind := by
  have hmarks : ∀ c ∈ front, c ≠ ':' ∧ c ≠ '@' := by
    intro c hc
    constructor
    · intro he
      exact Path.mark_notMem hfront (.inl he) hc
    · intro he
      exact Path.mark_notMem hfront (.inr he) hc
  exact h.trans ⟨fun hupper => ⟨hupper, hmarks⟩, fun hboth => hboth.1⟩

-- Behind a name alone a capital letter could be reported, but no name stops in front of one.
theorem reports_leftover {p t g more : Text} {r : Reference} {place place' : Int}
    (htag : MarkedHolds ':' (Spans Grammar.tag) place t r.tagSpan)
    (hdigest : MarkedHolds '@' Digest.Covers place' g r.digestSpans)
    (hupper : ∀ d ∈ (t ++ (g ++ c :: more)).head?, CharClass.upper d = false) :
    Reports (p ++ (t ++ g)) (some c) .referenceInvalidFormat := by
  obtain ⟨source, host, path, tag, digest⟩ := r
  cases tag with
  | some span =>
    obtain ⟨tail, rfl, -⟩ := htag
    exact reports_behind_mark (by simp) (show ':' ∈ p ++ (':' :: tail ++ g) by simp) (.inl rfl)
  | none =>
    obtain rfl : t = [] := htag
    cases digest with
    | some spans =>
      obtain ⟨tail, rfl, -⟩ := hdigest
      exact reports_behind_mark (by simp) (show '@' ∈ p ++ ([] ++ '@' :: tail) by simp) (.inr rfl)
    | none =>
      obtain rfl : g = [] := hdigest
      have hc : CharClass.upper c = false := hupper c rfl
      simp [Reports, hc]

end Kinds

theorem parted_path : Parted Grammar.path
    (Grammar.optional ({[':']} * Grammar.tag) * Grammar.optional ({['@']} * Grammar.digest))
    (fun c => c == ':' || c == '@') := by
  refine ⟨fun text htext c hc => ?_, fun c rest h => ?_⟩
  · rw [Bool.or_eq_false_iff, beq_eq_false_iff_ne, beq_eq_false_iff_ne]
    constructor
    · intro he
      exact Path.mark_notMem (.of_mem htext) (.inl he) hc
    · intro he
      exact Path.mark_notMem (.of_mem htext) (.inr he) hc
  · obtain ⟨t, ht, g, hg, he⟩ := Language.mem_mul.mp h
    cases t with
    | nil =>
      obtain rfl : g = c :: rest := he
      simp [head_of_mem_marked hg]
    | cons d t =>
      obtain ⟨rfl, -⟩ := List.cons.inj he
      simp [head_of_mem_marked ht]

theorem parted_tag : Parted (Grammar.optional ({[':']} * Grammar.tag))
    (Grammar.optional ({['@']} * Grammar.digest)) (· == '@') := by
  refine ⟨fun text htext c hc => ?_, fun c rest h => by simp [head_of_mem_marked h]⟩
  cases text with
  | nil => cases hc
  | cons d text =>
    obtain rfl := head_of_mem_marked htext
    rw [beq_eq_false_iff_ne]
    intro he
    subst he
    have hmem : '@' ∈ text := by simpa using hc
    exact Tag.at_notMem (mem_marked_cons.mp htext) hmem

theorem scanBehind_outcome {name : Scanned Name} (p : Text) (hsplit : source = front ++ rest)
    (hstop : name.stop = front.length) (hupper : ∀ c ∈ rest.head?, CharClass.upper c = false) :
    Outcome (Grammar.optional ({[':']} * Grammar.tag) * Grammar.optional ({['@']} * Grammar.digest))
      (fun _ => true)
      (fun start back r => r.source = source ∧
        (⟨r.domainHost, r.pathSpans⟩ : Name) = name.value ∧ CoversBehind start back r)
      (fun back => Reports (p ++ back)) front.length rest (scanBehind source name) := by
  have htag := Scan.marked_outcome ':' Tag.scan_outcome (fun n _ _ _ h => Spans.shift n h) front
    rest
  rw [← hsplit, ← hstop] at htag
  rw [scanBehind, ← hstop]
  refine htag.bind parted_tag viable_marked_nil ?_ ?_ ?_
  · intro c hc
    exact ⟨beq_eq_false_iff_ne.mpr (CharClass.ne_at_of_tag hc), rfl⟩
  · intro t next kind _ hkind
    obtain ⟨tail, rfl, rfl⟩ := hkind
    exact reports_behind_mark (by simp) (show ':' ∈ p ++ ':' :: tail by simp) (.inl rfl)
  · intro t afterTag tag _ ht htagStop htagHolds
    have hplace : ((front ++ t).length : Int) = name.stop + t.length := by
      rw [hstop, List.length_append, Int.natCast_add]
    have htext : source = front ++ t ++ afterTag := by rw [hsplit, ht, List.append_assoc]
    have hdigest := Scan.marked_outcome '@' Digest.scan_outcome (fun n _ _ _ h => h.shift n)
      (front ++ t) afterTag
    rw [hplace, ← htext, ← htagStop] at hdigest
    rw [← htagStop]
    refine hdigest.ended ?_ ?_ ?_ ?_
    · rw [htagStop, hstop, htext]
      simp only [List.length_append, Int.natCast_add]
    · intro g next kind hkind
      obtain ⟨tail, rfl, hkind⟩ := hkind
      have hne : kind ≠ .nameContainsUppercase := by
        rw [show kind = .digestInvalidFormat from hkind]
        simp
      exact reports_behind_mark hne (show '@' ∈ p ++ (t ++ '@' :: tail) by simp) (.inr rfl)
    · intro g c more value hmore hdigestHolds
      rw [ht, hmore] at hupper
      exact @reports_leftover c p t g more ⟨source, none, name.value.path, tag.value, value⟩ _ _
        htagHolds hdigestHolds hupper
    · intro digest hdigestHolds
      refine ⟨rfl, rfl, t, afterTag, rfl, htagHolds, ?_⟩
      rwa [← htagStop]

theorem scan_outcome
    (hhost : SegmentKind.ofText source = .domain →
      ∃ host, Host.scan (SegmentKind.leading source) = .ok host)
    (hbefore : SegmentKind.before source = before) (hsplit : source = before ++ rest) :
    Outcome (Grammar.path * (Grammar.optional ({[':']} * Grammar.tag) *
        Grammar.optional ({['@']} * Grammar.digest))) (fun _ => true)
      (fun start front r => r.source = source ∧ Covers before start front r) Reports
      before.length rest (scan source) := by
  subst hbefore
  have hname := Name.scan_outcome hhost hsplit
  generalize SegmentKind.before source = before at hsplit hname
  have hviable : Viable (Grammar.optional ({[':']} * Grammar.tag) *
      Grammar.optional ({['@']} * Grammar.digest)) [] :=
    .of_mem (Language.append_mem_mul nil_mem_marked nil_mem_marked)
  refine hname.bind parted_path hviable ?_ (fun _ _ _ => reports_in_path) ?_
  · intro c hc
    obtain ⟨hcolon, hat⟩ := CharClass.ne_mark_of_upper hc
    simp [hcolon, hat]
  · intro p back name hnameEq hp hstop hcovers
    have hplace : (before.length : Int) + p.length = (before ++ p).length := by simp
    have htext : source = before ++ p ++ back := by rw [hsplit, hp, List.append_assoc]
    rw [hplace] at hstop ⊢
    have hupper := Name.scan_ok_upper hnameEq htext hstop
    refine (scanBehind_outcome p htext hstop hupper).mono fun rest r h => ?_
    obtain ⟨hsource, hvalue, hbehind⟩ := h
    refine ⟨hsource, p, rest, rfl, ?_, ?_⟩
    · rw [hvalue]
      exact hcovers
    · rwa [hplace]

theorem host_of_scan {found : Scanned Reference} (h : scan source = .ok found)
    (hkind : SegmentKind.ofText source = .domain) :
    ∃ host, Host.scan (SegmentKind.leading source) = .ok host := by
  obtain ⟨name, hname, -⟩ := bind_eq_ok h
  exact Name.host_of_scan hname hkind

theorem scan_reads_all {found : Scanned Reference} (h : scan source = .ok found) :
    source.length ≤ found.stop := by
  obtain ⟨name, -, h⟩ := bind_eq_ok h
  obtain ⟨tag, -, h⟩ := bind_eq_ok h
  obtain ⟨digest, -, h⟩ := bind_eq_ok h
  split at h
  · cases h
  · next hend =>
    cases h
    change (source.length : Int) ≤ digest.stop
    omega

theorem scan_stop {found : Scanned Reference} (h : scan source = .ok found) :
    found.stop = source.length := by
  obtain ⟨rest, hsplit⟩ := SegmentKind.before_split source
  have houtcome := scan_outcome (host_of_scan h) rfl hsplit
  have hlength := congrArg List.length hsplit
  rw [h] at houtcome
  rw [List.length_append] at hlength
  have hstop := houtcome.stop_le
  have hall := scan_reads_all h
  omega

theorem scan_ok {found : Scanned Reference} (h : scan source = .ok found) :
    found.value.source = source ∧ ∃ rest, source = SegmentKind.before source ++ rest ∧
      Covers (SegmentKind.before source) (SegmentKind.before source).length rest found.value := by
  obtain ⟨tail, hsplit⟩ := SegmentKind.before_split source
  have hall := scan_reads_all h
  have houtcome := scan_outcome (host_of_scan h) rfl hsplit
  rw [h] at houtcome
  cases houtcome with
  | @ok front rest _ split _ _ stop holds =>
    have hlength := congrArg List.length hsplit
    rw [split, List.length_append, List.length_append] at hlength
    obtain rfl : rest = [] := List.eq_nil_of_length_eq_zero (by omega)
    rw [List.append_nil] at split
    exact ⟨holds.1, front, split ▸ hsplit, holds.2⟩

def checkDigest (registry : Registry) (r : Reference) : Except Rejection Unit :=
  match r.digestSpans with
  | none => .ok ()
  | some digest => digest.check registry true r.source

def nameSpan (r : Reference) : Span := Name.span ⟨r.domainHost, r.pathSpans⟩

/-- Some name stands in front of the source, and it has more characters than the limit. -/
def LongName (source : Text) (limit : Int) : Prop :=
  ∃ name, Name.scan source = .ok name ∧ limit < name.value.span.length

theorem not_longName {limit : Int} (hlimit : source.length ≤ limit) : ¬ LongName source limit := by
  intro h
  obtain ⟨name, hname, hlong⟩ := h
  have hlength := Name.scan_span_le hname
  omega

theorem leadingName_of_ne_nil (hne : source ≠ []) :
    leadingName source = (Name.scan source).mapError Failure.rejection := by
  rw [leadingName, if_neg (by simpa using hne)]

theorem parse_tooLong {name : Scanned Name} (hname : Name.scan source = .ok name)
    (hlong : limits.maxNameLength < name.value.span.length) :
    parse source limits = .error (nameTooLong name.value limits.maxNameLength) := by
  have hne : source ≠ [] := by
    intro hempty
    subst hempty
    cases hname
  rw [parse, leadingName_of_ne_nil hne, hname]
  simp only [Except.mapError, bind, Except.bind, if_pos hlong]
  rfl

theorem parse_long (h : LongName source limits.maxNameLength) :
    ∃ name, parse source limits = .error (nameTooLong name limits.maxNameLength) := by
  obtain ⟨name, hname, hlong⟩ := h
  exact ⟨name.value, parse_tooLong hname hlong⟩

theorem parse_short (hne : source ≠ []) (hshort : ¬ LongName source limits.maxNameLength) :
    parse source limits = (do
      let found ← (scan source).mapError Failure.rejection
      found.value.checkDigest limits.registry
      return found.value) := by
  rw [parse, leadingName_of_ne_nil hne, scan]
  cases hname : Name.scan source with
  | error failure => rfl
  | ok name =>
    have hlength : ¬ limits.maxNameLength < name.value.span.length :=
      fun hlong => hshort ⟨name, hname, hlong⟩
    simp only [scanBehind, Except.mapError, bind, Except.bind, if_neg hlength]
    cases Scan.marked ':' Tag.scan name.stop source with
    | error failure => rfl
    | ok tag =>
      simp only
      cases Scan.marked '@' (Digest.scan .distribution) tag.stop source with
      | error failure => rfl
      | ok digest =>
        simp only
        by_cases hend : digest.stop < source.length
        · simp only [if_pos hend]
          rfl
        · simp only [if_neg hend]
          cases hspans : digest.value with
          | none => rfl
          | some spans =>
            cases hcheck : spans.check limits.registry true source <;>
              simp [checkDigest, hcheck, pure, Except.pure]

theorem parse_scan_error {failure : Failure} (hne : source ≠ [])
    (hshort : ¬ LongName source limits.maxNameLength) (hscan : scan source = .error failure) :
    parse source limits = .error failure.rejection := by
  rw [parse_short hne hshort, hscan]
  rfl

theorem parse_scan_ok {found : Scanned Reference} (hne : source ≠ [])
    (hshort : ¬ LongName source limits.maxNameLength) (hscan : scan source = .ok found) :
    parse source limits = (found.value.checkDigest limits.registry).map fun _ => found.value := by
  rw [parse_short hne hshort, hscan]
  rfl

theorem longName_iff {found : Scanned Reference} {limit : Int} (h : scan source = .ok found) :
    LongName source limit ↔ limit < found.value.nameSpan.length := by
  obtain ⟨name, hname, h⟩ := bind_eq_ok h
  obtain ⟨tag, -, h⟩ := bind_eq_ok h
  obtain ⟨digest, -, h⟩ := bind_eq_ok h
  split at h
  · cases h
  · cases h
    constructor
    · intro hlong
      obtain ⟨other, hother, hlong⟩ := hlong
      obtain rfl : name = other := Except.ok.inj (hname.symm.trans hother)
      exact hlong
    · intro hlong
      exact ⟨name, hname, hlong⟩

theorem ne_nil_of_scan {found : Scanned Reference} (h : scan source = .ok found) : source ≠ [] := by
  intro hempty
  subst hempty
  cases h

theorem parse_ok_iff {r : Reference} : parse source limits = .ok r ↔
    ∃ stop, scan source = .ok ⟨r, stop⟩ ∧ r.nameSpan.length ≤ limits.maxNameLength ∧
      r.checkDigest limits.registry = .ok () := by
  constructor
  · intro h
    have hne : source ≠ [] := by
      intro hempty
      subst hempty
      cases h
    have hshort : ¬ LongName source limits.maxNameLength := by
      intro hlong
      obtain ⟨name, hname⟩ := parse_long hlong
      rw [hname] at h
      cases h
    cases hscan : scan source with
    | error failure =>
      rw [parse_scan_error hne hshort hscan] at h
      cases h
    | ok found =>
      rw [parse_scan_ok hne hshort hscan] at h
      obtain ⟨_, hcheck, rfl⟩ := map_eq_ok h
      exact ⟨found.stop, rfl, Int.not_lt.mp fun hlong => hshort ((longName_iff hscan).mpr hlong),
        hcheck⟩
  · intro h
    obtain ⟨stop, hscan, hlength, hcheck⟩ := h
    have hshort : ¬ LongName source limits.maxNameLength :=
      fun hlong => Int.not_lt.mpr hlength ((longName_iff hscan).mp hlong)
    rw [parse_scan_ok (ne_nil_of_scan hscan) hshort hscan, hcheck]
    rfl

end ImageReference.Reference
