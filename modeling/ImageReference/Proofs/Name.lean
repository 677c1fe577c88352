import ImageReference.Name
import ImageReference.Proofs.Host
import ImageReference.Proofs.Path

/-!
# Scanning names

What stands in front of the path of a name is settled by the first characters of
the source: the leading segment and its slash where the segment is taken for a
domain, and nothing otherwise. The rest of a name is a path.
-/

namespace ImageReference

variable {source rest segment front : Text}

namespace SegmentKind

theorem slash_notMem_leading : '/' ∉ leading source := by
  intro hmem
  have hslash := List.all_eq_true.mp (List.all_takeWhile (p := (· != '/'))) '/' hmem
  simp at hslash

theorem leading_append (h : '/' ∉ segment) : leading (segment ++ '/' :: rest) = segment := by
  refine takeWhile_run (fun c hc => ?_) (by simp)
  rw [bne_iff_ne]
  intro he
  exact h (he ▸ hc)

theorem leading_eq_self (h : '/' ∉ source) : leading source = source := by
  have hrun : ∀ c ∈ source, (c != '/') = true := by
    intro c hc
    rw [bne_iff_ne]
    intro he
    exact h (he ▸ hc)
  have hwhole : (source ++ []).takeWhile (· != '/') = source := takeWhile_run hrun (by simp)
  rw [List.append_nil] at hwhole
  exact hwhole

theorem leading_split (source : Text) : leading source = source ∨
    ∃ rest, source = leading source ++ '/' :: rest := by
  by_cases h : '/' ∈ source
  · obtain ⟨segment, rest, he, hslash⟩ := List.eq_append_cons_of_mem h
    refine .inr ⟨rest, ?_⟩
    rw [he, leading_append hslash]
  · exact .inl (leading_eq_self h)

def before (source : Text) : Text :=
  match ofText source with
  | .domain => source.take ((leading source).length + 1)
  | .path => []

theorem before_split (source : Text) : ∃ rest, source = before source ++ rest := by
  rw [before]
  split
  · exact ⟨source.drop _, (List.take_append_drop _ source).symm⟩
  · exact ⟨source, rfl⟩

theorem ofText_eq_domain_iff : ofText source = .domain ↔ source.head? = some '[' ∨
    ('/' ∈ source ∧
      ('.' ∈ leading source ∨ ':' ∈ leading source ∨ leading source = localhost)) := by
  rw [ofText]
  split
  · next hhead => simp [hhead]
  · next hhead =>
    split
    · next h => simpa [hhead, hasMark, or_assoc] using h
    · next h => simpa [hhead, hasMark, or_assoc] using h

theorem before_path (h : ofText source = .path) : before source = [] := by
  rw [before, h]

theorem before_slash (h : ofText (segment ++ '/' :: rest) = .domain) (hslash : '/' ∉ segment) :
    before (segment ++ '/' :: rest) = segment ++ ['/'] := by
  have hlength : segment.length + 1 = (segment ++ ['/']).length := by simp
  rw [before, h]
  simp only [leading_append hslash]
  rw [hlength, List.append_cons segment '/' rest, List.take_left]

theorem before_whole (h : ofText source = .domain) (hwhole : leading source = source) :
    before source = source := by
  rw [before, h]
  simp only [hwhole]
  exact List.take_of_length_le (Nat.le_succ _)

theorem before_cases (source : Text) :
    (ofText source = .path ∧ before source = []) ∨
      (ofText source = .domain ∧ '/' ∉ source ∧ before source = source) ∨
      (ofText source = .domain ∧ before source = leading source ++ ['/'] ∧
        ∃ rest, source = leading source ++ '/' :: rest) := by
  cases hkind : ofText source with
  | path => exact .inl ⟨rfl, before_path hkind⟩
  | domain =>
    rcases leading_split source with hwhole | ⟨rest, hslash⟩
    · refine .inr (.inl ⟨rfl, ?_, before_whole hkind hwhole⟩)
      rw [← hwhole]
      exact slash_notMem_leading
    · refine .inr (.inr ⟨rfl, ?_, rest, hslash⟩)
      have hclear : '/' ∉ leading source := slash_notMem_leading
      have hbefore := before_slash (hslash ▸ hkind) hclear
      rwa [← hslash] at hbefore

end SegmentKind

namespace Name

def DomainCovers (before : Text) : Option Host → Prop
  | none => before = []
  | some host => ∃ segment, before = segment ++ ['/'] ∧ Host.Covers 0 segment host

def Covers (before : Text) (start : Int) (front : Text) (name : Name) : Prop :=
  DomainCovers before name.domain ∧ Path.Covers start front name.path

theorem Covers.span {before : Text} {name : Name} (h : Covers before before.length front name) :
    name.span = ⟨0, before.length + front.length⟩ := by
  obtain ⟨hdomain, -, hpath⟩ := h
  obtain ⟨domain, path⟩ := name
  cases domain with
  | none =>
    obtain rfl : before = [] := hdomain
    simpa [Name.span] using hpath
  | some host =>
    obtain ⟨segment, -, h, tail, -, ⟨-, hhost⟩, -⟩ := hdomain
    simp only at hpath
    simp [Name.span, Span.join, Span.stop, hhost, hpath]

theorem scan_slash {host : Scanned Host}
    (hkind : SegmentKind.ofText (segment ++ '/' :: rest) = .domain) (hslash : '/' ∉ segment)
    (hhost : Host.scan segment = .ok host) :
    scan (segment ++ '/' :: rest) =
      (Scan.behind Path.scan (segment.length + 1) (segment ++ '/' :: rest)).map
        (Scanned.map fun path => ⟨some host.value, path⟩) := by
  have hlength : segment.length ≠ (segment ++ '/' :: rest).length := by simp
  rw [scan, hkind]
  simp only [scanDomain, SegmentKind.leading_append hslash, hhost]
  change (if _ then _ else _) = _
  rw [if_neg hlength]
  exact bind_scanned (fun path => (⟨some host.value, path⟩ : Name)) _

theorem scan_whole {host : Scanned Host} (hkind : SegmentKind.ofText source = .domain)
    (hwhole : SegmentKind.leading source = source) (hhost : Host.scan source = .ok host) :
    scan source = .error { kind := .referenceInvalidFormat, offset := source.length } := by
  rw [scan, hkind]
  simp only [scanDomain, hwhole, hhost]
  rfl

theorem scan_outcome
    (hhost : SegmentKind.ofText source = .domain →
      ∃ host, Host.scan (SegmentKind.leading source) = .ok host)
    (hsplit : source = SegmentKind.before source ++ rest) :
    Outcome Grammar.path CharClass.upper (Covers (SegmentKind.before source)) Path.Reports
      (SegmentKind.before source).length rest (scan source) := by
  cases hkind : SegmentKind.ofText source with
  | path =>
    rw [SegmentKind.before_path hkind] at hsplit ⊢
    obtain rfl : source = rest := hsplit
    rw [scan, hkind]
    exact (Path.scan_outcome source).map fun front path h => ⟨rfl, h⟩
  | domain =>
    obtain ⟨host, hfound⟩ := hhost hkind
    rcases SegmentKind.leading_split source with hwhole | ⟨tail, hslash⟩
    · rw [SegmentKind.before_whole hkind hwhole] at hsplit ⊢
      obtain rfl : rest = [] := by simpa using hsplit
      rw [hwhole] at hfound
      rw [scan_whole hkind hwhole hfound]
      have hviable : Viable Grammar.path [] := Path.viable_iff.mpr ⟨.fresh, rfl⟩
      exact .error rfl ⟨.of_nil hviable, fun h => absurd h Path.nil_notMem_path⟩ (by simp)
        (by simp [Path.Reports])
    · have hclear : '/' ∉ SegmentKind.leading source := SegmentKind.slash_notMem_leading
      generalize SegmentKind.leading source = segment at hfound hslash hclear
      subst hslash
      rw [SegmentKind.before_slash hkind hclear] at hsplit ⊢
      obtain rfl : tail = rest := by simpa using hsplit
      have hpath := Scan.behind_outcome Path.scan_outcome (fun n _ _ _ h => Path.Covers.shift n h)
        (segment ++ ['/']) tail
      have hlength : ((segment ++ ['/']).length : Int) = segment.length + 1 := by simp
      have htext : segment ++ ['/'] ++ tail = segment ++ '/' :: tail := by simp
      rw [scan_slash hkind hclear hfound]
      rw [hlength, htext] at hpath
      rw [hlength]
      refine hpath.map fun front path h => ⟨⟨segment, rfl, ?_⟩, h⟩
      exact (Host.scan_sound hfound).2

theorem host_of_scan {found : Scanned Name} (h : scan source = .ok found)
    (hkind : SegmentKind.ofText source = .domain) :
    ∃ host, Host.scan (SegmentKind.leading source) = .ok host := by
  rw [scan, hkind] at h
  obtain ⟨host, hhost, -⟩ := bind_eq_ok h
  exact ⟨host, hhost⟩

theorem scan_ok {found : Scanned Name} (h : scan source = .ok found) :
    ∃ p rest, source = SegmentKind.before source ++ (p ++ rest) ∧
      Covers (SegmentKind.before source) (SegmentKind.before source).length p found.value := by
  obtain ⟨tail, hsplit⟩ := SegmentKind.before_split source
  have houtcome := scan_outcome (host_of_scan h) hsplit
  rw [h] at houtcome
  cases houtcome with
  | @ok p rest _ split _ _ _ holds => exact ⟨p, rest, split ▸ hsplit, holds⟩

theorem scan_span {found : Scanned Name} (h : scan source = .ok found) :
    found.value.span = ⟨0, found.stop⟩ := by
  obtain ⟨tail, hsplit⟩ := SegmentKind.before_split source
  have houtcome := scan_outcome (host_of_scan h) hsplit
  rw [h] at houtcome
  cases houtcome with
  | ok _ _ _ stop holds => rw [Covers.span holds, stop]

theorem scan_stop_le {found : Scanned Name} (h : scan source = .ok found) :
    found.stop ≤ source.length := by
  obtain ⟨rest, hsplit⟩ := SegmentKind.before_split source
  have houtcome := scan_outcome (host_of_scan h) hsplit
  have hlength := congrArg List.length hsplit
  rw [h] at houtcome
  rw [List.length_append] at hlength
  have hstop := houtcome.stop_le
  omega

theorem scan_span_le {found : Scanned Name} (h : scan source = .ok found) :
    found.value.span.length ≤ source.length := by
  rw [scan_span h]
  exact scan_stop_le h

theorem scan_ok_upper {found : Scanned Name} (h : scan source = .ok found)
    (hsplit : source = front ++ rest) (hstop : found.stop = front.length) :
    ∀ c ∈ rest.head?, CharClass.upper c = false := by
  subst hsplit
  rw [scan] at h
  split at h
  · obtain ⟨host, -, h⟩ := bind_eq_ok h
    split at h
    · cases h
    · obtain ⟨path, hpath, h⟩ := bind_eq_ok h
      obtain ⟨inner, hinner, rfl⟩ := Scan.behind_eq_ok hpath
      cases h
      have hnonneg : 0 ≤ inner.stop := Path.scan_stop_nonneg hinner
      have hplace :
          inner.stop + ((SegmentKind.leading (front ++ rest)).length + 1) = front.length := hstop
      have hupper := Path.scan_ok_upper hinner
      rw [List.drop_drop, show ((SegmentKind.leading (front ++ rest)).length + 1 : Int).toNat +
        inner.stop.toNat = front.length by omega, List.drop_left] at hupper
      exact hupper
  · obtain ⟨path, hpath, rfl⟩ := map_eq_ok h
    have hupper := Path.scan_ok_upper hpath
    have hplace : path.stop = front.length := hstop
    rwa [hplace, Int.toNat_natCast, List.drop_left] at hupper

end Name

end ImageReference
