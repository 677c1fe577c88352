import ImageReference.Proofs.Reference

/-!
# The pieces of a reference

A text has at most one decomposition into a domain, a path, a tag and a digest.
A scan finds it exactly if there is one, and the accessors of what it finds cut
the pieces out of the source.
-/

namespace ImageReference

def marked (mark : Char) : Option Text → Text
  | none => []
  | some text => mark :: text

def opened : Option Text → Text
  | none => []
  | some domain => domain ++ ['/']

@[ext] structure Pieces where
  domain : Option Text
  path : Text
  tag : Option Text
  digest : Option Text
deriving DecidableEq

namespace Pieces

def name (d : Pieces) : Text := opened d.domain ++ d.path

def text (d : Pieces) : Text := d.name ++ marked ':' d.tag ++ marked '@' d.digest

end Pieces

def Reference.pieces (r : Reference) : Pieces := ⟨r.domain, r.path, r.tag, r.digest⟩

/-- Whether a source has a domain in front of its path, by the text before its first slash. -/
def HasDomain (source : Text) : Prop :=
  source.head? = some '[' ∨ ('/' ∈ source ∧
    ('.' ∈ source.takeWhile (· != '/') ∨ ':' ∈ source.takeWhile (· != '/') ∨
      source.takeWhile (· != '/') = "localhost".toList))

/-- The pieces are in their grammars and make up the source. -/
structure Decomposes (source : Text) (d : Pieces) : Prop where
  text_eq : d.text = source
  domain_iff : d.domain.isSome = true ↔ HasDomain source
  domain_eq : ∀ domain ∈ d.domain, domain = source.takeWhile (· != '/')
  domain_mem : ∀ domain ∈ d.domain, domain ∈ Grammar.domain
  path_mem : d.path ∈ Grammar.path
  tag_mem : ∀ tag ∈ d.tag, tag ∈ Grammar.tag
  digest_mem : ∀ digest ∈ d.digest, digest ∈ Grammar.digest

variable {α : Type} {L : Language Char} {mark : Char} {source a b front before : Text} {start : Int}

theorem marked_mem {piece : Option Text} (h : ∀ text ∈ piece, text ∈ L) :
    marked mark piece ∈ Grammar.optional ({[mark]} * L) := by
  cases piece with
  | none => exact nil_mem_marked
  | some text => exact mem_marked_cons.mpr (h text rfl)

theorem marked_inj {piece piece' : Option Text} (h : marked mark piece = marked mark piece') :
    piece = piece' := by
  cases piece <;> cases piece' <;> simp_all [marked]

theorem opened_inj {piece piece' : Option Text} (h : opened piece = opened piece') :
    piece = piece' := by
  cases piece <;> cases piece' <;> simp_all [opened]

theorem Spans.text_eq {span : Span} (h : Spans L a.length front span) :
    span.text (a ++ (front ++ b)) = front := by
  rw [← List.append_assoc]
  exact Span.text_append h.2

theorem MarkedHolds.pieces_eq {f : α → Span} {value : Option α}
    (h : MarkedHolds mark (fun start front value => Spans L start front (f value)) a.length front
      value) :
    front = marked mark (value.map fun value => (f value).text (a ++ (front ++ b))) ∧
      ∀ text ∈ value.map fun value => (f value).text (a ++ (front ++ b)), text ∈ L := by
  cases value with
  | none => exact ⟨h, by simp⟩
  | some value =>
    obtain ⟨tail, rfl, hspans⟩ := h
    have hplace : (a.length : Int) + 1 = ((a ++ [mark]).length : Nat) := by simp
    rw [hplace] at hspans
    have hpiece : (f value).text (a ++ (mark :: tail ++ b)) = tail := by
      rw [show a ++ (mark :: tail ++ b) = (a ++ [mark]) ++ (tail ++ b) by simp]
      exact hspans.text_eq
    rw [Option.map_some, hpiece]
    refine ⟨rfl, fun text hmem => ?_⟩
    obtain rfl : tail = text := Option.some_inj.mp hmem
    exact hspans.1

namespace Reference

variable {r : Reference} {p t g : Text}

theorem path_eq (h : Name.Covers before before.length p ⟨r.domainHost, r.pathSpans⟩)
    (hsource : r.source = before ++ (p ++ (t ++ g))) : r.path = p := by
  rw [path, hsource]
  exact h.2.text_eq

theorem tag_eq
    (h : MarkedHolds ':' (Spans Grammar.tag) (before.length + p.length) t r.tagSpan)
    (hsource : r.source = before ++ (p ++ (t ++ g))) :
    t = marked ':' r.tag ∧ ∀ tag ∈ r.tag, tag ∈ Grammar.tag := by
  rw [← Int.natCast_add, ← List.length_append] at h
  have hpieces := MarkedHolds.pieces_eq (f := id) (b := g) h
  rw [tag, hsource, ← List.append_assoc]
  exact hpieces

theorem digest_eq
    (h : MarkedHolds '@' Digest.Covers (before.length + p.length + t.length) g r.digestSpans)
    (hsource : r.source = before ++ (p ++ (t ++ g))) :
    g = marked '@' r.digest ∧ ∀ digest ∈ r.digest, digest ∈ Grammar.digest := by
  have hspans := h.mono fun _ _ _ => Digest.Covers.span
  rw [← Int.natCast_add, ← Int.natCast_add, ← List.length_append, ← List.length_append] at hspans
  have hpieces := MarkedHolds.pieces_eq (f := Digest.span) (b := []) hspans
  rw [digest, hsource]
  simpa using hpieces

theorem domain_eq {rest : Text} (h : Name.DomainCovers before r.domainHost)
    (hsource : r.source = before ++ rest) :
    before = opened r.domain ∧ ∀ domain ∈ r.domain, domain ∈ Grammar.domain := by
  cases hhost : r.domainHost with
  | none =>
    rw [hhost] at h
    obtain rfl : before = [] := h
    simp [domain, hhost, opened]
  | some host =>
    rw [hhost] at h
    obtain ⟨segment, rfl, hcovers⟩ := h
    have hspan : Spans Grammar.domain (([] : Text).length : Nat) segment host.domainSpan :=
      hcovers.domainSpan
    have hdomain : r.domain = some segment := by
      rw [domain, hhost, hsource, List.append_assoc]
      exact congrArg some (hspan.text_eq (a := []))
    rw [hdomain]
    refine ⟨rfl, fun domain hmem => ?_⟩
    obtain rfl : segment = domain := Option.some_inj.mp hmem
    exact hspan.1

end Reference

theorem hasDomain_iff : HasDomain source ↔ SegmentKind.ofText source = .domain :=
  SegmentKind.ofText_eq_domain_iff.symm

theorem Pieces.text_split (d : Pieces) :
    d.text = opened d.domain ++ (d.path ++ (marked ':' d.tag ++ marked '@' d.digest)) := by
  simp [Pieces.text, Pieces.name]

namespace Decomposes

variable {d d' : Pieces}

theorem rest_mem (h : Decomposes source d) : marked ':' d.tag ++ marked '@' d.digest ∈
    Grammar.optional ({[':']} * Grammar.tag) * Grammar.optional ({['@']} * Grammar.digest) :=
  Language.append_mem_mul (marked_mem h.tag_mem) (marked_mem h.digest_mem)

theorem domain_unique (h : Decomposes source d) (h' : Decomposes source d') :
    d.domain = d'.domain := by
  cases hd : d.domain with
  | none =>
    have hnot : ¬ HasDomain source := by
      rw [← h.domain_iff, hd]
      simp
    cases hd' : d'.domain with
    | none => rfl
    | some domain => exact absurd (h'.domain_iff.mp (by rw [hd']; rfl)) hnot
  | some domain =>
    have hhas : HasDomain source := h.domain_iff.mp (by rw [hd]; rfl)
    obtain ⟨domain', hd'⟩ := Option.isSome_iff_exists.mp (h'.domain_iff.mpr hhas)
    rw [hd', h.domain_eq domain hd, h'.domain_eq domain' hd']

theorem unique (h : Decomposes source d) (h' : Decomposes source d') : d = d' := by
  have hdomain := h.domain_unique h'
  have hrest : d.path ++ (marked ':' d.tag ++ marked '@' d.digest) =
      d'.path ++ (marked ':' d'.tag ++ marked '@' d'.digest) := by
    have htext := h.text_eq.trans h'.text_eq.symm
    rw [Pieces.text_split, Pieces.text_split, hdomain] at htext
    exact List.append_cancel_left htext
  obtain ⟨hpath, hmarked⟩ :=
    Reference.parted_path.mul_inj h.path_mem h.rest_mem h'.path_mem h'.rest_mem hrest
  obtain ⟨htag, hdigest⟩ := Reference.parted_tag.mul_inj (marked_mem h.tag_mem)
    (marked_mem h.digest_mem) (marked_mem h'.tag_mem) (marked_mem h'.digest_mem) hmarked
  exact Pieces.ext hdomain hpath (marked_inj htag) (marked_inj hdigest)

theorem before_eq (h : Decomposes source d) : SegmentKind.before source = opened d.domain := by
  cases hd : d.domain with
  | none =>
    have hnot : ¬ HasDomain source := by
      rw [← h.domain_iff, hd]
      simp
    rcases SegmentKind.before_cases source with ⟨-, hbefore⟩ | ⟨hkind, -⟩ | ⟨hkind, -⟩
    · exact hbefore
    · exact absurd (hasDomain_iff.mpr hkind) hnot
    · exact absurd (hasDomain_iff.mpr hkind) hnot
  | some domain =>
    have hhas : HasDomain source := h.domain_iff.mp (by rw [hd]; rfl)
    have hsplit := h.text_eq
    rw [Pieces.text_split, hd] at hsplit
    rcases SegmentKind.before_cases source with ⟨hkind, -⟩ | ⟨-, hslash, -⟩ | ⟨-, hbefore, -⟩
    · rw [hasDomain_iff, hkind] at hhas
      cases hhas
    · refine absurd ?_ hslash
      rw [← hsplit]
      simp [opened]
    · rw [hbefore, h.domain_eq domain hd]
      rfl

end Decomposes

namespace Reference

theorem domain_of_opened {piece : Option Text} (h : SegmentKind.before source = opened piece) :
    (¬ HasDomain source ∧ piece = none) ∨
      (HasDomain source ∧ piece = some (SegmentKind.leading source)) := by
  rcases SegmentKind.before_cases source with ⟨hkind, hbefore⟩ | ⟨hkind, hslash, hbefore⟩ |
    ⟨hkind, hbefore, -⟩
  · have hnot : ¬ HasDomain source := by
      rw [hasDomain_iff, hkind]
      simp
    cases piece with
    | none => exact .inl ⟨hnot, rfl⟩
    | some domain => simp [hbefore, opened] at h
  · cases piece with
    | none =>
      obtain rfl : source = [] := hbefore.symm.trans h
      cases hkind
    | some domain =>
      refine absurd ?_ hslash
      rw [← hbefore, h]
      simp [opened]
  · refine .inr ⟨hasDomain_iff.mpr hkind, ?_⟩
    rw [hbefore] at h
    cases piece with
    | none => simp [opened] at h
    | some domain => rw [List.append_cancel_right h]

/-- The spans of a reference lie where its pieces stand in the source. -/
structure Laid (source : Text) (r : Reference) : Prop where
  source_eq : r.source = source
  before_eq : SegmentKind.before source = opened r.domain
  split : source = opened r.domain ++ (r.path ++ (marked ':' r.tag ++ marked '@' r.digest))
  nameCovers : Name.Covers (opened r.domain) (opened r.domain).length r.path
    ⟨r.domainHost, r.pathSpans⟩
  tagHolds : MarkedHolds ':' (Spans Grammar.tag) ((opened r.domain).length + r.path.length)
    (marked ':' r.tag) r.tagSpan
  digestHolds : MarkedHolds '@' Digest.Covers
    ((opened r.domain).length + r.path.length + (marked ':' r.tag).length) (marked '@' r.digest)
    r.digestSpans

theorem scan_laid {found : Scanned Reference} (h : scan source = .ok found) :
    Laid source found.value := by
  obtain ⟨hsource, rest, hsplit, p, back, rfl, hname, t, g, rfl, htag, hdigest⟩ := scan_ok h
  have hsplit' := hsource.trans hsplit
  have hopened := (domain_eq hname.1 hsplit').1
  have ht := (tag_eq htag hsplit').1
  have hg := (digest_eq hdigest hsplit').1
  have hpath := path_eq hname hsplit'
  rw [hopened] at hname htag hdigest hsplit
  rw [ht] at hdigest hsplit
  rw [ht] at htag
  rw [hg] at hdigest hsplit
  rw [← hpath] at hname htag hdigest hsplit
  exact ⟨hsource, hopened, hsplit, hname, htag, hdigest⟩

namespace Laid

variable {r : Reference}

theorem decomposes (h : Laid source r) : Decomposes source r.pieces := by
  have hsplit := h.source_eq.trans h.split
  have hcases := domain_of_opened h.before_eq
  refine ⟨?_, ?_, ?_, (domain_eq h.nameCovers.1 hsplit).2, h.nameCovers.2.1,
    (tag_eq h.tagHolds hsplit).2, (digest_eq h.digestHolds hsplit).2⟩
  · exact (Pieces.text_split _).trans h.split.symm
  · change r.domain.isSome = true ↔ _
    rcases hcases with ⟨hnot, hnone⟩ | ⟨hhas, hsome⟩
    · simp [hnone, hnot]
    · simp [hsome, hhas]
  · intro domain hmem
    rcases hcases with ⟨-, hnone⟩ | ⟨-, hsome⟩
    · cases hnone.symm.trans hmem
    · exact Option.some_inj.mp (hmem.symm.trans hsome)

theorem nameSpan_eq (h : Laid source r) : r.nameSpan = ⟨0, r.pieces.name.length⟩ := by
  rw [nameSpan, h.nameCovers.span, Pieces.name, List.length_append, Int.natCast_add]
  rfl

theorem digest_source {spans : Digest} (h : Laid source r) (hspans : r.digestSpans = some spans) :
    ∃ front tail, r.digest = some tail ∧ r.source = front ++ tail ∧
      Digest.Covers front.length tail spans := by
  have hdigest := h.digestHolds
  rw [hspans] at hdigest
  obtain ⟨tail, hmarked, hcovers⟩ := hdigest
  have hpiece : r.digest = some tail := marked_inj hmarked
  refine ⟨opened r.domain ++ r.path ++ marked ':' r.tag ++ ['@'], tail, hpiece, ?_, ?_⟩
  · have hsplit := h.split
    rw [hpiece] at hsplit
    rw [h.source_eq, hsplit]
    simp [marked]
  · simpa [List.length_append, Int.add_assoc] using hcovers

theorem digest_parts {spans : Digest} (h : Laid source r) (hspans : r.digestSpans = some spans) :
    ∃ front, ∃ algorithm ∈ Grammar.algorithm, ∃ encoded ∈ Grammar.encoded,
      source = front ++ (algorithm ++ ':' :: encoded) ∧
      spans.algorithm = ⟨front.length, algorithm.length⟩ ∧
      spans.encoded = ⟨front.length + algorithm.length + 1, encoded.length⟩ ∧
      r.digest = some (algorithm ++ ':' :: encoded) ∧ r.digestAlgorithm = some algorithm ∧
      r.digestEncoded = some encoded := by
  obtain ⟨front, tail, hdigest, hsource, a, e, rfl, halgorithm, hencoded⟩ := h.digest_source hspans
  have halgorithmText : r.digestAlgorithm = some a := by
    rw [digestAlgorithm, hspans, hsource]
    exact congrArg some halgorithm.text_eq
  have hencodedText : r.digestEncoded = some e := by
    have hplace : (front.length : Int) + a.length + 1 = (front ++ (a ++ [':'])).length := by
      simp only [List.length_append, List.length_singleton]
      omega
    have htext : front ++ (a ++ ':' :: e) = front ++ (a ++ [':']) ++ (e ++ []) := by simp
    rw [hplace] at hencoded
    rw [digestEncoded, hspans, hsource, htext]
    exact congrArg some hencoded.text_eq
  exact ⟨front, a, halgorithm.1, e, hencoded.1, h.source_eq.symm.trans hsource, halgorithm.2,
    hencoded.2, hdigest, halgorithmText, hencodedText⟩

end Laid

theorem scan_of_decomposes {d : Pieces} (h : Decomposes source d) :
    ∃ found, scan source = .ok found := by
  have hbefore := h.before_eq
  have hsplit : source = opened d.domain ++ (d.path ++ (marked ':' d.tag ++ marked '@' d.digest)) :=
    h.text_eq.symm.trans d.text_split
  have hhost : SegmentKind.ofText source = .domain →
      ∃ host, Host.scan (SegmentKind.leading source) = .ok host := by
    intro hkind
    obtain ⟨domain, hd⟩ := Option.isSome_iff_exists.mp (h.domain_iff.mpr (hasDomain_iff.mpr hkind))
    have hleading : domain = SegmentKind.leading source := h.domain_eq domain hd
    rw [← hleading]
    exact Host.scan_complete (h.domain_mem domain hd)
  have hmem := Language.append_mem_mul h.path_mem h.rest_mem
  have houtcome := scan_outcome hhost hbefore hsplit
  rw [← List.append_nil (d.path ++ _)] at houtcome
  obtain ⟨found, hfound, -⟩ := houtcome.ok_of_mem hmem (.of_nil (.of_mem hmem)) (by simp)
  exact ⟨found, hfound⟩

end Reference

end ImageReference
