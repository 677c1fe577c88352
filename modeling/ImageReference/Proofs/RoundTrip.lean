import ImageReference.Proofs.Accepts

/-!
# Rebuilding a source

The spans of an accepted reference cover its source without gaps, so the
accessors put together give the source again, whole and in each of its parts.
-/

namespace ImageReference.Reference

variable {source : Text} {limits : Limits} {r : Reference}

/-- The accessors of a reference rebuild its source, and none of them returns an empty text. -/
structure Rebuilds (limits : Limits) (source : Text) (r : Reference) : Prop where
  source_eq : r.source = source
  render_eq : r.render = source
  parse_render : parse r.render limits = .ok r
  text_eq : r.name ++ marked ':' r.tag ++ marked '@' r.digest = source
  name_eq : r.name = opened r.domain ++ r.path
  domain_eq : (r.domain = none ∧ r.hostname = none ∧ r.port = none) ∨
    ∃ hostname, r.hostname = some hostname ∧ r.domain = some (hostname ++ marked ':' r.port)
  digest_eq : (r.digest = none ∧ r.digestAlgorithm = none ∧ r.digestEncoded = none) ∨
    ∃ algorithm encoded, r.digestAlgorithm = some algorithm ∧ r.digestEncoded = some encoded ∧
      r.digest = some (algorithm ++ ':' :: encoded)
  required_ne : r.name ≠ [] ∧ r.path ≠ []
  optional_ne : ∀ accessor ∈ [r.domain, r.hostname, r.port, r.tag, r.digest, r.digestAlgorithm,
    r.digestEncoded], accessor ≠ some []

namespace Laid

theorem render_eq (h : Laid source r) : r.render = source := by
  have htext := h.decomposes.text_eq
  rw [Pieces.text_split] at htext
  have hrender : r.render = opened r.domain ++ r.path ++ marked ':' r.tag ++ marked '@' r.digest :=
    rfl
  rw [hrender, ← htext]
  simp [pieces]

theorem name_eq (h : Laid source r) : r.name = opened r.domain ++ r.path := by
  have hdomain := h.nameCovers.1
  have hpath := h.nameCovers.2.2
  have hstop : r.pathSpans.span.stop = (opened r.domain ++ r.path).length := by
    simp [show r.pathSpans.span = _ from hpath, Span.stop]
  have hsource : r.source =
      opened r.domain ++ r.path ++ (marked ':' r.tag ++ marked '@' r.digest) := by
    rw [h.source_eq, List.append_assoc]
    exact h.split
  have hcut : slice r.source 0 r.pathSpans.span.stop = opened r.domain ++ r.path := by
    have hspan := @Span.text_append [] (opened r.domain ++ r.path)
      (marked ':' r.tag ++ marked '@' r.digest) ⟨0, r.pathSpans.span.stop⟩ (by rw [hstop]; rfl)
    rw [hsource]
    simpa [Span.text, Span.stop] using hspan
  rw [Reference.name]
  cases hhost : r.domainHost with
  | none =>
    rw [hhost] at hdomain
    have hempty : opened r.domain = [] := hdomain
    have hoffset : r.pathSpans.span.offset = 0 := by
      simp [show r.pathSpans.span = _ from hpath, hempty]
    simp only [hoffset]
    exact hcut
  | some host =>
    rw [hhost] at hdomain
    obtain ⟨segment, -, hostname, tail, -, ⟨-, hspan⟩, -⟩ := hdomain
    have hoffset : host.span.offset = 0 := by rw [hspan]
    simp only [hoffset]
    exact hcut

theorem domain_cases (h : Laid source r) :
    (r.domain = none ∧ r.hostname = none ∧ r.port = none) ∨
      ∃ hostname ∈ Grammar.host, r.hostname = some hostname ∧
        r.domain = some (hostname ++ marked ':' r.port) ∧ ∀ port ∈ r.port, port ∈ Grammar.port := by
  have hcovers := h.nameCovers.1
  cases hhost : r.domainHost with
  | none => simp [domain, hostname, port, hhost]
  | some host =>
    rw [hhost] at hcovers
    obtain ⟨segment, hopened, name, tail, rfl, hname, hport⟩ := hcovers
    rw [Int.zero_add] at hport
    have hdomain : r.domain = some (name ++ tail) := by
      cases hdomain : r.domain with
      | none => simp [opened, hdomain] at hopened
      | some domain =>
        rw [hdomain] at hopened
        rw [List.append_cancel_right hopened]
    have hsource : r.source = name ++ (tail ++ ('/' :: (r.path ++ (marked ':' r.tag ++
        marked '@' r.digest)))) := by
      rw [h.source_eq, h.split, hopened]
      simp
    have hhostname : r.hostname = some name := by
      have hspan : Spans Grammar.host (([] : Text).length : Nat) name host.span := hname
      rw [hostname, hhost, hsource]
      exact congrArg some (hspan.text_eq (a := []))
    have hpieces := MarkedHolds.pieces_eq (f := id) (b := '/' :: (r.path ++ (marked ':' r.tag ++
      marked '@' r.digest))) hport
    have hportEq : r.port = host.port.map fun port => port.text r.source := by
      rw [port, hhost]
      rfl
    rw [← hsource] at hpieces
    rw [hportEq, hdomain]
    exact .inr ⟨name, hname.1, hhostname, congrArg (some <| name ++ ·) hpieces.1, hpieces.2⟩

theorem digest_cases (h : Laid source r) :
    (r.digest = none ∧ r.digestAlgorithm = none ∧ r.digestEncoded = none) ∨
      ∃ algorithm ∈ Grammar.algorithm, ∃ encoded ∈ Grammar.encoded,
        r.digestAlgorithm = some algorithm ∧ r.digestEncoded = some encoded ∧
          r.digest = some (algorithm ++ ':' :: encoded) := by
  cases hspans : r.digestSpans with
  | none => simp [digest, digestAlgorithm, digestEncoded, hspans]
  | some spans =>
    obtain ⟨front, a, ha, e, he, -, -, -, hdigest, halgorithm, hencoded⟩ := h.digest_parts hspans
    exact .inr ⟨a, ha, e, he, halgorithm, hencoded, hdigest⟩

theorem optional_ne (h : Laid source r) : ∀ accessor ∈ [r.domain, r.hostname, r.port, r.tag,
    r.digest, r.digestAlgorithm, r.digestEncoded], accessor ≠ some [] := by
  have htag : r.tag ≠ some [] := fun he => Tag.nil_notMem_tag (h.decomposes.tag_mem [] he)
  have hdomain : r.domain ≠ some [] ∧ r.hostname ≠ some [] ∧ r.port ≠ some [] := by
    rcases h.domain_cases with ⟨hdomain, hhostname, hport⟩ |
      ⟨host, hhost, hhostname, hdomain, hport⟩
    · simp [hdomain, hhostname, hport]
    · have hne : host ≠ [] := fun he => Host.nil_notMem_host (he ▸ hhost)
      refine ⟨by simp [hdomain, hne], by simp [hhostname, hne], fun he => ?_⟩
      exact absurd (hport [] he).1 (by simp)
  have hdigest : r.digest ≠ some [] ∧ r.digestAlgorithm ≠ some [] ∧ r.digestEncoded ≠ some [] := by
    rcases h.digest_cases with ⟨hdigest, halgorithm, hencoded⟩ |
      ⟨a, ha, e, he, halgorithm, hencoded, hdigest⟩
    · simp [hdigest, halgorithm, hencoded]
    · have hane : a ≠ [] := fun heq =>
        @Compliance.nil_notMem_algorithm .distribution (heq ▸ ha)
      have hene : e ≠ [] := fun heq => absurd (heq ▸ he).1 (by simp)
      simp [hdigest, halgorithm, hencoded, hane, hene]
  simp [htag, hdomain, hdigest]

end Laid

/-- For every source that is accepted, be it a text or bytes that were decoded to one. -/
theorem parse_rebuilds (h : parse source limits = .ok r) : Rebuilds limits source r := by
  obtain ⟨stop, hscan, -⟩ := parse_ok_iff.mp h
  have hlaid : Laid source r := scan_laid hscan
  have hpath : r.path ≠ [] := fun he => Path.nil_notMem_path (he ▸ hlaid.decomposes.path_mem)
  refine ⟨hlaid.source_eq, hlaid.render_eq, by rw [hlaid.render_eq, h], ?_, hlaid.name_eq, ?_, ?_,
    ?_, hlaid.optional_ne⟩
  · rw [hlaid.name_eq]
    exact hlaid.decomposes.text_eq
  · rcases hlaid.domain_cases with hnone | ⟨hostname, -, hhostname, hdomain, -⟩
    · exact .inl hnone
    · exact .inr ⟨hostname, hhostname, hdomain⟩
  · rcases hlaid.digest_cases with hnone | ⟨a, -, e, -, halgorithm, hencoded, hdigest⟩
    · exact .inl hnone
    · exact .inr ⟨a, e, halgorithm, hencoded, hdigest⟩
  · rw [hlaid.name_eq]
    exact ⟨by simp [hpath], hpath⟩

theorem parse_rebuilds_short : ∃ r, parse "x.y:1/p_q:t".toList = .ok r ∧
    Rebuilds {} "x.y:1/p_q:t".toList r := ⟨_, rfl, parse_rebuilds rfl⟩

end ImageReference.Reference
