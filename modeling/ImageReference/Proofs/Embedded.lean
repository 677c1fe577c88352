import ImageReference.Proofs.Alphabet
import ImageReference.Proofs.Judge
import ImageReference.Proofs.Pieces
import ImageReference.Proofs.Settled
import ImageReference.Proofs.Window

/-!
# Digests in references

An at sign and a text behind a reference without a digest make up a reference
exactly if the text is a digest on its own. The name and the tag stay what they
were, and the text is judged as it is alone, with its places moved. Only a slash
in the text can make a domain of a reference that has no slash itself; then
neither the whole nor the text is accepted.
-/

namespace ImageReference.Reference

variable {source text : Text} {limits : Limits} {r : Reference} {digest : Digest}

def withDigest (r : Reference) (text : Text) (digest : Digest) : Reference :=
  ⟨r.source ++ '@' :: text, r.domainHost, r.pathSpans, r.tagSpan,
    some (shift (r.source.length + 1 : Int) digest)⟩

theorem digestSpans_eq_none (h : r.digest = none) : r.digestSpans = none :=
  Option.map_eq_none_iff.mp h

theorem at_split (source text : Text) : source ++ '@' :: text = (source ++ ['@']) ++ text := by
  simp

theorem length_at (source : Text) : ((source ++ ['@']).length : Int) = source.length + 1 := by
  rw [List.length_append, List.length_singleton, Int.natCast_add]
  rfl

theorem check_at {registry : Registry} (h : Digest.Fills .distribution text digest)
    (source : Text) : (shift (source.length + 1 : Int) digest).check registry true
        (source ++ '@' :: text) =
      (digest.check registry true text).mapError (shift (source.length + 1 : Int)) := by
  obtain ⟨halgorithm, hencoded⟩ := h.forward
  rw [at_split, ← length_at]
  exact Digest.check_shift halgorithm hencoded

theorem longName_at {found : Scanned Reference} {limit : Int} (hscan : scan source = .ok found)
    (hkind : SegmentKind.ofText (source ++ '@' :: text) = SegmentKind.ofText source)
    (h : LongName (source ++ '@' :: text) limit) : LongName source limit := by
  obtain ⟨name, hname, -⟩ := bind_eq_ok hscan
  obtain ⟨other, hother, hlong⟩ := h
  cases (Name.scan_at hname hkind).symm.trans hother
  exact ⟨name, hname, hlong⟩

theorem parse_at (hparse : parse source limits = .ok r) (hnone : r.digestSpans = none)
    (hkind : SegmentKind.ofText (source ++ '@' :: text) = SegmentKind.ofText source) :
    parse (source ++ '@' :: text) limits =
      ((Digest.judge .referenceInvalidFormat .distribution limits.registry text).mapError
        (shift (source.length + 1 : Int))).map (r.withDigest text) := by
  obtain ⟨stop, hscan, hlength, -⟩ := parse_ok_iff.mp hparse
  have hsource : r.source = source := (scan_ok hscan).1
  have hne : source ++ '@' :: text ≠ [] := by simp
  have hshort : ¬ LongName (source ++ '@' :: text) limits.maxNameLength := by
    intro hlong
    have hname := (longName_iff hscan).mp (longName_at hscan hkind hlong)
    exact Int.not_lt.mpr hlength hname
  have hat := scan_at hscan hnone hkind
  have htotal : ((source ++ '@' :: text).length : Int) = text.length + (source.length + 1) := by
    rw [List.length_append, List.length_cons]
    omega
  cases hdigest : Digest.scan .distribution text with
  | error failure =>
    rw [hdigest] at hat
    rw [parse_scan_error hne hshort hat, Digest.judge_scan_error hdigest]
    rfl
  | ok found =>
    rw [hdigest] at hat
    change _ = (if found.stop + (source.length + 1 : Int) < _ then _ else _) at hat
    by_cases hleft : found.stop < text.length
    · rw [if_pos (by omega)] at hat
      rw [parse_scan_error hne hshort hat, Digest.judge_short hdigest hleft]
      rfl
    · rw [if_neg (by omega)] at hat
      have hfills : Digest.Fills .distribution text found.value := ⟨found.stop, hdigest, by omega⟩
      rw [parse_scan_ok hne hshort hat, Digest.judge_whole hdigest (by omega)]
      change Except.map _ ((shift (source.length + 1 : Int) found.value).check _ true _) = _
      have hrequired : (Compliance.distribution == Compliance.distribution ||
          found.value.compliance == Compliance.distribution) = true := rfl
      rw [check_at hfills, hrequired]
      subst hsource
      cases found.value.check limits.registry true text <;> rfl

namespace Laid

theorem split_at (h : Laid source r) (hnone : r.digestSpans = none) (text : Text) :
    source ++ '@' :: text =
      opened r.domain ++ (r.path ++ (marked ':' r.tag ++ marked '@' (some text))) := by
  have hdigest : r.digest = none := Option.map_eq_none_iff.mpr hnone
  have hsplit := h.split
  rw [hdigest] at hsplit
  rw [hsplit]
  simp [marked]

theorem withDigest_pieces (h : Laid source r) (hnone : r.digestSpans = none)
    (hfills : Digest.Fills .distribution text digest) :
    (r.withDigest text digest).pieces = ⟨r.domain, r.path, r.tag, some text⟩ := by
  have hsource : (r.withDigest text digest).source =
      opened r.domain ++ (r.path ++ (marked ':' r.tag ++ marked '@' (some text))) := by
    rw [← h.split_at hnone text, ← h.source_eq]
    rfl
  have hcovers : Digest.Covers (0 + (r.source.length + 1 : Int)) text
      (shift (r.source.length + 1 : Int) digest) :=
    Digest.CoversIn.shift _ (hfills.covers (by decide)).2
  have hlength : (r.source.length : Int) =
      (opened r.domain).length + r.path.length + (marked ':' r.tag).length := by
    have htotal := congrArg List.length (h.split_at hnone text)
    rw [h.source_eq]
    simp only [List.length_append, marked, List.length_cons] at htotal ⊢
    omega
  have hdomain : Name.DomainCovers (opened r.domain) (r.withDigest text digest).domainHost :=
    h.nameCovers.1
  have htag : MarkedHolds ':' (Spans Grammar.tag) ((opened r.domain).length + r.path.length)
      (marked ':' r.tag) (r.withDigest text digest).tagSpan := h.tagHolds
  have hdigest : MarkedHolds '@' Digest.Covers
      ((opened r.domain).length + r.path.length + (marked ':' r.tag).length)
      (marked '@' (some text)) (r.withDigest text digest).digestSpans := by
    rw [← hlength]
    refine ⟨text, rfl, ?_⟩
    rwa [Int.zero_add] at hcovers
  refine Pieces.ext ?_ ?_ ?_ ?_
  · exact (opened_inj (domain_eq hdomain hsource).1).symm
  · exact path_eq h.nameCovers hsource
  · exact (marked_inj (tag_eq htag hsource).1).symm
  · exact (marked_inj (digest_eq hdigest hsource).1).symm

end Laid

theorem withDigest_components (hfills : Digest.Fills .distribution text digest) :
    (r.withDigest text digest).digestAlgorithmComponents = digest.components.texts text := by
  have hcomponents := hfills.components_forward
  change (shift (r.source.length + 1 : Int) digest.components).texts (r.source ++ '@' :: text) = _
  rw [at_split, ← length_at]
  exact Parts.texts_shift hcomponents

theorem withDigest_encoded (hfills : Digest.Fills .distribution text digest) :
    (r.withDigest text digest).digestEncoded = some (digest.encoded.text text) := by
  have hencoded := hfills.forward.2
  refine congrArg some ?_
  change (shift (r.source.length + 1 : Int) digest.encoded).text (r.source ++ '@' :: text) = _
  rw [at_split, ← length_at]
  exact hencoded.text_shift

theorem slash_of_swayed (h : SwayedBy source ('@' :: text)) (hne : source ≠ []) : '/' ∈ text := by
  obtain ⟨hslash, hhead, hdomain⟩ := h
  rcases hdomain with hfirst | ⟨hmem, -⟩
  · obtain ⟨c, rest, rfl⟩ := List.exists_cons_of_ne_nil hne
    exact absurd hfirst hhead
  · simpa [hslash] using hmem

theorem scan_swayed (h : SwayedBy source ('@' :: text)) (found : Scanned Reference) :
    scan (source ++ '@' :: text) ≠ .ok found := by
  intro hscan
  obtain ⟨host, hhost⟩ := host_of_scan hscan (hasDomain_iff.mp h.2.2)
  have hcovers := (Host.scan_sound hhost).2
  have hat : '@' ∉ SegmentKind.leading (source ++ '@' :: text) :=
    lacks_domain _ hcovers.domainSpan.1
  refine hat ?_
  have hfront : ∀ c ∈ source, (c != '/') = true := by
    intro c hc
    rw [bne_iff_ne]
    rintro rfl
    exact h.1 hc
  rw [SegmentKind.leading, List.takeWhile_append_of_pos hfront]
  simp

theorem parse_swayed (h : SwayedBy source ('@' :: text)) (hne : source ≠ []) :
    (∀ whole, parse (source ++ '@' :: text) limits ≠ .ok whole) ∧
      ∀ d, StandaloneDigest.parse text .distribution limits.registry ≠ .ok d := by
  constructor
  · intro whole hwhole
    obtain ⟨stop, hscan, -⟩ := parse_ok_iff.mp hwhole
    exact scan_swayed h _ hscan
  · intro d hd
    rw [StandaloneDigest.parse_eq_judge] at hd
    obtain ⟨digest, hdigest, -⟩ := map_eq_ok hd
    have hfills := (Digest.judge_eq_ok_iff.mp hdigest).1
    have hmem : text ∈ Grammar.digest := Digest.exists_fills_iff.mp ⟨digest, hfills⟩
    exact lacks_digest text hmem (slash_of_swayed h hne)

/-- How a rejection behind the at sign of a reference goes with that of the digest alone. -/
structure Mirrors (source text : Text) (whole alone : Rejection) : Prop where
  offset_eq : whole.offset = source.length + 1 + alone.offset
  kind_eq : ¬ Digest.Leftover text → whole.kind = alone.kind
  kind_leftover : Digest.Leftover text →
    whole.kind = .referenceInvalidFormat ∧ alone.kind = .digestInvalidFormat

theorem parse_at_cases (hparse : parse source limits = .ok r) (hnone : r.digestSpans = none)
    (hkept : ¬ SwayedBy source ('@' :: text)) :
    (∃ digest, Digest.Fills .distribution text digest ∧
      parse (source ++ '@' :: text) limits = .ok (r.withDigest text digest) ∧
      StandaloneDigest.parse text .distribution limits.registry = .ok ⟨text, digest⟩) ∨
    ∃ e e', parse (source ++ '@' :: text) limits = .error e ∧
      StandaloneDigest.parse text .distribution limits.registry = .error e' ∧
      Mirrors source text e e' := by
  have hkind := SegmentKind.ofText_append hkept
  rw [parse_at hparse hnone hkind, StandaloneDigest.parse_eq_judge]
  rcases Digest.judge_cases .referenceInvalidFormat .digestInvalidFormat limits.registry text with
    ⟨digest, hwhole, halone⟩ | ⟨hnot, e, hwhole, halone⟩ | ⟨hleftover, offset, hwhole, halone⟩
  · rw [hwhole, halone]
    exact .inl ⟨digest, (Digest.judge_eq_ok_iff.mp halone).1, rfl, rfl⟩
  · rw [hwhole, halone]
    refine .inr ⟨_, _, rfl, rfl, Int.add_comm .., fun _ => rfl, fun h => absurd h hnot⟩
  · rw [hwhole, halone]
    refine .inr ⟨_, _, rfl, rfl, Int.add_comm .., fun h => absurd hleftover h, fun _ => ⟨rfl, rfl⟩⟩

/-- Behind the at sign of a reference a text is accepted and rejected as it is alone. -/
theorem parse_at_digest (hparse : parse source limits = .ok r) (hnone : r.digest = none)
    (text : Text) :
    ((∃ whole, parse (source ++ '@' :: text) limits = .ok whole) ↔
      ∃ d, StandaloneDigest.parse text .distribution limits.registry = .ok d) ∧
    (∀ whole d, parse (source ++ '@' :: text) limits = .ok whole →
      StandaloneDigest.parse text .distribution limits.registry = .ok d →
        whole = r.withDigest text d.digest ∧
        whole.domain = r.domain ∧ whole.path = r.path ∧ whole.tag = r.tag ∧
        whole.digest = some text ∧
        whole.digestAlgorithmComponents = d.algorithmComponents ∧
        whole.digestEncoded = some d.encoded) ∧
    ∀ e e', parse (source ++ '@' :: text) limits = .error e →
      StandaloneDigest.parse text .distribution limits.registry = .error e' →
        '/' ∈ source ∨ '/' ∉ text → Mirrors source text e e' := by
  obtain ⟨stop, hscan, -⟩ := parse_ok_iff.mp hparse
  have hne : source ≠ [] := ne_nil_of_scan hscan
  have hspans := digestSpans_eq_none hnone
  have hlaid : Laid source r := scan_laid hscan
  -- A slash in the text can make a domain of the source: then both sides fail.
  by_cases hswayed : SwayedBy source ('@' :: text)
  · obtain ⟨hwhole, halone⟩ := @parse_swayed _ _ limits hswayed hne
    refine ⟨⟨fun h => ?_, fun h => ?_⟩, fun whole d h => absurd h (hwhole whole), ?_⟩
    · obtain ⟨whole, h⟩ := h
      exact absurd h (hwhole whole)
    · obtain ⟨d, h⟩ := h
      exact absurd h (halone d)
    · intro e e' _ _ hslash
      exact absurd hslash (not_or.mpr ⟨hswayed.1, not_not.mpr (slash_of_swayed hswayed hne)⟩)
  · rcases parse_at_cases hparse hspans hswayed with ⟨digest, hfills, hwhole, halone⟩ |
      ⟨e, e', hwhole, halone, hmirrors⟩
    · rw [hwhole, halone]
      have hpieces := hlaid.withDigest_pieces hspans hfills
      obtain ⟨hdomain, hpath, htag, hdigest⟩ := Pieces.mk.inj hpieces
      have hcomponents := withDigest_components (r := r) hfills
      have hencoded := withDigest_encoded (r := r) hfills
      refine ⟨⟨fun _ => ⟨_, rfl⟩, fun _ => ⟨_, rfl⟩⟩, fun whole d h h' => ?_, fun e e' h => ?_⟩
      · cases h
        cases h'
        exact ⟨rfl, hdomain, hpath, htag, hdigest, hcomponents, hencoded⟩
      · cases h
    · rw [hwhole, halone]
      refine ⟨⟨fun h => ?_, fun h => ?_⟩, fun whole d h => ?_, fun f f' h h' _ => ?_⟩
      · obtain ⟨whole, h⟩ := h
        cases h
      · obtain ⟨d, h⟩ := h
        cases h
      · cases h
      · cases h
        cases h'
        exact hmirrors

theorem parse_at_digest_leftover : ∃ r e e', parse "x.y/a:t".toList = .ok r ∧ r.digest = none ∧
    parse ("x.y/a:t".toList ++ '@' :: "md5:00112233445566778899aabbccddeeff.".toList) = .error e ∧
    StandaloneDigest.parse "md5:00112233445566778899aabbccddeeff.".toList = .error e' ∧
    Mirrors "x.y/a:t".toList "md5:00112233445566778899aabbccddeeff.".toList e e' := by
  obtain ⟨r, hparse, hnone⟩ : ∃ r, parse "x.y/a:t".toList = .ok r ∧ r.digest = none := ⟨_, rfl, rfl⟩
  refine ⟨r, _, _, hparse, hnone, rfl, rfl, ?_⟩
  exact (parse_at_digest hparse hnone _).2.2 _ _ rfl rfl (.inl (by decide))

end ImageReference.Reference
