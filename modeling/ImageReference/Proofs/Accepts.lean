import ImageReference.Proofs.Pieces
import ImageReference.Proofs.Registry

/-!
# Which texts are references

Parsing accepts a text exactly if it decomposes into pieces within the limits,
and the accessors of the result are these pieces.
-/

namespace ImageReference

variable {source : Text} {limits : Limits} {d : Pieces} {r : Reference}

/-- The pieces make up the source, the name is not too long and the digest is registered. -/
structure Admitted (limits : Limits) (source : Text) (d : Pieces) : Prop extends
    Decomposes source d where
  name_le : (d.name.length : Int) ≤ limits.maxNameLength
  registered : ∀ digest ∈ d.digest, Registered limits.registry digest

namespace Reference

theorem Laid.checkDigest_iff {registry : Registry} (h : Laid source r) :
    r.checkDigest registry = .ok () ↔ ∀ digest ∈ r.digest, Registered registry digest := by
  cases hspans : r.digestSpans with
  | none => simp [checkDigest, hspans, Reference.digest]
  | some spans =>
    obtain ⟨front, tail, hdigest, hsource, hcovers⟩ := h.digest_source hspans
    have hsource' : r.source = front ++ (tail ++ []) := by rw [hsource, List.append_nil]
    rw [checkDigest, hspans]
    simp only [hsource', hdigest, Option.mem_some_iff, forall_eq']
    exact Digest.check_eq_ok_iff hcovers

theorem parse_admitted (h : parse source limits = .ok r) : Admitted limits source r.pieces := by
  obtain ⟨stop, hscan, hlength, hcheck⟩ := parse_ok_iff.mp h
  have hlaid := scan_laid hscan
  rw [hlaid.nameSpan_eq] at hlength
  exact ⟨hlaid.decomposes, hlength, hlaid.checkDigest_iff.mp hcheck⟩

theorem parse_of_admitted (h : Admitted limits source d) : ∃ r, parse source limits = .ok r := by
  obtain ⟨⟨r, stop⟩, hscan⟩ := scan_of_decomposes h.toDecomposes
  have hlaid : Laid source r := scan_laid hscan
  obtain rfl : r.pieces = d := hlaid.decomposes.unique h.toDecomposes
  refine ⟨r, parse_ok_iff.mpr ⟨stop, hscan, ?_, hlaid.checkDigest_iff.mpr h.registered⟩⟩
  rw [hlaid.nameSpan_eq]
  exact h.name_le

/-- Parsing accepts exactly the texts that decompose within the limits; there is one
decomposition at most, and the accessors return it. -/
theorem parse_accepts (source : Text) (limits : Limits) :
    ((∃ r, parse source limits = .ok r) ↔ ∃ d, Admitted limits source d) ∧
      (∀ r, parse source limits = .ok r → Admitted limits source r.pieces) ∧
      ∀ d d', Admitted limits source d → Admitted limits source d' → d = d' := by
  refine ⟨⟨fun h => ?_, fun h => ?_⟩, fun r h => parse_admitted h, fun d d' h h' => ?_⟩
  · obtain ⟨r, hr⟩ := h
    exact ⟨r.pieces, parse_admitted hr⟩
  · obtain ⟨d, hd⟩ := h
    exact parse_of_admitted hd
  · exact h.toDecomposes.unique h'.toDecomposes

end Reference

end ImageReference
