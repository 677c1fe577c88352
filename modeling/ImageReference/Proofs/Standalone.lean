import ImageReference.Proofs.Judge
import ImageReference.Proofs.Registry

/-!
# Digests on their own

A text is a digest of a standard if it is in the grammar of that standard and the
registry lets it pass. A digest of a registered algorithm has to keep to its
entry. One of an unregistered algorithm passes where neither the reader nor the
digest holds to the distribution grammar, so it is one of the OCI grammar.
-/

namespace ImageReference

variable {registry : Registry} {standard : Compliance} {source : Text} {required : Bool}

/-- The algorithm of the text is registered for its encoded value, or it has no entry and may go
without one. -/
def Registry.Passes (registry : Registry) (mayLack : Prop) (source : Text) : Prop :=
  ∃ a e, source = a ++ ':' :: e ∧ ':' ∉ a ∧
    ((registry a = some (e.length : Int) ∧ ∀ c ∈ e, CharClass.lowerHex c = true) ∨
      (registry a = none ∧ mayLack))

theorem Registry.passes_congr {mayLack mayLack' : Prop} (h : mayLack ↔ mayLack') :
    registry.Passes mayLack source ↔ registry.Passes mayLack' source := by
  rw [Passes, Passes]
  simp only [h]

namespace Digest

variable {digest : Digest}

theorem Fills.check_eq_ok_iff (h : Fills standard source digest) :
    digest.check registry required source = .ok () ↔
      registry.Passes (required = false) source := by
  obtain ⟨one, hone, hfills⟩ := h.one
  have hcovers : CoversIn one ([] : Text).length source digest := (hfills.covers hone).2
  obtain ⟨a, ha, e, he, hsource, hlength, hcheck⟩ := hcovers.check_eq registry required []
  rw [List.nil_append, List.append_nil] at hcheck
  have hcolon : ':' ∉ a := Compliance.mark_notMem_algorithm ha (.inl rfl)
  rw [hcheck, checkTexts_eq_ok_iff, hlength, or_comm]
  constructor
  · exact fun h => ⟨a, e, hsource, hcolon, h⟩
  · intro h
    obtain ⟨a', e', hother, hcolon', h⟩ := h
    obtain ⟨rfl, rfl⟩ := cut_unique hcolon hcolon' (hsource.symm.trans hother)
    exact h

theorem Fills.distribution_iff (h : Fills standard source digest) :
    digest.compliance ≠ .distribution ↔ source ∈ Grammar.ociDigest := by
  have hmem : source ∈ Compliance.digest .oci ↔ digest.compliance.Meets .oci := h.mem_iff
  refine Iff.trans ?_ hmem.symm
  cases digest.compliance <;> simp [Compliance.Meets]

end Digest

namespace StandaloneDigest

variable {d : StandaloneDigest}

theorem parse_eq_ok_iff : parse source standard registry = .ok d ↔
    d.source = source ∧ Digest.Fills standard source d.digest ∧
      d.digest.check registry (standard == .distribution || d.compliance == .distribution) source =
        .ok () := by
  rw [parse_eq_judge]
  constructor
  · intro h
    obtain ⟨digest, hdigest, rfl⟩ := map_eq_ok h
    exact ⟨rfl, Digest.judge_eq_ok_iff.mp hdigest⟩
  · intro h
    obtain ⟨rfl, hdigest⟩ := h
    rw [Digest.judge_eq_ok_iff.mpr hdigest]
    rfl

theorem exists_parse_iff : (∃ d, parse source standard registry = .ok d) ↔
    source ∈ standard.digest ∧
      registry.Passes (standard ≠ .distribution ∧ source ∈ Grammar.ociDigest) source := by
  have hrequired : ∀ d : StandaloneDigest, Digest.Fills standard source d.digest →
      ((standard == .distribution || d.compliance == .distribution) = false ↔
        standard ≠ .distribution ∧ source ∈ Grammar.ociDigest) := by
    intro d hfills
    rw [← hfills.distribution_iff]
    simp [StandaloneDigest.compliance]
  constructor
  · intro h
    obtain ⟨d, h⟩ := h
    obtain ⟨-, hfills, hcheck⟩ := parse_eq_ok_iff.mp h
    exact ⟨Digest.exists_fills_iff.mp ⟨_, hfills⟩,
      (Registry.passes_congr (hrequired d hfills)).mp (hfills.check_eq_ok_iff.mp hcheck)⟩
  · intro h
    obtain ⟨digest, hfills⟩ := Digest.exists_fills_iff.mpr h.1
    refine ⟨⟨source, digest⟩, parse_eq_ok_iff.mpr ⟨rfl, hfills, ?_⟩⟩
    have hpasses := (Registry.passes_congr (hrequired ⟨source, digest⟩ hfills)).mpr h.2
    exact hfills.check_eq_ok_iff.mpr hpasses

/-- A reader accepts the digests of its grammar that the registry lets pass. The reader of both
grammars accepts what one of the other two accepts, and all readers that accept a text find the
same digest in it. -/
theorem parse_standards (source : Text) (registry : Registry) :
    ((∃ d, parse source .universal registry = .ok d) ↔
      (∃ d, parse source .distribution registry = .ok d) ∨
        ∃ d, parse source .oci registry = .ok d) ∧
    (∀ standard standard' d d', parse source standard registry = .ok d →
      parse source standard' registry = .ok d' → d = d') ∧
    ∀ standard, (∃ d, parse source standard registry = .ok d) ↔ source ∈ standard.digest ∧
      ∃ a e, source = a ++ ':' :: e ∧ ':' ∉ a ∧
        ((registry a = some (e.length : Int) ∧ ∀ c ∈ e, CharClass.lowerHex c = true) ∨
          (registry a = none ∧ standard ≠ .distribution ∧ source ∈ Grammar.ociDigest)) := by
  refine ⟨?_, ?_, fun standard => exists_parse_iff⟩
  · simp only [exists_parse_iff]
    constructor
    · intro h
      obtain ⟨hmem, a, e, hsource, hcolon, hentry | ⟨hnone, -, hoci⟩⟩ := h
      · rcases hmem with hmem | hmem
        · exact .inl ⟨hmem, a, e, hsource, hcolon, .inl hentry⟩
        · exact .inr ⟨hmem, a, e, hsource, hcolon, .inl hentry⟩
      · exact .inr ⟨hoci, a, e, hsource, hcolon, .inr ⟨hnone, by decide, hoci⟩⟩
    · intro h
      rcases h with ⟨hmem, a, e, hsource, hcolon, hentry⟩ | ⟨hmem, a, e, hsource, hcolon, hentry⟩
      · have hregistered := hentry.resolve_right fun hlacks => hlacks.2.1 rfl
        exact ⟨.inl hmem, a, e, hsource, hcolon, .inl hregistered⟩
      · refine ⟨.inr hmem, a, e, hsource, hcolon, hentry.imp_right fun hlacks => ?_⟩
        exact ⟨hlacks.1, by decide, hlacks.2.2⟩
  · intro standard standard' d d' h h'
    obtain ⟨hsource, hfills, -⟩ := parse_eq_ok_iff.mp h
    obtain ⟨hsource', hfills', -⟩ := parse_eq_ok_iff.mp h'
    obtain ⟨_, digest⟩ := d
    obtain ⟨_, digest'⟩ := d'
    obtain rfl := hsource
    obtain rfl := hsource'
    exact congrArg (StandaloneDigest.mk _) (hfills.unique hfills')

theorem parse_standards_unregistered :
    ∃ d d', parse "x+9:Y=".toList .universal (fun _ => none) = .ok d ∧
      parse "x+9:Y=".toList .oci (fun _ => none) = .ok d' ∧ d = d' := by
  obtain ⟨d, hd⟩ : ∃ d, parse "x+9:Y=".toList .universal (fun _ => none) = .ok d := ⟨_, rfl⟩
  obtain ⟨d', hd'⟩ : ∃ d, parse "x+9:Y=".toList .oci (fun _ => none) = .ok d := ⟨_, rfl⟩
  have hsame := (parse_standards "x+9:Y=".toList fun _ => none).2.1 .universal .oci d d' hd hd'
  exact ⟨d, d', hd, hd', hsame⟩

end StandaloneDigest

end ImageReference
