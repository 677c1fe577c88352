import ImageReference.Proofs.Kinds

/-!
# Which failure is reported

A text can be at fault in several ways. The length of a name is checked as soon
as the name has been read: it comes behind the faults of the name, in front of
those of the tag, the digest and the end of the text, and in front of the
registry.
-/

namespace ImageReference

def Registry.kinds : List RejectionKind :=
  [.digestUnsupportedAlgorithm, .digestInvalidLength, .digestInvalidFormat]

theorem Digest.checkTexts_kinds {registry : Registry} {required : Bool} {digest : Digest}
    {algorithm value : Text} {e : Rejection}
    (h : digest.checkTexts registry required algorithm value = .error e) :
    e.kind ∈ Registry.kinds := by
  rw [checkTexts] at h
  split at h
  · split at h
    · cases h
      simp [Registry.kinds]
    · cases h
  · split at h
    · cases h
      simp [Registry.kinds]
    · split at h
      · cases h
        simp [Registry.kinds]
      · cases h

namespace Reference

variable {source : Text} {limits : Limits} {e : Rejection}

theorem checkDigest_kinds {registry : Registry} {r : Reference}
    (h : r.checkDigest registry = .error e) : e.kind ∈ Registry.kinds := by
  rw [checkDigest] at h
  split at h
  · cases h
  · exact Digest.checkTexts_kinds h

theorem parse_short_kind (hshort : ¬ LongName source limits.maxNameLength)
    (h : parse source limits = .error e) : e.kind ≠ .nameTooLong := by
  intro hkind
  by_cases hne : source = []
  · subst hne
    cases h
    cases hkind
  · cases hscan : scan source with
    | error failure =>
      rw [parse_scan_error hne hshort hscan] at h
      cases h
      have hmem : failure.kind ∈ kinds := scan_kinds source failure hscan
      rw [show failure.kind = .nameTooLong from hkind] at hmem
      exact absurd hmem (by decide)
    | ok found =>
      rw [parse_scan_ok hne hshort hscan] at h
      cases hcheck : found.value.checkDigest limits.registry with
      | ok =>
        rw [hcheck] at h
        cases h
      | error other =>
        rw [hcheck] at h
        cases h
        have hmem := checkDigest_kinds hcheck
        rw [hkind] at hmem
        exact absurd hmem (by decide)

theorem parse_tooLong_iff :
    (∃ e, parse source limits = .error e ∧ e.kind = .nameTooLong) ↔
      LongName source limits.maxNameLength := by
  constructor
  · intro h
    obtain ⟨e, he, hkind⟩ := h
    by_contra hshort
    exact parse_short_kind hshort he hkind
  · intro h
    obtain ⟨name, hname⟩ := parse_long h
    exact ⟨_, hname, rfl⟩

theorem parse_eq_error_iff (hkind : e.kind ≠ .nameTooLong)
    (h : ¬ LongName source limits.maxNameLength → parse source limits = .error e) :
    parse source limits = .error e ↔ ¬ LongName source limits.maxNameLength := by
  refine ⟨fun he hlong => ?_, h⟩
  obtain ⟨name, hname⟩ := parse_long hlong
  cases he.symm.trans hname
  exact hkind rfl

theorem parse_scan_failed {limit : Int}
    (hgrammar : ∀ found, scan source ≠ .ok found) (hlong : ¬ LongName source limit)
    (h : parse source { limits with maxNameLength := limit } = .error e)
    (hshort : ¬ LongName source limits.maxNameLength) : parse source limits = .error e := by
  by_cases hne : source = []
  · subst hne
    exact h
  · cases hscan : scan source with
    | ok found => exact absurd hscan (hgrammar found)
    | error failure =>
      rw [parse_scan_error hne hlong hscan] at h
      rw [parse_scan_error hne hshort hscan, h]

/-- The length of the name is checked in front of the rest of the text and of the registry: a name
over the limit hides every fault there. -/
theorem parse_precedence (source : Text) (limits : Limits) :
    ((∃ e, parse source limits = .error e ∧ e.kind = .nameTooLong) ↔
      LongName source limits.maxNameLength) ∧
    (∀ e, parse source { limits with maxNameLength := source.length } = .error e →
      (∀ found, scan source ≠ .ok found) →
        (parse source limits = .error e ↔ ¬ LongName source limits.maxNameLength)) ∧
    ∀ found e, scan source = .ok found → found.value.checkDigest limits.registry = .error e →
      (parse source limits = .error e ↔ ¬ LongName source limits.maxNameLength) := by
  refine ⟨parse_tooLong_iff, fun e he hgrammar => ?_, fun found e hscan hcheck => ?_⟩
  · have hlong : ¬ LongName source source.length := not_longName (Int.le_refl _)
    refine parse_eq_error_iff (parse_short_kind hlong he) fun hshort => ?_
    exact parse_scan_failed hgrammar hlong he hshort
  · have hkind : e.kind ≠ .nameTooLong := by
      intro hkind
      have hmem := checkDigest_kinds hcheck
      rw [hkind] at hmem
      exact absurd hmem (by decide)
    refine parse_eq_error_iff hkind fun hshort => ?_
    rw [parse_scan_ok (ne_nil_of_scan hscan) hshort hscan, hcheck]
    rfl

theorem parse_precedence_app :
    ¬ parse "app:".toList { maxNameLength := 2 } =
      .error { kind := .tagInvalidFormat, offset := 4 } := by
  intro h
  have hlong : LongName "app:".toList 2 := ⟨⟨⟨none, ⟨.single ⟨0, 3⟩, []⟩⟩, 3⟩, rfl, by decide⟩
  exact ((parse_precedence "app:".toList { maxNameLength := 2 }).2.1 _ rfl
    (fun found hfound => by cases hfound)).mp h hlong

/-- The missing tag is reported under a limit of four characters, and hidden under one of two. -/
theorem parse_hidden_tag :
    parse "app:".toList { maxNameLength := 4 } = .error { kind := .tagInvalidFormat, offset := 4 } ∧
      ∃ e, parse "app:".toList { maxNameLength := 2 } = .error e ∧ e.kind = .nameTooLong ∧
        ∀ found, scan "app:".toList ≠ .ok found := by
  refine ⟨rfl, _, rfl, rfl, fun found h => ?_⟩
  cases h

end Reference

end ImageReference
