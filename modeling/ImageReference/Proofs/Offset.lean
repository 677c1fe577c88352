import ImageReference.Proofs.Reference

/-!
# Where a text stops being a reference

A failure of the grammar is reported at the first character that no reference
has there, or at the end of a text that some reference goes on from.
-/

namespace ImageReference.Reference

variable {source before rest : Text} {limits : Limits}

/-- The place behind the longest front part of a source that some reference starts with. -/
structure StopsAt (before source : Text) (k : Nat) : Prop where
  before_le : before.length ≤ k
  le_length : k ≤ source.length
  viable : Viable (Grammar.reference before) (source.take k)
  stuck : (k = source.length ∧ source ∉ Grammar.reference before) ∨
    ¬ Viable (Grammar.reference before) (source.take (k + 1))

theorem stopsAt_of_halt {front : Text}
    (h : Halt (Grammar.reference before) (fun _ => true) front rest)
    (hbefore : before.length ≤ front.length) : StopsAt before (front ++ rest) front.length := by
  refine ⟨hbefore, by simp, by simpa using h.viable, ?_⟩
  cases rest with
  | nil =>
    refine .inl ⟨by simp, fun hmem => ?_⟩
    rw [List.append_nil] at hmem
    obtain ⟨c, hc, -⟩ := h.spoiled hmem
    cases hc
  | cons c rest =>
    refine .inr ?_
    have htake : (front ++ c :: rest).take (front.length + 1) = front ++ [c] := by
      rw [List.take_append]
      simp
    rw [htake]
    exact h.stuck c rfl

theorem scan_error_stops {failure : Failure}
    (hhost : SegmentKind.ofText source = .domain →
      ∃ host, Host.scan (SegmentKind.leading source) = .ok host)
    (h : scan source = .error failure) :
    ∃ k : Nat, failure.offset = k ∧ StopsAt (SegmentKind.before source) source k ∧
      Reports ((source.take k).drop (SegmentKind.before source).length) source[k]?
        failure.kind := by
  obtain ⟨rest, hsplit⟩ := SegmentKind.before_split source
  have houtcome := scan_outcome hhost rfl hsplit
  rw [h] at houtcome
  generalize SegmentKind.before source = before at hsplit houtcome
  subst hsplit
  cases houtcome with
  | @error front rest _ split halt offset reports =>
    subst split
    have hstops : StopsAt before (before ++ front ++ rest) (before ++ front).length :=
      stopsAt_of_halt halt.singleton_mul (by simp)
    rw [← List.append_assoc]
    refine ⟨_, by rw [offset, List.length_append, Int.natCast_add], hstops, ?_⟩
    rw [List.take_left, List.drop_left, List.getElem?_append_right (Nat.le_refl _), Nat.sub_self,
      ← List.head?_eq_getElem?]
    exact reports

/-- A parse that fails before the registry is asked fails where the source stops being the front
part of a reference. -/
theorem parse_error_offset {e : Rejection} (hlimit : source.length ≤ limits.maxNameLength)
    (hhost : SegmentKind.ofText source = .domain →
      ∃ host, Host.scan (SegmentKind.leading source) = .ok host)
    (h : parse source limits = .error e) (hgrammar : ∀ found, scan source ≠ .ok found) :
    (source = [] → e = { kind := .nameEmpty, offset := 0 }) ∧
      (source ≠ [] → ∃ k : Nat, e.offset = k ∧ StopsAt (SegmentKind.before source) source k ∧
        (e.kind = .nameContainsUppercase ↔ (∃ c, source[k]? = some c ∧ CharClass.upper c = true) ∧
          ∀ c ∈ (source.take k).drop (SegmentKind.before source).length, c ≠ ':' ∧ c ≠ '@')) := by
  constructor
  · intro hempty
    subst hempty
    exact (Except.error.inj h).symm
  · intro hne
    cases hscan : scan source with
    | ok found => exact absurd hscan (hgrammar found)
    | error failure =>
      have hshort : ¬ LongName source limits.maxNameLength := not_longName hlimit
      have hparse := parse_scan_error hne hshort hscan
      obtain rfl : failure.rejection = e := Except.error.inj (hparse.symm.trans h)
      obtain ⟨k, hoffset, hstops, hreports⟩ := scan_error_stops hhost hscan
      refine ⟨k, hoffset, hstops, ?_⟩
      rw [Reports, Option.any_eq_true] at hreports
      exact hreports

theorem parse_error_offset_upper : ∃ k : Nat, (5 : Int) = k ∧
    StopsAt "x.y/".toList "x.y/aB:t".toList k ∧ ∃ c, "x.y/aB:t".toList[k]? = some c ∧
      CharClass.upper c = true := by
  have hparse : parse "x.y/aB:t".toList =
      .error { kind := .nameContainsUppercase, offset := 5 } := rfl
  have hscan : scan "x.y/aB:t".toList =
      .error { kind := .nameContainsUppercase, offset := 5 } := rfl
  obtain ⟨k, hoffset, hstops, hkind⟩ := (parse_error_offset (by decide) (fun _ => ⟨_, rfl⟩) hparse
    (fun found h => by cases hscan.symm.trans h)).2 (by decide)
  exact ⟨k, hoffset, hstops, (hkind.mp rfl).1⟩

end ImageReference.Reference
