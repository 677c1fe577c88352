import ImageReference.Digest.Standalone
import ImageReference.Proofs.Cursor
import ImageReference.Proofs.Narrowing

/-!
# Judging digests

A digest is judged alike wherever it stands: it is read in the grammar of a
standard, nothing may be left over, and the registry has to let it pass. Only
the kind of what is left over is chosen by the reader, and all places move with
the text.
-/

namespace ImageReference

variable {standard : Compliance} {registry : Registry} {required : Bool} {text before : Text}
  {digest : Digest} {leftover : RejectionKind}

namespace Digest

def judge (leftover : RejectionKind) (standard : Compliance) (registry : Registry) (text : Text) :
    Except Rejection Digest := do
  let found ← (scan standard text).mapError Failure.rejection
  if found.stop < text.length then
    .error { kind := leftover, offset := found.stop }
  else
    found.value.check registry
      (standard == .distribution || found.value.compliance == .distribution) text
    return found.value

theorem judge_scan_error {failure : Failure} (h : scan standard text = .error failure) :
    judge leftover standard registry text = .error failure.rejection := by
  rw [judge, h]
  rfl

theorem judge_short {found : Scanned Digest} (h : scan standard text = .ok found)
    (hshort : found.stop < text.length) :
    judge leftover standard registry text = .error { kind := leftover, offset := found.stop } := by
  rw [judge, h]
  exact if_pos hshort

theorem judge_whole {found : Scanned Digest} (h : scan standard text = .ok found)
    (hwhole : text.length ≤ found.stop) : judge leftover standard registry text =
      (found.value.check registry
        (standard == .distribution || found.value.compliance == .distribution) text).map
          fun _ => found.value := by
  rw [judge, h]
  change (if _ then _ else _) = _
  rw [if_neg (by omega)]
  cases found.value.check registry
    (standard == .distribution || found.value.compliance == .distribution) text <;> rfl

theorem judge_eq_ok_iff : judge leftover standard registry text = .ok digest ↔
    Fills standard text digest ∧ digest.check registry
      (standard == .distribution || digest.compliance == .distribution) text = .ok () := by
  constructor
  · intro h
    cases hscan : scan standard text with
    | error failure =>
      rw [judge_scan_error hscan] at h
      cases h
    | ok found =>
      by_cases hshort : found.stop < text.length
      · rw [judge_short hscan hshort] at h
        cases h
      · rw [judge_whole hscan (by omega)] at h
        obtain ⟨_, hcheck, rfl⟩ := map_eq_ok h
        exact ⟨⟨found.stop, hscan, by omega⟩, hcheck⟩
  · intro h
    obtain ⟨⟨stop, hscan, hwhole⟩, hcheck⟩ := h
    rw [judge_whole hscan hwhole, hcheck]
    rfl

def Leftover (text : Text) : Prop :=
  ∃ front ∈ Grammar.digest, ∃ c rest, text = front ++ c :: rest ∧
    ¬ Viable Grammar.digest (front ++ [c])

theorem leftover_iff : Leftover text ↔
    ∃ found, scan .distribution text = .ok found ∧ found.stop < text.length := by
  have houtcome := scan_outcome text
  constructor
  · intro h
    obtain ⟨front, hfront, c, rest, rfl, hstuck⟩ := h
    have hcut : Cut Grammar.digest front (c :: rest) := .of_cons (.of_mem hfront) hstuck
    obtain ⟨found, hfound, hstop, -⟩ := houtcome.ok_of_mem hfront hcut (fun _ _ => rfl)
    refine ⟨found, hfound, ?_⟩
    rw [hstop, List.length_append, List.length_cons]
    omega
  · intro h
    obtain ⟨found, hfound, hshort⟩ := h
    rw [hfound] at houtcome
    cases houtcome with
    | @ok front rest _ split complete cut stop holds =>
      subst split
      cases rest with
      | nil =>
        rw [List.append_nil] at hshort
        omega
      | cons c rest => exact ⟨front, complete, c, rest, rfl, cut.stuck c rfl⟩

theorem judge_cases (leftover other : RejectionKind) (registry : Registry) (text : Text) :
    (∃ digest, judge leftover .distribution registry text = .ok digest ∧
      judge other .distribution registry text = .ok digest) ∨
    (¬ Leftover text ∧ ∃ e, judge leftover .distribution registry text = .error e ∧
      judge other .distribution registry text = .error e) ∨
    (Leftover text ∧ ∃ offset,
      judge leftover .distribution registry text = .error { kind := leftover, offset } ∧
      judge other .distribution registry text = .error { kind := other, offset }) := by
  cases hscan : scan .distribution text with
  | error failure =>
    have hnot : ¬ Leftover text := by
      intro h
      obtain ⟨found, hfound, -⟩ := leftover_iff.mp h
      cases hscan.symm.trans hfound
    exact .inr (.inl ⟨hnot, _, judge_scan_error hscan, judge_scan_error hscan⟩)
  | ok found =>
    by_cases hshort : found.stop < text.length
    · have hleftover := leftover_iff.mpr ⟨found, hscan, hshort⟩
      exact .inr (.inr ⟨hleftover, _, judge_short hscan hshort, judge_short hscan hshort⟩)
    · have hnot : ¬ Leftover text := by
        intro h
        obtain ⟨same, hsame, hless⟩ := leftover_iff.mp h
        cases hscan.symm.trans hsame
        exact hshort hless
      rw [judge_whole hscan (by omega), judge_whole hscan (by omega)]
      generalize found.value.check registry _ text = result
      cases result with
      | ok => exact .inl ⟨_, rfl, rfl⟩
      | error e => exact .inr (.inl ⟨hnot, _, rfl, rfl⟩)

theorem algorithmFrom_forward {standard compliance : Compliance} {leading : Bool}
    {component here : Int} {found : Scanned Algorithm} (hcomponent : 0 ≤ component)
    (hhere : 0 ≤ here)
    (h : algorithmFrom standard component leading compliance here text = .ok found) :
    ∀ span ∈ found.value.components.toList, span.Forward := by
  have hsingle : ∀ {component here : Int}, 0 ≤ component → 0 ≤ here →
      Span.Forward ⟨component, here - component⟩ := by
    intro component here hcomponent hhere
    refine ⟨hcomponent, ?_⟩
    change 0 ≤ component + (here - component)
    omega
  fun_induction algorithmFrom standard component leading compliance here text
    generalizing found with
  | case1 | case2 => rename_i ih; exact ih hcomponent (by omega) h
  | case3 | case4 | case7 => cases h
  | case5 =>
    rename_i ih
    obtain ⟨inner, hinner, rfl⟩ := map_eq_ok h
    have hbehind := ih (by omega) (by omega) hinner
    intro span hspan
    rcases List.mem_cons.mp hspan with rfl | hspan
    · exact hsingle hcomponent hhere
    · exact hbehind span hspan
  | case6 | case8 =>
    cases h
    intro span hspan
    rw [List.mem_singleton.mp hspan]
    exact hsingle hcomponent hhere

theorem Fills.components_forward {standard : Compliance} (h : Fills standard text digest) :
    ∀ span ∈ digest.components.toList, span.Forward := by
  obtain ⟨algorithm, value, halgorithm, -, -, rfl⟩ := fills_iff_parts.mp h
  exact algorithmFrom_forward (Int.le_refl 0) (Int.le_refl 0) halgorithm

theorem Fills.forward (h : Fills .distribution text digest) :
    digest.algorithm.Forward ∧ digest.encoded.Forward := by
  obtain ⟨a, e, -, ⟨-, halgorithm⟩, ⟨-, hencoded⟩⟩ := (h.covers (by decide)).2
  have hplace : ((a.length + 1 : Nat) : Int) = 0 + a.length + 1 := by omega
  rw [← hplace] at hencoded
  exact ⟨@Span.forward_natCast _ 0 _ halgorithm, Span.forward_natCast hencoded⟩

theorem checkTexts_shift (n : Int) (algorithm value : Text) :
    (shift n digest).checkTexts registry required algorithm value =
      (digest.checkTexts registry required algorithm value).mapError (shift n) := by
  have hlength : (shift n digest).encoded.length = digest.encoded.length := rfl
  have hoffset : (shift n digest).encoded.offset = digest.encoded.offset + n := rfl
  rw [checkTexts, checkTexts, algorithm_shift, hlength, hoffset]
  cases registry algorithm with
  | none => cases required <;> rfl
  | some length =>
    by_cases hwrong : digest.encoded.length ≠ length
    · simp only [if_pos hwrong]
      rfl
    · simp only [if_neg hwrong]
      cases value.findIdx? (fun c => !CharClass.lowerHex c) with
      | none => rfl
      | some index =>
        simp only [Int.add_right_comm _ n]
        rfl

theorem check_shift (halgorithm : digest.algorithm.Forward) (hencoded : digest.encoded.Forward) :
    (shift (before.length : Int) digest).check registry required (before ++ text) =
      (digest.check registry required text).mapError (shift (before.length : Int)) := by
  have hvalue : readBetween (before ++ text) (shift (before.length : Int) digest).encoded.offset
      (shift (before.length : Int) digest).encoded.stop =
        readBetween text digest.encoded.offset digest.encoded.stop := by
    change readBetween _ (shift (before.length : Int) digest.encoded).offset
      (shift (before.length : Int) digest.encoded).stop = _
    rw [Span.shift_stop]
    exact readBetween_shift hencoded.offset
  rw [check, algorithm_shift, halgorithm.text_shift, hvalue, checkTexts_shift]
  rfl

end Digest

theorem StandaloneDigest.parse_eq_judge : parse text standard registry =
    (Digest.judge .digestInvalidFormat standard registry text).map (StandaloneDigest.mk text) := by
  rw [parse, Digest.judge]
  cases Digest.scan standard text with
  | error failure => rfl
  | ok found =>
    change (if _ then _ else _) = Except.map _ (if _ then _ else _)
    split
    · rfl
    · cases found.value.check registry
        (standard == .distribution || found.value.compliance == .distribution) text <;> rfl

end ImageReference
