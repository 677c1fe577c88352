import ImageReference.Digest.Basic
import ImageReference.Proofs.Digest

/-!
# Checking digests

The check of a digest passes exactly if its algorithm is registered with the
length that its encoded value has, and the value has lower-case digits only.
-/

namespace ImageReference

def Registered (registry : Registry) (digest : Text) : Prop :=
  ∃ a ∈ Grammar.algorithm, ∃ e ∈ Grammar.encoded, digest = a ++ ':' :: e ∧
    registry a = some (e.length : Int) ∧ ∀ c ∈ e, CharClass.lowerHex c = true

namespace Digest

variable {registry : Registry} {required : Bool} {standard : Compliance} {digest : Digest}
  {before front rest : Text}

theorem checkTexts_eq_ok_iff {algorithm value : Text} :
    digest.checkTexts registry required algorithm value = .ok () ↔
      (registry algorithm = none ∧ required = false) ∨
        (registry algorithm = some digest.encoded.length ∧
          ∀ c ∈ value, CharClass.lowerHex c = true) := by
  rw [checkTexts]
  cases hentry : registry algorithm with
  | none => cases required <;> simp
  | some length =>
    by_cases hlength : digest.encoded.length = length
    · cases hfind : value.findIdx? (fun c => !CharClass.lowerHex c) with
      | none =>
        have hlower : ∀ c ∈ value, CharClass.lowerHex c = true := by
          simpa [List.findIdx?_eq_none_iff] using hfind
        simpa [hlength] using hlower
      | some index =>
        obtain ⟨hlt, hupper, -⟩ := List.findIdx?_eq_some_iff_getElem.mp hfind
        have hnot : ¬ ∀ c ∈ value, CharClass.lowerHex c = true := by
          intro h
          simp [h _ (List.getElem_mem hlt)] at hupper
        simp [hlength, hnot]
    · have hother : ¬ length = digest.encoded.length := fun he => hlength he.symm
      simp [hlength, hother]

theorem check_eq_checkTexts {a e : Text} (halgorithm : digest.algorithm = ⟨before.length, a.length⟩)
    (hencoded : digest.encoded = ⟨before.length + a.length + 1, e.length⟩) (rest : Text) :
    digest.check registry required (before ++ (a ++ ':' :: e ++ rest)) =
      digest.checkTexts registry required a e := by
  have hplace : (before.length : Int) + a.length + 1 = (before ++ (a ++ [':'])).length := by
    simp only [List.length_append, List.length_singleton]
    omega
  rw [hplace] at hencoded
  have htext : before ++ (a ++ ':' :: e ++ rest) = before ++ a ++ (':' :: e ++ rest) := by simp
  have hvalue : before ++ (a ++ ':' :: e ++ rest) = before ++ (a ++ [':']) ++ e ++ rest := by simp
  have halgorithmText : digest.algorithm.text (before ++ (a ++ ':' :: e ++ rest)) = a := by
    rw [htext]
    exact Span.text_append halgorithm
  have hvalueText : readBetween (before ++ (a ++ ':' :: e ++ rest)) digest.encoded.offset
      digest.encoded.stop = e := by
    rw [hvalue, hencoded]
    exact readBetween_append
  rw [check, halgorithmText, hvalueText]

theorem CoversIn.check_eq (h : CoversIn standard before.length front digest) (registry : Registry)
    (required : Bool) (rest : Text) : ∃ a ∈ standard.algorithm, ∃ e ∈ standard.encoded,
      front = a ++ ':' :: e ∧ digest.encoded.length = e.length ∧
      digest.check registry required (before ++ (front ++ rest)) =
        digest.checkTexts registry required a e := by
  obtain ⟨a, e, rfl, ⟨ha, halgorithm⟩, ⟨he, hencoded⟩⟩ := h
  have hlength : digest.encoded.length = e.length := congrArg Span.length hencoded
  exact ⟨a, ha, e, he, rfl, hlength, check_eq_checkTexts halgorithm hencoded rest⟩

theorem check_eq_ok_iff (h : Covers before.length front digest) :
    digest.check registry true (before ++ (front ++ rest)) = .ok () ↔
      Registered registry front := by
  obtain ⟨a, ha, e, he, rfl, hlength, hcheck⟩ := h.check_eq registry true rest
  rw [hcheck, checkTexts_eq_ok_iff, hlength]
  constructor
  · intro h
    obtain ⟨-, hnot⟩ | ⟨hentry, hlower⟩ := h
    · cases hnot
    · exact ⟨a, ha, e, he, rfl, hentry, hlower⟩
  · intro h
    obtain ⟨a', ha', e', he', heq, hentry, hlower⟩ := h
    obtain ⟨rfl, hmarked⟩ := (Compliance.parted .distribution).mul_inj ha
      (mem_singleton_mul.mpr he) ha' (mem_singleton_mul.mpr he')
      (show a ++ ([':'] ++ e) = a' ++ ([':'] ++ e') from heq)
    obtain rfl := List.append_cancel_left hmarked
    exact .inr ⟨hentry, hlower⟩

end Digest

end ImageReference
