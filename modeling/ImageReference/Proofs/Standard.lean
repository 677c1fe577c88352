import ImageReference.Digest.Basic
import ImageReference.Proofs.CharClass
import ImageReference.Proofs.Grammar
import ImageReference.Proofs.Viable

/-!
# The grammars of digests

There are two grammars, and the third standard stands for both. In each one an
algorithm is a row of components, told apart by the characters that start a
component and by those that it goes on with, and no algorithm has a colon.
-/

namespace ImageReference

variable {standard compliance toward : Compliance} {c : Char} {leading : Bool} {u front : Text}

namespace Compliance

-- The parts of digests are those of one grammar; for the standard of both they say nothing.

def reads : Compliance → Bool → CharClass
  | .distribution, true => CharClass.alpha
  | .distribution, false => CharClass.alnum
  | _, _ => CharClass.lowerAlnum

def component : Compliance → Language Char
  | .distribution => Grammar.algorithmComponent
  | _ => Grammar.ociComponent

def algorithm : Compliance → Language Char
  | .distribution => Grammar.algorithm
  | _ => Grammar.ociAlgorithm

def encoded : Compliance → Language Char
  | .distribution => Grammar.encoded
  | _ => Grammar.ociEncoded

def digest : Compliance → Language Char
  | .distribution => Grammar.digest
  | .oci => Grammar.ociDigest
  | .universal => Grammar.digest + Grammar.ociDigest

def Meets (compliance standard : Compliance) : Prop :=
  standard = .universal ∨ compliance = .universal ∨ compliance = standard

theorem universal_meets (standard : Compliance) : Meets .universal standard := .inr (.inl rfl)

theorem Meets.admits (hone : standard ≠ .universal) (h : compliance.Meets standard) :
    compliance.admits standard standard = true := by
  rcases h with h | rfl | rfl
  · exact absurd h hone
  · simp [Compliance.admits]
  · simp [Compliance.admits]

theorem eq_of_admits (hone : standard ≠ .universal)
    (h : compliance.admits standard toward = true) : toward = standard := by
  simp only [admits, Bool.and_eq_true, Bool.or_eq_true, beq_iff_eq] at h
  exact (h.2.resolve_left hone).symm

def spoils (standard : Compliance) : CharClass :=
  fun c => CharClass.alnum c && !standard.reads false c

theorem algorithm_eq (standard : Compliance) : standard.algorithm =
    Grammar.joined standard.component (Grammar.one CharClass.algorithmSeparator) := by
  cases standard <;> rfl

theorem digest_eq (hone : standard ≠ .universal) :
    standard.digest = standard.algorithm * ({[':']} * standard.encoded) := by
  cases standard with
  | universal => exact absurd rfl hone
  | distribution => rfl
  | oci => rfl

theorem commits_iff : (∀ toward ∈ Digest.commitment? leading c, toward = standard) ↔
    (CharClass.upper c = true → standard = .distribution) ∧
      (leading = true → CharClass.digit c = true → standard = .oci) := by
  have hdigit : CharClass.digit c = true → CharClass.upper c = false := CharClass.upper_of_digit
  rw [Digest.commitment?]
  split
  · next hupper =>
    have hnone : CharClass.digit c = false := by
      rw [Bool.eq_false_iff]
      intro h
      simp [hdigit h] at hupper
    simp [hupper, hnone, eq_comm]
  · next hupper =>
    split
    · next h =>
      rw [Bool.and_eq_true] at h
      simp [hupper, h.1, h.2, eq_comm]
    · next h => simp_all

theorem reads_iff (hone : standard ≠ .universal) : standard.reads leading c = true ↔
    CharClass.alnum c = true ∧
      ∀ toward ∈ Digest.commitment? leading c, toward = standard := by
  have hupper : CharClass.lowerAlnum c = true → CharClass.upper c = false :=
    CharClass.upper_of_lowerAlnum
  have hdigit : CharClass.alpha c = true → CharClass.digit c = false := CharClass.digit_of_alpha
  rw [commits_iff, CharClass.alnum_eq, CharClass.alpha_eq]
  rw [CharClass.lowerAlnum] at hupper
  rw [CharClass.alpha_eq] at hdigit
  cases standard with
  | universal => exact absurd rfl hone
  | distribution =>
    cases leading
    · simp [reads, CharClass.alnum_eq, CharClass.alpha_eq]
    · simp only [reads, CharClass.alpha_eq]
      grind
  | oci =>
    simp only [reads, CharClass.lowerAlnum]
    grind

theorem mem_component {d : Char} : d :: u ∈ standard.component ↔
    standard.reads true d = true ∧ ∀ c ∈ u, standard.reads false c = true := by
  cases standard with
  | distribution =>
    constructor
    · intro h
      obtain ⟨a, ⟨e, he, rfl⟩, b, ⟨-, hb⟩, heq⟩ := Language.mem_mul.mp h
      obtain ⟨rfl, rfl⟩ := List.cons.inj heq
      exact ⟨he, hb⟩
    · intro h
      have hfirst : [d] ∈ Grammar.one CharClass.alpha := ⟨d, h.1, rfl⟩
      exact Language.append_mem_mul hfirst ⟨Nat.zero_le _, h.2⟩
  | universal | oci =>
    have hlength : 1 ≤ (d :: u).length := by simp
    exact (and_iff_right hlength).trans List.forall_mem_cons

theorem nil_notMem_component : [] ∉ standard.component := by
  intro h
  cases standard with
  | distribution =>
    obtain ⟨a, ⟨d, -, rfl⟩, b, -, he⟩ := Language.mem_mul.mp h
    cases he
  | universal | oci => exact absurd h.1 (by simp)

theorem nil_notMem_algorithm : [] ∉ standard.algorithm := by
  intro h
  rw [algorithm_eq] at h
  obtain ⟨a, ha, b, -, he⟩ := Language.mem_mul.mp h
  obtain ⟨rfl, -⟩ := List.append_eq_nil_iff.mp he
  exact nil_notMem_component ha

theorem alnum_of_reads (h : standard.reads leading c = true) : CharClass.alnum c = true := by
  have hlower : CharClass.lowerAlnum c = true → CharClass.alnum c = true := by
    rw [CharClass.lowerAlnum, CharClass.alnum_eq, CharClass.alpha_eq, Bool.or_eq_true,
      Bool.or_eq_true, Bool.or_eq_true]
    tauto
  cases standard with
  | distribution =>
    cases leading with
    | true => exact CharClass.alnum_of_alpha h
    | false => exact h
  | universal | oci => exact hlower h

theorem mem_algorithm (h : front ∈ standard.algorithm) :
    ∀ c ∈ front, CharClass.alnum c = true ∨ CharClass.algorithmSeparator c = true := by
  have hcomponent : ∀ a ∈ standard.component, ∀ c ∈ a, CharClass.alnum c = true := by
    intro a ha c hc
    cases a with
    | nil => cases hc
    | cons d u =>
      obtain ⟨hd, hu⟩ := mem_component.mp ha
      rcases List.mem_cons.mp hc with rfl | hc
      · exact alnum_of_reads hd
      · exact alnum_of_reads (hu c hc)
  rw [algorithm_eq] at h
  revert h front
  apply Grammar.joined_induction
  · exact fun a ha c hc => .inl (hcomponent a ha c hc)
  · intro a ha m hm b _ ih c hc
    obtain ⟨d, hd, rfl⟩ := hm
    rw [List.append_assoc, List.mem_append, List.mem_append] at hc
    rcases hc with hc | hc | hc
    · exact .inl (hcomponent a ha c hc)
    · obtain rfl : c = d := List.mem_singleton.mp hc
      exact .inr hd
    · exact ih c hc

theorem mark_notMem_algorithm (h : front ∈ standard.algorithm) (hc : c = ':' ∨ c = '@' ∨ c = '/') :
    c ∉ front := by
  intro hmem
  have hmarks : ∀ c ∈ [':', '@', '/'], CharClass.alnum c = false ∧
      CharClass.algorithmSeparator c = false := by
    simp [CharClass.alnum, CharClass.algorithmSeparator]
  obtain ⟨halnum, hseparator⟩ := hmarks c (by simpa using hc)
  have hchar := mem_algorithm h c hmem
  simp [halnum, hseparator] at hchar

theorem parted (standard : Compliance) :
    Parted standard.algorithm ({[':']} * standard.encoded) (· == ':') := by
  refine ⟨fun a ha c hc => ?_, fun c rest h => ?_⟩
  · rw [beq_eq_false_iff_ne]
    intro he
    exact mark_notMem_algorithm ha (.inl he) hc
  · obtain ⟨m, rfl, e, -, he⟩ := Language.mem_mul.mp h
    simpa using (List.cons.inj he).1.symm

theorem viable_encoded :
    Viable standard.encoded front ↔ ∀ c ∈ front, standard.encodedClass c = true := by
  constructor
  · intro h c hc
    obtain ⟨more, hmore⟩ := h
    cases standard <;> exact hmore.2 c (List.mem_append_left _ hc)
  · intro h
    have hclass : ∀ c ∈ front ++ List.replicate 32 '0', standard.encodedClass c = true := by
      intro c hc
      rcases List.mem_append.mp hc with hc | hc
      · exact h c hc
      · rw [List.eq_of_mem_replicate hc]
        cases standard <;> decide
    have hlength : 32 ≤ (front ++ List.replicate 32 '0').length := by simp
    refine ⟨List.replicate 32 '0', ?_⟩
    cases standard with
    | distribution => exact ⟨hlength, hclass⟩
    | universal | oci => exact ⟨Nat.le_trans (by omega) hlength, hclass⟩

end Compliance

end ImageReference
