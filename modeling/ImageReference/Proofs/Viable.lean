import ImageReference.Text.CharClass
import Mathlib.Computability.Language

/-!
# Viable front parts

A front part is viable in a language if some text of the language starts with
it. Every text has a longest viable front part, and a scanner that reads as far
as it can stops behind it. Where the texts of one language hold no mark and the
texts of a second one start with a mark, the cut of their product is the cut of
the first followed by the cut of the second.
-/

namespace ImageReference

variable {L M : Language Char} {front more rest : Text}

def Viable (L : Language Char) (front : Text) : Prop := ∃ rest, front ++ rest ∈ L

theorem Viable.of_mem (h : front ∈ L) : Viable L front := ⟨[], by simpa using h⟩

theorem Viable.of_append (h : Viable L (front ++ more)) : Viable L front := by
  obtain ⟨rest, hrest⟩ := h
  exact ⟨more ++ rest, by simpa using hrest⟩

/-- The front part is viable, and with one character more it is not. -/
structure Cut (L : Language Char) (front rest : Text) : Prop where
  viable : Viable L front
  stuck : ∀ c ∈ rest.head?, ¬ Viable L (front ++ [c])

theorem Cut.of_nil (h : Viable L front) : Cut L front [] := ⟨h, by simp⟩

theorem Cut.of_cons {c : Char} (h : Viable L front) (hc : ¬ Viable L (front ++ [c])) :
    Cut L front (c :: rest) := by
  refine ⟨h, fun d hd => ?_⟩
  cases hd
  exact hc

theorem Cut.eq_nil (h : Cut L front (more ++ rest)) (hmore : Viable L (front ++ more)) :
    more = [] := by
  cases more with
  | nil => rfl
  | cons c more =>
    have hlonger : Viable L (front ++ [c] ++ more) := by simpa using hmore
    exact absurd hlonger.of_append (h.stuck c (by simp))

theorem Cut.unique {front' rest' : Text} (h : Cut L front rest) (h' : Cut L front' rest')
    (he : front ++ rest = front' ++ rest') : front = front' ∧ rest = rest' := by
  rcases List.append_eq_append_iff.mp he with ⟨more, rfl, rfl⟩ | ⟨more, rfl, rfl⟩
  · simp [h.eq_nil h'.viable]
  · simp [h'.eq_nil h.viable]

theorem mem_singleton_mul {before : Text} : before ++ front ∈ {before} * L ↔ front ∈ L := by
  constructor
  · intro h
    obtain ⟨a, rfl, b, hb, he⟩ := Language.mem_mul.mp h
    exact List.append_cancel_left he ▸ hb
  · exact fun h => Language.append_mem_mul rfl h

theorem viable_singleton_mul {before : Text} :
    Viable ({before} * L) (before ++ front) ↔ Viable L front := by
  simp only [Viable, List.append_assoc, mem_singleton_mul]

theorem Cut.singleton_mul {before : Text} (h : Cut L front rest) :
    Cut ({before} * L) (before ++ front) rest := by
  refine ⟨viable_singleton_mul.mpr h.viable, fun c hc hv => h.stuck c hc ?_⟩
  rw [List.append_assoc] at hv
  exact viable_singleton_mul.mp hv

/-- No text of the first language holds a mark, and every text of the second is empty or starts
with one. -/
structure Parted (L M : Language Char) (mark : CharClass) : Prop where
  clear : ∀ text ∈ L, ∀ c ∈ text, mark c = false
  opens : ∀ c rest, c :: rest ∈ M → mark c = true

namespace Parted

variable {mark : CharClass}

-- A front part that is viable in the first language holds no mark, so the second part of a
-- product cannot start inside it.
theorem first_extends (h : Parted L M mark) (hfront : Viable L front) {a b : Text} (ha : a ∈ L)
    (hb : b ∈ M) (he : a ++ b = front ++ rest) : ∃ more, a = front ++ more ∧ rest = more ++ b := by
  rcases List.append_eq_append_iff.mp he with ⟨past, rfl, rfl⟩ | ⟨more, rfl, rfl⟩
  · cases past with
    | nil => exact ⟨[], by simp, by simp⟩
    | cons c past =>
      obtain ⟨tail, htail⟩ := hfront
      have hclear := h.clear _ htail c (by simp)
      have hopens := h.opens c _ hb
      simp [hclear] at hopens
  · exact ⟨more, rfl, rfl⟩

theorem cut_mul (h : Parted L M mark) (hfront : front ∈ L) (hcut : Cut L front (more ++ rest))
    (hmore : Cut M more rest) : Cut (L * M) (front ++ more) rest := by
  refine ⟨?_, ?_⟩
  · obtain ⟨tail, htail⟩ := hmore.viable
    exact ⟨tail, by simpa using Language.append_mem_mul hfront htail⟩
  · intro c hc hviable
    obtain ⟨tail, htail⟩ := hviable
    obtain ⟨a, ha, b, hb, he⟩ := Language.mem_mul.mp htail
    have he' : a ++ b = front ++ (more ++ [c] ++ tail) := by simpa using he
    obtain ⟨past, rfl, hpast⟩ := h.first_extends (.of_mem hfront) ha hb he'
    cases past with
    | nil => exact hmore.stuck c hc ⟨tail, hpast ▸ hb⟩
    | cons d past =>
      -- the first part goes on with the character behind it, which is a part of `more ++ rest`
      have hlonger : Viable L (front ++ [d] ++ past) := .of_mem (by simpa using ha)
      refine hcut.stuck d ?_ hlonger.of_append
      cases more <;> simp_all

theorem cut_mul_of_notMem (h : Parted L M mark) (hM : Viable M []) (hfront : front ∉ L)
    (hcut : Cut L front rest) : Cut (L * M) front rest ∧ front ∉ L * M := by
  refine ⟨⟨?_, ?_⟩, ?_⟩
  · obtain ⟨tail, htail⟩ := hcut.viable
    obtain ⟨b, hb⟩ := hM
    exact ⟨tail ++ b, by simpa using Language.append_mem_mul htail hb⟩
  · intro c hc hviable
    obtain ⟨tail, htail⟩ := hviable
    obtain ⟨a, ha, b, hb, he⟩ := Language.mem_mul.mp htail
    have he' : a ++ b = front ++ ([c] ++ tail) := by simpa using he
    obtain ⟨past, rfl, hpast⟩ := h.first_extends hcut.viable ha hb he'
    cases past with
    | nil => exact hfront (by simpa using ha)
    | cons d past =>
      obtain ⟨rfl, -⟩ : c = d ∧ tail = past ++ b := by simpa using hpast
      have hlonger : Viable L (front ++ [c] ++ past) := .of_mem (by simpa using ha)
      exact hcut.stuck c hc hlonger.of_append
  · intro hmem
    obtain ⟨a, ha, b, hb, he⟩ := Language.mem_mul.mp hmem
    have he' : a ++ b = front ++ [] := by simpa using he
    obtain ⟨past, rfl, hpast⟩ := h.first_extends hcut.viable ha hb he'
    obtain ⟨rfl, -⟩ := List.append_eq_nil_iff.mp hpast.symm
    exact hfront (by simpa using ha)

theorem mul_inj (h : Parted L M mark) {a b a' b' : Text} (ha : a ∈ L) (hb : b ∈ M) (ha' : a' ∈ L)
    (hb' : b' ∈ M) (he : a ++ b = a' ++ b') : a = a' ∧ b = b' := by
  obtain ⟨more, rfl, rfl⟩ := h.first_extends (.of_mem ha') ha hb he
  obtain ⟨more', hmore, -⟩ := h.first_extends (.of_mem ha) ha' hb' he.symm
  obtain rfl : more = [] := by
    have hlength := congrArg List.length hmore
    simp only [List.length_append] at hlength
    exact List.eq_nil_of_length_eq_zero (by omega)
  simp

end Parted

/-- A scanner gives up behind the front part: the front part is not complete, or the character
behind it is one that spoils the text. -/
structure Halt (L : Language Char) (spoils : CharClass) (front rest : Text) : Prop
    extends Cut L front rest where
  spoiled : front ∈ L → ∃ c ∈ rest.head?, spoils c = true

theorem Halt.singleton_mul {spoils : CharClass} {before : Text} (h : Halt L spoils front rest) :
    Halt ({before} * L) spoils (before ++ front) rest :=
  ⟨h.toCut.singleton_mul, fun hmem => h.spoiled (mem_singleton_mul.mp hmem)⟩

namespace Parted

variable {mark spoils : CharClass}

theorem halt_mul (h : Parted L M mark) (hM : Viable M [])
    (hspoils : ∀ c, spoils c = true → mark c = false) (hhalt : Halt L spoils front rest) :
    Halt (L * M) spoils front rest := by
  by_cases hfront : front ∈ L
  · obtain ⟨c, hc, hspoil⟩ := hhalt.spoiled hfront
    have hnil : Cut M [] rest := by
      refine ⟨hM, fun d hd hviable => ?_⟩
      obtain ⟨tail, htail⟩ := hviable
      obtain rfl : c = d := Option.some_inj.mp (hc.symm.trans hd)
      have hopens := h.opens c _ htail
      simp [hspoils c hspoil] at hopens
    have hcut : Cut (L * M) (front ++ []) rest := h.cut_mul hfront hhalt.toCut hnil
    exact ⟨by simpa using hcut, fun _ => ⟨c, hc, hspoil⟩⟩
  · have hcut := h.cut_mul_of_notMem hM hfront hhalt.toCut
    exact ⟨hcut.1, fun hmem => absurd hmem hcut.2⟩

theorem halt_mul_of_mem (h : Parted L M mark) (hfront : front ∈ L)
    (hcut : Cut L front (more ++ rest)) (hhalt : Halt M spoils more rest) :
    Halt (L * M) spoils (front ++ more) rest := by
  refine ⟨h.cut_mul hfront hcut hhalt.toCut, fun hmem => hhalt.spoiled ?_⟩
  obtain ⟨a, ha, b, hb, he⟩ := Language.mem_mul.mp hmem
  obtain ⟨past, rfl, rfl⟩ := h.first_extends (.of_mem hfront) ha hb he
  have hlonger : Cut L front (past ++ (b ++ rest)) := by simpa using hcut
  rwa [hlonger.eq_nil (.of_mem ha)]

end Parted

end ImageReference
