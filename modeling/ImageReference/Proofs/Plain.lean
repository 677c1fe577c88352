import ImageReference.Proofs.CharClass
import ImageReference.Proofs.Outcome
import ImageReference.Reference

/-!
# The plain front part of a text

The characters of ASCII are plain, and every class of the grammar holds plain
characters only. A result lies in the plain front part of a text if each of its
places does: the stop of a value, the offset of a failure, and where the scan
had halted by then.
-/

namespace ImageReference

variable {α β : Type} {c : Char} {p : CharClass} {text front rest : Text} {here place n : Int}

namespace CharClass

def plain : CharClass := fun c => c.toNat < 128

def Native (p : CharClass) : Prop := ∀ c, p c = true → plain c = true

theorem Native.foreign (hp : Native p) (hc : plain c = false) : p c = false := by
  rw [Bool.eq_false_iff]
  intro h
  rw [hp c h] at hc
  cases hc

theorem native_digit : Native digit := by
  intro c h
  rw [digit_iff] at h
  exact decide_eq_true (by omega)

theorem native_upper : Native upper := by
  intro c h
  rw [upper_iff] at h
  exact decide_eq_true (by omega)

theorem native_lower : Native lower := by
  intro c h
  rw [lower_iff] at h
  exact decide_eq_true (by omega)

theorem Native.or {q : CharClass} (hp : Native p) (hq : Native q) :
    Native fun c => p c || q c := by
  intro c h
  rcases Bool.or_eq_true_iff.mp h with h | h
  · exact hp c h
  · exact hq c h

theorem native_mark {mark : Char} (h : plain mark = true) : Native (· == mark) := by
  intro c hc
  obtain rfl : c = mark := beq_iff_eq.mp hc
  exact h

theorem native_colon : Native (· == ':') := native_mark rfl

theorem native_lowerAlnum : Native lowerAlnum := native_lower.or native_digit

theorem native_alnum : Native alnum := (native_upper.or native_lower).or native_digit

theorem native_hex : Native hex := fun c h => native_alnum c (alnum_of_hex h)

theorem native_ociEncoded : Native ociEncoded :=
  ((native_alnum.or (native_mark rfl)).or (native_mark rfl)).or (native_mark rfl)

theorem native_word : Native word := native_alnum.or (native_mark rfl)

theorem native_tag : Native tag := (native_word.or (native_mark rfl)).or (native_mark rfl)

theorem native_ipv4 : Native ipv4 := native_digit.or (native_mark rfl)

theorem native_algorithmSeparator : Native algorithmSeparator :=
  (((native_mark rfl).or (native_mark rfl)).or (native_mark rfl)).or (native_mark rfl)

end CharClass

/-- How many plain characters stand in front of the first foreign one. -/
def plainLength (text : Text) : Int := (text.takeWhile CharClass.plain).length

@[simp] theorem plainLength_nil : plainLength [] = 0 := rfl

theorem plainLength_cons (hc : CharClass.plain c = true) :
    plainLength (c :: rest) = plainLength rest + 1 := by
  simp [plainLength, hc]

theorem plainLength_foreign (hc : CharClass.plain c = false) : plainLength (c :: rest) = 0 := by
  simp [plainLength, hc]

theorem plainLength_nonneg (text : Text) : 0 ≤ plainLength text := Int.natCast_nonneg _

theorem plainLength_le (text : Text) : plainLength text ≤ text.length := by
  have hprefix : text.takeWhile CharClass.plain <+: text := List.takeWhile_prefix _
  exact Int.ofNat_le.mpr hprefix.length_le

theorem plainLength_append (h : ∀ c ∈ front, CharClass.plain c = true) :
    plainLength (front ++ rest) = front.length + plainLength rest := by
  rw [plainLength, List.takeWhile_append_of_pos h, List.length_append, Int.natCast_add]
  rfl

theorem length_le_plainLength (hfront : front <+: text)
    (h : ∀ c ∈ front, CharClass.plain c = true) : front.length ≤ plainLength text := by
  obtain ⟨rest, rfl⟩ := hfront
  have hrest := plainLength_nonneg rest
  rw [plainLength_append h]
  omega

theorem plain_take (hplace : place ≤ plainLength text) :
    ∀ c ∈ text.take place.toNat, CharClass.plain c = true := by
  intro c hc
  have hlength : place.toNat ≤ (text.takeWhile CharClass.plain).length := by
    rw [plainLength] at hplace
    omega
  obtain ⟨rest, hrest⟩ : text.takeWhile CharClass.plain <+: text := List.takeWhile_prefix _
  rw [← hrest, List.take_append_of_le_length hlength] at hc
  exact List.all_eq_true.mp List.all_takeWhile c (List.mem_of_mem_take hc)

theorem plainLength_drop (hnonneg : 0 ≤ place) (hplace : place ≤ plainLength text) :
    plainLength (text.drop place.toNat) = plainLength text - place := by
  have hlength := plainLength_le text
  have hsplit : plainLength (text.take place.toNat ++ text.drop place.toNat) = _ :=
    plainLength_append (plain_take hplace)
  rw [List.take_append_drop, List.length_take] at hsplit
  omega

theorem succ_le_plainLength (hnonneg : 0 ≤ place) (hplace : place ≤ plainLength text)
    (hhead : (text.drop place.toNat).head? = some c) (hc : CharClass.plain c = true) :
    place + 1 ≤ plainLength text := by
  have hrest := plainLength_drop hnonneg hplace
  obtain ⟨rest, hcons⟩ := List.head?_eq_some_iff.mp hhead
  rw [hcons, plainLength_cons hc] at hrest
  have hlength := plainLength_nonneg rest
  omega

theorem plainLength_eq_iff :
    plainLength text = text.length ↔ ∀ c ∈ text, CharClass.plain c = true := by
  constructor
  · intro h
    have hplain : ∀ c ∈ text.take (text.length : Int).toNat, CharClass.plain c = true :=
      plain_take (Int.le_of_eq h.symm)
    rwa [Int.toNat_natCast, List.take_length] at hplain
  · intro h
    have hwhole : plainLength (text ++ []) = _ := plainLength_append h
    rwa [List.append_nil, plainLength_nil, Int.add_zero] at hwhole

def places : Except Failure (Scanned α) → List Int
  | .ok found => [found.stop]
  | .error failure => [failure.offset, failure.halted]

@[simp] theorem places_map (f : α → β) (result : Except Failure (Scanned α)) :
    places (result.map (Scanned.map f)) = places result := by
  cases result <;> rfl

theorem places_shift [Shift α] (n : Int) (result : Except Failure (Scanned α)) :
    places (shift n result) = (places result).map (· + n) := by
  cases result <;> rfl

/-- All places of the result lie in the plain front part of a text that starts at `here`. -/
def Lies (here : Int) (text : Text) (result : Except Failure (Scanned α)) : Prop :=
  ∀ place ∈ places result, here ≤ place ∧ place ≤ here + plainLength text

namespace Lies

variable {result : Except Failure (Scanned α)}

theorem ok_iff {value : α} {stop : Int} :
    Lies here text (.ok ⟨value, stop⟩) ↔ here ≤ stop ∧ stop ≤ here + plainLength text := by
  simp [Lies, places]

theorem error_iff {kind : RejectionKind} {offset halted reach : Int} :
    Lies here text (.error ⟨kind, offset, halted, reach⟩ : Except Failure (Scanned α)) ↔
      (here ≤ offset ∧ offset ≤ here + plainLength text) ∧
        here ≤ halted ∧ halted ≤ here + plainLength text := by
  simp [Lies, places]

theorem ok_here (value : α) : Lies here text (.ok ⟨value, here⟩) := by
  have hnonneg := plainLength_nonneg text
  rw [ok_iff]
  omega

theorem error_here {failure : Failure} (hoffset : failure.offset = here)
    (hhalted : failure.halted = here) :
    Lies here text (.error failure : Except Failure (Scanned α)) := by
  have hnonneg := plainLength_nonneg text
  exact error_iff.mpr ⟨by omega, by omega⟩

theorem map (f : α → β) (h : Lies here text result) :
    Lies here text (result.map (Scanned.map f)) := by
  rwa [Lies, places_map]

theorem append (hfront : ∀ c ∈ front, CharClass.plain c = true)
    (h : Lies (here + front.length) rest result) : Lies here (front ++ rest) result := by
  intro place hplace
  obtain ⟨hlow, hhigh⟩ := h place hplace
  rw [plainLength_append hfront]
  omega

theorem cons (hc : CharClass.plain c = true) (h : Lies (here + 1) rest result) :
    Lies here (c :: rest) result := by
  have hfront : ∀ d ∈ [c], CharClass.plain d = true := by simpa using hc
  exact append hfront h

theorem pred (hc : CharClass.plain c = true) (h : Lies here rest result) :
    Lies (here - 1) (c :: rest) result := by
  refine cons hc ?_
  rwa [Int.sub_add_cancel]

theorem of_drop (hnonneg : 0 ≤ place) (hplace : place ≤ plainLength text)
    (h : Lies (here + place) (text.drop place.toNat) result) : Lies here text result := by
  intro other hother
  obtain ⟨hlow, hhigh⟩ := h other hother
  rw [plainLength_drop hnonneg hplace] at hhigh
  omega

theorem drop_cons {more : Nat} (hc : CharClass.plain c = true) (hmore : more ≤ plainLength rest)
    (h : Lies (here + (more + 1)) (rest.drop more) result) : Lies here (c :: rest) result := by
  have hplace : ((more + 1 : Nat) : Int) ≤ plainLength (c :: rest) := by
    rw [plainLength_cons hc]
    omega
  exact of_drop (Int.natCast_nonneg _) hplace h

theorem extend (h : Lies here front result) (rest : Text) : Lies here (front ++ rest) result := by
  have hlength : plainLength front ≤ plainLength (front ++ rest) := by
    have hprefix : front.takeWhile CharClass.plain <+: front ++ rest :=
      (List.takeWhile_prefix _).trans (List.prefix_append front rest)
    exact length_le_plainLength hprefix (List.all_eq_true.mp List.all_takeWhile)
  intro place hplace
  obtain ⟨hlow, hhigh⟩ := h place hplace
  omega

theorem shifted [Shift α] (h : Lies here text result) (n : Int) :
    Lies (here + n) text (shift n result) := by
  rw [Lies, places_shift]
  intro place hplace
  obtain ⟨other, hother, rfl⟩ := List.mem_map.mp hplace
  obtain ⟨hlow, hhigh⟩ := h other hother
  omega

theorem bind {next : Scanned α → Except Failure (Scanned β)} (h : Lies 0 text result)
    (hnext : ∀ found, result = .ok found → 0 ≤ found.stop → found.stop ≤ plainLength text →
      Lies 0 text (next found)) : Lies 0 text (result >>= next) := by
  cases result with
  | error failure => exact h
  | ok found =>
    rw [ok_iff, Int.zero_add] at h
    exact hnext found rfl h.1 h.2

theorem bind_congr {next next' : Scanned α → Except Failure (Scanned β)} (h : Lies 0 text result)
    (hnext : ∀ found, 0 ≤ found.stop → found.stop ≤ plainLength text → next found = next' found) :
    result >>= next = result >>= next' := by
  cases result with
  | error failure => rfl
  | ok found =>
    rw [ok_iff, Int.zero_add] at h
    exact hnext found h.1 h.2

theorem behind [Shift α] {scan : Scan α} (hscan : ∀ text, Lies 0 text (scan text))
    (hnonneg : 0 ≤ place) (hplace : place ≤ plainLength text) :
    Lies 0 text (scan.behind place text) := by
  have hrest := (hscan (text.drop place.toNat)).shifted place
  exact of_drop hnonneg hplace hrest

theorem marked [Shift α] {mark : Char} {scan : Scan α} (hmark : CharClass.plain mark = true)
    (hscan : ∀ text, Lies 0 text (scan text)) (hnonneg : 0 ≤ place)
    (hplace : place ≤ plainLength text) : Lies 0 text (Scan.marked mark scan place text) := by
  by_cases hhead : (text.drop place.toNat).head? = some mark
  · have hbehind := succ_le_plainLength hnonneg hplace hhead hmark
    rw [Scan.marked, if_pos hhead]
    exact (behind hscan (by omega) hbehind).map _
  · rw [Scan.marked, if_neg hhead, ok_iff]
    omega

end Lies

end ImageReference
