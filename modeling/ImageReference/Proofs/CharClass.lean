import ImageReference.Text.CharClass

/-!
# Classes, runs and bytes

Which classes lie in which others. Every text is a run of characters of a class,
followed by nothing or by a character outside of it; both parts are found by
taking characters. Every text also has an encoding in bytes, and reading the
bytes gives the text again.
-/

namespace ImageReference.CharClass

variable {c : Char}

theorem upper_iff : upper c = true ↔ 65 ≤ c.toNat ∧ c.toNat ≤ 90 := by
  change decide ('A'.val ≤ c.val ∧ c.val ≤ 'Z'.val) = true ↔ _
  rw [decide_eq_true_eq]
  exact Iff.rfl

theorem lower_iff : lower c = true ↔ 97 ≤ c.toNat ∧ c.toNat ≤ 122 := by
  change (decide ('a'.val ≤ c.val) && decide (c.val ≤ 'z'.val)) = true ↔ _
  rw [Bool.and_eq_true, decide_eq_true_eq, decide_eq_true_eq]
  exact Iff.rfl

theorem digit_iff : digit c = true ↔ 48 ≤ c.toNat ∧ c.toNat ≤ 57 := Char.isDigit_iff_toNat

theorem alpha_eq (c : Char) : alpha c = (upper c || lower c) := rfl

theorem alnum_eq (c : Char) : alnum c = (alpha c || digit c) := rfl

theorem upper_of_digit (h : digit c = true) : upper c = false := by
  rw [digit_iff] at h
  rw [Bool.eq_false_iff, Ne, upper_iff]
  omega

theorem upper_of_lower (h : lower c = true) : upper c = false := by
  rw [lower_iff] at h
  rw [Bool.eq_false_iff, Ne, upper_iff]
  omega

theorem upper_of_lowerAlnum (h : lowerAlnum c = true) : upper c = false := by
  rw [lowerAlnum, Bool.or_eq_true] at h
  cases h with
  | inl h => exact upper_of_lower h
  | inr h => exact upper_of_digit h

theorem digit_of_alpha (h : alpha c = true) : digit c = false := by
  rw [alpha_eq, Bool.or_eq_true, upper_iff, lower_iff] at h
  rw [Bool.eq_false_iff, Ne, digit_iff]
  omega

theorem alnum_of_alpha (h : alpha c = true) : alnum c = true := by
  rw [alnum_eq, h, Bool.true_or]

theorem alnum_of_hex (h : hex c = true) : alnum c = true := by
  simp only [hex, lowerHex, Bool.or_eq_true, Bool.and_eq_true, decide_eq_true_eq] at h
  rw [alnum_eq, alpha_eq, Bool.or_eq_true, Bool.or_eq_true, upper_iff, lower_iff]
  rcases h with (h | h) | h
  · exact .inr h
  · exact .inl (.inr ⟨h.1, Nat.le_trans h.2 (by decide)⟩)
  · exact .inl (.inl ⟨h.1, Nat.le_trans h.2 (by decide)⟩)

theorem alnum_of_separator (h : algorithmSeparator c = true) : alnum c = false := by
  have hmarks : ∀ c ∈ ['+', '.', '_', '-'], alnum c = false := by simp [alnum]
  apply hmarks
  simpa [algorithmSeparator, or_assoc] using h

theorem ne_mark_of_upper (h : upper c = true) : c ≠ ':' ∧ c ≠ '@' := by
  constructor
  · intro he
    rw [he] at h
    cases h
  · intro he
    rw [he] at h
    cases h

theorem ne_at_of_tag (h : tag c = true) : c ≠ '@' := by
  intro he
  rw [he] at h
  cases h

theorem ne_mark_of_hex (h : hex c = true) : c ≠ ':' ∧ c ≠ ']' := by
  constructor
  · intro he
    rw [he] at h
    cases h
  · intro he
    rw [he] at h
    cases h

theorem tag_of_word (h : word c = true) : tag c = true := by
  simp [tag, h]

theorem domainLabel_of_alnum (h : alnum c = true) : domainLabel c = true := by
  simp [domainLabel, h]

theorem ipv4_of_digit (h : digit c = true) : ipv4 c = true := by
  simp [ipv4, h]

end ImageReference.CharClass

namespace ImageReference

variable {p : CharClass} {text run rest : Text}

theorem exists_run (p : CharClass) (text : Text) : ∃ run rest, text = run ++ rest ∧
    (∀ c ∈ run, p c = true) ∧ ∀ c ∈ rest.head?, p c = false := by
  refine ⟨text.takeWhile p, text.dropWhile p, List.takeWhile_append_dropWhile.symm, ?_, ?_⟩
  · exact List.all_eq_true.mp List.all_takeWhile
  · intro c hc
    have hhead := List.head?_dropWhile_not p text
    rw [Option.mem_def.mp hc] at hhead
    exact hhead

theorem takeWhile_run (hrun : ∀ c ∈ run, p c = true) (hrest : ∀ c ∈ rest.head?, p c = false) :
    (run ++ rest).takeWhile p = run := by
  rw [List.takeWhile_append_of_pos hrun]
  cases rest with
  | nil => simp
  | cons c rest => simp [hrest c rfl]

theorem takeWhile_take_run (hrun : ∀ c ∈ run, p c = true) (hrest : ∀ c ∈ rest.head?, p c = false)
    (n : Nat) : ((run ++ rest).take n).takeWhile p = run.take n := by
  rw [← List.take_takeWhile, takeWhile_run hrun hrest]

theorem cut_unique {mark : Char} {front front' rest' : Text} (hfront : mark ∉ front)
    (hfront' : mark ∉ front') (h : front ++ mark :: rest = front' ++ mark :: rest') :
    front = front' ∧ rest = rest' := by
  rcases List.append_eq_append_iff.mp h with ⟨more, rfl, hmore⟩ | ⟨more, rfl, hmore⟩
  · cases more with
    | nil => simpa using hmore
    | cons c more =>
      obtain ⟨rfl, -⟩ := List.cons.inj hmore
      simp at hfront'
  · cases more with
    | nil => simpa [eq_comm] using hmore
    | cons c more =>
      obtain ⟨rfl, -⟩ := List.cons.inj hmore
      simp at hfront

theorem toUtf8_toArray (text : Text) : (⟨(toUtf8 text).toArray⟩ : ByteArray) = text.utf8Encode :=
  ByteArray.ext List.data_toByteArray.symm

theorem ofUtf8?_toUtf8 (text : Text) : ofUtf8? (toUtf8 text) = some text := by
  rw [ofUtf8?, toUtf8_toArray, String.fromUTF8?, dif_pos ByteArray.isValidUTF8_utf8Encode]
  exact congrArg some String.toList_ofList

end ImageReference
