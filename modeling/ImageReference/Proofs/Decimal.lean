import ImageReference.Proofs.CharClass
import ImageReference.Text.Decimal

/-!
# Reading written numbers

A number that is written in decimal is read back, as long as it has no more
digits than are ever read.
-/

namespace ImageReference.Decimal

variable {c : Char} {text : Text}

def digitOf (c : Char) : Nat := c.toNat - '0'.toNat

theorem digitValue?_of_digit (h : CharClass.digit c = true) :
    digitValue? c = some (digitOf c) := by
  rw [CharClass.digit_iff] at h
  have hzero : (decide (0x30 ≤ c.toNat) && decide (c.toNat < 0x30 + 10)) = true := by
    simp only [Bool.and_eq_true, decide_eq_true_eq]
    omega
  have hfirst : zeros.find? (fun first => first ≤ c.toNat && c.toNat < first + 10) = some 0x30 :=
    List.find?_cons_of_pos hzero
  rw [digitValue?, hfirst]
  rfl

theorem digits?_of_digit (h : ∀ c ∈ text, CharClass.digit c = true) (hne : text ≠ []) :
    digits? text = some (text.map digitOf) := by
  fun_induction digits? text with
  | case1 => exact absurd rfl hne
  | case2 c =>
    rw [digitValue?_of_digit (h c (by simp))]
    rfl
  | case3 c rest =>
    have hunder := h '_' (by simp)
    cases hunder
  | case4 c d rest _ ih =>
    rw [digitValue?_of_digit (h c (by simp)), ih (fun e he => h e (by simp [he])) (by simp)]
    rfl

theorem isBlank_of_digit (h : CharClass.digit c = true) : isBlank c = false := by
  rw [CharClass.digit_iff] at h
  simp only [isBlank, Bool.or_eq_false_iff, Bool.and_eq_false_iff, decide_eq_false_iff_not,
    beq_eq_false_iff_ne]
  omega

theorem digit_of_mem_ofNat {n : Nat} (h : c ∈ ofNat n) : CharClass.digit c = true :=
  Nat.isDigit_of_mem_toDigits (by omega) (by omega) h

theorem ofNat_ne_nil (n : Nat) : ofNat n ≠ [] := Nat.toDigits_ne_nil

theorem toNat_ofNat (n : Nat) : toNat (ofNat n) = n :=
  Nat.ofDigitChars_toDigits (by omega) (by omega)

theorem magnitude?_of_digit (h : ∀ c ∈ text, CharClass.digit c = true) (hne : text ≠ [])
    (hlength : text.length ≤ maxDigits) : magnitude? text = some (toNat text) := by
  rw [magnitude?, digits?_of_digit h hne]
  change (if (text.map digitOf).length ≤ maxDigits then
    some ((text.map digitOf).foldl (10 * · + ·) 0) else none) = _
  rw [List.length_map, if_pos hlength, List.foldl_map]
  rfl

theorem mem_ofInt {n : Int} (h : c ∈ ofInt n) : c = '-' ∨ CharClass.digit c = true := by
  cases n with
  | ofNat n => exact .inr (digit_of_mem_ofNat h)
  | negSucc n => exact (List.mem_cons.mp h).imp_right digit_of_mem_ofNat

theorem dropWhile_isBlank (h : ∀ c ∈ text, isBlank c = false) : text.dropWhile isBlank = text := by
  cases text with
  | nil => rfl
  | cons c text => rw [List.dropWhile_cons_of_neg (by simp [h c])]

theorem toInt?_of_digit (h : ∀ c ∈ text, CharClass.digit c = true) (hne : text ≠ [])
    (hlength : text.length ≤ maxDigits) : toInt? text = some (toNat text : Int) := by
  have hblank : ∀ c ∈ text, isBlank c = false := fun c hc => isBlank_of_digit (h c hc)
  have hsign : ∀ sign rest, CharClass.digit sign = false → text ≠ sign :: rest := by
    intro sign rest hsign he
    rw [h sign (he ▸ List.mem_cons_self)] at hsign
    cases hsign
  rw [toInt?, dropWhile_isBlank hblank, dropWhile_isBlank (by simpa using hblank),
    List.reverse_reverse]
  split
  · exact absurd rfl (hsign '-' _ rfl)
  · exact absurd rfl (hsign '+' _ rfl)
  · change Option.map _ (do let value ← magnitude? text; pure (value : Int)) = _
    rw [magnitude?_of_digit h hne hlength]
    rfl

theorem toInt?_ofInt (n : Int) (h : (ofNat n.natAbs).length ≤ maxDigits) :
    toInt? (ofInt n) = some n := by
  cases n with
  | ofNat n =>
    have hread := toInt?_of_digit (fun c => digit_of_mem_ofNat) (ofNat_ne_nil n) h
    rwa [toNat_ofNat] at hread
  | negSucc n =>
    have hmagnitude : magnitude? (ofNat (n + 1)) = some (n + 1) := by
      have hread := magnitude?_of_digit (fun c => digit_of_mem_ofNat) (ofNat_ne_nil (n + 1)) h
      rwa [toNat_ofNat] at hread
    have hblank : ∀ c ∈ ofInt (.negSucc n), isBlank c = false := by
      intro c hc
      rcases mem_ofInt hc with rfl | hdigit
      · rfl
      · exact isBlank_of_digit hdigit
    rw [toInt?, dropWhile_isBlank hblank, dropWhile_isBlank (by simpa using hblank),
      List.reverse_reverse]
    change Option.map _ (do let value ← magnitude? (ofNat (n + 1)); pure (value : Int)) = _
    rw [hmagnitude]
    rfl

end ImageReference.Decimal
