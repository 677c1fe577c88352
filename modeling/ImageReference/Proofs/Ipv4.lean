import ImageReference.Host
import ImageReference.Proofs.CharClass
import ImageReference.Proofs.Grammar
import ImageReference.Proofs.Outcome
import ImageReference.Proofs.SplitSpans
import ImageReference.Text.Decimal

/-!
# Scanning IPv4 addresses

The scan passes over the characters between the octets without looking at them.
In a run of digits and dots with three dots these characters are the dots, so
the scan succeeds on it exactly if the run is an address.
-/

namespace ImageReference.Ipv4

variable {a rest run text : Text} {here : Int} {more : Nat}

theorem decimalValue_eq (digits : Text) : Grammar.decimalValue digits = Decimal.toNat digits := by
  rw [Grammar.decimalValue, Decimal.toNat, List.foldl_eq_foldr_reverse]
  generalize digits.reverse = units
  induction units with
  | nil => rfl
  | cons c units ih =>
    rw [List.map_cons, Nat.ofDigits_cons, ih, List.foldr_cons]
    omega

theorem octet_of_mem (ha : a ∈ Grammar.octet)
    (hrest : ∀ c ∈ rest.head?, CharClass.digit c = false) :
    octet here (a ++ rest) = .ok ⟨⟨here, a.length⟩, here + a.length⟩ := by
  obtain ⟨⟨hlength, hdigit⟩, hshort, hvalue⟩ := ha
  have hdigits : octetDigitsMax = 3 := rfl
  have hmax : octetMax = 255 := rfl
  have hne : a.isEmpty = false := by
    rw [List.isEmpty_eq_false_iff]
    exact List.ne_nil_of_length_pos hlength
  rw [decimalValue_eq] at hvalue
  rw [octet, takeWhile_run hdigit hrest]
  rw [if_neg (by simp [hne]), if_neg (by omega), if_neg (by omega)]

theorem octet_sound {found : Scanned Span} (ha : ∀ c ∈ a, CharClass.digit c = true)
    (hrest : ∀ c ∈ rest.head?, CharClass.digit c = false)
    (h : octet here (a ++ rest) = .ok found) :
    a ∈ Grammar.octet ∧ found = ⟨⟨here, a.length⟩, here + a.length⟩ := by
  have hdigits : octetDigitsMax = 3 := rfl
  have hmax : octetMax = 255 := rfl
  rw [octet, takeWhile_run ha hrest] at h
  split at h
  · cases h
  · next hne =>
    split at h
    · cases h
    · next hshort =>
      split at h
      · cases h
      · next hvalue =>
        have hlength : 0 < a.length := List.length_pos_iff.mpr (by simpa using hne)
        rw [← decimalValue_eq] at hvalue
        exact ⟨⟨⟨hlength, ha⟩, by omega, by omega⟩, (Except.ok.inj h).symm⟩

def dotted (more : Nat) : Language Char := Grammar.octet * ({['.']} * Grammar.octet) ^ more

theorem mem_dotted_zero : run ∈ dotted 0 ↔ run ∈ Grammar.octet := by
  rw [dotted, pow_zero, mul_one]

theorem mem_dotted_succ :
    run ∈ dotted (more + 1) ↔
      ∃ a ∈ Grammar.octet, ∃ tail ∈ dotted more, run = a ++ '.' :: tail := by
  have heq : dotted (more + 1) = Grammar.octet * ({['.']} * dotted more) := by
    rw [dotted, dotted, pow_succ', mul_assoc]
  rw [heq]
  constructor
  · intro h
    obtain ⟨a, ha, b, hb, rfl⟩ := Language.mem_mul.mp h
    obtain ⟨dot, rfl, tail, htail, rfl⟩ := Language.mem_mul.mp hb
    exact ⟨a, ha, tail, htail, rfl⟩
  · intro h
    obtain ⟨a, ha, tail, htail, rfl⟩ := h
    have hdot : ['.'] ++ tail ∈ {['.']} * dotted more := Language.append_mem_mul rfl htail
    exact Language.append_mem_mul ha hdot

theorem count_digits (h : ∀ c ∈ a, CharClass.digit c = true) : a.count '.' = 0 := by
  rw [List.count_eq_zero]
  intro hmem
  have hdot := h '.' hmem
  revert hdot
  decide

theorem dot_stops (text : Text) : ∀ c ∈ ('.' :: text).head?, CharClass.digit c = false := by
  simp only [List.head?_cons, Option.mem_some_iff, forall_eq']
  decide

theorem exists_dot (hrun : ∀ c ∈ run, CharClass.ipv4 c = true) (hdots : run.count '.' = more + 1) :
    ∃ a tail, run = a ++ '.' :: tail ∧ (∀ c ∈ a, CharClass.digit c = true) ∧
      (∀ c ∈ tail, CharClass.ipv4 c = true) ∧ tail.count '.' = more := by
  obtain ⟨a, tail, rfl, ha, htail⟩ := exists_run CharClass.digit run
  rw [List.count_append, count_digits ha, Nat.zero_add] at hdots
  cases tail with
  | nil => simp at hdots
  | cons c tail =>
    obtain rfl : c = '.' := by
      have hc := hrun c (by simp)
      simpa [CharClass.ipv4, htail c rfl] using hc
    rw [List.count_cons_self, Nat.add_right_cancel_iff] at hdots
    exact ⟨a, tail, rfl, ha, fun d hd => hrun d (by simp [hd]), hdots⟩

theorem dotted_chars (h : run ∈ dotted more) :
    (∀ c ∈ run, CharClass.ipv4 c = true) ∧ run.count '.' = more ∧ run ≠ [] := by
  induction more generalizing run with
  | zero =>
    obtain ⟨⟨hlength, hdigit⟩, -⟩ := mem_dotted_zero.mp h
    exact ⟨fun c hc => CharClass.ipv4_of_digit (hdigit c hc), count_digits hdigit,
      List.ne_nil_of_length_pos hlength⟩
  | succ more ih =>
    obtain ⟨a, ⟨⟨-, hdigit⟩, -⟩, tail, htail, rfl⟩ := mem_dotted_succ.mp h
    obtain ⟨hchars, hcount, -⟩ := ih htail
    refine ⟨fun c hc => ?_, ?_, by simp⟩
    · rcases List.mem_append.mp hc with hc | hc
      · exact CharClass.ipv4_of_digit (hdigit c hc)
      · rcases List.mem_cons.mp hc with rfl | hc
        · rfl
        · exact hchars c hc
    · rw [List.count_append, count_digits hdigit, List.count_cons_self, hcount, Nat.zero_add]

theorem octets_dot {found : Scanned Span} {c : Char} (h : octet here (a ++ c :: rest) = .ok found)
    (hstop : found.stop = here + a.length) :
    octets (more + 1) here (a ++ c :: rest) =
      (octets more (found.stop + 1) rest).map (Scanned.map (found.value :: ·)) := by
  have hdrop : (a ++ c :: rest).drop (found.stop - here + 1).toNat = rest := by
    have hlength : (found.stop - here + 1).toNat = (a ++ [c]).length := by
      rw [hstop, List.length_append, List.length_singleton]
      omega
    rw [hlength, List.append_cons a c rest, List.drop_left]
  rw [octets, h]
  change (do let last ← octets more (found.stop + 1) _; return last.map _) = _
  rw [hdrop]
  cases octets more (found.stop + 1) rest <;> rfl

theorem octets_complete (here : Int) (h : run ∈ dotted more)
    (hrest : ∀ c ∈ rest.head?, CharClass.digit c = false) :
    ∃ found, octets more here (run ++ rest) = .ok found ∧ found.stop = here + run.length := by
  induction more generalizing run here with
  | zero =>
    rw [octets, octet_of_mem (mem_dotted_zero.mp h) hrest]
    exact ⟨_, rfl, rfl⟩
  | succ more ih =>
    obtain ⟨a, ha, tail, htail, rfl⟩ := mem_dotted_succ.mp h
    have hdot := dot_stops (tail ++ rest)
    obtain ⟨found, hfound, hstop⟩ := ih (here + a.length + 1) htail
    rw [List.append_assoc, List.cons_append, octets_dot (octet_of_mem ha hdot) rfl, hfound]
    refine ⟨_, rfl, ?_⟩
    simp only [Scanned.map, hstop, List.length_append, List.length_cons]
    omega

theorem octets_sound {found : Scanned (List Span)} (hrun : ∀ c ∈ run, CharClass.ipv4 c = true)
    (hdots : run.count '.' = more) (hrest : ∀ c ∈ rest.head?, CharClass.digit c = false)
    (h : octets more here (run ++ rest) = .ok found) :
    run ∈ dotted more ∧ found = ⟨Span.split (· == '.') here run, here + run.length⟩ := by
  induction more generalizing run here found with
  | zero =>
    have hdot : ∀ c ∈ run, c ≠ '.' := fun c hc he => List.count_eq_zero.mp hdots (he ▸ hc)
    have hdigit : ∀ c ∈ run, CharClass.digit c = true := by
      intro c hc
      simpa [CharClass.ipv4, hdot c hc] using hrun c hc
    obtain ⟨first, hfirst, rfl⟩ := map_eq_ok h
    obtain ⟨hmem, rfl⟩ := octet_sound hdigit hrest hfirst
    rw [Span.split_clear fun c hc => beq_eq_false_iff_ne.mpr (hdot c hc)]
    exact ⟨mem_dotted_zero.mpr hmem, rfl⟩
  | succ more ih =>
    obtain ⟨a, tail, rfl, ha, htail, htailDots⟩ := exists_dot hrun hdots
    have hdot := dot_stops (tail ++ rest)
    rw [List.append_assoc, List.cons_append] at h
    obtain ⟨first, hfirst, -⟩ := bind_eq_ok h
    obtain ⟨hmem, rfl⟩ := octet_sound ha hdot hfirst
    rw [octets_dot hfirst rfl] at h
    obtain ⟨last, hlast, rfl⟩ := map_eq_ok h
    obtain ⟨hwhole, rfl⟩ := ih htail htailDots hlast
    have hclear : ∀ c ∈ a, (c == '.') = false := by
      intro c hc
      rw [beq_eq_false_iff_ne]
      rintro rfl
      exact List.count_eq_zero.mp (count_digits ha) hc
    refine ⟨mem_dotted_succ.mpr ⟨a, hmem, tail, hwhole, rfl⟩, ?_⟩
    rw [Span.split_append_cons hclear (by decide)]
    simp only [Scanned.map, List.length_append, List.length_cons, Scanned.mk.injEq, true_and]
    omega

end ImageReference.Ipv4
