import ImageReference.Host
import ImageReference.Proofs.CharClass
import ImageReference.Proofs.Outcome
import ImageReference.Proofs.Reader
import ImageReference.Proofs.SplitSpans

/-!
# Scanning domain names

The places of the scanner make up a reader for domain names. A scan succeeds
with the longest front part that some domain name starts with, if that is a
domain name itself.
-/

namespace ImageReference.DomainName

variable {place goal : Place} {c : Char} {label here : Int} {text front rest u : Text}

def Place.next (place : Place) (c : Char) : Option Place :=
  if CharClass.alnum c then some .inside
  else match place with
    | .fresh => none
    | .inside => if c = '-' then some .hyphen else if c = '.' then some .fresh else none
    | .hyphen => if c = '-' then some .hyphen else none

def reader : Reader Place := ⟨Place.next, (· == .inside)⟩

theorem next_alnum (h : CharClass.alnum c = true) : place.next c = some .inside := by
  simp [Place.next, h]

theorem next_cases (h : place.next c = some goal) :
    (CharClass.alnum c = true ∧ goal = .inside) ∨
    ((place = .inside ∨ place = .hyphen) ∧ c = '-' ∧ goal = .hyphen) ∨
    (place = .inside ∧ c = '.' ∧ goal = .fresh) := by
  cases place <;> grind [Place.next]

theorem reader_live : reader.Live := by
  intro place
  have halnum : CharClass.alnum 'a' = true := by decide
  exact ⟨['a'], .inside, by simp [reader, next_alnum halnum], rfl⟩

theorem walk_label_chars (hplace : place = .inside ∨ place = .hyphen)
    (h : ∀ c ∈ text, CharClass.domainLabel c = true) :
    ∃ goal, reader.walk place text = some goal ∧ (goal = .inside ∨ goal = .hyphen) := by
  induction text generalizing place with
  | nil => exact ⟨place, rfl, hplace⟩
  | cons c text ih =>
    have htext : ∀ d ∈ text, CharClass.domainLabel d = true := fun d hd => h d (by simp [hd])
    by_cases hc : CharClass.alnum c
    · obtain ⟨goal, hwalk, hgoal⟩ := ih (.inl rfl) htext
      exact ⟨goal, by simpa [reader, next_alnum hc] using hwalk, hgoal⟩
    · obtain rfl : c = '-' := by simpa [CharClass.domainLabel, hc] using h c (by simp)
      have hhyphen : place.next '-' = some .hyphen := by
        rcases hplace with rfl | rfl <;> rfl
      obtain ⟨goal, hwalk, hgoal⟩ := ih (.inr rfl) htext
      exact ⟨goal, by simpa [reader, hhyphen] using hwalk, hgoal⟩

theorem walk_label (h : text ∈ Grammar.label) : reader.walk place text = some .inside := by
  rcases h with ⟨c, hc, rfl⟩ | h
  · simp [reader, next_alnum hc]
  · obtain ⟨stem, hstem, last, ⟨d, hd, rfl⟩, rfl⟩ := Language.mem_mul.mp h
    obtain ⟨first, ⟨c, hc, rfl⟩, middle, hmiddle, rfl⟩ := Language.mem_mul.mp hstem
    obtain ⟨goal, hwalk, -⟩ := walk_label_chars (.inl rfl) hmiddle.2
    have hfirst : reader.next place c = some .inside := next_alnum hc
    have hlast : reader.next goal d = some .inside := next_alnum hd
    simp [hfirst, hwalk, hlast]

def stem : Language Char := Grammar.one CharClass.alnum * Grammar.atLeast 0 CharClass.domainLabel

def Place.before : Place → Language Char
  | .fresh => {[]}
  | .inside => Grammar.label
  | .hyphen => stem

theorem append_mem_stem (hu : u ∈ stem) (hc : CharClass.domainLabel c = true) :
    u ++ [c] ∈ stem := by
  obtain ⟨first, hfirst, middle, hmiddle, rfl⟩ := Language.mem_mul.mp hu
  rw [List.append_assoc]
  refine Language.append_mem_mul hfirst ⟨Nat.zero_le _, fun d hd => ?_⟩
  rcases List.mem_append.mp hd with hd | hd
  · exact hmiddle.2 d hd
  · rw [List.mem_singleton.mp hd, hc]

theorem stem_of_label (h : u ∈ Grammar.label) : u ∈ stem := by
  rcases h with h | h
  · rw [← List.append_nil u]
    exact Language.append_mem_mul h ⟨Nat.zero_le _, by simp⟩
  · obtain ⟨stem, hstem, last, ⟨d, hd, rfl⟩, rfl⟩ := Language.mem_mul.mp h
    exact append_mem_stem hstem (CharClass.domainLabel_of_alnum hd)

theorem before_step (h : place.next c = some goal) (hu : u ∈ place.before) :
    u ++ [c] ∈ goal.before ∨ ∃ w ∈ Grammar.label, ∃ s ∈ ({['.']} : Language Char),
      ∃ v ∈ goal.before, u ++ [c] = w ++ s ++ v := by
  rcases next_cases h with ⟨hc, rfl⟩ | ⟨hplace, rfl, rfl⟩ | ⟨rfl, rfl, rfl⟩
  · refine .inl ?_
    cases place with
    | fresh =>
      obtain rfl : u = [] := hu
      exact .inl ⟨c, hc, rfl⟩
    | inside => exact .inr (Language.append_mem_mul (stem_of_label hu) ⟨c, hc, rfl⟩)
    | hyphen => exact .inr (Language.append_mem_mul hu ⟨c, hc, rfl⟩)
  · refine .inl (append_mem_stem ?_ rfl)
    rcases hplace with rfl | rfl
    · exact stem_of_label hu
    · exact hu
  · exact .inr ⟨u, hu, ['.'], rfl, [], rfl, by simp⟩

theorem accepts_fresh : reader.accepts .fresh = Grammar.domainName := by
  apply Language.ext
  intro text
  constructor
  · intro h
    rw [Grammar.domainName, ← List.nil_append text]
    refine Reader.mem_joined_of_walk Place.before (fun _ _ _ hstep _ => before_step hstep) ?_ h rfl
    intro place hplace u hu
    obtain rfl : place = .inside := by simpa [reader] using hplace
    exact hu
  · intro h
    have hwalk : ∃ goal, reader.walk .fresh text = some goal ∧ goal = Place.inside := by
      refine Reader.walk_joined (fun _ => True) (· = Place.inside) ?_ ?_ text h Place.fresh trivial
      · exact fun place _ w hw => ⟨.inside, walk_label hw, rfl⟩
      · intro place hplace s hs
        obtain rfl : s = ['.'] := hs
        exact ⟨.fresh, hplace ▸ rfl, trivial⟩
    obtain ⟨goal, hgoal, rfl⟩ := hwalk
    exact ⟨.inside, hgoal, rfl⟩

def Place.verdict (place : Place) (here : Int) (_ : Option Char) : Except Rejection Int :=
  match place with
  | .fresh => .error { kind := .hostInvalidDomainName, offset := here }
  | .inside => .ok here
  | .hyphen => .error { kind := .hostInvalidDomainName, offset := here - 1 }

theorem ending_step (h : place.next c = some goal) :
    ∃ label', ending (scanFrom label place here (c :: rest)) =
      ending (scanFrom label' goal (here + 1) rest) := by
  by_cases hc : CharClass.alnum c
  · obtain rfl : Place.inside = goal := by simpa [next_alnum hc] using h
    exact ⟨label, by cases place <;> simp [scanFrom, hc]⟩
  · refine ⟨if c = '.' then here + 1 else label, ?_⟩
    rcases next_cases h with ⟨halnum, -⟩ | ⟨rfl | rfl, rfl, rfl⟩ | ⟨rfl, rfl, rfl⟩
    · exact absurd halnum hc
    all_goals simp [scanFrom, hc]

theorem ending_stuck (h : ∀ c ∈ text.head?, place.next c = none) :
    ending (scanFrom label place here text) = place.verdict here text.head? := by
  cases text with
  | nil => cases place <;> simp [scanFrom, Place.verdict, ending, Failure.rejection]
  | cons c rest =>
    have hc := h c rfl
    cases place <;> grind [Place.next, scanFrom, Place.verdict, ending, Failure.rejection]

theorem scan_ends (text : Text) :
    ∃ front rest goal, text = front ++ rest ∧ reader.walk .fresh front = some goal ∧
      (∀ c ∈ rest.head?, goal.next c = none) ∧
      ending (scan text) = goal.verdict front.length rest.head? := by
  obtain ⟨front, rest, goal, hsplit, hwalk, hnone, hend⟩ := reader.run_of_steps
    (fun label place here text => ending (scanFrom label place here text)) Place.verdict
    (fun _ _ _ _ _ _ => ending_step) (fun _ _ _ _ => ending_stuck) 0 .fresh 0 text
  refine ⟨front, rest, goal, hsplit, hwalk, hnone, ?_⟩
  rwa [Int.zero_add] at hend

theorem scanFrom_splits {found : Scanned (List Span)}
    (h : scanFrom label place here text = .ok found) :
    Span.Splits (· == '.') label here text found.value found.stop := by
  have halnum : ∀ c, CharClass.alnum c = true → (c == '.') = false := by
    intro c hc
    rw [beq_eq_false_iff_ne]
    rintro rfl
    cases hc
  fun_induction scanFrom label place here text generalizing found with
  | case1 | case3 | case9 | case12 => cases h
  | case2 _ _ c _ hc ih | case5 _ _ c _ hc ih | case10 _ _ c _ hc ih =>
    exact .read (halnum c hc) (ih h)
  | case6 _ _ _ _ ih | case11 _ _ _ _ ih => exact .read (by decide) (ih h)
  | case7 label here rest _ _ ih =>
    obtain ⟨inner, hinner, rfl⟩ := map_eq_ok h
    exact .closed (by decide) (ih hinner)
  | case4 | case8 =>
    cases h
    exact .ended _

theorem scan_sound {found : Scanned (List Span)} (h : scan text = .ok found) :
    ∃ front rest, text = front ++ rest ∧ front ∈ Grammar.domainName ∧
      found = ⟨Span.split (· == '.') 0 front, front.length⟩ := by
  obtain ⟨front, rest, goal, rfl, hwalk, -, hend⟩ := scan_ends text
  rw [h, ending] at hend
  cases goal with
  | fresh | hyphen => cases hend
  | inside =>
    obtain ⟨labels, stop⟩ := found
    obtain rfl : stop = front.length := Except.ok.inj hend
    have hlabels : labels = Span.split (· == '.') 0 front :=
      (scanFrom_splits h).eq_split (Int.zero_add _).symm
    have hmem : front ∈ Grammar.domainName := by
      rw [← accepts_fresh]
      exact ⟨.inside, hwalk, rfl⟩
    exact ⟨front, rest, rfl, hmem, by rw [hlabels]⟩

theorem scan_complete (hfront : front ∈ Grammar.domainName)
    (hcut : Cut Grammar.domainName front rest) :
    ∃ found, scan (front ++ rest) = .ok found ∧ found.stop = front.length := by
  obtain ⟨front', rest', goal, hsplit, hwalk, hnone, hend⟩ := scan_ends (front ++ rest)
  have hcut' : Cut Grammar.domainName front' rest' := by
    rw [← accepts_fresh]
    exact reader_live.cut hwalk hnone
  obtain ⟨rfl, rfl⟩ := hcut.unique hcut' hsplit
  rw [← accepts_fresh, Reader.mem_accepts hwalk] at hfront
  obtain rfl : goal = .inside := by simpa [reader] using hfront
  cases hscan : scan (front ++ rest) with
  | error failure =>
    rw [hscan] at hend
    cases hend
  | ok found =>
    rw [hscan] at hend
    exact ⟨found, rfl, Except.ok.inj hend⟩

theorem viable_iff :
    Viable Grammar.domainName front ↔ ∃ goal, reader.walk .fresh front = some goal := by
  rw [← accepts_fresh]
  exact reader_live.viable_iff

theorem mark_notMem (h : Viable Grammar.domainName front) (hc : c = ':' ∨ c = '[') :
    c ∉ front := by
  obtain ⟨goal, hwalk⟩ := viable_iff.mp h
  refine Reader.notMem_of_walk hwalk fun place => ?_
  rcases hc with rfl | rfl <;> cases place <;> decide

end ImageReference.DomainName
