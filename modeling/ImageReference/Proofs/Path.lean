import ImageReference.Proofs.CharClass
import ImageReference.Proofs.Outcome
import ImageReference.Proofs.Reader
import ImageReference.Proofs.Span

/-!
# Scanning paths

The places of the path scanner make up a reader for the path grammar. The scan
follows this reader, so it ends behind the longest front part that some path
starts with, and a capital letter is the one character that it refuses behind a
complete path.
-/

namespace ImageReference.Path

variable {place goal : Place} {c : Char} {component here : Int} {text rest u : Text}

def Place.next (place : Place) (c : Char) : Option Place :=
  if CharClass.lowerAlnum c then some .word
  else match place with
    | .word =>
        if c = '.' ∨ c = '/' then some .fresh
        else if c = '_' then some .underscore
        else if c = '-' then some .hyphens
        else none
    | .underscore => if c = '_' then some .underscores else none
    | .hyphens => if c = '-' then some .hyphens else none
    | _ => none

def reader : Reader Place := ⟨Place.next, (· == .word)⟩

theorem next_lowerAlnum (h : CharClass.lowerAlnum c = true) : place.next c = some .word := by
  simp [Place.next, h]

theorem next_cases (h : place.next c = some goal) :
    (CharClass.lowerAlnum c = true ∧ goal = .word) ∨
    (place = .word ∧ (c = '.' ∨ c = '/') ∧ goal = .fresh) ∨
    (place = .word ∧ c = '_' ∧ goal = .underscore) ∨
    (place = .underscore ∧ c = '_' ∧ goal = .underscores) ∨
    ((place = .word ∨ place = .hyphens) ∧ c = '-' ∧ goal = .hyphens) := by
  cases place <;> grind [Place.next]

theorem walk_word (h : ∀ c ∈ text, CharClass.lowerAlnum c = true) (hne : text ≠ []) :
    reader.walk place text = some .word := by
  induction text generalizing place with
  | nil => exact absurd rfl hne
  | cons c text ih =>
    have hc : reader.next place c = some .word := next_lowerAlnum (h c (by simp))
    cases text with
    | nil => simp [hc]
    | cons d text =>
      rw [Reader.walk_cons, hc]
      exact ih (fun e he => h e (by simp [he])) (by simp)

theorem reader_live : reader.Live := by
  intro place
  refine ⟨['a'], .word, walk_word (by simp [CharClass.lowerAlnum, CharClass.lower]) (by simp), rfl⟩

theorem walk_hyphens (h : ∀ c ∈ text, (c == '-') = true) :
    reader.walk .hyphens text = some .hyphens := by
  induction text with
  | nil => rfl
  | cons c text ih =>
    obtain rfl : c = '-' := by simpa using h c (by simp)
    exact ih fun d hd => h d (by simp [hd])

theorem walk_separator (h : text ∈ Grammar.separator + {['/']}) :
    ∃ goal, reader.walk .word text = some goal := by
  rcases h with (((rfl | rfl) | rfl) | ⟨hlength, hhyphen⟩) | rfl
  · exact ⟨.fresh, rfl⟩
  · exact ⟨.underscore, rfl⟩
  · exact ⟨.underscores, rfl⟩
  · cases text with
    | nil => simp at hlength
    | cons c text =>
      obtain rfl : c = '-' := by simpa using hhyphen c (by simp)
      exact ⟨.hyphens, walk_hyphens fun d hd => hhyphen d (by simp [hd])⟩
  · exact ⟨.fresh, rfl⟩

theorem walk_of_mem_path (h : text ∈ Grammar.path) :
    ∃ goal, reader.walk place text = some goal ∧ goal = .word := by
  rw [Grammar.path_eq] at h
  refine Reader.walk_joined (fun _ => True) (· = .word) ?_ ?_ text h place trivial
  · intro place _ w hw
    exact ⟨.word, walk_word hw.2 (List.ne_nil_of_length_pos hw.1), rfl⟩
  · intro place hplace s hs
    obtain ⟨goal, hgoal⟩ := walk_separator hs
    exact ⟨goal, hplace ▸ hgoal, trivial⟩

def Place.before : Place → Language Char
  | .fresh => {[]}
  | .word => Grammar.word
  | .underscore => Grammar.word * {['_']}
  | .underscores => Grammar.word * {['_', '_']}
  | .hyphens => Grammar.word * Grammar.atLeast 1 (· == '-')

theorem append_mem_word (hu : u = [] ∨ u ∈ Grammar.word) (hc : CharClass.lowerAlnum c = true) :
    u ++ [c] ∈ Grammar.word := by
  refine ⟨by simp, fun d hd => ?_⟩
  rcases List.mem_append.mp hd with hd | hd
  · rcases hu with rfl | hu
    · simp at hd
    · exact hu.2 d hd
  · simpa [List.mem_singleton.mp hd] using hc

theorem before_step (h : place.next c = some goal) (hu : u ∈ place.before) :
    u ++ [c] ∈ goal.before ∨ ∃ w ∈ Grammar.word, ∃ s ∈ Grammar.separator + {['/']},
      ∃ v ∈ goal.before, u ++ [c] = w ++ s ++ v := by
  rcases next_cases h with ⟨hword, rfl⟩ | ⟨rfl, hmark, rfl⟩ | ⟨rfl, rfl, rfl⟩ | ⟨rfl, rfl, rfl⟩ |
    ⟨hplace, rfl, rfl⟩
  · have hnew : [c] ∈ Grammar.word := append_mem_word (.inl rfl) hword
    cases place with
    | fresh =>
      obtain rfl : u = [] := hu
      exact .inl hnew
    | word => exact .inl (append_mem_word (.inr hu) hword)
    | underscore =>
      obtain ⟨w, hw, s, rfl, rfl⟩ := Language.mem_mul.mp hu
      exact .inr ⟨w, hw, _, .inl (.inl (.inl (.inr rfl))), _, hnew, rfl⟩
    | underscores =>
      obtain ⟨w, hw, s, rfl, rfl⟩ := Language.mem_mul.mp hu
      exact .inr ⟨w, hw, _, .inl (.inl (.inr rfl)), _, hnew, rfl⟩
    | hyphens =>
      obtain ⟨w, hw, s, hs, rfl⟩ := Language.mem_mul.mp hu
      exact .inr ⟨w, hw, s, .inl (.inr hs), _, hnew, rfl⟩
  · have hsep : [c] ∈ Grammar.separator + {['/']} := by
      rcases hmark with rfl | rfl
      · exact .inl (.inl (.inl (.inl rfl)))
      · exact .inr rfl
    exact .inr ⟨u, hu, [c], hsep, [], rfl, by simp⟩
  · exact .inl (Language.append_mem_mul hu rfl)
  · obtain ⟨w, hw, s, rfl, rfl⟩ := Language.mem_mul.mp hu
    refine .inl ?_
    rw [List.append_assoc]
    exact Language.append_mem_mul hw rfl
  · refine .inl ?_
    rcases hplace with rfl | rfl
    · exact Language.append_mem_mul hu ⟨by simp, by simp⟩
    · obtain ⟨w, hw, s, ⟨-, hs⟩, rfl⟩ := Language.mem_mul.mp hu
      rw [List.append_assoc]
      refine Language.append_mem_mul hw ⟨by simp, fun d hd => ?_⟩
      rcases List.mem_append.mp hd with hd | hd
      · exact hs d hd
      · simpa using hd

theorem accepts_fresh : reader.accepts .fresh = Grammar.path := by
  apply Language.ext
  intro text
  constructor
  · intro h
    rw [Grammar.path_eq, ← List.nil_append text]
    refine Reader.mem_joined_of_walk Place.before (fun _ _ _ hstep _ => before_step hstep) ?_ h rfl
    intro place hplace u hu
    obtain rfl : place = .word := by simpa [reader] using hplace
    exact hu
  · intro h
    obtain ⟨goal, hwalk, rfl⟩ := walk_of_mem_path h
    exact ⟨.word, hwalk, rfl⟩

theorem upper_of_next (h : place.next c = some goal) : CharClass.upper c = false := by
  have hmark : ∀ c ∈ ['.', '/', '_', '-'], CharClass.upper c = false := by simp [CharClass.upper]
  rcases next_cases h with ⟨hword, -⟩ | ⟨-, rfl | rfl, -⟩ | ⟨-, rfl, -⟩ | ⟨-, rfl, -⟩ | ⟨-, rfl, -⟩
  · exact CharClass.upper_of_lowerAlnum hword
  all_goals exact hmark _ (by decide)

def Place.verdict (place : Place) (here : Int) (next : Option Char) : Except Rejection Int :=
  if place = .word ∧ next.any CharClass.upper = false then .ok here
  else .error (wordFailure here next).rejection

theorem ending_step (h : place.next c = some goal) :
    ∃ component', ending (scanFrom component place here (c :: rest)) =
      ending (scanFrom component' goal (here + 1) rest) := by
  have hupper := upper_of_next h
  by_cases hword : CharClass.lowerAlnum c
  · obtain rfl : Place.word = goal := by simpa [next_lowerAlnum hword] using h
    refine ⟨component, ?_⟩
    cases place <;> simp [scanFrom, hword, Place.separator?]
  · refine ⟨if c = '/' then here + 1 else component, ?_⟩
    rcases next_cases h with ⟨hc, -⟩ | ⟨rfl, rfl | rfl, rfl⟩ | ⟨rfl, rfl, rfl⟩ | ⟨rfl, rfl, rfl⟩ |
      ⟨rfl | rfl, rfl, rfl⟩
    · exact absurd hc hword
    all_goals simp [scanFrom, hword, hupper]

theorem ending_stuck (h : ∀ c ∈ text.head?, place.next c = none) :
    ending (scanFrom component place here text) = place.verdict here text.head? := by
  cases text with
  | nil => cases place <;> simp [scanFrom, Place.verdict, ending]
  | cons c rest =>
    have hc := h c rfl
    have hunder : CharClass.upper '_' = false := by decide
    simp only [Place.next] at hc
    split at hc
    · simp at hc
    · cases place <;> grind [scanFrom, Place.verdict, ending, wordFailure, Failure.rejection]

theorem scan_ends (text : Text) :
    ∃ front rest goal, text = front ++ rest ∧ reader.walk .fresh front = some goal ∧
      (∀ c ∈ rest.head?, goal.next c = none) ∧
      ending (scan text) = goal.verdict front.length rest.head? := by
  obtain ⟨front, rest, goal, hsplit, hwalk, hnone, hend⟩ := reader.run_of_steps
    (fun component place here text => ending (scanFrom component place here text)) Place.verdict
    (fun _ _ _ _ _ _ => ending_step) (fun _ _ _ _ => ending_stuck) 0 .fresh 0 text
  refine ⟨front, rest, goal, hsplit, hwalk, hnone, ?_⟩
  rwa [Int.zero_add] at hend

theorem viable_iff {front : Text} :
    Viable Grammar.path front ↔ ∃ goal, reader.walk .fresh front = some goal := by
  rw [← accepts_fresh]
  exact reader_live.viable_iff

theorem mark_notMem {front : Text} (h : Viable Grammar.path front) (hc : c = ':' ∨ c = '@') :
    c ∉ front := by
  obtain ⟨goal, hwalk⟩ := viable_iff.mp h
  refine Reader.notMem_of_walk hwalk fun place => ?_
  rcases hc with rfl | rfl <;> cases place <;> decide

theorem wordFailure_offset (next : Option Char) : (wordFailure here next).offset = here := by
  cases next with
  | none => rfl
  | some c =>
    rw [wordFailure]
    split <;> rfl

theorem wordFailure_kind (next : Option Char) :
    (wordFailure here next).kind = .nameContainsUppercase ↔ next.any CharClass.upper = true := by
  cases next with
  | none => simp [wordFailure]
  | some c =>
    rw [wordFailure]
    split <;> simp_all

theorem scanFrom_span {found : Scanned Path}
    (h : scanFrom component place here text = .ok found) :
    found.value.components.first.offset = component ∧
      found.value.components.last.stop = found.stop := by
  fun_induction scanFrom component place here text generalizing found with
  | case1 | case8 => cases h; simp [single, Parts.single, Parts.last, Span.stop]
  | case2 | case5 | case6 | case10 | case12 | case14 => rename_i ih; exact ih h
  | case3 | case9 | case13 | case15 => cases h
  | case4 | case11 =>
    rename_i ih
    obtain ⟨inner, hinner, rfl⟩ := map_eq_ok h
    simpa only [Scanned.map, addSeparator] using ih hinner
  | case7 =>
    rename_i ih
    obtain ⟨inner, hinner, rfl⟩ := map_eq_ok h
    refine ⟨rfl, ?_⟩
    simpa only [Scanned.map, addComponent, Parts.last_add] using (ih hinner).2

theorem scan_span {found : Scanned Path} (h : scan text = .ok found) :
    found.value.span = ⟨0, found.stop⟩ := by
  obtain ⟨hfirst, hlast⟩ := scanFrom_span h
  simp [span, Parts.span, Span.join, hfirst, hlast]

def Covers (start : Int) (front : Text) (path : Path) : Prop :=
  Spans Grammar.path start front path.span

theorem Covers.shift {start : Int} {front : Text} {path : Path} (n : Int)
    (h : Covers start front path) : Covers (start + n) front (shift n path) := by
  have hspan : (ImageReference.shift n path).span = ImageReference.shift n path.span :=
    Parts.span_shift
  rw [Covers, hspan]
  exact Spans.shift n h

theorem nil_notMem_path : [] ∉ Grammar.path := by
  intro h
  rw [← accepts_fresh, Reader.mem_accepts Reader.walk_nil] at h
  cases h

def Reports (_ : Text) (next : Option Char) (kind : RejectionKind) : Prop :=
  kind = .nameContainsUppercase ↔ next.any CharClass.upper = true

theorem scan_outcome (text : Text) :
    Outcome Grammar.path CharClass.upper Covers Reports 0 text (scan text) := by
  obtain ⟨front, rest, goal, hsplit, hwalk, hnone, hend⟩ := scan_ends text
  have hcut : Cut Grammar.path front rest := by
    rw [← accepts_fresh]
    exact reader_live.cut hwalk hnone
  have hmem : front ∈ Grammar.path ↔ goal = .word := by
    rw [← accepts_fresh, Reader.mem_accepts hwalk]
    simp [reader]
  cases hscan : scan text with
  | ok found =>
    rw [hscan, ending, Place.verdict] at hend
    split at hend
    · next hgoal =>
      have hstop : found.stop = front.length := Except.ok.inj hend
      have hfront : front ∈ Grammar.path := hmem.mpr hgoal.1
      refine .ok hsplit hfront hcut (by simpa using hstop) ⟨hfront, ?_⟩
      rw [scan_span hscan, hstop]
    · cases hend
  | error failure =>
    rw [hscan, ending, Place.verdict] at hend
    split at hend
    · cases hend
    · next hgoal =>
      have hrejection := Except.error.inj hend
      have hoffset : failure.offset = front.length :=
        (congrArg Rejection.offset hrejection).trans (wordFailure_offset _)
      have hkind : failure.kind = (wordFailure front.length rest.head?).kind :=
        congrArg Rejection.kind hrejection
      refine .error hsplit ⟨hcut, fun hfront => ?_⟩ (by simpa using hoffset) ?_
      · have hupper := fun hnone => hgoal ⟨hmem.mp hfront, hnone⟩
        simpa [Option.any_eq_true] using hupper
      · rw [hkind]
        exact wordFailure_kind _

theorem scan_stop_nonneg {found : Scanned Path} (h : scan text = .ok found) : 0 ≤ found.stop := by
  have houtcome := scan_outcome text
  rw [h] at houtcome
  cases houtcome with
  | ok _ _ _ stop => omega

theorem scan_ok_upper {found : Scanned Path} (h : scan text = .ok found) :
    ∀ c ∈ (text.drop found.stop.toNat).head?, CharClass.upper c = false := by
  obtain ⟨front, rest, goal, rfl, -, -, hend⟩ := scan_ends text
  rw [h, ending, Place.verdict] at hend
  split at hend
  · next hgoal =>
    rw [Except.ok.inj hend, Int.toNat_natCast, List.drop_left]
    intro c hc
    simpa [Option.mem_def.mp hc] using hgoal.2
  · cases hend

end ImageReference.Path
