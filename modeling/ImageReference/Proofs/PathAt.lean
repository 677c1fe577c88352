import ImageReference.Proofs.Cursor
import ImageReference.Proofs.Path
import ImageReference.Proofs.CharClass
import ImageReference.Proofs.SplitSpans

/-!
# Paths at a cursor

A path takes all the characters that a name can have, or it is rejected. What is
read is cut into components at its slashes, and the separators are the runs of
marks in it, of all components in order.
-/

namespace ImageReference

/-- The characters of a path: letters of either case, digits, the marks inside of a component, and
the slash. -/
def CharClass.path : CharClass := fun c => tag c || c == '/'

/-- The marks that stand between the words of a component. -/
def CharClass.pathMark : CharClass := fun c => c == '.' || c == '_' || c == '-'

namespace PathSeparator

/-- The runs of marks that a separator is the kind of. -/
def language : PathSeparator → Language Char
  | .dot => {['.']}
  | .underscore => {['_']}
  | .doubleUnderscore => {['_', '_']}
  | .hyphens => Grammar.atLeast 1 (· == '-')

theorem marks_of_mem {separator : PathSeparator} {run : Text} (h : run ∈ separator.language) :
    run ≠ [] ∧ ∀ c ∈ run, CharClass.pathMark c = true := by
  cases separator with
  | dot | underscore | doubleUnderscore =>
    obtain rfl := h
    simp [CharClass.pathMark]
  | hyphens =>
    refine ⟨List.ne_nil_of_length_pos h.1, fun c hc => ?_⟩
    simp [CharClass.pathMark, h.2 c hc]

end PathSeparator

namespace Path

variable {place goal : Place} {c : Char} {component here stop : Int} {text front rest : Text}
  {separator : PathSeparator} {separators : List PathSeparator} {found : Scanned Path}

theorem path_of_next (h : place.next c = some goal) : CharClass.path c = true := by
  have hmark : ∀ c ∈ ['.', '/', '_', '-'], CharClass.path c = true := by
    simp [CharClass.path, CharClass.tag, CharClass.word]
  rcases next_cases h with ⟨hword, -⟩ | ⟨-, rfl | rfl, -⟩ | ⟨-, rfl, -⟩ | ⟨-, rfl, -⟩ | ⟨-, rfl, -⟩
  · rw [CharClass.lowerAlnum, Bool.or_eq_true] at hword
    rw [CharClass.path, CharClass.tag, CharClass.word, CharClass.alnum_eq, CharClass.alpha_eq]
    rcases hword with hword | hword <;> simp [hword]
  all_goals exact hmark _ (by decide)

theorem path_of_viable (h : Viable Grammar.path front) : ∀ c ∈ front, CharClass.path c = true := by
  intro c hc
  obtain ⟨goal, hwalk⟩ := viable_iff.mp h
  by_contra hpath
  refine Reader.notMem_of_walk hwalk (fun place => ?_) hc
  cases hnext : reader.next place c with
  | none => rfl
  | some goal => exact absurd (path_of_next hnext) hpath

theorem next_word (hc : CharClass.path c = true) (hupper : CharClass.upper c = false) :
    ∃ goal, Place.next .word c = some goal := by
  by_cases hword : CharClass.lowerAlnum c = true
  · exact ⟨.word, next_lowerAlnum hword⟩
  · have hmark : c = '_' ∨ c = '.' ∨ c = '-' ∨ c = '/' := by
      simp only [CharClass.path, CharClass.tag, CharClass.word, CharClass.alnum_eq,
        CharClass.alpha_eq, CharClass.lowerAlnum, Bool.or_eq_true, beq_iff_eq] at hc hword
      simp only [hupper] at hc
      tauto
    rcases hmark with rfl | rfl | rfl | rfl
    · exact ⟨.underscore, rfl⟩
    · exact ⟨.fresh, rfl⟩
    · exact ⟨.hyphens, rfl⟩
    · exact ⟨.fresh, rfl⟩

theorem scan_takes (h : scan text = .ok found) :
    found.stop = (text.takeWhile CharClass.path).length ∧
      text.takeWhile CharClass.path ∈ Grammar.path := by
  have hupper := scan_ok_upper h
  have houtcome := scan_outcome text
  rw [h] at houtcome
  cases houtcome with
  | @ok front rest _ split complete cut stop =>
    rw [Int.zero_add] at stop
    rw [split, stop, Int.toNat_natCast, List.drop_left] at hupper
    -- the path goes on with any other of its characters
    have hrest : ∀ c ∈ rest.head?, CharClass.path c = false := by
      intro c hc
      by_contra hpath
      obtain ⟨goal, hgoal⟩ := next_word (by simpa using hpath) (hupper c hc)
      obtain ⟨last, hwalk, rfl⟩ := @walk_of_mem_path .fresh _ complete
      refine cut.stuck c hc (viable_iff.mpr ⟨goal, ?_⟩)
      rw [Reader.walk_append, hwalk]
      exact congrArg (Option.bind · some) hgoal
    rw [split, takeWhile_run (path_of_viable cut.viable) hrest]
    exact ⟨stop, complete⟩

theorem exists_scan_iff :
    (∃ found, scan text = .ok found) ↔ text.takeWhile CharClass.path ∈ Grammar.path := by
  constructor
  · rintro ⟨found, h⟩
    exact (scan_takes h).2
  · intro h
    obtain ⟨front, rest, rfl, hfront, hrest⟩ := exists_run CharClass.path text
    rw [takeWhile_run hfront hrest] at h
    have hcut : Cut Grammar.path front rest := by
      refine ⟨.of_mem h, fun c hc hviable => ?_⟩
      have hpath := path_of_viable hviable c (by simp)
      rw [hrest c hc] at hpath
      cases hpath
    have hupper : ∀ c ∈ rest.head?, CharClass.upper c = false := by
      intro c hc
      rw [Bool.eq_false_iff]
      intro hupper
      have hpath := hrest c hc
      simp [CharClass.path, CharClass.tag, CharClass.word, CharClass.alnum_eq, CharClass.alpha_eq,
        hupper] at hpath
    obtain ⟨found, hfound, -⟩ := (scan_outcome (front ++ rest)).ok_of_mem h hcut hupper
    exact ⟨found, hfound⟩

theorem scanFrom_splits (h : scanFrom component place here text = .ok found) :
    Span.Splits (· == '/') component here text found.value.components.toList found.stop := by
  have hword : ∀ c, CharClass.lowerAlnum c = true → (c == '/') = false := by
    intro c hc
    rw [beq_eq_false_iff_ne]
    rintro rfl
    cases hc
  fun_induction scanFrom component place here text generalizing found with
  | case1 | case8 =>
    cases h
    exact .ended _
  | case2 _ _ c _ hc ih => exact .read (hword c hc) (ih h)
  | case3 | case9 | case13 | case15 => cases h
  | case4 _ _ _ _ _ ih =>
    obtain ⟨inner, hinner, rfl⟩ := map_eq_ok h
    have hinside := ih hinner
    exact .read (by decide) hinside
  | case5 _ _ _ _ _ _ ih | case6 _ _ _ _ _ _ _ ih => exact .read (by decide) (ih h)
  | case7 _ _ _ _ _ _ _ _ ih =>
    obtain ⟨inner, hinner, rfl⟩ := map_eq_ok h
    exact .closed (by decide) (ih hinner)
  | case10 _ _ _ c _ _ hc _ ih => exact .read (hword c hc) (ih h)
  | case11 _ _ _ c _ _ hc _ _ ih =>
    obtain ⟨inner, hinner, rfl⟩ := map_eq_ok h
    have hinside := ih hinner
    exact .read (hword c hc) hinside
  | case12 _ _ _ _ _ _ _ hmark ih | case14 _ _ _ _ _ _ _ _ _ hmark ih =>
    rw [hmark.2]
    exact .read (by decide) (ih h)

def Place.pending (place : Place) : Language Char :=
  match place.separator? with
  | none => {[]}
  | some separator => separator.language

/-- The separators are those of the runs of marks up to `stop`, as a scan finds them that is at a
place: what is pending there stands in front of the text. Behind a dot or a slash a word follows. -/
def Separates (place : Place) (here : Int) (text : Text) (separators : List PathSeparator)
    (stop : Int) : Prop :=
  ∃ front rest, text = front ++ rest ∧ stop = here + front.length ∧
    (place = .fresh → ∃ c ∈ front.head?, CharClass.lowerAlnum c = true) ∧
    ∀ pending ∈ place.pending, List.Forall₂ (fun separator run => run ∈ separator.language)
      separators (runs CharClass.pathMark (pending ++ front))

theorem pathMark_of_lowerAlnum (h : CharClass.lowerAlnum c = true) :
    CharClass.pathMark c = false := by
  rw [Bool.eq_false_iff]
  intro hmark
  have hmarks : ∀ c ∈ ['.', '_', '-'], CharClass.lowerAlnum c = false := by
    simp [CharClass.lowerAlnum, CharClass.lower, CharClass.digit]
  rw [hmarks c (by simpa [CharClass.pathMark, or_assoc] using hmark)] at h
  cases h

namespace Separates

theorem ended (text : Text) : Separates .word here text [] here := by
  refine ⟨[], text, rfl, by simp, by simp, fun pending hpending => ?_⟩
  obtain rfl : pending = [] := hpending
  exact .nil

theorem word (hc : CharClass.lowerAlnum c = true) (hplace : place.separator? = none)
    (h : Separates .word (here + 1) text separators stop) :
    Separates place here (c :: text) separators stop := by
  obtain ⟨front, rest, rfl, rfl, -, hruns⟩ := h
  refine ⟨c :: front, rest, rfl, by rw [List.length_cons]; omega, fun _ => ⟨c, rfl, hc⟩, ?_⟩
  intro pending hpending
  rw [Place.pending, hplace] at hpending
  obtain rfl : pending = [] := hpending
  rw [List.nil_append, runs_cons (pathMark_of_lowerAlnum hc)]
  exact hruns [] rfl

theorem closed (hc : CharClass.lowerAlnum c = true) (hplace : place.separator? = some separator)
    (h : Separates .word (here + 1) text separators stop) :
    Separates place here (c :: text) (separator :: separators) stop := by
  obtain ⟨front, rest, rfl, rfl, -, hruns⟩ := h
  refine ⟨c :: front, rest, rfl, by rw [List.length_cons]; omega, fun _ => ⟨c, rfl, hc⟩, ?_⟩
  intro pending hpending
  rw [Place.pending, hplace] at hpending
  obtain ⟨hne, hmarks⟩ := PathSeparator.marks_of_mem hpending
  rw [runs_append_cons hmarks hne (pathMark_of_lowerAlnum hc)]
  exact .cons hpending (hruns [] rfl)

theorem mark (hplace : place ≠ .fresh)
    (hmark : ∀ pending ∈ place.pending, pending ++ [c] ∈ goal.pending)
    (h : Separates goal (here + 1) text separators stop) :
    Separates place here (c :: text) separators stop := by
  obtain ⟨front, rest, rfl, rfl, -, hruns⟩ := h
  refine ⟨c :: front, rest, rfl, by rw [List.length_cons]; omega, fun he => absurd he hplace, ?_⟩
  intro pending hpending
  rw [List.append_cons]
  exact hruns _ (hmark pending hpending)

theorem dot (h : Separates .fresh (here + 1) text separators stop) :
    Separates .word here ('.' :: text) (.dot :: separators) stop := by
  obtain ⟨front, rest, rfl, rfl, hhead, hruns⟩ := h
  refine ⟨'.' :: front, rest, rfl, by rw [List.length_cons]; omega, by simp, ?_⟩
  intro pending hpending
  obtain rfl : pending = [] := hpending
  obtain ⟨c, hc, hword⟩ := hhead rfl
  obtain ⟨tail, rfl⟩ := List.head?_eq_some_iff.mp hc
  have hfront := hruns [] rfl
  rw [List.nil_append, runs_cons (pathMark_of_lowerAlnum hword)] at hfront
  have hdot : runs CharClass.pathMark (['.'] ++ c :: tail) =
      ['.'] :: runs CharClass.pathMark tail :=
    runs_append_cons (by simp [CharClass.pathMark]) (by simp) (pathMark_of_lowerAlnum hword)
  change List.Forall₂ _ _ (runs CharClass.pathMark (['.'] ++ c :: tail))
  rw [hdot]
  exact .cons rfl hfront

theorem slash (h : Separates .fresh (here + 1) text separators stop) :
    Separates .word here ('/' :: text) separators stop := by
  obtain ⟨front, rest, rfl, rfl, -, hruns⟩ := h
  refine ⟨'/' :: front, rest, rfl, by rw [List.length_cons]; omega, by simp, ?_⟩
  intro pending hpending
  obtain rfl : pending = [] := hpending
  rw [List.nil_append, runs_cons (by decide)]
  exact hruns [] rfl

theorem runs_eq {front rest : Text} (h : Separates .fresh here (front ++ rest) separators stop)
    (hstop : stop = here + front.length) :
    List.Forall₂ (fun separator run => run ∈ separator.language) separators
      (runs CharClass.pathMark front) := by
  obtain ⟨front', rest', hsplit, hstop', -, hruns⟩ := h
  rw [(List.append_inj hsplit (by omega)).1]
  exact hruns [] rfl

end Separates

theorem scanFrom_separates (h : scanFrom component place here text = .ok found) :
    Separates place here text found.value.separators found.stop := by
  fun_induction scanFrom component place here text generalizing found with
  | case1 | case8 =>
    cases h
    exact .ended _
  | case2 _ _ c _ hc ih => exact .word hc rfl (ih h)
  | case3 | case9 | case13 | case15 => cases h
  | case4 _ _ _ _ _ ih =>
    obtain ⟨inner, hinner, rfl⟩ := map_eq_ok h
    have hinside := ih hinner
    exact .dot hinside
  | case5 _ _ _ _ _ _ ih =>
    refine .mark (by decide) ?_ (ih h)
    rintro _ rfl
    rfl
  | case6 _ _ _ _ _ _ _ ih =>
    refine .mark (by decide) ?_ (ih h)
    rintro _ rfl
    exact ⟨by simp, by simp⟩
  | case7 _ _ _ _ _ _ _ _ ih =>
    obtain ⟨inner, hinner, rfl⟩ := map_eq_ok h
    have hinside := ih hinner
    exact .slash hinside
  | case10 _ _ _ c _ _ hc hplace ih => exact .word hc hplace (ih h)
  | case11 _ _ _ c _ _ hc _ hplace ih =>
    obtain ⟨inner, hinner, rfl⟩ := map_eq_ok h
    have hinside := ih hinner
    exact .closed hc hplace hinside
  | case12 _ _ _ _ _ _ _ hmark ih =>
    obtain ⟨rfl, rfl⟩ := hmark
    refine .mark (by decide) ?_ (ih h)
    rintro _ rfl
    rfl
  | case14 _ _ _ _ _ _ _ _ _ hmark ih =>
    obtain ⟨rfl, rfl⟩ := hmark
    refine .mark (by decide) ?_ (ih h)
    rintro pending ⟨hlength, hpending⟩
    refine ⟨by simp, fun c hc => ?_⟩
    rcases List.mem_append.mp hc with hc | hc
    · exact hpending c hc
    · simpa using hc

theorem scan_reads (h : scan text = .ok found) :
    let run := text.takeWhile CharClass.path
    found.value.span = ⟨0, run.length⟩ ∧ found.stop = run.length ∧
      found.value.components.toList = Span.split (· == '/') 0 run ∧
      List.Forall₂ (fun separator run => run ∈ separator.language) found.value.separators
        (runs CharClass.pathMark run) := by
  intro run
  have hstop : found.stop = run.length := (scan_takes h).1
  have hplace : found.stop = 0 + run.length := by rw [hstop, Int.zero_add]
  have hsplit : run ++ text.dropWhile CharClass.path = text := List.takeWhile_append_dropWhile
  rw [← hsplit] at h
  refine ⟨?_, hstop, (scanFrom_splits h).eq_split hplace, (scanFrom_separates h).runs_eq hplace⟩
  rw [scan_span h, hstop]

end Path

namespace Cursor

variable {α : Type} [Shift α] {c : Cursor} {path : Path}

theorem run_eq_ok_iff {scan : Scan α} {value : α} : (c.run scan).1 = .ok value ↔
    ∃ found, scan c.window = .ok found ∧ (c.isTorn = true → found.stop < c.window.length) ∧
      value = shift c.offset found.value := by
  rw [run]
  cases hscan : scan c.window with
  | error failure =>
    simp only
    split <;> simp
  | ok found =>
    simp only
    split
    · next htorn =>
      rw [Bool.and_eq_true, decide_eq_true_eq] at htorn
      simp [htorn.1, htorn.2]
    · next htorn =>
      rw [Bool.and_eq_true, decide_eq_true_eq, not_and, Int.not_le] at htorn
      constructor
      · intro hvalue
        exact ⟨found, rfl, htorn, (Except.ok.inj hvalue).symm⟩
      · rintro ⟨_, hfound, -, rfl⟩
        cases hfound
        rfl

theorem run_moved {scan : Scan α} {found : Scanned α} {value : α}
    (hscan : scan c.window = .ok found) (h : (c.run scan).1 = .ok value) :
    (c.run scan).2 = { c with offset := c.offset + found.stop } := by
  rw [run, hscan] at h ⊢
  simp only at h ⊢
  split at h
  · cases h
  · next htorn => rw [if_neg htorn]

/-- The longest run of the characters of paths decides on the path at a cursor: it is a path and all
of it is read, or none is read. Where the source ends in front of the bound, the run has to end
in front of the missing characters. -/
theorem parsePath_decided (c : Cursor) :
    let run := c.window.takeWhile CharClass.path
    (c.Within → ((∃ path, c.parsePath.1 = .ok path) ↔ run ∈ Grammar.path)) ∧
    ((∃ path, c.parsePath.1 = .ok path) ↔
      run ∈ Grammar.path ∧ (c.isTorn = true → run.length < c.window.length)) ∧
    ∀ path, c.parsePath.1 = .ok path →
      path.span = ⟨c.offset, run.length⟩ ∧
      c.parsePath.2 = { c with offset := c.offset + run.length } ∧
      path.components.toList = Span.split (· == '/') c.offset run ∧
      List.Forall₂ (fun separator run => run ∈ separator.language) path.separators
        (runs CharClass.pathMark run) := by
  intro run
  have hdecided : (∃ path, c.parsePath.1 = .ok path) ↔
      run ∈ Grammar.path ∧ (c.isTorn = true → run.length < c.window.length) := by
    rw [← Path.exists_scan_iff]
    constructor
    · rintro ⟨path, hpath⟩
      obtain ⟨found, hscan, htorn, -⟩ := run_eq_ok_iff.mp hpath
      rw [(Path.scan_takes hscan).1, Int.ofNat_lt] at htorn
      exact ⟨⟨found, hscan⟩, htorn⟩
    · rintro ⟨⟨found, hscan⟩, htorn⟩
      rw [← Int.ofNat_lt, ← (Path.scan_takes hscan).1] at htorn
      exact ⟨_, run_eq_ok_iff.mpr ⟨found, hscan, htorn, rfl⟩⟩
  refine ⟨fun hwithin => ?_, hdecided, fun path hpath => ?_⟩
  · rw [hdecided, hwithin.isTorn_eq]
    simp
  · obtain ⟨found, hscan, -, rfl⟩ := run_eq_ok_iff.mp hpath
    obtain ⟨hspan, hstop, hcomponents, hseparators⟩ := Path.scan_reads hscan
    refine ⟨?_, ?_, ?_, hseparators⟩
    · have hmoved : (shift c.offset found.value).span = shift c.offset found.value.span :=
        Parts.span_shift
      rw [hmoved, hspan]
      exact congrArg (Span.mk · _) (Int.zero_add _)
    · rw [← hstop]
      exact run_moved hscan hpath
    · change shift c.offset found.value.components.toList = _
      rw [hcomponents, Span.split_shift, Int.zero_add]

theorem parsePath_decided_marks :
    let c := ofText "ab__c/d--e.f:v1".toList
    (∃ path, c.parsePath.1 = .ok path ∧ path.span = ⟨0, 12⟩ ∧
      path.separators = [.doubleUnderscore, .hyphens, .dot]) ∧
    "ab__c/d--e.f".toList ∈ Grammar.path := by
  intro c
  obtain ⟨path, hpath, hseparators⟩ : ∃ path, c.parsePath.1 = .ok path ∧
      path.separators = [.doubleUnderscore, .hyphens, .dot] := ⟨_, rfl, rfl⟩
  obtain ⟨haccepts, -, hreads⟩ := parsePath_decided c
  obtain ⟨hspan, -⟩ := hreads path hpath
  exact ⟨⟨path, hpath, hspan, hseparators⟩, (haccepts (within_ofText _)).mp ⟨path, hpath⟩⟩

end Cursor

end ImageReference
