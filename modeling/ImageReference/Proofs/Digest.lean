import ImageReference.Proofs.Outcome
import ImageReference.Proofs.Reader
import ImageReference.Proofs.CharClass
import ImageReference.Proofs.SplitSpans
import ImageReference.Proofs.Standard

/-!
# Scanning digests

An algorithm is read with two facts in hand: whether a component starts here,
and which grammars are left open. For a reader of one grammar the second one
never comes to matter, since no character may commit to the other grammar.
-/

namespace ImageReference.Digest

variable {standard compliance toward : Compliance} {leading : Bool} {c : Char}
  {text rest u : Text}

theorem algorithmFrom_kept {component here : Int} (hchar : CharClass.alnum c = true)
    (hkept : commitment? leading c = none) :
    algorithmFrom standard component leading compliance here (c :: rest) =
      algorithmFrom standard component false compliance (here + 1) rest := by
  rw [algorithmFrom, if_pos hchar, hkept]

theorem algorithmFrom_narrowed {component here : Int} (hchar : CharClass.alnum c = true)
    (hcommits : commitment? leading c = some toward)
    (hadmits : compliance.admits standard toward = true) :
    algorithmFrom standard component leading compliance here (c :: rest) =
      algorithmFrom standard component false toward (here + 1) rest := by
  rw [algorithmFrom, if_pos hchar, hcommits]
  exact if_pos hadmits

theorem algorithmFrom_refused {component here : Int} (hchar : CharClass.alnum c = true)
    (hcommits : commitment? leading c = some toward)
    (hadmits : compliance.admits standard toward = false) :
    algorithmFrom standard component leading compliance here (c :: rest) =
      .error { kind := .digestInvalidFormat, offset := here } := by
  rw [algorithmFrom, if_pos hchar, hcommits]
  exact if_neg (by rw [hadmits]; exact Bool.false_ne_true)

theorem algorithmFrom_separated {component here : Int}
    (hseparator : CharClass.algorithmSeparator c = true) :
    algorithmFrom standard component false compliance here (c :: rest) =
      (algorithmFrom standard (here + 1) true compliance (here + 1) rest).map
        (Scanned.map (Algorithm.addComponent ⟨component, here - component⟩)) := by
  rw [algorithmFrom, CharClass.alnum_of_separator hseparator, hseparator]
  rfl

theorem algorithmFrom_done {component here : Int}
    (halnum : ∀ c ∈ text.head?, CharClass.alnum c = false)
    (hseparator : text.head?.any CharClass.algorithmSeparator = false) :
    algorithmFrom standard component false compliance here text =
      .ok ⟨⟨.single ⟨component, here - component⟩, compliance⟩, here⟩ := by
  cases text with
  | nil => rfl
  | cons c rest =>
    replace hseparator : CharClass.algorithmSeparator c = false := hseparator
    rw [algorithmFrom, halnum c rfl, hseparator]
    rfl

structure Place where
  leading : Bool
  compliance : Compliance

variable {place goal : Place}

def Place.next (standard : Compliance) (place : Place) (c : Char) : Option Place :=
  if CharClass.alnum c then
    match commitment? place.leading c with
    | none => some ⟨false, place.compliance⟩
    | some toward => if place.compliance.admits standard toward then some ⟨false, toward⟩ else none
  else if !place.leading && CharClass.algorithmSeparator c then some ⟨true, place.compliance⟩
  else none

def algorithmReader (standard : Compliance) : Reader Place :=
  ⟨Place.next standard, fun place => !place.leading⟩

theorem algorithmReader_live : (algorithmReader standard).Live := by
  intro place
  refine ⟨['a'], ⟨false, place.compliance⟩, ?_, rfl⟩
  have hcommit : commitment? place.leading 'a' = none := by
    cases place.leading <;> decide
  have halnum : CharClass.alnum 'a' = true := by decide
  simp [algorithmReader, Place.next, hcommit, halnum]

def Place.verdict (place : Place) (here : Int) (next : Option Char) :
    Except Rejection (Int × Compliance) :=
  if place.leading = false ∧ next.any CharClass.alnum = false then .ok (here, place.compliance)
  else .error { kind := .digestInvalidFormat, offset := here }

def algorithmEnding (result : Except Failure (Scanned Algorithm)) :
    Except Rejection (Int × Compliance) :=
  match result with
  | .ok found => .ok (found.stop, found.value.compliance)
  | .error failure => .error failure.rejection

@[simp] theorem algorithmEnding_addComponent (component : Span)
    (result : Except Failure (Scanned Algorithm)) :
    algorithmEnding (result.map (Scanned.map (Algorithm.addComponent component))) =
      algorithmEnding result := by
  cases result <;> rfl

theorem algorithmEnding_step {component here : Int} (h : place.next standard c = some goal) :
    ∃ component', algorithmEnding
        (algorithmFrom standard component place.leading place.compliance here (c :: rest)) =
      algorithmEnding
        (algorithmFrom standard component' goal.leading goal.compliance (here + 1) rest) := by
  rw [Place.next] at h
  split at h
  · next halnum =>
    refine ⟨component, ?_⟩
    split at h
    · next hkept =>
      cases h
      rw [algorithmFrom_kept halnum hkept]
    · next toward hcommits =>
      split at h
      · next hadmits =>
        cases h
        rw [algorithmFrom_narrowed halnum hcommits hadmits]
      · cases h
  · split at h
    · next hseparator =>
      cases h
      rw [Bool.and_eq_true, Bool.not_eq_true'] at hseparator
      exact ⟨here + 1, by rw [hseparator.1, algorithmFrom_separated hseparator.2,
        algorithmEnding_addComponent]⟩
    · cases h

theorem algorithmEnding_stuck {component here : Int}
    (h : ∀ c ∈ text.head?, place.next standard c = none) :
    algorithmEnding (algorithmFrom standard component place.leading place.compliance here text) =
      place.verdict here text.head? := by
  obtain ⟨leading, compliance⟩ := place
  cases text with
  | nil => cases leading <;> simp [algorithmFrom, Place.verdict, algorithmEnding, Failure.rejection]
  | cons c rest =>
    have hc := h c rfl
    rw [Place.next] at hc
    split at hc
    · next halnum =>
      split at hc
      · cases hc
      · next toward hcommits =>
        split at hc
        · cases hc
        · next hadmits =>
          rw [algorithmFrom_refused halnum hcommits (Bool.eq_false_iff.mpr hadmits)]
          simp [Place.verdict, halnum, algorithmEnding, Failure.rejection]
    · next halnum =>
      split at hc
      · cases hc
      · next hseparator =>
        cases leading <;>
          simp_all [algorithmFrom, Place.verdict, algorithmEnding, Failure.rejection]

theorem algorithm_ends (standard : Compliance) (text : Text) :
    ∃ front rest goal, text = front ++ rest ∧
      (algorithmReader standard).walk ⟨true, .universal⟩ front = some goal ∧
      (∀ c ∈ rest.head?, goal.next standard c = none) ∧
      algorithmEnding (algorithmFrom standard 0 true .universal 0 text) =
        goal.verdict front.length rest.head? := by
  obtain ⟨front, rest, goal, hsplit, hwalk, hnone, hend⟩ := (algorithmReader standard).run_of_steps
    (fun component place here text =>
      algorithmEnding (algorithmFrom standard component place.leading place.compliance here text))
    Place.verdict (fun _ _ _ _ _ _ => algorithmEnding_step) (fun _ _ _ _ => algorithmEnding_stuck)
    0 ⟨true, .universal⟩ 0 text
  refine ⟨front, rest, goal, hsplit, hwalk, hnone, ?_⟩
  rwa [Int.zero_add] at hend

def Place.open (standard : Compliance) (place : Place) : Prop := place.compliance.Meets standard

def Place.before (standard : Compliance) (place : Place) : Language Char :=
  {u | place.open standard ∧ if place.leading then u = [] else u ∈ standard.component}

section One

variable (hone : standard ≠ .universal)
include hone

theorem next_reads (hplace : place.open standard) (hc : standard.reads place.leading c = true) :
    ∃ goal, place.next standard c = some goal ∧ goal.leading = false ∧ goal.open standard := by
  obtain ⟨halnum, htoward⟩ := (Compliance.reads_iff hone).mp hc
  rw [Place.next, if_pos halnum]
  cases hcommit : commitment? place.leading c with
  | none => exact ⟨_, rfl, rfl, hplace⟩
  | some toward =>
    obtain rfl := htoward toward hcommit
    exact ⟨_, if_pos (hplace.admits hone), rfl, .inr (.inr rfl)⟩

theorem next_cases (hplace : place.open standard) (h : place.next standard c = some goal) :
    goal.open standard ∧
      ((standard.reads place.leading c = true ∧ goal.leading = false) ∨
        (CharClass.algorithmSeparator c = true ∧ place.leading = false ∧ goal.leading = true)) := by
  rw [Place.next] at h
  split at h
  · next halnum =>
    split at h
    · next hcommit =>
      cases h
      exact ⟨hplace, .inl ⟨(Compliance.reads_iff hone).mpr ⟨halnum, by simp [hcommit]⟩, rfl⟩⟩
    · next toward hcommit =>
      split at h
      · next hadmits =>
        cases h
        obtain rfl := Compliance.eq_of_admits hone hadmits
        exact ⟨.inr (.inr rfl),
          .inl ⟨(Compliance.reads_iff hone).mpr ⟨halnum, by simp [hcommit]⟩, rfl⟩⟩
      · cases h
  · split at h
    · next hseparator =>
      cases h
      rw [Bool.and_eq_true, Bool.not_eq_true'] at hseparator
      exact ⟨hplace, .inr ⟨hseparator.2, hseparator.1, rfl⟩⟩
    · cases h

theorem next_none (hplace : place.open standard) (hleading : place.leading = false)
    (h : place.next standard c = none) (hc : CharClass.alnum c = true) :
    standard.spoils c = true := by
  rw [Compliance.spoils, hc, Bool.true_and, Bool.not_eq_true', Bool.eq_false_iff]
  intro hreads
  obtain ⟨goal, hgoal, -⟩ := next_reads hone hplace (hleading ▸ hreads)
  simp [h] at hgoal

theorem walk_run (hplace : place.open standard) (hleading : place.leading = false)
    (h : ∀ c ∈ text, standard.reads false c = true) :
    ∃ goal, (algorithmReader standard).walk place text = some goal ∧
      goal.leading = false ∧ goal.open standard := by
  induction text generalizing place with
  | nil => exact ⟨place, rfl, hleading, hplace⟩
  | cons c text ih =>
    obtain ⟨hfirst, hmore⟩ := List.forall_mem_cons.mp h
    obtain ⟨middle, hc, hinside, hopen⟩ := next_reads hone hplace (hleading ▸ hfirst)
    obtain ⟨goal, hwalk, hgoal⟩ := ih hopen hinside hmore
    exact ⟨goal, by simpa [algorithmReader, hc] using hwalk, hgoal⟩

theorem before_step (h : place.next standard c = some goal) (hu : u ∈ place.before standard) :
    u ++ [c] ∈ goal.before standard ∨
      ∃ w ∈ standard.component, ∃ s ∈ Grammar.one CharClass.algorithmSeparator,
        ∃ v ∈ goal.before standard, u ++ [c] = w ++ s ++ v := by
  obtain ⟨hplace, hbefore⟩ := hu
  obtain ⟨hgoal, ⟨hc, hinside⟩ | ⟨hc, hinside, hleading⟩⟩ := next_cases hone hplace h
  · refine .inl ⟨hgoal, ?_⟩
    rw [hinside]
    cases hlead : place.leading with
    | true =>
      rw [hlead] at hc
      obtain rfl : u = [] := by simpa [hlead] using hbefore
      exact Compliance.mem_component.mpr ⟨hc, by simp⟩
    | false =>
      rw [hlead] at hc
      have hword : u ∈ standard.component := by simpa [hlead] using hbefore
      cases u with
      | nil => exact absurd hword Compliance.nil_notMem_component
      | cons d u =>
        obtain ⟨hd, hu⟩ := Compliance.mem_component.mp hword
        refine Compliance.mem_component.mpr ⟨hd, fun e he => ?_⟩
        rcases List.mem_append.mp he with he | he
        · exact hu e he
        · rw [List.mem_singleton.mp he, hc]
  · have hword : u ∈ standard.component := by simpa [hinside] using hbefore
    exact .inr ⟨u, hword, [c], ⟨c, hc, rfl⟩, [], ⟨hgoal, by simp [hleading]⟩, by simp⟩

theorem accepts_algorithm :
    (algorithmReader standard).accepts ⟨true, .universal⟩ = standard.algorithm := by
  have hstart : Place.open standard ⟨true, .universal⟩ := .inr (.inl rfl)
  apply Language.ext
  intro text
  rw [Compliance.algorithm_eq]
  constructor
  · intro h
    rw [← List.nil_append text]
    refine Reader.mem_joined_of_walk (Place.before standard)
      (fun _ _ _ hstep _ => before_step hone hstep) ?_ h ⟨hstart, rfl⟩
    intro place hplace u hu
    have hinside : place.leading = false := by simpa [algorithmReader] using hplace
    simpa [hinside] using hu.2
  · intro h
    have hwalk : ∃ goal, (algorithmReader standard).walk ⟨true, .universal⟩ text = some goal ∧
        goal.leading = false ∧ goal.open standard := by
      refine Reader.walk_joined (fun place : Place => place.leading = true ∧ place.open standard)
        (fun place => place.leading = false ∧ place.open standard) ?_ ?_ text h _ ⟨rfl, hstart⟩
      · intro place hplace w hw
        cases w with
        | nil => exact absurd hw Compliance.nil_notMem_component
        | cons d w =>
          obtain ⟨hd, hw⟩ := Compliance.mem_component.mp hw
          have hfirst : standard.reads place.leading d = true := by rw [hplace.1, hd]
          obtain ⟨middle, hmiddle, hinside, hopen⟩ := next_reads hone hplace.2 hfirst
          obtain ⟨goal, hgoal, hlast⟩ := walk_run hone hopen hinside hw
          exact ⟨goal, by simpa [algorithmReader, hmiddle] using hgoal, hlast⟩
      · intro place hplace s hs
        obtain ⟨d, hd, rfl⟩ := hs
        refine ⟨⟨true, place.compliance⟩, ?_, rfl, hplace.2⟩
        simp [algorithmReader, Place.next, CharClass.alnum_of_separator hd, hd, hplace.1]
    obtain ⟨goal, hgoal, hinside, -⟩ := hwalk
    exact ⟨goal, hgoal, by simp [algorithmReader, hinside]⟩

end One

theorem algorithmFrom_span {component here : Int} {leading : Bool} {found : Scanned Algorithm}
    (h : algorithmFrom standard component leading compliance here text = .ok found) :
    found.value.components.first.offset = component ∧
      found.value.components.last.stop = found.stop := by
  fun_induction algorithmFrom standard component leading compliance here text
    generalizing found with
  | case1 | case2 => rename_i ih; exact ih h
  | case3 | case4 | case7 => cases h
  | case5 =>
    rename_i ih
    obtain ⟨inner, hinner, rfl⟩ := map_eq_ok h
    refine ⟨rfl, ?_⟩
    simpa only [Scanned.map, Algorithm.addComponent, Parts.last_add] using (ih hinner).2
  | case6 | case8 => cases h; simp [Parts.single, Parts.last, Span.stop]

theorem algorithmFrom_splits {component here : Int} {leading : Bool} {found : Scanned Algorithm}
    (h : algorithmFrom standard component leading compliance here text = .ok found) :
    Span.Splits CharClass.algorithmSeparator component here text found.value.components.toList
      found.stop := by
  have halnum : ∀ c, CharClass.alnum c = true → CharClass.algorithmSeparator c = false := by
    intro c hc
    rw [Bool.eq_false_iff]
    intro hseparator
    simp [CharClass.alnum_of_separator hseparator] at hc
  fun_induction algorithmFrom standard component leading compliance here text
    generalizing found with
  | case1 _ _ _ _ c _ hc _ ih => exact .read (halnum c hc) (ih h)
  | case2 _ _ _ _ c _ hc _ _ _ ih => exact .read (halnum c hc) (ih h)
  | case3 | case4 | case7 => cases h
  | case5 _ _ _ _ c _ _ _ hseparator ih =>
    obtain ⟨inner, hinner, rfl⟩ := map_eq_ok h
    exact .closed hseparator (ih hinner)
  | case6 | case8 =>
    cases h
    exact .ended _

def Reports (_ : Text) (_ : Option Char) (kind : RejectionKind) : Prop :=
  kind = .digestInvalidFormat

theorem algorithm_outcome (hone : standard ≠ .universal) (text : Text) :
    Outcome standard.algorithm standard.spoils
      (fun start front algorithm => algorithm.components.span = ⟨start, front.length⟩ ∧
        algorithm.compliance.Meets standard) Reports 0 text
      (algorithmFrom standard 0 true .universal 0 text) := by
  obtain ⟨front, rest, goal, hsplit, hwalk, hnone, hend⟩ := algorithm_ends standard text
  have hcut : Cut standard.algorithm front rest := by
    rw [← accepts_algorithm hone]
    exact algorithmReader_live.cut hwalk hnone
  have hmem : front ∈ standard.algorithm ↔ goal.leading = false := by
    rw [← accepts_algorithm hone, Reader.mem_accepts hwalk]
    simp [algorithmReader]
  have hopen : goal.open standard := Reader.walk_preserves (Place.open standard)
    (fun _ _ _ hplace hstep => (next_cases hone hplace hstep).1) hwalk (.inr (.inl rfl))
  cases hscan : algorithmFrom standard 0 true .universal 0 text with
  | ok found =>
    rw [hscan, algorithmEnding, Place.verdict] at hend
    split at hend
    · next hgoal =>
      obtain ⟨hstop, hcompliance⟩ := Prod.mk.inj (Except.ok.inj hend)
      obtain ⟨hfirst, hlast⟩ := algorithmFrom_span hscan
      refine .ok hsplit (hmem.mpr hgoal.1) hcut (by simpa using hstop) ⟨?_, ?_⟩
      · simp [Parts.span, Span.join, hfirst, hlast, hstop]
      · rw [hcompliance]
        exact hopen
    · cases hend
  | error failure =>
    rw [hscan, algorithmEnding, Place.verdict] at hend
    split at hend
    · cases hend
    · next hgoal =>
      have hrejection := Except.error.inj hend
      have hoffset : failure.offset = front.length := congrArg Rejection.offset hrejection
      have hkind : failure.kind = .digestInvalidFormat := congrArg Rejection.kind hrejection
      refine .error hsplit ⟨hcut, fun hfront => ?_⟩ (by simpa using hoffset) hkind
      have hinside := hmem.mp hfront
      cases rest with
      | nil => exact absurd ⟨hinside, rfl⟩ hgoal
      | cons c rest =>
        have halnum : CharClass.alnum c = true := by
          by_contra hc
          exact hgoal ⟨hinside, by simpa using hc⟩
        exact ⟨c, rfl, next_none hone hopen hinside (hnone c rfl) halnum⟩

theorem encodedValue_ends {run rest : Text} (hone : standard ≠ .universal)
    (hmeets : compliance.Meets standard) (hrun : ∀ c ∈ run, standard.encodedClass c = true)
    (hrest : ∀ c ∈ rest.head?, standard.encodedClass c = false) :
    (run ∈ standard.encoded ∧ ∃ narrowed, encodedValue standard compliance (run ++ rest) =
      .ok ⟨(⟨0, run.length⟩, narrowed), run.length⟩) ∨
    (run ∉ standard.encoded ∧ ∃ failure, encodedValue standard compliance (run ++ rest) =
      .error failure ∧ failure.kind = .digestInvalidFormat ∧ failure.offset = run.length) := by
  have htake : (run ++ rest).takeWhile standard.encodedClass = run := takeWhile_run hrun hrest
  have hmin : encodedMinLength = 32 := rfl
  rw [encodedValue, htake]
  cases standard with
  | universal => exact absurd rfl hone
  | distribution =>
    have hfind : run.findIdx? (fun c => !CharClass.hex c) = none := by
      refine List.findIdx?_eq_none_iff.mpr fun c hc => ?_
      rw [show CharClass.hex c = true from hrun c hc, Bool.not_true]
    have hadmits : compliance.admits .distribution .oci = false := by
      cases compliance <;> rfl
    simp only [hfind, hadmits]
    by_cases hlong : 32 ≤ run.length
    · have hne : run.isEmpty = false := by
        rw [List.isEmpty_eq_false_iff]
        exact List.ne_nil_of_length_pos (by omega)
      rw [if_neg (by simp [hne]), if_neg (by omega)]
      exact .inl ⟨⟨hlong, hrun⟩, _, rfl⟩
    · refine .inr ⟨fun hmem => hlong hmem.1, ?_⟩
      split
      · exact ⟨_, rfl, rfl, rfl⟩
      · rw [if_pos (by omega)]
        exact ⟨_, rfl, rfl, rfl⟩
  | oci =>
    have hadmits : compliance.admits .oci .oci = true := hmeets.admits hone
    simp only [hadmits, if_true]
    cases run with
    | nil => exact .inr ⟨fun hmem => absurd hmem.1 (by simp), _, rfl, rfl, rfl⟩
    | cons c run =>
      refine .inl ⟨⟨by simp, hrun⟩, ?_⟩
      split
      · exact ⟨_, rfl⟩
      · rw [if_neg (by simp)]
        split
        · exact ⟨_, rfl⟩
        · exact ⟨_, rfl⟩

theorem encoded_outcome (hone : standard ≠ .universal) (hmeets : compliance.Meets standard)
    (text : Text) : Outcome standard.encoded standard.spoils
      (fun start front value => Spans standard.encoded start front value.1) Reports 0 text
      (encodedValue standard compliance text) := by
  obtain ⟨run, rest, rfl, hrun, hrest⟩ := exists_run standard.encodedClass text
  have hcut : Cut standard.encoded run rest := by
    refine ⟨Compliance.viable_encoded.mpr hrun, fun c hc hviable => ?_⟩
    have hclass := Compliance.viable_encoded.mp hviable c (by simp)
    rw [hrest c hc] at hclass
    cases hclass
  rcases encodedValue_ends hone hmeets hrun hrest with ⟨hmem, narrowed, hvalue⟩ | ⟨hnot, hvalue⟩
  · rw [hvalue]
    exact .ok rfl hmem hcut (by simp) ⟨hmem, rfl⟩
  · obtain ⟨failure, hvalue, hkind, hoffset⟩ := hvalue
    rw [hvalue]
    exact .error rfl ⟨hcut, fun hmem => absurd hmem hnot⟩ (by simpa using hoffset) hkind

def CoversIn (standard : Compliance) (start : Int) (front : Text) (digest : Digest) : Prop :=
  ∃ a e : Text, front = a ++ ':' :: e ∧ Spans standard.algorithm start a digest.algorithm ∧
    Spans standard.encoded (start + a.length + 1) e digest.encoded

abbrev Covers : Int → Text → Digest → Prop := CoversIn .distribution

variable {start : Int} {front : Text} {digest : Digest}

theorem CoversIn.span (hone : standard ≠ .universal) (h : CoversIn standard start front digest) :
    Spans standard.digest start front digest.span := by
  obtain ⟨a, e, rfl, ⟨ha, halgorithm⟩, ⟨he, hencoded⟩⟩ := h
  have hmem : a ++ ([':'] ++ e) ∈ standard.digest := by
    rw [Compliance.digest_eq hone]
    exact Language.append_mem_mul ha (mem_singleton_mul.mpr he)
  refine ⟨hmem, ?_⟩
  have hfirst : digest.components.first.offset = start := congrArg Span.offset halgorithm
  simp only [Digest.span, Span.join, hfirst, hencoded, Span.stop, List.length_append,
    List.length_cons, Span.mk.injEq, true_and]
  omega

theorem Covers.span (h : Covers start front digest) :
    Spans Grammar.digest start front digest.span :=
  CoversIn.span (by decide) h

theorem algorithm_shift (n : Int) : (shift n digest).algorithm = shift n digest.algorithm :=
  Parts.span_shift

theorem CoversIn.shift (n : Int) (h : CoversIn standard start front digest) :
    CoversIn standard (start + n) front (shift n digest) := by
  obtain ⟨a, e, rfl, halgorithm, hencoded⟩ := h
  refine ⟨a, e, rfl, ?_, ?_⟩
  · rw [algorithm_shift]
    exact halgorithm.shift n
  · rw [show start + n + a.length + 1 = start + a.length + 1 + n by omega]
    exact hencoded.shift n

theorem encoded_behind {components : Parts} (hone : standard ≠ .universal)
    (hspan : Spans standard.algorithm 0 front components.span)
    (hmeets : compliance.Meets standard) (tail : Text) :
    Outcome ({[':']} * standard.encoded) standard.spoils
      (fun _ back => CoversIn standard 0 (front ++ back)) Reports
      front.length (':' :: tail)
      ((Scan.behind (encodedValue standard compliance) (front.length + 1)
        (front ++ ':' :: tail)).map (Scanned.map fun value => ⟨components, value.1, value.2⟩)) := by
  have hencoded := Scan.behind_outcome (encoded_outcome hone hmeets)
    (fun n _ _ _ h => Spans.shift n h) (front ++ [':']) tail
  have hlength : ((front ++ [':']).length : Int) = front.length + [':'].length := by simp
  rw [hlength, List.append_assoc] at hencoded
  refine hencoded.behind.map ?_
  intro back value hback
  obtain ⟨e, rfl, hvalue⟩ := hback
  refine ⟨front, e, rfl, hspan, ?_⟩
  rw [Int.zero_add]
  exact hvalue

theorem scan_outcome_in (hone : standard ≠ .universal) (text : Text) :
    Outcome standard.digest standard.spoils (CoversIn standard) Reports 0 text
      (scan standard text) := by
  have hparted := Compliance.parted standard
  have hviable : Viable ({[':']} * standard.encoded) [] := by
    obtain ⟨more, hmore⟩ := Compliance.viable_encoded.mpr (by simp : ∀ c ∈ [],
      standard.encodedClass c = true)
    exact ⟨[':'] ++ more, mem_singleton_mul.mpr hmore⟩
  have hspoils : ∀ c, standard.spoils c = true → (c == ':') = false ∧ standard.spoils c = true := by
    intro c hc
    refine ⟨?_, hc⟩
    rw [beq_eq_false_iff_ne]
    rintro rfl
    cases hc
  rw [Compliance.digest_eq hone]
  refine (algorithm_outcome hone text).with_mem.bind hparted hviable hspoils
    (fun _ _ _ _ h => h) ?_
  intro front rest found _ hsplit hstop hholds
  obtain ⟨hfront, hspan, hmeets⟩ := hholds
  rw [Int.zero_add] at hstop ⊢
  rw [hstop, Int.toNat_natCast, hsplit, List.drop_left]
  by_cases hmark : rest.head? = some ':'
  · obtain ⟨tail, rfl⟩ := List.head?_eq_some_iff.mp hmark
    rw [if_pos hmark]
    have hsecond := encoded_behind hone ⟨hfront, hspan⟩ hmeets tail
    rwa [← bind_scanned] at hsecond
  · rw [if_neg hmark]
    have hstuck : ∀ c ∈ rest.head?, ¬ Viable ({[':']} * standard.encoded) ([] ++ [c]) := by
      intro c hc h
      obtain ⟨more, hmore⟩ := h
      have hopens := hparted.opens c _ hmore
      rw [hc, beq_iff_eq.mp hopens] at hmark
      exact hmark rfl
    have hnil : [] ∉ {[':']} * standard.encoded := by
      intro h
      obtain ⟨m, rfl, e, -, he⟩ := Language.mem_mul.mp h
      cases he
    exact .error rfl ⟨⟨hviable, hstuck⟩, fun h => absurd h hnil⟩ (by simp) rfl

theorem scan_outcome (text : Text) :
    Outcome Grammar.digest (fun _ => false) Covers Reports 0 text (scan .distribution text) := by
  have hspoils : Compliance.spoils .distribution = fun _ => false := by
    funext c
    exact Bool.and_not_self _
  rw [← hspoils]
  exact @scan_outcome_in .distribution (by decide) text

end ImageReference.Digest
