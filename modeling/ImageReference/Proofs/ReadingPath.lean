import ImageReference.Proofs.Reading

/-!
# Reading tags, paths and digests

Tags, paths and digests are read as their scans say, at every cursor in its source.
-/

namespace ImageReference

open Cursor Reading

variable {c : Cursor} {n component : Int} {char : Char} {text run rest : Text}

theorem Tag.tag_tracks (hahead : c.Ahead 0 text) :
    Tracks c (scan text) (Got c (scan text) .ok) (Reading.tag (c.moved 0)) := by
  rw [tag, bind_eq place_moved, bind_eq (test_moved hahead _)]
  refine .require rfl ?_ fun hword => ?_
  · intro hword
    exact ⟨_, by rw [Tag.scan, hword]; rfl⟩
  rw [bind_eq (captureWhile_limited hahead CharClass.tag (Tag.maxLength + 1))]
  refine .require (Int.add_assoc _ _ _) ?_ fun hlength => ?_
  · intro hlong
    rw [decide_eq_false_iff_not, Nat.not_le] at hlong
    exact ⟨_, by rw [Tag.scan, if_pos hword, if_pos hlong, Int.zero_add, Int.zero_add]⟩
  · have hrun : ((text.take (Tag.maxLength + 1)).takeWhile CharClass.tag).length ≤ text.length :=
      ((List.takeWhile_prefix _).trans (List.take_prefix _ _)).length_le
    have hscan : Tag.scan text =
        .ok ⟨⟨0, ((text.take (Tag.maxLength + 1)).takeWhile CharClass.tag).length⟩,
          ((text.take (Tag.maxLength + 1)).takeWhile CharClass.tag).length⟩ := by
      rw [decide_eq_true_eq] at hlength
      rw [Tag.scan, if_pos hword, if_neg (Nat.not_lt.mpr hlength)]
    refine .read (hahead.drop hrun) ⟨_, ?_, by rw [hscan, Int.zero_add]⟩
    rw [Int.add_comm]
    rfl

namespace Path

variable {place : Place} {front : List Span} {separators : List PathSeparator}

theorem scanFrom_run (hrun : ∀ c ∈ run, CharClass.lowerAlnum c = true) :
    scanFrom component .word n (run ++ rest) = scanFrom component .word (n + run.length) rest := by
  induction run generalizing n with
  | nil => simp
  | cons char run ih =>
    rw [List.cons_append, scanFrom, if_pos (hrun char List.mem_cons_self),
      ih fun c hc => hrun c (List.mem_cons_of_mem _ hc), List.length_cons]
    congr 1
    omega

/-- What a word behind a place adds to the path behind it. -/
def Place.complete (place : Place) (path : Path) : Path :=
  match place.separator? with
  | none => path
  | some separator => path.addSeparator separator

def Place.grows : Place → CharClass
  | .underscore, c | .underscores, c => c == '_'
  | .hyphens, c => c == '-'
  | _, _ => false

def Place.Ends (place : Place) (text : Text) : Prop :=
  place ≠ .word ∧ ∀ c ∈ text.head?, place.grows c = false

theorem scanFrom_word (hplace : place ≠ .word) (hrun : ∀ c ∈ run, CharClass.lowerAlnum c = true)
    (hne : run ≠ []) : scanFrom component place n (run ++ rest) =
      (scanFrom component .word (n + run.length) rest).map (Scanned.map place.complete) := by
  cases run with
  | nil => exact absurd rfl hne
  | cons char run =>
    have hchar := hrun char List.mem_cons_self
    have hword := @scanFrom_run (n + 1) component run rest fun c hc =>
      hrun c (List.mem_cons_of_mem _ hc)
    have hlength : n + (char :: run).length = n + 1 + run.length := by
      rw [List.length_cons]
      omega
    rw [hlength, ← hword, List.cons_append]
    have hid : ∀ result : Except Failure (Scanned Path),
        result.map (Scanned.map (fun path => path)) = result := by
      rintro (_ | _) <;> rfl
    cases place with
    | word => exact absurd rfl hplace
    | fresh =>
      rw [scanFrom, if_pos hchar]
      · exact (hid _).symm
      · simp
    | underscore | underscores | hyphens =>
      rw [scanFrom, if_pos hchar]
      · rfl
      · simp

theorem scanFrom_stuck (hplace : place.Ends text)
    (hhead : ∀ c ∈ text.head?, CharClass.lowerAlnum c = false) :
    scanFrom component place n text = .error (wordFailure n text.head?) := by
  obtain ⟨hword, hends⟩ := hplace
  cases text with
  | nil => cases place <;> simp_all [scanFrom]
  | cons char rest =>
    have hchar := hhead char rfl
    have hgrows := hends char rfl
    cases place <;> simp_all [scanFrom, Place.grows]

variable {whole : Except Failure (Scanned Path)} {f : Path → Path}

def Stands (whole : Except Failure (Scanned Path)) (component : Int) (f : Path → Path) (n : Int)
    (text : Text) : Prop :=
  whole = (scanFrom component .word n text).map (Scanned.map f) ∧
    ∀ c ∈ text.head?, CharClass.lowerAlnum c = false ∧ CharClass.upper c = false

theorem scanFrom_read (hplace : place ≠ .word) (hrun : ∀ c ∈ run, CharClass.lowerAlnum c = true)
    (hne : run ≠ []) : (scanFrom component place n (run ++ rest)).map (Scanned.map f) =
      (scanFrom component .word (n + run.length) rest).map (Scanned.map (f ∘ place.complete)) := by
  rw [scanFrom_word hplace hrun hne]
  cases scanFrom component .word (n + run.length) rest <;> rfl

theorem scanFrom_upper (hplace : place.Ends (run ++ char :: rest))
    (hrun : ∀ c ∈ run, CharClass.lowerAlnum c = true) (hlower : CharClass.lowerAlnum char = false)
    (hupper : CharClass.upper char = true) :
    scanFrom component place n (run ++ char :: rest) =
      .error { kind := .nameContainsUppercase, offset := n + run.length } := by
  rcases List.eq_nil_or_concat run with rfl | ⟨front, last, rfl⟩
  · have hhead : ∀ c ∈ (char :: rest).head?, CharClass.lowerAlnum c = false := by simpa using hlower
    rw [List.nil_append] at hplace ⊢
    rw [scanFrom_stuck hplace hhead, List.head?_cons, wordFailure, if_pos hupper, List.length_nil,
      Int.natCast_zero, Int.add_zero]
  · rw [scanFrom_word hplace.1 hrun (by simp), scanFrom, hlower, hupper]
    rfl

theorem word_tracks (h : c.Ahead n text) (hplace : place.Ends text)
    (hwhole : whole = (scanFrom component place n text).map (Scanned.map f)) :
    Tracks c whole (fun _ n' text' => Stands whole component (f ∘ place.complete) n' text' ∧
      text'.length < text.length) (word (c.moved n)) := by
  obtain ⟨run, rest, rfl, hrun, hrest⟩ := exists_run CharClass.lowerAlnum text
  have hcapture := captureWhile_moved h CharClass.lowerAlnum
  rw [takeWhile_run hrun hrest] at hcapture
  have hahead := h.read
  rw [word, bind_eq hcapture, bind_eq (test_moved hahead _), bind_eq place_moved]
  refine .require rfl (fun hupper => ?_) fun hupper => ?_
  · rw [Bool.not_eq_false', Option.any_eq_true] at hupper
    obtain ⟨char, hhead, hchar⟩ := hupper
    have hlower := hrest char hhead
    obtain ⟨rest, rfl⟩ := List.head?_eq_some_iff.mp hhead
    rw [hwhole, scanFrom_upper hplace hrun hlower hchar]
    exact ⟨_, rfl⟩
  have hlower : ∀ c ∈ rest.head?, CharClass.upper c = false := by
    intro char hchar
    rw [Option.mem_def.mp hchar] at hupper
    simpa using hupper
  rw [bind_eq place_moved]
  refine .require_last rfl hahead (fun hlength => ?_) fun hlength => ?_
  · obtain rfl : run = [] := by simpa using hlength
    have hfails : whole = .error { kind := .pathInvalidFormat, offset := n } := by
      rw [List.nil_append] at hwhole hplace
      rw [hwhole, scanFrom_stuck hplace hrest]
      cases hhead : rest.head? with
      | none => rfl
      | some char =>
        rw [wordFailure, hlower char hhead]
        rfl
    rw [List.length_nil, Int.natCast_zero, Int.add_zero]
    exact ⟨_, hfails⟩
  · rw [decide_eq_true_eq] at hlength
    have hread : whole = (scanFrom component .word (n + run.length) rest).map
        (Scanned.map (f ∘ place.complete)) := by
      rw [hwhole, scanFrom_read hplace.1 hrun (List.ne_nil_of_length_pos hlength)]
    refine ⟨⟨hread, fun c hc => ⟨hrest c hc, hlower c hc⟩⟩, ?_⟩
    rw [List.length_append]
    omega

def prepend (front : List Span) (separators : List PathSeparator) (path : Path) : Path :=
  ⟨.prepend front path.components, separators ++ path.separators⟩

theorem prepend_complete (hplace : place.separator? = none) :
    prepend front separators ∘ place.complete = prepend front separators := by
  funext path
  rw [Function.comp_apply, Place.complete, hplace]

theorem prepend_addSeparator (separator : PathSeparator) :
    prepend front separators ∘ addSeparator separator =
      prepend front (separators ++ [separator]) := by
  funext path
  simp [prepend, addSeparator]

theorem prepend_addComponent (span : Span) :
    prepend front separators ∘ addComponent span = prepend (front ++ [span]) separators := by
  funext path
  exact congrArg (Path.mk · _) (Parts.prepend_append span).symm

theorem map_map {α β γ : Type} (f : β → γ) (g : α → β) (result : Except Failure (Scanned α)) :
    (result.map (Scanned.map g)).map (Scanned.map f) = result.map (Scanned.map (f ∘ g)) := by
  cases result <;> rfl

/-- A separator is read, which the word behind it completes; or there is none. -/
def ReadSeparator (whole : Except Failure (Scanned Path)) (component : Int) (f : Path → Path)
    (n : Int) (text : Text) : Option PathSeparator → Int → Text → Prop
  | some separator, n', text' => ∃ place g,
      whole = (scanFrom component place n' text').map (Scanned.map g) ∧
        g ∘ place.complete = f ∘ addSeparator separator ∧ place.Ends text' ∧
        text'.length < text.length
  | none, n', text' =>
      n' = n ∧ text' = text ∧ ∀ c ∈ text.head?, c ≠ '.' ∧ c ≠ '_' ∧ c ≠ '-'

theorem takeWhile_not_head {p : CharClass} {limit : Nat} (hrest : ∀ c ∈ rest.head?, p c = false) :
    (rest.take limit).takeWhile p = [] := by
  have hnone : (([] ++ rest).take limit).takeWhile p = List.take limit [] :=
    takeWhile_take_run (by simp) hrest limit
  rwa [List.nil_append, List.take_nil] at hnone

theorem underscores_track (h : c.Ahead n ('_' :: rest))
    (hwhole : whole = (scanFrom component .underscore (n + 1) rest).map (Scanned.map f)) :
    Tracks c whole
      (fun separator => ReadSeparator whole component f n ('_' :: rest) (some separator))
      (underscores (c.moved n)) := by
  have hcapture := captureWhile_limited h (· == '_') 3
  have hends : ∀ text : Text, text.head? ≠ some '_' → ∀ c ∈ text.head?, (c == '_') = false := by
    intro text hhead c hc
    rw [beq_eq_false_iff_ne]
    rintro rfl
    exact hhead hc
  rw [underscores, bind_eq place_moved]
  by_cases hfirst : rest.head? = some '_'
  · obtain ⟨rest, rfl⟩ := List.head?_eq_some_iff.mp hfirst
    by_cases hsecond : rest.head? = some '_'
    · obtain ⟨rest, rfl⟩ := List.head?_eq_some_iff.mp hsecond
      have hfails : whole = .error ⟨.pathInvalidFormat, n + 2, n + 3, n + 3⟩ := by
        have hplace : n + 1 + 1 = n + 2 := Int.add_assoc n 1 1
        rw [hwhole]
        change Except.error (Failure.mk _ (n + 1 + 1) (n + 1 + 1 + 1) (n + 1 + 1 + 1)) = _
        rw [hplace, Int.add_assoc n 2 1]
        rfl
      rw [bind_eq hcapture]
      exact .require (Int.add_assoc _ _ _) (fun _ => ⟨n + 3, hfails⟩) nofun
    · have hlength : (List.takeWhile (· == '_') (List.take 3 ('_' :: '_' :: rest))).length = 2 := by
        change ((rest.take 1).takeWhile (· == '_')).length + 1 + 1 = 2
        rw [takeWhile_not_head (hends rest hsecond)]
        rfl
      rw [hlength] at hcapture
      have hahead : c.Ahead (n + 2) rest := h.drop (k := 2) (by simp)
      rw [bind_eq hcapture]
      refine .require (Int.add_assoc _ _ _) nofun fun _ =>
        .read hahead ⟨.underscores, f, ?_, rfl, ⟨by simp, hends rest hsecond⟩, ?_⟩
      · have hplace : n + 1 + 1 = n + (2 : Nat) := Int.add_assoc n 1 1
        rw [hwhole, ← hplace]
        rfl
      · rw [List.length_cons, List.length_cons]
        omega
  · have hlength : (List.takeWhile (· == '_') (List.take 3 ('_' :: rest))).length = 1 := by
      change ((rest.take 2).takeWhile (· == '_')).length + 1 = 1
      rw [takeWhile_not_head (hends rest hfirst)]
      rfl
    rw [hlength] at hcapture
    rw [bind_eq hcapture]
    refine .require (Int.add_assoc _ _ _) nofun fun _ =>
      .read h.next ⟨.underscore, f, hwhole, rfl, ⟨by simp, hends rest hfirst⟩, by simp⟩

theorem scanFrom_hyphens (hrun : ∀ c ∈ run, (c == '-') = true) :
    scanFrom component .hyphens n (run ++ rest) =
      scanFrom component .hyphens (n + run.length) rest := by
  induction run generalizing n with
  | nil => simp
  | cons char run ih =>
    obtain rfl : char = '-' := by simpa using hrun char List.mem_cons_self
    have hrest := @ih (n + 1) fun c hc => hrun c (List.mem_cons_of_mem _ hc)
    have hlength : n + (('-' :: run).length : Nat) = n + 1 + run.length := by
      rw [List.length_cons]
      omega
    rw [hlength, ← hrest]
    rfl

theorem separator_tracks (h : c.Ahead n text) (hstands : Stands whole component f n text) :
    Tracks c whole (ReadSeparator whole component f n text) (separator (c.moved n)) := by
  obtain ⟨hwhole, hhead⟩ := id hstands
  rw [separator, bind_eq (peek_moved h)]
  split
  · next hdot =>
    obtain ⟨rest, rfl⟩ := List.head?_eq_some_iff.mp hdot
    rw [bind_eq (Reading.advance_moved h)]
    refine .read h.next ⟨.fresh, f ∘ addSeparator .dot, ?_, rfl, ⟨by simp, fun _ _ => rfl⟩, by simp⟩
    rw [hwhole, ← map_map]
    rfl
  split
  · next hunderscore =>
    obtain ⟨rest, rfl⟩ := List.head?_eq_some_iff.mp hunderscore
    have hnext : whole = (scanFrom component .underscore (n + 1) rest).map (Scanned.map f) :=
      hwhole
    exact (underscores_track h hnext).bind fun separator n' text' hahead hpost => .read hahead hpost
  split
  · next hhyphen =>
    obtain ⟨run, rest, hsplit, hrun, hrest⟩ := exists_run (· == '-') text
    have hcapture := captureWhile_moved h (· == '-')
    subst hsplit
    rw [takeWhile_run hrun hrest] at hcapture
    cases run with
    | nil =>
      have hhead := hrest '-' hhyphen
      cases hhead
    | cons char run =>
      obtain rfl : char = '-' := by simpa using hrun char List.mem_cons_self
      rw [bind_eq hcapture]
      refine .read h.read ⟨.hyphens, f, ?_, rfl, ⟨by simp, hrest⟩, ?_⟩
      · have hlength : n + (('-' :: run).length : Nat) = n + 1 + run.length := by
          rw [List.length_cons]
          omega
        rw [hwhole, hlength, ← scanFrom_hyphens fun c hc => hrun c (List.mem_cons_of_mem _ hc)]
        rfl
      · rw [List.length_append, List.length_cons]
        omega
  · next hdot hunderscore hhyphen =>
    refine .read h ⟨rfl, rfl, fun c hc => ⟨?_, ?_, ?_⟩⟩
    · rintro rfl
      exact hdot hc
    · rintro rfl
      exact hunderscore hc
    · rintro rfl
      exact hhyphen hc

theorem separated_tracks (h : c.Ahead n text)
    (hstands : Stands whole component (prepend front separators) n text) :
    Tracks c whole (Round (fun separators => Stands whole component (prepend front separators))
      (fun separators' n' text' => separators' = separators ∧ n' = n ∧ text' = text ∧
        ∀ c ∈ text.head?, c ≠ '.' ∧ c ≠ '_' ∧ c ≠ '-') text.length)
      (separated separators (c.moved n)) := by
  rw [separated]
  refine (separator_tracks h hstands).bind fun separator n' text' hahead hpost => ?_
  cases separator with
  | none => exact .read hahead ⟨rfl, hpost⟩
  | some separator =>
    obtain ⟨place, g, hwhole, hcomplete, hplace, hlength⟩ := hpost
    refine (word_tracks hahead hplace hwhole).bind fun _ n' text' hahead hpost => ?_
    rw [hcomplete, prepend_addSeparator] at hpost
    exact .read hahead ⟨hpost.1, Nat.lt_trans hpost.2 hlength⟩

theorem component_tracks (h : c.Ahead n text)
    (hwhole : whole = (scanFrom component .fresh n text).map
      (Scanned.map (prepend front separators))) :
    Tracks c whole (fun separators n' text' =>
      (Stands whole component (prepend front separators) n' text' ∧ text'.length < text.length) ∧
        ∀ c ∈ text'.head?, c ≠ '.' ∧ c ≠ '_' ∧ c ≠ '-')
      (Reading.component separators (c.moved n)) := by
  rw [Reading.component]
  refine (word_tracks h ⟨by simp, fun _ _ => rfl⟩ hwhole).bind fun _ n' text' hahead hpost => ?_
  rw [prepend_complete rfl] at hpost
  refine Tracks.repeatStep (fun separators n' text' =>
    Stands whole component (prepend front separators) n' text' ∧ text'.length < text.length)
    (fun separators n' text' hahead hinv => ?_) hahead hpost
  refine (separated_tracks hahead hinv.1).mono fun outcome n'' text'' hpost => ?_
  cases outcome with
  | inl separators => exact ⟨⟨hpost.1, Nat.lt_trans hpost.2 hinv.2⟩, hpost.2⟩
  | inr separators' =>
    obtain ⟨rfl, rfl, rfl, hclear⟩ := hpost
    exact ⟨hinv, hclear⟩

theorem shift_prepend (o : Int) (path : Path) :
    shift o (prepend front separators path) =
      prepend (shift o front) separators (shift o path) :=
  congrArg (Path.mk · (separators ++ path.separators)) (Parts.shift_prepend o)

theorem scanFrom_done (hhead : ∀ c ∈ text.head?, CharClass.lowerAlnum c = false ∧
      CharClass.upper c = false) (hclear : ∀ c ∈ text.head?, c ≠ '.' ∧ c ≠ '_' ∧ c ≠ '-')
    (hslash : text.head? ≠ some '/') :
    scanFrom component .word n text = .ok ⟨single ⟨component, n - component⟩, n⟩ := by
  cases text with
  | nil => rfl
  | cons char rest =>
    obtain ⟨hword, hupper⟩ := hhead char rfl
    obtain ⟨hdot, hunderscore, hhyphen⟩ := hclear char rfl
    have hne : char ≠ '/' := fun he => hslash (congrArg some he)
    simp [scanFrom, hword, hupper, hdot, hunderscore, hhyphen, hne]

def Begins (c : Cursor) (whole : Except Failure (Scanned Path))
    (state : List Span × List PathSeparator) (n : Int) (text : Text) : Prop :=
  ∃ front, state.1 = shift c.offset front ∧
    whole = (scanFrom n .fresh n text).map (Scanned.map (prepend front state.2))

theorem pathComponent_tracks {state : List Span × List PathSeparator} (h : c.Ahead n text)
    (hbegins : Begins c whole state n text) :
    Tracks c whole (Round (Begins c whole) (Got c whole .ok) text.length)
      (Reading.pathComponent state (c.moved n)) := by
  obtain ⟨front, hfront, hwhole⟩ := hbegins
  rw [Reading.pathComponent, bind_eq place_moved, hfront]
  refine (component_tracks h hwhole).bind fun separators n' text' hahead hpost => ?_
  obtain ⟨⟨⟨hstands, hhead⟩, hlength⟩, hclear⟩ := hpost
  rw [bind_eq (spanFrom_moved n'), bind_eq (peek_moved hahead), Int.add_comm c.offset]
  split
  · next hslash =>
    obtain ⟨rest, rfl⟩ := List.head?_eq_some_iff.mp hslash
    rw [bind_eq (Reading.advance_moved hahead)]
    refine .read hahead.next ⟨⟨front ++ [⟨n, n' - n⟩], ?_, ?_⟩, Nat.lt_of_succ_lt hlength⟩
    · rw [shift_append]
      rfl
    · rw [hstands, ← prepend_addComponent, ← map_map]
      rfl
  · next hslash =>
    refine .read hahead ⟨prepend front separators (single ⟨n, n' - n⟩), ?_, ?_⟩
    · rw [shift_prepend]
      exact congrArg (Path.mk _) (List.append_nil separators).symm
    · rw [hstands, scanFrom_done hhead hclear hslash]
      rfl

theorem path_tracks (h : c.Ahead 0 text) :
    Tracks c (scan text) (Got c (scan text) .ok) (Reading.path (c.moved 0)) := by
  have hbegins : Begins c (scan text) ([], []) 0 text := by
    refine ⟨[], rfl, ?_⟩
    rw [scan]
    cases scanFrom 0 .fresh 0 text <;> rfl
  exact Tracks.repeatStep (Begins c (scan text)) (fun _ _ _ => pathComponent_tracks) h hbegins

end Path

end ImageReference
