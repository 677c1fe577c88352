import ImageReference.Proofs.Digest
import ImageReference.Proofs.Reading

/-!
# Reading digests

A digest is read as its scan says. The compliance narrows at the same characters
on both sides; for the encoded value the scan looks for the first character that
is no hex digit, where the reading looks at every position.
-/

namespace ImageReference.Digest

open Cursor Reading

variable {c : Cursor} {n place : Int} {offset : Int} {char : Char} {text run rest : Text}
  {α β γ : Type} {standard compliance toward : Compliance}
  {whole : Except Failure (Scanned γ)} {post : α → Int → Text → Prop}
  {found : Scanned Algorithm → Except Failure (Scanned γ)}

theorem admits_toward (h : compliance.admits standard toward = true) :
    toward.admits standard toward = true := by
  rw [Compliance.admits, Bool.and_eq_true] at h
  rw [Compliance.admits, beq_self_eq_true, Bool.or_true, h.2]
  rfl

theorem narrow_tracks {post : Compliance → Int → Text → Prop} (h : c.Ahead n text)
    (hoffset : offset = c.offset + place)
    (hfails : compliance.admits standard toward = false →
      ∃ reach, whole = .error ⟨.digestInvalidFormat, place, n, reach⟩)
    (hpost : compliance.admits standard toward = true → post toward n text) :
    Tracks c whole post (narrow compliance toward standard offset (c.moved n)) :=
  .require hoffset hfails fun hadmits => .read h (hpost hadmits)

theorem narrowIf_tracks {holds : Bool} {next : Compliance → Reading α} (h : c.Ahead n text)
    (hoffset : offset = c.offset + place)
    (hfails : holds = true → compliance.admits standard toward = false →
      ∃ reach, whole = .error ⟨.digestInvalidFormat, place, n, reach⟩)
    (hnarrow : holds = true → compliance.admits standard toward = true →
      Tracks c whole post (next toward (c.moved n)))
    (hkeep : holds = false → Tracks c whole post (next compliance (c.moved n))) :
    Tracks c whole post
      ((narrowIf holds compliance toward standard offset >>= next) (c.moved n)) := by
  cases holds with
  | true =>
    have hnarrows : Tracks c whole (fun narrowed n' _ =>
        compliance.admits standard toward = true ∧ narrowed = toward ∧ n' = n)
        (narrow compliance toward standard offset (c.moved n)) :=
      narrow_tracks h hoffset (hfails rfl) fun hadmits => ⟨hadmits, rfl, rfl⟩
    refine hnarrows.bind fun narrowed n' text' hahead hpost => ?_
    obtain ⟨hadmits, rfl, rfl⟩ := hpost
    exact hnarrow rfl hadmits
  | false => exact hkeep rfl

def Inside (whole : Except Failure (Scanned γ)) (standard : Compliance) (component : Int)
    (found : Scanned Algorithm → Except Failure (Scanned γ)) (compliance : Compliance) (n : Int)
    (text : Text) : Prop :=
  whole = (algorithmFrom standard component false compliance n text >>= found)

theorem algorithmChar_tracks {component : Int} (h : c.Ahead n text)
    (hinside : Inside whole standard component found compliance n text) :
    Tracks c whole (Round (Inside whole standard component found)
      (fun compliance' n' text' => compliance' = compliance ∧ n' = n ∧ text' = text ∧
        ∀ c ∈ text.head?, CharClass.alnum c = false) text.length)
      (algorithmChar standard compliance (c.moved n)) := by
  rw [algorithmChar, bind_eq (test_moved h _)]
  cases text with
  | nil => exact .read h ⟨rfl, rfl, rfl, nofun⟩
  | cons char rest =>
    cases halnum : CharClass.alnum char with
    | false =>
      have hhead : ∀ c ∈ (char :: rest).head?, CharClass.alnum c = false := by
        simpa using halnum
      simp only [List.head?_cons, Option.any_some, halnum]
      exact .read h ⟨rfl, rfl, rfl, hhead⟩
    | true =>
      simp only [List.head?_cons, Option.any_some, halnum, if_true]
      rw [bind_eq (test_moved h _), bind_eq place_moved]
      simp only [List.head?_cons, Option.any_some]
      refine narrowIf_tracks h rfl (fun hupper hadmits => ?_) (fun hupper hadmits => ?_)
        fun hupper => ?_
      · have hcommits : commitment? false char = some .distribution := by simp [commitment?, hupper]
        exact ⟨_, by rw [hinside, algorithmFrom_refused halnum hcommits hadmits]; rfl⟩
      · have hcommits : commitment? false char = some .distribution := by simp [commitment?, hupper]
        rw [bind_eq (Reading.advance_moved h)]
        refine .read h.next ⟨?_, Nat.lt_succ_self _⟩
        rw [Inside, hinside, algorithmFrom_narrowed halnum hcommits hadmits]
      · have hkept : commitment? false char = none := by simp [commitment?, hupper]
        rw [bind_eq (Reading.advance_moved h)]
        refine .read h.next ⟨?_, Nat.lt_succ_self _⟩
        rw [Inside, hinside, algorithmFrom_kept halnum hkept]

def Starts (whole : Except Failure (Scanned γ)) (standard : Compliance) (component : Int)
    (found : Scanned Algorithm → Except Failure (Scanned γ)) (n : Int) (text : Text)
    (compliance : Compliance) (n' : Int) (text' : Text) : Prop :=
  n' = n ∧ text' = text ∧
    ∃ char rest, text = char :: rest ∧ Inside whole standard component found compliance (n + 1) rest

theorem algorithmStart_tracks {component : Int} (h : c.Ahead n text)
    (hwhole : whole = (algorithmFrom standard component true compliance n text >>= found)) :
    Tracks c whole (Starts whole standard component found n text)
      (algorithmStart standard compliance (c.moved n)) := by
  rw [algorithmStart, bind_eq (peek_moved h), bind_eq place_moved]
  cases text with
  | nil =>
    have hfails : whole = .error { kind := .digestInvalidFormat, offset := n } := by
      rw [hwhole]
      rfl
    exact .require rfl (fun _ => ⟨_, hfails⟩) nofun
  | cons char rest =>
    have hnarrows : ∀ toward, CharClass.alnum char = true →
        commitment? true char = some toward →
        Tracks c whole (Starts whole standard component found n (char :: rest))
          (narrow compliance toward standard (c.offset + n) (c.moved n)) := by
      intro toward halnum hcommits
      refine narrow_tracks h rfl (fun hadmits => ?_) fun hadmits => ?_
      · exact ⟨_, by rw [hwhole, algorithmFrom_refused halnum hcommits hadmits]; rfl⟩
      · refine ⟨rfl, rfl, char, rest, rfl, ?_⟩
        rw [Inside, hwhole, algorithmFrom_narrowed halnum hcommits hadmits]
    split
    · next hupper =>
      replace hupper : CharClass.upper char = true := hupper
      exact hnarrows _ (by simp [CharClass.alnum_eq, CharClass.alpha_eq, hupper])
        (by simp [commitment?, hupper])
    split
    · next hupper hdigit =>
      replace hupper : ¬CharClass.upper char = true := hupper
      replace hdigit : CharClass.digit char = true := hdigit
      exact hnarrows _ (by simp [CharClass.alnum_eq, hdigit])
        (by simp [commitment?, hupper, hdigit])
    · next hupper hdigit =>
      replace hupper : ¬CharClass.upper char = true := hupper
      replace hdigit : ¬CharClass.digit char = true := hdigit
      refine .require rfl (fun hlower => ?_) fun hlower => .read h ⟨rfl, rfl, char, rest, rfl, ?_⟩
      · replace hlower : CharClass.lower char = false := hlower
        have halnum : CharClass.alnum char = false := by
          simp [CharClass.alnum_eq, CharClass.alpha_eq, hupper, hdigit, hlower]
        rw [hwhole, algorithmFrom, halnum]
        exact ⟨_, rfl⟩
      · replace hlower : CharClass.lower char = true := hlower
        have halnum : CharClass.alnum char = true := by
          simp [CharClass.alnum_eq, CharClass.alpha_eq, hlower]
        rw [Inside, hwhole, algorithmFrom_kept halnum (by simp [commitment?, hupper, hdigit])]

theorem algorithmComponent_tracks {component : Int} (h : c.Ahead n text)
    (hwhole : whole = (algorithmFrom standard component true compliance n text >>= found)) :
    Tracks c whole (fun compliance' n' text' =>
      (Inside whole standard component found compliance' n' text' ∧ text'.length < text.length) ∧
        ∀ c ∈ text'.head?, CharClass.alnum c = false)
      (algorithmComponent standard compliance (c.moved n)) := by
  rw [algorithmComponent]
  refine (algorithmStart_tracks h hwhole).bind fun narrowed n' text' hahead hpost => ?_
  obtain ⟨rfl, rfl, char, rest, rfl, hinside⟩ := hpost
  rw [bind_eq (Reading.advance_moved hahead)]
  refine Tracks.repeatStep (fun compliance' n' text' =>
    Inside whole standard component found compliance' n' text' ∧
      text'.length < (char :: rest).length)
    (fun compliance' n' text' hahead hinv => ?_) hahead.next ⟨hinside, Nat.lt_succ_self _⟩
  refine (algorithmChar_tracks hahead hinv.1).mono fun outcome n'' text'' hpost => ?_
  cases outcome with
  | inl compliance' => exact ⟨⟨hpost.1, Nat.lt_trans hpost.2 hinv.2⟩, hpost.2⟩
  | inr compliance' =>
    obtain ⟨rfl, rfl, rfl, hclear⟩ := hpost
    exact ⟨hinv, hclear⟩

def Algorithm.prepend (front : List Span) (algorithm : Algorithm) : Algorithm :=
  { algorithm with components := .prepend front algorithm.components }

theorem prepend_addComponent {front : List Span} (span : Span) (algorithm : Algorithm) :
    (algorithm.addComponent span).prepend front = algorithm.prepend (front ++ [span]) :=
  congrArg (Algorithm.mk · algorithm.compliance) (Parts.prepend_append span).symm

def Begins (c : Cursor) (whole : Except Failure (Scanned γ)) (standard : Compliance)
    (found : Scanned Algorithm → Except Failure (Scanned γ)) (state : List Span × Compliance)
    (n : Int) (text : Text) : Prop :=
  ∃ front, state.1 = shift c.offset front ∧
    whole = (algorithmFrom standard n true state.2 n text >>= fun scanned =>
      found (scanned.map (Algorithm.prepend front)))

def Ends (c : Cursor) (whole : Except Failure (Scanned γ))
    (found : Scanned Algorithm → Except Failure (Scanned γ)) (algorithm : Algorithm) (n : Int)
    (_ : Text) : Prop :=
  ∃ components, algorithm.components = shift c.offset components ∧
    whole = found ⟨⟨components, algorithm.compliance⟩, n⟩

theorem algorithm_tracks {state : List Span × Compliance} (h : c.Ahead n text)
    (hbegins : Begins c whole standard found state n text) :
    Tracks c whole (Round (Begins c whole standard found) (Ends c whole found) text.length)
      (Reading.algorithm standard state (c.moved n)) := by
  obtain ⟨front, hfront, hwhole⟩ := hbegins
  rw [Reading.algorithm, bind_eq place_moved, hfront]
  refine (algorithmComponent_tracks h hwhole).bind fun compliance n' text' hahead hpost => ?_
  obtain ⟨⟨hinside, hlength⟩, hclear⟩ := hpost
  rw [bind_eq (spanFrom_moved n'), bind_eq (test_moved hahead _), Int.add_comm c.offset]
  split
  · next hseparator =>
    obtain ⟨char, hhead, hchar⟩ := Option.any_eq_true _ _ |>.mp hseparator
    obtain ⟨rest, rfl⟩ := List.head?_eq_some_iff.mp hhead
    rw [bind_eq (Reading.advance_moved hahead)]
    refine .read hahead.next ⟨⟨front ++ [⟨n, n' - n⟩], ?_, ?_⟩, Nat.lt_of_succ_lt hlength⟩
    · rw [shift_append]
      rfl
    · rw [hinside, algorithmFrom_separated hchar]
      cases algorithmFrom standard (n' + 1) true compliance (n' + 1) rest with
      | error failure => rfl
      | ok scanned =>
        exact congrArg (fun algorithm => found ⟨algorithm, scanned.stop⟩)
          (prepend_addComponent _ scanned.value)
  · next hseparator =>
    refine .read hahead ⟨.prepend front (.single ⟨n, n' - n⟩), ?_, ?_⟩
    · rw [Parts.shift_prepend]
      rfl
    · rw [hinside, algorithmFrom_done hclear (by simpa using hseparator)]
      rfl

theorem narrowFrom_stays (h : c.Ahead n (run ++ rest))
    (hadmits : Compliance.oci.admits standard .oci = true) (d : Int) :
    narrowFrom standard run.length (c.offset + n) .oci (c.moved d) = (.ok .oci, c.moved d) := by
  induction run generalizing n with
  | nil => rfl
  | cons char run ih =>
    have hnarrow : ∀ holds, narrowIf holds .oci .oci standard (c.offset + n) (c.moved d) =
        (.ok .oci, c.moved d) := by
      intro holds
      cases holds with
      | true =>
        rw [narrowIf, if_pos rfl, narrow, hadmits]
        rfl
      | false => rfl
    rw [List.length_cons, narrowFrom, bind_eq (charAt_moved h d), bind_eq (hnarrow _),
      Int.add_assoc]
    exact ih h.next

theorem narrowFrom_moved (h : c.Ahead n (run ++ rest)) (d : Int) :
    narrowFrom standard run.length (c.offset + n) compliance (c.moved d) =
      narrowIf (run.findIdx? fun c => !CharClass.hex c).isSome compliance .oci standard
        (c.offset + (n + ((run.findIdx? fun c => !CharClass.hex c).getD 0 : Nat))) (c.moved d) := by
  induction run generalizing n with
  | nil => rfl
  | cons char run ih =>
    rw [List.length_cons, narrowFrom, bind_eq (charAt_moved h d), List.findIdx?_cons]
    cases hhex : CharClass.hex char with
    | true =>
      have hkeep : narrowIf (!true) compliance .oci standard (c.offset + n) (c.moved d) =
          (.ok compliance, c.moved d) := rfl
      rw [bind_eq hkeep, Int.add_assoc, ih h.next]
      cases run.findIdx? fun c => !CharClass.hex c with
      | none => rfl
      | some index =>
        have hplace : n + 1 + (index : Int) = n + (index + 1 : Nat) := by omega
        change narrow _ _ _ (c.offset + (n + 1 + index)) _ = _
        rw [hplace]
        rfl
    | false =>
      have hplace : c.offset + (n + ((some 0).getD 0 : Nat)) = c.offset + n := by simp
      simp only [Bool.not_false, if_true, Option.isSome_some]
      rw [hplace, bind_apply, narrowIf, if_pos rfl, narrow]
      cases hadmits : compliance.admits standard .oci with
      | true =>
        -- Narrowed once, the rest of the run narrows nothing more.
        rw [Int.add_assoc]
        exact narrowFrom_stays h.next (admits_toward hadmits) d
      | false => rfl

section

variable {found : Scanned (Span × Compliance) → Except Failure (Scanned γ)}

theorem got_encoded (hwhole : whole = (shift n (Except.ok
      (⟨(⟨0, run.length⟩, compliance), run.length⟩ : Scanned (Span × Compliance))) >>= found)) :
    Got c whole found (⟨c.offset + n, run.length⟩, compliance) (n + run.length) text := by
  refine ⟨(⟨n, run.length⟩, compliance), ?_, ?_⟩
  · rw [Int.add_comm]
    rfl
  · rw [hwhole]
    change found ⟨(⟨0 + n, run.length⟩, compliance), run.length + n⟩ = _
    rw [Int.zero_add, Int.add_comm]

theorem encoded_refused (hwhole : whole = (shift n (Except.error
      { kind := .digestInvalidFormat, offset := place, halted := run.length }) >>= found)) :
    ∃ reach, whole = .error ⟨.digestInvalidFormat, n + place, n + run.length, reach⟩ := by
  rw [Int.add_comm n place, Int.add_comm n run.length]
  exact ⟨_, hwhole⟩

theorem encoded_tracks (h : c.Ahead n text)
    (hwhole : whole = (shift n (encodedValue standard compliance text) >>= found)) :
    Tracks c whole (Got c whole found) (Reading.encoded standard compliance (c.moved n)) := by
  obtain ⟨run, rest, rfl, hrun, hrest⟩ := exists_run standard.encodedClass text
  have hcapture := captureWhile_moved h standard.encodedClass
  have htake : (run ++ rest).takeWhile standard.encodedClass = run := takeWhile_run hrun hrest
  rw [htake] at hcapture
  rw [encodedValue, htake] at hwhole
  have hahead := h.read
  rw [Reading.encoded, bind_eq place_moved, bind_eq hcapture, bind_congr (narrowFrom_moved h _)]
  cases hfind : run.findIdx? fun c => !CharClass.hex c with
  | some index =>
    have hlength : 0 < run.length := by
      obtain ⟨hindex, -⟩ := List.findIdx?_eq_some_iff_getElem.mp hfind
      omega
    rw [hfind] at hwhole
    refine narrowIf_tracks hahead rfl (fun _ hadmits => ?_) (fun _ hadmits => ?_)
      fun hnone => by cases hnone
    · simp only [hadmits] at hwhole
      exact encoded_refused hwhole
    · simp only [hadmits, if_true] at hwhole
      rw [bind_eq place_moved]
      refine .require rfl (fun hempty => ?_) fun _ => ?_
      · simp [hlength] at hempty
      rw [bind_eq place_moved]
      refine narrowIf_tracks hahead rfl (fun _ hrefused => ?_) (fun _ _ => ?_) fun _ => ?_
      · rw [admits_toward hadmits] at hrefused
        cases hrefused
      · exact .read hahead (got_encoded hwhole)
      · exact .read hahead (got_encoded hwhole)
  | none =>
    rw [hfind] at hwhole
    refine narrowIf_tracks hahead rfl (fun hsome => by cases hsome) (fun hsome => by cases hsome)
      fun _ => ?_
    rw [bind_eq place_moved]
    refine .require rfl (fun hempty => ?_) fun hlength => ?_
    · have hnil : run.isEmpty = true := by
        rw [List.isEmpty_iff, ← List.length_eq_zero_iff]
        simpa using hempty
      simp only [hnil, if_true] at hwhole
      exact encoded_refused hwhole
    · have hne : run.isEmpty = false := by
        rw [List.isEmpty_eq_false_iff, ← List.length_pos_iff]
        simpa using hlength
      rw [bind_eq place_moved]
      simp only [hne] at hwhole
      refine narrowIf_tracks hahead rfl (fun hshort hadmits => ?_) (fun hshort hadmits => ?_)
        fun hlong => ?_
      · rw [if_neg Bool.false_ne_true, if_pos (of_decide_eq_true hshort), hadmits] at hwhole
        exact encoded_refused hwhole
      · rw [if_neg Bool.false_ne_true, if_pos (of_decide_eq_true hshort), if_pos hadmits] at hwhole
        exact .read hahead (got_encoded hwhole)
      · rw [if_neg Bool.false_ne_true, if_neg (of_decide_eq_false hlong)] at hwhole
        exact .read hahead (got_encoded hwhole)

end

def behind (standard : Compliance) (text : Text) (algorithm : Scanned Algorithm) :
    Except Failure (Scanned Digest) :=
  if (text.drop algorithm.stop.toNat).head? = some ':' then do
    let encoded ← Scan.behind (encodedValue standard algorithm.value.compliance)
      (algorithm.stop + 1) text
    return ⟨⟨algorithm.value.components, encoded.value.1, encoded.value.2⟩, encoded.stop⟩
  else .error { kind := .digestInvalidFormat, offset := algorithm.stop }

theorem digest_tracks (hahead : c.Ahead 0 c.window) :
    Tracks c (scan standard c.window) (Got c (scan standard c.window) .ok)
      (Reading.digest standard (c.moved 0)) := by
  have hbegins : Begins c (scan standard c.window) standard (behind standard c.window)
      ([], .universal) 0 c.window := ⟨[], rfl, rfl⟩
  rw [Reading.digest]
  refine Tracks.bind (Tracks.repeatStep _ (fun _ _ _ => algorithm_tracks) hahead hbegins) ?_
  intro algorithm n text hahead hpost
  obtain ⟨components, hcomponents, hwhole⟩ := hpost
  rw [behind, hahead.drop_window] at hwhole
  rw [bind_eq (peek_moved hahead), bind_eq place_moved]
  refine .require rfl (fun hmark => ?_) fun hmark => ?_
  · rw [if_neg (by simpa using hmark)] at hwhole
    exact ⟨_, hwhole⟩
  · rw [beq_iff_eq] at hmark
    obtain ⟨rest, rfl⟩ := List.head?_eq_some_iff.mp hmark
    rw [if_pos hmark, Scan.behind, hahead.next.drop_window] at hwhole
    rw [bind_eq (Reading.advance_moved hahead)]
    refine (encoded_tracks hahead.next hwhole).bind fun value n' text' hahead hpost => ?_
    obtain ⟨pair, rfl, hwhole⟩ := hpost
    refine .read hahead ⟨_, ?_, hwhole⟩
    rw [hcomponents]
    rfl

end ImageReference.Digest
