import ImageReference.Proofs.Ipv6
import ImageReference.Proofs.Reading

/-!
# Reading IPv6 addresses

One token after the other is read as the scan reads it: a run of hex digits, a
run of colons or the closing bracket. What was read so far is kept with the
places of the source on one side and those of the window on the other.
-/

namespace ImageReference.Ipv6

open Cursor Reading

variable {c : Cursor} {n : Int} {char : Char} {text rest : Text} {γ : Type}
  {whole : Except Failure (Scanned γ)} {content : Content}

instance : Shift Content := ⟨fun n content => { content with hextets := shift n content.hextets }⟩

@[simp] theorem shift_elided : (shift n content).elided = content.elided := rfl

@[simp] theorem shift_hextets_length :
    (shift n content).hextets.length = content.hextets.length := List.length_map _

def Read (c : Cursor) (whole : Except Failure (Scanned γ))
    (next : Content → Except Failure (Scanned γ)) (stop : Int) (behind : Text) (content : Content)
    (n : Int) (text : Text) : Prop :=
  n = stop ∧ text = behind ∧ ∃ scanned, content = shift c.offset scanned ∧ whole = next scanned

variable {next : Content → Except Failure (Scanned γ)}

theorem ipv6Hextet_tracks (h : c.Ahead n (char :: rest)) (hchar : CharClass.hex char = true)
    (hwhole : whole = (content.addHextet n (hexRun rest + 1) >>= next)) :
    Tracks c whole (Read c whole next (n + (hexRun rest + 1)) (rest.drop (hexRun rest)))
      (ipv6Hextet (shift c.offset content) (c.moved n)) := by
  have hlength : (((char :: rest).take (hextetDigitsMax + 1)).takeWhile CharClass.hex).length =
      hexRun rest + 1 := by
    rw [List.take_succ_cons, List.takeWhile_cons_of_pos hchar]
    rfl
  have hcapture := captureWhile_limited h CharClass.hex (hextetDigitsMax + 1)
  rw [hlength] at hcapture
  have hrun : hexRun rest + 1 ≤ (char :: rest).length :=
    Nat.succ_le_succ ((List.takeWhile_prefix _).trans (List.take_prefix _ _)).length_le
  have hspan : n + (hexRun rest + 1 : Nat) - n = (hexRun rest + 1 : Nat) := by omega
  rw [Content.addHextet] at hwhole
  rw [ipv6Hextet, bind_eq place_moved, bind_eq hcapture]
  refine .require (Int.add_assoc _ _ _) (fun hlong => ?_) fun hshort => ?_
  · rw [if_pos (by simpa using hlong)] at hwhole
    exact ⟨_, hwhole⟩
  rw [if_neg (by simpa using hshort)] at hwhole
  rw [bind_eq (spanFrom_moved _), hspan]
  refine .require rfl (fun hmany => ?_) fun hfew => ?_
  · rw [if_pos (by simpa using hmany)] at hwhole
    exact ⟨_, hwhole⟩
  · rw [if_neg (by simpa using hfew)] at hwhole
    refine .read (h.drop hrun) ⟨rfl, rfl, _, ?_, hwhole⟩
    rw [Int.add_comm]
    exact congrArg (Content.mk · content.elided true)
      (shift_append content.hextets [⟨n, (hexRun rest + 1 : Nat)⟩]).symm

theorem ipv6Colons_tracks (h : c.Ahead n (':' :: rest))
    (hwhole : whole = (content.addColons n (colonRun rest + 1) (rest.drop (colonRun rest)).head? >>=
      next)) :
    Tracks c whole (Read c whole next (n + (colonRun rest + 1)) (rest.drop (colonRun rest)))
      (ipv6Colons (shift c.offset content) (c.moved n)) := by
  have hlength : (((':' :: rest).take 3).takeWhile (· == ':')).length = colonRun rest + 1 := by
    rw [List.take_succ_cons, List.takeWhile_cons_of_pos (by rfl)]
    rfl
  have hcapture := captureWhile_limited h (· == ':') 3
  rw [hlength] at hcapture
  have hrun : colonRun rest + 1 ≤ (':' :: rest).length :=
    Nat.succ_le_succ ((List.takeWhile_prefix _).trans (List.take_prefix _ _)).length_le
  have hahead := h.drop hrun
  rw [Content.addColons] at hwhole
  rw [ipv6Colons, bind_eq place_moved, bind_eq hcapture]
  refine .require (Int.add_assoc _ _ _) (fun hthree => ?_) fun hthree => ?_
  · have hthree : colonRun rest + 1 = 3 := by simpa using hthree
    rw [if_pos hthree] at hwhole
    rw [hthree]
    exact ⟨_, hwhole⟩
  rw [if_neg (by simpa using hthree)] at hwhole
  by_cases htwo : colonRun rest + 1 = 2
  · rw [if_pos htwo] at hwhole ⊢
    refine .require rfl (fun helided => ?_) fun helided => ?_
    · have helided : content.elided = true := by simpa using helided
      rw [if_pos helided] at hwhole
      rw [htwo]
      exact ⟨_, hwhole⟩
    · have helided : ¬content.elided = true := by simpa using helided
      rw [if_neg helided] at hwhole
      exact .read hahead ⟨rfl, rfl, _, rfl, hwhole⟩
  rw [if_neg htwo] at hwhole ⊢
  refine .require rfl (fun hstarted => ?_) fun hstarted => ?_
  · replace hstarted : content.started = false := hstarted
    rw [hstarted] at hwhole
    exact ⟨_, hwhole⟩
  replace hstarted : content.started = true := hstarted
  rw [bind_eq (peek_moved hahead)]
  refine .require rfl (fun hclose => ?_) fun hclose => ?_
  · have hclose : (rest.drop (colonRun rest)).head? = some ']' := by simpa using hclose
    rw [decide_eq_true hclose, Bool.or_true] at hwhole
    exact ⟨_, hwhole⟩
  · have hclose : (rest.drop (colonRun rest)).head? ≠ some ']' := by simpa using hclose
    rw [hstarted, decide_eq_false hclose] at hwhole
    exact .read hahead ⟨rfl, rfl, _, rfl, hwhole⟩

variable {found : Scanned (List Span) → Except Failure (Scanned γ)}

def Begins (c : Cursor) (whole : Except Failure (Scanned γ))
    (found : Scanned (List Span) → Except Failure (Scanned γ)) (content : Content) (n : Int)
    (text : Text) : Prop :=
  ∃ scanned, content = shift c.offset scanned ∧ whole = (contentFrom scanned n text >>= found)

def Ends (c : Cursor) (whole : Except Failure (Scanned γ))
    (found : Scanned (List Span) → Except Failure (Scanned γ)) (content : Content) (n : Int)
    (text : Text) : Prop :=
  text.head? = some ']' ∧
    ∃ scanned, content = shift c.offset scanned ∧ whole = (scanned.close n >>= found)

theorem ipv6Item_tracks (h : c.Ahead n text) (hbegins : Begins c whole found content n text) :
    Tracks c whole (Round (Begins c whole found) (Ends c whole found) text.length)
      (ipv6Item (c.offset + 1) content (c.moved n)) := by
  obtain ⟨content, rfl, hwhole⟩ := hbegins
  rw [ipv6Item, bind_eq place_moved]
  refine .require rfl (fun hlong => ?_) fun hshort => ?_
  · have hlong : contentLengthMax + 1 < n := by
      rw [decide_eq_false_iff_not] at hlong
      omega
    rw [contentFrom.eq_def, if_pos hlong] at hwhole
    exact ⟨_, hwhole⟩
  have hshort : ¬contentLengthMax + 1 < n := by
    rw [decide_eq_true_eq] at hshort
    omega
  rw [bind_eq (peek_moved h)]
  cases text with
  | nil =>
    rw [contentFrom, if_neg hshort] at hwhole
    exact .reject rfl ⟨_, hwhole⟩
  | cons char rest =>
    split
    · next hbracket =>
      obtain rfl := Option.some.inj hbracket
      have hclose : contentFrom content n (']' :: rest) = content.close n := by
        rw [contentFrom, if_neg hshort, if_pos rfl]
      rw [hclose] at hwhole
      exact .read h ⟨rfl, content, rfl, hwhole⟩
    split
    · next hnone => cases hnone
    split
    · next hhex =>
      rw [contentFrom_hex hshort hhex, bind_assoc] at hwhole
      refine (ipv6Hextet_tracks h hhex hwhole).bind fun value n' text' hahead hpost => ?_
      obtain ⟨rfl, rfl, scanned, hvalue, hread⟩ := hpost
      exact .read hahead ⟨⟨scanned, hvalue, hread⟩,
        Nat.lt_succ_of_le (List.drop_suffix _ _).length_le⟩
    split
    · next hcolon =>
      obtain rfl := Option.some.inj hcolon
      rw [contentFrom_colons hshort, bind_assoc] at hwhole
      refine (ipv6Colons_tracks h hwhole).bind fun value n' text' hahead hpost => ?_
      obtain ⟨rfl, rfl, scanned, hvalue, hread⟩ := hpost
      exact .read hahead ⟨⟨scanned, hvalue, hread⟩,
        Nat.lt_succ_of_le (List.drop_suffix _ _).length_le⟩
    · next hbracket _ hhex hcolon =>
      have hother : CharClass.hex char = false := by simpa using hhex
      have hne : char ≠ ']' := fun he => hbracket (congrArg some he)
      have hmark : char ≠ ':' := fun he => hcolon (congrArg some he)
      rw [contentFrom_other hshort hne hother hmark] at hwhole
      exact .reject rfl ⟨_, hwhole⟩

theorem ipv6_tracks (h : c.Ahead 0 ('[' :: rest))
    (hwhole : whole = (scan ('[' :: rest) >>= found)) :
    Tracks c whole (Got c whole found) (ipv6 (c.moved 0)) := by
  rw [ipv6, bind_eq (Reading.advance_moved h), bind_eq place_moved]
  refine (Tracks.repeatStep (Begins c whole found) (fun _ _ _ => ipv6Item_tracks) h.next
    ⟨{}, rfl, hwhole⟩).bind fun content n text hahead hpost => ?_
  obtain ⟨hhead, content, rfl, hwhole⟩ := hpost
  obtain ⟨rest, rfl⟩ := List.head?_eq_some_iff.mp hhead
  rw [Content.close] at hwhole
  rw [bind_eq place_moved]
  refine .require rfl (fun hmany => ?_) fun hfew => ?_
  · rw [if_pos (by simpa using hmany)] at hwhole
    exact ⟨_, hwhole⟩
  rw [if_neg (by simpa [or_iff_not_imp_left] using hfew)] at hwhole
  refine .require rfl (fun hopen => ?_) fun hfull => ?_
  · rw [if_pos (by simpa using hopen)] at hwhole
    exact ⟨_, hwhole⟩
  rw [if_neg (by simpa [or_iff_not_imp_left] using hfull)] at hwhole
  rw [bind_eq (Reading.advance_moved hahead)]
  exact .read hahead.next ⟨content.hextets, rfl, hwhole⟩

end ImageReference.Ipv6
