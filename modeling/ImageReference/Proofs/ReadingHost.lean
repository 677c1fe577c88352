import ImageReference.Proofs.Decimal
import ImageReference.Proofs.Ipv4
import ImageReference.Proofs.ReadingIpv6

/-!
# Reading hosts

A host is read as its scan says. The last character of a label is looked up in
the source behind it, the dots that commit to an IPv4 address are counted in a
slice of the source, and an octet is the number that is cut out of it; all of
them are the characters of the window.
-/

namespace ImageReference

open Cursor Reading

variable {c : Cursor} {n : Int} {char last : Char} {text run rest front : Text} {γ : Type}
  {whole : Except Failure (Scanned γ)}

namespace DomainName

variable {label : Int} {place : Place} {found : Scanned (List Span) → Except Failure (Scanned γ)}

def Place.behind (char : Char) : Place := if char = '-' then .hyphen else .inside

theorem scanFrom_domainLabel (hplace : place ≠ .fresh) (hchar : CharClass.domainLabel char = true) :
    scanFrom label place n (char :: rest) = scanFrom label (.behind char) (n + 1) rest := by
  have halnum : char ≠ '-' → CharClass.alnum char = true := by
    intro hne
    simpa [CharClass.domainLabel, hne] using hchar
  by_cases hhyphen : char = '-'
  · subst hhyphen
    cases place with
    | fresh => exact absurd rfl hplace
    | inside | hyphen => rfl
  · rw [Place.behind, if_neg hhyphen]
    cases place with
    | fresh => exact absurd rfl hplace
    | inside | hyphen => rw [scanFrom, if_pos (halnum hhyphen)]

theorem scanFrom_run (hplace : place ≠ .fresh)
    (hrun : ∀ c ∈ front ++ [last], CharClass.domainLabel c = true) :
    scanFrom label place n (front ++ last :: rest) =
      scanFrom label (.behind last) (n + front.length + 1) rest := by
  induction front generalizing place n with
  | nil =>
    rw [List.nil_append, scanFrom_domainLabel hplace (hrun last (by simp)), List.length_nil,
      Int.natCast_zero, Int.add_zero]
  | cons char front ih =>
    have hbehind : Place.behind char ≠ .fresh := by
      rw [Place.behind]
      split <;> exact nofun
    have hlength : n + (char :: front).length + 1 = n + 1 + front.length + 1 := by
      rw [List.length_cons]
      omega
    rw [List.cons_append, scanFrom_domainLabel hplace (hrun char List.mem_cons_self),
      ih hbehind fun c hc => hrun c (List.mem_cons_of_mem _ hc), hlength]

theorem scanFrom_fresh (hhead : text.head?.any CharClass.alnum = true) :
    scanFrom label .fresh n text = scanFrom label .inside n text := by
  obtain ⟨char, hchar, halnum⟩ := Option.any_eq_true _ _ |>.mp hhead
  obtain ⟨rest, rfl⟩ := List.head?_eq_some_iff.mp hchar
  rw [scanFrom, scanFrom, if_pos halnum, if_pos halnum]

theorem scanFrom_refused (hhead : text.head?.any CharClass.alnum = false) :
    scanFrom label .fresh n text = .error { kind := .hostInvalidDomainName, offset := n } := by
  cases text with
  | nil => rfl
  | cons char rest =>
    replace hhead : CharClass.alnum char = false := hhead
    rw [scanFrom, hhead]
    rfl

theorem scanFrom_hyphen (hhead : ∀ c ∈ text.head?, CharClass.domainLabel c = false) :
    scanFrom label .hyphen n text =
      .error { kind := .hostInvalidDomainName, offset := n - 1, halted := n } := by
  cases text with
  | nil => rfl
  | cons char rest =>
    have hchar := hhead char rfl
    rw [CharClass.domainLabel, Bool.or_eq_false_iff, beq_eq_false_iff_ne] at hchar
    rw [scanFrom, hchar.1, if_neg hchar.2]
    rfl

theorem scanFrom_dot : scanFrom label .inside n ('.' :: rest) =
    (scanFrom (n + 1) .fresh (n + 1) rest).map (Scanned.map (⟨label, n - label⟩ :: ·)) := rfl

theorem scanFrom_done (hhead : ∀ c ∈ text.head?, CharClass.domainLabel c = false)
    (hdot : text.head? ≠ some '.') :
    scanFrom label .inside n text = .ok ⟨[⟨label, n - label⟩], n⟩ := by
  cases text with
  | nil => rfl
  | cons char rest =>
    have hchar := hhead char rfl
    have hne : char ≠ '.' := fun he => hdot (congrArg some he)
    rw [CharClass.domainLabel, Bool.or_eq_false_iff, beq_eq_false_iff_ne] at hchar
    rw [scanFrom, hchar.1, if_neg hchar.2, if_neg hne]
    rfl

def Begins (c : Cursor) (whole : Except Failure (Scanned γ))
    (found : Scanned (List Span) → Except Failure (Scanned γ)) (labels : List Span) (n : Int)
    (text : Text) : Prop :=
  ∃ front, labels = shift c.offset front ∧
    whole = (scanFrom n .fresh n text >>= fun scanned => found (scanned.map (front ++ ·)))

theorem exists_label (hhead : text.head?.any CharClass.alnum = true) :
    ∃ front last rest, text = front ++ last :: rest ∧
      (∀ c ∈ front ++ [last], CharClass.domainLabel c = true) ∧
      ∀ c ∈ rest.head?, CharClass.domainLabel c = false := by
  obtain ⟨run, rest, rfl, hrun, hrest⟩ := exists_run CharClass.domainLabel text
  rcases List.eq_nil_or_concat' run with rfl | ⟨front, last, rfl⟩
  · obtain ⟨char, hchar, halnum⟩ := Option.any_eq_true _ _ |>.mp hhead
    have hlabel := CharClass.domainLabel_of_alnum halnum
    rw [hrest char hchar] at hlabel
    cases hlabel
  · exact ⟨front, last, rest, (List.append_cons _ _ _).symm, hrun, hrest⟩

theorem domainLabel_tracks {labels : List Span} (h : c.Ahead n text)
    (hbegins : Begins c whole found labels n text) :
    Tracks c whole (Round (Begins c whole found) (Got c whole found) text.length)
      (domainLabel labels (c.moved n)) := by
  obtain ⟨labels, rfl, hwhole⟩ := hbegins
  rw [domainLabel, bind_eq place_moved, bind_eq (test_moved h _)]
  refine .require rfl (fun halnum => ?_) fun halnum => ?_
  · rw [hwhole, scanFrom_refused halnum]
    exact ⟨_, rfl⟩
  rw [scanFrom_fresh halnum] at hwhole
  obtain ⟨front, last, rest, rfl, hrun, hrest⟩ := exists_label halnum
  rw [scanFrom_run (by simp) hrun] at hwhole
  have hlast : c.Ahead (n + front.length) (last :: rest) := h.read
  have hcapture := captureWhile_moved h CharClass.domainLabel
  have hstop : n + (front ++ [last]).length = n + front.length + 1 := by
    rw [List.length_append, List.length_singleton]
    omega
  rw [List.append_cons, takeWhile_run hrun hrest, hstop] at hcapture
  -- The run is not empty, so the character in front of its stop is in the window.
  have hplace : c.offset + (n + front.length + 1) - 1 = c.offset + (n + front.length) := by omega
  rw [bind_eq hcapture, bind_eq place_moved, hplace, bind_eq (charAt_moved hlast _)]
  refine .require rfl (fun hhyphen => ?_) fun hhyphen => ?_
  · obtain rfl : last = '-' := by simpa using hhyphen
    have hbehind : Place.behind '-' = .hyphen := rfl
    rw [hwhole, hbehind, scanFrom_hyphen hrest, Int.add_sub_cancel]
    exact ⟨_, rfl⟩
  have hbehind : Place.behind last = .inside := if_neg (by simpa using hhyphen)
  rw [hbehind] at hwhole
  rw [bind_eq (spanFrom_moved _), bind_eq (peek_moved hlast.next), Int.add_comm c.offset]
  split
  · next hdot =>
    obtain ⟨rest, rfl⟩ := List.head?_eq_some_iff.mp hdot
    rw [bind_eq (Reading.advance_moved hlast.next)]
    refine .read hlast.next.next ⟨⟨labels ++ [⟨n, n + front.length + 1 - n⟩], ?_, ?_⟩, ?_⟩
    · rw [shift_append]
      rfl
    · rw [hwhole, scanFrom_dot]
      cases scanFrom (n + front.length + 1 + 1) .fresh (n + front.length + 1 + 1) rest with
      | error failure => rfl
      | ok scanned => simp [Scanned.map, bind, Except.bind, Except.map]
    · simp only [List.length_append, List.length_cons]
      omega
  · next hdot =>
    refine .read hlast.next ⟨labels ++ [⟨n, n + front.length + 1 - n⟩], ?_, ?_⟩
    · rw [shift_append]
      rfl
    · rw [hwhole, scanFrom_done hrest hdot]
      rfl

end DomainName

namespace Ipv4

variable {digits : Text} {more : Nat}

theorem octet_tracks {found : Scanned Span → Except Failure (Scanned γ)}
    (h : c.Ahead n (digits ++ rest)) (hdigits : ∀ c ∈ digits, CharClass.digit c = true)
    (hrest : ∀ c ∈ rest.head?, CharClass.digit c = false)
    (hwhole : whole = (octet n (digits ++ rest) >>= found)) :
    Tracks c whole (fun value n' text' => value = shift c.offset ⟨n, digits.length⟩ ∧
      n' = n + digits.length ∧ text' = rest ∧ whole = found ⟨⟨n, digits.length⟩, n'⟩)
      (Reading.octet (c.moved n)) := by
  have hcapture := captureWhile_moved h CharClass.digit
  have htake : (digits ++ rest).takeWhile CharClass.digit = digits := takeWhile_run hdigits hrest
  rw [htake] at hcapture
  rw [octet, htake] at hwhole
  rw [Reading.octet, bind_eq place_moved, bind_eq hcapture]
  refine .require rfl (fun hempty => ?_) fun hlength => ?_
  · have hnil : digits = [] := by simpa using hempty
    rw [hnil] at hwhole ⊢
    rw [hwhole, List.length_nil, Int.natCast_zero, Int.add_zero]
    exact ⟨_, rfl⟩
  have hne : digits ≠ [] := List.ne_nil_of_length_pos (of_decide_eq_true hlength)
  rw [if_neg (by simpa using hne)] at hwhole
  refine .require (Int.add_assoc _ _ _) (fun hlong => ?_) fun hshort => ?_
  · rw [if_pos (by simpa using hlong)] at hwhole
    exact ⟨_, hwhole⟩
  rw [decide_eq_true_eq] at hshort
  have hnumber : number ⟨c.offset + n, digits.length⟩ (c.moved (n + digits.length)) =
      (.ok (Decimal.toNat digits), c.moved (n + digits.length)) := by
    have hmax : digits.length ≤ Decimal.maxDigits := Nat.le_trans hshort (by decide)
    rw [number, Span.text, Span.stop, moved_source, h.slice_eq rfl,
      Decimal.toInt?_of_digit hdigits hne hmax]
  have hspan : n + digits.length - n = digits.length := by omega
  rw [if_neg (Nat.not_lt.mpr hshort)] at hwhole
  rw [bind_eq (spanFrom_moved _), hspan, bind_eq hnumber]
  refine .require rfl (fun hlarge => ?_) fun hsmall => ?_
  · rw [decide_eq_false_iff_not, Int.ofNat_le, Nat.not_le] at hlarge
    rw [if_pos hlarge] at hwhole
    exact ⟨_, hwhole⟩
  · rw [decide_eq_true_eq, Int.ofNat_le] at hsmall
    rw [if_neg (Nat.not_lt.mpr hsmall)] at hwhole
    refine .read h.read ⟨?_, rfl, rfl, hwhole⟩
    rw [Int.add_comm]
    rfl

theorem octets_track {found : Scanned (List Span) → Except Failure (Scanned γ)}
    (h : c.Ahead n (run ++ rest)) (hrun : ∀ c ∈ run, CharClass.ipv4 c = true)
    (hdots : run.count '.' = more) (hrest : ∀ c ∈ rest.head?, CharClass.ipv4 c = false)
    (hwhole : whole = (octets more n (run ++ rest) >>= found)) :
    Tracks c whole (Got c whole found) (Reading.octets more (c.moved n)) := by
  induction more generalizing n run found with
  | zero =>
    have hdigits : ∀ c ∈ run, CharClass.digit c = true := by
      intro char hchar
      have hdot : char ≠ '.' := by
        rintro rfl
        exact List.count_eq_zero.mp hdots hchar
      simpa [CharClass.ipv4, hdot] using hrun char hchar
    have hstops : ∀ c ∈ rest.head?, CharClass.digit c = false := by
      intro char hchar
      have hclass := hrest char hchar
      rw [CharClass.ipv4, Bool.or_eq_false_iff] at hclass
      exact hclass.1
    have hfirst : whole = (octet n (run ++ rest) >>= fun first => found (first.map ([·]))) := by
      rw [hwhole, octets]
      cases octet n (run ++ rest) <;> rfl
    rw [Reading.octets]
    refine (octet_tracks h hdigits hstops hfirst).bind fun value n' text' hahead hpost => ?_
    obtain ⟨rfl, rfl, rfl, hread⟩ := hpost
    exact .read hahead ⟨[⟨n, run.length⟩], rfl, hread⟩
  | succ more ih =>
    obtain ⟨digits, tail, rfl, hdigits, htail, hcount⟩ := exists_dot hrun hdots
    rw [List.append_assoc, List.cons_append] at h hwhole
    rw [Reading.octets]
    rw [octets, bind_assoc] at hwhole
    refine (octet_tracks h hdigits (dot_stops _) hwhole).bind fun value n' text' hahead hpost => ?_
    obtain ⟨rfl, rfl, rfl, hwhole⟩ := hpost
    have hdrop : (digits ++ '.' :: (tail ++ rest)).drop (n + digits.length - n + 1).toNat =
        tail ++ rest := by
      have hplace : (n + digits.length - n + 1).toNat = digits.length + 1 := by omega
      rw [hplace, ← List.drop_drop, List.drop_left]
      rfl
    rw [hdrop, bind_assoc] at hwhole
    rw [bind_eq (Reading.advance_moved hahead)]
    refine (ih hahead.next htail hcount hwhole).bind fun value n' text' hahead hpost => ?_
    obtain ⟨rest, rfl, hwhole⟩ := hpost
    exact .read hahead ⟨⟨n, digits.length⟩ :: rest, rfl, hwhole⟩

theorem looksLikeIpv4_eq (h : c.Ahead n text) :
    looksLikeIpv4 (c.moved n) =
      (.ok (commits ((Ipv4.run text).count '.') text), c.moved n) := by
  obtain ⟨run, rest, rfl, hrun, hrest⟩ := exists_run CharClass.ipv4 text
  have htake : Ipv4.run (run ++ rest) = run := takeWhile_run hrun hrest
  have hlength : runLength CharClass.ipv4 (c.moved n) = (.ok run.length, c.moved n) := by
    rw [Reading.runLength, captureWhile_moved h, takeWhile_run hrun hrest]
  have hnext : (run ++ rest)[run.length]? = rest.head? := by
    rw [List.getElem?_append_right (Nat.le_refl _), Nat.sub_self, List.head?_eq_getElem?]
  have hpeek : peekAt run.length (c.moved n) = (.ok rest.head?, c.moved n) := by
    rw [Reading.peekAt, h.peekAt_eq run.length (by simp), hnext]
  rw [looksLikeIpv4, bind_eq hlength, commits, htake, hnext]
  by_cases hempty : run.length = 0
  · obtain rfl := List.eq_nil_of_length_eq_zero hempty
    rw [if_pos hempty]
    rfl
  have hne : run.isEmpty = false := by
    rw [List.isEmpty_eq_false_iff]
    rintro rfl
    exact hempty rfl
  have hcount : count '.' (c.offset + n) (c.offset + n + run.length) (c.moved n) =
      (.ok (run.count '.'), c.moved n) := by
    rw [count, moved_source, h.slice_eq rfl]
  rw [if_neg hempty, bind_eq hpeek, hne]
  cases rest with
  | nil =>
    change (place >>= _) (c.moved n) = _
    rw [bind_eq place_moved, bind_eq hcount]
    rfl
  | cons char rest =>
    cases hcolon : char == ':' with
    | true =>
      obtain rfl := beq_iff_eq.mp hcolon
      change (place >>= _) (c.moved n) = _
      rw [bind_eq place_moved, bind_eq hcount]
      rfl
    | false => simp [bne, hcolon, pure_apply]

end Ipv4

theorem Port.port_tracks {found : Scanned (Option Span) → Except Failure (Scanned γ)}
    (h : c.Ahead n text) (hwhole : whole = (shift n (scan text) >>= found)) :
    Tracks c whole (Got c whole found) (port (c.moved n)) := by
  rw [port, bind_eq (peek_moved h)]
  split
  · next hcolon =>
    obtain ⟨rest, rfl⟩ := List.head?_eq_some_iff.mp hcolon
    obtain ⟨digits, rest, rfl, hdigits, hrest⟩ := exists_run CharClass.digit rest
    have hcapture := captureWhile_moved h.next CharClass.digit
    have hahead := h.next.read
    rw [takeWhile_run hdigits hrest] at hcapture
    simp only [scan, takeWhile_run hdigits hrest] at hwhole
    rw [bind_eq (Reading.advance_moved h), bind_eq place_moved, bind_eq hcapture,
      bind_eq (atEnd_moved hahead)]
    by_cases hlength : 0 < digits.length
    · rw [if_pos hlength] at hwhole
      refine .require rfl (fun hempty => ?_) fun _ => ?_
      · simp [hlength] at hempty
      have hspan : n + 1 + digits.length - (n + 1) = digits.length := by omega
      have hstop : 1 + digits.length + n = n + 1 + digits.length := by omega
      rw [bind_eq (spanFrom_moved _), hspan, Int.add_comm c.offset]
      refine .read hahead ⟨some ⟨n + 1, digits.length⟩, rfl, ?_⟩
      rw [hwhole, ← hstop, Int.add_comm n 1]
      rfl
    · obtain rfl : digits = [] := by simpa using hlength
      rw [if_neg hlength] at hwhole
      refine .require rfl (fun _ => ?_) fun hfull => absurd hfull (by simp)
      rw [hwhole, List.length_nil, Int.natCast_zero, Int.add_zero, Int.add_comm n 1]
      cases rest with
      | nil => exact ⟨_, rfl⟩
      | cons char rest => exact ⟨_, rfl⟩
  · next hcolon =>
    have hnone : scan text = .ok ⟨none, 0⟩ := by
      unfold scan
      split
      · exact absurd rfl hcolon
      · rfl
    rw [hnone] at hwhole
    refine .read h ⟨none, rfl, ?_⟩
    rw [hwhole]
    exact congrArg (fun stop => found ⟨none, stop⟩) (Int.zero_add n)

theorem labels_tracks {found : Scanned (List Span) → Except Failure (Scanned γ)}
    (h : c.Ahead 0 text) (hwhole : whole = ((HostKind.ofText text).scan text >>= found)) :
    Tracks c whole (fun value n' text' => value.1 = HostKind.ofText text ∧
      Got c whole found value.2 n' text') (labels (c.moved 0)) := by
  rw [labels, bind_eq (peek_moved h)]
  split
  · next hbracket =>
    have hkind : HostKind.ofText text = .ipv6 := if_pos hbracket
    obtain ⟨rest, rfl⟩ := List.head?_eq_some_iff.mp hbracket
    rw [hkind] at hwhole ⊢
    refine (Ipv6.ipv6_tracks h hwhole).bind fun value n text hahead hpost => ?_
    exact .read hahead ⟨rfl, hpost⟩
  next hbracket =>
  rw [bind_eq (Ipv4.looksLikeIpv4_eq h)]
  split
  · next hcommits =>
    have hkind : HostKind.ofText text = .ipv4 := by
      rw [HostKind.ofText, HostKind.leading, if_neg hbracket, if_pos hcommits]
    rw [hkind] at hwhole ⊢
    obtain ⟨run, rest, rfl, hrun, hrest⟩ := exists_run CharClass.ipv4 text
    have hdots : run.count '.' = 3 := by
      rw [Ipv4.commits, Bool.and_eq_true, beq_iff_eq, Ipv4.run, takeWhile_run hrun hrest]
        at hcommits
      exact hcommits.2
    refine (Ipv4.octets_track h hrun hdots hrest hwhole).bind fun value n text hahead hpost => ?_
    exact .read hahead ⟨rfl, hpost⟩
  · next hcommits =>
    have hkind : HostKind.ofText text = .domainName := by
      rw [HostKind.ofText, HostKind.leading, if_neg hbracket, if_neg hcommits]
    rw [hkind] at hwhole ⊢
    have hbegins : DomainName.Begins c whole found [] 0 text := by
      exact ⟨[], rfl, hwhole⟩
    refine (Tracks.repeatStep _ (fun _ _ _ => DomainName.domainLabel_tracks) h hbegins).bind
      fun value n text hahead hpost => ?_
    exact .read hahead ⟨rfl, hpost⟩

def Host.behind (kind : HostKind) (text : Text) (labels : Scanned (List Span)) :
    Except Failure (Scanned Host) := do
  let port ← Scan.behind Port.scan labels.stop text
  if port.stop < text.length then
    .error { kind := kind.leftover port.value, offset := port.stop }
  else
    return ⟨⟨kind, ⟨0, labels.stop⟩, labels.value, port.value⟩, port.stop⟩

theorem Host.host_tracks (hahead : c.Ahead 0 c.window) :
    Tracks c (scan c.window) (Got c (scan c.window) .ok) (Reading.host (c.moved 0)) := by
  have hwhole : scan c.window = ((HostKind.ofText c.window).scan c.window >>=
      behind (HostKind.ofText c.window) c.window) := rfl
  rw [host, bind_eq place_moved]
  refine (labels_tracks hahead hwhole).bind fun value n text hahead hpost => ?_
  obtain ⟨kind, labels⟩ := value
  obtain ⟨hkind, labels, rfl, hbehind⟩ := hpost
  rw [behind, Scan.behind, hahead.drop_window] at hbehind
  obtain rfl : kind = HostKind.ofText c.window := hkind
  dsimp only
  rw [bind_eq (spanFrom_moved _)]
  refine (Port.port_tracks hahead hbehind).bind fun value n' text' hahead hpost => ?_
  obtain ⟨port, rfl, hport⟩ := hpost
  have hmore : n' < c.window.length ↔ text'.isEmpty = false := by
    obtain ⟨-, front, hwindow, rfl⟩ := hahead
    rw [hwindow, List.length_append, List.isEmpty_eq_false_iff, ← List.length_pos_iff]
    omega
  have hleftover : ∀ kind : HostKind, kind.leftover (shift c.offset port) = kind.leftover port := by
    intro kind
    cases port <;> rfl
  rw [bind_eq (atEnd_moved hahead), bind_eq place_moved, hleftover]
  refine .require rfl (fun hleft => ?_) fun hend => ?_
  · exact ⟨_, hport.trans (if_pos (hmore.mpr hleft))⟩
  · have hstop : ¬n' < c.window.length := by
      rw [hmore, hend]
      exact Bool.false_ne_true.symm
    refine .read hahead ⟨_, ?_, hport.trans (if_neg hstop)⟩
    rw [Int.add_comm, Int.sub_zero]
    rfl

end ImageReference
