import ImageReference.Host
import ImageReference.Proofs.DomainName
import ImageReference.Proofs.Ipv4
import ImageReference.Proofs.Ipv6
import ImageReference.Proofs.Span

/-!
# Scanning hosts

The kind of a host is decided before anything is read. No two kinds are in each
other's way: an address in brackets starts with its bracket, and the digits and
dots that commit to an IPv4 address are all that stands in front of a colon or
the end, so that a domain name there would have been dotted digits as well.
-/

namespace ImageReference

variable {text front rest run tail : Text}

def HostKind.language : HostKind → Language Char
  | .domainName => Grammar.domainName
  | .ipv4 => Grammar.ipv4
  | .ipv6 => Grammar.ipv6

theorem mem_dottedDigits_iff : text ∈ Grammar.dottedDigits ↔
    (∀ c ∈ text, CharClass.ipv4 c = true) ∧ text.count '.' = 3 := by
  have hclass : ∀ c, CharClass.ipv4 c = true ↔ CharClass.digit c = true ∨ c = '.' := by
    simp [CharClass.ipv4]
  simp only [hclass]
  exact Iff.rfl

theorem colon_notMem_ipv4 (h : ∀ c ∈ run, CharClass.ipv4 c = true) : ':' ∉ run := by
  intro hmem
  have hcolon := h ':' hmem
  revert hcolon
  decide

theorem eq_of_colon (hrun : ':' ∉ run) (htail : ∀ c ∈ tail.head?, c = ':') (hfront : ':' ∉ front)
    (hrest : ∀ c ∈ rest.head?, c = ':') (he : run ++ tail = front ++ rest) : run = front := by
  have hclear : ∀ {text : Text}, ':' ∉ text → ∀ c ∈ text, (c != ':') = true := by
    intro text htext c hc
    rw [bne_iff_ne]
    intro heq
    exact htext (heq ▸ hc)
  have hstop : ∀ {text : Text}, (∀ c ∈ text.head?, c = ':') →
      ∀ c ∈ text.head?, (c != ':') = false := by
    intro text htext c hc
    rw [htext c hc]
    decide
  rw [← takeWhile_run (hclear hrun) (hstop htail), he, takeWhile_run (hclear hfront) (hstop hrest)]

namespace HostKind

theorem leading_run (hrun : ∀ c ∈ run, CharClass.ipv4 c = true)
    (htail : ∀ c ∈ tail.head?, CharClass.ipv4 c = false) :
    Ipv4.commits (run.count '.') (run ++ tail) = true ↔
      run ∈ Grammar.dottedDigits ∧ ∀ c ∈ tail.head?, c = ':' := by
  have hnext : (run ++ tail)[run.length]? = tail.head? := by
    rw [List.getElem?_append_right (Nat.le_refl _), Nat.sub_self, List.head?_eq_getElem?]
  have hrun' : Ipv4.run (run ++ tail) = run := takeWhile_run hrun htail
  simp only [Ipv4.commits, hrun', hnext, Bool.and_eq_true, beq_iff_eq]
  constructor
  · intro h
    obtain ⟨⟨-, hcolon⟩, hcount⟩ := h
    exact ⟨mem_dottedDigits_iff.mpr ⟨hrun, hcount⟩, by simpa [Option.all_eq_true] using hcolon⟩
  · intro h
    obtain ⟨⟨-, hcount⟩, hcolon⟩ := h
    have hne : run ≠ [] := by
      intro he
      simp [he] at hcount
    exact ⟨⟨by simpa using hne, by simpa [Option.all_eq_true] using hcolon⟩, hcount⟩

theorem ofText_cases (text : Text) :
    (text.head? = some '[' ∧ ofText text = .ipv6) ∨
      (text.head? ≠ some '[' ∧ ∃ run tail, text = run ++ tail ∧
        (∀ c ∈ run, CharClass.ipv4 c = true) ∧ (∀ c ∈ tail.head?, CharClass.ipv4 c = false) ∧
        ((run ∈ Grammar.dottedDigits ∧ (∀ c ∈ tail.head?, c = ':') ∧ ofText text = .ipv4) ∨
          (¬ (run ∈ Grammar.dottedDigits ∧ ∀ c ∈ tail.head?, c = ':') ∧
            ofText text = .domainName))) := by
  by_cases hhead : text.head? = some '['
  · exact .inl ⟨hhead, by simp [ofText, leading, hhead]⟩
  · obtain ⟨run, tail, rfl, hrun, htail⟩ := exists_run CharClass.ipv4 text
    refine .inr ⟨hhead, run, tail, rfl, hrun, htail, ?_⟩
    have hrun' : Ipv4.run (run ++ tail) = run := takeWhile_run hrun htail
    have hcommits := leading_run hrun htail
    by_cases hdotted : run ∈ Grammar.dottedDigits ∧ ∀ c ∈ tail.head?, c = ':'
    · refine .inl ⟨hdotted.1, hdotted.2, ?_⟩
      rw [ofText, leading, if_neg hhead, hrun', if_pos (hcommits.mpr hdotted)]
    · refine .inr ⟨hdotted, ?_⟩
      rw [ofText, leading, if_neg hhead, hrun', if_neg (fun h => hdotted (hcommits.mp h))]

variable {labels : Scanned (List Span)}

theorem ipv4_append (hclass : ∀ c ∈ front, CharClass.ipv4 c = true)
    (hrest : ∀ c ∈ rest.head?, c = ':')
    (hrun : ∀ c ∈ run, CharClass.ipv4 c = true) (htail : ∀ c ∈ tail.head?, CharClass.ipv4 c = false)
    (he : front ++ rest = run ++ tail) : front = run ∧ rest = tail := by
  have hstop : ∀ c ∈ rest.head?, CharClass.ipv4 c = false := by
    intro c hc
    rw [hrest c hc]
    decide
  obtain rfl : front = run := by
    rw [← takeWhile_run hclass hstop, he, takeWhile_run hrun htail]
  exact ⟨rfl, List.append_cancel_left he⟩

theorem host_of_mem_language (hfront : front ∈ (ofText (front ++ rest)).language)
    (hrest : ∀ c ∈ rest.head?, c = ':') : front ∈ Grammar.host := by
  rcases ofText_cases (front ++ rest) with ⟨-, hkind⟩ | ⟨-, run, tail, he, hrun, htail, h⟩
  · rw [hkind] at hfront
    exact .inl (.inl hfront)
  · rcases h with ⟨-, -, hkind⟩ | ⟨hdotted, hkind⟩
    · rw [hkind] at hfront
      exact .inl (.inr hfront)
    · rw [hkind] at hfront
      refine .inr ⟨hfront, fun hdigits => hdotted ?_⟩
      have hclass := (mem_dottedDigits_iff.mp hdigits).1
      obtain ⟨rfl, rfl⟩ := ipv4_append hclass hrest hrun htail he
      exact ⟨hdigits, hrest⟩

/-- The spans of the labels of a host that starts at a place. -/
def labelSpans (start : Int) (text : Text) : HostKind → List Span
  | .domainName | .ipv4 => Span.split (· == '.') start text
  | .ipv6 => Ipv6.hextetSpans (start + 1) text.tail.dropLast

theorem scan_sound (h : (ofText text).scan text = .ok labels) :
    ∃ front rest, text = front ++ rest ∧ front ∈ (ofText text).language ∧
      labels = ⟨(ofText text).labelSpans 0 front, front.length⟩ := by
  rcases ofText_cases text with ⟨hhead, hkind⟩ | ⟨-, run, tail, rfl, hrun, htail, hcases⟩
  · rw [hkind] at h ⊢
    obtain ⟨content, rest, rfl, hcontent, rfl⟩ := Ipv6.scan_sound hhead h
    exact ⟨_, rest, rfl, Ipv6.mem_literal_iff.mpr ⟨_, hcontent, rfl⟩, by simp [labelSpans]⟩
  · rcases hcases with ⟨hdotted, -, hkind⟩ | ⟨-, hkind⟩
    · rw [hkind] at h ⊢
      have hdigit : ∀ c ∈ tail.head?, CharClass.digit c = false := by
        intro c hc
        have hclass := htail c hc
        simp only [CharClass.ipv4, Bool.or_eq_false_iff] at hclass
        exact hclass.1
      obtain ⟨hmem, rfl⟩ := Ipv4.octets_sound hrun hdotted.2 hdigit h
      exact ⟨run, tail, rfl, hmem, by rw [Int.zero_add]; rfl⟩
    · rw [hkind] at h ⊢
      exact DomainName.scan_sound h

theorem ofText_of_mem (hfront : front ∈ Grammar.host) (hrest : ∀ c ∈ rest.head?, c = ':') :
    front ∈ (ofText (front ++ rest)).language := by
  rcases hfront with (hipv6 | hipv4) | ⟨hname, hdotted⟩
  · have hhead : (front ++ rest).head? = some '[' := by
      obtain ⟨opened, hopened, close, rfl, rfl⟩ := Language.mem_mul.mp hipv6
      obtain ⟨bracket, rfl, content, -, rfl⟩ := Language.mem_mul.mp hopened
      rfl
    rcases ofText_cases (front ++ rest) with ⟨-, hkind⟩ | ⟨hnot, -⟩
    · rw [hkind]
      exact hipv6
    · exact absurd hhead hnot
  · have hdotted : front ∈ Ipv4.dotted 3 := hipv4
    obtain ⟨hclass, hcount, hne⟩ := Ipv4.dotted_chars hdotted
    rcases ofText_cases (front ++ rest) with ⟨hhead, -⟩ | ⟨-, run, tail, he, hrun, htail, hcases⟩
    · cases front with
      | nil => exact absurd rfl hne
      | cons c front =>
        obtain rfl : c = '[' := by simpa using hhead
        exact absurd (hclass '[' (by simp)) (by decide)
    · obtain ⟨rfl, rfl⟩ := ipv4_append hclass hrest hrun htail he
      rcases hcases with ⟨-, -, hkind⟩ | ⟨hnot, -⟩
      · rw [hkind]
        exact hipv4
      · exact absurd ⟨mem_dottedDigits_iff.mpr ⟨hclass, hcount⟩, hrest⟩ hnot
  · have hviable : Viable Grammar.domainName front := .of_mem hname
    rcases ofText_cases (front ++ rest) with ⟨hhead, -⟩ | ⟨-, run, tail, he, hrun, htail, hcases⟩
    · cases front with
      | nil =>
        exact absurd (hrest '[' hhead) (by decide)
      | cons c front =>
        obtain rfl : c = '[' := by simpa using hhead
        exact absurd (by simp) (DomainName.mark_notMem hviable (.inr rfl))
    · rcases hcases with ⟨hrunDotted, hcolon, -⟩ | ⟨-, hkind⟩
      · obtain rfl := eq_of_colon (DomainName.mark_notMem hviable (.inl rfl)) hrest
          (colon_notMem_ipv4 hrun) hcolon he
        exact absurd hrunDotted hdotted
      · rw [hkind]
        exact hname

theorem scan_complete {kind : HostKind} (hfront : front ∈ kind.language)
    (hrest : ∀ c ∈ rest.head?, c = ':') :
    ∃ labels, kind.scan (front ++ rest) = .ok labels ∧ labels.stop = front.length := by
  cases kind with
  | domainName =>
    have hcut : Cut Grammar.domainName front rest := by
      refine ⟨.of_mem hfront, fun c hc hviable => ?_⟩
      exact DomainName.mark_notMem hviable (.inl (hrest c hc)) (by simp)
    exact DomainName.scan_complete hfront hcut
  | ipv4 =>
    have hdigit : ∀ c ∈ rest.head?, CharClass.digit c = false := by
      intro c hc
      rw [hrest c hc]
      decide
    have hdotted : front ∈ Ipv4.dotted 3 := hfront
    obtain ⟨labels, hlabels, hstop⟩ := Ipv4.octets_complete 0 hdotted hdigit
    exact ⟨labels, hlabels, by simpa using hstop⟩
  | ipv6 => exact Ipv6.scan_complete hfront

end HostKind

namespace Port

theorem scan_sound {port : Scanned (Option Span)} (h : scan text = .ok port)
    (hstop : ¬ port.stop < text.length) :
    port.stop = text.length ∧ MarkedHolds ':' (Spans Grammar.port) 0 text port.value := by
  unfold scan at h
  split at h
  · next tail =>
    obtain ⟨run, more, rfl, hrun, hmore⟩ := exists_run CharClass.digit tail
    rw [takeWhile_run hrun hmore] at h
    dsimp only at h
    split at h
    · next hpositive =>
      cases h
      simp only [List.length_cons, List.length_append] at hstop ⊢
      obtain rfl : more = [] := List.eq_nil_of_length_eq_zero (by omega)
      rw [List.append_nil]
      refine ⟨?_, run, rfl, ⟨hpositive, hrun⟩, rfl⟩
      rw [List.length_nil]
      omega
    · split at h <;> cases h
  · cases h
    have hempty : ¬ (0 : Int) < text.length := hstop
    obtain rfl : text = [] := List.eq_nil_of_length_eq_zero (by omega)
    exact ⟨rfl, rfl⟩

theorem scan_complete (h : text ∈ Grammar.optional ({[':']} * Grammar.port)) :
    ∃ port, scan text = .ok port ∧ port.stop = text.length := by
  cases text with
  | nil => exact ⟨_, rfl, rfl⟩
  | cons c tail =>
    obtain rfl := head_of_mem_marked h
    obtain ⟨hpositive, htail⟩ := mem_marked_cons.mp h
    have hrun : (tail ++ []).takeWhile CharClass.digit = tail := takeWhile_run htail (by simp)
    rw [List.append_nil] at hrun
    rw [scan, hrun, if_pos (by omega)]
    refine ⟨_, rfl, ?_⟩
    simp only [List.length_cons]
    omega

theorem scan_ends (h : rest ∉ Grammar.port) :
    (∃ failure, scan (':' :: rest) = .error failure ∧
      failure.kind = if rest = [] then .portMissing else .portInvalidFormat) ∨
    ∃ port, scan (':' :: rest) = .ok port ∧ port.value.isSome = true ∧
      port.stop < (':' :: rest).length ∧ rest ≠ [] := by
  obtain ⟨run, more, rfl, hrun, hmore⟩ := exists_run CharClass.digit rest
  rw [scan, takeWhile_run hrun hmore]
  split
  · next hpositive =>
    refine .inr ⟨_, rfl, rfl, ?_, ?_⟩
    · have hne : more ≠ [] := by
        rintro rfl
        rw [List.append_nil] at h
        exact h ⟨hpositive, hrun⟩
      have hlength := List.length_pos_iff.mpr hne
      simp only [List.length_cons, List.length_append]
      omega
    · exact List.ne_nil_of_length_pos (by rw [List.length_append]; omega)
  · refine .inl ?_
    split
    · next hempty => exact ⟨_, rfl, (if_pos (by simpa using hempty)).symm⟩
    · next hempty => exact ⟨_, rfl, (if_neg (by simpa using hempty)).symm⟩

end Port

namespace Host

def Covers (start : Int) (front : Text) (host : Host) : Prop :=
  ∃ h tail : Text, front = h ++ tail ∧ Spans Grammar.host start h host.span ∧
    MarkedHolds ':' (Spans Grammar.port) (start + h.length) tail host.port

theorem nil_notMem_host : [] ∉ Grammar.host := by
  intro h
  rcases h with (hipv6 | hipv4) | ⟨hname, -⟩
  · obtain ⟨opened, hopened, close, rfl, he⟩ := Language.mem_mul.mp hipv6
    cases (List.append_eq_nil_iff.mp he).2
  · have hdotted : [] ∈ Ipv4.dotted 3 := hipv4
    exact (Ipv4.dotted_chars hdotted).2.2 rfl
  · have hempty : [] ∈ Grammar.domainName := hname
    rw [← DomainName.accepts_fresh, Reader.mem_accepts Reader.walk_nil] at hempty
    cases hempty

theorem Covers.domainSpan {start : Int} {front : Text} {host : Host} (h : Covers start front host) :
    Spans Grammar.domain start front host.domainSpan := by
  obtain ⟨h, tail, rfl, ⟨hhost, hspan⟩, hport⟩ := h
  cases hvalue : host.port with
  | none =>
    rw [hvalue] at hport
    obtain rfl : tail = [] := hport
    rw [Host.domainSpan, hvalue]
    exact ⟨Language.append_mem_mul hhost nil_mem_marked, by simpa using hspan⟩
  | some port =>
    rw [hvalue] at hport
    obtain ⟨digits, rfl, hdigits, rfl⟩ := hport
    rw [Host.domainSpan, hvalue]
    refine ⟨Language.append_mem_mul hhost (mem_marked_cons.mpr hdigits), ?_⟩
    simp only [Span.join, hspan, Span.stop, List.length_append, List.length_cons, Span.mk.injEq,
      true_and]
    omega

theorem scan_parts {found : Scanned Host} (h : scan text = .ok found) :
    ∃ front rest port, text = front ++ rest ∧ front ∈ (HostKind.ofText text).language ∧
      MarkedHolds ':' (Spans Grammar.port) front.length rest port ∧
      found = ⟨⟨HostKind.ofText text, ⟨0, front.length⟩,
        (HostKind.ofText text).labelSpans 0 front, port⟩, text.length⟩ := by
  obtain ⟨labels, hlabels, h⟩ := bind_eq_ok h
  obtain ⟨port, hport, h⟩ := bind_eq_ok h
  split at h
  · cases h
  · next hlast =>
    cases h
    obtain ⟨front, rest, hsplit, hfront, rfl⟩ := HostKind.scan_sound hlabels
    have hdrop : text.drop (front.length : Int).toNat = rest := by
      rw [hsplit, Int.toNat_natCast, List.drop_left]
    obtain ⟨inner, hinner, rfl⟩ := Scan.behind_eq_ok hport
    rw [hdrop] at hinner
    have hlength : text.length = front.length + rest.length := by rw [hsplit, List.length_append]
    change ¬ inner.stop + front.length < text.length at hlast
    obtain ⟨hend, hholds⟩ := Port.scan_sound hinner (by omega)
    have hport' := hholds.shift front.length fun _ _ _ => Spans.shift _
    rw [Int.zero_add] at hport'
    have hwhole : inner.stop + front.length = text.length := by omega
    exact ⟨front, rest, _, hsplit, hfront, hport', congrArg (Scanned.mk _) hwhole⟩

theorem scan_sound {found : Scanned Host} (h : scan text = .ok found) :
    found.stop = text.length ∧ Covers 0 text found.value := by
  obtain ⟨front, rest, port, hsplit, hfront, hport, rfl⟩ := scan_parts h
  rw [hsplit] at hfront
  have hhost := HostKind.host_of_mem_language hfront hport.head
  exact ⟨rfl, front, rest, hsplit, ⟨hhost, rfl⟩, by rwa [Int.zero_add]⟩

section Behind

variable {kind : HostKind} {labels : Scanned (List Span)} (hlabels : kind.scan (front ++ rest) =
  .ok labels) (hstop : labels.stop = front.length)
include hlabels hstop

theorem scanAs_eq : scanAs kind (front ++ rest) =
    shift (front.length : Int) (Port.scan rest) >>= fun port =>
      if port.stop < (front ++ rest).length then
        .error { kind := kind.leftover port.value, offset := port.stop }
      else .ok ⟨⟨kind, ⟨0, front.length⟩, labels.value, port.value⟩, port.stop⟩ := by
  rw [scanAs, hlabels]
  change (Scan.behind Port.scan labels.stop (front ++ rest) >>= _) = _
  rw [hstop, Scan.behind, Int.toNat_natCast, List.drop_left]
  rfl

theorem scanAs_complete (h : rest ∈ Grammar.optional ({[':']} * Grammar.port)) :
    ∃ found, scanAs kind (front ++ rest) = .ok found := by
  obtain ⟨port, hport, hlast⟩ := Port.scan_complete h
  have hfull : ¬ port.stop + front.length < (front ++ rest).length := by
    rw [List.length_append]
    omega
  rw [scanAs_eq hlabels hstop, hport]
  exact ⟨_, if_neg hfull⟩

theorem scanAs_leftover (h : ¬ ∀ c ∈ rest.head?, c = ':') :
    ∃ failure, scanAs kind (front ++ rest) = .error failure ∧
      failure.kind = kind.leftover none := by
  have hport : Port.scan rest = .ok ⟨none, 0⟩ := by
    unfold Port.scan
    split
    · exact absurd (by simp) h
    · rfl
  have hne : rest ≠ [] := by
    rintro rfl
    exact h (by simp)
  have hlength := List.length_pos_iff.mpr hne
  have hmore : (0 : Int) + front.length < (front ++ rest).length := by
    rw [List.length_append]
    omega
  rw [scanAs_eq hlabels hstop, hport]
  exact ⟨_, if_pos hmore, rfl⟩

end Behind

theorem scanAs_port_error {kind : HostKind} {labels : Scanned (List Span)}
    (hlabels : kind.scan (front ++ ':' :: rest) = .ok labels) (hstop : labels.stop = front.length)
    (h : rest ∉ Grammar.port) :
    ∃ failure, scanAs kind (front ++ ':' :: rest) = .error failure ∧
      failure.kind = if rest = [] then .portMissing else .portInvalidFormat := by
  rw [scanAs_eq hlabels hstop]
  rcases Port.scan_ends h with ⟨failure, hport, hkind⟩ | ⟨port, hport, hsome, hmore, hne⟩
  · rw [hport]
    exact ⟨_, rfl, hkind⟩
  · have hover : port.stop + front.length < (front ++ ':' :: rest).length := by
      rw [List.length_append]
      omega
    rw [hport]
    refine ⟨_, if_pos hover, ?_⟩
    rw [if_neg hne]
    exact if_pos (Option.isSome_map.trans hsome)

theorem scan_complete (h : text ∈ Grammar.domain) : ∃ found, scan text = .ok found := by
  obtain ⟨front, hfront, rest, hrest, rfl⟩ := Language.mem_mul.mp h
  have hcolon : ∀ c ∈ rest.head?, c = ':' := by
    intro c hc
    obtain ⟨tail, rfl⟩ := List.head?_eq_some_iff.mp hc
    exact head_of_mem_marked hrest
  obtain ⟨labels, hlabels, hstop⟩ := HostKind.scan_complete
    (HostKind.ofText_of_mem hfront hcolon) hcolon
  exact scanAs_complete hlabels hstop hrest

end Host

end ImageReference
