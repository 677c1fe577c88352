import ImageReference.Proofs.Window

/-!
# Hosts at a cursor

A host and its port fill the window of a cursor. An opening bracket leaves no
choice but an address in brackets. Without one the text in front of the first
colon decides: digits and exactly three dots have to be an IPv4 address, and
anything else has to be a domain name.
-/

namespace ImageReference

variable {c : Cursor} {kind : HostKind} {front rest name : Text}

namespace HostKind

theorem colon_notMem (hkind : kind ≠ .ipv6) (h : front ∈ kind.language) : ':' ∉ front := by
  cases kind with
  | domainName => exact DomainName.mark_notMem (.of_mem h) (.inl rfl)
  | ipv4 =>
    have hdotted : front ∈ Ipv4.dotted 3 := h
    exact colon_notMem_ipv4 (Ipv4.dotted_chars hdotted).1
  | ipv6 => exact absurd rfl hkind

theorem labelSpans_dots {start : Int} (hkind : kind ≠ .ipv6) :
    kind.labelSpans start front = Span.split (· == '.') start front := by
  cases kind with
  | domainName | ipv4 => rfl
  | ipv6 => exact absurd rfl hkind

theorem labelSpans_shift (n : Int) :
    shift n (kind.labelSpans 0 front) = kind.labelSpans n front := by
  cases kind with
  | domainName | ipv4 =>
    rw [labelSpans, labelSpans, Span.split_shift, Int.zero_add]
  | ipv6 =>
    rw [labelSpans, labelSpans, Ipv6.hextetSpans_shift]
    congr 1
    omega

theorem ofText_colon (hhead : (name ++ rest).head? ≠ some '[') (hname : ':' ∉ name)
    (hrest : ∀ c ∈ rest.head?, c = ':') :
    (name ∈ Grammar.dottedDigits → ofText (name ++ rest) = .ipv4) ∧
      (name ∉ Grammar.dottedDigits → ofText (name ++ rest) = .domainName) := by
  rcases ofText_cases (name ++ rest) with ⟨hopen, -⟩ | ⟨-, run, tail, he, hrun, htail, hcases⟩
  · exact absurd hopen hhead
  · constructor
    · intro hdotted
      have hclass := (mem_dottedDigits_iff.mp hdotted).1
      obtain ⟨rfl, rfl⟩ := ipv4_append hclass hrest hrun htail he
      rcases hcases with ⟨-, -, hkind⟩ | ⟨hnot, -⟩
      · exact hkind
      · exact absurd ⟨hdotted, hrest⟩ hnot
    · intro hdotted
      rcases hcases with ⟨hrunDotted, hcolon, -⟩ | ⟨-, hkind⟩
      · obtain rfl := eq_of_colon (colon_notMem_ipv4 hrun) hcolon hname hrest he.symm
        exact absurd hrunDotted hdotted
      · exact hkind

end HostKind

namespace Host

theorem scanAs_error {failure : Failure} {text : Text} (h : kind.scan text = .error failure) :
    scanAs kind text = .error failure := by
  rw [scanAs, h]
  rfl

-- Digits and three dots are an address, or one of the octets fails.
theorem scanAs_ipv4_invalid (hdotted : name ∈ Grammar.dottedDigits) (hname : name ∉ Grammar.ipv4)
    (hrest : ∀ c ∈ rest.head?, c = ':') :
    ∃ failure, scanAs .ipv4 (name ++ rest) = .error failure ∧
      failure.kind = .hostInvalidIpv4 := by
  have hclass := (mem_dottedDigits_iff.mp hdotted).1
  have hdigit : ∀ c ∈ rest.head?, CharClass.digit c = false := by
    intro c hc
    rw [hrest c hc]
    decide
  cases hscan : HostKind.scan .ipv4 (name ++ rest) with
  | ok found => exact absurd (Ipv4.octets_sound hclass hdotted.2 hdigit hscan).1 hname
  | error failure =>
    have hkind := Ipv4.octets_kinds 3 0 (name ++ rest) failure hscan
    exact ⟨failure, scanAs_error hscan, List.mem_singleton.mp hkind⟩

-- The scan fails, or it stops inside the name and leaves text over that is no port.
theorem scanAs_domainName_invalid (hname : name ∉ Grammar.domainName) (hcolon : ':' ∉ name)
    (hrest : ∀ c ∈ rest.head?, c = ':') :
    ∃ failure, scanAs .domainName (name ++ rest) = .error failure ∧
      failure.kind = .hostInvalidDomainName := by
  cases hscan : HostKind.scan .domainName (name ++ rest) with
  | error failure =>
    have hkind := DomainName.scanFrom_kinds 0 .fresh 0 (name ++ rest) failure hscan
    exact ⟨failure, scanAs_error hscan, List.mem_singleton.mp hkind⟩
  | ok labels =>
    obtain ⟨front, rest', hsplit, hfront, rfl⟩ := DomainName.scan_sound hscan
    have hfrontColon : ':' ∉ front := DomainName.mark_notMem (.of_mem hfront) (.inl rfl)
    have hstuck : ¬ ∀ c ∈ rest'.head?, c = ':' := by
      intro hrest'
      rw [eq_of_colon hcolon hrest hfrontColon hrest' hsplit] at hname
      exact hname hfront
    rw [hsplit] at hscan ⊢
    exact scanAs_leftover hscan rfl hstuck

theorem scanAs_colon (hfront : front ∈ kind.language) (hrest : ∀ c ∈ rest.head?, c = ':')
    (h : rest ∉ Grammar.optional ({[':']} * Grammar.port)) :
    ∃ failure, scanAs kind (front ++ rest) = .error failure ∧
      failure.kind = if rest = [':'] then .portMissing else .portInvalidFormat := by
  obtain ⟨labels, hlabels, hstop⟩ := HostKind.scan_complete hfront hrest
  cases rest with
  | nil => exact absurd nil_mem_marked h
  | cons c tail =>
    obtain rfl := hrest c rfl
    rw [mem_marked_cons] at h
    obtain ⟨failure, hfailure, hkind⟩ := scanAs_port_error hlabels hstop h
    exact ⟨failure, hfailure, by simp [hkind]⟩

theorem scanAs_ipv6_leftover (hfront : front ∈ HostKind.language .ipv6)
    (h : rest ∉ Grammar.optional ({[':']} * Grammar.port)) :
    ∃ failure, scanAs .ipv6 (front ++ rest) = .error failure ∧
      failure.kind ∈ .ipv6InvalidChar :: Port.kinds := by
  by_cases hrest : ∀ c ∈ rest.head?, c = ':'
  · obtain ⟨failure, hfailure, hkind⟩ := scanAs_colon hfront hrest h
    refine ⟨failure, hfailure, ?_⟩
    rw [hkind]
    split <;> decide
  · obtain ⟨labels, hlabels, hstop⟩ : ∃ labels,
        HostKind.scan .ipv6 (front ++ rest) = .ok labels ∧ labels.stop = front.length :=
      Ipv6.scan_complete hfront
    obtain ⟨failure, hfailure, hkind⟩ := scanAs_leftover hlabels hstop hrest
    refine ⟨failure, hfailure, ?_⟩
    rw [hkind]
    decide

end Host

def Rejects {α : Type} (kind : RejectionKind) (result : Except Fault α) : Prop :=
  ∃ e, result = .error (.rejected e) ∧ e.kind = kind

theorem Rejects.unique {α : Type} {result : Except Fault α} {one other : RejectionKind}
    (h : Rejects one result) (h' : Rejects other result) : one = other := by
  obtain ⟨e, he, rfl⟩ := h
  obtain ⟨e', he', rfl⟩ := h'
  cases he.symm.trans he'
  rfl

namespace Cursor

namespace Within

variable (h : c.Within)
include h

theorem parseHost_settle : c.parseHost = c.settle (Host.scan c.window) := by
  rw [h.parseHost_eq, h.run_eq]

theorem parseHost_rejects {failure : Failure} (hscan : Host.scan c.window = .error failure) :
    Rejects failure.kind c.parseHost.1 := by
  rw [h.parseHost_settle, hscan]
  exact ⟨_, rfl, rfl⟩

theorem exists_parseHost :
    (∃ host, c.parseHost.1 = .ok host) ↔ ∃ found, Host.scan c.window = .ok found := by
  rw [h.parseHost_settle]
  cases hscan : Host.scan c.window with
  | ok found => simp [settle]
  | error failure => simp [settle]

theorem parseHost_complete (hsplit : c.window = front ++ rest)
    (hfront : front ∈ (HostKind.ofText c.window).language)
    (hrest : rest ∈ Grammar.optional ({[':']} * Grammar.port)) :
    ∃ host, c.parseHost.1 = .ok host := by
  have hcolon : ∀ x ∈ rest.head?, x = ':' := by
    intro x hx
    obtain ⟨tail, rfl⟩ := List.head?_eq_some_iff.mp hx
    exact head_of_mem_marked hrest
  obtain ⟨labels, hlabels, hstop⟩ := HostKind.scan_complete hfront hcolon
  obtain ⟨found, hfound⟩ := Host.scanAs_complete hlabels hstop hrest
  rw [← hsplit] at hfound
  exact h.exists_parseHost.mpr ⟨found, hfound⟩

theorem parseHost_parts {host : Host} (hhost : c.parseHost.1 = .ok host) :
    ∃ front rest, c.window = front ++ rest ∧ front ∈ (HostKind.ofText c.window).language ∧
      host.kind = HostKind.ofText c.window ∧
      host.labels = (HostKind.ofText c.window).labelSpans c.offset front ∧
      host.span = ⟨c.offset, front.length⟩ ∧
      MarkedHolds ':' (Spans Grammar.port) (c.offset + front.length) rest host.port ∧
      c.parseHost.2 = { c with offset := c.stop } := by
  obtain ⟨found, hscan⟩ := h.exists_parseHost.mp ⟨host, hhost⟩
  have hsettle := h.parseHost_settle
  rw [hscan] at hsettle
  rw [hsettle] at hhost ⊢
  obtain ⟨front, rest, port, hsplit, hfront, hport, rfl⟩ := Host.scan_parts hscan
  cases hhost
  have hport' := hport.shift c.offset fun _ _ _ => Spans.shift _
  rw [Int.add_comm] at hport'
  have hspan : (⟨0 + c.offset, front.length⟩ : Span) = ⟨c.offset, front.length⟩ := by
    rw [Int.zero_add]
  have hend : c.offset + c.window.length = c.stop := by
    rw [h.length_window]
    omega
  exact ⟨front, rest, hsplit, hfront, rfl, HostKind.labelSpans_shift _, hspan, hport',
    congrArg (Cursor.mk c.source · c.stop) hend⟩

end Within

namespace Within

variable (h : c.Within) (hkind : HostKind.ofText c.window = .ipv6)
include h hkind

theorem parseHost_literal {host : Host} (hhost : c.parseHost.1 = .ok host) :
    ∃ content rest, c.window = '[' :: (content ++ ']' :: rest) ∧
      content ∈ Grammar.fullAddress + Grammar.shortAddress ∧ host.kind = .ipv6 ∧
      host.labels = (Span.split (· == ':') (c.offset + 1) content).filter (0 < ·.length) ∧
      host.span = ⟨c.offset, content.length + 2⟩ ∧
      MarkedHolds ':' (Spans Grammar.port) (c.offset + (content.length + 2)) rest host.port ∧
      c.parseHost.2 = { c with offset := c.stop } := by
  obtain ⟨front, rest, hsplit, hfront, hhostKind, hlabels, hspan, hport, hmoved⟩ :=
    h.parseHost_parts hhost
  rw [hkind] at hfront hhostKind hlabels
  obtain ⟨content, hcontent, rfl⟩ := Ipv6.mem_literal_iff.mp hfront
  have htext : c.window = '[' :: (content ++ ']' :: rest) := by simp [hsplit]
  have hlength : ((['['] ++ content ++ [']']).length : Int) = content.length + 2 := by
    simp only [List.length_append, List.length_cons, List.length_nil]
    omega
  have hhextets : host.labels = Ipv6.hextetSpans (c.offset + 1) content := by
    simpa [HostKind.labelSpans] using hlabels
  rw [hlength] at hspan hport
  exact ⟨content, rest, htext, hcontent, hhostKind, hhextets, hspan, hport, hmoved⟩

theorem parseHost_of_literal {content : Text} (hsplit : c.window = '[' :: (content ++ ']' :: rest))
    (hcontent : content ∈ Grammar.fullAddress + Grammar.shortAddress) :
    (rest ∈ Grammar.optional ({[':']} * Grammar.port) → ∃ host, c.parseHost.1 = .ok host) ∧
      ¬ Rejects .ipv6TooLong c.parseHost.1 := by
  have hfront : ['['] ++ content ++ [']'] ∈ HostKind.language .ipv6 :=
    Ipv6.mem_literal_iff.mpr ⟨content, hcontent, rfl⟩
  have htext : c.window = ['['] ++ content ++ [']'] ++ rest := by simp [hsplit]
  have hok : rest ∈ Grammar.optional ({[':']} * Grammar.port) →
      ∃ host, c.parseHost.1 = .ok host := by
    intro hport
    exact h.parseHost_complete htext (hkind ▸ hfront) hport
  refine ⟨hok, fun hlong => ?_⟩
  by_cases hport : rest ∈ Grammar.optional ({[':']} * Grammar.port)
  · obtain ⟨host, hhost⟩ := hok hport
    obtain ⟨e, he, -⟩ := hlong
    cases hhost.symm.trans he
  · obtain ⟨failure, hfailure, hmem⟩ := Host.scanAs_ipv6_leftover hfront hport
    rw [← htext, ← hkind] at hfailure
    rw [(h.parseHost_rejects hfailure).unique hlong] at hmem
    revert hmem
    decide

end Within

/-- Behind an opening bracket there has to be an address and its closing bracket, with a port or
nothing behind them. -/
theorem parseHost_bracket (h : c.Within) (hhead : c.window.head? = some '[') :
    ((∃ host, c.parseHost.1 = .ok host) ↔
      ∃ content rest, c.window = '[' :: (content ++ ']' :: rest) ∧
        content ∈ Grammar.fullAddress + Grammar.shortAddress ∧
        rest ∈ Grammar.optional ({[':']} * Grammar.port)) ∧
    (∀ host, c.parseHost.1 = .ok host →
      ∃ content rest, c.window = '[' :: (content ++ ']' :: rest) ∧
        content ∈ Grammar.fullAddress + Grammar.shortAddress ∧ host.kind = .ipv6 ∧
        host.labels = (Span.split (· == ':') (c.offset + 1) content).filter (0 < ·.length) ∧
        host.span = ⟨c.offset, content.length + 2⟩ ∧
        MarkedHolds ':' (Spans Grammar.port) (c.offset + (content.length + 2)) rest host.port ∧
        c.parseHost.2 = { c with offset := c.stop }) ∧
    RejectsIn (Ipv6.kinds ++ Port.kinds) c.parseHost.1 ∧
    ∀ content rest, c.window = '[' :: (content ++ ']' :: rest) →
      content ∈ Grammar.fullAddress + Grammar.shortAddress →
        content.length ≤ Ipv6.contentLengthMax ∧ ¬ Rejects .ipv6TooLong c.parseHost.1 := by
  have hkind : HostKind.ofText c.window = .ipv6 := by
    rcases HostKind.ofText_cases c.window with ⟨-, hkind⟩ | ⟨hnot, -⟩
    · exact hkind
    · exact absurd hhead hnot
  refine ⟨⟨?_, ?_⟩, fun host hhost => h.parseHost_literal hkind hhost, ?_, ?_⟩
  · rintro ⟨host, hhost⟩
    obtain ⟨content, rest, hsplit, hcontent, -, -, -, hport, -⟩ := h.parseHost_literal hkind hhost
    exact ⟨content, rest, hsplit, hcontent, hport.mem⟩
  · rintro ⟨content, rest, hsplit, hcontent, hport⟩
    exact (h.parseHost_of_literal hkind hsplit hcontent).1 hport
  · have hkinds := h.parseHost_kinds
    rwa [hkind] at hkinds
  · intro content rest hsplit hcontent
    exact ⟨Ipv6.length_le_of_mem hcontent, (h.parseHost_of_literal hkind hsplit hcontent).2⟩

theorem parseHost_bracket_short :
    (ofText "[1::2]:80".toList).window.head? = some '[' ∧
      ∃ host, (ofText "[1::2]:80".toList).parseHost.1 = .ok host := by
  have hhextet : ∀ item ∈ ["1".toList, "2".toList], item ∈ Grammar.hextet := by
    rw [List.forall_mem_cons, List.forall_mem_singleton]
    exact ⟨⟨⟨by decide, List.all_eq_true.mp rfl⟩, by decide⟩,
      ⟨⟨by decide, List.all_eq_true.mp rfl⟩, by decide⟩⟩
  have hcontent : "1::2".toList ∈ Grammar.fullAddress + Grammar.shortAddress :=
    .inr ⟨["1".toList], ["2".toList], hhextet, by decide, rfl⟩
  have hport : ":80".toList ∈ Grammar.optional ({[':']} * Grammar.port) :=
    mem_marked_cons.mpr ⟨by decide, List.all_eq_true.mp rfl⟩
  refine ⟨rfl, ?_⟩
  exact (parseHost_bracket (within_ofText _) rfl).1.mpr
    ⟨"1::2".toList, ":80".toList, rfl, hcontent, hport⟩

/-- The kind of host is settled: the text in front of the first colon has to be one, and what is
left has to be its port. -/
structure Commits (c : Cursor) (kind : HostKind) (invalid : RejectionKind) (name rest : Text) :
    Prop where
  accepts : (∃ host, c.parseHost.1 = .ok host) ↔
    name ∈ kind.language ∧ rest ∈ Grammar.optional ({[':']} * Grammar.port)
  reads : ∀ host, c.parseHost.1 = .ok host →
    host.kind = kind ∧ host.labels = Span.split (· == '.') c.offset name ∧
      host.span = ⟨c.offset, name.length⟩ ∧
      MarkedHolds ':' (Spans Grammar.port) (c.offset + name.length) rest host.port ∧
      c.parseHost.2 = { c with offset := c.stop }
  name_invalid : name ∉ kind.language → Rejects invalid c.parseHost.1
  port_invalid : name ∈ kind.language → rest ∉ Grammar.optional ({[':']} * Grammar.port) →
    Rejects (if rest = [':'] then .portMissing else .portInvalidFormat) c.parseHost.1

namespace Within

variable (h : c.Within) (hsplit : c.window = name ++ rest) (hname : ':' ∉ name)
  (hrest : ∀ x ∈ rest.head?, x = ':') (hkind : HostKind.ofText c.window = kind)
  (hdots : kind ≠ .ipv6)
include h hsplit hname hrest hkind hdots

theorem parseHost_named {host : Host} (hhost : c.parseHost.1 = .ok host) :
    name ∈ kind.language ∧ host.kind = kind ∧
      host.labels = Span.split (· == '.') c.offset name ∧ host.span = ⟨c.offset, name.length⟩ ∧
      MarkedHolds ':' (Spans Grammar.port) (c.offset + name.length) rest host.port ∧
      c.parseHost.2 = { c with offset := c.stop } := by
  obtain ⟨front, rest', hsplit', hfront, hhostKind, hlabels, hspan, hport, hmoved⟩ :=
    h.parseHost_parts hhost
  rw [hkind] at hfront hhostKind hlabels
  rw [HostKind.labelSpans_dots hdots] at hlabels
  have he := hsplit'.symm.trans hsplit
  obtain rfl : front = name :=
    eq_of_colon (HostKind.colon_notMem hdots hfront) hport.head hname hrest he
  obtain rfl : rest' = rest := List.append_cancel_left he
  exact ⟨hfront, hhostKind, hlabels, hspan, hport, hmoved⟩

theorem commits {invalid : RejectionKind} (hinvalid : name ∉ kind.language →
      ∃ failure, Host.scanAs kind c.window = .error failure ∧ failure.kind = invalid) :
    c.Commits kind invalid name rest := by
  have hparts : ∀ host, c.parseHost.1 = .ok host → _ :=
    fun host hhost => h.parseHost_named hsplit hname hrest hkind hdots hhost
  refine ⟨⟨?_, ?_⟩, fun host hhost => (hparts host hhost).2, ?_, ?_⟩
  · rintro ⟨host, hhost⟩
    obtain ⟨hmem, -, -, -, hport, -⟩ := hparts host hhost
    exact ⟨hmem, hport.mem⟩
  · rintro ⟨hmem, hport⟩
    exact h.parseHost_complete hsplit (hkind ▸ hmem) hport
  · intro hnot
    obtain ⟨failure, hfailure, rfl⟩ := hinvalid hnot
    rw [← hkind] at hfailure
    exact h.parseHost_rejects hfailure
  · intro hmem hport
    obtain ⟨failure, hfailure, hfailureKind⟩ := Host.scanAs_colon hmem hrest hport
    rw [← hsplit, ← hkind] at hfailure
    rw [← hfailureKind]
    exact h.parseHost_rejects hfailure

end Within

/-- Without a bracket in front, the text in front of the first colon decides on the kind of host,
whatever stands behind that colon. -/
theorem parseHost_commits (h : c.Within) (hhead : c.window.head? ≠ some '[') :
    let name := c.window.takeWhile (· != ':')
    let rest := c.window.dropWhile (· != ':')
    (name ∈ Grammar.dottedDigits → c.Commits .ipv4 .hostInvalidIpv4 name rest) ∧
      (name ∉ Grammar.dottedDigits →
        c.Commits .domainName .hostInvalidDomainName name rest) := by
  intro name rest
  have hsplit : c.window = name ++ rest := List.takeWhile_append_dropWhile.symm
  have hname : ':' ∉ name := by
    intro hmem
    simpa using List.all_eq_true.mp List.all_takeWhile ':' hmem
  have hrest : ∀ x ∈ rest.head?, x = ':' := by
    intro x hx
    have hhead := List.head?_dropWhile_not (· != ':') c.window
    rw [Option.mem_def.mp hx] at hhead
    simpa using hhead
  clear_value name rest
  rw [hsplit] at hhead
  obtain ⟨hipv4, hdomainName⟩ := HostKind.ofText_colon hhead hname hrest
  rw [← hsplit] at hipv4 hdomainName
  constructor
  · intro hdotted
    refine h.commits hsplit hname hrest (hipv4 hdotted) (by decide) fun hnot => ?_
    rw [hsplit]
    exact Host.scanAs_ipv4_invalid hdotted hnot hrest
  · intro hdotted
    refine h.commits hsplit hname hrest (hdomainName hdotted) (by decide) fun hnot => ?_
    rw [hsplit]
    exact Host.scanAs_domainName_invalid hnot hname hrest

theorem parseHost_commits_octets :
    ∃ host, (ofText "10.0.0.1:80".toList).parseHost.1 = .ok host ∧ host.kind = .ipv4 := by
  have hhead : (ofText "10.0.0.1:80".toList).window.head? ≠ some '[' := by decide
  have hcommits := (parseHost_commits (within_ofText _) hhead).1
    (mem_dottedDigits_iff.mpr ⟨List.all_eq_true.mp rfl, rfl⟩)
  obtain ⟨host, hhost⟩ : ∃ host, (ofText "10.0.0.1:80".toList).parseHost.1 = .ok host := ⟨_, rfl⟩
  exact ⟨host, hhost, (hcommits.reads host hhost).1⟩

end Cursor

end ImageReference
