import ImageReference.Proofs.Reference

/-!
# Kinds of failures

Each scan fails with the kinds of its production. A scan that runs others has
their kinds and the ones that it adds. That a name is too long, or a digest not
registered, is found by no scan.
-/

namespace ImageReference

def FailsIn {α : Type} (kinds : List RejectionKind) (result : Except Failure α) : Prop :=
  ∀ failure, result = .error failure → failure.kind ∈ kinds

namespace FailsIn

variable {α β : Type} {kinds more : List RejectionKind} {result : Except Failure α}

@[simp] theorem of_ok (value : α) : FailsIn kinds (.ok value) := by
  intro failure h
  cases h

@[simp] theorem error_iff {failure : Failure} :
    FailsIn kinds (.error failure : Except Failure α) ↔ failure.kind ∈ kinds := by
  refine ⟨fun h => h failure rfl, fun h other hother => ?_⟩
  cases hother
  exact h

theorem mono (h : FailsIn kinds result) (hsub : kinds ⊆ more) : FailsIn more result :=
  fun failure hfailure => hsub (h failure hfailure)

theorem map (f : α → β) (h : FailsIn kinds result) : FailsIn kinds (result.map f) := by
  cases result with
  | ok value => exact of_ok (f value)
  | error failure => exact error_iff.mpr (h failure rfl)

theorem bind {next : α → Except Failure β} (h : FailsIn kinds result)
    (hnext : ∀ value, FailsIn kinds (next value)) : FailsIn kinds (result >>= next) := by
  cases result with
  | ok value => exact hnext value
  | error failure => exact error_iff.mpr (h failure rfl)

theorem behind [Shift α] {scan : Scan α} (place : Int) (text : Text)
    (h : ∀ text, FailsIn kinds (scan text)) : FailsIn kinds (scan.behind place text) := by
  have hrest := h (text.drop place.toNat)
  rw [Scan.behind]
  cases hscan : scan (text.drop place.toNat) with
  | ok found => exact of_ok _
  | error failure => exact error_iff.mpr (hrest failure hscan)

theorem marked [Shift α] {scan : Scan α} (mark : Char) (place : Int) (text : Text)
    (h : ∀ text, FailsIn kinds (scan text)) :
    FailsIn kinds (Scan.marked mark scan place text) := by
  rw [Scan.marked]
  split
  · exact (behind _ text h).map _
  · exact of_ok _

theorem of_outcome {L : Language Char} {spoils : CharClass} {Holds : Int → Text → α → Prop}
    {Reports : Text → Option Char → RejectionKind → Prop} {start : Int} {text : Text}
    {result : Except Failure (Scanned α)}
    (h : Outcome L spoils Holds Reports start text result)
    (hkinds : ∀ front next kind, Reports front next kind → kind ∈ kinds) :
    FailsIn kinds result := by
  cases h with
  | ok => exact of_ok _
  | error split halt offset reports => exact error_iff.mpr (hkinds _ _ _ reports)

end FailsIn

def Port.kinds : List RejectionKind := [.portMissing, .portInvalidFormat]

def Ipv6.kinds : List RejectionKind :=
  [.ipv6InvalidChar, .ipv6TooLong, .ipv6BadColon, .ipv6TooManyHexDigits, .ipv6TooManyGroups,
    .ipv6TooFewGroups, .ipv6MissingClosingBracket]

/-- An address in brackets never fails as a domain name does. -/
def HostKind.kinds : HostKind → List RejectionKind
  | .domainName => .hostInvalidDomainName :: Port.kinds
  | .ipv4 => .hostInvalidIpv4 :: .hostInvalidDomainName :: Port.kinds
  | .ipv6 => Ipv6.kinds ++ Port.kinds

theorem Port.scan_kinds (text : Text) : FailsIn kinds (scan text) := by
  fun_cases scan text with
  | case1 | case4 => exact .of_ok _
  | case2 | case3 => simp [kinds, *]

theorem DomainName.scanFrom_kinds (label : Int) (place : Place) (here : Int) (text : Text) :
    FailsIn [.hostInvalidDomainName] (scanFrom label place here text) := by
  fun_induction scanFrom label place here text with
  | case7 label here rest _ _ ih => exact ih.map _
  | _ => simp_all

theorem Ipv4.octet_kinds (here : Int) (text : Text) :
    FailsIn [.hostInvalidIpv4] (octet here text) := by
  fun_cases octet here text with
  | _ => simp_all

theorem Ipv4.octets_kinds (more : Nat) (here : Int) (text : Text) :
    FailsIn [.hostInvalidIpv4] (octets more here text) := by
  induction more generalizing here text with
  | zero => exact (octet_kinds here text).map _
  | succ more ih =>
    refine (octet_kinds here text).bind fun first => ?_
    exact (ih _ _).bind fun rest => .of_ok _

theorem Ipv6.close_kinds (content : Content) (here : Int) : FailsIn kinds (content.close here) := by
  fun_cases Content.close content here with
  | case1 | case2 => simp [kinds]
  | case3 => exact .of_ok _

theorem Ipv6.addHextet_kinds (content : Content) (here : Int) (digits : Nat) :
    FailsIn kinds (content.addHextet here digits) := by
  fun_cases Content.addHextet content here digits with
  | case1 | case2 => simp [kinds]
  | case3 => exact .of_ok _

theorem Ipv6.addColons_kinds (content : Content) (here : Int) (colons : Nat) (next : Option Char) :
    FailsIn kinds (content.addColons here colons next) := by
  fun_cases Content.addColons content here colons next with
  | case1 | case2 | case4 => simp [kinds]
  | case3 | case5 => exact .of_ok _

theorem Ipv6.contentFrom_kinds (content : Content) (here : Int) (text : Text) :
    FailsIn kinds (contentFrom content here text) := by
  fun_induction contentFrom content here text with
  | case1 | case2 | case8 => simp [kinds]
  | case3 content here => exact close_kinds content here
  | case4 content here _ c rest _ _ more failure h =>
    exact FailsIn.error_iff.mpr (addHextet_kinds content here (more + 1) failure h)
  | case5 content here _ c rest _ _ more content' h ih => exact ih
  | case6 content here _ rest more failure h =>
    exact FailsIn.error_iff.mpr (addColons_kinds content here (more + 1) rest[more]? failure h)
  | case7 content here _ rest more content' _ _ _ ih => exact ih

theorem HostKind.scan_kinds (kind : HostKind) (text : Text) :
    FailsIn kind.kinds (kind.scan text) := by
  cases kind with
  | domainName => exact (DomainName.scanFrom_kinds 0 .fresh 0 text).mono (by decide)
  | ipv4 => exact (Ipv4.octets_kinds 3 0 text).mono (by decide)
  | ipv6 => exact (Ipv6.contentFrom_kinds {} 1 (text.drop 1)).mono (by decide)

theorem HostKind.leftover_mem (kind : HostKind) (port : Option Span) :
    kind.leftover port ∈ kind.kinds := by
  cases kind <;> cases port <;> simp [leftover, kinds, Port.kinds, Ipv6.kinds]

theorem Host.scanAs_kinds (kind : HostKind) (text : Text) :
    FailsIn kind.kinds (scanAs kind text) := by
  refine (kind.scan_kinds text).bind fun labels => ?_
  have hport : FailsIn kind.kinds (Scan.behind Port.scan labels.stop text) := by
    refine (FailsIn.behind _ text Port.scan_kinds).mono ?_
    cases kind <;> decide
  refine hport.bind fun port => ?_
  split
  · exact FailsIn.error_iff.mpr (kind.leftover_mem port.value)
  · exact .of_ok _

def Path.kinds : List RejectionKind := [.nameContainsUppercase, .pathInvalidFormat]

def Name.kinds : List RejectionKind :=
  .referenceInvalidFormat :: Path.kinds ++ (HostKind.all.map HostKind.kinds).flatten

def Reference.kinds : List RejectionKind :=
  .tagInvalidFormat :: .digestInvalidFormat :: Name.kinds

theorem Path.wordFailure_mem (here : Int) (next : Option Char) :
    (wordFailure here next).kind ∈ kinds := by
  fun_cases wordFailure here next with
  | case1 | case2 | case3 => simp [kinds]

theorem Path.scanFrom_kinds (component : Int) (place : Place) (here : Int) (text : Text) :
    FailsIn kinds (scanFrom component place here text) := by
  fun_induction scanFrom component place here text with
  | case1 | case8 => exact .of_ok _
  | case3 | case13 => simp [kinds]
  | case9 | case15 => exact FailsIn.error_iff.mpr (wordFailure_mem _ _)
  | case4 component here rest _ _ ih => exact ih.map _
  | case7 component here rest _ _ _ _ _ ih => exact ih.map _
  | case11 component place here c rest _ _ separator _ ih => exact ih.map _
  | _ => assumption

theorem Name.scan_kinds (source : Text) : FailsIn kinds (scan source) := by
  rw [scan]
  split
  · have hhost : FailsIn kinds (Host.scan (SegmentKind.leading source)) := by
      refine (Host.scanAs_kinds _ _).mono fun kind hkind => ?_
      refine List.mem_append_right _ (List.mem_flatten_of_mem ?_ hkind)
      cases HostKind.ofText (SegmentKind.leading source) <;> decide
    refine hhost.bind fun host => ?_
    split
    · simp [kinds]
    · refine FailsIn.bind ?_ fun path => .of_ok _
      exact (FailsIn.behind _ source (Path.scanFrom_kinds 0 .fresh 0)).mono (by decide)
  · exact ((Path.scanFrom_kinds 0 .fresh 0 source).mono (by decide)).map _

theorem Reference.scan_kinds (source : Text) : FailsIn kinds (scan source) := by
  have hname : FailsIn kinds (Name.scan source) := (Name.scan_kinds source).mono (by decide)
  refine hname.bind fun name => ?_
  have htag : FailsIn kinds (Scan.marked ':' Tag.scan name.stop source) := by
    refine FailsIn.marked _ _ _ fun text => .of_outcome (Tag.scan_outcome text) ?_
    intro front next kind hkind
    simp [kinds, hkind]
  refine htag.bind fun tag => ?_
  have hdigest : FailsIn kinds (Scan.marked '@' (Digest.scan .distribution) tag.stop source) := by
    refine FailsIn.marked _ _ _ fun text => .of_outcome (Digest.scan_outcome text) ?_
    intro front next kind hkind
    simp [kinds, show kind = .digestInvalidFormat from hkind]
  refine hdigest.bind fun digest => ?_
  split
  · simp [kinds, Name.kinds]
  · exact .of_ok _

end ImageReference
