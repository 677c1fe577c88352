import ImageReference.Scan

/-!
# Hosts

The domain of a reference is a host and an optional port number. A host is a
domain name, an IPv4 address or an IPv6 address in brackets; its labels are the
parts between the dots or colons.

The labels of a domain name have letters, digits and hyphens, and start and end
with a letter or a digit. An IPv4 address has four octets of one to three
digits, none above 255. An IPv6 address has hextets of one to four hex digits,
joined by single colons; there are eight of them, or at most seven where one
double colon stands for the rest, and no more than 39 characters in all.

The first characters decide the kind: an opening bracket starts an IPv6 address,
and a leading run of digits and dots commits to an IPv4 address if it has three
dots and ends the text or stands in front of a colon. The host and its port must
fill the whole text.
-/

namespace ImageReference

inductive HostKind
  | domainName
  | ipv4
  | ipv6
deriving DecidableEq

def HostKind.all : List HostKind := [.domainName, .ipv4, .ipv6]

def HostKind.label : HostKind → String
  | .domainName => "domain-name"
  | .ipv4 => "ipv4"
  | .ipv6 => "ipv6"

structure Host where
  kind : HostKind
  span : Span
  labels : List Span
  port : Option Span
deriving DecidableEq

def Host.domainSpan (host : Host) : Span :=
  match host.port with
  | none => host.span
  | some port => Span.join host.span port

instance : Shift Host :=
  ⟨fun n host => { host with
    span := shift n host.span, labels := shift n host.labels, port := shift n host.port }⟩

end ImageReference

namespace ImageReference.DomainName

/-- Where a label stands: before its first character, behind a letter or digit, or behind a
hyphen. -/
inductive Place
  | fresh
  | inside
  | hyphen
deriving DecidableEq

def scanFrom (label : Int) : Place → Int → Scan (List Span)
  | .fresh, here, [] => .error { kind := .hostInvalidDomainName, offset := here }
  | .fresh, here, c :: rest =>
      if CharClass.alnum c then scanFrom label .inside (here + 1) rest
      else .error { kind := .hostInvalidDomainName, offset := here }
  | .inside, here, [] => .ok ⟨[⟨label, here - label⟩], here⟩
  | .inside, here, c :: rest =>
      if CharClass.alnum c then scanFrom label .inside (here + 1) rest
      else if c = '-' then scanFrom label .hyphen (here + 1) rest
      else if c = '.' then
        (scanFrom (here + 1) .fresh (here + 1) rest).map (Scanned.map (⟨label, here - label⟩ :: ·))
      else .ok ⟨[⟨label, here - label⟩], here⟩
  | .hyphen, here, [] =>
      .error { kind := .hostInvalidDomainName, offset := here - 1, halted := here }
  | .hyphen, here, c :: rest =>
      if CharClass.alnum c then scanFrom label .inside (here + 1) rest
      else if c = '-' then scanFrom label .hyphen (here + 1) rest
      else .error { kind := .hostInvalidDomainName, offset := here - 1, halted := here }

def scan : Scan (List Span) := scanFrom 0 .fresh 0

end ImageReference.DomainName

namespace ImageReference.Ipv4

def octetMax : Nat := 255

def octetDigitsMax : Nat := 3

def run (text : Text) : Text := text.takeWhile CharClass.ipv4

def commits (dots : Nat) (text : Text) : Bool :=
  !(run text).isEmpty && (text[(run text).length]?).all (· == ':') && dots == 3

def octet (here : Int) (text : Text) : Except Failure (Scanned Span) :=
  let digits := text.takeWhile CharClass.digit
  let stop := here + digits.length
  if digits.isEmpty then .error { kind := .hostInvalidIpv4, offset := here }
  else if octetDigitsMax < digits.length then
    .error { kind := .hostInvalidIpv4, offset := here + octetDigitsMax, halted := stop }
  else if octetMax < Decimal.toNat digits then
    .error { kind := .hostInvalidIpv4, offset := here, halted := stop }
  else .ok ⟨⟨here, digits.length⟩, stop⟩

def octets : Nat → Int → Scan (List Span)
  | 0, here, text => (octet here text).map (Scanned.map ([·]))
  | more + 1, here, text => do
      let first ← octet here text
      let rest ← octets more (first.stop + 1) (text.drop (first.stop - here + 1).toNat)
      return rest.map (first.value :: ·)

def scan : Scan (List Span) := octets 3 0

end ImageReference.Ipv4

namespace ImageReference.Ipv6

def groups : Nat := 8

def hextetDigitsMax : Nat := 4

/-- Eight hextets of four digits and the seven colons between them. -/
def contentLengthMax : Nat := 39

/-- What has been read behind the opening bracket: the hextets, and whether there was a double
colon or anything at all. -/
structure Content where
  hextets : List Span := []
  elided : Bool := false
  started : Bool := false
deriving DecidableEq

def Content.close (content : Content) (here : Int) : Except Failure (Scanned (List Span)) :=
  if content.elided && groups ≤ content.hextets.length then
    .error { kind := .ipv6TooManyGroups, offset := here }
  else if !content.elided && content.hextets.length < groups then
    .error { kind := .ipv6TooFewGroups, offset := here }
  else .ok ⟨content.hextets, here + 1⟩

def Content.addHextet (content : Content) (here : Int) (digits : Nat) : Except Failure Content :=
  let hextets := content.hextets ++ [⟨here, digits⟩]
  if hextetDigitsMax < digits then
    .error { kind := .ipv6TooManyHexDigits, offset := here + hextetDigitsMax,
             halted := here + digits, reach := here + digits }
  else if groups < hextets.length then
    .error { kind := .ipv6TooManyGroups, offset := here, halted := here + digits }
  else .ok { content with hextets, started := true }

def Content.addColons (content : Content) (here : Int) (colons : Nat) (next : Option Char) :
    Except Failure Content :=
  if colons = 3 then
    .error { kind := .ipv6BadColon, offset := here + 2, halted := here + 3, reach := here + 3 }
  else if colons = 2 then
    if content.elided then .error { kind := .ipv6BadColon, offset := here, halted := here + 2 }
    else .ok { content with elided := true, started := true }
  else if !content.started || next = some ']' then
    .error { kind := .ipv6BadColon, offset := here, halted := here + colons }
  else .ok { content with started := true }

def contentFrom (content : Content) (here : Int) (text : Text) :
    Except Failure (Scanned (List Span)) :=
  if contentLengthMax + 1 < here then .error { kind := .ipv6TooLong, offset := here }
  else match text with
  | [] => .error { kind := .ipv6MissingClosingBracket, offset := here }
  | c :: rest =>
    if c = ']' then content.close here
    else if CharClass.hex c then
      let more := ((rest.take hextetDigitsMax).takeWhile CharClass.hex).length
      match content.addHextet here (more + 1) with
      | .error f => .error f
      | .ok content => contentFrom content (here + (more + 1)) (rest.drop more)
    else if c = ':' then
      let more := ((rest.take 2).takeWhile (· == ':')).length
      match content.addColons here (more + 1) (rest[more]?) with
      | .error f => .error f
      | .ok content => contentFrom content (here + (more + 1)) (rest.drop more)
    else .error { kind := .ipv6InvalidChar, offset := here }
termination_by text.length
decreasing_by all_goals simp only [List.length_drop, List.length_cons]; omega

def scan (text : Text) : Except Failure (Scanned (List Span)) := contentFrom {} 1 (text.drop 1)

end ImageReference.Ipv6

namespace ImageReference.Port

def scan : Scan (Option Span)
  | ':' :: rest =>
      let digits := (rest.takeWhile CharClass.digit).length
      if 0 < digits then .ok ⟨some ⟨1, digits⟩, 1 + digits⟩
      else if rest.isEmpty then .error { kind := .portMissing, offset := 1 }
      else .error { kind := .portInvalidFormat, offset := 1 }
  | _ => .ok ⟨none, 0⟩

end ImageReference.Port

namespace ImageReference

/-- The kind of a text's host, given the number of dots in its leading run of digits and dots. -/
def HostKind.leading (dots : Nat) (text : Text) : HostKind :=
  if text.head? = some '[' then .ipv6
  else if Ipv4.commits dots text then .ipv4
  else .domainName

def HostKind.ofText (text : Text) : HostKind :=
  .leading ((Ipv4.run text).count '.') text

def HostKind.scan : HostKind → Scan (List Span)
  | .domainName => DomainName.scan
  | .ipv4 => Ipv4.scan
  | .ipv6 => Ipv6.scan

def HostKind.leftover (kind : HostKind) (port : Option Span) : RejectionKind :=
  if port.isSome then .portInvalidFormat
  else if kind = .ipv6 then .ipv6InvalidChar
  else .hostInvalidDomainName

def Host.scanAs (kind : HostKind) : Scan Host := fun text => do
  let labels ← kind.scan text
  let port ← Scan.behind Port.scan labels.stop text
  if port.stop < text.length then
    .error { kind := kind.leftover port.value, offset := port.stop }
  else
    return ⟨⟨kind, ⟨0, labels.stop⟩, labels.value, port.value⟩, port.stop⟩

def Host.scan : Scan Host := fun text => Host.scanAs (HostKind.ofText text) text

end ImageReference
