import ImageReference.Cursor.Basic

/-!
# Reading by positions

The productions as they are read with a cursor: one step after the other, each at
a position of the source that it works out for itself. Nothing keeps a step from
a position outside of the window; a missing character is a fault.
-/

namespace ImageReference

abbrev Reading (α : Type) := Cursor → Except Fault α × Cursor

instance : Monad Reading where
  pure value := fun c => (.ok value, c)
  bind first next := fun c =>
    match first c with
    | (.ok value, c) => next value c
    | (.error fault, c) => (.error fault, c)

def Parts.prepend (front : List Span) (parts : Parts) : Parts :=
  front.foldr (fun span parts => parts.add span) parts

namespace Reading

variable {α σ : Type}

def reject (kind : RejectionKind) (offset : Int) : Reading α := fun c =>
  (.error (.rejected { kind, offset }), c)

def require (holds : Bool) (kind : RejectionKind) (offset : Int) : Reading Unit :=
  if holds then return () else reject kind offset

def place : Reading Int := fun c => (.ok c.offset, c)

def atEnd : Reading Bool := fun c => (.ok c.atEnd, c)

def peekAt (ahead : Int) : Reading (Option Char) := fun c => (c.peekAt ahead, c)

def peek : Reading (Option Char) := peekAt 0

def test (p : CharClass) : Reading Bool := fun c => (c.test p, c)

def advance : Reading Unit := fun c => (.ok (), c.advance 1)

def spanFrom (start : Int) : Reading Span := fun c => (.ok (c.spanFrom start), c)

def charAt (position : Int) : Reading Char := fun c =>
  match charAt? c.source position with
  | some char => (.ok char, c)
  | none => (.error .outOfRange, c)

/-- The length of the run of a class that starts at a position, within a number of positions. -/
def runFrom (p : CharClass) (source : Text) : Nat → Int → Except Fault Nat
  | 0, _ => .ok 0
  | left + 1, position =>
      match charAt? source position with
      | none => .error .outOfRange
      | some char =>
          if p char then (runFrom p source left (position + 1)).map (· + 1) else .ok 0

def captureWhile (p : CharClass) (limit : Option Nat := none) : Reading Nat := fun c =>
  match runFrom p c.source (c.limited (limit.map Nat.cast)).remaining.toNat c.offset with
  | .ok length => (.ok length, { c with offset := c.offset + length })
  | .error fault => (.error fault, c)

def runLength (p : CharClass) : Reading Nat := fun c => ((captureWhile p none c).1, c)

def count (mark : Char) (start stop : Int) : Reading Nat := fun c =>
  (.ok ((slice c.source start stop).count mark), c)

def number (span : Span) : Reading Int := fun c =>
  match Decimal.toInt? (span.text c.source) with
  | some number => (.ok number, c)
  | none => (.error .notANumber, c)

def rounds (step : σ → Reading (σ ⊕ α)) : Nat → σ → Reading α
  | 0, _ => fun c => (.error .outOfRange, c)
  | left + 1, state => do
      match ← step state with
      | .inl state => rounds step left state
      | .inr value => return value

/-- Repeats a step until it gives a value. A round in front of the last one consumes a character. -/
def repeatStep (step : σ → Reading (σ ⊕ α)) (state : σ) : Reading α := fun c =>
  rounds step (c.remaining.toNat + 1) state c

def tag : Reading Span := do
  let start ← place
  require (← test CharClass.word) .tagInvalidFormat start
  let length ← captureWhile CharClass.tag (some (Tag.maxLength + 1))
  require (length ≤ Tag.maxLength) .tagInvalidFormat (start + Tag.maxLength)
  return ⟨start, length⟩

def word : Reading Unit := do
  let length ← captureWhile CharClass.lowerAlnum
  require (!(← test CharClass.upper)) .nameContainsUppercase (← place)
  require (0 < length) .pathInvalidFormat (← place)

def underscores : Reading PathSeparator := do
  let start ← place
  let length ← captureWhile (· == '_') (some 3)
  require (length ≤ 2) .pathInvalidFormat (start + 2)
  return if length = 1 then .underscore else .doubleUnderscore

def separator : Reading (Option PathSeparator) := do
  let next ← peek
  if next = some '.' then
    advance
    return some .dot
  else if next = some '_' then return some (← underscores)
  else if next = some '-' then
    let _ ← captureWhile (· == '-')
    return some .hyphens
  else return none

def separated (separators : List PathSeparator) :
    Reading (List PathSeparator ⊕ List PathSeparator) := do
  match ← separator with
  | some separator =>
      word
      return .inl (separators ++ [separator])
  | none => return .inr separators

def component (separators : List PathSeparator) : Reading (List PathSeparator) := do
  word
  repeatStep separated separators

def pathComponent (state : List Span × List PathSeparator) :
    Reading (List Span × List PathSeparator ⊕ Path) := do
  let start ← place
  let separators ← component state.2
  let component ← spanFrom start
  if (← peek) = some '/' then
    advance
    return .inl (state.1 ++ [component], separators)
  else return .inr ⟨.prepend state.1 (.single component), separators⟩

def path : Reading Path := repeatStep pathComponent ([], [])

def narrow (compliance toward standard : Compliance) (offset : Int) : Reading Compliance := do
  require (compliance.admits standard toward) .digestInvalidFormat offset
  return toward

def narrowIf (holds : Bool) (compliance toward standard : Compliance) (offset : Int) :
    Reading Compliance :=
  if holds then narrow compliance toward standard offset else return compliance

def algorithmChar (standard compliance : Compliance) : Reading (Compliance ⊕ Compliance) := do
  if ← test CharClass.alnum then
    let narrowed ←
      narrowIf (← test CharClass.upper) compliance .distribution standard (← place)
    advance
    return .inl narrowed
  else return .inr compliance

def algorithmStart (standard compliance : Compliance) : Reading Compliance := do
  let char ← peek
  let start ← place
  if char.any CharClass.upper then narrow compliance .distribution standard start
  else if char.any CharClass.digit then narrow compliance .oci standard start
  else
    require (char.any CharClass.lower) .digestInvalidFormat start
    return compliance

def algorithmComponent (standard compliance : Compliance) : Reading Compliance := do
  let narrowed ← algorithmStart standard compliance
  advance
  repeatStep (algorithmChar standard) narrowed

def algorithm (standard : Compliance) (state : List Span × Compliance) :
    Reading (List Span × Compliance ⊕ Digest.Algorithm) := do
  let start ← place
  let compliance ← algorithmComponent standard state.2
  let component ← spanFrom start
  if ← test CharClass.algorithmSeparator then
    advance
    return .inl (state.1 ++ [component], compliance)
  else return .inr ⟨.prepend state.1 (.single component), compliance⟩

def narrowFrom (standard : Compliance) : Nat → Int → Compliance → Reading Compliance
  | 0, _, compliance => return compliance
  | left + 1, position, compliance => do
      let narrowed ←
        narrowIf (!CharClass.hex (← charAt position)) compliance .oci standard position
      narrowFrom standard left (position + 1) narrowed

def encoded (standard compliance : Compliance) : Reading (Span × Compliance) := do
  let start ← place
  let length ← captureWhile standard.encodedClass
  let narrowed ← narrowFrom standard length start compliance
  require (0 < length) .digestInvalidFormat (← place)
  let narrowed ← narrowIf (length < Digest.encodedMinLength) narrowed .oci standard (← place)
  return (⟨start, length⟩, narrowed)

def digest (standard : Compliance) : Reading Digest := do
  let algorithm ← repeatStep (algorithm standard) ([], .universal)
  require ((← peek) == some ':') .digestInvalidFormat (← place)
  advance
  let (encoded, compliance) ← encoded standard algorithm.compliance
  return ⟨algorithm.components, encoded, compliance⟩

def domainLabel (labels : List Span) : Reading (List Span ⊕ List Span) := do
  let start ← place
  require (← test CharClass.alnum) .hostInvalidDomainName start
  let _ ← captureWhile CharClass.domainLabel
  let stop ← place
  require ((← charAt (stop - 1)) != '-') .hostInvalidDomainName (stop - 1)
  let label ← spanFrom start
  if (← peek) = some '.' then
    advance
    return .inl (labels ++ [label])
  else return .inr (labels ++ [label])

def octet : Reading Span := do
  let start ← place
  let length ← captureWhile CharClass.digit
  require (0 < length) .hostInvalidIpv4 start
  require (length ≤ Ipv4.octetDigitsMax) .hostInvalidIpv4 (start + Ipv4.octetDigitsMax)
  let octet ← spanFrom start
  require ((← number octet) ≤ Ipv4.octetMax) .hostInvalidIpv4 start
  return octet

def octets : Nat → Reading (List Span)
  | 0 => do return [← octet]
  | more + 1 => do
      let first ← octet
      advance
      let rest ← octets more
      return first :: rest

def looksLikeIpv4 : Reading Bool := do
  let length ← runLength CharClass.ipv4
  if length = 0 then return false
  else if (← peekAt length).any (· != ':') then return false
  else
    let start ← place
    return (← count '.' start (start + length)) == 3

def ipv6Hextet (content : Ipv6.Content) : Reading Ipv6.Content := do
  let start ← place
  let digits ← captureWhile CharClass.hex (some (Ipv6.hextetDigitsMax + 1))
  require (digits ≤ Ipv6.hextetDigitsMax) .ipv6TooManyHexDigits (start + Ipv6.hextetDigitsMax)
  let hextets := content.hextets ++ [← spanFrom start]
  require (hextets.length ≤ Ipv6.groups) .ipv6TooManyGroups start
  return { content with hextets, started := true }

def ipv6Colons (content : Ipv6.Content) : Reading Ipv6.Content := do
  let start ← place
  let colons ← captureWhile (· == ':') (some 3)
  require (colons != 3) .ipv6BadColon (start + 2)
  if colons = 2 then
    require (!content.elided) .ipv6BadColon start
    return { content with elided := true, started := true }
  else
    require content.started .ipv6BadColon start
    require ((← peek) != some ']') .ipv6BadColon start
    return { content with started := true }

def ipv6Item (contentStart : Int) (content : Ipv6.Content) :
    Reading (Ipv6.Content ⊕ Ipv6.Content) := do
  let start ← place
  require (start - contentStart ≤ Ipv6.contentLengthMax) .ipv6TooLong start
  let next ← peek
  if next = some ']' then return .inr content
  else if next = none then reject .ipv6MissingClosingBracket start
  else if next.any CharClass.hex then return .inl (← ipv6Hextet content)
  else if next = some ':' then return .inl (← ipv6Colons content)
  else reject .ipv6InvalidChar start

def ipv6 : Reading (List Span) := do
  advance
  let content ← repeatStep (ipv6Item (← place)) {}
  let close ← place
  require (!(content.elided && Ipv6.groups ≤ content.hextets.length)) .ipv6TooManyGroups close
  require (content.elided || Ipv6.groups ≤ content.hextets.length) .ipv6TooFewGroups close
  advance
  return content.hextets

def port : Reading (Option Span) := do
  if (← peek) = some ':' then
    advance
    let start ← place
    let length ← captureWhile CharClass.digit
    let kind := if ← atEnd then .portMissing else .portInvalidFormat
    require (0 < length) kind start
    return some (← spanFrom start)
  else return none

def labels : Reading (HostKind × List Span) := do
  if (← peek) = some '[' then return (.ipv6, ← ipv6)
  else if ← looksLikeIpv4 then return (.ipv4, ← octets 3)
  else return (.domainName, ← repeatStep domainLabel [])

def host : Reading Host := do
  let start ← place
  let (kind, labels) ← labels
  let span ← spanFrom start
  let port ← port
  require (← atEnd) (kind.leftover port) (← place)
  return ⟨kind, span, labels, port⟩

end Reading

end ImageReference
