import ImageReference.Text.Decimal

/-!
# Why a text is not a reference

A rejection names the rule of the grammar that failed, the place of the first
character that could not be matched, and the sentence shown to the user.
Several rules share one sentence; the label tells them apart.
-/

namespace ImageReference

inductive RejectionKind
  | nameEmpty
  | nameTooLong
  | nameContainsUppercase
  | nameNotCanonical
  | referenceInvalidFormat
  | tagInvalidFormat
  | digestInvalidFormat
  | digestInvalidLength
  | digestUnsupportedAlgorithm
  | hostInvalidDomainName
  | hostInvalidIpv4
  | portMissing
  | portInvalidFormat
  | ipv6InvalidChar
  | ipv6TooLong
  | ipv6BadColon
  | ipv6TooManyHexDigits
  | ipv6TooManyGroups
  | ipv6TooFewGroups
  | ipv6MissingClosingBracket
  | pathInvalidFormat
deriving DecidableEq

namespace RejectionKind

def all : List RejectionKind :=
  [.nameEmpty, .nameTooLong, .nameContainsUppercase, .nameNotCanonical, .referenceInvalidFormat,
    .tagInvalidFormat, .digestInvalidFormat, .digestInvalidLength, .digestUnsupportedAlgorithm,
    .hostInvalidDomainName, .hostInvalidIpv4, .portMissing, .portInvalidFormat, .ipv6InvalidChar,
    .ipv6TooLong, .ipv6BadColon, .ipv6TooManyHexDigits, .ipv6TooManyGroups, .ipv6TooFewGroups,
    .ipv6MissingClosingBracket, .pathInvalidFormat]

def label : RejectionKind → String
  | nameEmpty => "NameEmpty"
  | nameTooLong => "NameTooLong"
  | nameContainsUppercase => "NameContainsUppercase"
  | nameNotCanonical => "NameNotCanonical"
  | referenceInvalidFormat => "ReferenceInvalidFormat"
  | tagInvalidFormat => "TagInvalidFormat"
  | digestInvalidFormat => "DigestInvalidFormat"
  | digestInvalidLength => "DigestInvalidLength"
  | digestUnsupportedAlgorithm => "DigestUnsupportedAlgorithm"
  | hostInvalidDomainName => "HostInvalidDomainName"
  | hostInvalidIpv4 => "HostInvalidIpv4"
  | portMissing => "PortMissing"
  | portInvalidFormat => "PortInvalidFormat"
  | ipv6InvalidChar => "Ipv6InvalidChar"
  | ipv6TooLong => "Ipv6TooLong"
  | ipv6BadColon => "Ipv6BadColon"
  | ipv6TooManyHexDigits => "Ipv6TooManyHexDigits"
  | ipv6TooManyGroups => "Ipv6TooManyGroups"
  | ipv6TooFewGroups => "Ipv6TooFewGroups"
  | ipv6MissingClosingBracket => "Ipv6MissingClosingBracket"
  | pathInvalidFormat => "PathInvalidFormat"

def ofLabel? (label : String) : Option RejectionKind :=
  all.find? fun kind => kind.label == label

def genericDescription : Text := "invalid reference format".toList

def nameTooLongDescription (limit : Int) : Text :=
  "repository name must not be more than ".toList ++ Decimal.ofInt limit ++ " characters".toList

def description : RejectionKind → Text
  | nameEmpty => "repository name must have at least one component".toList
  | nameTooLong => nameTooLongDescription 255
  | nameContainsUppercase => "repository name must be lowercase".toList
  | nameNotCanonical => "repository name must be canonical".toList
  | tagInvalidFormat => "invalid tag format".toList
  | digestInvalidFormat => "invalid checksum digest format".toList
  | digestInvalidLength => "invalid checksum digest length".toList
  | digestUnsupportedAlgorithm => "unsupported digest algorithm".toList
  | _ => genericDescription

end RejectionKind

structure Rejection where
  kind : RejectionKind
  offset : Int
  description : Text := kind.description
deriving DecidableEq

def Rejection.message (r : Rejection) : Text :=
  r.description ++ " (".toList ++ r.kind.label.toList ++ " @ ".toList ++
    Decimal.ofInt r.offset ++ [')']

end ImageReference
