/-!
# Texts and character classes

A text is a list of code points, and a class is a test on one of them. Every
class of the reference grammar holds ASCII characters only, so no letter or
digit of another script ever belongs to one. Bytes that are given in place of a
text stand for one character each; files hold UTF-8 instead, and bytes that are
not well formed are refused.
-/

namespace ImageReference

abbrev Text := List Char

abbrev CharClass := Char → Bool

namespace CharClass

def digit : CharClass := Char.isDigit

def lower : CharClass := Char.isLower

def upper : CharClass := Char.isUpper

def alpha : CharClass := Char.isAlpha

def alnum : CharClass := Char.isAlphanum

def lowerAlnum : CharClass := fun c => lower c || digit c

def lowerHex : CharClass := fun c => digit c || ('a' ≤ c && c ≤ 'f')

def hex : CharClass := fun c => lowerHex c || ('A' ≤ c && c ≤ 'F')

def ociEncoded : CharClass := fun c => alnum c || c == '=' || c == '_' || c == '-'

def word : CharClass := fun c => alnum c || c == '_'

def tag : CharClass := fun c => word c || c == '.' || c == '-'

def domainLabel : CharClass := fun c => alnum c || c == '-'

def ipv4 : CharClass := fun c => digit c || c == '.'

def algorithmSeparator : CharClass := fun c => c == '+' || c == '.' || c == '_' || c == '-'

def ofText (members : Text) : CharClass := members.contains

/-- The ASCII members of a class, by code point. -/
def members (p : CharClass) : Text :=
  ((List.range 128).map Char.ofNat).filter p

end CharClass

def ofLatin1 (bytes : List UInt8) : Text := bytes.map fun byte => Char.ofNat byte.toNat

def toUtf8 (text : Text) : List UInt8 := text.flatMap String.utf8EncodeChar

def ofUtf8? (bytes : List UInt8) : Option Text :=
  (String.fromUTF8? ⟨bytes.toArray⟩).map String.toList

end ImageReference
