import ImageReference.Rejection
import ImageReference.Scan

/-!
# Digests

An algorithm, a colon and an encoded value. The algorithm has components that
are joined by single separators. Two grammars are in use. In the distribution
grammar a component starts with a letter, and the value has at least 32 hex
digits. In the OCI grammar a component has lower-case letters and digits, and
the value is any run of letters, digits, equals signs, underscores and hyphens.

A digest complies with one of them or with both, and the same three values say
which grammar a reader asks for. While a digest is read its compliance narrows
from both grammars toward one.

A registry gives the length of an algorithm's encoded value. The value of a
registered algorithm has that length and lower-case hex digits only.
-/

namespace ImageReference

inductive Compliance
  | universal
  | distribution
  | oci
deriving DecidableEq

namespace Compliance

def all : List Compliance := [.universal, .distribution, .oci]

def label : Compliance → String
  | .universal => "universal"
  | .distribution => "distribution"
  | .oci => "oci"

def ofLabel? (label : String) : Option Compliance :=
  all.find? fun compliance => compliance.label == label

/-- Whether the reader and what was read so far both leave room for a grammar. -/
def admits (compliance standard toward : Compliance) : Bool :=
  (compliance == .universal || compliance == toward) &&
    (standard == .universal || standard == toward)

def encodedClass : Compliance → CharClass
  | .distribution => CharClass.hex
  | _ => CharClass.ociEncoded

end Compliance

structure Digest where
  components : Parts
  encoded : Span
  compliance : Compliance
deriving DecidableEq

namespace Digest

def algorithm (digest : Digest) : Span := digest.components.span

def span (digest : Digest) : Span := Span.join digest.components.first digest.encoded

instance : Shift Digest :=
  ⟨fun n digest => { digest with
    components := shift n digest.components, encoded := shift n digest.encoded }⟩

def encodedMinLength : Nat := 32

structure Algorithm where
  components : Parts
  compliance : Compliance
deriving DecidableEq

def Algorithm.addComponent (component : Span) (algorithm : Algorithm) : Algorithm :=
  { algorithm with components := algorithm.components.add component }

/-- The grammar that a character commits to: a capital letter to distribution, a digit in front
of a component to OCI. -/
def commitment? (leading : Bool) (c : Char) : Option Compliance :=
  if CharClass.upper c then some .distribution
  else if leading && CharClass.digit c then some .oci
  else none

/-- Reads an algorithm in front of the first character that cannot continue it. The flag says
whether a component starts here. -/
def algorithmFrom (standard : Compliance) (component : Int) :
    Bool → Compliance → Int → Scan Algorithm
  | leading, compliance, here, c :: rest =>
      if CharClass.alnum c then
        match commitment? leading c with
        | none => algorithmFrom standard component false compliance (here + 1) rest
        | some toward =>
            if compliance.admits standard toward then
              algorithmFrom standard component false toward (here + 1) rest
            else .error { kind := .digestInvalidFormat, offset := here }
      else if leading then .error { kind := .digestInvalidFormat, offset := here }
      else if CharClass.algorithmSeparator c then
        (algorithmFrom standard (here + 1) true compliance (here + 1) rest).map
          (Scanned.map (Algorithm.addComponent ⟨component, here - component⟩))
      else .ok ⟨⟨.single ⟨component, here - component⟩, compliance⟩, here⟩
  | leading, compliance, here, [] =>
      if leading then .error { kind := .digestInvalidFormat, offset := here }
      else .ok ⟨⟨.single ⟨component, here - component⟩, compliance⟩, here⟩

/-- Reads the run of characters behind the colon. A character that is no hex digit, and a run
that is too short, leave only the OCI grammar. -/
def encodedValue (standard compliance : Compliance) : Scan (Span × Compliance) := fun text =>
  let run := text.takeWhile standard.encodedClass
  let length : Int := run.length
  match run.findIdx? (fun c => !CharClass.hex c) with
  | some index =>
      if compliance.admits standard .oci then .ok ⟨(⟨0, length⟩, .oci), length⟩
      else .error { kind := .digestInvalidFormat, offset := index, halted := length }
  | none =>
      if run.isEmpty then .error { kind := .digestInvalidFormat, offset := length }
      else if run.length < encodedMinLength then
        if compliance.admits standard .oci then .ok ⟨(⟨0, length⟩, .oci), length⟩
        else .error { kind := .digestInvalidFormat, offset := length }
      else .ok ⟨(⟨0, length⟩, compliance), length⟩

instance : Shift (Span × Compliance) := ⟨fun n pair => (shift n pair.1, pair.2)⟩

def scan (standard : Compliance) : Scan Digest := fun text => do
  let algorithm ← algorithmFrom standard 0 true .universal 0 text
  if (text.drop algorithm.stop.toNat).head? = some ':' then
    let encoded ← Scan.behind (encodedValue standard algorithm.value.compliance)
      (algorithm.stop + 1) text
    return ⟨⟨algorithm.value.components, encoded.value.1, encoded.value.2⟩, encoded.stop⟩
  else .error { kind := .digestInvalidFormat, offset := algorithm.stop }

end Digest

abbrev Registry := Text → Option Int

namespace Registry

def ofList (entries : List (Text × Option Int)) : Registry :=
  fun algorithm => (entries.lookup algorithm).join

def standardEntries : List (Text × Int) :=
  [("sha256".toList, 64), ("sha384".toList, 96), ("sha512".toList, 128)]

def standard : Registry := fun algorithm => standardEntries.lookup algorithm

end Registry

/-- The check of an encoded value against the registry, given the algorithm and the value as
texts. An algorithm that is not registered passes unless that is required. -/
def Digest.checkTexts (registry : Registry) (required : Bool) (digest : Digest)
    (algorithm value : Text) : Except Rejection Unit :=
  match registry algorithm with
  | none =>
      if required then
        .error { kind := .digestUnsupportedAlgorithm, offset := digest.algorithm.offset }
      else .ok ()
  | some length =>
      if digest.encoded.length ≠ length then
        .error { kind := .digestInvalidLength, offset := digest.encoded.offset }
      else
        match value.findIdx? (fun c => !CharClass.lowerHex c) with
        | some index =>
            .error { kind := .digestInvalidFormat, offset := digest.encoded.offset + index }
        | none => .ok ()

def Digest.check (registry : Registry) (required : Bool) (source : Text) (digest : Digest) :
    Except Rejection Unit :=
  digest.checkTexts registry required (digest.algorithm.text source)
    (readBetween source digest.encoded.offset digest.encoded.stop)

end ImageReference
