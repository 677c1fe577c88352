import ImageReference.Digest.Basic
import ImageReference.Name
import ImageReference.Scan
import ImageReference.Text.Quoted

/-!
# References

A name, then a colon and a tag or neither, then an at sign and a digest or
neither. A tag is a letter, digit or underscore, then letters, digits,
underscores, dots and hyphens; at most 128 characters in all. The length of the
name is checked before the tag is read; the digest is held to the registry once
the whole text has matched the grammar.

A reference keeps its source and the places of its parts; the parts themselves
are cut out of the source when they are asked for. Rendering puts the parts
together again.
-/

namespace ImageReference.Tag

def maxLength : Nat := 128

def scan : Scan Span := fun text =>
  if text.head?.any CharClass.word then
    let length := ((text.take (maxLength + 1)).takeWhile CharClass.tag).length
    if maxLength < length then
      .error { kind := .tagInvalidFormat, offset := maxLength, halted := length, reach := length }
    else .ok ⟨⟨0, length⟩, length⟩
  else .error { kind := .tagInvalidFormat, offset := 0 }

end ImageReference.Tag

namespace ImageReference

structure Reference where
  source : Text
  domainHost : Option Host
  pathSpans : Path
  tagSpan : Option Span
  digestSpans : Option Digest
deriving DecidableEq

namespace Reference

def name (r : Reference) : Text :=
  let start := match r.domainHost with
    | none => r.pathSpans.span.offset
    | some host => host.span.offset
  slice r.source start r.pathSpans.span.stop

def domain (r : Reference) : Option Text := r.domainHost.map (·.domainSpan.text r.source)

def hostname (r : Reference) : Option Text := r.domainHost.map (·.span.text r.source)

def port (r : Reference) : Option Text :=
  (r.domainHost.bind Host.port).map (·.text r.source)

def path (r : Reference) : Text := r.pathSpans.span.text r.source

def pathComponents (r : Reference) : List Text :=
  r.pathSpans.components.texts r.source

def pathSeparators (r : Reference) : List PathSeparator := r.pathSpans.separators

def tag (r : Reference) : Option Text := r.tagSpan.map (·.text r.source)

def digest (r : Reference) : Option Text := r.digestSpans.map (·.span.text r.source)

def digestAlgorithm (r : Reference) : Option Text :=
  r.digestSpans.map (·.algorithm.text r.source)

def digestAlgorithmComponents (r : Reference) : List Text :=
  match r.digestSpans with
  | none => []
  | some digest => digest.components.texts r.source

def digestEncoded (r : Reference) : Option Text := r.digestSpans.map (·.encoded.text r.source)

def isCanonical (r : Reference) : Bool := r.domainHost.isSome && r.digestSpans.isSome

def render (r : Reference) : Text :=
  (match r.domain with | none => [] | some domain => domain ++ ['/']) ++ r.path ++
    (match r.tag with | none => [] | some tag => ':' :: tag) ++
    (match r.digest with | none => [] | some digest => '@' :: digest)

def describe (r : Reference) : Text :=
  "Reference(".toList ++ Quoted.write r.render ++ [')']

end Reference

/-- What a caller may set: the longest accepted name and the registered algorithms. -/
structure Limits where
  maxNameLength : Int := 255
  registry : Registry := .standard

/-- Scans what follows a mark at a place, or nothing where the mark is absent. -/
def Scan.marked {α : Type} [Shift α] (mark : Char) (scan : Scan α) (place : Int) (text : Text) :
    Except Failure (Scanned (Option α)) :=
  if (text.drop place.toNat).head? = some mark then
    (Scan.behind scan (place + 1) text).map (Scanned.map some)
  else .ok ⟨none, place⟩

namespace Reference

def leadingName (source : Text) : Except Rejection (Scanned Name) :=
  if source.isEmpty then .error { kind := .nameEmpty, offset := 0 }
  else (Name.scan source).mapError Failure.rejection

def nameTooLong (name : Name) (limit : Int) : Rejection where
  kind := .nameTooLong
  offset := name.span.offset + limit
  description := RejectionKind.nameTooLongDescription limit

def parse (source : Text) (limits : Limits := {}) : Except Rejection Reference := do
  let name ← leadingName source
  if limits.maxNameLength < name.value.span.length then
    throw (nameTooLong name.value limits.maxNameLength)
  let tag ← (Scan.marked ':' Tag.scan name.stop source).mapError Failure.rejection
  let digest ← (Scan.marked '@' (Digest.scan .distribution) tag.stop source).mapError
    Failure.rejection
  if digest.stop < source.length then
    throw { kind := .referenceInvalidFormat, offset := digest.stop }
  if let some spans := digest.value then
    spans.check limits.registry true source
  return ⟨source, name.value.domain, name.value.path, tag.value, digest.value⟩

def parseCanonical (source : Text) (limits : Limits := {}) : Except Rejection Reference := do
  let reference ← parse source limits
  if reference.domainHost.isNone then
    throw { kind := .nameNotCanonical, offset := 0 }
  if reference.digestSpans.isNone then
    throw { kind := .nameNotCanonical, offset := source.length }
  return reference

def parseWith (canonical : Bool) (source : Text) (limits : Limits := {}) :
    Except Rejection Reference :=
  if canonical then parseCanonical source limits else parse source limits

end Reference

end ImageReference
