import ImageReference.Host
import ImageReference.Scan
import ImageReference.Text.Span

/-!
# Names

A path has components of lower-case letters and digits, joined by slashes.
Inside a component the words are joined by one dot, one or two underscores, or
any number of hyphens. The scan stops in front of the first character that
cannot continue a word, and reports upper-case letters apart from other faults.

A name is a path, with a domain and a slash in front of it or without. Whether
it has a domain is decided before anything is read, by the text in front of the
first slash: a domain starts with a bracket, has a dot or a colon, or is the
word localhost. It is then the whole leading segment, and a path has to follow.
-/

namespace ImageReference

inductive PathSeparator
  | dot
  | underscore
  | doubleUnderscore
  | hyphens
deriving DecidableEq

def PathSeparator.all : List PathSeparator := [.dot, .underscore, .doubleUnderscore, .hyphens]

def PathSeparator.label : PathSeparator → String
  | .dot => "."
  | .underscore => "_"
  | .doubleUnderscore => "__"
  | .hyphens => "-"

structure Path where
  components : Parts
  separators : List PathSeparator
deriving DecidableEq

namespace Path

def span (path : Path) : Span := path.components.span

instance : Shift Path := ⟨fun n path => { path with components := shift n path.components }⟩

def single (component : Span) : Path := ⟨.single component, []⟩

def addComponent (component : Span) (path : Path) : Path :=
  { path with components := path.components.add component }

def addSeparator (separator : PathSeparator) (path : Path) : Path :=
  { path with separators := separator :: path.separators }

inductive Place
  | fresh
  | word
  | underscore
  | underscores
  | hyphens
deriving DecidableEq

def Place.separator? : Place → Option PathSeparator
  | .underscore => some .underscore
  | .underscores => some .doubleUnderscore
  | .hyphens => some .hyphens
  | _ => none

def wordFailure (here : Int) : Option Char → Failure
  | some c =>
      if CharClass.upper c then { kind := .nameContainsUppercase, offset := here }
      else { kind := .pathInvalidFormat, offset := here }
  | none => { kind := .pathInvalidFormat, offset := here }

def scanFrom (component : Int) : Place → Int → Scan Path
  | .word, here, [] => .ok ⟨single ⟨component, here - component⟩, here⟩
  | .word, here, c :: rest =>
      if CharClass.lowerAlnum c then scanFrom component .word (here + 1) rest
      else if CharClass.upper c then .error { kind := .nameContainsUppercase, offset := here }
      else if c = '.' then
        (scanFrom component .fresh (here + 1) rest).map (Scanned.map (addSeparator .dot))
      else if c = '_' then scanFrom component .underscore (here + 1) rest
      else if c = '-' then scanFrom component .hyphens (here + 1) rest
      else if c = '/' then
        (scanFrom (here + 1) .fresh (here + 1) rest).map
          (Scanned.map (addComponent ⟨component, here - component⟩))
      else .ok ⟨single ⟨component, here - component⟩, here⟩
  | _, here, [] => .error (wordFailure here none)
  | place, here, c :: rest =>
      if CharClass.lowerAlnum c then
        match place.separator? with
        | none => scanFrom component .word (here + 1) rest
        | some separator =>
            (scanFrom component .word (here + 1) rest).map (Scanned.map (addSeparator separator))
      else if place = .underscore ∧ c = '_' then scanFrom component .underscores (here + 1) rest
      else if place = .underscores ∧ c = '_' then
        .error { kind := .pathInvalidFormat, offset := here, halted := here + 1, reach := here + 1 }
      else if place = .hyphens ∧ c = '-' then scanFrom component .hyphens (here + 1) rest
      else .error (wordFailure here (some c))

def scan : Scan Path := scanFrom 0 .fresh 0

end Path

inductive SegmentKind
  | domain
  | path
deriving DecidableEq

namespace SegmentKind

def all : List SegmentKind := [.domain, .path]

def label : SegmentKind → String
  | .domain => "domain"
  | .path => "path"

def localhost : Text := "localhost".toList

def leading (text : Text) : Text := text.takeWhile (· != '/')

def hasMark (segment : Text) : Bool := segment.contains '.' || segment.contains ':'

def ofText (text : Text) : SegmentKind :=
  if text.head? = some '[' then .domain
  else if text.contains '/' && (hasMark (leading text) || leading text == localhost) then .domain
  else .path

/-- The kind of the segment that starts at a slice bound. Behind a bound below zero the word
localhost is taken for a path. -/
def ofSource (source : Text) (start : Int) : SegmentKind :=
  let text := slice source start source.length
  if 0 ≤ start then ofText text
  else if text.head? = some '[' then .domain
  else if text.contains '/' && hasMark (leading text) then .domain
  else .path

end SegmentKind

structure Name where
  domain : Option Host
  path : Path
deriving DecidableEq

def Name.span (name : Name) : Span :=
  match name.domain with
  | none => name.path.span
  | some host => Span.join host.span name.path.span

instance : Shift Name :=
  ⟨fun n name => ⟨shift n name.domain, shift n name.path⟩⟩

namespace Name

def scanDomain : Scan Name := fun text => do
  let segment := SegmentKind.leading text
  let host ← Host.scan segment
  if segment.length = text.length then
    .error { kind := .referenceInvalidFormat, offset := segment.length }
  else
    let path ← Scan.behind Path.scan (segment.length + 1) text
    return ⟨⟨some host.value, path.value⟩, path.stop⟩

def scan : Scan Name := fun text =>
  match SegmentKind.ofText text with
  | .domain => scanDomain text
  | .path => (Path.scan text).map (Scanned.map fun path => ⟨none, path⟩)

end Name

end ImageReference
