import ImageReference.Digest.Basic
import ImageReference.Name
import ImageReference.Reference

/-!
# Cursors

A cursor is a place in a source with a bound in front of which it reads. The
window of a cursor is the text that it can read. A scan on a cursor is a scan
of its window, with all places moved to where the window stands; it leaves the
cursor behind what it consumed, whether it succeeds or fails. A bound may lie
outside the source, and then only looking at a missing character is a fault.
-/

namespace ImageReference

structure Cursor where
  source : Text
  offset : Int
  stop : Int
deriving DecidableEq

/-- A rejection of the text, or a fault of the cursor: a character that the source does not have, or
a number that cannot be cut out of it. -/
inductive Fault
  | rejected (rejection : Rejection)
  | outOfRange
  | notANumber
deriving DecidableEq

namespace Cursor

def ofText (source : Text) : Cursor := ⟨source, 0, source.length⟩

def remaining (c : Cursor) : Int := c.stop - c.offset

def atEnd (c : Cursor) : Bool := c.stop ≤ c.offset

def window (c : Cursor) : Text := readBetween c.source c.offset c.stop

/-- Whether the source has fewer characters than the window asks for. -/
def isTorn (c : Cursor) : Bool := c.window.length < c.remaining

def peekAt (c : Cursor) (ahead : Int) : Except Fault (Option Char) :=
  if c.stop ≤ c.offset + ahead then .ok none
  else match charAt? c.source (c.offset + ahead) with
    | some char => .ok (some char)
    | none => .error .outOfRange

def peek (c : Cursor) : Except Fault (Option Char) := c.peekAt 0

def test (c : Cursor) (p : CharClass) : Except Fault Bool := return (← c.peek).any p

def advance (c : Cursor) (count : Int) : Cursor :=
  { c with offset := min (c.offset + count) c.stop }

def limited (c : Cursor) : Option Int → Cursor
  | none => c
  | some limit => { c with stop := min c.stop (c.offset + limit) }

def runLength (c : Cursor) (p : CharClass) (limit : Option Int := none) : Except Fault Nat :=
  let text := (c.limited limit).window
  let length := (text.takeWhile p).length
  if (c.limited limit).isTorn && length == text.length then .error .outOfRange else .ok length

def captureWhile (c : Cursor) (p : CharClass) (limit : Option Int := none) :
    Except Fault Nat × Cursor :=
  match c.runLength p limit with
  | .ok length => (.ok length, { c with offset := c.offset + length })
  | .error fault => (.error fault, c)

def spanFrom (c : Cursor) (start : Int) : Span := ⟨start, c.offset - start⟩

def run {α : Type} [Shift α] (c : Cursor) (scan : Scan α) : Except Fault α × Cursor :=
  match scan c.window with
  | .ok found =>
      if c.isTorn && c.window.length ≤ found.stop then (.error .outOfRange, c)
      else (.ok (shift c.offset found.value), { c with offset := c.offset + found.stop })
  | .error f =>
      if c.isTorn && c.window.length < f.reach then (.error .outOfRange, c)
      else (.error (.rejected (shift c.offset f).rejection),
        { c with offset := c.offset + f.halted })

/-- The kind of host at the cursor. The dots of its leading run are counted in the slice of the
source where the run stands. -/
def hostKind (c : Cursor) : HostKind :=
  let run := Ipv4.run c.window
  .leading ((slice c.source c.offset (c.offset + run.length)).count '.') c.window

def hostKindIsTorn (c : Cursor) : Bool :=
  c.isTorn && c.window.head? != some '[' && (Ipv4.run c.window).length == c.window.length

/-- Whether the octets have to be read through one that stands across position zero. Its digits are
in the window, but the slice from its start to its stop is empty. -/
def splitsOctet (c : Cursor) : Bool :=
  let front := c.window.take (-c.offset).toNat
  let digitsInFront := (front.reverse.takeWhile CharClass.digit).length
  let start := front.length - digitsInFront
  let digits := ((c.window.drop start).takeWhile CharClass.digit).length
  let isReached : Bool := match Ipv4.scan c.window with
    | .ok octets => start < octets.stop
    | .error failure => start ≤ failure.offset
  c.offset + front.length == 0 && 0 < digitsInFront && digits ≤ Ipv4.octetDigitsMax && isReached

def parseHost (c : Cursor) : Except Fault Host × Cursor :=
  if c.hostKindIsTorn then (.error .outOfRange, c)
  else if c.hostKind == .ipv4 && c.splitsOctet then (.error .notANumber, c)
  else c.run (Host.scanAs c.hostKind)

def parsePath (c : Cursor) : Except Fault Path × Cursor := c.run Path.scan

def parseTag (c : Cursor) : Except Fault Span × Cursor := c.run Tag.scan

def parseDigest (c : Cursor) (standard : Compliance := .distribution) :
    Except Fault Digest × Cursor :=
  c.run (Digest.scan standard)

def parseNameBehind (c : Cursor) (domain : Option Host) : Except Fault Name × Cursor :=
  match c.parsePath with
  | (.ok path, c) => (.ok ⟨domain, path⟩, c)
  | (.error fault, c) => (.error fault, c)

/-- Reads a name. The kind of its leading segment is decided on the whole source; the domain
then ends at the first slash in front of the bound, and without one it fills the window and no
path is left. -/
def parseName (c : Cursor) : Except Fault Name × Cursor :=
  match SegmentKind.ofSource c.source c.offset with
  | .path => c.parseNameBehind none
  | .domain =>
      let slash := findBetween '/' c.source c.offset c.stop
      let segmentStop := slash.getD c.stop
      match (parseHost { c with stop := segmentStop }).1, slash with
      | .error fault, _ => (.error fault, c)
      | .ok _, none =>
          (.error (.rejected { kind := .referenceInvalidFormat, offset := segmentStop }), c)
      | .ok host, some slash => parseNameBehind { c with offset := slash + 1 } (some host)

end Cursor

end ImageReference
