import ImageReference.Rejection
import ImageReference.Text.Span

/-!
# Scans

A scan reads a production from the front of a text. It gives the value and the
place where it stopped, or a failure. All places count from the front of the
text that was scanned; shifting moves them to where that text stands.
-/

namespace ImageReference

/-- Values that hold places in a text. -/
class Shift (α : Type) where
  shift : Int → α → α

export Shift (shift)

instance : Shift Int := ⟨fun n place => place + n⟩

instance : Shift Span := ⟨fun n span => { span with offset := span.offset + n }⟩

instance {α : Type} [Shift α] : Shift (Option α) := ⟨fun n => Option.map (shift n)⟩

instance {α : Type} [Shift α] : Shift (List α) := ⟨fun n => List.map (shift n)⟩

instance : Shift Parts := ⟨fun n parts => ⟨shift n parts.first, shift n parts.rest⟩⟩

/-- A production that did not match. The scan `halted` behind the last character that it
consumed, and `reach` counts the characters that it had looked at by then. -/
structure Failure where
  kind : RejectionKind
  offset : Int
  halted : Int := offset
  reach : Int := halted + 1
deriving DecidableEq

instance : Shift Failure :=
  ⟨fun n f => { f with offset := f.offset + n, halted := f.halted + n, reach := f.reach + n }⟩

def Failure.rejection (f : Failure) : Rejection := { kind := f.kind, offset := f.offset }

structure Scanned (α : Type) where
  value : α
  stop : Int
deriving DecidableEq

def Scanned.map {α β : Type} (f : α → β) (s : Scanned α) : Scanned β := ⟨f s.value, s.stop⟩

instance {α : Type} [Shift α] : Shift (Scanned α) :=
  ⟨fun n s => ⟨shift n s.value, s.stop + n⟩⟩

instance {α : Type} [Shift α] : Shift (Except Failure (Scanned α)) where
  shift n
    | .ok s => .ok (shift n s)
    | .error f => .error (shift n f)

abbrev Scan (α : Type) := Text → Except Failure (Scanned α)

def Scan.behind {α : Type} [Shift α] (scan : Scan α) (place : Int) : Scan α :=
  fun text => shift place (scan (text.drop place.toNat))

end ImageReference
