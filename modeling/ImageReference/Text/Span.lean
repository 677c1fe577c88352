import ImageReference.Text.CharClass

/-!
# Spans, slices and pieces

A span is an offset and a length in a text, counted in code points. A slice
takes bounds below zero from the end of the text and clamps what lies outside.
Reading goes character by character instead: positions below zero count from
the end, and reading stops at the first position that the text does not have.

Splitting cuts a text at every character of a class and keeps the empty pieces,
so there is always one piece more than there are cuts. Lines are the pieces
between line boundaries without an empty last one.
-/

namespace ImageReference

structure Span where
  offset : Int
  length : Int
deriving DecidableEq

def Span.stop (span : Span) : Int := span.offset + span.length

def Span.join (first last : Span) : Span := ⟨first.offset, last.stop - first.offset⟩

/-- The place in a text that a slice bound means. -/
def sliceBound (text : Text) (bound : Int) : Nat :=
  if bound < 0 then (bound + text.length).toNat else min bound.toNat text.length

def slice (text : Text) (start stop : Int) : Text :=
  (text.drop (sliceBound text start)).take (sliceBound text stop - sliceBound text start)

def Span.text (span : Span) (source : Text) : Text := slice source span.offset span.stop

def findBetween (c : Char) (text : Text) (start stop : Int) : Option Int :=
  ((slice text start stop).idxOf? c).map fun i => ((sliceBound text start + i : Nat) : Int)

/-- The character at a position, counted from the end where it is below zero. -/
def charAt? (text : Text) (position : Int) : Option Char :=
  if 0 ≤ position then text[position.toNat]?
  else if 0 ≤ position + text.length then text[(position + text.length).toNat]?
  else none

/-- The characters at the positions from `start` up to `stop`, as far as they exist. -/
def readBetween (text : Text) (start stop : Int) : Text :=
  if 0 ≤ start then (text.drop start.toNat).take (stop - start).toNat
  else if 0 ≤ start + text.length then
    (text.drop (start + text.length).toNat ++ text).take (stop - start).toNat
  else []

structure Parts where
  first : Span
  rest : List Span
deriving DecidableEq

namespace Parts

def single (span : Span) : Parts := ⟨span, []⟩

def add (parts : Parts) (span : Span) : Parts := ⟨span, parts.first :: parts.rest⟩

def toList (parts : Parts) : List Span := parts.first :: parts.rest

def last (parts : Parts) : Span := parts.rest.getLast?.getD parts.first

def span (parts : Parts) : Span := Span.join parts.first parts.last

def texts (parts : Parts) (source : Text) : List Text := parts.toList.map (·.text source)

end Parts

def splitWhere (p : CharClass) : Text → List Text
  | [] => [[]]
  | c :: rest =>
      if p c then [] :: splitWhere p rest
      else match splitWhere p rest with
        | [] => [[c]]
        | first :: more => (c :: first) :: more

def joinWith (mark : Char) : List Text → Text
  | [] => []
  | [piece] => piece
  | piece :: more => piece ++ mark :: joinWith mark more

def unifyNewlinesFrom : Bool → Text → Text
  | _, [] => []
  | returned, c :: rest =>
      if c = '\r' then '\n' :: unifyNewlinesFrom true rest
      else if returned ∧ c = '\n' then unifyNewlinesFrom false rest
      else c :: unifyNewlinesFrom false rest

/-- Carriage returns, alone or in front of a line feed, become line feeds. -/
def unifyNewlines (text : Text) : Text := unifyNewlinesFrom false text

/-- Line feed, vertical tab, form feed, the file, group and record separators, next line, and the
line and paragraph separators. -/
def isLineBoundary : CharClass := fun c =>
  c == '\n' || c == '\x0b' || c == '\x0c' || c == '\x1c' || c == '\x1d' || c == '\x1e' ||
    c == '\u0085' || c == '\u2028' || c == '\u2029'

def lines (text : Text) : List Text :=
  let pieces := splitWhere isLineBoundary text
  if pieces.getLast? = some [] then pieces.dropLast else pieces

end ImageReference
