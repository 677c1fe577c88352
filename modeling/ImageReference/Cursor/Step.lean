import ImageReference.Cursor.Read

/-!
# Runs of cursor steps

Everything that can be done with a cursor, as data. A step that fails may still
have moved the cursor.
-/

namespace ImageReference

inductive Step
  | peek
  | peekAt (ahead : Int)
  | advance (count : Int)
  | remaining
  | atEnd
  | stop
  | test (p : CharClass)
  | runLength (p : CharClass)
  | captureWhile (p : CharClass) (limit : Option Int)
  | spanFrom (start : Int)
  | textFrom (start : Int)
  | seek (offset : Int)
  | parseHost
  | parsePath
  | parseName
  | parseTag
  | parseDigest (standard : Compliance)

inductive StepValue
  | nothing
  | number (n : Int)
  | truth (b : Bool)
  | text (text : Text)
  | span (span : Span)
  | host (host : Host)
  | path (path : Path)
  | name (name : Name)
  | digest (digest : Digest)
deriving DecidableEq

namespace Step

def looking {α : Type} (value : α → StepValue) (found : Except Fault α) (c : Cursor) :
    Except Fault StepValue × Cursor :=
  (found.map value, c)

def moving {α : Type} (value : α → StepValue) (found : Except Fault α × Cursor) :
    Except Fault StepValue × Cursor :=
  (found.1.map value, found.2)

def apply (c : Cursor) : Step → Except Fault StepValue × Cursor
  | peek => looking (fun char => .text char.toList) c.peek c
  | peekAt ahead => looking (fun char => .text char.toList) (c.peekAt ahead) c
  | advance count => (.ok .nothing, c.advance count)
  | remaining => (.ok (.number c.remaining), c)
  | atEnd => (.ok (.truth c.atEnd), c)
  | stop => (.ok (.number c.stop), c)
  | test p => looking .truth (c.test p) c
  | runLength p => looking (fun (n : Nat) => .number n) (c.runLength p) c
  | captureWhile p limit => moving (fun (n : Nat) => .number n) (c.captureWhile p limit)
  | spanFrom start => (.ok (.span (c.spanFrom start)), c)
  | textFrom start => (.ok (.text ((c.spanFrom start).text c.source)), c)
  | seek offset => (.ok .nothing, { c with offset })
  | parseHost => moving .host (Reading.host c)
  | parsePath => moving .path (Reading.path c)
  | parseName => moving .name c.parseName
  | parseTag => moving .span (Reading.tag c)
  | parseDigest standard => moving .digest (Reading.digest standard c)

end Step

end ImageReference
