import ImageReference.Text.CharClass
import ImageReference.Text.Span
import ImageReference.Text.Decimal
import ImageReference.Text.Quoted
import ImageReference.Rejection
import ImageReference.Host
import ImageReference.Name
import ImageReference.Reference
import ImageReference.Digest.Basic
import ImageReference.Digest.Standalone
import ImageReference.Cursor.Basic
import ImageReference.Cursor.Read
import ImageReference.CommandLine.Run
import ImageReference.Cursor.Step
import ImageReference.Main
import ImageReference.Proofs.Grammar
import ImageReference.Proofs.Reader
import ImageReference.Proofs.Outcome
import ImageReference.Proofs.Path
import ImageReference.Proofs.CharClass
import ImageReference.Proofs.Tag
import ImageReference.Proofs.Standard
import ImageReference.Proofs.Digest
import ImageReference.Proofs.Narrowing
import ImageReference.Proofs.DomainName
import ImageReference.Proofs.Host
import ImageReference.Proofs.Name
import ImageReference.Proofs.Reference
import ImageReference.Proofs.Pieces
import ImageReference.Proofs.Registry
import ImageReference.Proofs.Standalone
import ImageReference.Proofs.Alphabet
import ImageReference.Proofs.Settled
import ImageReference.Proofs.Accepts
import ImageReference.Proofs.RoundTrip
import ImageReference.Proofs.Offset
import ImageReference.Proofs.Kinds
import ImageReference.Proofs.Precedence
import ImageReference.Proofs.Split
import ImageReference.Proofs.Row
import ImageReference.Proofs.Corpus
import ImageReference.Proofs.Cursor
import ImageReference.Proofs.Window
import ImageReference.Proofs.Embedded
import ImageReference.Proofs.Options
import ImageReference.Proofs.Plain
import ImageReference.Proofs.Places
import ImageReference.Proofs.Alike
import ImageReference.Proofs.Bytes
import ImageReference.Proofs.Moved
import ImageReference.Proofs.Safety
import ImageReference.Proofs.Check
import ImageReference.Proofs.HostAt
import ImageReference.Proofs.Complies
import ImageReference.Proofs.PathAt
import ImageReference.Proofs.RowLine
import ImageReference.Proofs.ParseCommand
