import ImageReference.Digest.Basic
import ImageReference.Text.Quoted

/-!
# Digests on their own

A digest that is not part of a reference, such as that of a manifest. The whole
text is a digest in the grammar that the reader asks for. An algorithm may be
unregistered only where neither the reader nor the digest holds to the
distribution grammar.
-/

namespace ImageReference

structure StandaloneDigest where
  source : Text
  digest : Digest
deriving DecidableEq

namespace StandaloneDigest

def algorithm (d : StandaloneDigest) : Text := d.digest.algorithm.text d.source

def algorithmComponents (d : StandaloneDigest) : List Text :=
  d.digest.components.texts d.source

def encoded (d : StandaloneDigest) : Text := d.digest.encoded.text d.source

def compliance (d : StandaloneDigest) : Compliance := d.digest.compliance

def describe (d : StandaloneDigest) : Text :=
  "ParsedDigest(".toList ++ Quoted.write d.source ++ [')']

def parse (source : Text) (standard : Compliance := .distribution)
    (registry : Registry := .standard) : Except Rejection StandaloneDigest := do
  let scanned ← (Digest.scan standard source).mapError Failure.rejection
  if scanned.stop < source.length then
    .error { kind := .digestInvalidFormat, offset := scanned.stop }
  else
    let digest := scanned.value
    digest.check registry (standard == .distribution || digest.compliance == .distribution) source
    return ⟨source, digest⟩

end StandaloneDigest

end ImageReference
