import ImageReference.Proofs.Span
import ImageReference.Proofs.Split

/-!
# Spans of pieces

The pieces of a text that is split at a class of characters stand one behind the
other, with one character of the class between two of them. A scan that closes a
span at each of these characters finds the spans of the pieces of what it read.
-/

namespace ImageReference.Span

variable {p : CharClass} {c : Char} {piece text : Text} {start here stop : Int} {spans : List Span}

/-- The spans of pieces that stand one behind the other, with one character between two of them. -/
def ofPieces (start : Int) : List Text → List Span
  | [] => []
  | piece :: more => ⟨start, piece.length⟩ :: ofPieces (start + piece.length + 1) more

def split (p : CharClass) (start : Int) (text : Text) : List Span :=
  ofPieces start (splitWhere p text)

theorem ofPieces_shift (n start : Int) (pieces : List Text) :
    shift n (ofPieces start pieces) = ofPieces (start + n) pieces := by
  induction pieces generalizing start with
  | nil => rfl
  | cons piece more ih =>
    change shift n (Span.mk start piece.length) ::
      shift n (ofPieces (start + piece.length + 1) more) = _
    rw [ih, ofPieces]
    congr 2
    omega

theorem split_shift (n : Int) : shift n (split p start text) = split p (start + n) text :=
  ofPieces_shift n start _

theorem split_clear (h : ∀ c ∈ text, p c = false) :
    split p start text = [⟨start, text.length⟩] := by
  rw [split, splitWhere_clear h]
  rfl

theorem split_append_cons (hpiece : ∀ c ∈ piece, p c = false) (hc : p c = true) :
    split p start (piece ++ c :: text) =
      ⟨start, piece.length⟩ :: split p (start + piece.length + 1) text := by
  rw [split, splitWhere_append_cons hpiece hc]
  rfl

def Splits (p : CharClass) (start here : Int) (text : Text) (spans : List Span) (stop : Int) :
    Prop :=
  ∀ before : Text, (∀ c ∈ before, p c = false) → here = start + before.length →
    ∃ front rest, text = front ++ rest ∧ stop = here + front.length ∧
      spans = split p start (before ++ front)

namespace Splits

theorem ended (text : Text) : Splits p start here text [⟨start, here - start⟩] here := by
  intro before hbefore hhere
  refine ⟨[], text, rfl, by simp, ?_⟩
  rw [List.append_nil, split_clear hbefore, show here - start = before.length by omega]

theorem read (hc : p c = false) (h : Splits p start (here + 1) text spans stop) :
    Splits p start here (c :: text) spans stop := by
  intro before hbefore hhere
  have hbefore' : ∀ d ∈ before ++ [c], p d = false :=
    List.forall_mem_append.mpr ⟨hbefore, List.forall_mem_singleton.mpr hc⟩
  obtain ⟨front, rest, rfl, rfl, rfl⟩ := h (before ++ [c]) hbefore' (by simp; omega)
  refine ⟨c :: front, rest, rfl, ?_, by simp⟩
  rw [List.length_cons]
  omega

theorem closed (hc : p c = true) (h : Splits p (here + 1) (here + 1) text spans stop) :
    Splits p start here (c :: text) (⟨start, here - start⟩ :: spans) stop := by
  intro before hbefore hhere
  obtain ⟨front, rest, rfl, rfl, rfl⟩ := h [] (by simp) (by simp)
  refine ⟨c :: front, rest, rfl, ?_, ?_⟩
  · rw [List.length_cons]
    omega
  · rw [split_append_cons hbefore hc, ← hhere, List.nil_append,
      show here - start = before.length by omega]

theorem eq_split {front rest : Text} (h : Splits p start start (front ++ rest) spans stop)
    (hstop : stop = start + front.length) : spans = split p start front := by
  obtain ⟨front', rest', hsplit, hstop', rfl⟩ := h [] (by simp) (by simp)
  rw [(List.append_inj hsplit (by omega)).1, List.nil_append]

end Splits

end ImageReference.Span
