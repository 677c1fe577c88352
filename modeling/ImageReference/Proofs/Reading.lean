import ImageReference.Cursor.Read
import ImageReference.Proofs.Cursor
import ImageReference.Proofs.CharClass

/-!
# Readings and scans

A reading looks at positions of the source, a scan is given the window alone. As
long as a cursor has read no more than its window, the positions that a reading
works out are those of the text that lies ahead; so a reading does what the scan
of the window says.
-/

namespace ImageReference

variable {α β σ : Type} {c d : Cursor} {p : CharClass} {n : Int} {text run rest : Text}

namespace Parts

variable {front : List Span} {parts : Parts}

theorem prepend_append (span : Span) :
    prepend (front ++ [span]) parts = prepend front (parts.add span) := by
  simp [prepend]

theorem shift_prepend (n : Int) :
    shift n (prepend front parts) = prepend (shift n front) (shift n parts) := by
  induction front with
  | nil => rfl
  | cons span front ih =>
    change (shift n (prepend front parts)).add (shift n span) = _
    rw [ih]
    rfl

end Parts

namespace Cursor

def moved (c : Cursor) (n : Int) : Cursor := { c with offset := c.offset + n }

@[simp] theorem moved_source : (c.moved n).source = c.source := rfl

@[simp] theorem moved_offset : (c.moved n).offset = c.offset + n := rfl

@[simp] theorem moved_stop : (c.moved n).stop = c.stop := rfl

/-- The text lies ahead of a cursor that has moved `n` characters into its window. -/
structure Ahead (c : Cursor) (n : Int) (text : Text) : Prop where
  within : c.Within
  split : ∃ front : Text, c.window = front ++ text ∧ n = front.length

theorem moved_zero (c : Cursor) : c.moved 0 = c := congrArg (Cursor.mk _ · _) (Int.add_zero _)

theorem Within.ahead (h : c.Within) : c.Ahead 0 c.window := ⟨h, [], rfl, rfl⟩

namespace Ahead

theorem read (h : c.Ahead n (run ++ rest)) : c.Ahead (n + run.length) rest := by
  obtain ⟨hwithin, front, hwindow, rfl⟩ := h
  refine ⟨hwithin, front ++ run, by rw [hwindow, List.append_assoc], ?_⟩
  rw [List.length_append]
  omega

theorem next {char : Char} (h : c.Ahead n (char :: rest)) : c.Ahead (n + 1) rest := by
  have hread : c.Ahead n ([char] ++ rest) := h
  exact hread.read

variable (h : c.Ahead n text)
include h

theorem drop {k : Nat} (hk : k ≤ text.length) : c.Ahead (n + k) (text.drop k) := by
  have hsplit := List.take_append_drop k text
  rw [← hsplit] at h
  have hread := h.read
  rwa [List.length_take_of_le hk] at hread

theorem nonneg : 0 ≤ n := by
  obtain ⟨-, front, -, rfl⟩ := h
  exact Int.natCast_nonneg _

theorem drop_window : c.window.drop n.toNat = text := by
  obtain ⟨-, front, hwindow, rfl⟩ := h
  rw [hwindow, Int.toNat_natCast, List.drop_left]

theorem stop_eq : c.stop = c.offset + n + text.length := by
  obtain ⟨hwithin, front, hwindow, rfl⟩ := h
  have hlength := hwithin.length_window
  rw [hwindow, List.length_append] at hlength
  omega

theorem source_eq : ∃ after, c.source.drop (c.offset + n).toNat = text ++ after := by
  obtain ⟨hwithin, front, hwindow, rfl⟩ := h
  have hplace : (c.offset + front.length).toNat = c.offset.toNat + front.length := by
    have hnonneg := hwithin.nonneg
    omega
  obtain ⟨after, hafter⟩ : ∃ after, c.source.drop c.offset.toNat = front ++ (text ++ after) := by
    refine ⟨(c.source.drop c.offset.toNat).drop (c.stop - c.offset).toNat, ?_⟩
    rw [← List.append_assoc, ← hwindow, hwithin.window_eq, List.take_append_drop]
  refine ⟨after, ?_⟩
  rw [hplace, ← List.drop_drop, hafter, List.drop_left]

theorem charAt?_eq {i : Nat} (hi : i < text.length) :
    charAt? c.source (c.offset + n + i) = text[i]? := by
  obtain ⟨after, hsource⟩ := h.source_eq
  have hnonneg : 0 ≤ c.offset + n := Int.add_nonneg h.within.nonneg h.nonneg
  have hplace : (c.offset + n + i).toNat = (c.offset + n).toNat + i := by omega
  rw [charAt?, if_pos (by omega), hplace, ← List.getElem?_drop, hsource,
    List.getElem?_append_left hi]

theorem peekAt_eq (i : Nat) (hi : i ≤ text.length) : (c.moved n).peekAt i = .ok text[i]? := by
  have hstop := h.stop_eq
  rw [Cursor.peekAt, moved_stop, moved_offset, moved_source]
  rcases Nat.lt_or_eq_of_le hi with hlt | rfl
  · rw [if_neg (by omega), h.charAt?_eq hlt, List.getElem?_eq_getElem hlt]
  · rw [if_pos (by omega), List.getElem?_eq_none (Nat.le_refl _)]

theorem peek_eq : (c.moved n).peek = .ok text.head? := by
  rw [Cursor.peek, List.head?_eq_getElem?]
  exact h.peekAt_eq 0 (Nat.zero_le _)

theorem test_eq (p : CharClass) : (c.moved n).test p = .ok (text.head?.any p) := by
  rw [test, h.peek_eq]
  rfl

theorem atEnd_eq : (c.moved n).atEnd = text.isEmpty := by
  have hstop := h.stop_eq
  rw [atEnd, moved, Bool.eq_iff_iff, decide_eq_true_eq, List.isEmpty_iff,
    ← List.length_eq_zero_iff]
  simp only
  omega

theorem slice_eq (hrest : text = run ++ rest) :
    slice c.source (c.offset + n) (c.offset + n + run.length) = run := by
  subst hrest
  obtain ⟨hnonneg, hordered, hbounded⟩ := h.within
  have hplace := h.nonneg
  have hstop := h.stop_eq
  rw [List.length_append] at hstop
  obtain ⟨after, hsource⟩ := h.source_eq
  have hlength : (c.offset + n + run.length - (c.offset + n)).toNat = run.length := by omega
  rw [slice_eq_readBetween (by omega) (by omega) (by omega), readBetween, if_pos (by omega),
    hsource, hlength, List.append_assoc]
  exact List.take_left

end Ahead

theorem advance_moved {char : Char} (h : c.Ahead n (char :: rest)) :
    (c.moved n).advance 1 = c.moved (n + 1) := by
  have hstop := h.stop_eq
  rw [List.length_cons] at hstop
  rw [advance, moved, moved, Cursor.mk.injEq]
  refine ⟨rfl, ?_, rfl⟩
  simp only
  omega

theorem settle_error [Shift α] (failure : Failure) :
    (c.settle (.error failure) : Except Fault α × Cursor) =
      (.error (.rejected { kind := failure.kind, offset := c.offset + failure.offset }),
        c.moved failure.halted) := by
  change (Except.error (Fault.rejected ⟨failure.kind, failure.offset + c.offset, _⟩), _) = _
  rw [Int.add_comm]
  rfl

end Cursor

namespace Reading

open Cursor

theorem shift_append (front rest : List Span) :
    shift n (front ++ rest) = shift n front ++ shift n rest := List.map_append

theorem bind_apply (first : Reading α) (next : α → Reading β) (c : Cursor) :
    (first >>= next) c =
      match first c with
      | (.ok value, c) => next value c
      | (.error fault, c) => (.error fault, c) := rfl

theorem bind_eq {first : Reading α} {next : α → Reading β} {value : α} {e : Cursor}
    (h : first d = (.ok value, e)) : (first >>= next) d = next value e := by
  rw [bind_apply, h]

theorem bind_congr {first first' : Reading α} {next : α → Reading β} (h : first d = first' d) :
    (first >>= next) d = (first' >>= next) d := by
  rw [bind_apply, bind_apply, h]

theorem pure_apply (value : α) (c : Cursor) : (pure value : Reading α) c = (.ok value, c) := rfl

theorem place_moved : place (c.moved n) = (.ok (c.offset + n), c.moved n) := rfl

theorem spanFrom_moved (here : Int) :
    spanFrom (c.offset + n) (c.moved here) = (.ok ⟨c.offset + n, here - n⟩, c.moved here) := by
  have hlength : c.offset + here - (c.offset + n) = here - n := by omega
  rw [spanFrom, Cursor.spanFrom, moved, hlength]

theorem charAt_moved (h : c.Ahead n (char :: rest)) (d : Int) :
    charAt (c.offset + n) (c.moved d) = (.ok char, c.moved d) := by
  have hchar := h.charAt?_eq (Nat.zero_lt_succ rest.length)
  rw [Int.natCast_zero, Int.add_zero] at hchar
  rw [charAt, moved_source, hchar]
  rfl

section

variable (h : c.Ahead n text)
include h

theorem peek_moved : peek (c.moved n) = (.ok text.head?, c.moved n) :=
  congrArg (Prod.mk · _) h.peek_eq

theorem test_moved (p : CharClass) :
    test p (c.moved n) = (.ok (text.head?.any p), c.moved n) :=
  congrArg (Prod.mk · _) (h.test_eq p)

theorem atEnd_moved : atEnd (c.moved n) = (.ok text.isEmpty, c.moved n) :=
  congrArg (fun ended => (Except.ok ended, c.moved n)) h.atEnd_eq

theorem runFrom_eq (p : CharClass) {left : Nat} (hleft : left ≤ text.length) :
    runFrom p c.source left (c.offset + n) = .ok ((text.take left).takeWhile p).length := by
  induction left generalizing n text with
  | zero => rfl
  | succ left ih =>
    cases text with
    | nil => cases hleft
    | cons char rest =>
      have hchar : charAt? c.source (c.offset + n) = some char := by
        have hfirst := h.charAt?_eq (Nat.zero_lt_succ rest.length)
        rwa [Int.natCast_zero, Int.add_zero] at hfirst
      rw [runFrom, hchar, List.take_succ_cons, List.takeWhile_cons, Int.add_assoc,
        ih h.next (Nat.le_of_succ_le_succ hleft)]
      cases hp : p char with
      | true =>
        simp only [hp, if_true, List.length_cons]
        rfl
      | false => simp [hp]

theorem captureWhile_eq (p : CharClass) {limit : Option Nat} {left : Nat}
    (hleft : ((c.moved n).limited (limit.map Nat.cast)).remaining.toNat = left)
    (hle : left ≤ text.length) :
    captureWhile p limit (c.moved n) =
      (.ok ((text.take left).takeWhile p).length,
        c.moved (n + ((text.take left).takeWhile p).length)) := by
  have hrun := runFrom_eq h p hle
  rw [captureWhile, hleft, moved_source, moved_offset, hrun, moved, moved, ← Int.add_assoc]

theorem captureWhile_limited (p : CharClass) (limit : Nat) :
    captureWhile p (some limit) (c.moved n) =
      (.ok ((text.take limit).takeWhile p).length,
        c.moved (n + ((text.take limit).takeWhile p).length)) := by
  have hstop := h.stop_eq
  have hleft : ((c.moved n).limited ((some limit).map Nat.cast)).remaining.toNat =
      min limit text.length := by
    simp only [remaining, limited, moved, Option.map_some]
    omega
  have hcapture := captureWhile_eq h p hleft (Nat.min_le_right limit text.length)
  rwa [← List.take_take, List.take_length] at hcapture

theorem captureWhile_moved (p : CharClass) :
    captureWhile p none (c.moved n) =
      (.ok (text.takeWhile p).length, c.moved (n + (text.takeWhile p).length)) := by
  have hstop := h.stop_eq
  have hleft : ((c.moved n).limited ((none : Option Nat).map Nat.cast)).remaining.toNat =
      text.length := by
    simp only [remaining, limited, moved, Option.map_none]
    omega
  have hcapture := captureWhile_eq h p hleft (Nat.le_refl text.length)
  rwa [List.take_length] at hcapture

end

theorem advance_moved {char : Char} (h : c.Ahead n (char :: rest)) :
    advance (c.moved n) = (.ok (), c.moved (n + 1)) :=
  congrArg (Prod.mk _) (Cursor.advance_moved h)

/-- A reading of a part of what a scan reads: it fails where and as the scan does, or it gets to a
place in the window. -/
inductive Tracks {γ : Type} (c : Cursor) (whole : Except Failure (Scanned γ))
    (post : α → Int → Text → Prop) : Except Fault α × Cursor → Prop
  | read {value : α} {n : Int} {text : Text} :
      c.Ahead n text → post value n text → Tracks c whole post (.ok value, c.moved n)
  | fails {failure : Failure} : whole = .error failure →
      Tracks c whole post
        (.error (.rejected { kind := failure.kind, offset := c.offset + failure.offset }),
          c.moved failure.halted)

/-- A round of a loop goes on with less text, or it gives the value of the loop. -/
def Round (inv : σ → Int → Text → Prop) (post : α → Int → Text → Prop) (length : Nat) :
    σ ⊕ α → Int → Text → Prop
  | .inl state, n, text => inv state n text ∧ text.length < length
  | .inr value, n, text => post value n text

namespace Tracks

variable {γ : Type} {whole : Except Failure (Scanned γ)} {post : α → Int → Text → Prop}

theorem mono {post' : α → Int → Text → Prop} {outcome : Except Fault α × Cursor}
    (h : Tracks c whole post outcome)
    (hpost : ∀ value n text, post value n text → post' value n text) :
    Tracks c whole post' outcome := by
  cases h with
  | read hahead hvalue => exact .read hahead (hpost _ _ _ hvalue)
  | fails hwhole => exact .fails hwhole

theorem bind {post' : β → Int → Text → Prop} {first : Reading α} {next : α → Reading β}
    (h : Tracks c whole post (first d))
    (hnext : ∀ value n text, c.Ahead n text → post value n text →
      Tracks c whole post' (next value (c.moved n))) :
    Tracks c whole post' ((first >>= next) d) := by
  rw [bind_apply]
  generalize first d = outcome at h ⊢
  cases h with
  | read hahead hpost => exact hnext _ _ _ hahead hpost
  | fails hwhole => exact .fails hwhole

theorem reject {kind : RejectionKind} {offset place : Int} (hoffset : offset = c.offset + place)
    (hwhole : ∃ reach, whole = .error ⟨kind, place, n, reach⟩) :
    Tracks c whole post (Reading.reject kind offset (c.moved n)) := by
  subst hoffset
  obtain ⟨reach, hwhole⟩ := hwhole
  exact .fails hwhole

theorem require {holds : Bool} {kind : RejectionKind} {offset place : Int}
    {next : Unit → Reading α} (hoffset : offset = c.offset + place)
    (hfails : holds = false → ∃ reach, whole = .error ⟨kind, place, n, reach⟩)
    (hnext : holds = true → Tracks c whole post (next () (c.moved n))) :
    Tracks c whole post ((Reading.require holds kind offset >>= next) (c.moved n)) := by
  subst hoffset
  cases holds with
  | true => exact hnext rfl
  | false => exact reject rfl (hfails rfl)

theorem require_last {post : Unit → Int → Text → Prop} {holds : Bool} {kind : RejectionKind}
    {offset place : Int} (hoffset : offset = c.offset + place) (hahead : c.Ahead n text)
    (hfails : holds = false → ∃ reach, whole = .error ⟨kind, place, n, reach⟩)
    (hpost : holds = true → post () n text) :
    Tracks c whole post (Reading.require holds kind offset (c.moved n)) := by
  cases holds with
  | true => exact .read hahead (hpost rfl)
  | false => exact reject hoffset (hfails rfl)

theorem rounds {step : σ → Reading (σ ⊕ α)} {inv : σ → Int → Text → Prop}
    (hstep : ∀ state n text, c.Ahead n text → inv state n text →
      Tracks c whole (Round inv post text.length) (step state (c.moved n)))
    {left : Nat} {state : σ} (h : c.Ahead n text) (hinv : inv state n text)
    (hleft : text.length < left) :
    Tracks c whole post (Reading.rounds step left state (c.moved n)) := by
  induction left generalizing n text state with
  | zero => cases hleft
  | succ left ih =>
    refine (hstep state n text h hinv).bind fun outcome n' text' hahead hpost => ?_
    cases outcome with
    | inl state =>
      obtain ⟨hinv, hlength⟩ := hpost
      exact ih hahead hinv (by omega)
    | inr value => exact .read hahead hpost

theorem repeatStep {step : σ → Reading (σ ⊕ α)} (inv : σ → Int → Text → Prop)
    (hstep : ∀ state n text, c.Ahead n text → inv state n text →
      Tracks c whole (Round inv post text.length) (step state (c.moved n)))
    {state : σ} (h : c.Ahead n text) (hinv : inv state n text) :
    Tracks c whole post (Reading.repeatStep step state (c.moved n)) := by
  refine rounds hstep h hinv ?_
  have hstop := h.stop_eq
  rw [remaining, moved_stop, moved_offset]
  omega

end Tracks

/-- A part of what is scanned was read, and the scan goes on behind it with its value. -/
def Got {α γ : Type} [Shift α] (c : Cursor) (whole : Except Failure (Scanned γ))
    (found : Scanned α → Except Failure (Scanned γ)) (value : α) (n : Int) (_ : Text) : Prop :=
  ∃ scanned, value = shift c.offset scanned ∧ whole = found ⟨scanned, n⟩

theorem Tracks.run_eq {γ : Type} [Shift γ] {scan : Scan γ} {reading : Reading γ} (h : c.Within)
    (htracks : c.Ahead 0 c.window →
      Tracks c (scan c.window) (Got c (scan c.window) .ok) (reading (c.moved 0))) :
    reading c = c.run scan := by
  have hmoved := htracks h.ahead
  rw [moved_zero] at hmoved
  rw [h.run_eq]
  generalize reading c = outcome at hmoved
  cases hmoved with
  | read _ hgot =>
    obtain ⟨found, rfl, hscan⟩ := hgot
    rw [hscan]
    rfl
  | fails hwhole => rw [hwhole, settle_error]

end Reading

end ImageReference
