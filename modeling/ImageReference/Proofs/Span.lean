import ImageReference.Scan

/-!
# Spans of known texts

A span that starts behind one text and is as long as a second one cuts the
second one out of their concatenation with anything that follows.
-/

namespace ImageReference

variable {before text after : Text} {first last span : Span} {parts : Parts} {n : Int}

theorem sliceBound_natCast {place : Nat} (h : place ≤ text.length) :
    sliceBound text place = place := by
  rw [sliceBound, if_neg (by omega)]
  omega

theorem sliceBound_of_mem {place : Int} (hnonneg : 0 ≤ place) (h : place ≤ text.length) :
    sliceBound text place = place.toNat := by
  have hplace := @sliceBound_natCast text place.toNat (by omega)
  rwa [Int.toNat_of_nonneg hnonneg] at hplace

theorem slice_eq_readBetween {start stop : Int} (hstart : 0 ≤ start) (horder : start ≤ stop)
    (hstop : stop ≤ text.length) : slice text start stop = readBetween text start stop := by
  rw [slice, readBetween, if_pos hstart, sliceBound_of_mem hstart (by omega),
    sliceBound_of_mem (by omega) hstop,
    show stop.toNat - start.toNat = (stop - start).toNat by omega]

theorem slice_append : slice (before ++ text ++ after) before.length (before.length + text.length) =
    text := by
  have hstart : sliceBound (before ++ text ++ after) before.length = before.length :=
    sliceBound_natCast (by simp)
  have hstop : sliceBound (before ++ text ++ after) ((before.length + text.length : Nat) : Int) =
      before.length + text.length := sliceBound_natCast (by simp)
  rw [Int.natCast_add] at hstop
  rw [slice, hstart, hstop]
  simp

theorem Span.text_append (h : span = ⟨before.length, text.length⟩) :
    span.text (before ++ text ++ after) = text := by
  rw [h]
  exact slice_append

theorem readBetween_append : readBetween (before ++ text ++ after) before.length
    (before.length + text.length) = text := by
  rw [readBetween, if_pos (by omega), Int.toNat_natCast, List.append_assoc, List.drop_left,
    show ((before.length : Int) + text.length - before.length).toNat = text.length by omega,
    List.take_left]

theorem sliceBound_shift {place : Int} (h : 0 ≤ place) :
    sliceBound (before ++ text) (place + before.length) =
      before.length + sliceBound text place := by
  rw [sliceBound, sliceBound, if_neg (by omega), if_neg (by omega), List.length_append]
  omega

theorem slice_shift {start stop : Int} (hstart : 0 ≤ start) (hstop : 0 ≤ stop) :
    slice (before ++ text) (start + before.length) (stop + before.length) =
      slice text start stop := by
  rw [slice, slice, sliceBound_shift hstart, sliceBound_shift hstop, Nat.add_sub_add_left,
    List.drop_length_add_append]

theorem readBetween_shift {start stop : Int} (hstart : 0 ≤ start) :
    readBetween (before ++ text) (start + before.length) (stop + before.length) =
      readBetween text start stop := by
  rw [readBetween, readBetween, if_pos (by omega), if_pos hstart, Int.add_sub_add_right,
    show (start + before.length).toNat = before.length + start.toNat by omega,
    List.drop_length_add_append]

structure Span.Forward (span : Span) : Prop where
  offset : 0 ≤ span.offset
  stop : 0 ≤ span.stop

theorem Span.forward_natCast {start length : Nat} (h : span = ⟨start, length⟩) : span.Forward := by
  subst h
  exact ⟨Int.natCast_nonneg start, Int.natCast_nonneg (start + length)⟩

@[simp] theorem Span.shift_offset : (shift n span).offset = span.offset + n := rfl

theorem Span.shift_stop : (shift n span).stop = span.stop + n :=
  Int.add_right_comm ..

theorem Span.Forward.text_shift (h : span.Forward) :
    (shift (before.length : Int) span).text (before ++ text) = span.text text := by
  rw [Span.text, Span.shift_offset, Span.shift_stop]
  exact slice_shift h.offset h.stop

theorem Span.join_shift :
    Span.join (shift n first) (shift n last) = shift n (Span.join first last) := by
  rw [Span.join, Span.shift_stop, Span.shift_offset, Int.add_sub_add_right]
  rfl

namespace Parts

@[simp] theorem last_add : (parts.add span).last = parts.last := by
  simp [add, last, List.getLast?_cons]

theorem texts_shift (h : ∀ span ∈ parts.toList, span.Forward) :
    (shift (before.length : Int) parts).texts (before ++ text) = parts.texts text := by
  change (parts.toList.map (shift (before.length : Int))).map _ = _
  rw [List.map_map]
  exact List.map_congr_left fun span hspan => (h span hspan).text_shift

theorem span_shift : (shift n parts).span = shift n parts.span := by
  have hlast : (shift n parts).last = shift n parts.last := by
    change ((parts.rest.map (shift n)).getLast?).getD (shift n parts.first) = _
    rw [List.getLast?_map]
    cases hrest : parts.rest.getLast? <;> simp [last, hrest]
  rw [span, hlast]
  exact Span.join_shift

end Parts

end ImageReference
