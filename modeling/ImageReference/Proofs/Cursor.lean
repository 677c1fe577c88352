import ImageReference.Cursor.Basic
import ImageReference.Proofs.Span

/-!
# Cursors in their context

A cursor inside its source can be embedded in a longer one, with a text in front
of it and a text behind it. What is scanned at the embedded cursor is what is
scanned at the cursor itself, with all places moved by the length of the text in
front.
-/

namespace ImageReference

class LawfulShift (α : Type) [Shift α] : Prop where
  shift_shift (m n : Int) (a : α) : shift m (shift n a) = shift (n + m) a

export LawfulShift (shift_shift)

variable {α : Type} [Shift α]

instance : LawfulShift Span where
  shift_shift m n span := by
    change Span.mk (span.offset + n + m) span.length = ⟨span.offset + (n + m), span.length⟩
    rw [Int.add_assoc]

instance [LawfulShift α] : LawfulShift (Option α) where
  shift_shift m n value := by
    cases value with
    | none => rfl
    | some value => exact congrArg some (shift_shift m n value)

instance [LawfulShift α] : LawfulShift (List α) where
  shift_shift m n values := by
    change (values.map _).map _ = values.map _
    rw [List.map_map]
    exact List.map_congr_left fun value _ => shift_shift m n value

instance : LawfulShift Parts where
  shift_shift m n parts := by
    change Parts.mk (shift m (shift n parts.first)) (shift m (shift n parts.rest)) = _
    rw [shift_shift, shift_shift]
    rfl

instance : LawfulShift Host where
  shift_shift m n host := by
    change Host.mk host.kind (shift m (shift n host.span)) (shift m (shift n host.labels))
      (shift m (shift n host.port)) = _
    rw [shift_shift, shift_shift, shift_shift]
    rfl

instance : LawfulShift Path where
  shift_shift m n path := congrArg (Path.mk · path.separators) (shift_shift m n path.components)

instance : LawfulShift Digest where
  shift_shift m n digest := by
    change Digest.mk (shift m (shift n digest.components)) (shift m (shift n digest.encoded)) _ = _
    rw [shift_shift, shift_shift]
    rfl

instance : Shift Rejection := ⟨fun n e => { e with offset := e.offset + n }⟩

instance : LawfulShift Rejection where
  shift_shift _ _ e := congrArg (Rejection.mk e.kind · e.description) (Int.add_assoc ..)

instance : Shift Fault where
  shift n
    | .rejected e => .rejected (shift n e)
    | fault => fault

instance : Shift (Except Fault α) where
  shift n
    | .ok value => .ok (shift n value)
    | .error fault => .error (shift n fault)

namespace Cursor

variable {c : Cursor} {before after : Text}

/-- The cursor and its bound stand in the source, one behind the other. -/
structure Within (c : Cursor) : Prop where
  nonneg : 0 ≤ c.offset
  ordered : c.offset ≤ c.stop
  bounded : c.stop ≤ c.source.length

def embed (before after : Text) (c : Cursor) : Cursor :=
  ⟨before ++ c.source ++ after, c.offset + before.length, c.stop + before.length⟩

theorem within_ofText (text : Text) : (ofText text).Within :=
  ⟨Int.le_refl 0, Int.natCast_nonneg _, Int.le_refl _⟩

/-- What a scan of the window means for the cursor. -/
def settle (c : Cursor) : Except Failure (Scanned α) → Except Fault α × Cursor
  | .ok found => (.ok (shift c.offset found.value), { c with offset := c.offset + found.stop })
  | .error f =>
      (.error (.rejected (shift c.offset f).rejection), { c with offset := c.offset + f.halted })

theorem moved_embed (before after : Text) (count : Int) :
    { c.embed before after with offset := (c.embed before after).offset + count } =
      embed before after { c with offset := c.offset + count } :=
  congrArg (Cursor.mk _ · _) (Int.add_right_comm ..)

theorem settle_embed [LawfulShift α] (result : Except Failure (Scanned α)) :
    (c.embed before after).settle result =
      Prod.map (shift before.length) (embed before after) (c.settle result) := by
  cases result with
  | ok found =>
    refine Prod.ext ?_ (moved_embed before after found.stop)
    exact congrArg Except.ok (shift_shift _ _ found.value).symm
  | error f =>
    refine Prod.ext ?_ (moved_embed before after f.halted)
    exact congrArg (fun e => Except.error (Fault.rejected e)) (shift_shift _ _ f.rejection).symm

namespace Within

variable (h : c.Within)
include h

theorem embed (before after : Text) : (c.embed before after).Within := by
  obtain ⟨hnonneg, hordered, hbounded⟩ := h
  refine ⟨?_, ?_, ?_⟩
  · change 0 ≤ c.offset + before.length
    omega
  · exact Int.add_le_add_right hordered _
  · simp only [Cursor.embed, List.length_append]
    omega

theorem window_eq : c.window = (c.source.drop c.offset.toNat).take (c.stop - c.offset).toNat :=
  if_pos h.nonneg

theorem length_window : (c.window.length : Int) = c.stop - c.offset := by
  obtain ⟨hnonneg, hordered, hbounded⟩ := h
  rw [Within.window_eq ⟨hnonneg, hordered, hbounded⟩, List.length_take, List.length_drop]
  omega

theorem isTorn_eq : c.isTorn = false := by
  rw [isTorn, remaining, h.length_window]
  simp

theorem run_eq (scan : Scan α) : c.run scan = c.settle (scan c.window) := by
  rw [run, h.isTorn_eq]
  cases scan c.window <;> rfl

theorem window_embed (before after : Text) : (c.embed before after).window = c.window := by
  obtain ⟨hnonneg, hordered, hbounded⟩ := id h
  have hdrop : (c.offset + before.length).toNat = before.length + c.offset.toNat := by omega
  have htake : c.stop + before.length - (c.offset + before.length) = c.stop - c.offset := by omega
  have hlength : (c.stop - c.offset).toNat ≤ (c.source.drop c.offset.toNat).length := by
    rw [List.length_drop]
    omega
  rw [(h.embed before after).window_eq, h.window_eq]
  simp only [Cursor.embed]
  rw [hdrop, htake, List.append_assoc, List.drop_length_add_append,
    List.drop_append_of_le_length (by omega), List.take_append_of_le_length hlength]

theorem run_embed [LawfulShift α] (scan : Scan α) (before after : Text) :
    (c.embed before after).run scan =
      Prod.map (shift before.length) (Cursor.embed before after) (c.run scan) := by
  rw [(h.embed before after).run_eq, h.window_embed, settle_embed, h.run_eq]

theorem hostKind_eq : c.hostKind = HostKind.ofText c.window := by
  obtain ⟨hnonneg, hordered, hbounded⟩ := id h
  have hlength := h.length_window
  have hprefix : Ipv4.run c.window <+: c.window := List.takeWhile_prefix _
  have hrun : (Ipv4.run c.window).length ≤ c.window.length := hprefix.length_le
  have hslice : slice c.source c.offset (c.offset + (Ipv4.run c.window).length) =
      c.window.take (Ipv4.run c.window).length := by
    rw [slice_eq_readBetween hnonneg (by omega) (by omega), readBetween, if_pos hnonneg,
      h.window_eq, List.take_take]
    congr 1
    rw [← h.window_eq]
    omega
  rw [hostKind, HostKind.ofText, hslice, ← List.prefix_iff_eq_take.mp hprefix]

theorem splitsOctet_eq : c.splitsOctet = false := by
  have hfront : (-c.offset).toNat = 0 := Int.toNat_eq_zero.mpr (by have := h.nonneg; omega)
  simp [splitsOctet, hfront]

theorem parseHost_eq : c.parseHost = c.run Host.scan := by
  have htorn : c.hostKindIsTorn = false := by rw [hostKindIsTorn, h.isTorn_eq]; rfl
  rw [parseHost, htorn, h.splitsOctet_eq, h.hostKind_eq]
  simp [run, Host.scan]

theorem parseHost_embed (before after : Text) : (c.embed before after).parseHost =
    Prod.map (shift before.length) (Cursor.embed before after) c.parseHost := by
  rw [(h.embed before after).parseHost_eq, h.run_embed, h.parseHost_eq]

theorem findBetween_eq (mark : Char) : findBetween mark c.source c.offset c.stop =
    (c.window.idxOf? mark).map fun i : Nat => c.offset + i := by
  obtain ⟨hnonneg, hordered, hbounded⟩ := h
  rw [findBetween, slice_eq_readBetween hnonneg hordered hbounded,
    sliceBound_of_mem hnonneg (by omega)]
  have hplace : (fun i => ((c.offset.toNat + i : Nat) : Int)) = fun i : Nat => c.offset + i := by
    funext i
    omega
  exact congrArg (Option.map · (c.window.idxOf? mark)) hplace

end Within

theorem window_ofText (text : Text) : (ofText text).window = text := by
  rw [(within_ofText text).window_eq]
  simp [ofText]

theorem embed_ofText (before text after : Text) : (ofText text).embed before after =
    ⟨before ++ text ++ after, before.length, before.length + text.length⟩ := by
  rw [embed, Cursor.mk.injEq]
  exact ⟨rfl, Int.zero_add _, Int.add_comm _ _⟩

end Cursor

end ImageReference
