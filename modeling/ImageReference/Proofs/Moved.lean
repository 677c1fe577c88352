import ImageReference.Proofs.ReadingDigest
import ImageReference.Proofs.ReadingHost
import ImageReference.Proofs.ReadingPath

/-!
# Productions in a context

A reading goes by positions of the source, so what stands around its window could
matter to it. It does not: at a cursor that is embedded in a longer source, every
position that is read holds the character that it holds at the cursor itself.
-/

namespace ImageReference

variable {α : Type} [Shift α] {c : Cursor}

namespace Reading

theorem host_eq (h : c.Within) : host c = c.parseHost := by
  rw [h.parseHost_eq]
  exact Tracks.run_eq h Host.host_tracks

theorem path_eq (h : c.Within) : path c = c.parsePath := Tracks.run_eq h Path.path_tracks

theorem tag_eq (h : c.Within) : tag c = c.parseTag := Tracks.run_eq h Tag.tag_tracks

theorem digest_eq (h : c.Within) (standard : Compliance) :
    digest standard c = c.parseDigest standard :=
  Tracks.run_eq h Digest.digest_tracks

end Reading

namespace Cursor

/-- A production reads a value at both cursors or rejects both, and all places of the second outcome
lie `n` characters behind those of the first. -/
def Moved (n : Int) (alone there : Except Fault α × Cursor) : Prop :=
  ((∃ value, alone.1 = .ok value ∧ there.1 = .ok (shift n value)) ∨
    ∃ e : Rejection, alone.1 = .error (.rejected e) ∧
      there.1 = .error (.rejected { e with offset := e.offset + n })) ∧
  there.2.offset = alone.2.offset + n

theorem Within.moved_run [LawfulShift α] (h : c.Within) (scan : Scan α) (before after : Text) :
    Moved before.length (c.run scan) ((c.embed before after).run scan) := by
  rw [h.run_embed, h.run_eq]
  cases scan c.window with
  | ok found => exact ⟨.inl ⟨_, rfl, rfl⟩, rfl⟩
  | error failure => exact ⟨.inr ⟨_, rfl, rfl⟩, rfl⟩

theorem Within.moved_reading [LawfulShift α] {reading : Reading α} {scan : Scan α} (h : c.Within)
    (hreads : ∀ c : Cursor, c.Within → reading c = c.run scan) (before after : Text) :
    Moved before.length (reading c) (reading (c.embed before after)) := by
  rw [hreads c h, hreads _ (h.embed before after)]
  exact h.moved_run scan before after

/-- Hosts, paths, tags and digests are read alike wherever their window stands, and whatever stands
around it. -/
theorem production_moved (before text after : Text) (standard : Compliance) :
    let alone := ofText text
    let there : Cursor :=
      ⟨before ++ text ++ after, before.length, before.length + text.length⟩
    (∀ c ∈ [alone, there],
      Reading.host c = c.parseHost ∧ Reading.path c = c.parsePath ∧ Reading.tag c = c.parseTag ∧
        Reading.digest standard c = c.parseDigest standard) ∧
    Moved before.length (Reading.host alone) (Reading.host there) ∧
    Moved before.length (Reading.path alone) (Reading.path there) ∧
    Moved before.length (Reading.tag alone) (Reading.tag there) ∧
    Moved before.length (Reading.digest standard alone) (Reading.digest standard there) := by
  intro alone there
  have halone : alone.Within := within_ofText text
  have hthere : there = alone.embed before after := (embed_ofText before text after).symm
  have hreads : ∀ c : Cursor, c.Within →
      Reading.host c = c.parseHost ∧ Reading.path c = c.parsePath ∧ Reading.tag c = c.parseTag ∧
        Reading.digest standard c = c.parseDigest standard := fun c h =>
    ⟨Reading.host_eq h, Reading.path_eq h, Reading.tag_eq h, Reading.digest_eq h standard⟩
  have hhost : ∀ c : Cursor, c.Within → Reading.host c = c.run Host.scan := fun c h =>
    (Reading.host_eq h).trans h.parseHost_eq
  refine ⟨?_, ?_⟩
  · intro c hc
    rw [List.mem_cons, List.mem_singleton] at hc
    rcases hc with rfl | rfl
    · exact hreads _ halone
    · rw [hthere]
      exact hreads _ (halone.embed before after)
  · rw [hthere]
    exact ⟨halone.moved_reading hhost before after,
      halone.moved_reading (fun c => Reading.path_eq) before after,
      halone.moved_reading (fun c => Reading.tag_eq) before after,
      halone.moved_reading (fun c h => Reading.digest_eq h standard) before after⟩

end Cursor

end ImageReference
