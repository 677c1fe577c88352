import ImageReference.Cursor.Step
import ImageReference.Proofs.Moved
import ImageReference.Proofs.Places
import ImageReference.Proofs.Window

/-!
# Runs of steps are safe

A cursor that stands in its source stays there, whatever is read from it. No step
moves it back or behind its bound, not even a step that fails; and what a step
fails with is a rejection of the text, at a place that the step had reached. So
a run may go on after any failure.
-/

namespace ImageReference

variable {α β : Type}

namespace Cursor

variable {c : Cursor}

/-- What reading at a cursor may come to: the cursor moves forward, no further than to its bound,
and a failure is a rejection of the text between its place and its bound. -/
structure Advances (c : Cursor) (outcome : Except Fault α × Cursor) : Prop where
  source_eq : outcome.2.source = c.source
  stop_eq : outcome.2.stop = c.stop
  forward : c.offset ≤ outcome.2.offset
  bounded : outcome.2.offset ≤ c.stop
  rejects : ∀ fault, outcome.1 = .error fault →
    ∃ e : Rejection, fault = .rejected e ∧ c.offset ≤ e.offset ∧ e.offset ≤ c.stop

namespace Advances

variable {outcome : Except Fault α × Cursor}

theorem map (h : c.Advances outcome) (value : α → β) :
    c.Advances (outcome.1.map value, outcome.2) := by
  refine ⟨h.source_eq, h.stop_eq, h.forward, h.bounded, fun fault hfault => ?_⟩
  apply h.rejects
  cases hfound : outcome.1 with
  | ok found =>
    rw [hfound] at hfault
    cases hfault
  | error other =>
    rw [hfound] at hfault
    cases hfault
    rfl

theorem within (hc : c.Within) (h : c.Advances outcome) : outcome.2.Within := by
  obtain ⟨hnonneg, -, hbounded⟩ := hc
  refine ⟨?_, ?_, ?_⟩
  · exact Int.le_trans hnonneg h.forward
  · rw [h.stop_eq]
    exact h.bounded
  · rw [h.stop_eq, h.source_eq]
    exact hbounded

theorem moved {offset : Int} (hforward : c.offset ≤ offset) (hbounded : offset ≤ c.stop)
    (value : α) : c.Advances (.ok value, { c with offset }) :=
  ⟨rfl, rfl, hforward, hbounded, fun _ hfault => by cases hfault⟩

theorem of_later {offset : Int} (hoffset : c.offset ≤ offset)
    (h : { c with offset }.Advances outcome) : c.Advances outcome := by
  refine ⟨h.source_eq, h.stop_eq, Int.le_trans hoffset h.forward, h.bounded, fun fault hfault => ?_⟩
  obtain ⟨e, rfl, hlow, hhigh⟩ := h.rejects fault hfault
  exact ⟨e, rfl, Int.le_trans hoffset hlow, hhigh⟩

end Advances

namespace Within

variable (h : c.Within)
include h

theorem advances_stay (value : α) : c.Advances (.ok value, c) :=
  .moved (Int.le_refl _) h.ordered value

theorem advances_error {e : Rejection} (hforward : c.offset ≤ e.offset)
    (hbounded : e.offset ≤ c.stop) :
    c.Advances ((.error (.rejected e), c) : Except Fault α × Cursor) := by
  refine ⟨rfl, rfl, Int.le_refl _, h.ordered, fun fault hfault => ?_⟩
  cases hfault
  exact ⟨e, rfl, hforward, hbounded⟩

theorem peekAt_ok {ahead : Int} (hahead : 0 ≤ ahead) : ∃ found, c.peekAt ahead = .ok found := by
  obtain ⟨hnonneg, hordered, hbounded⟩ := h
  rw [peekAt]
  by_cases hend : c.stop ≤ c.offset + ahead
  · exact ⟨none, if_pos hend⟩
  · have hplace : (c.offset + ahead).toNat < c.source.length := by omega
    rw [if_neg hend, charAt?, if_pos (by omega), List.getElem?_eq_getElem hplace]
    exact ⟨_, rfl⟩

theorem advances_peekAt {ahead : Int} (hahead : 0 ≤ ahead) : c.Advances (c.peekAt ahead, c) := by
  obtain ⟨found, hfound⟩ := h.peekAt_ok hahead
  rw [hfound]
  exact h.advances_stay found

theorem advances_test (p : CharClass) : c.Advances (c.test p, c) := by
  obtain ⟨found, hfound⟩ := h.peekAt_ok (Int.le_refl 0)
  rw [test, peek, hfound]
  exact h.advances_stay (found.any p)

theorem limited_window (limit : Option Int) :
    (c.limited limit).isTorn = false ∧ (c.limited limit).window.length ≤ c.stop - c.offset := by
  cases limit with
  | none => exact ⟨h.isTorn_eq, Int.le_of_eq h.length_window⟩
  | some limit =>
    obtain ⟨hnonneg, hordered, hbounded⟩ := id h
    by_cases hlimit : 0 ≤ limit
    · have hwithin : (c.limited (some limit)).Within := by
        refine ⟨hnonneg, ?_, ?_⟩
        · simp only [limited]
          omega
        · simp only [limited]
          omega
      refine ⟨hwithin.isTorn_eq, ?_⟩
      rw [hwithin.length_window]
      simp only [limited]
      omega
    · -- The bound lies in front of the cursor, and nothing is read.
      have hempty : (c.limited (some limit)).window = [] := by
        have hzero : (min c.stop (c.offset + limit) - c.offset).toNat = 0 := by omega
        simp only [window, limited, readBetween, if_pos hnonneg, hzero, List.take_zero]
      have hnegative : (c.limited (some limit)).remaining < 0 := by
        simp only [remaining, limited]
        omega
      rw [isTorn, hempty, List.length_nil]
      exact ⟨decide_eq_false (by omega), by omega⟩

theorem runLength_ok (p : CharClass) (limit : Option Int) :
    ∃ length : Nat, c.runLength p limit = .ok length ∧ c.offset + length ≤ c.stop := by
  obtain ⟨htorn, hlength⟩ := h.limited_window limit
  have hprefix : (c.limited limit).window.takeWhile p <+: (c.limited limit).window :=
    List.takeWhile_prefix p
  have hrun := hprefix.length_le
  refine ⟨((c.limited limit).window.takeWhile p).length, ?_, by omega⟩
  simp [runLength, htorn]

theorem advances_runLength (p : CharClass) : c.Advances (c.runLength p, c) := by
  obtain ⟨length, hlength, -⟩ := h.runLength_ok p none
  rw [hlength]
  exact h.advances_stay length

theorem advances_captureWhile (p : CharClass) (limit : Option Int) :
    c.Advances (c.captureWhile p limit) := by
  obtain ⟨length, hlength, hbounded⟩ := h.runLength_ok p limit
  rw [captureWhile, hlength]
  exact .moved (by omega) hbounded length

theorem advances_run [Shift α] {scan : Scan α} (hscan : ∀ text, Lies 0 text (scan text)) :
    c.Advances (c.run scan) := by
  have hlies := hscan c.window
  have hlength := h.length_window
  have hplain := plainLength_le c.window
  rw [h.run_eq]
  cases hfound : scan c.window with
  | ok found =>
    rw [hfound, Lies.ok_iff] at hlies
    exact .moved (by omega) (by omega) _
  | error failure =>
    rw [hfound, Lies.error_iff] at hlies
    refine ⟨rfl, rfl, ?_, ?_, fun fault hfault => ?_⟩
    · simp only [settle]
      omega
    · simp only [settle]
      omega
    · cases hfault
      refine ⟨_, rfl, ?_, ?_⟩
      · change c.offset ≤ failure.offset + c.offset
        omega
      · change failure.offset + c.offset ≤ c.stop
        omega

theorem advances_parseHost : c.Advances c.parseHost := by
  rw [h.parseHost_eq]
  exact h.advances_run Host.scan_lies

theorem advances_parseNameBehind (domain : Option Host) :
    c.Advances (c.parseNameBehind domain) := by
  have hpath : c.Advances c.parsePath := h.advances_run Path.scan_lies
  rw [parseNameBehind]
  generalize c.parsePath = outcome at hpath ⊢
  obtain ⟨_ | path, moved⟩ := outcome
  · exact hpath.map fun path => Name.mk domain path
  · exact hpath.map fun path => Name.mk domain path

theorem advances_parseDomainAlone : c.Advances c.parseDomainAlone := by
  have hhost := h.advances_parseHost
  rw [parseDomainAlone]
  cases hfound : c.parseHost.1 with
  | ok host => exact h.advances_error h.ordered (Int.le_refl _)
  | error fault =>
    obtain ⟨e, rfl, hlow, hhigh⟩ := hhost.rejects fault hfound
    exact h.advances_error hlow hhigh

theorem advances_parseDomainPath {slash : Int} (hfront : c.offset ≤ slash)
    (hback : slash < c.stop) :
    c.Advances (c.parseDomainPath slash) := by
  obtain ⟨hnonneg, hordered, hbounded⟩ := id h
  have hsegment : Within { c with stop := slash } := ⟨hnonneg, hfront, by simp only; omega⟩
  have hbehind : Within { c with offset := slash + 1 } := ⟨by simp only; omega, hback, hbounded⟩
  have hhost := hsegment.advances_parseHost
  rw [parseDomainPath]
  cases hfound : (parseHost { c with stop := slash }).1 with
  | ok host =>
    apply Advances.of_later (by omega : c.offset ≤ slash + 1)
    exact hbehind.advances_parseNameBehind _
  | error fault =>
    obtain ⟨e, rfl, hlow, hhigh⟩ := hhost.rejects fault hfound
    exact h.advances_error hlow (Int.le_of_lt (Int.lt_of_le_of_lt hhigh hback))

theorem advances_parseName : c.Advances c.parseName := by
  rw [h.parseName_eq]
  cases SegmentKind.ofSource c.source c.offset with
  | path => exact h.advances_parseNameBehind none
  | domain =>
    rw [parseNameAs]
    cases hslash : c.window.idxOf? '/' with
    | none => exact h.advances_parseDomainAlone
    | some i =>
      have hlength := h.length_window
      obtain ⟨hlt, -, -⟩ := List.idxOf?_eq_some_iff.mp hslash
      exact h.advances_parseDomainPath (by omega) (by omega)

end Within

end Cursor

namespace Step

def Forward : Step → Prop
  | .peekAt ahead => 0 ≤ ahead
  | .advance count => 0 ≤ count
  | .seek _ => False
  | _ => True

def Looks : Step → Prop
  | .advance _ | .captureWhile _ _ | .seek _ => False
  | .parseHost | .parsePath | .parseName | .parseTag | .parseDigest _ => False
  | _ => True

theorem Looks.apply_eq {step : Step} (h : step.Looks) (c : Cursor) : (step.apply c).2 = c := by
  cases step with
  | peek | peekAt | remaining | atEnd | stop | test | runLength | spanFrom | textFrom => rfl
  | advance | captureWhile | seek | parseHost | parsePath | parseName | parseTag | parseDigest =>
    exact h.elim

theorem advances {c : Cursor} (hc : c.Within) {step : Step} (h : step.Forward) :
    c.Advances (step.apply c) := by
  cases step with
  | peek => exact (hc.advances_peekAt (Int.le_refl 0)).map _
  | peekAt ahead => exact (hc.advances_peekAt h).map _
  | advance count =>
    have hcount : 0 ≤ count := h
    have hordered := hc.ordered
    exact .moved (by omega) (by omega) _
  | remaining | atEnd | stop | spanFrom | textFrom => exact hc.advances_stay _
  | test p => exact (hc.advances_test p).map _
  | runLength p => exact (hc.advances_runLength p).map _
  | captureWhile p limit => exact (hc.advances_captureWhile p limit).map _
  | seek offset => exact h.elim
  | parseHost =>
    rw [apply, Reading.host_eq hc]
    exact hc.advances_parseHost.map _
  | parsePath =>
    rw [apply, Reading.path_eq hc]
    exact (hc.advances_run Path.scan_lies).map _
  | parseName => exact hc.advances_parseName.map _
  | parseTag =>
    rw [apply, Reading.tag_eq hc]
    exact (hc.advances_run Tag.scan_lies).map _
  | parseDigest standard =>
    rw [apply, Reading.digest_eq hc]
    exact (hc.advances_run (Digest.scan_lies standard)).map _

end Step

/-- One step of a run: the cursor in front of it, what came of it and the cursor behind it. -/
structure Turn where
  step : Step
  before : Cursor
  found : Except Fault StepValue
  after : Cursor

namespace Turn

def take (c : Cursor) (step : Step) : Turn :=
  let outcome := step.apply c
  ⟨step, c, outcome.1, outcome.2⟩

def run (c : Cursor) : List Step → List Turn
  | [] => []
  | step :: rest =>
      let turn := take c step
      turn :: run turn.after rest

/-- A turn of a run that started at a cursor: source and bound are still those of the start, the
cursor has not moved back nor behind the bound, and has not moved at all if it only looked. -/
structure Safe (start : Cursor) (turn : Turn) : Prop where
  source_eq : turn.before.source = start.source
  stop_eq : turn.before.stop = start.stop
  advances : turn.before.Advances (turn.found, turn.after)
  looks : turn.step.Looks → turn.after.offset = turn.before.offset

theorem take_safe {c : Cursor} (h : c.Within) {step : Step} (hstep : step.Forward) :
    (take c step).Safe c :=
  ⟨rfl, rfl, Step.advances h hstep, fun hlooks => congrArg Cursor.offset (hlooks.apply_eq c)⟩

theorem Safe.of_start {start other : Cursor} {turn : Turn} (hsource : other.source = start.source)
    (hstop : other.stop = start.stop) (h : turn.Safe other) : turn.Safe start :=
  ⟨h.source_eq.trans hsource, h.stop_eq.trans hstop, h.advances, h.looks⟩

/-- Every step of a run is taken, and every turn of it is safe. -/
theorem run_safe {c : Cursor} (h : c.Within) {steps : List Step}
    (hsteps : ∀ step ∈ steps, step.Forward) :
    (run c steps).map Turn.step = steps ∧ ∀ turn ∈ run c steps, turn.Safe c := by
  induction steps generalizing c with
  | nil => exact ⟨rfl, by simp [run]⟩
  | cons step rest ih =>
    have hsafe : (take c step).Safe c := take_safe h (hsteps step (by simp))
    have hafter : (take c step).after.Within := hsafe.advances.within h
    obtain ⟨htaken, hrest⟩ := ih hafter fun other hother => hsteps other (by simp [hother])
    refine ⟨congrArg (step :: ·) htaken, fun turn hturn => ?_⟩
    rcases List.mem_cons.mp hturn with rfl | hturn
    · exact hsafe
    · exact (hrest turn hturn).of_start hsafe.advances.source_eq hsafe.advances.stop_eq

/-- A run that goes on behind a path and a digest that fail. -/
theorem run_safe_dots :
    let c := Cursor.ofText "a..b:x".toList
    let steps := [.parsePath, .peek, .advance 1, .captureWhile CharClass.word (some (-1)), .parseTag,
      .parseDigest .oci, .parseName]
    c.Within ∧ (∀ step ∈ steps, Step.Forward step) ∧
      (run c steps).map (fun turn => (turn.found.isOk, turn.after.offset)) =
        [(false, 2), (true, 2), (true, 3), (true, 3), (true, 4), (false, 4), (false, 4)] ∧
      (run c steps).map Turn.step = steps ∧ ∀ turn ∈ run c steps, turn.Safe c := by
  intro c steps
  have hwithin : c.Within := Cursor.within_ofText _
  have hforward : ∀ step ∈ steps, Step.Forward step := by
    simp [steps, Step.Forward]
  exact ⟨hwithin, hforward, by decide, run_safe hwithin hforward⟩

end Turn

end ImageReference
