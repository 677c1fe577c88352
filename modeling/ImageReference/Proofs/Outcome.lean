import ImageReference.Proofs.Grammar
import ImageReference.Proofs.Viable
import ImageReference.Reference

/-!
# How scans end

A scan for a language ends behind the longest viable front part of its text. It
succeeds there with a value that holds of the front part, or it fails there. A
scan behind a mark is a scan for the optional mark with what follows it, and a
scan followed by another one is a scan for the product.
-/

namespace ImageReference

/-- A complete front part can still be refused, for a character behind it that spoils the text;
the kind of a failure is reported by the front part and the character behind it. -/
inductive Outcome {α : Type} (L : Language Char) (spoils : CharClass)
    (Holds : Int → Text → α → Prop) (Reports : Text → Option Char → RejectionKind → Prop)
    (start : Int) (text : Text) : Except Failure (Scanned α) → Prop
  | ok {front rest : Text} {found : Scanned α} (split : text = front ++ rest) (complete : front ∈ L)
      (cut : Cut L front rest) (stop : found.stop = start + front.length)
      (holds : Holds start front found.value) :
      Outcome L spoils Holds Reports start text (.ok found)
  | error {front rest : Text} {failure : Failure} (split : text = front ++ rest)
      (halt : Halt L spoils front rest) (offset : failure.offset = start + front.length)
      (reports : Reports front rest.head? failure.kind) :
      Outcome L spoils Holds Reports start text (.error failure)

variable {α : Type} {L M : Language Char} {spoils : CharClass} {Holds : Int → Text → α → Prop}
  {Reports : Text → Option Char → RejectionKind → Prop} {start : Int} {text front rest : Text}

namespace Outcome

variable {result : Except Failure (Scanned α)}

theorem ok_of_mem (h : Outcome L spoils Holds Reports start (front ++ rest) result)
    (hfront : front ∈ L) (hcut : Cut L front rest) (hspoils : ∀ c ∈ rest.head?, spoils c = false) :
    ∃ found, result = .ok found ∧ found.stop = start + front.length ∧
      Holds start front found.value := by
  cases h with
  | ok split _ cut stop holds =>
    obtain ⟨rfl, rfl⟩ := hcut.unique cut split
    exact ⟨_, rfl, stop, holds⟩
  | error split halt =>
    obtain ⟨rfl, rfl⟩ := hcut.unique halt.toCut split
    obtain ⟨c, hc, hspoil⟩ := halt.spoiled hfront
    simp [hspoils c hc] at hspoil

theorem shifted [Shift α] (h : Outcome L spoils Holds Reports start text result) (n : Int)
    (hshift : ∀ front value, Holds start front value → Holds (start + n) front (shift n value)) :
    Outcome L spoils Holds Reports (start + n) text (shift n result) := by
  cases h with
  | ok split complete cut stop holds =>
    refine .ok split complete cut ?_ (hshift _ _ holds)
    change _ + n = _
    omega
  | error split halt offset reports =>
    refine .error split halt ?_ reports
    change _ + n = _
    omega

theorem stop_le {found : Scanned α}
    (h : Outcome L spoils Holds Reports start text (.ok found)) :
    found.stop ≤ start + text.length := by
  cases h with
  | ok split complete cut stop holds =>
    rw [split, List.length_append]
    omega

theorem with_mem (h : Outcome L spoils Holds Reports start text result) :
    Outcome L spoils (fun start front value => front ∈ L ∧ Holds start front value) Reports start
      text result := by
  cases h with
  | ok split complete cut stop holds => exact .ok split complete cut stop ⟨complete, holds⟩
  | error split halt offset reports => exact .error split halt offset reports

theorem mono {Holds' : Int → Text → α → Prop}
    (h : Outcome L spoils Holds Reports start text result)
    (hholds : ∀ front value, Holds start front value → Holds' start front value) :
    Outcome L spoils Holds' Reports start text result := by
  cases h with
  | ok split complete cut stop holds => exact .ok split complete cut stop (hholds _ _ holds)
  | error split halt offset reports => exact .error split halt offset reports

theorem map {β : Type} {Holds' : Int → Text → β → Prop} {f : α → β}
    (h : Outcome L spoils Holds Reports start text result)
    (hholds : ∀ front value, Holds start front value → Holds' start front (f value)) :
    Outcome L spoils Holds' Reports start text (result.map (Scanned.map f)) := by
  cases h with
  | ok split complete cut stop holds => exact .ok split complete cut stop (hholds _ _ holds)
  | error split halt offset reports => exact .error split halt offset reports

theorem behind {before : Text}
    (h : Outcome L spoils Holds (fun front => Reports (before ++ front)) (start + before.length)
      text result) :
    Outcome ({before} * L) spoils
      (fun start front value => ∃ tail, front = before ++ tail ∧
        Holds (start + before.length) tail value) Reports start (before ++ text) result := by
  cases h with
  | @ok front rest found split complete cut stop holds =>
    refine .ok (by rw [split, List.append_assoc]) (mem_singleton_mul.mpr complete)
      cut.singleton_mul ?_ ⟨front, rfl, holds⟩
    rw [stop, List.length_append, Int.natCast_add, Int.add_assoc]
  | @error front rest failure split halt offset reports =>
    refine .error (show _ = before ++ front ++ rest by rw [split, List.append_assoc])
      halt.singleton_mul ?_ reports
    rw [offset, List.length_append, Int.natCast_add, Int.add_assoc]

theorem bind {β : Type} {Whole : Int → Text → β → Prop} {mark after : CharClass}
    {Tells : Text → Option Char → RejectionKind → Prop}
    {next : Scanned α → Except Failure (Scanned β)}
    (h : Outcome L spoils Holds Reports start text result) (hparted : Parted L M mark)
    (hM : Viable M []) (hspoils : ∀ c, spoils c = true → mark c = false ∧ after c = true)
    (hreports : ∀ front c kind, Viable L front → Reports front c kind → Tells front c kind)
    (hnext : ∀ front rest found, result = .ok found → text = front ++ rest →
      found.stop = start + front.length → Holds start front found.value →
        Outcome M after (fun _ back => Whole start (front ++ back))
          (fun back => Tells (front ++ back)) (start + front.length) rest (next found)) :
    Outcome (L * M) after Whole Tells start text (result >>= next) := by
  cases h with
  | error split halt offset reports =>
    have hhalt := hparted.halt_mul hM (fun c hc => (hspoils c hc).1) halt
    refine .error split ⟨hhalt.toCut, fun hfront => ?_⟩ offset (hreports _ _ _ halt.viable reports)
    obtain ⟨c, hc, hspoil⟩ := hhalt.spoiled hfront
    exact ⟨c, hc, (hspoils c hspoil).2⟩
  | @ok front rest found split complete cut stop holds =>
    change Outcome (L * M) after Whole Tells start text (next found)
    have hsecond := hnext front rest found rfl split stop holds
    generalize next found = second at hsecond ⊢
    cases hsecond with
    | @ok back rest last split' complete' cut' stop' holds' =>
      have hmem : front ++ back ∈ L * M := Language.append_mem_mul complete complete'
      refine .ok (by rw [split, split', List.append_assoc]) hmem
        (hparted.cut_mul complete (split' ▸ cut) cut') ?_ holds'
      rw [stop', List.length_append, Int.natCast_add, Int.add_assoc]
    | @error back rest failure split' halt' offset' reports' =>
      refine .error (by rw [split, split', List.append_assoc])
        (hparted.halt_mul_of_mem complete (split' ▸ cut) halt') ?_ reports'
      rw [offset', List.length_append, Int.natCast_add, Int.add_assoc]

theorem ended {β : Type} {Whole : Int → Text → β → Prop} {f : α → β} {kind : RejectionKind}
    {Tells : Text → Option Char → RejectionKind → Prop} {stop : Int}
    (h : Outcome L spoils Holds Reports start text result) (hstop : stop = start + text.length)
    (hreports : ∀ front c kind, Reports front c kind → Tells front c kind)
    (hmore : ∀ front c rest value, text = front ++ c :: rest → Holds start front value →
      Tells front (some c) kind)
    (hholds : ∀ value, Holds start text value → Whole start text (f value)) :
    Outcome L (fun _ => true) Whole Tells start text (do
      let found ← result
      if found.stop < stop then .error { kind, offset := found.stop }
      else return ⟨f found.value, found.stop⟩) := by
  cases h with
  | @error front rest failure split halt offset reports =>
    refine .error split ⟨halt.toCut, fun hfront => ?_⟩ offset (hreports _ _ _ reports)
    obtain ⟨c, hc, -⟩ := halt.spoiled hfront
    exact ⟨c, hc, rfl⟩
  | @ok front rest found split complete cut last holds =>
    change Outcome L _ Whole Tells start text (if found.stop < stop then _ else .ok _)
    subst split
    cases rest with
    | nil =>
      rw [List.append_nil] at hstop hholds ⊢
      rw [if_neg (by omega)]
      exact .ok (List.append_nil front).symm complete cut last (hholds _ holds)
    | cons c rest =>
      rw [List.length_append, List.length_cons] at hstop
      rw [if_pos (by omega)]
      exact .error rfl ⟨cut, fun _ => ⟨c, rfl, rfl⟩⟩ last (hmore front c rest _ rfl holds)

end Outcome

theorem map_eq_ok {β ε : Type} {f : α → β} {result : Except ε α} {value : β}
    (h : result.map f = .ok value) : ∃ found, result = .ok found ∧ f found = value := by
  cases result with
  | ok found => exact ⟨found, rfl, Except.ok.inj h⟩
  | error e => cases h

theorem bind_eq_ok {β ε : Type} {f : α → Except ε β} {result : Except ε α} {value : β}
    (h : (result >>= f) = .ok value) : ∃ found, result = .ok found ∧ f found = .ok value := by
  cases result with
  | ok found => exact ⟨found, rfl, h⟩
  | error e => cases h

theorem bind_scanned {β : Type} (f : α → β) (result : Except Failure (Scanned α)) :
    (do let found ← result; return ⟨f found.value, found.stop⟩) = result.map (Scanned.map f) := by
  cases result <;> rfl

def ending : Except Failure (Scanned α) → Except Rejection Int
  | .ok found => .ok found.stop
  | .error failure => .error failure.rejection

@[simp] theorem ending_map {β : Type} (f : α → β) (result : Except Failure (Scanned α)) :
    ending (result.map (Scanned.map f)) = ending result := by
  cases result <;> rfl

def Spans (L : Language Char) (start : Int) (front : Text) (span : Span) : Prop :=
  front ∈ L ∧ span = ⟨start, front.length⟩

theorem Spans.shift {span : Span} (n : Int) (h : Spans L start front span) :
    Spans L (start + n) front (shift n span) := by
  obtain ⟨hmem, rfl⟩ := h
  exact ⟨hmem, rfl⟩

namespace Scan

variable [Shift α] {scan : Scan α}

theorem behind_eq_ok {place : Int} {found : Scanned α} (h : scan.behind place text = .ok found) :
    ∃ inner, scan (text.drop place.toNat) = .ok inner ∧ found = shift place inner := by
  rw [behind] at h
  cases hscan : scan (text.drop place.toNat) with
  | ok inner =>
    rw [hscan] at h
    cases h
    exact ⟨inner, rfl, rfl⟩
  | error failure =>
    rw [hscan] at h
    cases h

theorem behind_outcome (hscan : ∀ text, Outcome L spoils Holds Reports 0 text (scan text))
    (hshift : ∀ n start front value, Holds start front value →
      Holds (start + n) front (shift n value)) (before text : Text) :
    Outcome L spoils Holds Reports before.length text
      (scan.behind before.length (before ++ text)) := by
  have h := (hscan text).shifted before.length (hshift _ _)
  simpa [behind] using h

end Scan

section Marked

variable {mark : Char}

theorem mem_marked_cons : mark :: front ∈ Grammar.optional ({[mark]} * L) ↔ front ∈ L := by
  rw [Grammar.optional, Language.mem_add, Language.mem_one]
  have hmul : [mark] ++ front ∈ {[mark]} * L ↔ front ∈ L := mem_singleton_mul
  simpa using hmul

theorem nil_mem_marked : [] ∈ Grammar.optional ({[mark]} * L) := Or.inl rfl

theorem head_of_mem_marked {c : Char} (h : c :: front ∈ Grammar.optional ({[mark]} * L)) :
    c = mark := by
  rw [Grammar.optional, Language.mem_add, Language.mem_one] at h
  obtain ⟨a, rfl, b, -, he⟩ := Language.mem_mul.mp (h.resolve_left (by simp))
  exact (List.cons.inj he).1.symm

theorem viable_marked_nil : Viable (Grammar.optional ({[mark]} * L)) [] := .of_mem nil_mem_marked

theorem viable_marked_cons :
    Viable (Grammar.optional ({[mark]} * L)) (mark :: front) ↔ Viable L front := by
  simp only [Viable, List.cons_append, mem_marked_cons]

theorem Cut.marked (h : Cut L front rest) :
    Cut (Grammar.optional ({[mark]} * L)) (mark :: front) rest := by
  refine ⟨viable_marked_cons.mpr h.viable, fun c hc hv => h.stuck c hc ?_⟩
  exact viable_marked_cons.mp hv

theorem Cut.marked_nil (h : rest.head? ≠ some mark) :
    Cut (Grammar.optional ({[mark]} * L)) [] rest := by
  refine ⟨viable_marked_nil, fun c hc hv => ?_⟩
  obtain ⟨tail, htail⟩ := hv
  obtain rfl := head_of_mem_marked htail
  exact h hc

theorem Halt.marked (h : Halt L spoils front rest) :
    Halt (Grammar.optional ({[mark]} * L)) spoils (mark :: front) rest :=
  ⟨h.toCut.marked, fun hmem => h.spoiled (mem_marked_cons.mp hmem)⟩

def MarkedHolds (mark : Char) (Holds : Int → Text → α → Prop) (start : Int) (front : Text) :
    Option α → Prop
  | none => front = []
  | some value => ∃ tail, front = mark :: tail ∧ Holds (start + 1) tail value

def MarkedReports (mark : Char) (Reports : Text → Option Char → RejectionKind → Prop)
    (front : Text) (next : Option Char) (kind : RejectionKind) : Prop :=
  ∃ tail, front = mark :: tail ∧ Reports tail next kind

theorem MarkedHolds.mem {value : Option Span}
    (h : MarkedHolds mark (Spans L) start front value) :
    front ∈ Grammar.optional ({[mark]} * L) := by
  cases value with
  | none =>
    obtain rfl : front = [] := h
    exact nil_mem_marked
  | some value =>
    obtain ⟨tail, rfl, hmem, -⟩ := h
    exact mem_marked_cons.mpr hmem

theorem MarkedHolds.head {value : Option α} (h : MarkedHolds mark Holds start front value) :
    ∀ c ∈ front.head?, c = mark := by
  intro c hc
  cases value with
  | none =>
    obtain rfl : front = [] := h
    cases hc
  | some value =>
    obtain ⟨tail, rfl, -⟩ := h
    exact (Option.some_inj.mp hc).symm

theorem MarkedHolds.mono {Holds' : Int → Text → α → Prop} {value : Option α}
    (h : MarkedHolds mark Holds start front value)
    (hholds : ∀ start front value, Holds start front value → Holds' start front value) :
    MarkedHolds mark Holds' start front value := by
  cases value with
  | none => exact h
  | some value =>
    obtain ⟨tail, rfl, h⟩ := h
    exact ⟨tail, rfl, hholds _ _ _ h⟩

theorem MarkedHolds.shift [Shift α] {value : Option α} (n : Int)
    (h : MarkedHolds mark Holds start front value)
    (hshift : ∀ start front value, Holds start front value →
      Holds (start + n) front (shift n value)) :
    MarkedHolds mark Holds (start + n) front (shift n value) := by
  cases value with
  | none => exact h
  | some value =>
    obtain ⟨tail, rfl, h⟩ := h
    refine ⟨tail, rfl, ?_⟩
    rw [Int.add_right_comm]
    exact hshift _ _ _ h

theorem Outcome.marked {result : Except Failure (Scanned α)}
    (h : Outcome L spoils Holds Reports (start + 1) text result) :
    Outcome (Grammar.optional ({[mark]} * L)) spoils (MarkedHolds mark Holds)
      (MarkedReports mark Reports) start (mark :: text) (result.map (Scanned.map some)) := by
  cases h with
  | @ok front rest found split complete cut stop holds =>
    have hsplit : mark :: text = mark :: front ++ rest := by simp [split]
    refine .ok hsplit (mem_marked_cons.mpr complete) cut.marked ?_ ⟨front, rfl, holds⟩
    simp only [Scanned.map, stop, List.length_cons]
    omega
  | @error front rest failure split halt offset reports =>
    have hsplit : mark :: text = mark :: front ++ rest := by simp [split]
    refine .error hsplit halt.marked ?_ ⟨front, rfl, reports⟩
    simp only [offset, List.length_cons]
    omega

theorem Scan.marked_outcome [Shift α] {scan : Scan α} (mark : Char)
    (hscan : ∀ text, Outcome L spoils Holds Reports 0 text (scan text))
    (hshift : ∀ n start front value, Holds start front value →
      Holds (start + n) front (shift n value)) (before text : Text) :
    Outcome (Grammar.optional ({[mark]} * L)) spoils (MarkedHolds mark Holds)
      (MarkedReports mark Reports) before.length text
      (Scan.marked mark scan before.length (before ++ text)) := by
  by_cases hmark : text.head? = some mark
  · obtain ⟨tail, rfl⟩ := List.head?_eq_some_iff.mp hmark
    simp only [Scan.marked, Int.toNat_natCast, List.drop_left, hmark, if_true]
    have h := Scan.behind_outcome hscan hshift (before ++ [mark]) tail
    refine Outcome.marked ?_
    simpa using h
  · simp only [Scan.marked, Int.toNat_natCast, List.drop_left, hmark, if_false]
    exact .ok rfl nil_mem_marked (Cut.marked_nil hmark) (by simp) rfl

theorem Scan.marked_none [Shift α] {scan : Scan α} {place : Int}
    {found : Scanned (Option α)} (h : Scan.marked mark scan place text = .ok found)
    (hnone : found.value = none) : found.stop = place := by
  rw [Scan.marked] at h
  split at h
  · obtain ⟨inner, -, rfl⟩ := map_eq_ok h
    cases hnone
  · cases h
    rfl

theorem Scan.marked_behind [Shift α] (mark : Char) (scan : Scan α) (text more : Text) :
    Scan.marked mark scan text.length (text ++ mark :: more) =
      (shift (text.length + 1 : Int) (scan more)).map (Scanned.map some) := by
  have hdrop : (text ++ mark :: more).drop ((text.length : Int) + 1).toNat = more := by
    rw [show ((text.length : Int) + 1).toNat = text.length + 1 by omega,
      List.drop_length_add_append, List.drop_one, List.tail_cons]
  rw [Scan.marked, Int.toNat_natCast, List.drop_left, List.head?_cons, if_pos rfl, Scan.behind,
    hdrop]

end Marked

end ImageReference
