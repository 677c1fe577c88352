import ImageReference.Proofs.Grammar
import ImageReference.Proofs.Viable

/-!
# Reading from place to place

A reader moves from place to place, one character at a time, and refuses a
character where it has no next place. From a place it accepts the texts that
lead to a final one. If some text is accepted from every place, a text is viable
exactly where it can be read at all. A run that follows the reader ends as its
verdict says at the first character that the reader refuses.
-/

namespace ImageReference

structure Reader (σ : Type) where
  next : σ → Char → Option σ
  final : σ → Bool

namespace Reader

variable {σ : Type} {r : Reader σ} {place goal : σ} {front rest text : Text}

def walk (r : Reader σ) (place : σ) (text : Text) : Option σ := text.foldlM r.next place

@[simp] theorem walk_nil : r.walk place [] = some place := rfl

@[simp] theorem walk_cons {c : Char} :
    r.walk place (c :: rest) = (r.next place c).bind (r.walk · rest) := rfl

@[simp] theorem walk_append :
    r.walk place (front ++ rest) = (r.walk place front).bind (r.walk · rest) :=
  List.foldlM_append

theorem notMem_of_walk {c : Char} (h : r.walk place text = some goal)
    (hc : ∀ place, r.next place c = none) : c ∉ text := by
  induction text generalizing place with
  | nil => simp
  | cons d text ih =>
    obtain ⟨middle, hd, hmiddle⟩ := Option.bind_eq_some_iff.mp h
    rw [List.mem_cons, not_or]
    refine ⟨fun he => ?_, ih hmiddle⟩
    subst he
    exact Option.some_ne_none middle (hd.symm.trans (hc place))

theorem walk_preserves (keeps : σ → Prop)
    (hstep : ∀ place c goal, keeps place → r.next place c = some goal → keeps goal)
    (h : r.walk place text = some goal) (hplace : keeps place) : keeps goal := by
  induction text generalizing place with
  | nil => exact Option.some_inj.mp h ▸ hplace
  | cons c text ih =>
    obtain ⟨middle, hc, hmiddle⟩ := Option.bind_eq_some_iff.mp h
    exact ih hmiddle (hstep place c middle hplace hc)

def accepts (r : Reader σ) (place : σ) : Language Char :=
  {text | ∃ goal, r.walk place text = some goal ∧ r.final goal = true}

theorem mem_accepts (h : r.walk place text = some goal) :
    text ∈ r.accepts place ↔ r.final goal = true := by
  constructor
  · intro hmem
    obtain ⟨other, hother, hfinal⟩ := hmem
    rw [h] at hother
    cases hother
    exact hfinal
  · exact fun hfinal => ⟨goal, h, hfinal⟩

def Live (r : Reader σ) : Prop := ∀ place, Viable (r.accepts place) []

theorem Live.viable_iff (h : r.Live) :
    Viable (r.accepts place) front ↔ ∃ goal, r.walk place front = some goal := by
  constructor
  · intro hviable
    obtain ⟨rest, goal, hwalk, -⟩ := hviable
    rw [walk_append] at hwalk
    obtain ⟨middle, hmiddle, -⟩ := Option.bind_eq_some_iff.mp hwalk
    exact ⟨middle, hmiddle⟩
  · intro hwalk
    obtain ⟨middle, hmiddle⟩ := hwalk
    obtain ⟨rest, goal, hwalk, hfinal⟩ := h middle
    exact ⟨rest, goal, by simpa [hmiddle] using hwalk, hfinal⟩

theorem Live.cut (h : r.Live) (hwalk : r.walk place front = some goal)
    (hstuck : ∀ c ∈ rest.head?, r.next goal c = none) : Cut (r.accepts place) front rest := by
  refine ⟨h.viable_iff.mpr ⟨goal, hwalk⟩, fun c hc hviable => ?_⟩
  obtain ⟨other, hother⟩ := h.viable_iff.mp hviable
  simp [hwalk, hstuck c hc] at hother

theorem run_of_steps {κ β : Type} (run : κ → σ → Int → Text → β)
    (verdict : σ → Int → Option Char → β)
    (hstep : ∀ k place goal here c rest, r.next place c = some goal →
      ∃ k', run k place here (c :: rest) = run k' goal (here + 1) rest)
    (hstuck : ∀ k place here text, (∀ c ∈ text.head?, r.next place c = none) →
      run k place here text = verdict place here text.head?)
    (k : κ) (place : σ) (here : Int) (text : Text) :
    ∃ front rest goal, text = front ++ rest ∧ r.walk place front = some goal ∧
      (∀ c ∈ rest.head?, r.next goal c = none) ∧
      run k place here text = verdict goal (here + front.length) rest.head? := by
  induction text generalizing k place here with
  | nil =>
    refine ⟨[], [], place, rfl, rfl, by simp, ?_⟩
    change run k place here [] = verdict place (here + 0) none
    rw [Int.add_zero]
    exact hstuck k place here [] (by simp)
  | cons c text ih =>
    cases hc : r.next place c with
    | none =>
      have hnone : ∀ d ∈ (c :: text).head?, r.next place d = none := by simpa using hc
      exact ⟨[], c :: text, place, rfl, rfl, hnone, by simp [hstuck _ _ _ _ hnone]⟩
    | some middle =>
      obtain ⟨k', hrun⟩ := hstep k place middle here c text hc
      obtain ⟨front, rest, goal, rfl, hwalk, hnone, hend⟩ := ih k' middle (here + 1)
      refine ⟨c :: front, rest, goal, rfl, by simpa [hc] using hwalk, hnone, ?_⟩
      rw [hrun, hend, List.length_cons, show here + 1 + (front.length : Int) =
        here + ((front.length + 1 : Nat) : Int) by push_cast; omega]

section Joined

variable {item mark : Language Char}

theorem walk_joined (opens closes : σ → Prop)
    (hitem : ∀ place, opens place → ∀ a ∈ item, ∃ goal, r.walk place a = some goal ∧ closes goal)
    (hmark : ∀ place, closes place → ∀ m ∈ mark, ∃ goal, r.walk place m = some goal ∧ opens goal) :
    ∀ text ∈ Grammar.joined item mark, ∀ place, opens place →
      ∃ goal, r.walk place text = some goal ∧ closes goal := by
  apply Grammar.joined_induction
  · exact fun a ha place hplace => hitem place hplace a ha
  · intro a ha m hm b _ ih place hplace
    obtain ⟨behind, ha, hbehind⟩ := hitem place hplace a ha
    obtain ⟨there, hm, hthere⟩ := hmark behind hbehind m hm
    obtain ⟨goal, hb, hgoal⟩ := ih there hthere
    exact ⟨goal, by simp [ha, hm, hb], hgoal⟩

theorem mem_joined_of_walk (before : σ → Language Char)
    (hstep : ∀ place c goal, r.next place c = some goal → ∀ u ∈ before place,
      u ++ [c] ∈ before goal ∨
        ∃ w ∈ item, ∃ s ∈ mark, ∃ v ∈ before goal, u ++ [c] = w ++ s ++ v)
    (hfinal : ∀ place, r.final place = true → ∀ u ∈ before place, u ∈ item)
    (h : text ∈ r.accepts place) {u : Text} (hu : u ∈ before place) :
    u ++ text ∈ Grammar.joined item mark := by
  obtain ⟨goal, hwalk, hgoal⟩ := h
  induction text generalizing place u with
  | nil =>
    obtain rfl : place = goal := Option.some_inj.mp hwalk
    rw [List.append_nil]
    exact Grammar.mem_joined_of_mem (hfinal place hgoal u hu)
  | cons c text ih =>
    obtain ⟨middle, hc, hmiddle⟩ := Option.bind_eq_some_iff.mp hwalk
    rcases hstep place c middle hc u hu with hmore | ⟨w, hw, s, hs, v, hv, he⟩
    · simpa using ih hmore hmiddle
    · have hrest : u ++ c :: text = w ++ s ++ (v ++ text) := by
        rw [List.append_cons, he, List.append_assoc]
      rw [hrest]
      exact Grammar.cons_mem_joined hw hs (ih hv hmiddle)

end Joined

end Reader

end ImageReference
