import ImageReference.Proofs.CharClass
import ImageReference.Proofs.Outcome

/-!
# Scanning tags

The scan takes one character more than a tag may have, so that it fails at the
first character that makes the tag too long.
-/

namespace ImageReference.Tag

variable {c : Char} {text run rest front : Text}

theorem cons_mem_tag : c :: run ∈ Grammar.tag ↔
    CharClass.word c = true ∧ run.length ≤ 127 ∧ ∀ d ∈ run, CharClass.tag d = true := by
  constructor
  · intro h
    obtain ⟨a, ⟨d, hd, rfl⟩, b, ⟨hlength, hb⟩, he⟩ := Language.mem_mul.mp h
    obtain ⟨rfl, rfl⟩ := List.cons.inj he
    exact ⟨hd, hlength, hb⟩
  · intro h
    have hfirst : [c] ∈ Grammar.one CharClass.word := ⟨c, h.1, rfl⟩
    exact Language.append_mem_mul hfirst h.2

theorem nil_notMem_tag : [] ∉ Grammar.tag := by
  intro h
  obtain ⟨a, ⟨d, -, rfl⟩, b, -, he⟩ := Language.mem_mul.mp h
  cases he

theorem viable_cons (h : Viable Grammar.tag (c :: run)) :
    CharClass.word c = true ∧ run.length ≤ 127 ∧ ∀ d ∈ run, CharClass.tag d = true := by
  obtain ⟨more, hmore⟩ := h
  rw [List.cons_append, cons_mem_tag] at hmore
  obtain ⟨hc, hlength, hrun⟩ := hmore
  refine ⟨hc, ?_, fun d hd => hrun d (List.mem_append_left _ hd)⟩
  rw [List.length_append] at hlength
  omega

theorem at_notMem (h : run ∈ Grammar.tag) : '@' ∉ run := by
  intro hmem
  cases run with
  | nil => cases hmem
  | cons c run =>
    obtain ⟨hc, -, hrun⟩ := cons_mem_tag.mp h
    refine CharClass.ne_at_of_tag ?_ rfl
    rcases List.mem_cons.mp hmem with rfl | hmem
    · exact CharClass.tag_of_word hc
    · exact hrun '@' hmem

theorem viable_nil : Viable Grammar.tag [] := ⟨['a'], cons_mem_tag.mpr ⟨rfl, by simp, by simp⟩⟩

theorem scan_run (hc : CharClass.word c = true) (hrun : ∀ d ∈ run, CharClass.tag d = true)
    (hrest : ∀ d ∈ rest.head?, CharClass.tag d = false) :
    scan (c :: (run ++ rest)) =
      let length := min (maxLength + 1) (run.length + 1)
      if maxLength < length then
        .error { kind := .tagInvalidFormat, offset := maxLength, halted := length, reach := length }
      else .ok ⟨⟨0, length⟩, length⟩ := by
  have hall : ∀ d ∈ c :: run, CharClass.tag d = true := by
    simpa [CharClass.tag_of_word hc] using hrun
  have htake := takeWhile_take_run hall hrest (maxLength + 1)
  rw [List.cons_append] at htake
  simp only [scan, List.head?_cons, Option.any_some, hc, if_true, htake, List.length_take,
    List.length_cons]

theorem scan_not_word (h : ∀ c ∈ text.head?, CharClass.word c = false) :
    scan text = .error { kind := .tagInvalidFormat, offset := 0 } := by
  cases text with
  | nil => rfl
  | cons c rest => simp [scan, h c rfl]

theorem halt_not_word (h : ∀ c ∈ text.head?, CharClass.word c = false) :
    Halt Grammar.tag CharClass.tag [] text := by
  refine ⟨⟨viable_nil, fun c hc hviable => ?_⟩, fun hnil => absurd hnil nil_notMem_tag⟩
  have hfalse := h c hc
  rw [(viable_cons hviable).1] at hfalse
  cases hfalse

/-- A tag of 128 characters is complete, and spoiled by one more of its kind. -/
theorem halt_long {d : Char} (hc : CharClass.word c = true)
    (hrun : ∀ e ∈ run, CharClass.tag e = true) (hlength : run.length = 127)
    (hd : CharClass.tag d = true) : Halt Grammar.tag CharClass.tag (c :: run) (d :: rest) := by
  have htag : c :: run ∈ Grammar.tag := cons_mem_tag.mpr ⟨hc, by omega, hrun⟩
  have hstuck : ¬ Viable Grammar.tag (c :: run ++ [d]) := by
    intro hviable
    have hmore : (run ++ [d]).length ≤ 127 := (viable_cons hviable).2.1
    rw [List.length_append, List.length_singleton] at hmore
    omega
  exact ⟨.of_cons (.of_mem htag) hstuck, fun _ => ⟨d, rfl, hd⟩⟩

theorem cut_run (htag : c :: run ∈ Grammar.tag)
    (hrest : ∀ d ∈ rest.head?, CharClass.tag d = false) : Cut Grammar.tag (c :: run) rest := by
  refine ⟨.of_mem htag, fun d hd hviable => ?_⟩
  have hfalse := hrest d hd
  rw [(viable_cons hviable).2.2 d (by simp)] at hfalse
  cases hfalse

theorem scan_outcome (text : Text) :
    Outcome Grammar.tag CharClass.tag (Spans Grammar.tag)
      (fun _ _ kind => kind = .tagInvalidFormat) 0 text (scan text) := by
  have hmax : maxLength = 128 := rfl
  by_cases hword : ∀ c ∈ text.head?, CharClass.word c = false
  · rw [scan_not_word hword]
    exact .error rfl (halt_not_word hword) rfl rfl
  · obtain ⟨c, tail, rfl, hc⟩ : ∃ c tail, text = c :: tail ∧ CharClass.word c = true := by
      cases text <;> simp_all
    obtain ⟨run, rest, rfl, hrun, hrest⟩ := exists_run CharClass.tag tail
    rw [scan_run hc hrun hrest]
    dsimp only
    by_cases hlong : maxLength ≤ run.length
    · obtain ⟨shown, d, after, rfl, hshown⟩ :
          ∃ shown d after, run = shown ++ d :: after ∧ shown.length = 127 := by
        have hlength : 127 < run.length := by omega
        refine ⟨run.take 127, run[127], run.drop 128, ?_, by rw [List.length_take]; omega⟩
        rw [List.getElem_cons_drop, List.take_append_drop]
      have hfirst : ∀ e ∈ shown, CharClass.tag e = true :=
        fun e he => hrun e (List.mem_append_left _ he)
      rw [if_pos (by omega)]
      refine .error (show _ = c :: shown ++ d :: (after ++ rest) by simp)
        (halt_long hc hfirst hshown (hrun d (by simp))) ?_ rfl
      simp only [List.length_cons, hshown, hmax]
      rfl
    · have htag : c :: run ∈ Grammar.tag := cons_mem_tag.mpr ⟨hc, by omega, hrun⟩
      rw [if_neg (by omega), Nat.min_eq_right (by omega)]
      exact .ok rfl htag (cut_run htag hrest) (by simp) ⟨htag, rfl⟩

end ImageReference.Tag
