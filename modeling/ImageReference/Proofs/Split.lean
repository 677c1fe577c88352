import ImageReference.Text.Span

/-!
# Lines and cells

Splitting a text at a class of characters and joining pieces with a mark are
splitting and intercalation of lists. A text of lines with a line feed behind
each one falls into the pieces of its lines.
-/

namespace ImageReference

variable {p : CharClass} {mark c : Char} {text piece : Text} {pieces : List Text}

theorem splitWhere_eq (p : CharClass) (text : Text) : splitWhere p text = text.splitOnP p := by
  induction text with
  | nil => exact List.splitOnP_nil.symm
  | cons c text ih =>
    rw [splitWhere, ih, List.splitOnP_cons_eq_if_modifyHead]
    split
    · rfl
    · cases hpieces : text.splitOnP p with
      | nil => exact absurd hpieces (List.splitOnP_ne_nil p text)
      | cons first more => rfl

theorem joinWith_eq (mark : Char) (pieces : List Text) :
    joinWith mark pieces = [mark].intercalate pieces := by
  induction pieces with
  | nil => rfl
  | cons first more ih =>
    cases more with
    | nil => simp [joinWith]
    | cons second more => simp [joinWith, ih]

theorem splitWhere_joinWith (hpieces : pieces ≠ []) (h : ∀ piece ∈ pieces, mark ∉ piece) :
    splitWhere (· == mark) (joinWith mark pieces) = pieces := by
  rw [splitWhere_eq, joinWith_eq]
  exact List.splitOn_intercalate mark h hpieces

theorem mem_joinWith (h : c ∈ joinWith mark pieces) : c = mark ∨ ∃ piece ∈ pieces, c ∈ piece := by
  induction pieces with
  | nil => cases h
  | cons first more ih =>
    cases more with
    | nil => exact .inr ⟨first, by simp, h⟩
    | cons second more =>
      have hjoin : joinWith mark (first :: second :: more) =
          first ++ mark :: joinWith mark (second :: more) := rfl
      rw [hjoin, List.mem_append, List.mem_cons] at h
      rcases h with h | h | h
      · exact .inr ⟨first, by simp, h⟩
      · exact .inl h
      · rcases ih h with h | ⟨piece, hpiece, h⟩
        · exact .inl h
        · exact .inr ⟨piece, List.mem_cons_of_mem _ hpiece, h⟩

theorem mem_splitWhere (h : piece ∈ splitWhere p text) : ∀ c ∈ piece, c ∈ text ∧ p c = false := by
  induction text generalizing piece with
  | nil =>
    obtain rfl : piece = [] := List.mem_singleton.mp h
    simp
  | cons d text ih =>
    have hmore : ∀ piece ∈ splitWhere p text, ∀ c ∈ piece, c ∈ d :: text ∧ p c = false :=
      fun piece hpiece c hc => ⟨List.mem_cons_of_mem _ (ih hpiece c hc).1, (ih hpiece c hc).2⟩
    rw [splitWhere] at h
    split at h
    · rcases List.mem_cons.mp h with rfl | h
      · simp
      · exact hmore piece h
    · next hd =>
      have hfirst : d ∈ d :: text ∧ p d = false := ⟨List.mem_cons_self, by simpa using hd⟩
      split at h
      · obtain rfl : piece = [d] := List.mem_singleton.mp h
        simpa using hd
      · next first more hsplit =>
        rw [hsplit] at hmore
        rcases List.mem_cons.mp h with rfl | h
        · exact List.forall_mem_cons.mpr ⟨hfirst, hmore first List.mem_cons_self⟩
        · exact hmore piece (List.mem_cons_of_mem _ h)

theorem length_splitWhere (p : CharClass) (text : Text) :
    (splitWhere p text).length = text.countP p + 1 := by
  induction text with
  | nil => rfl
  | cons c text ih =>
    rw [splitWhere, List.countP_cons]
    split
    · rw [List.length_cons, ih]
    · cases hpieces : splitWhere p text with
      | nil =>
        rw [hpieces] at ih
        cases ih
      | cons first more =>
        rw [hpieces] at ih
        exact ih

theorem splitWhere_clear (h : ∀ c ∈ text, p c = false) : splitWhere p text = [text] := by
  rw [splitWhere_eq]
  exact List.splitOnP_eq_singleton h

theorem splitWhere_append (front : Text) (hc : p c = true) :
    splitWhere p (front ++ c :: text) = splitWhere p front ++ splitWhere p text := by
  simp only [splitWhere_eq]
  exact List.splitOnP_append_cons _ _ hc

theorem splitWhere_append_cons (hpiece : ∀ d ∈ piece, p d = false) (hc : p c = true) :
    splitWhere p (piece ++ c :: text) = piece :: splitWhere p text := by
  rw [splitWhere_append piece hc, splitWhere_clear hpiece, List.singleton_append]

theorem splitWhere_terminated (hmark : p mark = true) (pieces : List Text) :
    splitWhere p (pieces.flatMap (· ++ [mark])) = pieces.flatMap (splitWhere p) ++ [[]] := by
  induction pieces with
  | nil => rfl
  | cons first more ih =>
    rw [List.flatMap_cons, List.append_assoc, List.singleton_append, splitWhere_append first hmark,
      ih, List.flatMap_cons, List.append_assoc]

theorem lines_terminated (pieces : List Text) :
    lines (pieces.flatMap (· ++ ['\n'])) = pieces.flatMap (splitWhere isLineBoundary) := by
  have hcut : isLineBoundary '\n' = true := rfl
  rw [lines, splitWhere_terminated hcut]
  simp

theorem unifyNewlines_eq_self (h : '\r' ∉ text) : unifyNewlines text = text := by
  rw [unifyNewlines]
  induction text with
  | nil => rfl
  | cons c text ih =>
    have hc : c ≠ '\r' := fun he => h (he ▸ List.mem_cons_self)
    have htext : '\r' ∉ text := fun hmem => h (List.mem_cons_of_mem _ hmem)
    rw [unifyNewlinesFrom, if_neg hc, if_neg (by simp), ih htext]

/-- The maximal runs of a class in a text, in order. -/
def runs (p : CharClass) (text : Text) : List Text :=
  (splitWhere (fun c => !p c) text).filter fun piece => !piece.isEmpty

theorem runs_cons (hc : p c = false) : runs p (c :: text) = runs p text := by
  have hcut : splitWhere (fun c => !p c) (c :: text) = [] :: splitWhere (fun c => !p c) text :=
    splitWhere_append_cons (List.forall_mem_nil _) (by simp [hc])
  rw [runs, hcut]
  rfl

theorem runs_append_cons (hpiece : ∀ d ∈ piece, p d = true) (hne : piece ≠ [])
    (hc : p c = false) : runs p (piece ++ c :: text) = piece :: runs p text := by
  rw [runs, splitWhere_append_cons (by simpa using hpiece) (by simp [hc]),
    List.filter_cons_of_pos (by simpa using hne)]
  rfl

end ImageReference
