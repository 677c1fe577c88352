import ImageReference.Proofs.Grammar

/-!
# Characters that a production lacks

No domain has an at sign and no digest has a slash. Both follow production by
production from the character classes at the bottom.
-/

namespace ImageReference

def Lacks (c : Char) (L : Language Char) : Prop := ∀ text ∈ L, c ∉ text

variable {c : Char} {L M : Language Char} {p : CharClass} {text : Text}

namespace Lacks

theorem singleton (h : c ∉ text) : Lacks c {text} := by
  intro other hother
  obtain rfl : other = text := hother
  exact h

theorem one (h : p c = false) : Lacks c (Grammar.one p) := by
  intro text htext hmem
  obtain ⟨d, hd, rfl⟩ := htext
  obtain rfl : c = d := List.mem_singleton.mp hmem
  rw [h] at hd
  cases hd

theorem atLeast (h : p c = false) (n : Nat) : Lacks c (Grammar.atLeast n p) := by
  intro text htext hmem
  have hc := htext.2 c hmem
  rw [h] at hc
  cases hc

theorem mono (h : Lacks c M) (hsub : ∀ text ∈ L, text ∈ M) : Lacks c L :=
  fun text htext => h text (hsub text htext)

theorem add (h : Lacks c L) (h' : Lacks c M) : Lacks c (L + M) := by
  intro text htext
  rcases htext with htext | htext
  · exact h text htext
  · exact h' text htext

theorem mul (h : Lacks c L) (h' : Lacks c M) : Lacks c (L * M) := by
  intro text htext
  obtain ⟨a, ha, b, hb, rfl⟩ := Language.mem_mul.mp htext
  rw [List.mem_append, not_or]
  exact ⟨h a ha, h' b hb⟩

theorem nothing : Lacks c 1 := by
  intro text htext
  obtain rfl : text = [] := htext
  exact List.not_mem_nil

theorem pow (h : Lacks c L) (n : Nat) : Lacks c (L ^ n) := by
  induction n with
  | zero => exact nothing
  | succ n ih =>
    rw [pow_succ]
    exact ih.mul h

theorem optional (h : Lacks c L) : Lacks c (Grammar.optional L) := nothing.add h

theorem joined (h : Lacks c L) (h' : Lacks c M) : Lacks c (Grammar.joined L M) := by
  apply Grammar.joined_induction
  · exact h
  · intro a ha m hm b _ ih
    rw [List.mem_append, List.mem_append, not_or, not_or]
    exact ⟨⟨h a ha, h' m hm⟩, ih⟩

end Lacks

theorem at_notMem_hextets {items : List Text} (h : ∀ item ∈ items, item ∈ Grammar.hextet) :
    '@' ∉ Grammar.hextets items := by
  have hhextet : Lacks '@' Grammar.hextet :=
    (Lacks.atLeast (by decide : CharClass.hex '@' = false) 1).mono fun _ h => h.1
  induction items with
  | nil => exact List.not_mem_nil
  | cons item items ih =>
    obtain ⟨hitem, hitems⟩ := List.forall_mem_cons.mp h
    have hmore := ih hitems
    cases items with
    | nil => simpa [Grammar.hextets] using hhextet item hitem
    | cons next items =>
      rw [Grammar.hextets] at hmore ⊢
      rw [List.intercalate_cons_cons, List.mem_append, List.mem_append, not_or, not_or]
      exact ⟨⟨hhextet item hitem, by decide⟩, hmore⟩

theorem lacks_domain : Lacks '@' Grammar.domain := by
  have hipv6 : Lacks '@' Grammar.ipv6 := by
    refine ((Lacks.singleton (by decide)).mul (.add ?_ ?_)).mul (.singleton (by decide))
    · intro text htext
      obtain ⟨items, hitems, -, rfl⟩ := htext
      exact at_notMem_hextets hitems
    · intro text htext
      obtain ⟨before, after, hitems, -, rfl⟩ := htext
      have hbefore := at_notMem_hextets fun item hitem => hitems item (List.mem_append_left _ hitem)
      have hafter := at_notMem_hextets fun item hitem => hitems item (List.mem_append_right _ hitem)
      simp [hbefore, hafter]
  have hoctet : Lacks '@' Grammar.octet :=
    (Lacks.atLeast (by decide : CharClass.digit '@' = false) 1).mono fun _ h => h.1
  have hipv4 : Lacks '@' Grammar.ipv4 :=
    hoctet.mul (((Lacks.singleton (by decide)).mul hoctet).pow 3)
  have hend : Lacks '@' (Grammar.one CharClass.alnum) := .one (by decide)
  have hlabel : Lacks '@' Grammar.label :=
    hend.add ((hend.mul (.atLeast (by decide) 0)).mul hend)
  have hname : Lacks '@' (Grammar.domainName - Grammar.dottedDigits) :=
    (hlabel.joined (.singleton (by decide))).mono fun _ h => h.1
  have hport : Lacks '@' Grammar.port := .atLeast (by decide) 1
  exact ((hipv6.add hipv4).add hname).mul (.optional ((Lacks.singleton (by decide)).mul hport))

theorem lacks_digest : Lacks '/' Grammar.digest := by
  have hcomponent : Lacks '/' Grammar.algorithmComponent :=
    (Lacks.one (by decide)).mul (.atLeast (by decide) 0)
  have hencoded : Lacks '/' Grammar.encoded := .atLeast (by decide) 32
  exact (hcomponent.joined (.one (by decide))).mul ((Lacks.singleton (by decide)).mul hencoded)

end ImageReference
