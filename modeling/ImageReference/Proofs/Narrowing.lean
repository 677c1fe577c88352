import ImageReference.Proofs.Digest

/-!
# Readers of one grammar and of both

A reader of both grammars narrows what a digest complies with as it goes on, and
never widens it again. A reader of one grammar reads a whole text exactly if the
reader of both reads it and what it found still complies, and then both find the
same digest.
-/

namespace ImageReference.Digest

variable {standard compliance : Compliance} {text : Text} {c : Char} {leading : Bool}
  {component here : Int} {digest : Digest}

theorem commitment_ne_universal {toward : Compliance} (h : commitment? leading c = some toward) :
    toward ≠ .universal := by
  rw [commitment?] at h
  split at h
  · cases h
    simp
  · split at h
    · cases h
      simp
    · cases h

theorem algorithmFrom_le {found : Scanned Algorithm}
    (h : algorithmFrom standard component leading compliance here text = .ok found) :
    here ≤ found.stop := by
  fun_induction algorithmFrom standard component leading compliance here text
    generalizing found with
  | case1 | case2 => rename_i ih; exact Int.le_of_lt (ih h)
  | case3 | case4 | case7 => cases h
  | case5 =>
    rename_i ih
    obtain ⟨inner, hinner, rfl⟩ := map_eq_ok h
    have hle := ih hinner
    exact Int.le_of_lt hle
  | case6 | case8 => cases h; exact Int.le_refl _

theorem algorithmFrom_keeps {found : Scanned Algorithm} (hcommitted : compliance ≠ .universal)
    (h : algorithmFrom standard component leading compliance here text = .ok found) :
    found.value.compliance = compliance := by
  fun_induction algorithmFrom standard component leading compliance here text
    generalizing found with
  | case1 component leading compliance here c rest halnum hcommit ih => exact ih hcommitted h
  | case2 component leading compliance here c rest halnum toward hcommit hadmits ih =>
    have htoward : compliance = toward := by
      simp only [Compliance.admits, Bool.and_eq_true, Bool.or_eq_true, beq_iff_eq] at hadmits
      exact hadmits.1.resolve_left hcommitted
    rw [ih (commitment_ne_universal hcommit) h, htoward]
  | case5 component leading compliance here c rest halnum hleading hseparator ih =>
    obtain ⟨inner, hinner, rfl⟩ := map_eq_ok h
    have hkept := ih hcommitted hinner
    exact hkept
  | case6 | case8 => cases h; rfl
  | _ => cases h

theorem admits_iff {toward : Compliance} (hne : toward ≠ .universal) :
    compliance.admits standard toward = true ↔
      compliance.admits .universal toward = true ∧ toward.Meets standard := by
  simp only [Compliance.admits, Compliance.Meets, Bool.and_eq_true, Bool.or_eq_true, beq_iff_eq,
    true_or, and_true, hne, false_or, @eq_comm _ toward standard]

/-- A reader of one grammar finds an algorithm exactly if the reader of both finds it and leaves
that grammar open. -/
theorem algorithmFrom_iff {found : Scanned Algorithm} (hmeets : compliance.Meets standard) :
    algorithmFrom standard component leading compliance here text = .ok found ↔
      algorithmFrom .universal component leading compliance here text = .ok found ∧
        found.value.compliance.Meets standard := by
  induction text generalizing component leading compliance here found with
  | nil =>
    cases leading with
    | true => simp [algorithmFrom]
    | false =>
      simp only [algorithmFrom, Bool.false_eq_true, if_false, iff_self_and]
      rintro h
      cases h
      exact hmeets
  | cons c rest ih =>
    rw [algorithmFrom, algorithmFrom]
    split
    · cases hcommit : commitment? leading c with
      | none => exact ih hmeets
      | some toward =>
        have hne := commitment_ne_universal hcommit
        dsimp only
        by_cases hroom : compliance.admits .universal toward = true
        · rw [if_pos hroom]
          by_cases hthere : toward.Meets standard
          · rw [if_pos ((admits_iff hne).mpr ⟨hroom, hthere⟩)]
            exact ih hthere
          · rw [if_neg fun hadmits => hthere ((admits_iff hne).mp hadmits).2]
            constructor
            · intro h
              cases h
            · intro h
              refine absurd h.2 ?_
              rwa [algorithmFrom_keeps hne h.1]
        · rw [if_neg hroom, if_neg fun hadmits => hroom ((admits_iff hne).mp hadmits).1]
          simp
    · split
      · simp
      · split
        · constructor
          · intro h
            obtain ⟨inner, hinner, rfl⟩ := map_eq_ok h
            obtain ⟨huniversal, hinside⟩ := (ih hmeets).mp hinner
            rw [huniversal]
            exact ⟨rfl, hinside⟩
          · intro h
            obtain ⟨inner, hinner, rfl⟩ := map_eq_ok h.1
            rw [(ih hmeets).mpr ⟨hinner, h.2⟩]
            rfl
        · refine ⟨fun h => ⟨h, ?_⟩, fun h => h.1⟩
          cases h
          exact hmeets

theorem ociEncoded_of_hex (h : CharClass.hex c = true) : CharClass.ociEncoded c = true := by
  rw [CharClass.ociEncoded, CharClass.alnum_of_hex h]
  rfl

theorem encodedClass_of_hex (h : CharClass.hex c = true) : standard.encodedClass c = true := by
  cases standard with
  | distribution => exact h
  | universal | oci => exact ociEncoded_of_hex h

theorem ociEncoded_of_encodedClass (h : standard.encodedClass c = true) :
    CharClass.ociEncoded c = true := by
  cases standard with
  | distribution => exact ociEncoded_of_hex h
  | universal | oci => exact h

variable {found : Scanned (Span × Compliance)}

theorem ok_value_iff {length : Int} {narrowed : Compliance} :
    (.ok ⟨(⟨0, length⟩, narrowed), length⟩ : Except Failure (Scanned (Span × Compliance))) =
        .ok found ↔
      found.stop = length ∧ found.value.1 = ⟨0, length⟩ ∧ found.value.2 = narrowed := by
  obtain ⟨⟨span, compliance⟩, stop⟩ := found
  simp only [Except.ok.injEq, Scanned.mk.injEq, Prod.mk.injEq]
  constructor
  · rintro ⟨⟨rfl, rfl⟩, rfl⟩
    exact ⟨rfl, rfl, rfl⟩
  · rintro ⟨rfl, rfl, rfl⟩
    exact ⟨⟨rfl, rfl⟩, rfl⟩

theorem encodedValue_stop (h : encodedValue standard compliance text = .ok found) :
    found.stop = (text.takeWhile standard.encodedClass).length := by
  simp only [encodedValue] at h
  split at h
  · split at h
    · exact (ok_value_iff.mp h).1
    · cases h
  · split at h
    · cases h
    · split at h
      · split at h
        · exact (ok_value_iff.mp h).1
        · cases h
      · exact (ok_value_iff.mp h).1

theorem encodedValue_run (hrun : ∀ c ∈ text, standard.encodedClass c = true) :
    encodedValue standard compliance text = .ok found ↔
      found.stop = text.length ∧ found.value.1 = ⟨0, text.length⟩ ∧
        ((text ∈ Grammar.encoded ∧ found.value.2 = compliance) ∨
          (text ∉ Grammar.encoded ∧ text ≠ [] ∧
            compliance.admits standard .oci = true ∧ found.value.2 = .oci)) := by
  have htake : text.takeWhile standard.encodedClass = text := by
    have hwhole : (text ++ []).takeWhile standard.encodedClass = text :=
      takeWhile_run hrun (by simp)
    rwa [List.append_nil] at hwhole
  have hmin : encodedMinLength = 32 := rfl
  rw [encodedValue, htake]
  cases hfind : text.findIdx? (fun c => !CharClass.hex c) with
  | some index =>
    obtain ⟨hlt, hother, -⟩ := List.findIdx?_eq_some_iff_getElem.mp hfind
    have hnot : text ∉ Grammar.encoded := by
      intro hmem
      simp [hmem.2 _ (List.getElem_mem hlt)] at hother
    have hne : text ≠ [] := List.ne_nil_of_length_pos (by omega)
    by_cases hadmits : compliance.admits standard .oci = true
    · simp only [if_pos hadmits, ok_value_iff]
      simp [hnot, hne, hadmits]
    · simp [hnot, hadmits]
  | none =>
    have hhex : ∀ c ∈ text, CharClass.hex c = true := by
      simpa [List.findIdx?_eq_none_iff] using hfind
    by_cases hlong : 32 ≤ text.length
    · have hmem : text ∈ Grammar.encoded := ⟨hlong, hhex⟩
      have hne : text.isEmpty = false := by
        rw [List.isEmpty_eq_false_iff]
        exact List.ne_nil_of_length_pos (by omega)
      simp only [hne, Bool.false_eq_true, if_false, if_neg (show ¬ text.length < encodedMinLength by
        omega), ok_value_iff]
      simp [hmem]
    · have hnot : text ∉ Grammar.encoded := fun hmem => hlong hmem.1
      have hshort : text.length < encodedMinLength := by omega
      by_cases hempty : text = []
      · subst hempty
        simp [hnot]
      · have hne : text.isEmpty = false := by simpa using hempty
        by_cases hadmits : compliance.admits standard .oci = true
        · simp only [hne, Bool.false_eq_true, if_false, if_pos hshort, if_pos hadmits,
            ok_value_iff]
          simp [hnot, hempty, hadmits]
        · simp [hne, hshort, hnot, hadmits]

theorem encodedValue_whole :
    (encodedValue standard compliance text = .ok found ∧ text.length ≤ found.stop) ↔
      found.stop = text.length ∧ found.value.1 = ⟨0, text.length⟩ ∧
        ((text ∈ Grammar.encoded ∧ found.value.2 = compliance) ∨
          (text ∉ Grammar.encoded ∧ text ∈ Grammar.ociEncoded ∧
            compliance.admits standard .oci = true ∧ found.value.2 = .oci)) := by
  constructor
  · intro h
    obtain ⟨hvalue, hwhole⟩ := h
    have hrun : ∀ c ∈ text, standard.encodedClass c = true := by
      have hprefix : text.takeWhile standard.encodedClass <+: text := List.takeWhile_prefix _
      rw [encodedValue_stop hvalue] at hwhole
      rw [← hprefix.eq_of_length_le (by omega)]
      exact List.all_eq_true.mp List.all_takeWhile
    obtain ⟨hstop, hspan, hcases⟩ := (encodedValue_run hrun).mp hvalue
    refine ⟨hstop, hspan, hcases.imp_right fun hother => ?_⟩
    obtain ⟨hnot, hne, hadmits, hnarrowed⟩ := hother
    have hoci : text ∈ Grammar.ociEncoded :=
      ⟨List.length_pos_of_ne_nil hne, fun c hc => ociEncoded_of_encodedClass (hrun c hc)⟩
    exact ⟨hnot, hoci, hadmits, hnarrowed⟩
  · intro h
    obtain ⟨hstop, hspan, hcases⟩ := h
    refine ⟨?_, by omega⟩
    rcases hcases with ⟨hmem, hkept⟩ | ⟨hnot, hmem, hadmits, hnarrowed⟩
    · have hrun : ∀ c ∈ text, standard.encodedClass c = true :=
        fun c hc => encodedClass_of_hex (hmem.2 c hc)
      exact (encodedValue_run hrun).mpr ⟨hstop, hspan, .inl ⟨hmem, hkept⟩⟩
    · have hrun : ∀ c ∈ text, standard.encodedClass c = true := by
        intro c hc
        cases standard with
        | distribution => cases compliance <;> cases hadmits
        | universal | oci => exact hmem.2 c hc
      have hne : text ≠ [] := List.ne_nil_of_length_pos hmem.1
      exact (encodedValue_run hrun).mpr ⟨hstop, hspan, .inr ⟨hnot, hne, hadmits, hnarrowed⟩⟩

theorem encodedValue_iff :
    (encodedValue standard compliance text = .ok found ∧ text.length ≤ found.stop) ∧
        compliance.Meets standard ↔
      (encodedValue .universal compliance text = .ok found ∧ text.length ≤ found.stop) ∧
        found.value.2.Meets standard := by
  simp only [encodedValue_whole]
  constructor
  · intro h
    obtain ⟨⟨hstop, hspan, hvalue⟩, hmeets⟩ := h
    rcases hvalue with ⟨hencoded, hkept⟩ | ⟨hencoded, hoci, hadmits, hnarrowed⟩
    · exact ⟨⟨hstop, hspan, .inl ⟨hencoded, hkept⟩⟩, hkept ▸ hmeets⟩
    · obtain ⟨hroom, hthere⟩ := (admits_iff (by decide)).mp hadmits
      exact ⟨⟨hstop, hspan, .inr ⟨hencoded, hoci, hroom, hnarrowed⟩⟩, hnarrowed ▸ hthere⟩
  · intro h
    obtain ⟨⟨hstop, hspan, hvalue⟩, hmeets⟩ := h
    rcases hvalue with ⟨hencoded, hkept⟩ | ⟨hencoded, hoci, hroom, hnarrowed⟩
    · exact ⟨⟨hstop, hspan, .inl ⟨hencoded, hkept⟩⟩, hkept ▸ hmeets⟩
    · have hadmits := (admits_iff (by decide)).mpr ⟨hroom, hnarrowed ▸ hmeets⟩
      refine ⟨⟨hstop, hspan, .inr ⟨hencoded, hoci, hadmits, hnarrowed⟩⟩, ?_⟩
      obtain rfl | rfl : compliance = .universal ∨ compliance = .oci := by
        simpa [Compliance.admits] using hroom
      · exact Compliance.universal_meets standard
      · exact hnarrowed ▸ hmeets

/-- The digest is read from the whole text. -/
def Fills (standard : Compliance) (text : Text) (digest : Digest) : Prop :=
  ∃ stop, scan standard text = .ok ⟨digest, stop⟩ ∧ text.length ≤ stop

def assemble (algorithm : Scanned Algorithm) (value : Scanned (Span × Compliance)) : Digest :=
  ⟨algorithm.value.components, shift (algorithm.stop + 1) value.value.1, value.value.2⟩

theorem fills_iff_parts : Fills standard text digest ↔ ∃ algorithm value,
    algorithmFrom standard 0 true .universal 0 text = .ok algorithm ∧
    (text.drop algorithm.stop.toNat).head? = some ':' ∧
    (encodedValue standard algorithm.value.compliance (text.drop (algorithm.stop + 1).toNat) =
        .ok value ∧
      (text.drop (algorithm.stop + 1).toNat).length ≤ value.stop) ∧
    digest = assemble algorithm value := by
  constructor
  · intro h
    obtain ⟨stop, hscan, hwhole⟩ := h
    obtain ⟨algorithm, halgorithm, hscan⟩ := bind_eq_ok hscan
    split at hscan
    · next hmark =>
      obtain ⟨value, hbehind, hscan⟩ := bind_eq_ok hscan
      obtain ⟨inner, hvalue, rfl⟩ := Scan.behind_eq_ok hbehind
      cases hscan
      refine ⟨algorithm, inner, halgorithm, hmark, ⟨hvalue, ?_⟩, rfl⟩
      have hplace := algorithmFrom_le halgorithm
      have hstop := encodedValue_stop hvalue
      change (text.length : Int) ≤ inner.stop + (algorithm.stop + 1) at hwhole
      rw [List.length_drop]
      omega
    · cases hscan
  · intro h
    obtain ⟨algorithm, value, halgorithm, hmark, ⟨hvalue, hwhole⟩, rfl⟩ := h
    refine ⟨value.stop + (algorithm.stop + 1), ?_, ?_⟩
    · rw [scan, halgorithm]
      change (if _ then _ else _) = _
      rw [if_pos hmark, Scan.behind, hvalue]
      rfl
    · have hplace := algorithmFrom_le halgorithm
      rw [List.length_drop] at hwhole
      omega

theorem fills_iff : Fills standard text digest ↔
    Fills .universal text digest ∧ digest.compliance.Meets standard := by
  have hstart := Compliance.universal_meets standard
  constructor
  · intro h
    obtain ⟨algorithm, value, halgorithm, hmark, hvalue, rfl⟩ := fills_iff_parts.mp h
    obtain ⟨huniversal, hmeets⟩ := (algorithmFrom_iff hstart).mp halgorithm
    obtain ⟨hvalue, hcomplies⟩ := encodedValue_iff.mp ⟨hvalue, hmeets⟩
    exact ⟨fills_iff_parts.mpr ⟨algorithm, value, huniversal, hmark, hvalue, rfl⟩, hcomplies⟩
  · intro h
    obtain ⟨hfills, hcomplies⟩ := h
    obtain ⟨algorithm, value, huniversal, hmark, hvalue, rfl⟩ := fills_iff_parts.mp hfills
    obtain ⟨hvalue, hmeets⟩ := encodedValue_iff.mpr ⟨hvalue, hcomplies⟩
    have halgorithm := (algorithmFrom_iff hstart).mpr ⟨huniversal, hmeets⟩
    exact fills_iff_parts.mpr ⟨algorithm, value, halgorithm, hmark, hvalue, rfl⟩

theorem Fills.unique {standard' : Compliance} {digest' : Digest} (h : Fills standard text digest)
    (h' : Fills standard' text digest') : digest = digest' := by
  obtain ⟨stop, hscan, -⟩ := (fills_iff.mp h).1
  obtain ⟨stop', hscan', -⟩ := (fills_iff.mp h').1
  cases hscan.symm.trans hscan'
  rfl

theorem Fills.covers (hone : standard ≠ .universal) (h : Fills standard text digest) :
    text ∈ standard.digest ∧ CoversIn standard 0 text digest := by
  obtain ⟨stop, hscan, hwhole⟩ := h
  have houtcome := scan_outcome_in hone text
  rw [hscan] at houtcome
  cases houtcome with
  | @ok front rest _ split complete _ hstop holds =>
    have hlength := congrArg List.length split
    rw [List.length_append] at hlength
    change stop = _ at hstop
    obtain rfl : rest = [] := List.eq_nil_of_length_eq_zero (by omega)
    rw [List.append_nil] at split
    subst split
    exact ⟨complete, holds⟩

theorem exists_fills (hone : standard ≠ .universal) (h : text ∈ standard.digest) :
    ∃ digest, Fills standard text digest := by
  have houtcome := scan_outcome_in hone (text ++ [])
  obtain ⟨found, hscan, hstop, -⟩ := houtcome.ok_of_mem h (.of_nil (.of_mem h)) (by simp)
  rw [List.append_nil] at hscan
  exact ⟨found.value, found.stop, hscan, by omega⟩

theorem Fills.one (h : Fills standard text digest) :
    ∃ one, one ≠ .universal ∧ Fills one text digest := by
  have huniversal := (fills_iff.mp h).1
  cases hcompliance : digest.compliance with
  | universal =>
    exact ⟨.oci, by decide, fills_iff.mpr ⟨huniversal, .inr (.inl hcompliance)⟩⟩
  | distribution =>
    exact ⟨.distribution, by decide, fills_iff.mpr ⟨huniversal, .inr (.inr hcompliance)⟩⟩
  | oci =>
    exact ⟨.oci, by decide, fills_iff.mpr ⟨huniversal, .inr (.inr hcompliance)⟩⟩

theorem exists_fills_iff : (∃ digest, Fills standard text digest) ↔ text ∈ standard.digest := by
  constructor
  · intro h
    obtain ⟨digest, h⟩ := h
    cases standard with
    | distribution | oci => exact (h.covers (by decide)).1
    | universal =>
      obtain ⟨one, hone, hfills⟩ := h.one
      cases one with
      | universal => exact absurd rfl hone
      | distribution => exact .inl (hfills.covers hone).1
      | oci => exact .inr (hfills.covers hone).1
  · intro h
    cases standard with
    | distribution | oci => exact exists_fills (by decide) h
    | universal =>
      rcases h with h | h
      · obtain ⟨digest, hfills⟩ := @exists_fills .distribution _ (by decide) h
        exact ⟨digest, (fills_iff.mp hfills).1⟩
      · obtain ⟨digest, hfills⟩ := @exists_fills .oci _ (by decide) h
        exact ⟨digest, (fills_iff.mp hfills).1⟩

theorem Fills.mem_iff {one : Compliance} (h : Fills standard text digest) :
    text ∈ one.digest ↔ digest.compliance.Meets one := by
  constructor
  · intro hmem
    obtain ⟨other, hother⟩ : ∃ other, Fills one text other := exists_fills_iff.mpr hmem
    obtain rfl := hother.unique h
    exact (fills_iff.mp hother).2
  · intro hmeets
    exact exists_fills_iff.mp ⟨digest, fills_iff.mpr ⟨(fills_iff.mp h).1, hmeets⟩⟩

end ImageReference.Digest
