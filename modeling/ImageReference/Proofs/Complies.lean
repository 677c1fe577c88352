import ImageReference.Proofs.Cursor
import ImageReference.Proofs.Narrowing

/-!
# Digests at a cursor

A digest is read up to the first character that its value cannot go on with. What
it complies with names the grammars that the text is in, whichever grammar was
asked for. A digest that is not found is given up at the first character that no
digest of the asked grammar goes on with. For the reader of both grammars this is
the later one of two such characters: the algorithm is read as long as one of
the grammars reads it, and the value in the grammars that the algorithm left.
-/

namespace ImageReference

/-- A compliance names the grammars that a text is in. -/
def Compliance.Names (text : Text) : Compliance → Prop
  | .universal => text ∈ Grammar.digest ∧ text ∈ Grammar.ociDigest
  | .distribution => text ∈ Grammar.digest ∧ text ∉ Grammar.ociDigest
  | .oci => text ∉ Grammar.digest ∧ text ∈ Grammar.ociDigest

namespace Digest

variable {standard compliance one : Compliance} {c : Char} {leading : Bool} {component here : Int}
  {text front rest : Text} {place goal : Place} {digest : Digest}

theorem algorithmFrom_colon (front rest : Text) :
    algorithmFrom standard component leading compliance here (front ++ ':' :: rest) =
      algorithmFrom standard component leading compliance here front := by
  induction front generalizing component leading compliance here with
  | nil =>
    have halnum : CharClass.alnum ':' = false := by decide
    have hseparator : CharClass.algorithmSeparator ':' = false := by decide
    cases leading <;> simp [algorithmFrom, halnum, hseparator]
  | cons c front ih =>
    rw [List.cons_append, algorithmFrom, algorithmFrom]
    simp only [ih]

theorem colon_notMem_of_walk (h : (algorithmReader standard).walk place text = some goal) :
    ':' ∉ text := by
  have halnum : CharClass.alnum ':' = false := by decide
  have hseparator : CharClass.algorithmSeparator ':' = false := by decide
  exact Reader.notMem_of_walk h fun place => by
    simp [algorithmReader, Place.next, halnum, hseparator]

theorem algorithmFrom_ok {algorithm : Scanned Algorithm}
    (h : algorithmFrom standard 0 true .universal 0 text = .ok algorithm) :
    ∃ front rest, text = front ++ rest ∧ ':' ∉ front ∧ algorithm.stop = front.length := by
  obtain ⟨front, rest, goal, rfl, hwalk, -, hend⟩ := algorithm_ends standard text
  rw [h, algorithmEnding, Place.verdict] at hend
  split at hend
  · exact ⟨front, rest, rfl, colon_notMem_of_walk hwalk, (Prod.mk.inj (Except.ok.inj hend)).1⟩
  · cases hend

theorem encodedValue_append (htext : ∀ c ∈ text, standard.encodedClass c = true)
    (hrest : ∀ c ∈ rest.head?, standard.encodedClass c = false) :
    encodedValue standard compliance (text ++ rest) = encodedValue standard compliance text := by
  have hwhole : (text ++ []).takeWhile standard.encodedClass = text :=
    takeWhile_run htext (by simp)
  rw [List.append_nil] at hwhole
  rw [encodedValue, encodedValue, takeWhile_run htext hrest, hwhole]

theorem scan_colon {algorithm : Scanned Algorithm}
    (halgorithm : algorithmFrom standard 0 true .universal 0 front = .ok algorithm)
    (hstop : algorithm.stop = front.length) (rest : Text) :
    scan standard (front ++ ':' :: rest) =
      (shift (algorithm.stop + 1) (encodedValue standard algorithm.value.compliance rest)).map
        (Scanned.map fun value => ⟨algorithm.value.components, value.1, value.2⟩) := by
  have hdrop : (front ++ ':' :: rest).drop (algorithm.stop + 1).toNat = rest := by
    rw [hstop, show ((front.length : Int) + 1).toNat = front.length + 1 by omega,
      List.drop_length_add_append, List.drop_one, List.tail_cons]
  have hmark : ((front ++ ':' :: rest).drop algorithm.stop.toNat).head? = some ':' := by
    rw [hstop, Int.toNat_natCast, List.drop_left, List.head?_cons]
  rw [scan, algorithmFrom_colon, halgorithm]
  change (if _ then Scan.behind _ (algorithm.stop + 1) _ >>= _ else _) = _
  rw [if_pos hmark, Scan.behind, hdrop, ← bind_scanned]

theorem scan_parts {found : Scanned Digest} (h : scan standard text = .ok found) :
    ∃ front rest algorithm value, text = front ++ ':' :: rest ∧ ':' ∉ front ∧
      algorithmFrom standard 0 true .universal 0 front = .ok algorithm ∧
      algorithm.stop = front.length ∧
      encodedValue standard algorithm.value.compliance rest = .ok value ∧
      found = ⟨assemble algorithm value, value.stop + (algorithm.stop + 1)⟩ := by
  obtain ⟨algorithm, halgorithm, hbehind⟩ := bind_eq_ok h
  obtain ⟨front, rest, rfl, hcolon, hstop⟩ := algorithmFrom_ok halgorithm
  rw [hstop, Int.toNat_natCast, List.drop_left] at hbehind
  split at hbehind
  · next hmark =>
    obtain ⟨tail, rfl⟩ := List.head?_eq_some_iff.mp hmark
    rw [algorithmFrom_colon] at halgorithm
    rw [scan_colon halgorithm hstop] at h
    cases hvalue : encodedValue standard algorithm.value.compliance tail with
    | error failure =>
      rw [hvalue] at h
      cases h
    | ok value =>
      rw [hvalue] at h
      cases h
      exact ⟨front, tail, algorithm, value, rfl, hcolon, halgorithm, hstop, hvalue, rfl⟩
  · cases hbehind

theorem Fills.parts (h : Fills standard text digest) :
    ∃ front run algorithm value, text = front ++ ':' :: run ∧ ':' ∉ front ∧
      algorithmFrom standard 0 true .universal 0 front = .ok algorithm ∧
      algorithm.stop = front.length ∧ (∀ c ∈ run, standard.encodedClass c = true) ∧
      encodedValue standard algorithm.value.compliance run = .ok value ∧
      digest = assemble algorithm value := by
  obtain ⟨stop, hscan, hle⟩ := h
  obtain ⟨front, run, algorithm, value, rfl, hcolon, halgorithm, hstop, hvalue, hfound⟩ :=
    scan_parts hscan
  obtain ⟨rfl, rfl⟩ := Scanned.mk.inj hfound
  have hend := encodedValue_stop hvalue
  have hprefix : run.takeWhile standard.encodedClass <+: run := List.takeWhile_prefix _
  have hwhole : run.takeWhile standard.encodedClass = run := by
    refine hprefix.eq_of_length_le ?_
    rw [List.length_append, List.length_cons] at hle
    omega
  have hrun : ∀ c ∈ run, standard.encodedClass c = true := by
    rw [← hwhole]
    exact List.all_eq_true.mp List.all_takeWhile
  exact ⟨front, run, algorithm, value, rfl, hcolon, halgorithm, hstop, hrun, hvalue, rfl⟩

theorem scan_eq_ok_iff {found : Scanned Digest} : scan standard text = .ok found ↔
    ∃ front rest, text = front ++ rest ∧ Fills standard front found.value ∧
      found.stop = front.length ∧ ∀ c ∈ rest.head?, standard.encodedClass c = false := by
  constructor
  · intro h
    obtain ⟨front, tail, algorithm, value, rfl, -, halgorithm, hstop, hvalue, rfl⟩ := scan_parts h
    obtain ⟨run, rest, rfl, hrun, hrest⟩ := exists_run standard.encodedClass tail
    rw [encodedValue_append hrun hrest] at hvalue
    have hend := ((encodedValue_run hrun).mp hvalue).1
    have hlength : value.stop + (algorithm.stop + 1) = (front ++ ':' :: run).length := by
      rw [List.length_append, List.length_cons]
      omega
    have hwhole := scan_colon halgorithm hstop run
    rw [hvalue] at hwhole
    exact ⟨front ++ ':' :: run, rest, by simp, ⟨_, hwhole, Int.le_of_eq hlength.symm⟩, hlength,
      hrest⟩
  · rintro ⟨whole, rest, rfl, hfills, hlength, hrest⟩
    obtain ⟨front, run, algorithm, value, rfl, -, halgorithm, hstop, hrun, hvalue, hdigest⟩ :=
      hfills.parts
    have hend := ((encodedValue_run hrun).mp hvalue).1
    rw [← encodedValue_append hrun hrest] at hvalue
    obtain ⟨digest, last⟩ := found
    obtain rfl : digest = assemble algorithm value := hdigest
    obtain rfl : value.stop + (algorithm.stop + 1) = last := by
      change last = _ at hlength
      rw [hlength, List.length_append, List.length_cons]
      omega
    rw [List.append_assoc, List.cons_append, scan_colon halgorithm hstop, hvalue]
    rfl

theorem exists_scan_iff :
    (∃ found, scan standard (front ++ rest) = .ok found ∧ found.stop = front.length) ↔
      front ∈ standard.digest ∧ ∀ c ∈ rest.head?, standard.encodedClass c = false := by
  constructor
  · rintro ⟨found, hscan, hstop⟩
    obtain ⟨front', rest', hsplit, hfills, hstop', hrest⟩ := scan_eq_ok_iff.mp hscan
    obtain ⟨rfl, rfl⟩ := List.append_inj hsplit (by omega)
    exact ⟨exists_fills_iff.mp ⟨_, hfills⟩, hrest⟩
  · rintro ⟨hmem, hrest⟩
    obtain ⟨digest, hfills⟩ := exists_fills_iff.mpr hmem
    exact ⟨⟨digest, front.length⟩, scan_eq_ok_iff.mpr ⟨front, rest, rfl, hfills, rfl, hrest⟩, rfl⟩

theorem Fills.spans (h : Fills standard text digest) :
    ∃ algorithm encoded, text = algorithm ++ ':' :: encoded ∧ ':' ∉ algorithm ∧
      digest.components.toList = Span.split CharClass.algorithmSeparator 0 algorithm ∧
      digest.encoded = ⟨algorithm.length + 1, encoded.length⟩ := by
  obtain ⟨front, run, algorithm, value, rfl, hcolon, halgorithm, hstop, hrun, hvalue, rfl⟩ :=
    h.parts
  have hsplits := algorithmFrom_splits halgorithm
  rw [← List.append_nil front] at hsplits
  have hcomponents := hsplits.eq_split (hstop.trans (Int.zero_add _).symm)
  refine ⟨front, run, rfl, hcolon, hcomponents, ?_⟩
  rw [assemble, ((encodedValue_run hrun).mp hvalue).2.1, hstop]
  exact congrArg (Span.mk · _) (Int.zero_add _)

theorem Fills.names (h : Fills standard text digest) : digest.compliance.Names text := by
  have hmem : ∀ one : Compliance, text ∈ one.digest ↔ digest.compliance.Meets one :=
    fun one => h.mem_iff
  cases hcompliance : digest.compliance with
  | universal =>
    rw [hcompliance] at hmem
    exact ⟨(hmem .distribution).mpr (.inr (.inl rfl)), (hmem .oci).mpr (.inr (.inl rfl))⟩
  | distribution =>
    rw [hcompliance] at hmem
    refine ⟨(hmem .distribution).mpr (.inr (.inr rfl)), fun hoci => ?_⟩
    simpa [Compliance.Meets] using (hmem .oci).mp hoci
  | oci =>
    rw [hcompliance] at hmem
    refine ⟨fun hdistribution => ?_, (hmem .oci).mpr (.inr (.inr rfl))⟩
    simpa [Compliance.Meets] using (hmem .distribution).mp hdistribution

theorem next_iff (hplace : place.open standard) : place.next standard c = some goal ↔
    place.next .universal c = some goal ∧ goal.open standard := by
  rw [Place.next, Place.next]
  split
  · cases hcommit : commitment? place.leading c with
    | none =>
      simp only [iff_self_and]
      rintro h
      cases h
      exact hplace
    | some toward =>
      have hne := commitment_ne_universal hcommit
      have hadmits : place.compliance.admits standard toward = true ↔ _ := admits_iff hne
      dsimp only
      by_cases hroom : place.compliance.admits .universal toward = true
      · rw [if_pos hroom]
        by_cases hthere : toward.Meets standard
        · rw [if_pos (hadmits.mpr ⟨hroom, hthere⟩), iff_self_and]
          rintro h
          cases h
          exact hthere
        · rw [if_neg fun h => hthere (hadmits.mp h).2]
          simp only [reduceCtorEq, false_iff, not_and]
          rintro h
          cases h
          exact hthere
      · rw [if_neg hroom, if_neg fun h => hroom (hadmits.mp h).1]
        simp
  · split
    · rw [iff_self_and]
      rintro h
      cases h
      exact hplace
    · simp

theorem open_of_next (h : place.next .universal c = some goal) (hgoal : goal.open standard) :
    place.open standard := by
  rw [Place.next] at h
  split at h
  · split at h
    · cases h
      exact hgoal
    · next toward hcommit =>
      split at h
      · next hadmits =>
        cases h
        obtain hopen | hsame : place.compliance = .universal ∨ place.compliance = toward := by
          simpa [Compliance.admits] using hadmits
        · exact .inr (.inl hopen)
        · rw [Place.open, hsame]
          exact hgoal
      · cases h
  · split at h
    · cases h
      exact hgoal
    · cases h

theorem open_of_walk (h : (algorithmReader .universal).walk place text = some goal)
    (hgoal : goal.open standard) : place.open standard := by
  induction text generalizing place with
  | nil => exact Option.some_inj.mp h ▸ hgoal
  | cons c text ih =>
    obtain ⟨middle, hc, hmiddle⟩ := Option.bind_eq_some_iff.mp h
    exact open_of_next hc (ih hmiddle)

theorem walk_iff (hplace : place.open standard) :
    (algorithmReader standard).walk place text = some goal ↔
      (algorithmReader .universal).walk place text = some goal ∧ goal.open standard := by
  induction text generalizing place with
  | nil =>
    rw [Reader.walk_nil, Reader.walk_nil, iff_self_and]
    rintro h
    cases h
    exact hplace
  | cons c text ih =>
    simp only [Reader.walk_cons, Option.bind_eq_some_iff]
    constructor
    · rintro ⟨middle, hc, hmiddle⟩
      obtain ⟨hc, hopen⟩ := (next_iff hplace).mp hc
      obtain ⟨hmiddle, hgoal⟩ := (ih hopen).mp hmiddle
      exact ⟨⟨middle, hc, hmiddle⟩, hgoal⟩
    · rintro ⟨⟨middle, hc, hmiddle⟩, hgoal⟩
      have hopen := open_of_walk hmiddle hgoal
      exact ⟨middle, (next_iff hplace).mpr ⟨hc, hopen⟩, (ih hopen).mpr ⟨hmiddle, hgoal⟩⟩

section One

variable (hone : one ≠ .universal)
include hone

theorem viable_algorithm_iff : Viable one.algorithm text ↔
    ∃ goal, (algorithmReader .universal).walk ⟨true, .universal⟩ text = some goal ∧
      goal.open one := by
  rw [← accepts_algorithm hone, algorithmReader_live.viable_iff]
  exact exists_congr fun goal => walk_iff (.inr (.inl rfl))

theorem mem_algorithm_iff : text ∈ one.algorithm ↔
    ∃ goal, (algorithmReader .universal).walk ⟨true, .universal⟩ text = some goal ∧
      goal.open one ∧ goal.leading = false := by
  rw [← accepts_algorithm hone]
  constructor
  · rintro ⟨goal, hwalk, hfinal⟩
    obtain ⟨hwalk, hopen⟩ := (walk_iff (.inr (.inl rfl))).mp hwalk
    exact ⟨goal, hwalk, hopen, by simpa [algorithmReader] using hfinal⟩
  · rintro ⟨goal, hwalk, hopen, hleading⟩
    exact ⟨goal, (walk_iff (.inr (.inl rfl))).mpr ⟨hwalk, hopen⟩,
      by simp [algorithmReader, hleading]⟩

theorem viable_digest_iff (hcolon : ':' ∉ text) :
    Viable one.digest text ↔ Viable one.algorithm text := by
  rw [Compliance.digest_eq hone]
  constructor
  · rintro ⟨more, hmore⟩
    obtain ⟨algorithm, halgorithm, tail, htail, he⟩ := Language.mem_mul.mp hmore
    obtain ⟨mark, rfl, encoded, -, rfl⟩ := Language.mem_mul.mp htail
    rcases List.append_eq_append_iff.mp he with ⟨past, rfl, hpast⟩ | ⟨past, rfl, -⟩
    · cases past with
      | nil => exact .of_mem (by simpa using halgorithm)
      | cons d past =>
        obtain ⟨rfl, -⟩ := List.cons.inj hpast
        simp at hcolon
    · exact ⟨past, halgorithm⟩
  · rintro ⟨more, hmore⟩
    obtain ⟨encoded, hencoded⟩ : Viable one.encoded [] := Compliance.viable_encoded.mpr (by simp)
    refine ⟨more ++ ([':'] ++ encoded), ?_⟩
    rw [← List.append_assoc]
    exact Language.append_mem_mul hmore (mem_singleton_mul.mpr hencoded)

theorem viable_digest_colon_iff (hcolon : ':' ∉ front) :
    Viable one.digest (front ++ ':' :: text) ↔
      front ∈ one.algorithm ∧ ∀ c ∈ text, one.encodedClass c = true := by
  rw [Compliance.digest_eq hone, ← Compliance.viable_encoded]
  constructor
  · rintro ⟨more, hmore⟩
    obtain ⟨algorithm, halgorithm, tail, htail, he⟩ := Language.mem_mul.mp hmore
    obtain ⟨mark, rfl, encoded, hencoded, rfl⟩ := Language.mem_mul.mp htail
    have hclear : ':' ∉ algorithm := Compliance.mark_notMem_algorithm halgorithm (.inl rfl)
    rw [List.append_assoc, List.cons_append] at he
    obtain ⟨rfl, rfl⟩ := cut_unique hclear hcolon he
    exact ⟨halgorithm, more, hencoded⟩
  · rintro ⟨halgorithm, more, hmore⟩
    refine ⟨more, ?_⟩
    rw [List.append_assoc]
    exact Language.append_mem_mul halgorithm (mem_singleton_mul.mpr hmore)

end One

theorem viable_both_iff : Viable (Compliance.digest .universal) text ↔
    ∃ one, one ≠ .universal ∧ Viable (Compliance.digest one) text := by
  constructor
  · rintro ⟨more, hmore | hmore⟩
    · exact ⟨.distribution, by decide, more, hmore⟩
    · exact ⟨.oci, by decide, more, hmore⟩
  · rintro ⟨one, hone, more, hmore⟩
    cases one with
    | universal => exact absurd rfl hone
    | distribution => exact ⟨more, .inl hmore⟩
    | oci => exact ⟨more, .inr hmore⟩

theorem exists_open (compliance : Compliance) : ∃ one, one ≠ .universal ∧ compliance.Meets one ∧
    one.encodedClass = compliance.encodedClass := by
  cases compliance with
  | universal => exact ⟨.oci, by decide, .inr (.inl rfl), rfl⟩
  | distribution => exact ⟨.distribution, by decide, .inr (.inr rfl), rfl⟩
  | oci => exact ⟨.oci, by decide, .inr (.inr rfl), rfl⟩

theorem encodedClass_of_meets (hone : one ≠ .universal) (h : compliance.Meets one)
    (hc : one.encodedClass c = true) : compliance.encodedClass c = true := by
  rcases h with h | rfl | rfl
  · exact absurd h hone
  · exact ociEncoded_of_encodedClass hc
  · exact hc

theorem viable_universal_iff (hcolon : ':' ∉ text) :
    Viable (Compliance.digest .universal) text ↔
      ∃ goal, (algorithmReader .universal).walk ⟨true, .universal⟩ text = some goal := by
  rw [viable_both_iff]
  constructor
  · rintro ⟨one, hone, hviable⟩
    rw [viable_digest_iff hone hcolon, viable_algorithm_iff hone] at hviable
    obtain ⟨goal, hwalk, -⟩ := hviable
    exact ⟨goal, hwalk⟩
  · rintro ⟨goal, hwalk⟩
    obtain ⟨one, hone, hopen, -⟩ := exists_open goal.compliance
    refine ⟨one, hone, ?_⟩
    rw [viable_digest_iff hone hcolon, viable_algorithm_iff hone]
    exact ⟨goal, hwalk, hopen⟩

theorem viable_universal_colon_iff
    (hwalk : (algorithmReader .universal).walk ⟨true, .universal⟩ front = some goal) :
    Viable (Compliance.digest .universal) (front ++ ':' :: text) ↔
      goal.leading = false ∧ ∀ c ∈ text, goal.compliance.encodedClass c = true := by
  have hcolon := colon_notMem_of_walk hwalk
  rw [viable_both_iff]
  constructor
  · rintro ⟨one, hone, hviable⟩
    rw [viable_digest_colon_iff hone hcolon, mem_algorithm_iff hone] at hviable
    obtain ⟨⟨other, hother, hopen, hleading⟩, htext⟩ := hviable
    obtain rfl : goal = other := Option.some_inj.mp (hwalk.symm.trans hother)
    exact ⟨hleading, fun c hc => encodedClass_of_meets hone hopen (htext c hc)⟩
  · rintro ⟨hleading, htext⟩
    obtain ⟨one, hone, hopen, hclass⟩ := exists_open goal.compliance
    refine ⟨one, hone, ?_⟩
    rw [viable_digest_colon_iff hone hcolon, mem_algorithm_iff hone, hclass]
    exact ⟨⟨goal, hwalk, hopen, hleading⟩, htext⟩

theorem takeWhile_findIdx {p : CharClass} {index : Nat}
    (h : text.findIdx? (fun c => !p c) = some index) (rest : Text) :
    ((text ++ rest).takeWhile p).length = index := by
  have hwhole : (text ++ rest).findIdx? (fun c => !p c) = some index := by
    rw [List.findIdx?_append, h, Option.some_or]
  obtain ⟨hlt, hindex⟩ := List.findIdx?_eq_some_iff_findIdx_eq.mp hwhole
  rw [List.takeWhile_eq_take_findIdx_not, hindex, List.length_take]
  omega

theorem encodedValue_error {failure : Failure}
    (h : encodedValue .universal compliance text = .error failure) :
    failure.kind = .digestInvalidFormat ∧
      failure.offset = (text.takeWhile compliance.encodedClass).length := by
  obtain ⟨run, rest, rfl, hrun, hrest⟩ := exists_run (Compliance.encodedClass .universal) text
  rw [encodedValue, takeWhile_run hrun hrest] at h
  cases hfind : run.findIdx? (fun c => !CharClass.hex c) with
  | some index =>
    rw [hfind] at h
    dsimp only at h
    split at h
    · cases h
    · next hadmits =>
      obtain rfl : compliance = .distribution := by
        cases compliance
        · exact absurd rfl hadmits
        · rfl
        · exact absurd rfl hadmits
      cases h
      exact ⟨rfl, congrArg Nat.cast (takeWhile_findIdx hfind rest).symm⟩
  | none =>
    have hhex : ∀ c ∈ run, CharClass.hex c = true := by
      simpa [List.findIdx?_eq_none_iff] using hfind
    have hstop : ∀ c ∈ rest.head?, compliance.encodedClass c = false := by
      intro c hc
      rw [Bool.eq_false_iff]
      intro hclass
      have hnone := hrest c hc
      rw [show Compliance.encodedClass .universal c = true from ociEncoded_of_encodedClass hclass]
        at hnone
      cases hnone
    rw [takeWhile_run (fun c hc => encodedClass_of_hex (hhex c hc)) hstop]
    rw [hfind] at h
    dsimp only at h
    split at h
    · cases h
      exact ⟨rfl, rfl⟩
    · split at h
      · split at h
        · cases h
        · cases h
          exact ⟨rfl, rfl⟩
      · cases h

theorem cut_algorithm
    (hwalk : (algorithmReader .universal).walk ⟨true, .universal⟩ front = some goal)
    (hnone : ∀ c ∈ rest.head?, goal.next .universal c = none)
    (hcolon : rest.head? = some ':' → goal.leading = true) :
    Cut (Compliance.digest .universal) front rest := by
  have hfront := colon_notMem_of_walk hwalk
  refine ⟨(viable_universal_iff hfront).mpr ⟨goal, hwalk⟩, fun c hc hviable => ?_⟩
  by_cases hmark : c = ':'
  · subst hmark
    have hleading := hcolon hc
    rw [((viable_universal_colon_iff hwalk).mp hviable).1] at hleading
    cases hleading
  · have hclear : ':' ∉ front ++ [c] := by
      simp [hfront, Ne.symm hmark]
    obtain ⟨other, hother⟩ := (viable_universal_iff hclear).mp hviable
    have hstuck : (algorithmReader .universal).next goal c = none := hnone c hc
    simp [hwalk, hstuck] at hother

theorem cut_value
    (hwalk : (algorithmReader .universal).walk ⟨true, .universal⟩ front = some goal)
    (hleading : goal.leading = false) (htext : ∀ c ∈ text, goal.compliance.encodedClass c = true)
    (hrest : ∀ c ∈ rest.head?, goal.compliance.encodedClass c = false) :
    Cut (Compliance.digest .universal) (front ++ ':' :: text) rest := by
  refine ⟨(viable_universal_colon_iff hwalk).mpr ⟨hleading, htext⟩, fun c hc hviable => ?_⟩
  rw [List.append_assoc, List.cons_append] at hviable
  have hclass := ((viable_universal_colon_iff hwalk).mp hviable).2 c (by simp)
  rw [hrest c hc] at hclass
  cases hclass

/-- The place and the kind of a failure: nothing is wrong in front of the place, and the character
there continues no digest of the asked grammar. -/
def Halts (standard : Compliance) (text : Text) (failure : Failure) : Prop :=
  ∃ front rest, text = front ++ rest ∧ failure.kind = .digestInvalidFormat ∧
    failure.offset = front.length ∧ Cut standard.digest front rest

theorem halts_value {algorithm : Scanned Algorithm} {failure : Failure}
    (hwalk : (algorithmReader .universal).walk ⟨true, .universal⟩ front = some goal)
    (hleading : goal.leading = false)
    (halgorithm : algorithmFrom .universal 0 true .universal 0 front = .ok algorithm)
    (hstop : algorithm.stop = front.length)
    (hcompliance : algorithm.value.compliance = goal.compliance)
    (h : scan .universal (front ++ ':' :: text) = .error failure) :
    Halts .universal (front ++ ':' :: text) failure := by
  rw [scan_colon halgorithm hstop] at h
  obtain ⟨run, rest, rfl, hrun, hrest⟩ := exists_run goal.compliance.encodedClass text
  cases hvalue : encodedValue .universal algorithm.value.compliance (run ++ rest) with
  | ok value =>
    rw [hvalue] at h
    cases h
  | error inner =>
    rw [hvalue] at h
    cases h
    obtain ⟨hkind, hoffset⟩ := encodedValue_error hvalue
    rw [hcompliance, takeWhile_run hrun hrest] at hoffset
    refine ⟨front ++ ':' :: run, rest, by simp, hkind, ?_, cut_value hwalk hleading hrun hrest⟩
    change inner.offset + (algorithm.stop + 1) = _
    rw [List.length_append, List.length_cons]
    omega

theorem scan_halts_universal {failure : Failure} (h : scan .universal text = .error failure) :
    Halts .universal text failure := by
  obtain ⟨front, rest, goal, rfl, hwalk, hnone, hend⟩ := algorithm_ends .universal text
  cases halgorithm : algorithmFrom .universal 0 true .universal 0 (front ++ rest) with
  | error inner =>
    rw [halgorithm, algorithmEnding, Place.verdict] at hend
    rw [scan, halgorithm] at h
    cases h
    split at hend
    · cases hend
    · next hgoal =>
      have hrejection := Except.error.inj hend
      refine ⟨front, rest, rfl, congrArg Rejection.kind hrejection,
        congrArg Rejection.offset hrejection, cut_algorithm hwalk hnone fun hmark => ?_⟩
      rw [hmark] at hgoal
      simpa using fun hinside => hgoal ⟨hinside, by decide⟩
  | ok algorithm =>
    rw [halgorithm, algorithmEnding, Place.verdict] at hend
    split at hend
    · next hgoal =>
      obtain ⟨hstop, hcompliance⟩ := Prod.mk.inj (Except.ok.inj hend)
      by_cases hmark : rest.head? = some ':'
      · obtain ⟨tail, rfl⟩ := List.head?_eq_some_iff.mp hmark
        rw [algorithmFrom_colon] at halgorithm
        exact halts_value hwalk hgoal.1 halgorithm hstop hcompliance h
      · rw [scan, halgorithm] at h
        change (if _ then _ else _) = _ at h
        rw [hstop, Int.toNat_natCast, List.drop_left, if_neg hmark] at h
        cases h
        exact ⟨front, rest, rfl, rfl, rfl, cut_algorithm hwalk hnone fun h => absurd h hmark⟩
    · cases hend

theorem scan_halts {failure : Failure} (h : scan standard text = .error failure) :
    Halts standard text failure := by
  by_cases hone : standard = .universal
  · subst hone
    exact scan_halts_universal h
  · have houtcome := scan_outcome_in hone text
    rw [h] at houtcome
    cases houtcome with
    | @error front rest _ split halt offset reports =>
      exact ⟨front, rest, split, reports, offset.trans (Int.zero_add _), halt.toCut⟩

end Digest

namespace Cursor

variable {c : Cursor} {standard : Compliance} {front rest : Text}

namespace Within

variable (h : c.Within)
include h

theorem parseDigest_settle : c.parseDigest standard = c.settle (Digest.scan standard c.window) := by
  rw [parseDigest, h.run_eq]

theorem parseDigest_ok {digest : Digest} (hdigest : (c.parseDigest standard).1 = .ok digest) :
    ∃ found, Digest.scan standard c.window = .ok found ∧ digest = shift c.offset found.value ∧
      (c.parseDigest standard).2 = { c with offset := c.offset + found.stop } := by
  rw [h.parseDigest_settle] at hdigest ⊢
  cases hscan : Digest.scan standard c.window with
  | ok found =>
    rw [hscan] at hdigest
    exact ⟨found, rfl, (Except.ok.inj hdigest).symm, rfl⟩
  | error failure =>
    rw [hscan] at hdigest
    cases hdigest

theorem parseDigest_reads (hsplit : c.window = front ++ rest) :
    (∃ digest, c.parseDigest standard =
        (.ok digest, { c with offset := c.offset + front.length })) ↔
      front ∈ standard.digest ∧ ∀ x ∈ rest.head?, standard.encodedClass x = false := by
  rw [← Digest.exists_scan_iff, ← hsplit]
  constructor
  · rintro ⟨digest, hdigest⟩
    obtain ⟨found, hscan, -, hmoved⟩ := h.parseDigest_ok (congrArg Prod.fst hdigest)
    have hoffset := congrArg Cursor.offset (hmoved.symm.trans (congrArg Prod.snd hdigest))
    exact ⟨found, hscan, Int.add_left_cancel hoffset⟩
  · rintro ⟨found, hscan, hstop⟩
    rw [h.parseDigest_settle, hscan, ← hstop]
    exact ⟨_, rfl⟩

theorem parseDigest_spans {digest : Digest} (hdigest : (c.parseDigest standard).1 = .ok digest) :
    ∃ algorithm encoded rest, c.window = algorithm ++ ':' :: encoded ++ rest ∧
      ':' ∉ algorithm ∧
      (c.parseDigest standard).2 =
        { c with offset := c.offset + (algorithm ++ ':' :: encoded).length } ∧
      digest.components.toList = Span.split CharClass.algorithmSeparator c.offset algorithm ∧
      digest.encoded = ⟨c.offset + algorithm.length + 1, encoded.length⟩ ∧
      digest.compliance.Names (algorithm ++ ':' :: encoded) := by
  obtain ⟨found, hscan, rfl, hmoved⟩ := h.parseDigest_ok hdigest
  obtain ⟨whole, rest, hsplit, hfills, hstop, -⟩ := Digest.scan_eq_ok_iff.mp hscan
  obtain ⟨algorithm, encoded, rfl, hcolon, hcomponents, hencoded⟩ := hfills.spans
  refine ⟨algorithm, encoded, rest, hsplit, hcolon, hstop ▸ hmoved, ?_, ?_, hfills.names⟩
  · change shift c.offset found.value.components.toList = _
    rw [hcomponents, Span.split_shift, Int.zero_add]
  · have hplace : (algorithm.length : Int) + 1 + c.offset = c.offset + algorithm.length + 1 := by
      omega
    change shift c.offset found.value.encoded = _
    rw [hencoded]
    exact congrArg (Span.mk · _) hplace

theorem parseDigest_halts {fault : Fault} (hfault : (c.parseDigest standard).1 = .error fault) :
    ∃ front rest, c.window = front ++ rest ∧
      fault = .rejected { kind := .digestInvalidFormat, offset := c.offset + front.length } ∧
      Cut standard.digest front rest := by
  rw [h.parseDigest_settle] at hfault
  cases hscan : Digest.scan standard c.window with
  | ok found =>
    rw [hscan] at hfault
    cases hfault
  | error failure =>
    rw [hscan] at hfault
    cases hfault
    obtain ⟨front, rest, hsplit, hkind, hoffset, hcut⟩ := Digest.scan_halts hscan
    refine ⟨front, rest, hsplit, ?_, hcut⟩
    change Fault.rejected { kind := failure.kind, offset := failure.offset + c.offset } = _
    rw [hkind, hoffset, Int.add_comm]

end Within

/-- A digest is read up to the first character that its value cannot go on with, and it is labelled
with the grammars that it is in, whichever one was asked for. Any other text is rejected at the
first character that no digest of the asked grammar goes on with. -/
theorem parseDigest_complies (h : c.Within) (standard : Compliance) :
    (∀ front rest, c.window = front ++ rest →
      ((∃ digest, c.parseDigest standard =
          (.ok digest, { c with offset := c.offset + front.length })) ↔
        front ∈ standard.digest ∧ ∀ x ∈ rest.head?, standard.encodedClass x = false)) ∧
    (∀ digest, (c.parseDigest standard).1 = .ok digest →
      ∃ algorithm encoded rest, c.window = algorithm ++ ':' :: encoded ++ rest ∧
        ':' ∉ algorithm ∧
        (c.parseDigest standard).2 =
          { c with offset := c.offset + (algorithm ++ ':' :: encoded).length } ∧
        digest.components.toList =
          Span.split CharClass.algorithmSeparator c.offset algorithm ∧
        digest.encoded = ⟨c.offset + algorithm.length + 1, encoded.length⟩ ∧
        digest.compliance.Names (algorithm ++ ':' :: encoded)) ∧
    ∀ fault, (c.parseDigest standard).1 = .error fault →
      ∃ front rest, c.window = front ++ rest ∧
        fault = .rejected { kind := .digestInvalidFormat, offset := c.offset + front.length } ∧
        Cut standard.digest front rest := by
  refine ⟨?_, ?_, ?_⟩
  · intro front rest hsplit
    exact h.parseDigest_reads hsplit
  · intro digest hdigest
    exact h.parseDigest_spans hdigest
  · intro fault hfault
    exact h.parseDigest_halts hfault

theorem parseDigest_complies_oci :
    (∃ digest, (ofText "x+9:Y=,".toList).parseDigest .universal =
      (.ok digest, ⟨"x+9:Y=,".toList, 6, 7⟩)) ∧
    "x+9:Y=".toList ∈ Compliance.digest .universal := by
  have hread : ∃ digest, (ofText "x+9:Y=,".toList).parseDigest .universal =
      (.ok digest, ⟨"x+9:Y=,".toList, 6, 7⟩) := ⟨_, rfl⟩
  have hcomplies := parseDigest_complies (within_ofText "x+9:Y=,".toList) .universal
  exact ⟨hread, ((hcomplies.1 "x+9:Y=".toList ",".toList rfl).mp hread).1⟩

end Cursor

end ImageReference
