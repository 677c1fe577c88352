import ImageReference.Proofs.Reference

/-!
# Scans in front of an at sign

A path and a tag end in front of an at sign. What is read from a text is read
again if an at sign and anything else is written behind it, as long as that does
not change the kind of the leading segment.
-/

namespace ImageReference

variable {α : Type} {text more : Text}

namespace Scan

def Settled (scan : Scan α) : Prop :=
  ∀ text more found, scan text = .ok found → scan (text ++ '@' :: more) = .ok found

variable [Shift α] {scan : Scan α} {place : Int}

theorem Settled.behind {found : Scanned α} (h : scan.Settled) (hplace : place.toNat ≤ text.length)
    (hfound : scan.behind place text = .ok found) (more : Text) :
    scan.behind place (text ++ '@' :: more) = .ok found := by
  obtain ⟨inner, hinner, rfl⟩ := behind_eq_ok hfound
  rw [Scan.behind, List.drop_append_of_le_length hplace, h _ more _ hinner]
  rfl

theorem Settled.marked {mark : Char} {found : Scanned (Option α)} (h : scan.Settled)
    (hmark : mark ≠ '@') (hplace : place.toNat ≤ text.length)
    (hfound : Scan.marked mark scan place text = .ok found) (more : Text) :
    Scan.marked mark scan place (text ++ '@' :: more) = .ok found := by
  rw [Scan.marked] at hfound ⊢
  rw [List.drop_append_of_le_length hplace]
  cases hrest : text.drop place.toNat with
  | nil =>
    rw [hrest, if_neg (by simp)] at hfound
    rw [if_neg (by simpa using hmark.symm)]
    exact hfound
  | cons c rest =>
    rw [hrest] at hfound
    rw [List.cons_append, List.head?_cons]
    rw [List.head?_cons] at hfound
    split at hfound
    · next hc =>
      have hlength : place.toNat < text.length := by
        have hdrop := congrArg List.length hrest
        rw [List.length_drop, List.length_cons] at hdrop
        omega
      obtain ⟨inner, hinner, rfl⟩ := map_eq_ok hfound
      rw [if_pos hc, h.behind (by omega) hinner more]
      rfl
    · next hc =>
      rw [if_neg hc]
      exact hfound

end Scan

-- An at sign goes on with no word, so only the case of the end of the text is a new one.
theorem Path.scanFrom_at {component here : Int} {place : Place} {found : Scanned Path}
    (h : scanFrom component place here text = .ok found) (more : Text) :
    scanFrom component place here (text ++ '@' :: more) = .ok found := by
  fun_induction scanFrom component place here text generalizing found with
  | case1 component here =>
    have hword : CharClass.lowerAlnum '@' = false := by decide
    have hupper : CharClass.upper '@' = false := by decide
    cases h
    simp [scanFrom, hword, hupper]
  | case2 | case5 | case6 | case10 | case12 | case14 => simp_all [scanFrom]
  | case4 | case7 | case11 =>
    rename_i ih
    obtain ⟨inner, hinner, rfl⟩ := map_eq_ok h
    have hmore := ih hinner
    simp_all [scanFrom, Except.map]
  | case8 =>
    cases h
    simp_all [scanFrom]
  | case3 | case9 | case13 | case15 => cases h

theorem Path.scan_settled : Scan.Settled Path.scan :=
  fun _ more _ h => scanFrom_at h more

theorem Tag.run_at (text more : Text) (n : Nat) :
    ((text ++ '@' :: more).take n).takeWhile CharClass.tag =
      (text.take n).takeWhile CharClass.tag := by
  obtain ⟨run, rest, rfl, hrun, hrest⟩ := exists_run CharClass.tag text
  have hmore : ∀ c ∈ (rest ++ '@' :: more).head?, CharClass.tag c = false := by
    intro c hc
    cases rest with
    | nil =>
      obtain rfl : '@' = c := Option.some_inj.mp hc
      decide
    | cons d rest => exact hrest c hc
  rw [List.append_assoc, takeWhile_take_run hrun hmore, takeWhile_take_run hrun hrest]

theorem Tag.scan_settled : Scan.Settled Tag.scan := by
  intro text more found h
  cases text with
  | nil => cases h
  | cons c rest =>
    rw [scan] at h ⊢
    rw [run_at]
    exact h

namespace Name

theorem scan_at {found : Scanned Name} (h : scan text = .ok found)
    (hkind : SegmentKind.ofText (text ++ '@' :: more) = SegmentKind.ofText text) :
    scan (text ++ '@' :: more) = .ok found := by
  cases htext : SegmentKind.ofText text with
  | path =>
    rw [scan, htext] at h
    rw [scan, hkind, htext]
    obtain ⟨path, hpath, rfl⟩ := map_eq_ok h
    simp only [Path.scan_settled _ more _ hpath]
    rfl
  | domain =>
    obtain ⟨host, hhost⟩ := host_of_scan h htext
    rcases SegmentKind.leading_split text with hwhole | ⟨rest, hsplit⟩
    · rw [hwhole] at hhost
      rw [scan_whole htext hwhole hhost] at h
      cases h
    · have hslash : '/' ∉ SegmentKind.leading text := SegmentKind.slash_notMem_leading
      generalize SegmentKind.leading text = segment at hhost hsplit hslash
      subst hsplit
      rw [scan_slash htext hslash hhost] at h
      obtain ⟨path, hpath, rfl⟩ := map_eq_ok h
      have hplace : ((segment.length : Int) + 1).toNat ≤ (segment ++ '/' :: rest).length := by
        rw [List.length_append, List.length_cons]
        omega
      have hmore := Path.scan_settled.behind hplace hpath more
      rw [List.append_assoc, List.cons_append] at hmore hkind ⊢
      rw [scan_slash (hkind.trans htext) hslash hhost, hmore]
      rfl

end Name

namespace Reference

variable {r : Reference} {stop : Int}

theorem scan_at (h : scan text = .ok ⟨r, stop⟩) (hnone : r.digestSpans = none)
    (hkind : SegmentKind.ofText (text ++ '@' :: more) = SegmentKind.ofText text) :
    scan (text ++ '@' :: more) = (do
      let digest ← shift (text.length + 1 : Int) (Digest.scan .distribution more)
      if digest.stop < (text ++ '@' :: more).length then
        .error { kind := .referenceInvalidFormat, offset := digest.stop }
      else
        return ⟨⟨text ++ '@' :: more, r.domainHost, r.pathSpans, r.tagSpan, some digest.value⟩,
          digest.stop⟩) := by
  have hlast : stop = text.length := scan_stop h
  obtain ⟨name, hname, hbehind⟩ := bind_eq_ok h
  obtain ⟨tag, htag, hbehind⟩ := bind_eq_ok hbehind
  obtain ⟨digest, hdigest, hbehind⟩ := bind_eq_ok hbehind
  split at hbehind
  · cases hbehind
  cases hbehind
  have hstop : tag.stop = text.length := by
    rw [← hlast]
    exact (Scan.marked_none hdigest hnone).symm
  have hplace := Name.scan_stop_le hname
  have htag' := Tag.scan_settled.marked (by decide) (by omega) htag more
  rw [scan, Name.scan_at hname hkind]
  change scanBehind _ name = _
  rw [scanBehind, htag']
  change (Scan.marked '@' (Digest.scan .distribution) tag.stop _ >>= _) = _
  rw [hstop, Scan.marked_behind]
  cases Digest.scan .distribution more <;> rfl

end Reference

end ImageReference
