import ImageReference.Proofs.Cursor
import ImageReference.Proofs.Kinds
import ImageReference.Proofs.Pieces

/-!
# Names in a window

A host and a path are read from the window of the cursor and from nothing else.
Only the kind of the leading segment is decided on the whole source: a text that
has no slash of its own is taken for a domain if what stands behind it has one,
and there it is no name, whatever it is alone.
-/

namespace ImageReference

def RejectsIn {α : Type} (kinds : List RejectionKind) (result : Except Fault α) : Prop :=
  (∃ value, result = .ok value) ∨ ∃ e, result = .error (.rejected e) ∧ e.kind ∈ kinds

namespace Cursor

variable {c : Cursor} {before text after : Text}

def parseDomainAlone (c : Cursor) : Except Fault Name × Cursor :=
  match c.parseHost.1 with
  | .error fault => (.error fault, c)
  | .ok _ => (.error (.rejected { kind := .referenceInvalidFormat, offset := c.stop }), c)

def parseDomainPath (c : Cursor) (slash : Int) : Except Fault Name × Cursor :=
  match (parseHost { c with stop := slash }).1 with
  | .error fault => (.error fault, c)
  | .ok host => parseNameBehind { c with offset := slash + 1 } (some host)

def parseNameAs (c : Cursor) : SegmentKind → Except Fault Name × Cursor
  | .path => c.parseNameBehind none
  | .domain =>
      match c.window.idxOf? '/' with
      | none => c.parseDomainAlone
      | some i => c.parseDomainPath (c.offset + i)

namespace Within

theorem parseName_eq (h : c.Within) :
    c.parseName = c.parseNameAs (SegmentKind.ofSource c.source c.offset) := by
  rw [parseName]
  cases SegmentKind.ofSource c.source c.offset with
  | path => rfl
  | domain =>
    simp only [h.findBetween_eq, parseNameAs]
    cases hslash : c.window.idxOf? '/' with
    | none =>
      change _ = c.parseDomainAlone
      rw [parseDomainAlone]
      simp only [Option.map_none, Option.getD_none]
      cases c.parseHost.1 <;> rfl
    | some i =>
      change _ = c.parseDomainPath (c.offset + i)
      rw [parseDomainPath]
      simp only [Option.map_some, Option.getD_some]
      cases (parseHost { c with stop := c.offset + i }).1 <;> rfl

theorem parseNameBehind_embed (h : c.Within) (before after : Text) (domain : Option Host) :
    (c.embed before after).parseNameBehind (shift before.length domain) =
      Prod.map (shift before.length) (Cursor.embed before after) (c.parseNameBehind domain) := by
  have hpath : (c.embed before after).parsePath =
      Prod.map (shift before.length) (Cursor.embed before after) c.parsePath :=
    h.run_embed Path.scan before after
  rw [parseNameBehind, hpath, parseNameBehind]
  rcases c.parsePath with ⟨_ | path, moved⟩ <;> rfl

theorem parseDomainAlone_embed (h : c.Within) (before after : Text) :
    (c.embed before after).parseDomainAlone =
      Prod.map (shift before.length) (Cursor.embed before after) c.parseDomainAlone := by
  rw [parseDomainAlone, h.parseHost_embed, parseDomainAlone]
  rcases c.parseHost with ⟨_ | host, moved⟩ <;> rfl

theorem parseDomainPath_embed {slash : Int} (h : c.Within) (hfront : c.offset ≤ slash)
    (hback : slash < c.stop) (before after : Text) :
    (c.embed before after).parseDomainPath (slash + before.length) =
      Prod.map (shift before.length) (Cursor.embed before after) (c.parseDomainPath slash) := by
  obtain ⟨hnonneg, hordered, hbounded⟩ := h
  have hsegment : Within { c with stop := slash } := ⟨hnonneg, hfront, by simp only; omega⟩
  have hbehind : Within { c with offset := slash + 1 } := ⟨by simp only; omega, hback, hbounded⟩
  rw [parseDomainPath]
  change (match (Cursor.embed before after { c with stop := slash }).parseHost.1 with
    | .error fault => _
    | .ok host => _) = _
  rw [hsegment.parseHost_embed, parseDomainPath]
  rcases (parseHost { c with stop := slash }) with ⟨fault | host, moved⟩
  · rfl
  · have hplace : slash + before.length + 1 = slash + 1 + before.length := Int.add_right_comm ..
    change parseNameBehind { c.embed before after with offset := slash + before.length + 1 }
      (shift before.length (some host)) = _
    rw [hplace]
    exact hbehind.parseNameBehind_embed before after (some host)

theorem parseNameAs_embed (h : c.Within) (before after : Text) (kind : SegmentKind) :
    (c.embed before after).parseNameAs kind =
      Prod.map (shift before.length) (Cursor.embed before after) (c.parseNameAs kind) := by
  cases kind with
  | path => exact h.parseNameBehind_embed before after none
  | domain =>
    rw [parseNameAs, h.window_embed, parseNameAs]
    cases hslash : c.window.idxOf? '/' with
    | none => exact h.parseDomainAlone_embed before after
    | some i =>
      obtain ⟨hi, -, -⟩ := List.idxOf?_eq_some_iff.mp hslash
      have hlength := h.length_window
      have hplace : c.offset + before.length + i = c.offset + i + before.length :=
        Int.add_right_comm ..
      change (c.embed before after).parseDomainPath (c.offset + before.length + i) = _
      rw [hplace]
      exact h.parseDomainPath_embed (by omega) (by omega) before after

theorem run_kinds {α : Type} [Shift α] {scan : Scan α} {kinds : List RejectionKind}
    (h : c.Within) (hscan : FailsIn kinds (scan c.window)) : RejectsIn kinds (c.run scan).1 := by
  rw [h.run_eq]
  cases hresult : scan c.window with
  | ok found => exact .inl ⟨_, rfl⟩
  | error failure => exact .inr ⟨_, rfl, hscan failure hresult⟩

theorem parseHost_kinds (h : c.Within) :
    RejectsIn (HostKind.ofText c.window).kinds c.parseHost.1 := by
  rw [h.parseHost_eq]
  exact h.run_kinds (Host.scanAs_kinds _ c.window)

theorem parseNameBehind_kinds (h : c.Within) (domain : Option Host) :
    RejectsIn Path.kinds (c.parseNameBehind domain).1 := by
  have hpath : RejectsIn Path.kinds c.parsePath.1 :=
    h.run_kinds (Path.scanFrom_kinds 0 .fresh 0 c.window)
  rw [parseNameBehind]
  rcases hpath with ⟨path, hpath⟩ | ⟨e, hpath, he⟩
  · generalize c.parsePath = found at hpath
    obtain ⟨_, moved⟩ := found
    subst hpath
    exact .inl ⟨_, rfl⟩
  · generalize c.parsePath = found at hpath
    obtain ⟨_, moved⟩ := found
    subst hpath
    exact .inr ⟨e, rfl, he⟩

theorem parseDomainAlone_kinds (h : c.Within) :
    ∃ e, c.parseDomainAlone.1 = .error (.rejected e) ∧ e.kind ∉ Path.kinds := by
  have hdisjoint : ∀ kind ∈ (HostKind.ofText c.window).kinds, kind ∉ Path.kinds := by
    cases HostKind.ofText c.window <;> decide
  rw [parseDomainAlone]
  rcases h.parseHost_kinds with ⟨host, hhost⟩ | ⟨e, hhost, he⟩
  · rw [hhost]
    refine ⟨_, rfl, ?_⟩
    change RejectionKind.referenceInvalidFormat ∉ Path.kinds
    decide
  · rw [hhost]
    exact ⟨e, rfl, hdisjoint _ he⟩

end Within

end Cursor

variable {before text after segment rest : Text}

theorem SegmentKind.ofSource_append (before text : Text) :
    ofSource (before ++ text) before.length = ofText text := by
  have hslice : slice (before ++ text ++ []) before.length (before.length + text.length) = text :=
    slice_append
  rw [List.append_nil, ← Int.natCast_add, ← List.length_append] at hslice
  rw [ofSource, hslice]
  exact if_pos (Int.natCast_nonneg _)

theorem hasDomain_slash (hslash : '/' ∉ segment) : HasDomain (segment ++ '/' :: rest) ↔
    segment.head? = some '[' ∨ '.' ∈ segment ∨ ':' ∈ segment ∨ segment = "localhost".toList := by
  have hleading : (segment ++ '/' :: rest).takeWhile (· != '/') = segment :=
    SegmentKind.leading_append hslash
  have hhead : (segment ++ '/' :: rest).head? = some '[' ↔ segment.head? = some '[' := by
    cases segment <;> simp
  rw [HasDomain, hleading, hhead]
  simp

theorem hasDomain_append (h : '/' ∈ text) : HasDomain (text ++ after) ↔ HasDomain text := by
  obtain ⟨segment, rest, rfl, hslash⟩ := List.eq_append_cons_of_mem h
  rw [List.append_assoc, List.cons_append, hasDomain_slash hslash, hasDomain_slash hslash]

/-- The text has no slash, and what stands behind it makes a domain of it. -/
def SwayedBy (text after : Text) : Prop :=
  '/' ∉ text ∧ text.head? ≠ some '[' ∧ HasDomain (text ++ after)

theorem swayedBy_iff : SwayedBy text after ↔ ¬ HasDomain text ∧ HasDomain (text ++ after) := by
  constructor
  · intro h
    obtain ⟨hslash, hhead, hdomain⟩ := h
    refine ⟨fun htext => ?_, hdomain⟩
    rcases htext with htext | ⟨htext, -⟩
    · exact hhead htext
    · exact hslash htext
  · intro h
    obtain ⟨htext, hdomain⟩ := h
    refine ⟨fun hslash => ?_, fun hhead => htext (.inl hhead), hdomain⟩
    exact htext ((hasDomain_append hslash).mp hdomain)

theorem hasDomain_append_of_head (h : text.head? = some '[') : HasDomain (text ++ after) := by
  obtain ⟨rest, rfl⟩ := List.head?_eq_some_iff.mp h
  exact .inl rfl

theorem SegmentKind.ofText_append (h : ¬ SwayedBy text after) :
    ofText (text ++ after) = ofText text := by
  have hiff : HasDomain (text ++ after) ↔ HasDomain text := by
    constructor
    · intro hdomain
      by_contra htext
      exact h (swayedBy_iff.mpr ⟨htext, hdomain⟩)
    · intro htext
      rcases id htext with hhead | ⟨hslash, -⟩
      · exact hasDomain_append_of_head hhead
      · exact (hasDomain_append hslash).mpr htext
  rw [hasDomain_iff, hasDomain_iff] at hiff
  cases hkind : ofText text with
  | domain => exact hiff.mpr hkind
  | path =>
    cases happended : ofText (text ++ after) with
    | path => rfl
    | domain => exact (hiff.mp happended).symm.trans hkind

namespace Cursor

theorem parseName_ofText (text : Text) :
    (ofText text).parseName = (ofText text).parseNameAs (SegmentKind.ofText text) := by
  have hkind : SegmentKind.ofSource text 0 = SegmentKind.ofText text :=
    SegmentKind.ofSource_append [] text
  rw [(within_ofText text).parseName_eq]
  exact congrArg (ofText text).parseNameAs hkind

theorem parseName_embed (before text after : Text) :
    ((ofText text).embed before after).parseName =
      Prod.map (shift before.length) (embed before after)
        ((ofText text).parseNameAs (SegmentKind.ofText (text ++ after))) := by
  have hwithin := within_ofText text
  have hkind : SegmentKind.ofSource ((ofText text).embed before after).source
      ((ofText text).embed before after).offset = SegmentKind.ofText (text ++ after) := by
    rw [embed, ← SegmentKind.ofSource_append before (text ++ after), ← List.append_assoc]
    exact congrArg _ (Int.zero_add _)
  rw [(hwithin.embed before after).parseName_eq, hkind, hwithin.parseNameAs_embed]

theorem parseNameAs_ofText_domain (hslash : '/' ∉ text) :
    (ofText text).parseNameAs .domain = (ofText text).parseDomainAlone := by
  rw [parseNameAs, window_ofText, List.idxOf?_eq_none_iff.mpr hslash]

theorem parseName_swayed (before : Text) (h : SwayedBy text after) :
    ∃ e, ((ofText text).embed before after).parseName.1 = .error (.rejected e) ∧
      e.kind ∉ Path.kinds := by
  obtain ⟨e, he, hkind⟩ := (within_ofText text).parseDomainAlone_kinds
  have hdomain : SegmentKind.ofText (text ++ after) = .domain := hasDomain_iff.mp h.2.2
  refine ⟨shift before.length e, ?_, hkind⟩
  rw [parseName_embed, hdomain, parseNameAs_ofText_domain h.1]
  change shift _ (ofText text).parseDomainAlone.1 = _
  rw [he]
  rfl

theorem parseName_unswayed_kinds (h : SwayedBy text after) :
    RejectsIn Path.kinds (ofText text).parseName.1 := by
  have hpath : SegmentKind.ofText text = .path := by
    cases hkind : SegmentKind.ofText text with
    | path => rfl
    | domain => exact absurd (hasDomain_iff.mpr hkind) (swayedBy_iff.mp h).1
  rw [parseName_ofText, hpath]
  exact (within_ofText text).parseNameBehind_kinds none

/-- A window is read alike wherever it stands, except that a window without a slash is read as a
domain, and refused, if what stands behind it makes a domain of it. -/
theorem parseName_embed_iff (before text after : Text) :
    (((ofText text).embed before after).parseName =
        Prod.map (shift before.length) (embed before after) (ofText text).parseName ↔
      ¬ SwayedBy text after) ∧
    (SwayedBy text after → ∃ e, ((ofText text).embed before after).parseName.1 =
      .error (.rejected e) ∧ e.kind ∉ Path.kinds) := by
  refine ⟨⟨fun heq hswayed => ?_, fun hkept => ?_⟩, parseName_swayed before⟩
  · obtain ⟨e, he, hkind⟩ := parseName_swayed before hswayed
    rw [heq] at he
    change shift _ (ofText text).parseName.1 = _ at he
    rcases parseName_unswayed_kinds hswayed with ⟨name, hname⟩ | ⟨f, hf, hfkind⟩
    · rw [hname] at he
      cases he
    · rw [hf] at he
      cases he
      exact hkind hfkind
  · rw [parseName_embed, parseName_ofText, SegmentKind.ofText_append hkept]

theorem parseName_embed_dotted :
    SwayedBy "a.b".toList "/c:1".toList ∧
      ∃ e, ((ofText "a.b".toList).embed "x:".toList "/c:1".toList).parseName.1 =
        .error (.rejected e) ∧ e.kind ∉ Path.kinds := by
  have h : SwayedBy "a.b".toList "/c:1".toList :=
    ⟨by decide, by decide, .inr ⟨by decide, .inl (by decide)⟩⟩
  exact ⟨h, (parseName_embed_iff "x:".toList "a.b".toList "/c:1".toList).2 h⟩

/-- A slash behind the window makes a domain of a window that is a path by itself. -/
theorem parseName_slash_behind :
    (ofText "a.b".toList).parseName.1 = .ok ⟨none, ⟨.single ⟨0, 3⟩, [.dot]⟩⟩ ∧
      ((ofText "a.b".toList).embed [] ['/']).parseName.1 =
        .error (.rejected { kind := .referenceInvalidFormat, offset := 3 }) :=
  ⟨rfl, rfl⟩

end Cursor

end ImageReference
