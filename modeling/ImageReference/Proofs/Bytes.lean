import ImageReference.Proofs.Alike
import ImageReference.Proofs.CharClass
import ImageReference.Proofs.Judge
import ImageReference.Proofs.Options

/-!
# Bytes in place of a text

Bytes stand for one character each, so an encoding in UTF-8 spells another text
than the one that was encoded, unless that is plain. Behind the first foreign
character nothing has its place any more. But both texts are alike, with the
same marks in the same order, and they are read alike: a plain text as itself,
and any other is rejected at one place in its plain front part, where characters
and bytes are still the same.
-/

namespace ImageReference

variable {α : Type} {text source rest : Text} {c mark : Char}

/-- The text that stands for the encoding of a text. -/
def bytewise (text : Text) : Text := ofLatin1 (toUtf8 text)

def spelling (c : Char) : Text := ofLatin1 (String.utf8EncodeChar c)

theorem bytewise_cons (c : Char) (rest : Text) :
    bytewise (c :: rest) = spelling c ++ bytewise rest := by
  rw [bytewise, toUtf8, List.flatMap_cons, ofLatin1, List.map_append]
  rfl

theorem toNat_ofNat_byte (byte : UInt8) : (Char.ofNat byte.toNat).toNat = byte.toNat := by
  have hlt := byte.toNat_lt
  have hvalid : byte.toNat.isValidChar := Or.inl (by omega)
  have hchar : Char.ofNat byte.toNat = Char.ofNatAux byte.toNat hvalid := dif_pos hvalid
  rw [hchar]
  rfl

theorem encode_plain (hc : CharClass.plain c = true) :
    String.utf8EncodeChar c = [UInt8.ofNat c.toNat] := by
  have hlt : c.val.toNat < 128 := of_decide_eq_true hc
  rw [String.utf8EncodeChar, if_pos (by omega)]
  rfl

theorem spelling_plain (hc : CharClass.plain c = true) : spelling c = [c] := by
  have hlt : c.toNat < 128 := of_decide_eq_true hc
  have hbyte : (UInt8.ofNat c.toNat).toNat = c.toNat := by
    rw [UInt8.toNat_ofNat']
    omega
  rw [spelling, encode_plain hc, ofLatin1, List.map_singleton, hbyte, Char.ofNat_toNat]

theorem le_of_mem_encode {byte : UInt8} (hc : CharClass.plain c = false)
    (h : byte ∈ String.utf8EncodeChar c) : 128 ≤ byte.toNat := by
  have hlt : ¬ c.val.toNat ≤ 127 := fun hle => of_decide_eq_false hc (Nat.lt_succ_of_le hle)
  revert byte
  rw [String.utf8EncodeChar]
  simp only [hlt, if_false]
  split
  · simp
    omega
  · split
    · simp
      omega
    · simp
      omega

theorem spelling_foreign (hc : CharClass.plain c = false) :
    ∀ d ∈ spelling c, CharClass.plain d = false := by
  intro d hd
  obtain ⟨byte, hbyte, rfl⟩ := List.mem_map.mp hd
  have hle := le_of_mem_encode hc hbyte
  rw [CharClass.plain, toNat_ofNat_byte]
  exact decide_eq_false (by omega)

theorem spelling_ne_nil (c : Char) : spelling c ≠ [] :=
  fun he => String.utf8EncodeChar_ne_nil (List.map_eq_nil_iff.mp he)

theorem mem_spelling_iff (hmark : CharClass.plain mark = true) : mark ∈ spelling c ↔ mark = c := by
  by_cases hc : CharClass.plain c = true
  · rw [spelling_plain hc, List.mem_singleton]
  · rw [Bool.not_eq_true] at hc
    constructor
    · intro hmem
      rw [spelling_foreign hc mark hmem] at hmark
      cases hmark
    · intro he
      exact absurd he.symm (CharClass.ne_of_foreign hc hmark)

theorem bytewise_plain (h : ∀ c ∈ text, CharClass.plain c = true) : bytewise text = text := by
  induction text with
  | nil => rfl
  | cons c rest ih =>
    rw [bytewise_cons, spelling_plain (h c (by simp)), ih fun d hd => h d (by simp [hd])]
    rfl

theorem alike_bytewise (text : Text) : Alike text (bytewise text) := by
  induction text with
  | nil => exact .ended
  | cons c rest ih =>
    rw [bytewise_cons]
    by_cases hc : CharClass.plain c = true
    · rw [spelling_plain hc]
      exact .plain hc ih
    · rw [Bool.not_eq_true] at hc
      obtain ⟨d, more, hspelling⟩ := List.exists_cons_of_ne_nil (spelling_ne_nil c)
      have hd : CharClass.plain d = false := spelling_foreign hc d (by simp [hspelling])
      rw [hspelling]
      exact .foreign hc hd

theorem mem_bytewise_iff (hmark : CharClass.plain mark = true) :
    mark ∈ bytewise text ↔ mark ∈ text := by
  induction text with
  | nil => rfl
  | cons c rest ih =>
    rw [bytewise_cons, List.mem_append, List.mem_cons, mem_spelling_iff hmark, ih]

theorem plain_of_bytewise (h : ∀ c ∈ bytewise text, CharClass.plain c = true) :
    ∀ c ∈ text, CharClass.plain c = true := by
  induction text with
  | nil => simp
  | cons c rest ih =>
    rw [bytewise_cons] at h
    have hrest := ih fun d hd => h d (List.mem_append_right _ hd)
    obtain ⟨d, more, hspelling⟩ := List.exists_cons_of_ne_nil (spelling_ne_nil c)
    have hd : CharClass.plain d = true := h d (by simp [hspelling])
    intro e he
    rcases List.mem_cons.mp he with rfl | he
    · by_contra hforeign
      rw [Bool.not_eq_true] at hforeign
      rw [spelling_foreign hforeign d (by simp [hspelling])] at hd
      cases hd
    · exact hrest e he

theorem bytewise_eq_iff {word : Text} (hword : ∀ c ∈ word, CharClass.plain c = true) :
    bytewise text = word ↔ text = word := by
  constructor
  · intro he
    rw [← he] at hword
    exact (bytewise_plain (plain_of_bytewise hword)).symm.trans he
  · rintro rfl
    exact bytewise_plain hword

namespace SegmentKind

theorem leading_bytewise (text : Text) : leading (bytewise text) = bytewise (leading text) := by
  induction text with
  | nil => rfl
  | cons c rest ih =>
    rw [bytewise_cons]
    by_cases hc : c = '/'
    · subst hc
      rw [spelling_plain rfl]
      rfl
    · have hspelling : ∀ d ∈ spelling c, (d != '/') = true := by
        intro d hd
        rw [bne_iff_ne]
        rintro rfl
        exact hc ((mem_spelling_iff rfl).mp hd).symm
      have hhead : (c != '/') = true := bne_iff_ne.mpr hc
      have hleading : leading (c :: rest) = c :: leading rest := by
        rw [leading, List.takeWhile_cons, if_pos hhead]
        rfl
      rw [hleading, bytewise_cons, ← ih, leading, List.takeWhile_append_of_pos hspelling]
      rfl

theorem ofText_bytewise (text : Text) : ofText (bytewise text) = ofText text := by
  have hdomain : ofText (bytewise text) = .domain ↔ ofText text = .domain := by
    have hlocalhost : ∀ c ∈ localhost, CharClass.plain c = true := List.all_eq_true.mp rfl
    have hhead := (alike_bytewise text).head?_eq_some_iff (show CharClass.plain '[' = true from rfl)
    rw [ofText_eq_domain_iff, ofText_eq_domain_iff, leading_bytewise, bytewise_eq_iff hlocalhost,
      mem_bytewise_iff rfl, mem_bytewise_iff rfl, mem_bytewise_iff rfl, hhead]
  cases hkind : ofText text with
  | domain => exact hdomain.mpr hkind
  | path =>
    cases hother : ofText (bytewise text) with
    | path => rfl
    | domain =>
      rw [hdomain.mp hother] at hkind
      cases hkind

end SegmentKind

namespace Name

theorem scanDomain_bytewise (source : Text) : scanDomain (bytewise source) = scanDomain source := by
  have halike := alike_bytewise source
  have hhost : Host.scan (SegmentKind.leading (bytewise source)) =
      Host.scan (SegmentKind.leading source) := by
    rw [SegmentKind.leading_bytewise]
    exact (Host.scan_alike (alike_bytewise _)).symm
  cases hscan : Host.scan (SegmentKind.leading source) with
  | error failure =>
    rw [scanDomain, scanDomain, hhost, hscan]
    rfl
  | ok host =>
    -- A segment that was read as a host is plain, so that it is its own spelling.
    have hplain := Host.plain_of_scan hscan
    have hback : ((SegmentKind.leading source).length : Int) ≤ plainLength source :=
      length_le_plainLength (List.takeWhile_prefix _) hplain
    have hsame : SegmentKind.leading (bytewise source) = SegmentKind.leading source :=
      (SegmentKind.leading_bytewise source).trans (bytewise_plain hplain)
    have hmore := halike.lt_length_iff hback
    have hle : (SegmentKind.leading source).length ≤ source.length :=
      (List.takeWhile_prefix _).length_le
    have hle' : (SegmentKind.leading (bytewise source)).length ≤ (bytewise source).length :=
      (List.takeWhile_prefix _).length_le
    rw [hsame] at hle'
    rw [scanDomain, scanDomain, hsame, hscan]
    change (if _ then _ else _) = (if _ then _ else _)
    by_cases hwhole : (SegmentKind.leading source).length = source.length
    · rw [if_pos hwhole, if_pos (by omega)]
    · have hplace := SegmentKind.slash_le_plainLength hback hwhole
      rw [if_neg hwhole, if_neg (by omega), halike.behind Path.scan_alike hplace]

theorem scan_bytewise (source : Text) : scan (bytewise source) = scan source := by
  rw [scan, scan, SegmentKind.ofText_bytewise]
  cases SegmentKind.ofText source with
  | domain => exact scanDomain_bytewise source
  | path =>
    change Except.map _ (Path.scan (bytewise source)) = _
    rw [← Path.scan_alike (alike_bytewise source)]

end Name

def Foreign (text : Text) : Prop := ∃ c ∈ text, CharClass.plain c = false

theorem Foreign.plainLength_lt (h : Foreign text) : plainLength text < text.length := by
  obtain ⟨c, hc, hforeign⟩ := h
  have hle := plainLength_le text
  by_contra hlt
  have hplain := plainLength_eq_iff.mp (by omega : plainLength text = text.length) c hc
  rw [hplain] at hforeign
  cases hforeign

/-- The encoding is read as the text is, and up to a fault characters and bytes are the same. -/
def ReadsAlike (source : Text) (read : Text → Except Rejection α) : Prop :=
  read (ofLatin1 (toUtf8 source)) = read source ∧ ∀ e, read source = .error e →
    ofLatin1 ((toUtf8 source).take e.offset.toNat) = source.take e.offset.toNat

def RejectsAlike (source : Text) (read : Text → Except Rejection α) : Prop :=
  ∃ e, read (bytewise source) = .error e ∧ read source = .error e ∧ e.offset ≤ plainLength source

theorem take_bytewise {k : Int} (hk : k ≤ plainLength source) :
    (bytewise source).take k.toNat = source.take k.toNat := by
  have hlength := plainLength_le source
  have hplain : ∀ c ∈ source.take k.toNat, CharClass.plain c = true := plain_take hk
  have halike := alike_bytewise source
  rw [← List.take_append_drop k.toNat source] at halike
  obtain ⟨rest, hrest, -⟩ := halike.of_append hplain
  rw [List.take_append_drop] at hrest
  rw [hrest]
  exact List.take_left' (by rw [List.length_take]; omega)

theorem readsAlike_of_foreign {read : Text → Except Rejection α}
    (h : Foreign source → RejectsAlike source read) : ReadsAlike source read := by
  by_cases hforeign : Foreign source
  · obtain ⟨e, hbytes, htext, hplace⟩ := h hforeign
    refine ⟨hbytes.trans htext.symm, fun other hother => ?_⟩
    obtain rfl : e = other := Except.error.inj (htext.symm.trans hother)
    rw [ofLatin1, List.map_take]
    exact take_bytewise hplace
  · have hplain : ∀ c ∈ source, CharClass.plain c = true := by
      intro c hc
      by_contra hnot
      exact hforeign ⟨c, hc, by simpa using hnot⟩
    have hsame : ofLatin1 (toUtf8 source) = source := bytewise_plain hplain
    refine ⟨by rw [hsame], fun e _ => ?_⟩
    rw [ofLatin1, List.map_take]
    exact congrArg (List.take _) hsame

namespace Reference

variable {limits : Limits}

theorem scanBehind_foreign {name : Scanned Name} (hforeign : Foreign source)
    (hnonneg : 0 ≤ name.stop) (hstop : name.stop ≤ plainLength source) :
    scanBehind (bytewise source) name = scanBehind source name := by
  have halike := alike_bytewise source
  have hlt := hforeign.plainLength_lt
  rw [scanBehind, scanBehind, ← halike.marked rfl Tag.scan_alike hnonneg hstop]
  apply (Lies.marked rfl Tag.scan_lies hnonneg hstop).bind_congr
  intro tag htag htagStop
  rw [← halike.marked rfl Digest.scan_alike htag htagStop]
  apply (Lies.marked rfl (Digest.scan_lies .distribution) htag htagStop).bind_congr
  intro digest _ hback
  -- Neither text ends here, and what would be made of their ends does not matter.
  have hmore : digest.stop < source.length := by omega
  rw [if_pos hmore, if_pos ((halike.lt_length_iff hback).mp hmore)]

theorem scan_foreign (hforeign : Foreign source) : ∃ failure,
    scan (bytewise source) = .error failure ∧ scan source = .error failure ∧
      failure.offset ≤ plainLength source := by
  have hsame : scan (bytewise source) = scan source := by
    rw [scan, scan, Name.scan_bytewise]
    apply (Name.scan_lies source).bind_congr
    intro name hnonneg hstop
    exact scanBehind_foreign hforeign hnonneg hstop
  have hlt := hforeign.plainLength_lt
  have hlies := scan_lies source
  cases hscan : scan source with
  | ok found =>
    have hend := scan_stop hscan
    rw [hscan, Lies.ok_iff] at hlies
    omega
  | error failure =>
    rw [hscan, Lies.error_iff] at hlies
    exact ⟨failure, hsame.trans hscan, rfl, by omega⟩

theorem parse_foreign (hforeign : Foreign source) : RejectsAlike source (parse · limits) := by
  by_cases hlong : LongName source limits.maxNameLength
  · obtain ⟨name, hname, hlong⟩ := hlong
    refine ⟨nameTooLong name.value limits.maxNameLength, parse_tooLong ?_ hlong,
      parse_tooLong hname hlong, ?_⟩
    · rwa [Name.scan_bytewise]
    · have hlies := Name.scan_lies source
      rw [hname, Lies.ok_iff] at hlies
      rw [Name.scan_span hname] at hlong
      rw [nameTooLong, Name.scan_span hname]
      simp only at hlong ⊢
      omega
  · have hlong' : ¬ LongName (bytewise source) limits.maxNameLength := by
      rwa [LongName, Name.scan_bytewise]
    obtain ⟨failure, hbytes, htext, hplace⟩ := scan_foreign hforeign
    obtain ⟨c, hc, -⟩ := hforeign
    have hne : source ≠ [] := List.ne_nil_of_mem hc
    have hne' : bytewise source ≠ [] := fun he => hne ((bytewise_eq_iff (by simp)).mp he)
    exact ⟨failure.rejection, parse_scan_error hne' hlong' hbytes, parse_scan_error hne hlong htext,
      hplace⟩

end Reference

namespace StandaloneDigest

variable {standard : Compliance} {registry : Registry}

theorem parse_scan_error {failure : Failure} (h : Digest.scan standard source = .error failure) :
    parse source standard registry = .error failure.rejection := by
  rw [parse_eq_judge, Digest.judge_scan_error h]
  rfl

theorem parse_short {found : Scanned Digest} (h : Digest.scan standard source = .ok found)
    (hshort : found.stop < source.length) : parse source standard registry =
      .error { kind := .digestInvalidFormat, offset := found.stop } := by
  rw [parse_eq_judge, Digest.judge_short h hshort]
  rfl

theorem parse_foreign (hforeign : Foreign source) :
    RejectsAlike source (parse · standard registry) := by
  have halike := alike_bytewise source
  have hlies := Digest.scan_lies standard source
  have hsame : Digest.scan standard (bytewise source) = Digest.scan standard source :=
    (Digest.scan_alike halike).symm
  cases hscan : Digest.scan standard source with
  | error failure =>
    rw [hscan, Lies.error_iff, Int.zero_add] at hlies
    exact ⟨failure.rejection, parse_scan_error (hsame.trans hscan), parse_scan_error hscan,
      hlies.1.2⟩
  | ok found =>
    rw [hscan, Lies.ok_iff, Int.zero_add] at hlies
    have hlt := hforeign.plainLength_lt
    have hmore : found.stop < source.length := by omega
    have hmore' := (halike.lt_length_iff hlies.2).mp hmore
    exact ⟨_, parse_short (hsame.trans hscan) hmore', parse_short hscan hmore, hlies.2⟩

end StandaloneDigest

/-- A text and its encoding in bytes are read alike, as references and as digests. -/
theorem Reference.parse_bytes (source : Text) (limits : Limits) (standard : Compliance)
    (registry : Registry) :
    ReadsAlike source (parse · limits) ∧ ReadsAlike source (parseCanonical · limits) ∧
      ReadsAlike source (StandaloneDigest.parse · standard registry) := by
  refine ⟨readsAlike_of_foreign parse_foreign, readsAlike_of_foreign fun hforeign => ?_,
    readsAlike_of_foreign StandaloneDigest.parse_foreign⟩
  obtain ⟨e, hbytes, htext, hplace⟩ := parse_foreign hforeign
  exact ⟨e, parseCanonical_error hbytes, parseCanonical_error htext, hplace⟩

end ImageReference
