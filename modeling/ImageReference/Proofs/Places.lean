import ImageReference.Proofs.Plain
import ImageReference.Proofs.Reference

/-!
# Where scans stop

Wherever a production is scanned, the place behind its value, the place of a
fault and the place where the scan halted lie in the plain front part of the
text, so in front of the first foreign character and of the end. The only scan
that passes over characters without a look at them is that of an IPv4 address,
and it is started only in front of a run with a dot for each of them.
-/

namespace ImageReference

variable {text run rest : Text} {here : Int} {c : Char} {p : CharClass}

theorem length_takeWhile_le (hp : p.Native) (text : Text) :
    ((text.takeWhile p).length : Int) ≤ plainLength text := by
  apply length_le_plainLength (List.takeWhile_prefix _)
  exact fun c hc => hp c (List.all_eq_true.mp List.all_takeWhile c hc)

theorem length_takeWhile_take_le (hp : p.Native) (text : Text) (n : Nat) :
    (((text.take n).takeWhile p).length : Int) ≤ plainLength text := by
  rw [← List.take_takeWhile, List.length_take]
  have hrun := length_takeWhile_le hp text
  omega

namespace Path

theorem wordFailure_halted (next : Option Char) : (wordFailure here next).halted = here := by
  cases next with
  | none => rfl
  | some c =>
    rw [wordFailure]
    split <;> rfl

theorem scanFrom_lies (component : Int) (place : Place) (here : Int) (text : Text) :
    Lies here text (scanFrom component place here text) := by
  fun_induction scanFrom component place here text with
  | case1 | case8 => exact Lies.ok_here _
  | case2 _ _ _ _ hc ih => exact ih.cons (CharClass.native_lowerAlnum _ hc)
  | case3 => exact Lies.error_here rfl rfl
  | case4 _ _ _ _ _ ih | case7 _ _ _ _ _ _ _ _ ih => exact (ih.map _).cons rfl
  | case5 _ _ _ _ _ _ ih | case6 _ _ _ _ _ _ _ ih => exact ih.cons rfl
  | case9 | case15 => exact Lies.error_here (wordFailure_offset _) (wordFailure_halted _)
  | case10 _ _ _ _ _ _ hc _ ih => exact ih.cons (CharClass.native_lowerAlnum _ hc)
  | case11 _ _ _ _ _ _ hc _ _ ih => exact (ih.map _).cons (CharClass.native_lowerAlnum _ hc)
  | case12 _ _ _ _ _ _ _ hc ih => exact ih.cons (hc.2 ▸ rfl)
  | case14 _ _ _ _ _ _ _ _ _ hc ih => exact ih.cons (hc.2 ▸ rfl)
  | case13 _ _ _ _ rest _ _ _ hc =>
    -- The third underscore has been consumed when the fault is found.
    obtain ⟨-, rfl⟩ := hc
    have hlength := plainLength_nonneg rest
    rw [Lies.error_iff, plainLength_cons rfl]
    omega

theorem scan_lies (text : Text) : Lies 0 text (scan text) := scanFrom_lies 0 .fresh 0 text

end Path

namespace Tag

theorem scan_lies (text : Text) : Lies 0 text (scan text) := by
  have hrun := length_takeWhile_take_le CharClass.native_tag text (maxLength + 1)
  simp only [scan]
  split
  · split
    · rw [Lies.error_iff]
      omega
    · rw [Lies.ok_iff]
      omega
  · exact Lies.error_here rfl rfl

end Tag

namespace Digest

theorem algorithmFrom_lies (standard : Compliance) (component : Int) (leading : Bool)
    (compliance : Compliance) (here : Int) (text : Text) :
    Lies here text (algorithmFrom standard component leading compliance here text) := by
  fun_induction algorithmFrom standard component leading compliance here text with
  | case1 _ _ _ _ _ _ hc _ ih => exact ih.cons (CharClass.native_alnum _ hc)
  | case2 _ _ _ _ _ _ hc _ _ _ ih => exact ih.cons (CharClass.native_alnum _ hc)
  | case3 | case4 | case7 => exact Lies.error_here rfl rfl
  | case5 _ _ _ _ _ _ _ _ hc ih =>
    exact (ih.map _).cons (CharClass.native_algorithmSeparator _ hc)
  | case6 | case8 => exact Lies.ok_here _

theorem encodedClass_native (standard : Compliance) : standard.encodedClass.Native := by
  cases standard with
  | distribution => exact CharClass.native_hex
  | universal | oci => exact CharClass.native_ociEncoded

theorem encodedValue_lies (standard compliance : Compliance) (text : Text) :
    Lies 0 text (encodedValue standard compliance text) := by
  have hrun := length_takeWhile_le (encodedClass_native standard) text
  simp only [encodedValue]
  split
  · next index hindex =>
    have hlt := (List.findIdx?_eq_some_iff_findIdx_eq.mp hindex).1
    split
    · rw [Lies.ok_iff]
      omega
    · rw [Lies.error_iff]
      omega
  · split
    · rw [Lies.error_iff]
      omega
    · split
      · split
        · rw [Lies.ok_iff]
          omega
        · rw [Lies.error_iff]
          omega
      · rw [Lies.ok_iff]
        omega

theorem scan_lies (standard : Compliance) (text : Text) : Lies 0 text (scan standard text) := by
  apply (algorithmFrom_lies standard 0 true .universal 0 text).bind
  intro algorithm _ hnonneg hstop
  split
  · next hcolon =>
    have hplace := succ_le_plainLength hnonneg hstop hcolon rfl
    apply (Lies.behind (encodedValue_lies standard _) (by omega) hplace).bind
    exact fun encoded _ hlow hhigh => Lies.ok_iff.mpr ⟨hlow, by omega⟩
  · rw [Lies.error_iff]
    omega

end Digest

namespace DomainName

def Place.Lies (place : Place) (here : Int) (text : Text)
    (result : Except Failure (Scanned (List Span))) : Prop :=
  match place with
  | .hyphen => ImageReference.Lies (here - 1) ('-' :: text) result
  | .fresh | .inside => ImageReference.Lies here text result

theorem Place.Lies.next {label : Int}
    (h : Place.hyphen.Lies (here + 1) rest (scanFrom label .hyphen (here + 1) rest)) :
    ImageReference.Lies here ('-' :: rest) (scanFrom label .hyphen (here + 1) rest) := by
  rw [Place.Lies, Int.add_sub_cancel] at h
  exact h

theorem lies_hyphen {kind : RejectionKind} : Place.hyphen.Lies here text
    (.error { kind, offset := here - 1, halted := here }) := by
  have hlength := plainLength_nonneg text
  rw [Place.Lies, Lies.error_iff, plainLength_cons rfl]
  omega

theorem scanFrom_lies (label : Int) (place : Place) (here : Int) (text : Text) :
    place.Lies here text (scanFrom label place here text) := by
  fun_induction scanFrom label place here text with
  | case1 | case3 => exact Lies.error_here rfl rfl
  | case4 | case8 => exact Lies.ok_here _
  | case2 _ _ _ _ hc ih | case5 _ _ _ _ hc ih => exact ih.cons (CharClass.native_alnum _ hc)
  | case6 _ _ _ _ ih => exact ih.next
  | case7 _ _ _ _ _ ih => exact (ih.map _).cons rfl
  | case9 | case12 => exact lies_hyphen
  | case10 _ _ _ _ hc ih => exact (ih.cons (CharClass.native_alnum _ hc)).pred rfl
  | case11 _ _ _ _ ih => exact ih.next.pred rfl

theorem scan_lies (text : Text) : Lies 0 text (scan text) := scanFrom_lies 0 .fresh 0 text

end DomainName

namespace Ipv4

theorem octet_lies (here : Int) (text : Text) : Lies here text (octet here text) := by
  have hrun := length_takeWhile_le CharClass.native_digit text
  simp only [octet]
  split
  · exact Lies.error_here rfl rfl
  · split
    · rw [Lies.error_iff]
      omega
    · split
      · rw [Lies.error_iff]
        omega
      · rw [Lies.ok_iff]
        omega

theorem octets_lies (more : Nat) (here : Int) (hrun : ∀ c ∈ run, CharClass.ipv4 c = true)
    (hdots : run.count '.' = more) : Lies here (run ++ rest) (octets more here (run ++ rest)) := by
  induction more generalizing run here with
  | zero => exact (octet_lies here _).map _
  | succ more ih =>
    obtain ⟨a, tail, rfl, ha, htail, htailDots⟩ := exists_dot hrun hdots
    rw [List.append_assoc, List.cons_append]
    have hplain : ∀ c ∈ a, CharClass.plain c = true := fun c hc =>
      CharClass.native_digit c (ha c hc)
    have hdot := dot_stops (tail ++ rest)
    cases hfirst : octet here (a ++ '.' :: (tail ++ rest)) with
    | error failure =>
      have hoctet := octet_lies here (a ++ '.' :: (tail ++ rest))
      rw [hfirst] at hoctet
      rw [octets, hfirst]
      exact hoctet
    | ok first =>
      obtain ⟨-, rfl⟩ := octet_sound ha hdot hfirst
      rw [octets_dot hfirst rfl]
      exact (((ih _ htail htailDots).map _).cons rfl).append hplain

end Ipv4

namespace Ipv6

variable {α : Type} {content content' : Content} {failure : Failure} {digits : Nat}

theorem Content.close_lies (content : Content) (here : Int) (rest : Text) :
    Lies here (']' :: rest) (content.close here) := by
  have hlength := plainLength_nonneg rest
  rw [close]
  split
  · exact Lies.error_here rfl rfl
  · split
    · exact Lies.error_here rfl rfl
    · rw [Lies.ok_iff, plainLength_cons rfl]
      omega

theorem Content.addHextet_lies (h : content.addHextet here digits = .error failure)
    (hdigits : digits ≤ plainLength text) :
    Lies here text (.error failure : Except Failure (Scanned α)) := by
  simp only [addHextet] at h
  split at h
  · cases h
    rw [Lies.error_iff]
    omega
  · split at h
    · cases h
      rw [Lies.error_iff]
      omega
    · cases h

theorem Content.addColons_lies {next : Option Char}
    (h : content.addColons here digits next = .error failure)
    (hdigits : digits ≤ plainLength text) :
    Lies here text (.error failure : Except Failure (Scanned α)) := by
  simp only [addColons] at h
  split at h
  · cases h
    rw [Lies.error_iff]
    omega
  · split at h
    · split at h
      · cases h
        rw [Lies.error_iff]
        omega
      · cases h
    · split at h
      · cases h
        rw [Lies.error_iff]
        omega
      · cases h

theorem hexRun_le (rest : Text) : hexRun rest ≤ plainLength rest :=
  length_takeWhile_take_le CharClass.native_hex rest hextetDigitsMax

theorem colonRun_le (rest : Text) : colonRun rest ≤ plainLength rest :=
  length_takeWhile_take_le CharClass.native_colon rest 2

theorem contentFrom_lies (content : Content) (here : Int) (text : Text) :
    Lies here text (contentFrom content here text) := by
  fun_induction contentFrom content here text with
  | case1 | case2 | case8 => exact Lies.error_here rfl rfl
  | case3 => exact Content.close_lies _ _ _
  | case4 _ _ _ _ rest _ hc more _ hfault =>
    have hmore : more ≤ plainLength rest := hexRun_le rest
    apply Content.addHextet_lies hfault
    rw [plainLength_cons (CharClass.native_hex _ hc)]
    omega
  | case5 _ _ _ _ rest _ hc _ _ _ ih =>
    exact ih.drop_cons (CharClass.native_hex _ hc) (hexRun_le rest)
  | case6 _ _ _ rest more _ hfault =>
    have hmore : more ≤ plainLength rest := colonRun_le rest
    apply Content.addColons_lies hfault
    rw [plainLength_cons rfl]
    omega
  | case7 _ _ _ rest _ _ _ _ _ ih => exact ih.drop_cons rfl (colonRun_le rest)

theorem scan_lies (hhead : text.head? = some '[') : Lies 0 text (scan text) := by
  obtain ⟨rest, rfl⟩ := List.head?_eq_some_iff.mp hhead
  exact (contentFrom_lies {} 1 rest).cons rfl

end Ipv6

theorem Port.scan_lies (text : Text) : Lies 0 text (Port.scan text) := by
  cases text with
  | nil => exact Lies.ok_here _
  | cons c rest =>
    by_cases hc : c = ':'
    · subst hc
      have hrun := length_takeWhile_le CharClass.native_digit rest
      simp only [scan]
      split
      · rw [Lies.ok_iff, plainLength_cons rfl]
        omega
      · split
        · rw [Lies.error_iff, plainLength_cons rfl]
          omega
        · rw [Lies.error_iff, plainLength_cons rfl]
          omega
    · have hnone : scan (c :: rest) = .ok ⟨none, 0⟩ := by simp [scan, hc]
      rw [hnone]
      exact Lies.ok_here _

theorem HostKind.scan_lies (text : Text) : Lies 0 text ((HostKind.ofText text).scan text) := by
  rcases ofText_cases text with ⟨hhead, hkind⟩ | ⟨-, run, tail, rfl, hrun, -, hcases⟩
  · rw [hkind]
    exact Ipv6.scan_lies hhead
  · rcases hcases with ⟨hdotted, -, hkind⟩ | ⟨-, hkind⟩
    · rw [hkind]
      exact Ipv4.octets_lies 3 0 hrun hdotted.2
    · rw [hkind]
      exact DomainName.scan_lies _

theorem Host.scan_lies (text : Text) : Lies 0 text (Host.scan text) := by
  apply (HostKind.scan_lies text).bind
  intro labels _ hnonneg hstop
  apply (Lies.behind Port.scan_lies hnonneg hstop).bind
  intro port _ hfront hback
  split
  · rw [Lies.error_iff]
    omega
  · exact Lies.ok_iff.mpr ⟨hfront, by omega⟩

theorem Host.plain_of_scan {host : Scanned Host} (h : Host.scan text = .ok host) :
    ∀ c ∈ text, CharClass.plain c = true := by
  have hlies := Host.scan_lies text
  rw [h, Lies.ok_iff, (Host.scan_sound h).1, Int.zero_add] at hlies
  exact plainLength_eq_iff.mp (Int.le_antisymm (plainLength_le text) hlies.2)

theorem SegmentKind.slash_le_plainLength (hplain : (leading text).length ≤ plainLength text)
    (hmore : (leading text).length ≠ text.length) :
    ((leading text).length : Int) + 1 ≤ plainLength text := by
  rcases leading_split text with hwhole | ⟨rest, hsplit⟩
  · exact absurd (congrArg List.length hwhole) hmore
  · have hslash : (text.drop ((leading text).length : Int).toNat).head? = some '/' := by
      rw [Int.toNat_natCast]
      nth_rewrite 2 [hsplit]
      rw [List.drop_left, List.head?_cons]
    exact succ_le_plainLength (Int.natCast_nonneg _) hplain hslash rfl

namespace Name

theorem host_lies (text : Text) : Lies 0 text (Host.scan (SegmentKind.leading text)) := by
  obtain ⟨rest, hrest⟩ : SegmentKind.leading text <+: text := List.takeWhile_prefix _
  have hhost := (Host.scan_lies (SegmentKind.leading text)).extend rest
  rwa [hrest] at hhost

theorem scanDomain_lies (text : Text) : Lies 0 text (scanDomain text) := by
  apply (host_lies text).bind
  intro host hhost hnonneg hback
  have hstop : host.stop = (SegmentKind.leading text).length := (Host.scan_sound hhost).1
  rw [hstop] at hback
  split
  · rw [Lies.error_iff]
    omega
  · next hmore =>
    have hplace := SegmentKind.slash_le_plainLength hback hmore
    apply (Lies.behind Path.scan_lies (by omega) hplace).bind
    exact fun path _ hlow hhigh => Lies.ok_iff.mpr ⟨hlow, by omega⟩

theorem scan_lies (text : Text) : Lies 0 text (scan text) := by
  rw [scan]
  split
  · exact scanDomain_lies text
  · exact (Path.scan_lies text).map _

end Name

namespace Reference

theorem scanBehind_lies {name : Scanned Name} (hnonneg : 0 ≤ name.stop)
    (hstop : name.stop ≤ plainLength text) : Lies 0 text (scanBehind text name) := by
  apply (Lies.marked rfl Tag.scan_lies hnonneg hstop).bind
  intro tag _ htag htagStop
  apply (Lies.marked rfl (Digest.scan_lies .distribution) htag htagStop).bind
  intro digest _ hfront hback
  split
  · rw [Lies.error_iff]
    omega
  · exact Lies.ok_iff.mpr ⟨hfront, by omega⟩

theorem scan_lies (text : Text) : Lies 0 text (scan text) := by
  apply (Name.scan_lies text).bind
  intro name _ hnonneg hstop
  exact scanBehind_lies hnonneg hstop

end Reference

end ImageReference
