import ImageReference.Proofs.Places

/-!
# Texts that scans cannot tell apart

Two texts are alike if they have the same plain front part and both end behind
it, or both go on with a foreign character. A scan stops in front of that
character at the latest, and all it can tell is that one stands there. So alike
texts have the same results, whatever follows.
-/

namespace ImageReference

inductive Alike : Text → Text → Prop
  | ended : Alike [] []
  | plain {c : Char} {a b : Text} (hc : CharClass.plain c = true) (h : Alike a b) :
      Alike (c :: a) (c :: b)
  | foreign {c d : Char} {a b : Text} (hc : CharClass.plain c = false)
      (hd : CharClass.plain d = false) : Alike (c :: a) (d :: b)

variable {α : Type} {c mark : Char} {p : CharClass} {a b text rest run : Text} {here place n : Int}

theorem CharClass.ne_of_foreign (hc : plain c = false) (hmark : plain mark = true) : c ≠ mark := by
  rintro rfl
  rw [hmark] at hc
  cases hc

namespace Alike

theorem takeWhile (h : Alike a b) (hp : p.Native) : a.takeWhile p = b.takeWhile p := by
  induction h with
  | ended => rfl
  | plain hc h ih => rw [List.takeWhile_cons, List.takeWhile_cons, ih]
  | foreign hc hd => simp [hp.foreign hc, hp.foreign hd]

theorem takeWhile_take (h : Alike a b) (hp : p.Native) (n : Nat) :
    (a.take n).takeWhile p = (b.take n).takeWhile p := by
  rw [← List.take_takeWhile, h.takeWhile hp, List.take_takeWhile]

theorem head?_any (h : Alike a b) (hp : p.Native) : a.head?.any p = b.head?.any p := by
  cases h with
  | ended | plain => rfl
  | foreign hc hd => exact (hp.foreign hc).trans (hp.foreign hd).symm

theorem head?_all (h : Alike a b) (hp : p.Native) : a.head?.all p = b.head?.all p := by
  cases h with
  | ended | plain => rfl
  | foreign hc hd => exact (hp.foreign hc).trans (hp.foreign hd).symm

theorem head?_eq_some_iff (h : Alike a b) (hmark : CharClass.plain mark = true) :
    a.head? = some mark ↔ b.head? = some mark := by
  cases h with
  | ended | plain => rfl
  | foreign hc hd =>
    simp [CharClass.ne_of_foreign hc hmark, CharClass.ne_of_foreign hd hmark]

theorem append (h : Alike a b) (hrun : ∀ c ∈ run, CharClass.plain c = true) :
    Alike (run ++ a) (run ++ b) := by
  induction run with
  | nil => exact h
  | cons c run ih => exact .plain (hrun c (by simp)) (ih fun d hd => hrun d (by simp [hd]))

theorem of_cons (h : Alike (c :: a) b) (hc : CharClass.plain c = true) :
    ∃ rest, b = c :: rest ∧ Alike a rest := by
  cases h with
  | plain hc h => exact ⟨_, rfl, h⟩
  | foreign hforeign hd =>
    rw [hc] at hforeign
    cases hforeign

theorem of_append (h : Alike (run ++ a) b) (hrun : ∀ c ∈ run, CharClass.plain c = true) :
    ∃ rest, b = run ++ rest ∧ Alike a rest := by
  induction run generalizing b with
  | nil => exact ⟨b, rfl, h⟩
  | cons c run ih =>
    obtain ⟨tail, rfl, htail⟩ := h.of_cons (hrun c (by simp))
    obtain ⟨rest, rfl, hrest⟩ := ih htail fun d hd => hrun d (by simp [hd])
    exact ⟨rest, rfl, hrest⟩

theorem isEmpty_eq (h : Alike a b) : a.isEmpty = b.isEmpty := by
  cases h <;> rfl

theorem drop (h : Alike a b) (hplace : place ≤ plainLength a) :
    Alike (a.drop place.toNat) (b.drop place.toNat) := by
  induction h generalizing place with
  | ended => simpa using Alike.ended
  | plain hc h ih =>
    rw [plainLength_cons hc] at hplace
    by_cases hnonneg : 0 < place
    · have hpred : place.toNat = (place - 1).toNat + 1 := by omega
      rw [hpred, List.drop_succ_cons, List.drop_succ_cons]
      exact ih (by omega)
    · have hzero : place.toNat = 0 := by omega
      rw [hzero]
      exact .plain hc h
  | foreign hc hd =>
    rw [plainLength_foreign hc] at hplace
    have hzero : place.toNat = 0 := by omega
    rw [hzero]
    exact .foreign hc hd

theorem lt_length_iff (h : Alike a b) (hplace : place ≤ plainLength a) :
    place < a.length ↔ place < b.length := by
  induction h generalizing place with
  | ended => rfl
  | plain hc h ih =>
    rw [plainLength_cons hc] at hplace
    have hrest := ih (by omega : place - 1 ≤ _)
    rw [List.length_cons, List.length_cons]
    omega
  | foreign hc hd =>
    rw [plainLength_foreign hc] at hplace
    rw [List.length_cons, List.length_cons]
    omega

theorem behind [Shift α] {scan : Scan α} (h : Alike a b)
    (hscan : ∀ {a b : Text}, Alike a b → scan a = scan b) (hplace : place ≤ plainLength a) :
    scan.behind place a = scan.behind place b :=
  congrArg (shift place) (hscan (h.drop hplace))

theorem marked [Shift α] {scan : Scan α} (h : Alike a b) (hmark : CharClass.plain mark = true)
    (hscan : ∀ {a b : Text}, Alike a b → scan a = scan b) (hnonneg : 0 ≤ place)
    (hplace : place ≤ plainLength a) :
    Scan.marked mark scan place a = Scan.marked mark scan place b := by
  have hhead := (h.drop hplace).head?_eq_some_iff hmark
  by_cases hfront : (a.drop place.toNat).head? = some mark
  · have hbehind := succ_le_plainLength hnonneg hplace hfront hmark
    rw [Scan.marked, if_pos hfront, Scan.marked, if_pos (hhead.mp hfront), h.behind hscan hbehind]
  · rw [Scan.marked, if_neg hfront, Scan.marked, if_neg fun hback => hfront (hhead.mpr hback)]

end Alike

theorem Path.scanFrom_foreign (component : Int) (place : Place) (here : Int)
    (hc : CharClass.plain c = false) :
    scanFrom component place here (c :: rest) = scanFrom component place here [] := by
  have hword := CharClass.native_lowerAlnum.foreign hc
  have hupper := CharClass.native_upper.foreign hc
  have hdot : c ≠ '.' := CharClass.ne_of_foreign hc rfl
  have hunderscore : c ≠ '_' := CharClass.ne_of_foreign hc rfl
  have hhyphen : c ≠ '-' := CharClass.ne_of_foreign hc rfl
  have hslash : c ≠ '/' := CharClass.ne_of_foreign hc rfl
  cases place <;> simp [scanFrom, wordFailure, hword, hupper, hdot, hunderscore, hhyphen, hslash]

theorem Path.scanFrom_alike (h : Alike a b) (component : Int) (place : Place) (here : Int) :
    scanFrom component place here a = scanFrom component place here b := by
  induction h generalizing component place here with
  | ended => rfl
  | plain hc h ih => cases place <;> simp only [scanFrom, ih]
  | foreign hc hd => rw [scanFrom_foreign _ _ _ hc, scanFrom_foreign _ _ _ hd]

theorem Path.scan_alike (h : Alike a b) : scan a = scan b := scanFrom_alike h 0 .fresh 0

theorem Tag.scan_alike (h : Alike a b) : scan a = scan b := by
  rw [scan, h.head?_any CharClass.native_word, h.takeWhile_take CharClass.native_tag]
  rfl

namespace Digest

variable {standard compliance : Compliance}

theorem algorithmFrom_foreign (component : Int) (leading : Bool) (here : Int)
    (hc : CharClass.plain c = false) :
    algorithmFrom standard component leading compliance here (c :: rest) =
      algorithmFrom standard component leading compliance here [] := by
  have halnum := CharClass.native_alnum.foreign hc
  have hseparator := CharClass.native_algorithmSeparator.foreign hc
  simp [algorithmFrom, halnum, hseparator]

theorem algorithmFrom_alike (h : Alike a b) (component : Int) (leading : Bool)
    (compliance : Compliance) (here : Int) :
    algorithmFrom standard component leading compliance here a =
      algorithmFrom standard component leading compliance here b := by
  induction h generalizing component leading compliance here with
  | ended => rfl
  | plain hc h ih => simp only [algorithmFrom, ih]
  | foreign hc hd => rw [algorithmFrom_foreign _ _ _ hc, algorithmFrom_foreign _ _ _ hd]

theorem encodedValue_alike (h : Alike a b) :
    encodedValue standard compliance a = encodedValue standard compliance b := by
  rw [encodedValue, h.takeWhile (encodedClass_native standard)]
  rfl

theorem scan_alike (h : Alike a b) : scan standard a = scan standard b := by
  rw [scan, scan, ← algorithmFrom_alike h]
  apply (algorithmFrom_lies standard 0 true .universal 0 a).bind_congr
  intro algorithm hnonneg hstop
  have hcolon := (h.drop hstop).head?_eq_some_iff (show CharClass.plain ':' = true from rfl)
  by_cases hfront : (a.drop algorithm.stop.toNat).head? = some ':'
  · have hplace := succ_le_plainLength hnonneg hstop hfront rfl
    rw [if_pos hfront, if_pos (hcolon.mp hfront), h.behind encodedValue_alike hplace]
  · rw [if_neg hfront, if_neg fun hback => hfront (hcolon.mpr hback)]

end Digest

namespace DomainName

theorem scanFrom_foreign (label : Int) (place : Place) (here : Int)
    (hc : CharClass.plain c = false) :
    scanFrom label place here (c :: rest) = scanFrom label place here [] := by
  have halnum := CharClass.native_alnum.foreign hc
  have hhyphen : c ≠ '-' := CharClass.ne_of_foreign hc rfl
  have hdot : c ≠ '.' := CharClass.ne_of_foreign hc rfl
  cases place <;> simp [scanFrom, halnum, hhyphen, hdot]

theorem scanFrom_alike (h : Alike a b) (label : Int) (place : Place) (here : Int) :
    scanFrom label place here a = scanFrom label place here b := by
  induction h generalizing label place here with
  | ended => rfl
  | plain hc h ih => cases place <;> simp only [scanFrom, ih]
  | foreign hc hd => rw [scanFrom_foreign _ _ _ hc, scanFrom_foreign _ _ _ hd]

end DomainName

namespace Ipv4

theorem octet_alike (h : Alike a b) : octet here a = octet here b := by
  rw [octet, h.takeWhile CharClass.native_digit]
  rfl

theorem octets_alike (h : Alike a b) (more : Nat) (here : Int)
    (hrun : ∀ c ∈ run, CharClass.ipv4 c = true) (hdots : run.count '.' = more) :
    octets more here (run ++ a) = octets more here (run ++ b) := by
  have hfront : ∀ front, (∀ c ∈ front, CharClass.ipv4 c = true) → ∀ here,
      octet here (front ++ a) = octet here (front ++ b) := by
    intro front hchars here
    exact octet_alike (h.append fun c hc => CharClass.native_ipv4 c (hchars c hc))
  induction more generalizing run here with
  | zero => rw [octets, hfront run hrun, octets]
  | succ more ih =>
    have hoctet := hfront run hrun here
    obtain ⟨digits, tail, rfl, hdigits, htail, htailDots⟩ := exists_dot hrun hdots
    rw [List.append_assoc, List.cons_append, List.append_assoc, List.cons_append] at hoctet ⊢
    cases hfirst : octet here (digits ++ '.' :: (tail ++ a)) with
    | error failure =>
      rw [octets, octets, ← hoctet, hfirst]
      rfl
    | ok first =>
      obtain ⟨-, rfl⟩ := octet_sound hdigits (dot_stops _) hfirst
      rw [octets_dot hfirst rfl, octets_dot (hoctet.symm.trans hfirst) rfl, ih _ htail htailDots]

theorem commits_alike (h : Alike a b) (dots : Nat) : commits dots a = commits dots b := by
  have hrun : run a = run b := h.takeWhile CharClass.native_ipv4
  have hlength := length_takeWhile_le CharClass.native_ipv4 a
  have hnext := (h.drop hlength).head?_all CharClass.native_colon
  rw [Int.toNat_natCast, List.head?_drop, List.head?_drop] at hnext
  rw [commits, commits, ← hrun]
  exact congrArg (!(run a).isEmpty && · && dots == 3) hnext

end Ipv4

namespace Ipv6

variable {content : Content}

theorem Content.addColons_next {colons : Nat} {next next' : Option Char}
    (h : next = some ']' ↔ next' = some ']') :
    content.addColons here colons next = content.addColons here colons next' := by
  simp only [addColons, h]

theorem hexRun_alike (h : Alike a b) : hexRun a = hexRun b :=
  congrArg List.length (h.takeWhile_take CharClass.native_hex hextetDigitsMax)

theorem colonRun_alike (h : Alike a b) : colonRun a = colonRun b :=
  congrArg List.length (h.takeWhile_take CharClass.native_colon 2)

theorem contentFrom_foreign (hshort : ¬ contentLengthMax + 1 < here)
    (hc : CharClass.plain c = false) :
    contentFrom content here (c :: rest) = .error { kind := .ipv6InvalidChar, offset := here } := by
  have hbracket : c ≠ ']' := CharClass.ne_of_foreign hc rfl
  have hcolon : c ≠ ':' := CharClass.ne_of_foreign hc rfl
  exact contentFrom_other hshort hbracket (CharClass.native_hex.foreign hc) hcolon

theorem contentFrom_alike (h : Alike a b) (content : Content) (here : Int) :
    contentFrom content here a = contentFrom content here b := by
  induction hlength : a.length using Nat.strong_induction_on generalizing a b content here with
  | _ length ih =>
    by_cases hlong : contentLengthMax + 1 < here
    · rw [contentFrom.eq_def, if_pos hlong, contentFrom.eq_def, if_pos hlong]
    · cases h with
      | ended => rfl
      | @plain c a b hc h =>
        have hshorter : ∀ n, (a.drop n).length < length := by
          intro n
          rw [← hlength, List.length_drop, List.length_cons]
          omega
        by_cases hhex : CharClass.hex c = true
        · have htail := h.drop (hexRun_le a)
          rw [contentFrom_hex hlong hhex, contentFrom_hex hlong hhex, ← hexRun_alike h]
          cases content.addHextet here (hexRun a + 1) with
          | error failure => rfl
          | ok content => exact ih _ (hshorter _) htail content _ rfl
        · by_cases hcolon : c = ':'
          · subst hcolon
            have htail := h.drop (colonRun_le a)
            have hnext := htail.head?_eq_some_iff (show CharClass.plain ']' = true from rfl)
            rw [Int.toNat_natCast] at htail hnext
            rw [contentFrom_colons hlong, contentFrom_colons hlong, ← colonRun_alike h,
              Content.addColons_next hnext]
            cases content.addColons here (colonRun a + 1) (b.drop (colonRun a)).head? with
            | error failure => rfl
            | ok content => exact ih _ (hshorter _) htail content _ rfl
          · by_cases hbracket : c = ']'
            · rw [contentFrom, contentFrom, if_neg hlong, if_neg hlong, if_pos hbracket,
                if_pos hbracket]
            · rw [Bool.not_eq_true] at hhex
              rw [contentFrom_other hlong hbracket hhex hcolon,
                contentFrom_other hlong hbracket hhex hcolon]
      | foreign hc hd => rw [contentFrom_foreign hlong hc, contentFrom_foreign hlong hd]

theorem scan_alike (h : Alike a b) (hhead : a.head? = some '[') : scan a = scan b := by
  obtain ⟨rest, rfl⟩ := List.head?_eq_some_iff.mp hhead
  cases h with
  | plain hc h => exact contentFrom_alike h {} 1
  | foreign hc hd => cases hc

end Ipv6

namespace HostKind

theorem ofText_alike (h : Alike a b) : ofText a = ofText b := by
  have hrun : Ipv4.run a = Ipv4.run b := h.takeWhile CharClass.native_ipv4
  rw [ofText, ofText, leading, leading, hrun, Ipv4.commits_alike h]
  simp only [h.head?_eq_some_iff (show CharClass.plain '[' = true from rfl)]

theorem scan_alike (h : Alike a b) : (ofText a).scan a = (ofText a).scan b := by
  rcases ofText_cases a with ⟨hhead, hkind⟩ | ⟨-, run, tail, rfl, hrun, -, hcases⟩
  · rw [hkind]
    exact Ipv6.scan_alike h hhead
  · rcases hcases with ⟨hdotted, -, hkind⟩ | ⟨-, hkind⟩
    · rw [hkind]
      obtain ⟨tail', rfl, htail⟩ := h.of_append fun c hc => CharClass.native_ipv4 c (hrun c hc)
      exact Ipv4.octets_alike htail 3 0 hrun hdotted.2
    · rw [hkind]
      exact DomainName.scanFrom_alike h 0 .fresh 0

end HostKind

theorem Port.scan_alike (h : Alike a b) : scan a = scan b := by
  cases h with
  | ended => rfl
  | @plain c a b hc h =>
    by_cases hcolon : c = ':'
    · subst hcolon
      simp only [scan, h.takeWhile CharClass.native_digit, h.isEmpty_eq]
    · simp [scan, hcolon]
  | foreign hc hd =>
    have hfront := CharClass.ne_of_foreign hc (show CharClass.plain ':' = true from rfl)
    have hback := CharClass.ne_of_foreign hd (show CharClass.plain ':' = true from rfl)
    simp [scan, hfront, hback]

theorem Host.scan_alike (h : Alike a b) : scan a = scan b := by
  rw [scan, scan, scanAs, scanAs, ← HostKind.ofText_alike h, ← HostKind.scan_alike h]
  apply (HostKind.scan_lies a).bind_congr
  intro labels hnonneg hstop
  rw [← h.behind Port.scan_alike hstop]
  apply (Lies.behind Port.scan_lies hnonneg hstop).bind_congr
  intro port _ hback
  simp only [h.lt_length_iff hback]

end ImageReference
