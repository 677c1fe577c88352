import ImageReference.Host
import ImageReference.Proofs.CharClass
import ImageReference.Proofs.Grammar
import ImageReference.Proofs.Outcome
import ImageReference.Proofs.SplitSpans

/-!
# Scanning IPv6 addresses

What may still follow in an address depends on the number of hextets so far, on
whether the double colon has been read, and on the kind of the last token. The
scanner keeps the first two of these; the third shows in the next character,
since a token takes all hex digits or all colons that stand together.
-/

namespace ImageReference.Ipv6

variable {elided : Bool} {count : Nat} {content : Content} {here : Int}
  {text front rest item run : Text} {c : Char}

/-- What may follow a hextet, given how many there are so far. -/
inductive Follows : Bool → Nat → Text → Prop
  | full : Follows false 8 []
  | short {count : Nat} (h : count ≤ 7) : Follows true count []
  | next {elided : Bool} {count : Nat} {item text : Text} (hitem : item ∈ Grammar.hextet)
      (h : Follows elided (count + 1) text) : Follows elided count (':' :: (item ++ text))
  | elideLast {count : Nat} (h : count ≤ 7) : Follows false count [':', ':']
  | elide {count : Nat} {item text : Text} (hitem : item ∈ Grammar.hextet)
      (h : Follows true (count + 1) text) : Follows false count (':' :: ':' :: (item ++ text))

def FollowsColons (elided : Bool) (count : Nat) (text : Text) : Prop :=
  (text = [] ∧ Follows elided count []) ∨
    ∃ item ∈ Grammar.hextet, ∃ more, text = item ++ more ∧ Follows elided (count + 1) more

/-- What a scan still accepts in front of the closing bracket. -/
def Content.Admits (content : Content) (text : Text) : Prop :=
  FollowsColons content.elided content.hextets.length text ∨
    (∃ more, text = ':' :: more ∧ more ≠ [] ∧ content.started = true ∧
      FollowsColons content.elided content.hextets.length more) ∨
    ∃ more, text = ':' :: ':' :: more ∧ content.elided = false ∧
      FollowsColons true content.hextets.length more

theorem hex_colon : CharClass.hex ':' = false := by decide

theorem hextet_head (h : item ∈ Grammar.hextet) : ∃ c more, item = c :: more ∧
    CharClass.hex c = true := by
  obtain ⟨⟨hlength, hhex⟩, -⟩ := h
  cases item with
  | nil => simp at hlength
  | cons c more => exact ⟨c, more, rfl, hhex c (by simp)⟩

theorem Follows.head (h : Follows elided count text) : ∀ c ∈ text.head?, c = ':' := by
  cases h <;> simp

theorem Follows.count_le (h : Follows elided count text) :
    text.length + 5 * count ≤ if elided then 35 else 40 := by
  induction h with
  | full => simp
  | short h => simp; omega
  | @next elided count item text hitem _ ih =>
    have hlength := hitem.2
    simp only [List.length_cons, List.length_append]
    cases elided <;> simp only [if_true, Bool.false_eq_true, if_false] at ih ⊢ <;> omega
  | elideLast h => simp; omega
  | elide hitem _ ih =>
    have hlength := hitem.2
    simp only [List.length_cons, List.length_append, if_true, Bool.false_eq_true, if_false] at ih ⊢
    omega

theorem FollowsColons.length_le (h : FollowsColons elided count text) (hcount : count ≤ 7) :
    text.length + 5 * count ≤ if elided then 35 else 39 := by
  rcases h with ⟨rfl, h⟩ | ⟨item, hitem, more, rfl, h⟩
  · cases h with
    | full => omega
    | short h => simp; omega
  · have hbound := h.count_le
    have hlength := hitem.2
    rw [List.length_append]
    cases elided <;> simp only [if_true, Bool.false_eq_true, if_false] at hbound ⊢ <;> omega

theorem FollowsColons.behind_double (h : FollowsColons true count text) :
    Follows false count (':' :: ':' :: text) := by
  rcases h with ⟨rfl, h⟩ | ⟨item, hitem, more, rfl, h⟩
  · cases h with
    | short h => exact .elideLast h
  · exact .elide hitem h

theorem Content.Admits.follows (h : content.Admits text)
    (hhead : ∀ c ∈ text.head?, CharClass.hex c = false) :
    Follows content.elided content.hextets.length text := by
  have hnext : ∀ elided count more, FollowsColons elided count more → more ≠ [] →
      Follows elided count (':' :: more) := by
    intro elided count more h hne
    rcases h with ⟨rfl, -⟩ | ⟨item, hitem, more, rfl, h⟩
    · exact absurd rfl hne
    · exact .next hitem h
  rcases h with h | ⟨more, rfl, hne, -, h⟩ | ⟨more, rfl, helided, h⟩
  · rcases h with ⟨rfl, h⟩ | ⟨item, hitem, more, rfl, -⟩
    · exact h
    · obtain ⟨c, tail, rfl, hc⟩ := hextet_head hitem
      have hfalse : CharClass.hex c = false := hhead c rfl
      rw [hc] at hfalse
      cases hfalse
  · exact hnext _ _ _ h hne
  · rw [helided]
    exact h.behind_double

theorem Content.Admits.followsColons (h : content.Admits text) (hhead : text.head? ≠ some ':') :
    FollowsColons content.elided content.hextets.length text := by
  rcases h with h | ⟨more, rfl, -⟩ | ⟨more, rfl, -⟩
  · exact h
  · exact absurd rfl hhead
  · exact absurd rfl hhead

def hexRun (rest : Text) : Nat := ((rest.take hextetDigitsMax).takeWhile CharClass.hex).length

def colonRun (rest : Text) : Nat := ((rest.take 2).takeWhile (· == ':')).length

theorem hexRun_append {tail : Text} (htail : ∀ c ∈ tail, CharClass.hex c = true)
    (hrest : ∀ c ∈ rest.head?, CharClass.hex c = false) :
    hexRun (tail ++ rest) = min hextetDigitsMax tail.length := by
  rw [hexRun, takeWhile_take_run htail hrest, List.length_take]

theorem colonRun_append {tail : Text} (htail : ∀ c ∈ tail, (c == ':') = true)
    (hrest : ∀ c ∈ rest.head?, (c == ':') = false) :
    colonRun (tail ++ rest) = min 2 tail.length := by
  rw [colonRun, takeWhile_take_run htail hrest, List.length_take]

theorem contentFrom_hex (hshort : ¬ contentLengthMax + 1 < here) (hc : CharClass.hex c = true) :
    contentFrom content here (c :: rest) =
      content.addHextet here (hexRun rest + 1) >>= fun content =>
        contentFrom content (here + (hexRun rest + 1)) (rest.drop (hexRun rest)) := by
  have hbracket : c ≠ ']' := (CharClass.ne_mark_of_hex hc).2
  rw [contentFrom, if_neg hshort]
  simp only [hbracket, hc, if_true, if_false, hexRun]
  cases content.addHextet here
    (((rest.take hextetDigitsMax).takeWhile CharClass.hex).length + 1) <;> rfl

theorem contentFrom_colons (hshort : ¬ contentLengthMax + 1 < here) :
    contentFrom content here (':' :: rest) =
      content.addColons here (colonRun rest + 1) (rest.drop (colonRun rest)).head? >>=
        fun content => contentFrom content (here + (colonRun rest + 1))
          (rest.drop (colonRun rest)) := by
  have hbracket : ':' ≠ ']' := by decide
  rw [contentFrom, if_neg hshort, List.head?_drop]
  simp only [hbracket, hex_colon, Bool.false_eq_true, if_true, if_false, colonRun]
  cases content.addColons here (((rest.take 2).takeWhile (· == ':')).length + 1) _ <;> rfl

theorem contentFrom_other (hshort : ¬ contentLengthMax + 1 < here) (hbracket : c ≠ ']')
    (hhex : CharClass.hex c = false) (hcolon : c ≠ ':') :
    contentFrom content here (c :: rest) = .error { kind := .ipv6InvalidChar, offset := here } := by
  rw [contentFrom, if_neg hshort]
  simp [hbracket, hhex, hcolon]

theorem contentFrom_close (hhere : here ≤ 40) :
    contentFrom content here (']' :: rest) = content.close here := by
  have hmax : contentLengthMax = 39 := rfl
  rw [contentFrom, if_neg (by omega)]
  simp

theorem contentFrom_hextet (hhere : here ≤ 40) (hitem : item ∈ Grammar.hextet)
    (hrest : ∀ c ∈ rest.head?, CharClass.hex c = false) (hcount : content.hextets.length ≤ 7) :
    contentFrom content here (item ++ rest) =
      contentFrom
        { content with hextets := content.hextets ++ [⟨here, item.length⟩], started := true }
        (here + item.length) rest := by
  have hmax : contentLengthMax = 39 := rfl
  have hdigits : hextetDigitsMax = 4 := rfl
  have hgroups : groups = 8 := rfl
  obtain ⟨c, tail, rfl, hc⟩ := hextet_head hitem
  obtain ⟨⟨-, hhex⟩, hlength⟩ := hitem
  rw [List.length_cons] at hlength
  have htail : ∀ d ∈ tail, CharClass.hex d = true := fun d hd => hhex d (List.mem_cons_of_mem _ hd)
  have hmore := hexRun_append htail hrest
  rw [Nat.min_eq_right (by omega)] at hmore
  rw [List.cons_append, contentFrom_hex (by omega) hc, hmore, List.drop_left, Content.addHextet,
    if_neg (by omega), if_neg (by simp; omega)]
  simp [bind, Except.bind]

theorem contentFrom_colon_run (content : Content) (run : Text) (hhere : here ≤ 40)
    (hrun : ∀ c ∈ run, (c == ':') = true) (hlength : run.length ≤ 1)
    (hrest : ∀ c ∈ rest.head?, (c == ':') = false) :
    contentFrom content here (':' :: (run ++ rest)) =
      content.addColons here (run.length + 1) rest.head? >>= fun content =>
        contentFrom content (here + (run.length + 1)) rest := by
  have hmax : contentLengthMax = 39 := rfl
  have hmore := colonRun_append hrun hrest
  rw [Nat.min_eq_right (by omega)] at hmore
  rw [contentFrom_colons (by omega), hmore, List.drop_left]

theorem contentFrom_colon (hhere : here ≤ 40) (hstarted : content.started = true)
    (hcolon : ∀ c ∈ rest.head?, (c == ':') = false) (hbracket : rest.head? ≠ some ']') :
    contentFrom content here (':' :: rest) = contentFrom content (here + 1) rest := by
  have h := contentFrom_colon_run content [] hhere (by simp) (by simp) hcolon
  rw [List.nil_append] at h
  rw [h]
  obtain ⟨hextets, elided, started⟩ := content
  obtain rfl : started = true := hstarted
  simp [Content.addColons, hbracket, bind, Except.bind]

theorem contentFrom_double (hhere : here ≤ 40) (helided : content.elided = false)
    (hrest : ∀ c ∈ rest.head?, (c == ':') = false) :
    contentFrom content here (':' :: ':' :: rest) =
      contentFrom { content with elided := true, started := true } (here + 2) rest := by
  have h := contentFrom_colon_run content [':'] hhere (by simp) (by simp) hrest
  rw [List.singleton_append] at h
  rw [h]
  simp [Content.addColons, helided, bind, Except.bind]

theorem Follows.hex_head (h : Follows elided count text) :
    ∀ c ∈ (text ++ ']' :: rest).head?, CharClass.hex c = false := by
  cases text with
  | nil => simp; decide
  | cons d text =>
    obtain rfl := h.head d rfl
    simp [hex_colon]

theorem hextet_head_append (h : item ∈ Grammar.hextet) (text : Text) :
    (∀ c ∈ (item ++ text).head?, (c == ':') = false) ∧ (item ++ text).head? ≠ some ']' := by
  obtain ⟨c, more, rfl, hc⟩ := hextet_head h
  simpa using CharClass.ne_mark_of_hex hc

theorem FollowsColons.head_append (h : FollowsColons elided count text) :
    ∀ c ∈ (text ++ ']' :: rest).head?, (c == ':') = false := by
  rcases h with ⟨rfl, -⟩ | ⟨item, hitem, more, rfl, -⟩
  · simp
  · rw [List.append_assoc]
    exact (hextet_head_append hitem _).1

def Closes (content : Content) (here : Int) (text rest : Text) : Prop :=
  ∃ found, contentFrom content here (text ++ ']' :: rest) = .ok found ∧
    found.stop = here + text.length + 1

theorem closes_nil (rest : Text) (h : Follows content.elided content.hextets.length [])
    (hhere : here ≤ 40) : Closes content here [] rest := by
  have hgroups : groups = 8 := rfl
  obtain ⟨hextets, elided, started⟩ := content
  rw [Closes, List.nil_append, contentFrom_close hhere, Content.close]
  generalize hcount : hextets.length = count at h
  cases h with
  | full => simp [hgroups]
  | short h =>
    have hfew : ¬ 8 ≤ count := by omega
    simp [hgroups, hfew]

theorem closes_item {tail : Text} (hitem : item ∈ Grammar.hextet)
    (h : Follows elided (count + 1) tail) (helided : content.elided = elided)
    (hcount : content.hextets.length = count) (hhere : here + (item ++ tail).length ≤ 40)
    (ih : ∀ (content : Content) (here : Int), content.elided = elided →
      content.hextets.length = count + 1 → content.started = true → here + tail.length ≤ 40 →
        Closes content here tail rest) :
    Closes content here (item ++ tail) rest := by
  have hle : count + 1 ≤ 8 := by
    have hlength := h.count_le
    split at hlength <;> omega
  rw [List.length_append, Int.natCast_add] at hhere
  obtain ⟨found, hfound, hstop⟩ := ih
    { content with hextets := content.hextets ++ [⟨here, item.length⟩], started := true }
    (here + item.length) helided (by simp [hcount]) rfl (by omega)
  refine ⟨found, ?_, by rw [List.length_append]; omega⟩
  rw [List.append_assoc, contentFrom_hextet (by omega) hitem h.hex_head (by omega), hfound]

theorem closes_colon (hhere : here ≤ 40) (hstarted : content.started = true)
    (hcolon : ∀ c ∈ (text ++ ']' :: rest).head?, (c == ':') = false)
    (hbracket : (text ++ ']' :: rest).head? ≠ some ']') (h : Closes content (here + 1) text rest) :
    Closes content here (':' :: text) rest := by
  obtain ⟨found, hfound, hstop⟩ := h
  refine ⟨found, ?_, by rw [List.length_cons]; omega⟩
  rw [List.cons_append, contentFrom_colon hhere hstarted hcolon hbracket, hfound]

theorem closes_double (hhere : here ≤ 40) (helided : content.elided = false)
    (hcolon : ∀ c ∈ (text ++ ']' :: rest).head?, (c == ':') = false)
    (h : Closes { content with elided := true, started := true } (here + 2) text rest) :
    Closes content here (':' :: ':' :: text) rest := by
  obtain ⟨found, hfound, hstop⟩ := h
  refine ⟨found, ?_, by rw [List.length_cons, List.length_cons]; omega⟩
  rw [List.cons_append, List.cons_append, contentFrom_double hhere helided hcolon, hfound]

theorem closes_follows (h : Follows elided count front) :
    ∀ (content : Content) (here : Int), content.elided = elided → content.hextets.length = count →
      content.started = true → here + front.length ≤ 40 → Closes content here front rest := by
  induction h with
  | full =>
    intro content here helided hcount _ hhere
    refine closes_nil rest ?_ (by simpa using hhere)
    rw [helided, hcount]
    exact .full
  | short h =>
    intro content here helided hcount _ hhere
    refine closes_nil rest ?_ (by simpa using hhere)
    rw [helided, hcount]
    exact .short h
  | @next elided count item text hitem h ih =>
    intro content here helided hcount hstarted hhere
    rw [List.length_cons] at hhere
    have hhead := hextet_head_append hitem (text ++ ']' :: rest)
    rw [← List.append_assoc] at hhead
    refine closes_colon (by omega) hstarted hhead.1 hhead.2 ?_
    exact closes_item hitem h helided hcount (by omega) ih
  | elideLast h =>
    intro content here helided hcount _ hhere
    simp only [List.length_cons, List.length_nil] at hhere
    refine closes_double (by omega) helided (by simp) (closes_nil rest ?_ (by omega))
    rw [hcount]
    exact .short h
  | @elide count item text hitem h ih =>
    intro content here helided hcount _ hhere
    simp only [List.length_cons] at hhere
    have hhead := hextet_head_append hitem (text ++ ']' :: rest)
    rw [← List.append_assoc] at hhead
    refine closes_double (by omega) helided hhead.1 ?_
    exact closes_item hitem h rfl hcount (by omega) ih

theorem closes_followsColons (h : FollowsColons content.elided content.hextets.length front)
    (hhere : here + front.length ≤ 40) : Closes content here front rest := by
  rcases h with ⟨rfl, h⟩ | ⟨item, hitem, more, rfl, h⟩
  · exact closes_nil rest h (by simpa using hhere)
  · exact closes_item hitem h rfl rfl hhere (closes_follows h)

/-- The hextets of an address are the pieces between its colons that are not empty. -/
def hextetSpans (start : Int) (text : Text) : List Span :=
  (Span.split (· == ':') start text).filter (0 < ·.length)

theorem hextetSpans_shift (n : Int) :
    shift n (hextetSpans here text) = hextetSpans (here + n) text := by
  rw [hextetSpans, hextetSpans, ← Span.split_shift]
  change List.map (shift n) _ = List.filter _ (List.map (shift n) _)
  rw [List.filter_map]
  rfl

@[simp] theorem hextetSpans_nil : hextetSpans here [] = [] := by
  simp [hextetSpans, Span.split_clear]

theorem hextetSpans_colon : hextetSpans here (':' :: text) = hextetSpans (here + 1) text := by
  have hsplit := @Span.split_append_cons (· == ':') ':' [] text here (by simp) (by decide)
  rw [List.nil_append] at hsplit
  simp [hextetSpans, hsplit]

theorem hextetSpans_item (hitem : item ∈ Grammar.hextet) (hhead : ∀ c ∈ text.head?, c = ':') :
    hextetSpans here (item ++ text) =
      ⟨here, item.length⟩ :: hextetSpans (here + item.length) text := by
  obtain ⟨⟨hlength, hhex⟩, -⟩ := hitem
  have hclear : ∀ c ∈ item, (c == ':') = false := by
    intro c hc
    exact beq_eq_false_iff_ne.mpr (CharClass.ne_mark_of_hex (hhex c hc)).1
  have hpositive : decide (0 < (item.length : Int)) = true := by
    rw [decide_eq_true_eq]
    omega
  cases text with
  | nil =>
    rw [List.append_nil, hextetSpans_nil, hextetSpans, Span.split_clear hclear]
    exact List.filter_cons_of_pos hpositive
  | cons c text =>
    obtain rfl := hhead c rfl
    rw [hextetSpans_colon, hextetSpans, Span.split_append_cons hclear (by decide)]
    exact List.filter_cons_of_pos hpositive

theorem Content.close_ok {found : Scanned (List Span)} (h : content.close here = .ok found)
    (hcount : content.hextets.length ≤ 8) :
    Follows content.elided content.hextets.length [] ∧ found = ⟨content.hextets, here + 1⟩ := by
  have hgroups : groups = 8 := rfl
  rw [Content.close] at h
  split at h
  · cases h
  · next hmany =>
    split at h
    · cases h
    · next hfew =>
      cases h
      refine ⟨?_, rfl⟩
      cases helided : content.elided with
      | true =>
        simp only [helided, Bool.true_and, decide_eq_true_eq] at hmany
        exact .short (by omega)
      | false =>
        simp only [helided, Bool.not_false, Bool.true_and, decide_eq_true_eq] at hfew
        have hfull : content.hextets.length = 8 := by omega
        rw [hfull]
        exact .full

theorem Content.addHextet_ok {digits : Nat} {content' : Content}
    (h : content.addHextet here digits = .ok content') :
    digits ≤ 4 ∧ content.hextets.length ≤ 7 ∧ content' =
      { content with hextets := content.hextets ++ [⟨here, digits⟩], started := true } := by
  have hgroups : groups = 8 := rfl
  have hdigits : hextetDigitsMax = 4 := rfl
  rw [Content.addHextet] at h
  split at h
  · cases h
  · next hshort =>
    split at h
    · cases h
    · next hfew =>
      rw [List.length_append, List.length_singleton] at hfew
      exact ⟨by omega, by omega, (Except.ok.inj h).symm⟩

theorem Content.addColons_ok {colons : Nat} {next : Option Char} {content' : Content}
    (h : content.addColons here colons next = .ok content') :
    (colons = 2 ∧ content.elided = false ∧
        content' = { content with elided := true, started := true }) ∨
      (colons ≠ 2 ∧ colons ≠ 3 ∧ content.started = true ∧ next ≠ some ']' ∧
        content' = { content with started := true }) := by
  rw [Content.addColons] at h
  grind

theorem head_of_append (h : text = front ++ ']' :: rest) : ∀ c ∈ front.head?, c ∈ text.head? := by
  intro c hc
  cases front with
  | nil => cases hc
  | cons d front => simpa [h] using hc

theorem hextet_of_run (hc : CharClass.hex c = true) (hrun : ∀ d ∈ run, CharClass.hex d = true)
    (hlength : run.length ≤ 3) : c :: run ∈ Grammar.hextet := by
  refine ⟨⟨by simp, fun d hd => ?_⟩, by rw [List.length_cons]; omega⟩
  rcases List.mem_cons.mp hd with rfl | hd
  · exact hc
  · exact hrun d hd

theorem contentFrom_sound {found : Scanned (List Span)}
    (h : contentFrom content here text = .ok found) (hcount : content.hextets.length ≤ 8) :
    ∃ front rest, text = front ++ ']' :: rest ∧ content.Admits front ∧
      found = ⟨content.hextets ++ hextetSpans here front, here + front.length + 1⟩ := by
  fun_induction contentFrom content here text with
  | case1 | case2 | case4 | case6 | case8 => cases h
  | case3 content here hhere rest =>
    obtain ⟨hfollows, rfl⟩ := content.close_ok h hcount
    exact ⟨[], rest, rfl, .inl (.inl ⟨rfl, hfollows⟩), by simp⟩
  | case5 content here hhere c tail hbracket hc more content' hadd ih =>
    obtain ⟨hlength, hfew, rfl⟩ := Content.addHextet_ok hadd
    obtain ⟨run, rest, rfl, hrun, hrest⟩ := exists_run CharClass.hex tail
    have hmore : more = run.length := by
      have hmin : more = min hextetDigitsMax run.length := hexRun_append hrun hrest
      have hdigits : hextetDigitsMax = 4 := rfl
      omega
    rw [hmore, List.drop_left] at h ih
    obtain ⟨front, rest', hsplit, hadmits, rfl⟩ := ih h (by simp; omega)
    have hfollows := hadmits.follows fun d hd => hrest d (head_of_append hsplit d hd)
    rw [List.length_append, List.length_singleton] at hfollows
    have hitem : c :: run ∈ Grammar.hextet := hextet_of_run hc hrun (by omega)
    refine ⟨c :: run ++ front, rest', by simp [hsplit],
      .inl (.inr ⟨c :: run, hitem, front, rfl, hfollows⟩), ?_⟩
    rw [hextetSpans_item hitem hfollows.head, List.length_append, List.length_cons,
      List.append_assoc]
    rw [Scanned.mk.injEq]
    exact ⟨rfl, by omega⟩
  | case7 content here hhere tail more content' hadd _ _ ih =>
    obtain ⟨run, rest, rfl, hrun, hrest⟩ := exists_run (· == ':') tail
    have hmin : more = min 2 run.length := colonRun_append hrun hrest
    clear_value more
    have hmore : more = run.length := by
      rcases Content.addColons_ok hadd with ⟨htwo, -⟩ | ⟨htwo, hthree, -⟩ <;> omega
    have hkept : content'.hextets = content.hextets := by
      rcases Content.addColons_ok hadd with ⟨-, -, rfl⟩ | ⟨-, -, -, -, rfl⟩ <;> rfl
    rw [hmore, List.drop_left] at h ih
    obtain ⟨front, rest', hsplit, hadmits, rfl⟩ := ih h (by rw [hkept]; exact hcount)
    have hcolon : front.head? ≠ some ':' := by
      intro hc
      simpa using hrest ':' (head_of_append hsplit ':' hc)
    have hfollows := hadmits.followsColons hcolon
    rcases Content.addColons_ok hadd with ⟨htwo, helided, rfl⟩ |
      ⟨htwo, hthree, hstarted, hnext, rfl⟩
    · obtain ⟨d, rfl⟩ : ∃ d, run = [d] := List.length_eq_one_iff.mp (by omega)
      obtain rfl : d = ':' := by simpa using hrun d (by simp)
      refine ⟨':' :: ':' :: front, rest', by simp [hsplit],
        .inr (.inr ⟨front, rfl, helided, hfollows⟩), ?_⟩
      rw [hextetSpans_colon, hextetSpans_colon, Int.add_assoc here 1 1]
      simp only [List.length_nil, List.length_cons, Scanned.mk.injEq]
      exact ⟨rfl, by omega⟩
    · obtain rfl : run = [] := List.eq_nil_of_length_eq_zero (by omega)
      have hne : front ≠ [] := by
        intro he
        apply hnext
        simp [hsplit, he, hmore]
      refine ⟨':' :: front, rest', by simp [hsplit],
        .inr (.inl ⟨front, rfl, hne, hstarted, hfollows⟩), ?_⟩
      rw [hextetSpans_colon]
      simp only [List.length_nil, List.length_cons, Scanned.mk.injEq]
      exact ⟨rfl, by omega⟩

def trail (items : List Text) : Text := items.flatMap (':' :: ·)

theorem hextets_cons (item : Text) (items : List Text) :
    Grammar.hextets (item :: items) = item ++ trail items := by
  induction items generalizing item with
  | nil => simp [Grammar.hextets, trail]
  | cons next items ih =>
    rw [Grammar.hextets, List.intercalate_cons_cons]
    change item ++ [':'] ++ Grammar.hextets (next :: items) = _
    simp [ih, trail]

theorem Follows.behind_trail {items : List Text} (hitems : ∀ item ∈ items, item ∈ Grammar.hextet)
    (h : Follows elided (count + items.length) text) :
    Follows elided count (trail items ++ text) := by
  induction items generalizing count with
  | nil => exact h
  | cons item items ih =>
    have hmore : Follows elided (count + 1) (trail items ++ text) := by
      refine ih (fun other hother => hitems other (by simp [hother])) ?_
      rwa [List.length_cons, Nat.add_comm items.length, ← Nat.add_assoc] at h
    have hnext : Follows elided count (':' :: (item ++ (trail items ++ text))) :=
      .next (hitems item (by simp)) hmore
    simpa [trail] using hnext

theorem Follows.items (h : Follows elided count text) :
    ∃ items : List Text, (∀ item ∈ items, item ∈ Grammar.hextet) ∧
      ((elided = true ∧ count + items.length ≤ 7 ∧ text = trail items) ∨
        (elided = false ∧ count + items.length = 8 ∧ text = trail items) ∨
        (elided = false ∧ ∃ after : List Text, (∀ item ∈ after, item ∈ Grammar.hextet) ∧
          count + items.length + after.length ≤ 7 ∧
          text = trail items ++ [':', ':'] ++ Grammar.hextets after)) := by
  induction h with
  | full => exact ⟨[], by simp, .inr (.inl ⟨rfl, rfl, rfl⟩)⟩
  | short h => exact ⟨[], by simp, .inl ⟨rfl, h, rfl⟩⟩
  | elideLast h => exact ⟨[], by simp, .inr (.inr ⟨rfl, [], by simp, h, rfl⟩)⟩
  | @next elided count item text hitem _ ih =>
    obtain ⟨items, hitems, h⟩ := ih
    refine ⟨item :: items, by simpa using ⟨hitem, hitems⟩, ?_⟩
    rw [List.length_cons]
    rcases h with ⟨rfl, hcount, rfl⟩ | ⟨rfl, hcount, rfl⟩ | ⟨rfl, after, hafter, hcount, rfl⟩
    · exact .inl ⟨rfl, by omega, by simp [trail]⟩
    · exact .inr (.inl ⟨rfl, by omega, by simp [trail]⟩)
    · exact .inr (.inr ⟨rfl, after, hafter, by omega, by simp [trail]⟩)
  | @elide count item text hitem _ ih =>
    obtain ⟨items, hitems, ⟨-, hcount, rfl⟩ | ⟨hfalse, -⟩ | ⟨hfalse, -⟩⟩ := ih
    · refine ⟨[], by simp, .inr (.inr ⟨rfl, item :: items, by simpa using ⟨hitem, hitems⟩, ?_, ?_⟩)⟩
      · simp only [List.length_nil, List.length_cons]
        omega
      · simp [hextets_cons, trail]
    · cases hfalse
    · cases hfalse

theorem FollowsColons.items (h : FollowsColons true count text) :
    ∃ items : List Text, (∀ item ∈ items, item ∈ Grammar.hextet) ∧ count + items.length ≤ 7 ∧
      text = Grammar.hextets items := by
  rcases h with ⟨rfl, h⟩ | ⟨item, hitem, more, rfl, h⟩
  · cases h with
    | short h => exact ⟨[], by simp, h, rfl⟩
  · obtain ⟨items, hitems, ⟨-, hcount, rfl⟩ | ⟨hfalse, -⟩ | ⟨hfalse, -⟩⟩ := h.items
    · refine ⟨item :: items, by simpa using ⟨hitem, hitems⟩, ?_, (hextets_cons item items).symm⟩
      rw [List.length_cons]
      omega
    · cases hfalse
    · cases hfalse

theorem followsColons_hextets {items : List Text} (hitems : ∀ item ∈ items, item ∈ Grammar.hextet)
    (hcount : count + items.length ≤ 7) : FollowsColons true count (Grammar.hextets items) := by
  cases items with
  | nil => exact .inl ⟨rfl, .short hcount⟩
  | cons item items =>
    rw [List.length_cons] at hcount
    refine .inr ⟨item, hitems item (by simp), trail items, hextets_cons item items, ?_⟩
    rw [← List.append_nil (trail items)]
    refine .behind_trail (fun other hother => hitems other (by simp [hother])) (.short ?_)
    omega

theorem mem_of_admits (h : Content.Admits {} text) :
    text ∈ Grammar.fullAddress + Grammar.shortAddress := by
  rcases h with h | ⟨more, -, -, hfalse, -⟩ | ⟨more, rfl, -, h⟩
  · rcases h with ⟨-, h⟩ | ⟨item, hitem, more, rfl, h⟩
    · cases h
    · obtain ⟨items, hitems, h⟩ := h.items
      have hall : ∀ other ∈ item :: items, other ∈ Grammar.hextet := by simpa using ⟨hitem, hitems⟩
      rcases h with ⟨hfalse, -⟩ | ⟨-, hcount, rfl⟩ | ⟨-, after, hafter, hcount, rfl⟩
      · cases hfalse
      · refine .inl ⟨item :: items, hall, ?_, (hextets_cons item items).symm⟩
        rw [List.length_cons, ← hcount]
        exact Nat.add_comm _ _
      · refine .inr ⟨item :: items, after, fun other hother => ?_, ?_, ?_⟩
        · rcases List.mem_append.mp hother with hother | hother
          · exact hall other hother
          · exact hafter other hother
        · rw [List.length_cons, Nat.add_comm items.length]
          exact hcount
        · simp [hextets_cons]
  · cases hfalse
  · obtain ⟨items, hitems, hcount, rfl⟩ := h.items
    exact .inr ⟨[], items, hitems, by simpa using hcount, rfl⟩

theorem admits_of_mem (h : text ∈ Grammar.fullAddress + Grammar.shortAddress) :
    Content.Admits {} text := by
  rcases h with ⟨items, hitems, hcount, rfl⟩ | ⟨before, after, hitems, hcount, rfl⟩
  · cases items with
    | nil => cases hcount
    | cons item items =>
      refine .inl (.inr ⟨item, hitems item (by simp), trail items, hextets_cons item items, ?_⟩)
      rw [← List.append_nil (trail items)]
      have hfull : Follows false (0 + 1 + items.length) [] := by
        rw [List.length_cons] at hcount
        rw [show 0 + 1 + items.length = 8 by omega]
        exact .full
      exact .behind_trail (fun other hother => hitems other (by simp [hother])) hfull
  · have hafter : ∀ item ∈ after, item ∈ Grammar.hextet :=
      fun item hitem => hitems item (by simp [hitem])
    cases before with
    | nil => exact .inr (.inr ⟨_, rfl, rfl, followsColons_hextets hafter (by simpa using hcount)⟩)
    | cons item before =>
      rw [List.length_cons] at hcount
      have hcolons : FollowsColons true (0 + 1 + before.length) (Grammar.hextets after) :=
        followsColons_hextets hafter (by omega)
      refine .inl (.inr ⟨item, hitems item (by simp),
        trail before ++ ([':', ':'] ++ Grammar.hextets after), by simp [hextets_cons],
        .behind_trail ?_ hcolons.behind_double⟩)
      exact fun other hother => hitems other (by simp [hother])

theorem length_le_of_mem (h : text ∈ Grammar.fullAddress + Grammar.shortAddress) :
    text.length ≤ contentLengthMax := by
  have hmax : contentLengthMax = 39 := rfl
  rcases admits_of_mem h with hcolons | ⟨more, -, -, hfalse, -⟩ | ⟨more, rfl, -, hcolons⟩
  · have hshort : text.length + 5 * 0 ≤ 39 := hcolons.length_le (Nat.zero_le _)
    omega
  · cases hfalse
  · have hshort : more.length + 5 * 0 ≤ 35 := hcolons.length_le (Nat.zero_le _)
    simp only [List.length_cons]
    omega

theorem mem_literal_iff : text ∈ Grammar.ipv6 ↔
    ∃ content ∈ Grammar.fullAddress + Grammar.shortAddress, text = ['['] ++ content ++ [']'] := by
  constructor
  · intro h
    obtain ⟨opened, hopened, close, rfl, rfl⟩ := Language.mem_mul.mp h
    obtain ⟨bracket, rfl, content, hcontent, rfl⟩ := Language.mem_mul.mp hopened
    exact ⟨content, hcontent, rfl⟩
  · rintro ⟨content, hcontent, rfl⟩
    exact Language.append_mem_mul (Language.append_mem_mul rfl hcontent) rfl

theorem scan_sound {found : Scanned (List Span)} (hhead : text.head? = some '[')
    (h : scan text = .ok found) :
    ∃ content rest, text = ['['] ++ content ++ [']'] ++ rest ∧
      content ∈ Grammar.fullAddress + Grammar.shortAddress ∧
      found = ⟨hextetSpans 1 content, (['['] ++ content ++ [']']).length⟩ := by
  obtain ⟨tail, rfl⟩ := List.head?_eq_some_iff.mp hhead
  obtain ⟨content, rest, hsplit, hadmits, rfl⟩ := contentFrom_sound h (Nat.zero_le _)
  change tail = _ at hsplit
  refine ⟨content, rest, by simp [hsplit], mem_of_admits hadmits, ?_⟩
  simp only [List.length_append, List.length_cons, List.length_nil, Scanned.mk.injEq]
  exact ⟨rfl, by omega⟩

theorem scan_complete (h : front ∈ Grammar.ipv6) :
    ∃ found, scan (front ++ rest) = .ok found ∧ found.stop = front.length := by
  obtain ⟨content, hcontent, rfl⟩ := mem_literal_iff.mp h
  have hmax : contentLengthMax = 39 := rfl
  have hshort := length_le_of_mem hcontent
  have htext : ['['] ++ content ++ [']'] ++ rest = '[' :: (content ++ ']' :: rest) := by simp
  have hlength : ((['['] ++ content ++ [']']).length : Int) = 1 + content.length + 1 := by
    simp only [List.length_append, List.length_cons, List.length_nil]
    omega
  rw [htext, hlength, scan, List.drop_one, List.tail_cons]
  rcases admits_of_mem hcontent with hcolons | ⟨more, -, -, hfalse, -⟩ | ⟨more, rfl, -, hcolons⟩
  · exact closes_followsColons hcolons (by omega)
  · cases hfalse
  · rw [List.length_cons, List.length_cons] at hshort
    refine closes_double (by omega) rfl hcolons.head_append ?_
    exact closes_followsColons hcolons (by omega)

end ImageReference.Ipv6
