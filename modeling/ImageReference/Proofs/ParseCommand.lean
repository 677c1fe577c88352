import ImageReference.CommandLine.Run
import ImageReference.Proofs.ReferenceAt
import ImageReference.Proofs.RowLine
import ImageReference.Proofs.CharClass
import Mathlib.Data.List.TakeWhile

/-!
# Parsing from either channel

Options stand in front of the command and set the limit on names and whether a
reference has to be canonical. Behind them a reference may be given as an operand
or as the first line of the input: both runs print the line of its row, and the
code tells whether the row has an error.
-/

namespace ImageReference.CommandLine

variable {word value reference : Text} {words more : List Text} {settings settings' : Settings}
  {flag : Flag} {stray : Bool} {length : Int}

def canonicalName : Text := "--canonical".toList

def maxNameLengthName : Text := "--max-name-length".toList

/-- A word stands for a long option if the name of the option starts with it and it is more than the
two hyphens. -/
def Abbreviates (word name : Text) : Prop := word <+: name ∧ 2 < word.length

/-- The words are options of the program with their values, and change the settings. A value may
stand in the word of its option or behind it; of two options of one kind the last one counts. -/
inductive Sets : List Text → Settings → Settings → Prop
  | done {settings : Settings} : Sets [] settings settings
  | canonical {word : Text} {words : List Text} {settings settings' : Settings} :
      Abbreviates word canonicalName → Sets words { settings with canonical := true } settings' →
      Sets (word :: words) settings settings'
  | joined {word value : Text} {words : List Text} {settings settings' : Settings} {length : Int} :
      Abbreviates word maxNameLengthName → Decimal.toInt? value = some length →
      Sets words { settings with maxNameLength := some (.atMost length) } settings' →
      Sets ((word ++ '=' :: value) :: words) settings settings'
  | apart {word value : Text} {words : List Text} {settings settings' : Settings} {length : Int} :
      Abbreviates word maxNameLengthName → Word.ofText programFlags value = .operand →
      Decimal.toInt? value = some length →
      Sets words { settings with maxNameLength := some (.atMost length) } settings' →
      Sets (word :: value :: words) settings settings'

theorem entry_cases : ∀ entry ∈ programFlags, ∀ n ∈ List.range (entry.1.length + 1), 2 < n →
    '=' ∉ entry.1.take n ∧ (entry.1.take n).take 2 = terminator ∧
      programFlags.filter (fun other => (entry.1.take n).isPrefixOf other.1) = [entry] := by
  decide

namespace Abbreviates

variable {name : Text}

theorem ne_terminator (h : Abbreviates word name) : word ≠ terminator := by
  intro he
  exact absurd (he ▸ h.2) (by decide)

variable (h : Abbreviates word name) (hentry : (name, flag) ∈ programFlags)
include h hentry

theorem cases : '=' ∉ word ∧ (∃ rest, word = '-' :: '-' :: rest) ∧
    programFlags.filter (fun entry => word.isPrefixOf entry.1) = [(name, flag)] := by
  obtain ⟨hstart, hlength⟩ := h
  have hword : word = name.take word.length := List.prefix_iff_eq_take.mp hstart
  have hrange : word.length ∈ List.range (name.length + 1) :=
    List.mem_range.mpr (Nat.lt_succ_of_le hstart.length_le)
  obtain ⟨hequals, hhyphens, hfilter⟩ := entry_cases _ hentry _ hrange hlength
  rw [← hword] at hequals hhyphens hfilter
  refine ⟨hequals, ⟨word.drop 2, ?_⟩, hfilter⟩
  rw [← List.take_append_drop 2 word, hhyphens]
  rfl

theorem ofText_append {rest : Text} (hrest : ∀ c ∈ rest.head?, c = '=') :
    Word.ofText programFlags (word ++ rest) = .option flag (valueOf rest) := by
  obtain ⟨hequals, ⟨tail, rfl⟩, hfilter⟩ := h.cases hentry
  have hword : ∀ c ∈ '-' :: '-' :: tail, (c != '=') = true := by
    intro c hc
    rw [bne_iff_ne]
    rintro rfl
    exact hequals hc
  have hstop : ∀ c ∈ rest.head?, (c != '=') = false := by
    intro c hc
    rw [hrest c hc]
    rfl
  change Word.ofLong programFlags ('-' :: '-' :: tail ++ rest) = _
  rw [Word.ofLong, takeWhile_run hword hstop, hfilter, valueOf, List.dropWhile_append_of_pos hword]
  rfl

theorem ofText : Word.ofText programFlags word = .option flag none := by
  rw [← List.append_nil word]
  exact h.ofText_append hentry (by simp)

theorem ofText_value (value : Text) :
    Word.ofText programFlags (word ++ '=' :: value) = .option flag (some value) :=
  h.ofText_append hentry (by simp)

end Abbreviates

theorem canonical_mem : (canonicalName, Flag.canonical) ∈ programFlags := by decide

theorem maxNameLength_mem : (maxNameLengthName, Flag.maxNameLength) ∈ programFlags := by decide

theorem ofText?_of_toInt? (h : Decimal.toInt? value = some length) :
    NameLimit.ofText? value = some (.atMost length) := by
  have hterminator : value ≠ terminator := by
    rintro rfl
    cases h
  rw [NameLimit.ofText?, if_neg hterminator, h]
  rfl

theorem Sets.unambiguous (h : Sets words settings settings') :
    ∀ word ∈ words, Word.ofText programFlags word ≠ .ambiguous := by
  induction h with
  | done => simp
  | canonical hword _ ih =>
    refine List.forall_mem_cons.mpr ⟨?_, ih⟩
    rw [hword.ofText canonical_mem]
    simp
  | joined hword _ _ ih =>
    refine List.forall_mem_cons.mpr ⟨?_, ih⟩
    rw [hword.ofText_value maxNameLength_mem]
    simp
  | apart hword hvalue _ _ ih =>
    refine List.forall_mem_cons.mpr ⟨?_, List.forall_mem_cons.mpr ⟨?_, ih⟩⟩
    · rw [hword.ofText maxNameLength_mem]
      simp
    · rw [hvalue]
      simp

theorem Sets.readFrom (h : Sets words settings settings') (stray : Bool) (more : List Text) :
    readFrom settings stray (words ++ more) = readFrom settings' stray more := by
  induction h with
  | done => rfl
  | canonical hword _ ih =>
    rw [List.cons_append, CommandLine.readFrom.eq_def]
    simp only [if_neg hword.ne_terminator, hword.ofText canonical_mem]
    exact ih
  | @joined word value words settings _ _ hword hvalue _ ih =>
    have hterminator : word ++ '=' :: value ≠ terminator := by
      intro he
      have hlength := congrArg List.length he
      rw [List.length_append, List.length_cons] at hlength
      have hlong := hword.2
      simp only [terminator, List.length_cons, List.length_nil] at hlength
      omega
    rw [List.cons_append, CommandLine.readFrom.eq_def]
    simp only [if_neg hterminator, hword.ofText_value maxNameLength_mem, ofText?_of_toInt? hvalue]
    exact ih
  | @apart word value words settings _ _ hword hoperand hvalue _ ih =>
    have hterminator : ¬ (value = terminator ∨ Word.ofText programFlags value ≠ .operand) := by
      rw [hoperand]
      rintro (rfl | hne)
      · cases hvalue
      · exact hne rfl
    rw [List.cons_append, List.cons_append, CommandLine.readFrom.eq_def]
    simp only [if_neg hword.ne_terminator, hword.ofText maxNameLength_mem, if_neg hterminator,
      ofText?_of_toInt? hvalue]
    exact ih

theorem ofText_operand (flags : List (Text × Flag)) (h : word.head? ≠ some '-') :
    Word.ofText flags word = .operand := by
  rw [Word.ofText.eq_def]
  split
  all_goals first
    | rfl
    | exact absurd rfl h

theorem isNegativeNumber_of_digit (h : ∀ c ∈ value, CharClass.digit c = true) (hne : value ≠ []) :
    isNegativeNumber ('-' :: value) = true := by
  have hlast : value.getLast? ≠ some '\n' := by
    intro he
    have hfeed := h _ (List.mem_of_getLast? he)
    cases hfeed
  have hdigits : value.dropWhile isDigit = [] := by
    rw [List.dropWhile_eq_nil_iff]
    intro c hc
    rw [isDigit, Decimal.digitValue?_of_digit (h c hc)]
    rfl
  rw [isNegativeNumber, if_neg hlast, isUnsigned, hdigits]
  simpa using hne

theorem ofText_ofInt (flags : List (Text × Flag)) (n : Int) :
    Word.ofText flags (Decimal.ofInt n) = .operand := by
  cases n with
  | ofNat n =>
    apply ofText_operand
    intro hhead
    have hhyphen := Decimal.digit_of_mem_ofNat (List.mem_of_mem_head? hhead)
    cases hhyphen
  | negSucc n =>
    have hdigits : ∀ c ∈ Decimal.ofNat (n + 1), CharClass.digit c = true :=
      fun c => Decimal.digit_of_mem_ofNat
    have hnumber := isNegativeNumber_of_digit hdigits (Decimal.ofNat_ne_nil (n + 1))
    change Word.ofText flags ('-' :: Decimal.ofNat (n + 1)) = .operand
    rw [Word.ofText.eq_def]
    split
    · rfl
    · next rest he =>
      have hhyphen := hdigits '-' ((List.cons.inj he).2 ▸ List.mem_cons_self)
      cases hhyphen
    · next rest he =>
      have hletter := hdigits 'h' ((List.cons.inj he).2 ▸ List.mem_cons_self)
      cases hletter
    · next rest _ _ _ he =>
      rw [← he, unnamed, hnumber]
      rfl
    · rfl

theorem readArguments_command {command : Command} (hflags : Sets words {} settings)
    (hword : word.head? ≠ some '-')
    (hmore : ∀ operand ∈ more, Word.ofText programFlags operand ≠ .ambiguous)
    (hcommand : readCommand word more = .ok (command, false)) :
    readArguments (words ++ word :: more) =
      .run { settings with command := some command } := by
  have hoperand := ofText_operand programFlags hword
  have hterminator : word ≠ terminator := by
    rintro rfl
    exact hword rfl
  have hclear : ((words ++ word :: more).takeWhile (· != terminator)).any
      (fun word => Word.ofText programFlags word == .ambiguous) = false := by
    rw [List.any_eq_false]
    intro other hother
    rw [beq_iff_eq]
    rcases List.mem_append.mp (List.takeWhile_subset _ hother) with hother | hother
    · exact hflags.unambiguous other hother
    · rcases List.mem_cons.mp hother with rfl | hother
      · rw [hoperand]
        simp
      · exact hmore other hother
  rw [readArguments, hclear, if_neg (by simp), hflags.readFrom, readFrom.eq_def]
  simp only [if_neg hterminator, hoperand, hcommand]
  rfl

theorem readCommand_parse {operand : Option Text} (h : ∀ word ∈ operand, word.head? ≠ some '-') :
    readCommand "parse".toList operand.toList = .ok (.parse operand, false) := by
  cases operand with
  | none => rfl
  | some word =>
    have hword : word.head? ≠ some '-' := h word rfl
    have hterminator : word ≠ terminator := by
      rintro rfl
      exact hword rfl
    have hread : readOperands .parse {} [word] = .ok { first := some word } := by
      rw [readOperands.eq_def]
      simp only [if_neg hterminator, ofText_operand commandFlags hword]
      rfl
    rw [readCommand, if_pos rfl, Option.toList_some, hread]
    rfl

/-- The limit on names is that of the options, else that of the environment, else it is 255. -/
def LimitIs (settings : Settings) (environment : Option Text) (length : Int) : Prop :=
  settings.maxNameLength = some (.atMost length) ∨
    settings.maxNameLength = none ∧
      ((∃ text, environment = some text ∧ Decimal.toInt? text = some length) ∨
        environment = none ∧ length = 255)

theorem LimitIs.nameLimit {invocation : Invocation}
    (h : LimitIs settings invocation.maxNameLength length) :
    nameLimit settings invocation = .ok (.atMost length) := by
  rw [CommandLine.nameLimit]
  rcases h with hlimit | ⟨hnone, ⟨text, henvironment, hlength⟩ | ⟨henvironment, rfl⟩⟩
  · rw [hlimit]
  · rw [hnone, henvironment]
    simp only [hlength]
  · rw [hnone, henvironment]

/-- What parsing a text prints, and the code that it ends with. -/
def rowEnding (row : Row) : Ending :=
  .exit (if row.error.isSome then 1 else 0) (row.write ++ ['\n'])

theorem runParse_eq (canonical : Bool) (limits : Limits) (source : Text) :
    runParse canonical limits source = rowEnding (Row.ofText source canonical limits) := by
  rw [runParse, Row.ofText]
  cases Reference.parseWith canonical source limits <;> rfl

theorem run_parse {options : List Text} {environment : Option Text} (operand : Option Text)
    (hoptions : Sets options {} settings) (hlimit : LimitIs settings environment length)
    (hoperand : ∀ word ∈ operand, word.head? ≠ some '-') (input : Text) (files : Files) :
    run ⟨options ++ "parse".toList :: operand.toList, environment, input, files⟩ =
      rowEnding (Row.ofText (operand.getD (firstLine input)) settings.canonical
        { maxNameLength := length }) := by
  have hparse : "parse".toList.head? ≠ some '-' := by decide
  have hunambiguous : ∀ word ∈ operand.toList, Word.ofText programFlags word ≠ .ambiguous := by
    intro word hword
    rw [ofText_operand programFlags (hoperand word (Option.mem_toList.mp hword))]
    simp
  have harguments :=
    readArguments_command hoptions hparse hunambiguous (readCommand_parse hoperand)
  have hname : nameLimit { settings with command := some (.parse operand) }
      ⟨options ++ "parse".toList :: operand.toList, environment, input, files⟩ =
        .ok (.atMost length) := LimitIs.nameLimit hlimit
  rw [run, harguments]
  simp only [runSettings, hname, runCommand]
  exact runParse_eq _ _ _

theorem firstLine_append {rest : Text} (hfeed : '\n' ∉ reference) (hreturn : '\r' ∉ reference)
    (hrest : ∀ c ∈ rest.head?, c = '\n') : firstLine (reference ++ rest) = reference := by
  refine takeWhile_run (fun c hc => ?_) (fun c hc => ?_)
  · rw [Bool.and_eq_true, bne_iff_ne, bne_iff_ne]
    exact ⟨fun he => hfeed (he ▸ hc), fun he => hreturn (he ▸ hc)⟩
  · rw [hrest c hc]
    rfl

/-- Every integer that does not have too many digits can be set by an option and by the environment.
However the limit on names is set, parsing an operand and parsing the first line of the input print
the line of the same row, and end with the code 1 if it has an error. No fault of a cursor comes
between: reading the reference with one gives what parsing it gives. -/
theorem parse_channels :
    (∀ length : Int, (Decimal.ofNat length.natAbs).length ≤ Decimal.maxDigits →
      Sets [maxNameLengthName, Decimal.ofInt length] {}
          { maxNameLength := some (.atMost length) } ∧
        LimitIs {} (some (Decimal.ofInt length)) length) ∧
    ∀ (options : List Text) (settings : Settings) (environment : Option Text) (length : Int)
      (reference rest : Text), Sets options {} settings → LimitIs settings environment length →
      '\n' ∉ reference → '\r' ∉ reference → reference.head? ≠ some '-' →
      let row := Row.ofText reference settings.canonical { maxNameLength := length }
      let ending := Ending.exit (if row.error.isSome then 1 else 0) (row.write ++ ['\n'])
      (∀ input files,
        run ⟨options ++ ["parse".toList, reference], environment, input, files⟩ = ending) ∧
      (∀ input ∈ [reference ++ '\n' :: rest, reference], ∀ files,
        run ⟨options ++ ["parse".toList], environment, input, files⟩ = ending) ∧
      '\n' ∉ row.write ∧ '\r' ∉ row.write ∧ row.write.count '\t' = 7 ∧
      Cursor.parseReference reference { maxNameLength := length } =
        (Reference.parse reference { maxNameLength := length }).mapError .rejected := by
  constructor
  · intro length hlength
    have hvalue := Decimal.toInt?_ofInt length hlength
    refine ⟨?_, .inr ⟨rfl, .inl ⟨_, rfl, hvalue⟩⟩⟩
    exact .apart ⟨List.prefix_rfl, by decide⟩ (ofText_ofInt _ length) hvalue .done
  · intro options settings environment length reference rest hoptions hlimit hfeed hreturn hhyphen
      row ending
    have hline : ∀ input ∈ [reference ++ '\n' :: rest, reference],
        firstLine input = reference := by
      rw [List.forall_mem_cons, List.forall_mem_singleton]
      refine ⟨firstLine_append hfeed hreturn (by simp), ?_⟩
      have hwhole : firstLine (reference ++ []) = reference :=
        firstLine_append hfeed hreturn (by simp)
      rwa [List.append_nil] at hwhole
    refine ⟨?_, ?_, ?_, ?_, row.count_write, Cursor.parseReference_eq _ _⟩
    · have hoperand : ∀ word ∈ some reference, word.head? ≠ some '-' := by
        rintro _ ⟨⟩
        exact hhyphen
      exact run_parse _ hoptions hlimit hoperand
    · intro input hinput files
      have hrun := run_parse none hoptions hlimit (by simp) input files
      rwa [Option.getD_none, hline input hinput] at hrun
    · exact Row.break_notMem_write (.inl rfl)
    · exact Row.break_notMem_write (.inr rfl)

theorem parse_channels_limited :
    let options := [maxNameLengthName, "10".toList, "--c".toList]
    let settings : Settings := { maxNameLength := some (.atMost 10), canonical := true }
    let reference := "localhost/a\tb".toList
    let ending := Ending.exit 1
      "localhost/a\\tb\t\t\t\t\t\t\trepository name must not be more than 10 characters\n".toList
    Sets options {} settings ∧ LimitIs settings (some "lots".toList) 10 ∧
      run ⟨options ++ ["parse".toList, reference], some "lots".toList, [], fun _ => none⟩ = ending ∧
      run ⟨options ++ ["parse".toList], some "lots".toList, reference ++ "\nb".toList,
        fun _ => none⟩ = ending := by
  intro options settings reference ending
  have hoptions : Sets options {} settings :=
    .apart ⟨List.prefix_rfl, by decide⟩ (ofText_ofInt _ 10) rfl
      (.canonical ⟨List.isPrefixOf_iff_prefix.mp rfl, by decide⟩ .done)
  have hlimit : LimitIs settings (some "lots".toList) 10 := .inl rfl
  have hending : rowEnding (Row.ofText reference true { maxNameLength := 10 }) = ending := by
    decide +kernel
  obtain ⟨hoperand, hinput, -⟩ := parse_channels.2 options settings (some "lots".toList) 10
    reference ['b'] hoptions hlimit (by decide) (by decide) (by decide)
  rw [← hending]
  exact ⟨hoptions, hlimit, hoperand _ _, hinput _ List.mem_cons_self _⟩

end ImageReference.CommandLine
