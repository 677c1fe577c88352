import ImageReference.Text.CharClass
import Mathlib.Computability.Language
import Mathlib.Data.Nat.Digits.Defs

/-!
# The grammar of references

The productions as languages over characters, written with alternatives,
products and repetition alone. Nothing here looks at how a text is scanned.
-/

namespace ImageReference.Grammar

open scoped Computability

def one (p : CharClass) : Language Char := {text | ∃ c, p c = true ∧ text = [c]}

def atLeast (n : Nat) (p : CharClass) : Language Char :=
  {text | n ≤ text.length ∧ ∀ c ∈ text, p c = true}

def atMost (n : Nat) (p : CharClass) : Language Char :=
  {text | text.length ≤ n ∧ ∀ c ∈ text, p c = true}

def optional (item : Language Char) : Language Char := 1 + item

def joined (item mark : Language Char) : Language Char := item * (mark * item)∗

def word : Language Char := atLeast 1 CharClass.lowerAlnum

def separator : Language Char := {['.']} + {['_']} + {['_', '_']} + atLeast 1 (· == '-')

def component : Language Char := joined word separator

def path : Language Char := joined component {['/']}

def label : Language Char :=
  one CharClass.alnum + one CharClass.alnum * atLeast 0 CharClass.domainLabel * one CharClass.alnum

def domainName : Language Char := joined label {['.']}

/-- The value of decimal digits, the last of which counts the units. -/
def decimalValue (digits : Text) : Nat :=
  Nat.ofDigits 10 (digits.reverse.map fun c => c.toNat - '0'.toNat)

def octet : Language Char :=
  {text | text ∈ atLeast 1 CharClass.digit ∧ text.length ≤ 3 ∧ decimalValue text ≤ 255}

def ipv4 : Language Char := octet * ({['.']} * octet) ^ 3

def hextet : Language Char := {text | text ∈ atLeast 1 CharClass.hex ∧ text.length ≤ 4}

def hextets (items : List Text) : Text := [':'].intercalate items

def fullAddress : Language Char :=
  {text | ∃ items : List Text, (∀ item ∈ items, item ∈ hextet) ∧ items.length = 8 ∧
    text = hextets items}

def shortAddress : Language Char :=
  {text | ∃ before after : List Text, (∀ item ∈ before ++ after, item ∈ hextet) ∧
    before.length + after.length ≤ 7 ∧ text = hextets before ++ [':', ':'] ++ hextets after}

def ipv6 : Language Char := {['[']} * (fullAddress + shortAddress) * {[']']}

/-- Digits and exactly three dots, which is never read as a domain name. -/
def dottedDigits : Language Char :=
  {text | (∀ c ∈ text, CharClass.digit c = true ∨ c = '.') ∧ text.count '.' = 3}

def host : Language Char := ipv6 + ipv4 + (domainName - dottedDigits)

def port : Language Char := atLeast 1 CharClass.digit

def domain : Language Char := host * optional ({[':']} * port)

def tag : Language Char := one CharClass.word * atMost 127 CharClass.tag

def algorithmComponent : Language Char := one CharClass.alpha * atLeast 0 CharClass.alnum

def algorithm : Language Char := joined algorithmComponent (one CharClass.algorithmSeparator)

def encoded : Language Char := atLeast 32 CharClass.hex

def digest : Language Char := algorithm * ({[':']} * encoded)

def ociComponent : Language Char := atLeast 1 CharClass.lowerAlnum

def ociAlgorithm : Language Char := joined ociComponent (one CharClass.algorithmSeparator)

def ociEncoded : Language Char := atLeast 1 CharClass.ociEncoded

def ociDigest : Language Char := ociAlgorithm * ({[':']} * ociEncoded)

def reference (before : Text) : Language Char :=
  {before} * (path * (optional ({[':']} * tag) * optional ({['@']} * digest)))

section Joined

variable {item mark other : Language Char} {a b m : Text}

theorem joined_eq : joined item mark = item + item * mark * joined item mark := by
  calc joined item mark = item * (1 + mark * item * (mark * item)∗) := by
        rw [joined, one_add_mul_kstar]
    _ = item + item * mark * joined item mark := by
        rw [joined, mul_add, mul_one]; simp only [mul_assoc]

theorem mem_joined_of_mem (h : a ∈ item) : a ∈ joined item mark := by
  rw [joined_eq]
  exact Or.inl h

theorem cons_mem_joined (ha : a ∈ item) (hm : m ∈ mark) (hb : b ∈ joined item mark) :
    a ++ m ++ b ∈ joined item mark := by
  rw [joined_eq]
  exact Or.inr (Language.append_mem_mul (Language.append_mem_mul ha hm) hb)

theorem joined_induction {motive : Text → Prop} (single : ∀ a ∈ item, motive a)
    (cons : ∀ a ∈ item, ∀ m ∈ mark, ∀ b ∈ joined item mark, motive b → motive (a ++ m ++ b)) :
    ∀ text ∈ joined item mark, motive text := by
  intro text htext
  obtain ⟨a, ha, tail, htail, rfl⟩ := Language.mem_mul.mp htext
  obtain ⟨pieces, rfl, hpieces⟩ := Language.mem_kstar.mp htail
  clear htext htail
  induction pieces generalizing a with
  | nil => simpa using single a ha
  | cons piece pieces ih =>
    obtain ⟨m, hm, b, hb, rfl⟩ := Language.mem_mul.mp (hpieces piece (by simp))
    have hmore : ∀ y ∈ pieces, y ∈ mark * item := fun y hy => hpieces y (by simp [hy])
    have hjoined : b ++ pieces.flatten ∈ joined item mark :=
      Language.append_mem_mul hb (Language.join_mem_kstar hmore)
    simpa using cons a ha m hm _ hjoined (ih b hb hmore)

theorem append_mem_joined (ha : a ∈ joined item mark) (hm : m ∈ mark)
    (hb : b ∈ joined item mark) : a ++ m ++ b ∈ joined item mark := by
  revert a
  apply joined_induction
  · exact fun a ha => cons_mem_joined ha hm hb
  · intro a ha n hn c _ ih
    simpa using cons_mem_joined ha hn ih

theorem mem_joined_add (h : a ∈ joined item mark) : a ∈ joined item (mark + other) := by
  refine joined_induction (motive := (· ∈ joined item (mark + other))) ?_ ?_ a h
  · exact fun a ha => mem_joined_of_mem ha
  · exact fun a ha m hm b _ ih => cons_mem_joined ha (Or.inl hm) ih

theorem joined_joined : joined (joined item mark) other = joined item (mark + other) := by
  apply Language.ext
  intro text
  constructor
  · revert text
    apply joined_induction
    · exact fun a ha => mem_joined_add ha
    · intro a ha m hm b _ ih
      exact append_mem_joined (mem_joined_add ha) (Or.inr hm) ih
  · revert text
    apply joined_induction
    · exact fun a ha => mem_joined_of_mem (mem_joined_of_mem ha)
    · intro a ha m hm b _ ih
      rcases hm with hm | hm
      -- the item joins the first group of the rest
      · rw [joined_eq, Language.mem_add] at ih ⊢
        rcases ih with ih | ih
        · exact Or.inl (cons_mem_joined ha hm ih)
        · obtain ⟨cn, hcn, d, hd, rfl⟩ := Language.mem_mul.mp ih
          obtain ⟨c, hc, n, hn, rfl⟩ := Language.mem_mul.mp hcn
          refine Or.inr ?_
          simpa using Language.append_mem_mul
            (Language.append_mem_mul (cons_mem_joined ha hm hc) hn) hd
      · exact cons_mem_joined (mem_joined_of_mem ha) hm ih

end Joined

theorem path_eq : path = joined word (separator + {['/']}) := joined_joined

end ImageReference.Grammar
