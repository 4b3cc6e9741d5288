import Appearance.Text.CaseTable

/-!
# Letter case

`upperChars` and `lowerChars` map one character, which can become several. `lowercase` maps a
text: there a capital sigma at the end of a word becomes the final form of the letter.

The letters of ASCII are handled apart by the functions of the library; for all others the tables
of `Text.CaseTable` are searched. The context of a capital sigma is what the standard asks for: a
letter before it and none behind it, where marks, apostrophes and the like are passed over on both
sides. `lowercaseFrom` therefore carries the characters before, while the upper case of a text is
needed for first characters only. The lemmas on `Char.toLower` say what it does in terms of code
points, which the library does not.
-/

namespace Appearance.Text

/-- The shift of the first range that has the code point. -/
def shiftIn (ranges : List CaseRange) (n : Nat) : Int :=
  match ranges.find? (·.has n) with
  | some r => r.shift
  | none => 0

/-- The character at the distance `shift` from `c`. -/
def shiftChar (c : Char) (shift : Int) : Char := Char.ofNat ((c.toNat : Int) + shift).toNat

/-- The upper case of a character. -/
def upperChars (c : Char) : List Char :=
  if c.toNat < 128 then [c.toUpper]
  else
    match upperExpansions.lookup c.toNat with
    | some codes => codes.map Char.ofNat
    | none => [shiftChar c (shiftIn upperRanges c.toNat)]

/-- The lower case of a character on its own. The dotted capital I keeps its dot as a mark. -/
def lowerChars (c : Char) : List Char :=
  if c.toNat < 128 then [c.toLower]
  else if c.toNat = 0x130 then ['i', Char.ofNat 0x307]
  else [shiftChar c (shiftIn lowerRanges c.toNat)]

/-- An upper-case letter. -/
def isUppercase (c : Char) : Bool :=
  if c.toNat < 128 then c.isUpper else uppercaseRanges.any (·.has c.toNat)

/-- A character that is passed over when one looks for the letter beside a character. -/
def isCaseIgnorable (c : Char) : Bool := isMark c || inRanges caseIgnorableRanges c

/-- The first character that is not passed over has a letter case. -/
def beginsWithLetter (cs : List Char) : Bool :=
  match cs.dropWhile isCaseIgnorable with
  | c :: _ => inRanges casedRanges c
  | [] => false

/-- The lower case of a text; `before` holds what precedes it, last character first. A capital
sigma that follows a letter and precedes none is final. -/
def lowercaseFrom (before : List Char) : List Char → List Char
  | [] => []
  | c :: cs =>
    let mapped :=
      if c.toNat = 0x3A3 then
        if beginsWithLetter before && !beginsWithLetter cs then [Char.ofNat 0x3C2]
        else [Char.ofNat 0x3C3]
      else lowerChars c
    mapped ++ lowercaseFrom (c :: before) cs

/-- The lower case of a text. -/
def lowercase (cs : List Char) : List Char := lowercaseFrom [] cs

/-! ## The letters of ASCII -/

theorem isUpper_iff {c : Char} : c.isUpper = true ↔ 65 ≤ c.toNat ∧ c.toNat ≤ 90 :=
  decide_eq_true_iff

theorem isLower_iff {c : Char} : c.isLower = true ↔ 97 ≤ c.toNat ∧ c.toNat ≤ 122 :=
  (Bool.and_eq_true _ _).to_iff.trans (and_congr decide_eq_true_iff decide_eq_true_iff)

/-- The small letters of ASCII are 32 behind the capital ones. Other characters stay. -/
theorem toNat_toLower (c : Char) :
    c.toLower.toNat = if c.isUpper then c.toNat + 32 else c.toNat := by
  by_cases h : c.isUpper = true
  · have hrange := isUpper_iff.1 h
    have hcapital : c.val ≥ 'A'.val ∧ c.val ≤ 'Z'.val := of_decide_eq_true h
    have hlower : c.toLower.toNat = (c.val + 32).toNat := congrArg Char.toNat (dif_pos hcapital)
    have hsum : (c.val + 32).toNat = (c.toNat + 32) % 2 ^ 32 := UInt32.toNat_add c.val 32
    have hsmall : c.toNat + 32 < 2 ^ 32 := by omega
    rw [hlower, hsum, Nat.mod_eq_of_lt hsmall, if_pos h]
  · have hcapital : ¬(c.val ≥ 'A'.val ∧ c.val ≤ 'Z'.val) :=
      of_decide_eq_false (Bool.eq_false_iff.2 h)
    have hlower : c.toLower = c := dif_neg hcapital
    rw [hlower, if_neg h]

theorem toLower_eq_self {c : Char} (h : ¬(65 ≤ c.toNat ∧ c.toNat ≤ 90)) : c.toLower = c := by
  rw [← Char.toNat_inj, toNat_toLower, if_neg fun hupper => h (isUpper_iff.1 hupper)]

/-! ## First characters -/

/-- The text with its first character in lower case. -/
def firstLower (s : String) : String :=
  match s.toList with
  | [] => ""
  | c :: cs => String.ofList (lowerChars c ++ cs)

/-- The text with its first character in upper case. -/
def firstUpper (s : String) : String :=
  match s.toList with
  | [] => ""
  | c :: cs => String.ofList (upperChars c ++ cs)

end Appearance.Text
