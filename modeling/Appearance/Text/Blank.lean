/-!
# White space

`isBlank` is the White_Space property. Trimming and splitting into words work on lists of
characters; `trim` and `words` do the same on strings. A trimmed text has no blank at either end
and a word has none at all (`not_isBlank_of_mem_words`).

Blanks are decided by ranges of code points and not by a function of the library, which knows four
of them only. Texts are handled as lists of characters throughout the project, and strings are made
at the end: lists have an induction principle and a large library, and a function on strings that
is wanted as well is the function on lists between `String.toList` and `String.ofList`.
-/

namespace Appearance.Text

/-- What is asked of the characters of a list is asked of one after the other, not of all there
are. -/
instance (priority := high) decidableForallMem (p : Char → Prop) [DecidablePred p]
    (cs : List Char) : Decidable (∀ c ∈ cs, p c) :=
  List.decidableBAll p cs

/-- The characters with the White_Space property. -/
def isBlank (c : Char) : Bool :=
  let n := c.toNat
  (0x9 ≤ n && n ≤ 0xD) || n == 0x20 || n == 0x85 || n == 0xA0 || n == 0x1680 ||
    (0x2000 ≤ n && n ≤ 0x200A) || n == 0x2028 || n == 0x2029 || n == 0x202F || n == 0x205F ||
    n == 0x3000

/-- Drops the characters at the end that satisfy `p`. -/
def dropEndWhile (p : Char → Bool) (cs : List Char) : List Char :=
  (cs.reverse.dropWhile p).reverse

/-- A text without a character at its beginning, however often it stands there. -/
def trimStartChar (c : Char) (s : String) : String := String.ofList (s.toList.dropWhile (· == c))

/-- A text without a character at its end, however often it stands there. -/
def trimEndChar (c : Char) (s : String) : String := String.ofList (dropEndWhile (· == c) s.toList)

/-- A text without the white space at its beginning. -/
def trimStartChars (cs : List Char) : List Char := cs.dropWhile isBlank

/-- A text without the white space at its end. -/
def trimEndChars (cs : List Char) : List Char := dropEndWhile isBlank cs

/-- A text without the white space at its ends. -/
def trimChars (cs : List Char) : List Char := trimEndChars (trimStartChars cs)

/-- The text without the white space at its ends. -/
def trim (s : String) : String := String.ofList (trimChars s.toList)

/-- Splits into maximal runs of characters that are not blank; `word` holds the run that is
open, last character first. -/
def wordsFrom (word : List Char) : List Char → List (List Char)
  | [] => if word.isEmpty then [] else [word.reverse]
  | c :: cs =>
    if isBlank c then
      if word.isEmpty then wordsFrom [] cs else word.reverse :: wordsFrom [] cs
    else wordsFrom (c :: word) cs

/-- The maximal runs of characters that are not blank, in order. -/
def wordsChars (cs : List Char) : List (List Char) := wordsFrom [] cs

/-- The words of a text. -/
def words (s : String) : List String := (wordsChars s.toList).map String.ofList

/-- The words that are split off are not empty and have no white space. -/
theorem not_isBlank_of_mem_wordsFrom {cs : List Char} :
    ∀ {word : List Char}, (∀ c ∈ word, isBlank c = false) →
      ∀ w ∈ wordsFrom word cs, w ≠ [] ∧ ∀ c ∈ w, isBlank c = false := by
  induction cs with
  | nil =>
    intro word hword w hw
    cases word with
    | nil => simp [wordsFrom] at hw
    | cons a as =>
      simp only [wordsFrom, List.isEmpty_cons, Bool.false_eq_true, if_false,
        List.mem_singleton] at hw
      subst hw
      exact ⟨by simp, fun c hc => hword c (List.mem_reverse.1 hc)⟩
  | cons c cs ih =>
    intro word hword w hw
    by_cases hc : isBlank c = true
    · cases word with
      | nil =>
        simp only [wordsFrom, hc, if_true, List.isEmpty_nil] at hw
        exact ih (by simp) w hw
      | cons a as =>
        simp only [wordsFrom, hc, if_true, List.isEmpty_cons, Bool.false_eq_true, if_false,
          List.mem_cons] at hw
        rcases hw with hw | hw
        · subst hw
          exact ⟨by simp, fun d hd => hword d (List.mem_reverse.1 hd)⟩
        · exact ih (by simp) w hw
    · simp only [wordsFrom, hc, Bool.false_eq_true, if_false] at hw
      refine ih (fun d hd => ?_) w hw
      rcases List.mem_cons.1 hd with hd | hd
      · subst hd
        simpa using hc
      · exact hword d hd

/-- A word is not empty and has no blank. -/
theorem not_isBlank_of_mem_words {cs w : List Char} (hw : w ∈ wordsChars cs) :
    w ≠ [] ∧ ∀ c ∈ w, isBlank c = false :=
  not_isBlank_of_mem_wordsFrom (by simp) w hw

end Appearance.Text
