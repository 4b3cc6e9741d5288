import Appearance.Code.Literal
import Mathlib.Data.List.Basic

/-!
# Characters of printed numbers

A number is printed with digits, a sign, a point, and the letters of the words for what is no
number and for the infinite ones. So what holds of these characters holds of all that a number
literal has (`Code.forall_mem_number`).

The statement takes a predicate on characters and asks it of the digits and of `numberMarks`. A
caller that wants no brace, no quote or no line break in a number therefore decides the predicate
on a handful of characters and never looks at how a double is laid out. Every literal in generated
code that is not a name goes through it.
-/

namespace Appearance.Code

/-- The characters of printed numbers beside digits. -/
def numberMarks : List Char := ['-', '.', 'N', 'a', 'i', 'n', 'f']

variable {p : Char → Bool} (hdigit : ∀ c, c.isDigit = true → p c = true)
  (hmark : ∀ c ∈ numberMarks, p c = true)

include hdigit hmark

/-- Digits and a point are all that is in a decimal number. -/
theorem forall_mem_positional (d : Decimal) : ∀ c ∈ d.positional, p c = true := by
  have hfigures : ∀ c ∈ d.figures, p c = true := fun c hc =>
    hdigit c (Nat.isDigit_of_mem_toDigits (by decide) (by decide) hc)
  have hzero : p '0' = true := hdigit '0' rfl
  have hpoint : p '.' = true := hmark '.' (by decide)
  have hzeros : ∀ n, ∀ c ∈ List.replicate n '0', p c = true := fun n c hc => by
    rw [List.eq_of_mem_replicate hc]
    exact hzero
  unfold Decimal.positional
  dsimp only
  split
  · exact List.forall_mem_singleton.2 hzero
  · split
    · exact List.forall_mem_append.2 ⟨hfigures, hzeros _⟩
    · split
      · refine List.forall_mem_append.2 ⟨fun c hc => hfigures c (List.mem_of_mem_take hc), ?_⟩
        exact List.forall_mem_cons.2 ⟨hpoint, fun c hc => hfigures c (List.mem_of_mem_drop hc)⟩
      · exact List.forall_mem_cons.2 ⟨hzero, List.forall_mem_cons.2
          ⟨hpoint, List.forall_mem_append.2 ⟨hzeros _, hfigures⟩⟩⟩

/-- A sign, an exponent and two words are added in the other notations. -/
theorem forall_mem_toText (x : Double) : ∀ c ∈ x.toText.toList, p c = true := by
  have hsign : ∀ negative, (Double.signText negative).toList ⊆ numberMarks := by decide
  have hwords : ∀ word ∈ ["NaN", "inf"], word.toList ⊆ numberMarks := by decide
  cases x with
  | nan => exact fun c hc => hmark c (hwords _ (by decide) hc)
  | infinite negative =>
    rw [Double.toText, String.toList_append]
    exact List.forall_mem_append.2 ⟨fun c hc => hmark c (hsign _ hc),
      fun c hc => hmark c (hwords _ (by decide) hc)⟩
  | finite negative m e =>
    rw [Double.toText, String.toList_append, String.toList_ofList]
    exact List.forall_mem_append.2 ⟨fun c hc => hmark c (hsign _ hc),
      forall_mem_positional hdigit hmark _⟩

/-- What holds of digits and of the marks of numbers holds of the characters of all numbers. -/
theorem forall_mem_number (x : Double) : ∀ c ∈ (number x).toList, p c = true := by
  have htext := forall_mem_toText hdigit hmark x
  unfold number
  split
  · rw [String.toList_append]
    exact List.forall_mem_append.2 ⟨htext,
      List.forall_mem_cons.2 ⟨hmark '.' (by decide), List.forall_mem_singleton.2 (hdigit '0' rfl)⟩⟩
  · exact htext

end Appearance.Code
