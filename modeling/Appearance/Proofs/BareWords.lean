import Mathlib.Data.Nat.Digits.Defs
import Appearance.Proofs.Grammar
import Appearance.Proofs.Measures
import Appearance.Proofs.TokenSpans
import Appearance.Value.Read

/-!
# Bare words

A value text that is a single word stands for a flag or a number. What is written says which: an
integer is a sign and digits (`Value.WritesInteger`), a measure may have a point and a unit
(`Value.WritesMeasure`), and both are read off a `Numeral` with its value. An integer that 64 bits
cannot hold is a measure like any other, so no number is cut to size (`Value.classifies_words`).

Reading a word tries flags, then a dimension, and decides on integer or measure by the text of the
numeral. Stated by what is written, the cases exclude each other (`Means`), and `ofWord_eq_iff`
says that a word is read as its meaning and as nothing else. The bounds are those of 64 bits with a
sign. The last step carries this from words to texts that are scanned as a single word, white space
around it included.
-/

namespace Appearance

open Appearance.Text

/-! ## The integer of a numeral -/

/-- The value of digits is that of the numbers they stand for, to the base ten. -/
theorem digitsValue_eq_ofDigits (ds : List Char) :
    digitsValue ds = Nat.ofDigits 10 (ds.reverse.map fun c => c.toNat - '0'.toNat) := by
  induction ds using List.reverseRecOn with
  | nil => rfl
  | append_singleton ds c ih =>
    rw [List.reverse_append, List.reverse_singleton, List.singleton_append, List.map_cons,
      Nat.ofDigits_cons, ← ih, digitsValue, List.foldl_append, List.foldl_cons, List.foldl_nil,
      Nat.add_comm]
    rfl

namespace Numeral

/-- The integer that the sign and the digits before the point stand for. -/
def integer (n : Numeral) : Int :=
  let magnitude : Nat := Nat.ofDigits 10 (n.whole.reverse.map fun c => c.toNat - '0'.toNat)
  if n.sign.isMinus then -(magnitude : Int) else magnitude

/-- The point of a numeral without an exponent is in its text exactly if something may follow it. -/
theorem point_mem_text_iff {n : Numeral} (h : n.exponent = none) :
    '.' ∈ n.text ↔ n.fraction ≠ none := by
  have hsign : '.' ∉ n.sign.text := by cases n.sign <;> decide
  have hwhole : '.' ∉ n.whole := fun hmem => absurd (n.isDigit_whole _ hmem) (by decide)
  rw [text, unsignedText_eq h, List.mem_append, List.mem_append, fractionText]
  cases n.fraction <;> simp [hsign, hwhole]

end Numeral

namespace Value

/-- The integer fits in 64 bits, one of them for the sign. -/
def InIntRange (i : Int) : Prop := -2 ^ 63 ≤ i ∧ i < 2 ^ 63

instance (i : Int) : Decidable (InIntRange i) := inferInstanceAs (Decidable (_ ∧ _))

/-- Without a point and an exponent, a numeral is read as its integer, if that fits. -/
theorem readInt?_text {n : Numeral} (hfraction : n.fraction = none)
    (hexponent : n.exponent = none) :
    readInt? n.text = if InIntRange n.integer then some n.integer else none := by
  have hunsigned : n.unsignedText = n.whole := by
    rw [Numeral.unsignedText_eq hexponent, Numeral.fractionText, hfraction, List.append_nil]
  have hne : n.whole ≠ [] := by simpa [hfraction] using n.some_digit
  have hdigits : ¬ (n.whole.isEmpty || !n.whole.all Char.isDigit) = true := by
    simpa [List.isEmpty_iff, hne] using n.isDigit_whole
  rw [readInt?, n.splitSign_text, hunsigned]
  dsimp only
  rw [if_neg hdigits, digitsValue_eq_ofDigits]
  rfl

example : readInt? "9223372036854775807".toList = some (2 ^ 63 - 1) ∧
    readInt? "9223372036854775808".toList = none := by decide

/-! ## What a word writes -/

/-- The word is an optional sign with digits behind it, and stands for the integer. -/
def WritesInteger (word : String) (i : Int) : Prop :=
  ∃ n : Numeral, n.fraction = none ∧ n.exponent = none ∧ word.toList = n.text ∧ n.integer = i

/-- The word is an optional sign, digits with at most one point and at least one digit, and behind
these perhaps white space and a unit; the number is the double nearest to what is written. -/
def WritesMeasure (word : String) (x : Double) : Prop :=
  ∃ (n : Numeral) (gap unit : List Char), n.exponent = none ∧ n.value = x ∧ Blank gap ∧
    unit ∈ Dimension.units ∧ word.toList = n.text ++ (gap ++ unit)

section Word

variable {word : String} (hword : Token.IsWord word.toList)

include hword

/-- A word has a unit if anything stands behind its numeral. -/
theorem hasUnit_eq {n : Numeral} {gap unit : List Char} (hexponent : n.exponent = none)
    (hgap : Blank gap) (hunit : unit ∈ Dimension.units)
    (htext : word.toList = n.text ++ (gap ++ unit)) :
    Dimension.hasUnit word = !(gap ++ unit).isEmpty := by
  have hbody : Dimension.dropUnit word.toList = n.text := by
    rw [htext]
    exact Dimension.dropUnit_append (Numeral.getLast?_text hexponent) hgap hunit
  rw [Dimension.hasUnit, hword.trimmed, hbody, htext, List.length_append]
  cases gap ++ unit <;> simp

/-- A numeral with white space and a unit is an integer if there is nothing but a sign and digits,
and the integer fits. -/
theorem ofNumber_eq {n : Numeral} {gap unit : List Char} (hexponent : n.exponent = none)
    (hgap : Blank gap) (hunit : unit ∈ Dimension.units)
    (htext : word.toList = n.text ++ (gap ++ unit)) (x : Double) :
    ofNumber word x = if gap ++ unit = [] ∧ n.fraction = none ∧ InIntRange n.integer
      then .int n.integer else .float x := by
  rw [ofNumber, hasUnit_eq hword hexponent hgap hunit htext, hword.trimmed]
  by_cases hnil : gap ++ unit = []
  · rw [hnil, List.append_nil] at htext
    rw [htext]
    -- the word is its numeral, so a point in it is that of the numeral
    by_cases hfraction : n.fraction = none
    · have hpoint : n.text.contains '.' = false := by
        rw [← Bool.not_eq_true, List.contains_iff_mem, Numeral.point_mem_text_iff hexponent]
        exact fun hne => hne hfraction
      rw [hnil, hpoint, readInt?_text hfraction hexponent]
      by_cases hrange : InIntRange n.integer <;> simp [hrange, hfraction]
    · have hpoint : n.text.contains '.' = true :=
        List.contains_iff_mem.2 ((Numeral.point_mem_text_iff hexponent).2 hfraction)
      rw [hpoint, Bool.or_true, if_pos rfl, if_neg fun h => hfraction h.2.1]
  · have hunit : (!(gap ++ unit).isEmpty) = true := by simpa [List.isEmpty_iff] using hnil
    rw [hunit, Bool.true_or, if_pos rfl, if_neg fun h => hnil h.1]

end Word

/-! ## The meaning of a word -/

/-- The text of a flag. -/
def flagText (b : Bool) : String := if b then "true" else "false"

/-- What a word means, by what it writes. -/
inductive Means (word : String) : Except ValueError Value → Prop
  | flag {b : Bool} : word = flagText b → Means word (.ok (.bool b))
  | integer {i : Int} : WritesInteger word i → InIntRange i → Means word (.ok (.int i))
  | measure {x : Double} : WritesMeasure word x → (∀ i, WritesInteger word i → ¬ InIntRange i) →
    Means word (.ok (.float x))
  | other : (∀ b, word ≠ flagText b) → (∀ x, ¬ WritesMeasure word x) →
    Means word (.error (.malformed word .notScalar))

section Word

variable {word : String} (hword : Token.IsWord word.toList)

include hword

/-- A word that writes a measure is no flag, and is told from an integer by its numeral. -/
theorem ofWord_of_numeral {n : Numeral} {gap unit : List Char} (hexponent : n.exponent = none)
    (hgap : Blank gap) (hunit : unit ∈ Dimension.units)
    (htext : word.toList = n.text ++ (gap ++ unit)) :
    ofWord word = .ok (if gap ++ unit = [] ∧ n.fraction = none ∧ InIntRange n.integer
      then .int n.integer else .float n.value) := by
  have hread : Dimension.parse? word = some n.value :=
    (Dimension.parse?_eq_some_iff hword).2 ⟨n, gap, unit, hexponent, rfl, hgap, hunit, htext⟩
  have hflag : ∀ b, word ≠ flagText b := by
    have hflags : ∀ b, Dimension.parse? (flagText b) = none := by decide
    rintro b rfl
    rw [hflags b] at hread
    cases hread
  have htrue : word ≠ "true" := hflag true
  have hfalse : word ≠ "false" := hflag false
  rw [ofWord, if_neg htrue, if_neg hfalse, hread]
  exact congrArg Except.ok (ofNumber_eq hword hexponent hgap hunit htext n.value)

/-- An integer that fits is kept. -/
theorem ofWord_of_integer {i : Int} (h : WritesInteger word i) (hrange : InIntRange i) :
    ofWord word = .ok (.int i) := by
  obtain ⟨n, hfraction, hexponent, htext, rfl⟩ := h
  have htext' : word.toList = n.text ++ ([] ++ []) := by
    rw [htext, List.append_nil, List.append_nil]
  rw [ofWord_of_numeral hword hexponent (List.forall_mem_nil _) List.mem_cons_self htext',
    if_pos ⟨rfl, hfraction, hrange⟩]

/-- What is no integer that fits is a measure. -/
theorem ofWord_of_measure {x : Double} (h : WritesMeasure word x)
    (hinteger : ∀ i, WritesInteger word i → ¬ InIntRange i) : ofWord word = .ok (.float x) := by
  obtain ⟨n, gap, unit, hexponent, rfl, hgap, hunit, htext⟩ := h
  rw [ofWord_of_numeral hword hexponent hgap hunit htext, if_neg]
  rintro ⟨hnil, hfraction, hrange⟩
  rw [hnil, List.append_nil] at htext
  exact hinteger _ ⟨n, hfraction, hexponent, htext, rfl⟩ hrange

/-- A word that writes neither a flag nor a number is refused. -/
theorem ofWord_of_other (hflag : ∀ b, word ≠ flagText b) (h : ∀ x, ¬ WritesMeasure word x) :
    ofWord word = .error (.malformed word .notScalar) := by
  have hread : Dimension.parse? word = none := by
    rw [Option.eq_none_iff_forall_ne_some]
    exact fun x hx => h x ((Dimension.parse?_eq_some_iff hword).1 hx)
  have htrue : word ≠ "true" := hflag true
  have hfalse : word ≠ "false" := hflag false
  rw [ofWord, if_neg htrue, if_neg hfalse, hread]
  rfl

/-- A word is read as what it means. -/
theorem Means.ofWord_eq {result : Except ValueError Value} (h : Means word result) :
    ofWord word = result := by
  cases h with
  | @flag b hb =>
    subst hb
    cases b <;> rfl
  | integer hi hrange => exact ofWord_of_integer hword hi hrange
  | measure hx hinteger => exact ofWord_of_measure hword hx hinteger
  | other hflag hmeasure => exact ofWord_of_other hword hflag hmeasure

omit hword in
/-- Every word has a meaning. -/
theorem exists_means (word : String) : ∃ result, Means word result := by
  by_cases hflag : ∃ b, word = flagText b
  · exact ⟨_, .flag hflag.choose_spec⟩
  by_cases hinteger : ∃ i, WritesInteger word i ∧ InIntRange i
  · exact ⟨_, .integer hinteger.choose_spec.1 hinteger.choose_spec.2⟩
  by_cases hmeasure : ∃ x, WritesMeasure word x
  · exact ⟨_, .measure hmeasure.choose_spec fun i hi hrange => hinteger ⟨i, hi, hrange⟩⟩
  · exact ⟨_, .other (fun b hb => hflag ⟨b, hb⟩) fun x hx => hmeasure ⟨x, hx⟩⟩

/-- A word is read as its meaning and as nothing else. -/
theorem ofWord_eq_iff {result : Except ValueError Value} :
    ofWord word = result ↔ Means word result := by
  refine ⟨fun h => ?_, Means.ofWord_eq hword⟩
  obtain ⟨meaning, hmeans⟩ := exists_means word
  rwa [← h, hmeans.ofWord_eq hword]

end Word

end Value

/-! ## Texts of a single word -/

theorem Token.isWord_of_mem_scan {cs : List Char} {t : Token} (ht : t ∈ scan cs) {word : String}
    (hkind : t.kind = .word word) : IsWord word.toList :=
  (hkind ▸ (lexeme_slice ht).2).eq_of_word.2

/-- A text that is scanned as a single word is read as that word. -/
theorem Expr.parse_of_scan {text word : String}
    (h : (Token.scan text.toList).map Token.kind = [.word word]) :
    parse text = .ok (.word word) := by
  obtain ⟨t, hscan, hkind⟩ := List.map_eq_singleton_iff.1 h
  refine parseChars_eq_ok_iff.2 ⟨.word word (spanOf t), ?_, rfl⟩
  rw [hscan, Phrase.tokens, token_spanOf hkind]

namespace Value

/-- A text that is a single word, with white space around it or not, is a flag if the word is `true`
or `false`, an integer if it is an optional sign and digits whose value 64 bits hold, and a measure
if it is an optional sign and digits with at most one point, perhaps with a unit and white space
before that, and no such integer. In every other case the word is malformed. -/
theorem classifies_words (ctx : ValueContext) {text word : String}
    (h : (Token.scan text.toList).map Token.kind = [.word word]) :
    (∀ b, parse ctx text = .ok (.bool b) ↔ word = flagText b) ∧
      (∀ i, parse ctx text = .ok (.int i) ↔ WritesInteger word i ∧ InIntRange i) ∧
      (∀ x, parse ctx text = .ok (.float x) ↔
        WritesMeasure word x ∧ ∀ i, WritesInteger word i → ¬ InIntRange i) ∧
      ∀ e, parse ctx text = .error e ↔ e = .malformed word .notScalar ∧
        (∀ b, word ≠ flagText b) ∧ ∀ x, ¬ WritesMeasure word x := by
  obtain ⟨t, hscan, hkind⟩ := List.map_eq_singleton_iff.1 h
  have hword : Token.IsWord word.toList :=
    Token.isWord_of_mem_scan (hscan ▸ List.mem_singleton_self t) hkind
  have hmeans : ∀ result, parse ctx text = result ↔ Means word result := by
    intro result
    rw [parse, Expr.parse_of_scan h]
    exact ofWord_eq_iff hword
  refine ⟨fun b => (hmeans _).trans ⟨fun hb => ?_, .flag⟩,
    fun i => (hmeans _).trans ⟨fun hi => ?_, fun hi => .integer hi.1 hi.2⟩,
    fun x => (hmeans _).trans ⟨fun hx => ?_, fun hx => .measure hx.1 hx.2⟩,
    fun e => (hmeans _).trans ⟨fun he => ?_, ?_⟩⟩
  · cases hb with
    | flag hb => exact hb
  · cases hi with
    | integer hi hrange => exact ⟨hi, hrange⟩
  · cases hx with
    | measure hx hinteger => exact ⟨hx, hinteger⟩
  · cases he with
    | other hflag hmeasure => exact ⟨rfl, hflag, hmeasure⟩
  · rintro ⟨rfl, hflag, hmeasure⟩
    exact .other hflag hmeasure

/-- The least integer that does not fit is a measure. -/
theorem classifies_words_tooLarge :
    (Token.scan "9223372036854775808".toList).map Token.kind = [.word "9223372036854775808"] ∧
      parse ⟨none, []⟩ "9223372036854775808" = .ok (.float (.finite false (2 ^ 52) 11)) := by
  have hscan : (Token.scan "9223372036854775808".toList).map Token.kind =
      [.word "9223372036854775808"] := by decide +kernel
  let n : Numeral := ⟨.none, "9223372036854775808".toList, none, none, by decide, nofun, by decide⟩
  have hmeasure : WritesMeasure "9223372036854775808" (.finite false (2 ^ 52) 11) :=
    ⟨n, [], [], rfl, by decide +kernel, nofun, by decide, by decide⟩
  refine ⟨hscan, ((classifies_words ⟨none, []⟩ hscan).2.2.1 _).2 ⟨hmeasure, ?_⟩⟩
  rintro - ⟨m, hfraction, hexponent, htext, rfl⟩ hrange
  have hnone : readInt? "9223372036854775808".toList = none := by decide
  rw [htext, readInt?_text hfraction hexponent, if_pos hrange] at hnone
  cases hnone

end Value

end Appearance
