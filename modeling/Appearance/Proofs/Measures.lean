import Mathlib.Data.Nat.Digits.Defs
import Appearance.Dimension
import Appearance.Proofs.Lexemes
import Appearance.Proofs.Normalization
import Appearance.Proofs.Numerals
import Appearance.Proofs.Spellings
import Appearance.Yaml.Node.Scalar

/-!
# Numbers with units

A dimension is a numeral without an exponent, with white space and a unit behind it, each perhaps
absent (`Dimension.parse?_eq_some_iff`). A plain scalar of a document is a number in other cases: it
may have an exponent or a base, and it has no unit. Where one text is both, the two numbers are the
same, up to the sign of zero, and the text has no unit (`Dimension.same_of_plainNode`).

A word can be read in two ways, as a value text and as a scalar of a document, and the two readers
disagree about units, signs, bases and exponents. Both are reduced to a `Numeral` here, so that
comparing them is comparing numerals. Zero is an exception to equality, for a document keeps the
sign of an integer zero no longer. Capital letters and words such as `.inf` are excluded where the
statement would be false.
-/

namespace Appearance

open Appearance.Text
open Appearance.Yaml (Node)

/-! ## Equal numbers -/

namespace Double

/-- Equal numbers: the same double, or zero with either sign. -/
def Same (x y : Double) : Prop := x = y ∨ ∃ b c, x = zero b ∧ y = zero c

theorem Same.refl (x : Double) : x.Same x := .inl rfl

/-- An integer is the decimal with its digits, if it is not beyond all doubles. -/
theorem same_ofInt {n : Int} {digits : Nat} (hdigits : digits < 10 ^ 20) (b : Bool)
    (hn : n = if b then -(digits : Int) else digits) : (ofInt n).Same (ofDecimal b digits 0) := by
  have hlength : (Nat.toDigits 10 digits).length ≤ 20 :=
    Nat.toDigits_length _ _ _ (by decide) hdigits
  by_cases hzero : digits = 0
  · subst hzero
    refine .inr ⟨false, b, ?_, ?_⟩
    · rw [hn]
      cases b <;> rfl
    · rw [ofDecimal, if_pos (.inl rfl)]
  · left
    have hnegative : decide (n < 0) = b := by
      cases b <;> simp only [hn, if_true, Bool.false_eq_true, if_false, decide_eq_true_eq,
        decide_eq_false_iff_not] <;> omega
    have habs : n.natAbs = digits := by
      cases b <;> simp [hn]
    have hone : pow10 (-(0 : Int)).toNat = 1 := rfl
    have hone' : pow10 (0 : Int).toNat = 1 := rfl
    dsimp only [ofDecimal]
    rw [if_neg (by omega), if_neg (by omega), ofInt, hnegative, habs, hone, hone', Nat.mul_one]

end Double

/-! ## Dimensions -/

namespace Text

theorem exists_trimEndChars (cs : List Char) :
    ∃ gap, Blank gap ∧ cs = trimEndChars cs ++ gap := by
  refine ⟨(cs.reverse.takeWhile isBlank).reverse,
    fun c hc => List.mem_takeWhile_imp (List.mem_reverse.1 hc), ?_⟩
  rw [trimEndChars, dropEndWhile, ← List.reverse_append, List.takeWhile_append_dropWhile,
    List.reverse_reverse]

/-- What may be dropped behind a text is dropped, and nothing before it. -/
theorem dropEndWhile_append {p : Char → Bool} {cs gap : List Char} (hgap : ∀ c ∈ gap, p c = true)
    (hlast : ∀ c ∈ cs.getLast?, p c = false) : dropEndWhile p (cs ++ gap) = cs := by
  have hgap' : ∀ c ∈ gap.reverse, p c = true := fun c hc => hgap c (List.mem_reverse.1 hc)
  rw [dropEndWhile, List.reverse_append, List.dropWhile_append_of_pos hgap', List.reverse_eq_iff]
  cases hcs : cs.reverse with
  | nil => rfl
  | cons c rest =>
    refine List.dropWhile_cons_of_neg ?_
    rw [hlast c (by rw [← List.head?_reverse, hcs]; rfl)]
    exact Bool.false_ne_true

end Text

namespace Dimension

open Comparison (isPlain isBlank_of_isPlain)

/-- The units, and none. -/
def units : List (List Char) := [[], ['p', 't'], ['d', 'p'], ['f']]

/-- A suffix that is dropped stood behind the text. -/
theorem dropSuffix?_eq_some {unit cs body : List Char} (h : dropSuffix? unit cs = some body) :
    cs = body ++ unit := by
  unfold dropSuffix? at h
  split at h
  · next hsuffix =>
    obtain ⟨front, rfl⟩ := List.isSuffixOf_iff_suffix.1 hsuffix
    rw [List.length_append, Nat.add_sub_cancel, List.take_left] at h
    rw [Option.some.inj h]
  · cases h

/-- Behind the body of a dimension there is a unit, perhaps with white space before it. -/
theorem exists_dropUnit (cs : List Char) :
    ∃ gap unit, Blank gap ∧ unit ∈ units ∧ cs = dropUnit cs ++ (gap ++ unit) := by
  have hunit : ∃ unit ∈ units, cs = ((dropSuffix? ['p', 't'] cs <|> dropSuffix? ['d', 'p'] cs <|>
      dropSuffix? ['f'] cs).getD cs) ++ unit := by
    cases hpt : dropSuffix? ['p', 't'] cs with
    | some body => exact ⟨_, by decide, dropSuffix?_eq_some hpt⟩
    | none =>
      cases hdp : dropSuffix? ['d', 'p'] cs with
      | some body => exact ⟨_, by decide, dropSuffix?_eq_some hdp⟩
      | none =>
        cases hf : dropSuffix? ['f'] cs with
        | some body => exact ⟨_, by decide, dropSuffix?_eq_some hf⟩
        | none => exact ⟨[], by decide, (List.append_nil cs).symm⟩
  obtain ⟨unit, hunit, hcs⟩ := hunit
  obtain ⟨gap, hgap, hbody⟩ := exists_trimEndChars ((dropSuffix? ['p', 't'] cs <|>
    dropSuffix? ['d', 'p'] cs <|> dropSuffix? ['f'] cs).getD cs)
  refine ⟨gap, unit, hgap, hunit, ?_⟩
  rw [← List.append_assoc]
  exact hcs.trans (congrArg (· ++ unit) hbody)

theorem dropSuffix?_append (cs unit : List Char) : dropSuffix? unit (cs ++ unit) = some cs := by
  rw [dropSuffix?, if_pos (List.isSuffixOf_iff_suffix.2 (List.suffix_append cs unit)),
    List.length_append, Nat.add_sub_cancel, List.take_left]

/-- A text with another character at its end does not have the unit. -/
theorem dropSuffix?_eq_none {cs unit : List Char} {c : Char} (hunit : unit.getLast? = some c)
    (hcs : cs.getLast? ≠ some c) : dropSuffix? unit cs = none := by
  rw [dropSuffix?, if_neg]
  rw [List.isSuffixOf_iff_suffix]
  rintro ⟨front, rfl⟩
  rw [List.getLast?_append, hunit] at hcs
  exact hcs rfl

/-- A unit is removed with the white space before it, behind a digit or a point. -/
theorem dropUnit_append {body gap unit : List Char}
    (hbody : ∀ c ∈ body.getLast?, c.isDigit = true ∨ c = '.') (hgap : Blank gap)
    (hunit : unit ∈ units) : dropUnit (body ++ (gap ++ unit)) = body := by
  have hlast : ∀ d ∈ ['t', 'p', 'f'], (body ++ gap).getLast? ≠ some d := by
    have hletters : ∀ d ∈ ['t', 'p', 'f'], isBlank d = false ∧ d.isDigit = false ∧ d ≠ '.' := by
      decide
    intro d hd heq
    obtain ⟨hblank, hdigit, hpoint⟩ := hletters d hd
    rw [List.getLast?_append] at heq
    cases hg : gap.getLast? with
    | some c =>
      rw [hg] at heq
      cases heq
      exact Bool.false_ne_true (hblank.symm.trans (hgap d (List.mem_of_getLast? hg)))
    | none =>
      rw [hg] at heq
      rcases hbody d heq with h | h
      · exact Bool.false_ne_true (hdigit.symm.trans h)
      · exact hpoint h
  have htrim : trimEndChars (body ++ gap) = body :=
    dropEndWhile_append hgap fun c hc => by
      rcases hbody c hc with h | rfl
      · exact isBlank_of_isPlain (by rw [isPlain, Numeral.isFigure_of_isDigit h, Bool.or_true])
      · rfl
  simp only [units, List.mem_cons, List.not_mem_nil, or_false] at hunit
  rw [dropUnit, ← List.append_assoc]
  rcases hunit with rfl | rfl | rfl | rfl
  · rw [List.append_nil, dropSuffix?_eq_none rfl (hlast 't' (by decide)),
      dropSuffix?_eq_none rfl (hlast 'p' (by decide)),
      dropSuffix?_eq_none rfl (hlast 'f' (by decide))]
    exact htrim
  · rw [dropSuffix?_append]
    exact htrim
  · rw [dropSuffix?_eq_none (c := 't') rfl (by simp), dropSuffix?_append]
    exact htrim
  · rw [dropSuffix?_eq_none (c := 't') rfl (by simp), dropSuffix?_eq_none (c := 'p') rfl (by simp),
      dropSuffix?_append]
    exact htrim

/-- Behind a point there are only digits. -/
theorem isDigit_of_numericFrom {cs : List Char} {digit : Bool}
    (h : numericFrom digit true cs = true) :
    (∀ c ∈ cs, c.isDigit = true) ∧ (digit = true ∨ cs ≠ []) := by
  induction cs generalizing digit with
  | nil => exact ⟨nofun, .inl h⟩
  | cons c cs ih =>
    rw [numericFrom] at h
    split at h
    · next hc => exact ⟨List.forall_mem_cons.2 ⟨hc, (ih h).1⟩, .inr (List.cons_ne_nil c cs)⟩
    · simp at h

/-- Digits with at most one point are those before the point and those behind it. -/
theorem exists_of_numericFrom {cs : List Char} {digit : Bool}
    (h : numericFrom digit false cs = true) :
    ∃ (whole : List Char) (fraction : Option (List Char)), (∀ c ∈ whole, c.isDigit = true) ∧
      (∀ c ∈ fraction.getD [], c.isDigit = true) ∧
      (digit = true ∨ whole ++ fraction.getD [] ≠ []) ∧
      cs = whole ++ fraction.elim [] ('.' :: ·) := by
  induction cs generalizing digit with
  | nil => exact ⟨[], none, nofun, nofun, .inl h, rfl⟩
  | cons c cs ih =>
    rw [numericFrom] at h
    split at h
    · next hc =>
      obtain ⟨whole, fraction, hwhole, hfraction, -, rfl⟩ := ih h
      exact ⟨c :: whole, fraction, List.forall_mem_cons.2 ⟨hc, hwhole⟩, hfraction,
        .inr (List.cons_ne_nil c _), rfl⟩
    · split at h
      · next hpoint =>
        obtain ⟨hdigits, hsome⟩ := isDigit_of_numericFrom h
        simp only [Bool.not_false, Bool.and_true, decide_eq_true_eq] at hpoint
        exact ⟨[], some cs, nofun, hdigits, hsome, by rw [hpoint]; rfl⟩
      · cases h

/-- A numeric text is a numeral without an exponent. -/
theorem exists_of_isNumeric {cs : List Char} (h : isNumeric cs = true) :
    ∃ n : Numeral, n.exponent = none ∧ n.text = cs := by
  obtain ⟨sign, htext, -⟩ := Numeral.exists_sign cs
  obtain ⟨whole, fraction, hwhole, hfraction, hsome, hcs⟩ := exists_of_numericFrom h
  refine ⟨⟨sign, whole, fraction, none, hwhole, hfraction, hsome.resolve_left nofun⟩, rfl, ?_⟩
  rw [← htext, hcs]
  cases fraction <;>
    simp [Numeral.text, Numeral.unsignedText, Numeral.fractionText, Numeral.exponentText]

/-- Digits in front of a number make it none the less one. -/
theorem numericFrom_append {ds : List Char} (hds : ∀ c ∈ ds, c.isDigit = true)
    (digit point : Bool) (rest : List Char) :
    numericFrom digit point (ds ++ rest) = numericFrom (digit || !ds.isEmpty) point rest := by
  induction ds generalizing digit with
  | nil => simp
  | cons c ds ih =>
    obtain ⟨hc, hds⟩ := List.forall_mem_cons.1 hds
    rw [List.cons_append, numericFrom, if_pos hc, ih hds]
    simp

/-- A numeral without an exponent is a numeric text. -/
theorem isNumeric_text {n : Numeral} (h : n.exponent = none) : isNumeric n.text = true := by
  have hsome := n.some_digit
  have hfraction := n.isDigit_fraction
  rw [isNumeric, n.splitSign_text, Numeral.unsignedText_eq h, numericFrom_append n.isDigit_whole,
    Numeral.fractionText]
  cases hn : n.fraction with
  | none => simpa [hn, numericFrom] using hsome
  | some ds =>
    rw [hn, Option.getD_some] at hfraction hsome
    have hpoint : numericFrom (false || !n.whole.isEmpty) false ('.' :: ds) =
        numericFrom (false || !n.whole.isEmpty) true (ds ++ []) := by
      rw [List.append_nil]
      rfl
    dsimp only
    rw [hpoint, numericFrom_append hfraction, numericFrom]
    simpa [or_iff_not_imp_left] using hsome

/-- A word has no quotes to lose. -/
theorem unquoted_of_isWord {cs : List Char} (h : Token.IsWord cs) : unquoted cs = cs := by
  have hquote : ∀ c ∈ cs, ¬ isQuote c = true := fun c hc hq => by
    have hdelimiter := h.noDelimiter c hc
    rw [Token.isDelimiter, Bool.or_eq_false_iff] at hdelimiter
    exact Bool.false_ne_true (hdelimiter.2.symm.trans hq)
  have hdrop : cs.dropWhile isQuote = cs := by
    cases cs with
    | nil => rfl
    | cons c cs => exact List.dropWhile_cons_of_neg (hquote c List.mem_cons_self)
  have hdropEnd : dropEndWhile isQuote cs = cs := by
    rw [dropEndWhile, List.reverse_eq_iff]
    cases hreverse : cs.reverse with
    | nil => rfl
    | cons c rest =>
      have hc : c ∈ cs := List.mem_reverse.1 (hreverse ▸ List.mem_cons_self)
      exact List.dropWhile_cons_of_neg (hquote c hc)
  rw [unquoted, h.trimmed, hdrop, hdropEnd, h.trimmed]

/-- A word that is a dimension is a numeral without an exponent, white space and a unit. -/
theorem exists_measure {text : String} {x : Double} (hword : Token.IsWord text.toList)
    (h : parse? text = some x) :
    ∃ n : Numeral, n.exponent = none ∧ n.value = x ∧ n.text = dropUnit text.toList ∧
      ∃ gap unit, Blank gap ∧ unit ∈ units ∧ text.toList = n.text ++ (gap ++ unit) := by
  rw [parse?, parseChars?, unquoted_of_isWord hword] at h
  split at h
  · next hnumeric =>
    obtain ⟨n, hexponent, htext⟩ := exists_of_isNumeric hnumeric
    obtain ⟨gap, unit, hgap, hunit, hcs⟩ := exists_dropUnit text.toList
    rw [← htext, n.read?_text] at h
    exact ⟨n, hexponent, Option.some.inj h, htext, gap, unit, hgap, hunit, by rw [htext]; exact hcs⟩
  · cases h

/-- A word is a dimension exactly if it is a numeral without exponent, white space and a unit, and
its number is that of the numeral. -/
theorem parse?_eq_some_iff {text : String} {x : Double} (hword : Token.IsWord text.toList) :
    parse? text = some x ↔ ∃ (n : Numeral) (gap unit : List Char), n.exponent = none ∧ n.value = x ∧
      Blank gap ∧ unit ∈ units ∧ text.toList = n.text ++ (gap ++ unit) := by
  constructor
  · intro h
    obtain ⟨n, hexponent, hvalue, -, gap, unit, hgap, hunit, htext⟩ := exists_measure hword h
    exact ⟨n, gap, unit, hexponent, hvalue, hgap, hunit, htext⟩
  · rintro ⟨n, gap, unit, hexponent, rfl, hgap, hunit, htext⟩
    have hbody : dropUnit (unquoted text.toList) = n.text := by
      rw [unquoted_of_isWord hword, htext]
      exact dropUnit_append (Numeral.getLast?_text hexponent) hgap hunit
    rw [parse?, parseChars?, hbody]
    exact (if_pos (isNumeric_text hexponent)).trans n.read?_text

end Dimension

/-! ## Numbers of plain scalars -/

/-- A numeral without a sign has the same value with a plus. -/
theorem Numeral.exists_plus (n : Numeral) (hsign : ∀ c ∈ n.text.head?, c ≠ '+' ∧ c ≠ '-') :
    ∃ m : Numeral, m.text = '+' :: n.text ∧ m.value = n.value := by
  cases hn : n.sign with
  | none =>
    refine ⟨{ n with sign := .plus }, ?_, ?_⟩
    · rw [text, text, hn]
      rfl
    · rw [value, value, hn]
      rfl
  | plus => exact absurd rfl (hsign '+' (by rw [text, hn]; rfl)).1
  | minus => exact absurd rfl (hsign '-' (by rw [text, hn]; rfl)).2

namespace Yaml.Scalar

/-- Digits to the base ten are decimal digits. -/
theorem exists_digit_of_hexDigit? {c : Char} {d : Nat} (h : Color.hexDigit? c = some d)
    (hd : d < 10) : c.isDigit = true ∧ c.toNat - '0'.toNat = d := by
  unfold Color.hexDigit? at h
  split at h
  · next hc => exact ⟨hc, Option.some.inj h⟩
  · split at h
    · have := Option.some.inj h
      omega
    · split at h
      · have := Option.some.inj h
        omega
      · cases h

/-- Hexadecimal digits below ten are decimal digits. -/
theorem map_of_hexDigits? {cs : List Char} {ds : List Nat} (h : Color.hexDigits? cs = some ds)
    (hds : ∀ d ∈ ds, d < 10) :
    (∀ c ∈ cs, c.isDigit = true) ∧ ds = cs.map fun c => c.toNat - '0'.toNat := by
  unfold Color.hexDigits? at h
  induction cs generalizing ds with
  | nil =>
    cases h
    exact ⟨nofun, rfl⟩
  | cons c cs ih =>
    rw [List.mapM_cons] at h
    obtain ⟨d, hd, h⟩ := Option.bind_eq_some_iff.1 h
    obtain ⟨rest, hrest, h⟩ := Option.bind_eq_some_iff.1 h
    cases h
    obtain ⟨hlt, hall⟩ := List.forall_mem_cons.1 hds
    obtain ⟨hdigit, rfl⟩ := exists_digit_of_hexDigit? hd hlt
    obtain ⟨hdigits, rfl⟩ := ih hrest hall
    exact ⟨List.forall_mem_cons.2 ⟨hdigit, hdigits⟩, rfl⟩

/-- A number in base ten is written with decimal digits. -/
theorem isDigit_of_digitsIn? {cs : List Char} {n : Nat} (h : digitsIn? 10 cs = some n) :
    cs ≠ [] ∧ (∀ c ∈ cs, c.isDigit = true) ∧ digitsValue cs = n := by
  unfold digitsIn? at h
  obtain ⟨ds, hds, h⟩ := Option.bind_eq_some_iff.1 h
  split at h
  · cases h
  · next hsmall =>
    simp only [Bool.or_eq_true, List.isEmpty_iff, List.any_eq_true, decide_eq_true_eq, not_or,
      not_exists, not_and, Nat.not_le] at hsmall
    obtain ⟨hdigits, hmap⟩ := map_of_hexDigits? hds hsmall.2
    refine ⟨?_, hdigits, ?_⟩
    · rintro rfl
      exact hsmall.1 hmap
    · rw [← Option.some.inj h, hmap, List.foldl_map]
      rfl

/-- The letters that mark a base. -/
def baseMarks : List Char := ['x', 'o', 'b']

/-- Without the mark of another base a number is read in base ten. -/
theorem magnitude?_eq {cs : List Char} (h : ∀ c ∈ baseMarks, c ∉ cs) :
    magnitude? cs = digitsIn? 10 cs := by
  unfold magnitude?
  split
  · exact absurd (by simp) (h 'x' (by decide))
  · exact absurd (by simp) (h 'o' (by decide))
  · exact absurd (by simp) (h 'b' (by decide))
  · rfl

/-- An integer without the mark of a base is a numeral of digits. -/
theorem exists_of_integer? {cs : List Char} {i : Int} (hmarks : ∀ c ∈ baseMarks, c ∉ cs)
    (h : integer? cs = some i) :
    ∃ n : Numeral, n.fraction = none ∧ n.exponent = none ∧ n.text = cs ∧
      i = if n.sign.isMinus then -(digitsValue n.whole : Int) else digitsValue n.whole := by
  obtain ⟨sign, htext, hminus⟩ := Numeral.exists_sign cs
  unfold integer? at h
  split at h
  · cases h
  · dsimp only at h
    have hunsigned : ∀ c ∈ baseMarks, c ∉ (splitSign cs).2 := fun c hc hmem =>
      hmarks c hc (htext ▸ List.mem_append_right _ hmem)
    rw [magnitude?_eq hunsigned] at h
    obtain ⟨_, hread, rfl⟩ := Option.map_eq_some_iff.1 h
    obtain ⟨k, hk, hcast⟩ := Option.bind_eq_some_iff.1 hread
    cases hcast
    obtain ⟨hne, hdigits, hvalue⟩ := isDigit_of_digitsIn? hk
    refine ⟨⟨sign, (splitSign cs).2, none, none, hdigits, nofun, by simpa using hne⟩, rfl, rfl, ?_,
      ?_⟩
    · simpa [Numeral.text, Numeral.unsignedText, Numeral.fractionText, Numeral.exponentText]
        using htext
    · rw [hminus, hvalue]

/-- The text has no capital letters and none of the words for what is not finite. -/
def Wordless (cs : List Char) : Prop := (∀ c ∈ cs, c.toLower = c) ∧ 'n' ∉ cs

/-- A text without letters is none of the words. -/
theorem Wordless.contains_eq_false {cs : List Char} (h : Wordless cs) {words : List String}
    (hwords : ∀ w ∈ words, w.toList.any (fun c => c.toLower != c || c == 'n') = true) :
    words.contains (String.ofList cs) = false := by
  rw [← Bool.not_eq_true, List.contains_iff_mem]
  intro hmem
  obtain ⟨c, hc, hbad⟩ := List.any_eq_true.1 (hwords _ hmem)
  rw [String.toList_ofList] at hc
  simp only [Bool.or_eq_true, bne_iff_ne, beq_iff_eq] at hbad
  rcases hbad with hbad | rfl
  · exact hbad (h.1 c hc)
  · exact h.2 hc

/-- A double that is finite in any case is a numeral. -/
theorem exists_of_real? {cs : List Char} {x : Double} (hwordless : Wordless cs)
    (h : real? (String.ofList cs) = some x) : ∃ n : Numeral, n.text = cs ∧ n.value = x := by
  have hnumeral : ∀ {ds : List Char}, Wordless ds →
      (Double.read? (String.ofList ds)).filter Double.isFinite = some x →
        ∃ n : Numeral, n.text = ds ∧ n.value = x := fun hds hread =>
    have ⟨hread, hfinite⟩ := Option.filter_eq_some_iff.1 hread
    Numeral.exists_of_read? hds.1 hfinite hread
  unfold real? at h
  rw [String.toList_ofList] at h
  dsimp only at h
  have hinfinite : ["-.inf", "-.Inf", "-.INF"].contains (String.ofList cs) = false :=
    hwordless.contains_eq_false (by decide)
  have hnan : [".nan", ".NaN", ".NAN"].contains (String.ofList cs) = false :=
    hwordless.contains_eq_false (by decide)
  rw [hinfinite, hnan] at h
  split at h
  next ds =>
    have hds : Wordless ds := ⟨fun c hc => hwordless.1 c (List.mem_cons_of_mem _ hc),
      fun hc => hwordless.2 (List.mem_cons_of_mem _ hc)⟩
    rw [hds.contains_eq_false (by decide)] at h
    simp only [Bool.false_eq_true, if_false] at h
    split at h
    · cases h
    · next hsign =>
      obtain ⟨n, rfl, rfl⟩ := hnumeral hds h
      exact n.exists_plus fun c hc => by simpa [Option.mem_def.1 hc] using hsign
  next ds hplus =>
    rw [hwordless.contains_eq_false (by decide)] at h
    simp only [Bool.false_eq_true, if_false] at h
    split at h
    · cases h
    · exact hnumeral hwordless h

/-- A number without capital letters, words and marks of a base is written as a numeral of the same
value. -/
theorem exists_of_plainNode {cs : List Char} {m : Number} (hwordless : Wordless cs)
    (hmarks : ∀ c ∈ baseMarks, c ∉ cs) (h : plainNode (String.ofList cs) = some (.number m)) :
    ∃ n : Numeral, n.text = cs ∧ m.toDouble.Same n.value := by
  unfold plainNode at h
  rw [String.toList_ofList] at h
  split at h
  · cases h
  split at h
  · cases h
  split at h
  · next i hi =>
    cases h
    obtain ⟨k, hk, hread⟩ := Option.bind_eq_some_iff.1 hi
    split at hread
    · next hrange =>
      cases hread
      obtain ⟨n, hfraction, hexponent, htext, hvalue⟩ := exists_of_integer? hmarks hk
      have hvalue' : n.value = .ofDecimal n.sign.isMinus (digitsValue n.whole) 0 := by
        rw [Numeral.value, hfraction, hexponent, Option.getD_none, List.append_nil]
        rfl
      have hdigits : digitsValue n.whole < 10 ^ 20 := by
        have hlow : -(2 ^ 63 : Int) ≤ i := hrange.1
        have hhigh : i < (2 ^ 64 : Int) := hrange.2
        split at hvalue <;> omega
      exact ⟨n, htext, hvalue' ▸ Double.same_ofInt hdigits _ hvalue⟩
    · split at hread <;> cases hread
  · cases h
  · split at h
    · cases h
    · split at h
      · next x hx =>
        cases h
        obtain ⟨n, htext, hvalue⟩ := exists_of_real? hwordless hx
        exact ⟨n, htext, .inl hvalue.symm⟩
      · cases h

end Yaml.Scalar

namespace Dimension

open Comparison (isPlain isBlank_of_isPlain toLower_of_isPlain)

/-- The characters of a dimension. -/
theorem forall_mem_measure {cs gap unit : List Char} {n : Numeral} (hgap : Blank gap)
    (hunit : unit ∈ units) (hcs : cs = n.text ++ (gap ++ unit)) {p : Char → Prop}
    (hfigure : ∀ c, Numeral.isFigure c = true → p c) (hblank : ∀ c, isBlank c = true → p c)
    (hletter : ∀ c ∈ ['p', 't', 'd', 'f'], p c) : ∀ c ∈ cs, p c := by
  have hletters : ∀ u ∈ units, u ⊆ ['p', 't', 'd', 'f'] := by decide
  subst hcs
  exact List.forall_mem_append.2 ⟨fun c hc => hfigure c (n.isFigure_text c hc),
    List.forall_mem_append.2 ⟨fun c hc => hblank c (hgap c hc),
      fun c hc => hletter c (hletters unit hunit hc)⟩⟩

/-- White space and a unit that consist of the characters of numerals are empty. -/
theorem eq_nil_of_isFigure {gap unit : List Char} (hgap : Blank gap) (hunit : unit ∈ units)
    (hfigure : ∀ c ∈ gap ++ unit, Numeral.isFigure c = true) : gap ++ unit = [] := by
  have hunits : ∀ u ∈ units, (∀ c ∈ u, Numeral.isFigure c = true) → u = [] := by decide
  obtain ⟨hgapFigure, hunitFigure⟩ := List.forall_mem_append.1 hfigure
  rw [hunits unit hunit hunitFigure, List.append_nil, List.eq_nil_iff_forall_not_mem]
  intro c hc
  have hplain : isPlain c = true := by rw [isPlain, hgapFigure c hc, Bool.or_true]
  exact Bool.false_ne_true ((isBlank_of_isPlain hplain).symm.trans (hgap c hc))

/-- A word that is a dimension and also a number of a document is the same number in both, and has
no unit. -/
theorem same_of_plainNode {text : String} {x : Double} {m : Yaml.Number}
    (hword : Token.IsWord text.toList) (hx : parse? text = some x)
    (hm : Yaml.Scalar.plainNode text = some (.number m)) :
    m.toDouble.Same x ∧ hasUnit text = false := by
  obtain ⟨n, -, hvalue, hbody, gap, unit, hgap, hunit, htext⟩ := exists_measure hword hx
  have hlower : ∀ c ∈ text.toList, c.toLower = c :=
    forall_mem_measure hgap hunit htext
      (fun c hc => toLower_of_isPlain (by rw [isPlain, hc, Bool.or_true]))
      (fun c hc => toLower_of_isBlank hc) (by decide)
  have hletters : ∀ c ∈ text.toList, c ∉ 'n' :: Yaml.Scalar.baseMarks :=
    forall_mem_measure hgap hunit htext
      (fun c hc hmem => absurd hc ((by decide : ∀ d ∈ 'n' :: Yaml.Scalar.baseMarks,
        ¬ Numeral.isFigure d = true) c hmem))
      (fun c hc hmem => absurd hc ((by decide : ∀ d ∈ 'n' :: Yaml.Scalar.baseMarks,
        ¬ isBlank d = true) c hmem)) (by decide)
  rw [← String.ofList_toList (s := text)] at hm
  obtain ⟨n', htext', hsame⟩ := Yaml.Scalar.exists_of_plainNode
    ⟨hlower, fun hn => hletters 'n' hn List.mem_cons_self⟩
    (fun c hc hmem => hletters c hmem (List.mem_cons_of_mem _ hc)) hm
  have hnil : gap ++ unit = [] := eq_nil_of_isFigure hgap hunit fun c hc =>
    n'.isFigure_text c (by rw [htext', htext]; exact List.mem_append_right _ hc)
  rw [hnil, List.append_nil] at htext
  have heq : n'.value = x := by
    have hread := n'.read?_text
    rw [htext', htext, n.read?_text] at hread
    exact (Option.some.inj hread).symm.trans hvalue
  refine ⟨heq ▸ hsame, ?_⟩
  rw [hasUnit, hword.trimmed, ← hbody, htext]
  simp

end Dimension

end Appearance
