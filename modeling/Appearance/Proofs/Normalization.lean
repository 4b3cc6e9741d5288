import Appearance.Condition.Parse
import Mathlib.Data.List.Infix

/-!
# Normalizing conditions

How the steps of `Condition.normalize` treat the pieces of a text. `Condition.squeeze` keeps a run
of characters that are not blank and decides on the space after it from the characters on both
sides (`Condition.squeeze_append`). Comparators fold to their symbols wherever no `=` follows
(`Condition.foldComparators_form`), and letter case changes ASCII letters and neither white space
nor comparators (`Text.lowercase_eq_map`).

A text is split before and after a conjunction if no `a` before it is followed by an `n`
(`Condition.splitAtText_conjunction`).
-/

namespace Appearance

open Appearance.Text

/-! ## Letter case -/

namespace Text

theorem toLower_of_le {c : Char} (h : 128 ≤ c.toNat) : c.toLower = c :=
  toLower_eq_self (by omega)

/-- A character between the ranges of the letters with a lower case is its own lower case. -/
theorem lowerChars_of_between {first last : Nat} {c : Char}
    (hranges : ∀ r ∈ lowerRanges, r.last < first ∨ last < r.first) (hfirst : first ≤ c.toNat)
    (hlast : c.toNat ≤ last) (hascii : 128 ≤ c.toNat) (hdotted : c.toNat ≠ 0x130) :
    lowerChars c = [c] := by
  have hfind : lowerRanges.find? (·.has c.toNat) = none := by
    refine List.find?_eq_none.2 fun r hr hhas => ?_
    have := hranges r hr
    simp only [CaseRange.has, Bool.and_eq_true, decide_eq_true_eq] at hhas
    omega
  rw [lowerChars, if_neg (by omega), if_neg hdotted, shiftIn, hfind]
  simp [shiftChar]

/-- The lower case of the character does not depend on its place and is the one that ASCII has. -/
def LowersAlone (c : Char) : Prop := lowerChars c = [c.toLower] ∧ c.toNat ≠ 0x3A3

instance (c : Char) : Decidable (LowersAlone c) := inferInstanceAs (Decidable (_ ∧ _))

theorem lowersAlone_of_lt {c : Char} (h : c.toNat < 128) : LowersAlone c :=
  ⟨if_pos h, by omega⟩

/-- White space has no letter case and stays as it is wherever it stands. -/
theorem lowersAlone_of_isBlank {c : Char} (h : isBlank c = true) : LowersAlone c := by
  by_cases hascii : c.toNat < 128
  · exact lowersAlone_of_lt hascii
  have hge : 128 ≤ c.toNat := Nat.le_of_not_lt hascii
  simp only [isBlank, Bool.or_eq_true, Bool.and_eq_true, decide_eq_true_eq, beq_iff_eq] at h
  refine ⟨?_, by omega⟩
  rw [toLower_of_le hge]
  have hblock : c.toNat ≤ 0xA0 ∨ c.toNat = 0x1680 ∨ 0x2000 ≤ c.toNat ∧ c.toNat ≤ 0x205F ∨
      c.toNat = 0x3000 := by omega
  rcases hblock with hc | hc | ⟨hc, hc'⟩ | hc
  · exact lowerChars_of_between (by decide +kernel) hge hc hge (by omega)
  · exact lowerChars_of_between (by decide +kernel) hc.ge hc.le hge (by omega)
  · exact lowerChars_of_between (by decide +kernel) hc hc' hge (by omega)
  · exact lowerChars_of_between (by decide +kernel) hc.ge hc.le hge (by omega)

theorem toLower_of_isBlank {c : Char} (h : isBlank c = true) : c.toLower = c := by
  refine toLower_eq_self fun hupper => ?_
  simp only [isBlank, Bool.or_eq_true, Bool.and_eq_true, decide_eq_true_eq, beq_iff_eq] at h
  omega

/-- Characters that become small alone do so whatever stands before them. -/
theorem lowercaseFrom_eq_map {cs : List Char} (h : ∀ c ∈ cs, LowersAlone c) (before : List Char) :
    lowercaseFrom before cs = cs.map Char.toLower := by
  induction cs generalizing before with
  | nil => rfl
  | cons c cs ih =>
    obtain ⟨⟨hlower, hsigma⟩, hcs⟩ := List.forall_mem_cons.1 h
    rw [lowercaseFrom, if_neg hsigma, hlower, ih hcs]
    rfl

theorem lowercase_eq_map {cs : List Char} (h : ∀ c ∈ cs, LowersAlone c) :
    lowercase cs = cs.map Char.toLower := lowercaseFrom_eq_map h []

/-! ## Words -/

/-- No character is blank. -/
def Solid (cs : List Char) : Prop := ∀ c ∈ cs, isBlank c = false

/-- All characters are blank. -/
def Blank (cs : List Char) : Prop := ∀ c ∈ cs, isBlank c = true

instance (cs : List Char) : Decidable (Blank cs) :=
  inferInstanceAs (Decidable (∀ c ∈ cs, isBlank c = true))

theorem Blank.map_toLower {b : List Char} (h : Blank b) : b.map Char.toLower = b := by
  have hid : ∀ c ∈ b, c.toLower = id c := fun c hc => toLower_of_isBlank (h c hc)
  rw [List.map_congr_left hid, List.map_id]

theorem dropWhile_solid {w : List Char} (hw : Solid w) : w.dropWhile isBlank = w := by
  cases w with
  | nil => rfl
  | cons c w => exact List.dropWhile_cons_of_neg (by simp [hw c List.mem_cons_self])

theorem trimChars_solid {w : List Char} (hw : Solid w) : trimChars w = w := by
  have hreverse : Solid w.reverse := fun c hc => hw c (List.mem_reverse.1 hc)
  rw [trimChars, trimStartChars, dropWhile_solid hw, trimEndChars, dropEndWhile,
    dropWhile_solid hreverse, List.reverse_reverse]

/-- Characters that are not blank go on with the word that was begun. -/
theorem wordsFrom_solid {w : List Char} (hw : Solid w) (word cs : List Char) :
    wordsFrom word (w ++ cs) = wordsFrom (w.reverse ++ word) cs := by
  induction w generalizing word with
  | nil => rfl
  | cons c w ih =>
    obtain ⟨hc, hw⟩ := List.forall_mem_cons.1 hw
    rw [List.cons_append, wordsFrom, hc, if_neg Bool.false_ne_true, ih hw, List.reverse_cons,
      List.append_assoc]
    rfl

/-- White space in front of the words does not matter. -/
theorem wordsChars_blank {b : List Char} (hb : Blank b) (cs : List Char) :
    wordsChars (b ++ cs) = wordsChars cs := by
  induction b with
  | nil => rfl
  | cons c b ih =>
    obtain ⟨hc, hb⟩ := List.forall_mem_cons.1 hb
    rw [← ih hb, List.cons_append, wordsChars, wordsFrom, hc]
    rfl

/-- What follows the word that is open does not depend on it. -/
theorem exists_wordsFrom (cs : List Char) : ∃ run ws, ∀ word, word ≠ [] →
    wordsFrom word cs = (word.reverse ++ run) :: ws := by
  induction cs with
  | nil =>
    refine ⟨[], [], fun word hword => ?_⟩
    rw [wordsFrom, if_neg (by simpa using hword), List.append_nil]
  | cons c cs ih =>
    cases hc : isBlank c with
    | true =>
      refine ⟨[], wordsFrom [] cs, fun word hword => ?_⟩
      rw [wordsFrom, if_pos hc, if_neg (by simpa using hword), List.append_nil]
    | false =>
      obtain ⟨run, ws, h⟩ := ih
      refine ⟨c :: run, ws, fun word _ => ?_⟩
      rw [wordsFrom, if_neg (by simp [hc]), h (c :: word) (by simp), List.reverse_cons,
        List.append_assoc]
      rfl

/-- A run of characters before a word belongs to the word. -/
theorem exists_wordsChars {c : Char} (hc : isBlank c = false) (cs : List Char) :
    ∃ v ws, ∀ w, Solid w → wordsChars (w ++ c :: cs) = (w ++ c :: v) :: ws := by
  obtain ⟨run, ws, h⟩ := exists_wordsFrom cs
  refine ⟨run, ws, fun w hw => ?_⟩
  rw [wordsChars, wordsFrom_solid hw, List.append_nil, wordsFrom, if_neg (by simp [hc]),
    h _ (by simp), List.reverse_cons, List.reverse_reverse, List.append_assoc]
  rfl

/-- A run of characters before a blank is a word. -/
theorem wordsChars_append_blank {w b : List Char} (hw : Solid w) (hne : w ≠ [])
    (hb : Blank b) (hbne : b ≠ []) (cs : List Char) :
    wordsChars (w ++ (b ++ cs)) = w :: wordsChars cs := by
  cases b with
  | nil => exact absurd rfl hbne
  | cons d b =>
    obtain ⟨hd, hb⟩ := List.forall_mem_cons.1 hb
    rw [wordsChars, wordsFrom_solid hw, List.append_nil, List.cons_append, wordsFrom, if_pos hd,
      if_neg (by simpa using hne), List.reverse_reverse]
    exact congrArg _ (wordsChars_blank hb cs)

theorem wordsChars_solid {w : List Char} (hw : Solid w) (hne : w ≠ []) : wordsChars w = [w] := by
  have h := wordsFrom_solid hw [] []
  rw [List.append_nil, List.append_nil] at h
  rw [wordsChars, h, wordsFrom, if_neg (by simpa using hne), List.reverse_reverse]

/-! ## Splitting at a text -/

section Separator

variable {x y : Char} {sep a : List Char}

/-- The separator does not begin inside a text where its first two characters do not stand. -/
theorem not_isPrefixOf_separator {c : Char} {cs : List Char} (ha : ¬ [x, y] <:+: c :: a)
    (hcs : cs.head? ≠ some y) : (x :: y :: sep).isPrefixOf (c :: (a ++ cs)) = false := by
  rw [Bool.eq_false_iff]
  intro hprefix
  obtain ⟨rest, hrest⟩ := List.isPrefixOf_iff_prefix.1 hprefix
  obtain ⟨hc, hnext⟩ : x = c ∧ y :: (sep ++ rest) = a ++ cs := List.cons.inj hrest
  subst hc
  cases a with
  | nil => exact hcs (congrArg List.head? hnext.symm)
  | cons d a =>
    obtain ⟨hd, -⟩ := List.cons.inj hnext
    subst hd
    exact ha ⟨[], a, rfl⟩

/-- Up to the separator nothing is split off. -/
theorem splitTextFrom_append {cs : List Char} (ha : ¬ [x, y] <:+: a) (hcs : cs.head? ≠ some y)
    (part : List Char) :
    splitTextFrom (x :: y :: sep) 0 part (a ++ cs) =
      splitTextFrom (x :: y :: sep) 0 (a.reverse ++ part) cs := by
  induction a generalizing part with
  | nil => rfl
  | cons c a ih =>
    rw [List.cons_append, splitTextFrom, not_isPrefixOf_separator ha hcs,
      if_neg Bool.false_ne_true, ih fun h => ha (h.trans (List.suffix_cons c a).isInfix),
      List.reverse_cons, List.append_assoc]
    rfl

theorem splitTextFrom_skip (passed cs : List Char) :
    splitTextFrom sep passed.length [] (passed ++ cs) = splitAtText sep cs := by
  induction passed with
  | nil => rfl
  | cons c passed ih => exact ih

/-- What stands before a separator is split off, if the separator cannot begin there. -/
theorem splitAtText_separator (hxy : x ≠ y) (ha : ¬ [x, y] <:+: a) (cs : List Char) :
    splitAtText (x :: y :: sep) (a ++ (x :: y :: sep ++ cs)) =
      a :: splitAtText (x :: y :: sep) cs := by
  have hhead : (x :: y :: sep ++ cs).head? ≠ some y := fun h => hxy (Option.some.inj h)
  have hprefix : (x :: y :: sep).isPrefixOf (x :: y :: sep ++ cs) = true :=
    List.isPrefixOf_iff_prefix.2 (List.prefix_append _ _)
  rw [splitAtText, splitTextFrom_append ha hhead, List.append_nil, List.cons_append, splitTextFrom,
    ← List.cons_append, if_pos hprefix, List.reverse_reverse]
  exact congrArg _ (splitTextFrom_skip (y :: sep) cs)

/-- A text without the first two characters of the separator is not split. -/
theorem splitAtText_of_not_infix (ha : ¬ [x, y] <:+: a) :
    splitAtText (x :: y :: sep) a = [a] := by
  have hnil : ([] : List Char).head? ≠ some y := nofun
  have h : splitTextFrom (x :: y :: sep) 0 [] (a ++ []) =
      splitTextFrom (x :: y :: sep) 0 (a.reverse ++ []) [] := splitTextFrom_append ha hnil []
  rw [List.append_nil, List.append_nil] at h
  rw [splitAtText, h, splitTextFrom, List.reverse_reverse]

/-- Parts in which the separator cannot begin are found again between the separators. -/
theorem splitAtText_intercalate (hxy : x ≠ y) {parts : List (List Char)} (hne : parts ≠ [])
    (hparts : ∀ p ∈ parts, ¬ [x, y] <:+: p) :
    splitAtText (x :: y :: sep) ((x :: y :: sep).intercalate parts) = parts := by
  induction parts with
  | nil => exact absurd rfl hne
  | cons p parts ih =>
    obtain ⟨hp, hrest⟩ := List.forall_mem_cons.1 hparts
    cases parts with
    | nil => rw [List.intercalate_singleton, splitAtText_of_not_infix hp]
    | cons q parts =>
      rw [List.intercalate_cons_cons, List.append_assoc, splitAtText_separator hxy hp,
        ih (List.cons_ne_nil q parts) hrest]

end Separator

/-- What holds of the separator and of all parts holds of what they are joined to. -/
theorem forall_mem_intercalate {p : Char → Prop} {sep : List Char} {parts : List (List Char)}
    (hsep : ∀ c ∈ sep, p c) (hparts : ∀ part ∈ parts, ∀ c ∈ part, p c) :
    ∀ c ∈ sep.intercalate parts, p c := by
  induction parts with
  | nil => nofun
  | cons part parts ih =>
    obtain ⟨hpart, hrest⟩ := List.forall_mem_cons.1 hparts
    cases parts with
    | nil =>
      rw [List.intercalate_singleton]
      exact hpart
    | cons q parts =>
      rw [List.intercalate_cons_cons]
      exact List.forall_mem_append.2 ⟨List.forall_mem_append.2 ⟨hpart, hsep⟩, ih hrest⟩

/-- A text that was split is joined again to what it was. -/
theorem intercalate_splitTextFrom {sep : List Char} (hsep : sep ≠ []) (cs : List Char) (skip : Nat)
    (part : List Char) :
    sep.intercalate (splitTextFrom sep skip part cs) = part.reverse ++ cs.drop skip := by
  induction cs generalizing skip part with
  | nil => rw [splitTextFrom, List.intercalate_singleton, List.drop_nil, List.append_nil]
  | cons c cs ih =>
    cases skip with
    | succ skip => exact ih skip part
    | zero =>
      rw [splitTextFrom, List.drop_zero]
      split
      · next hprefix =>
        obtain ⟨rest, hrest⟩ := List.isPrefixOf_iff_prefix.1 hprefix
        obtain ⟨q, parts, hparts⟩ :=
          List.exists_cons_of_ne_nil (splitTextFrom_ne_nil sep cs (sep.length - 1) [])
        have hskip : cs.drop (sep.length - 1) = rest := by
          cases sep with
          | nil => exact absurd rfl hsep
          | cons x sep =>
            obtain ⟨-, rfl⟩ := List.cons.inj hrest
            exact List.drop_left
        rw [hparts, List.intercalate_cons_cons, ← hparts, ih, hskip, List.reverse_nil,
          List.nil_append, List.append_assoc, hrest]
      · rw [ih, List.reverse_cons, List.append_assoc]
        rfl

/-- The parts with the separators between them make up the text. -/
theorem intercalate_splitAtText {sep : List Char} (hsep : sep ≠ []) (cs : List Char) :
    sep.intercalate (splitAtText sep cs) = cs := intercalate_splitTextFrom hsep cs 0 []

/-! ## What stands before and behind -/

theorem stripPrefix?_append (pre s : String) : stripPrefix? pre (pre ++ s) = some s := by
  rw [stripPrefix?, String.toList_append, afterPrefix?,
    if_pos (List.isPrefixOf_iff_prefix.2 (List.prefix_append _ _)), List.drop_left]
  simp

theorem stripSuffix?_append (s suf : String) : stripSuffix? suf (s ++ suf) = some s := by
  rw [stripSuffix?, String.toList_append, List.reverse_append, afterPrefix?,
    if_pos (List.isPrefixOf_iff_prefix.2 (List.prefix_append _ _)), List.drop_left]
  simp

end Text

namespace Condition

/-! ## Spacing -/

/-- Words in the spacing of a normalized condition. -/
def squeeze (cs : List Char) : List Char := joinWords (wordsChars cs)

theorem squeeze_blank {b : List Char} (hb : Blank b) (cs : List Char) :
    squeeze (b ++ cs) = squeeze cs := by
  rw [squeeze, wordsChars_blank hb, squeeze]

/-- White space behind a word is squeezed to nothing. -/
theorem squeeze_solid {w b : List Char} (hw : Solid w) (hne : w ≠ []) (hb : Blank b) :
    squeeze (w ++ b) = w := by
  cases b with
  | nil => rw [List.append_nil, squeeze, wordsChars_solid hw hne, joinWords]
  | cons d b =>
    have h := wordsChars_append_blank hw hne hb nofun []
    rw [List.append_nil] at h
    rw [squeeze, h]
    rfl

theorem endsWith_append (p : Char → Bool) (w : List Char) {u : List Char} (hu : u ≠ []) :
    endsWith p (w ++ u) = endsWith p u := by
  rw [endsWith, endsWith, List.getLast?_append_of_ne_nil _ hu]

/-- Words are joined to what stands before the first one. -/
theorem joinWords_append (w : List Char) {u : List Char} (hu : u ≠ []) (ws : List (List Char)) :
    joinWords ((w ++ u) :: ws) = w ++ joinWords (u :: ws) := by
  cases ws with
  | nil => rfl
  | cons v ws =>
    rw [joinWords, joinWords, spacing, spacing, endsWith_append _ _ hu]
    simp only [List.append_assoc]

/-- What stands between a run of characters and the next character of a normalized condition, if
blanks `b` stand there. -/
def gap (w b : List Char) (c : Char) : List Char :=
  if b.isEmpty || endsWith Comparator.isSymbol w || Comparator.isSymbol c then [] else [' ']

theorem gap_cases (w b : List Char) (c : Char) : gap w b c = [] ∨ gap w b c = [' '] := by
  unfold gap
  split
  · exact .inl rfl
  · exact .inr rfl

theorem gap_symbol (w b : List Char) {c : Char} (hc : Comparator.isSymbol c = true) :
    gap w b c = [] := by
  simp [gap, hc]

theorem gap_after_symbol {s : Char} (hs : Comparator.isSymbol s = true) (b : List Char) (c : Char) :
    gap [s] b c = [] := by
  simp [gap, endsWith, hs]

/-- A run of characters is kept, and what follows is squeezed on its own. -/
theorem squeeze_append {w b : List Char} {c : Char} (hw : Solid w) (hne : w ≠ []) (hb : Blank b)
    (hc : isBlank c = false) (cs : List Char) :
    squeeze (w ++ (b ++ c :: cs)) = w ++ (gap w b c ++ squeeze (c :: cs)) := by
  obtain ⟨v, ws, h⟩ := exists_wordsChars hc cs
  have hsecond : wordsChars (c :: cs) = (c :: v) :: ws := h [] nofun
  rw [squeeze, squeeze, hsecond]
  cases b with
  | nil =>
    rw [List.nil_append, h w hw, joinWords_append w (List.cons_ne_nil c v)]
    rfl
  | cons d b =>
    rw [wordsChars_append_blank hw hne hb nofun, hsecond, joinWords, List.append_assoc]
    rfl

/-! ## Comparators -/

/-- A character that begins no spelling of a comparator. -/
def isFree (c : Char) : Bool := c != '!' && c != '<' && c != '>' && c != '='

theorem isFree_of_isBlank {c : Char} (h : isBlank c = true) : isFree c = true := by
  simp only [isFree, Bool.and_eq_true, bne_iff_ne]
  refine ⟨⟨⟨?_, ?_⟩, ?_⟩, ?_⟩
  all_goals
    rintro rfl
    exact absurd h (by decide)

/-- What belongs to no comparator is left as it is. -/
theorem foldComparators_append {a : List Char} (ha : ∀ c ∈ a, isFree c = true) (cs : List Char) :
    foldComparators (a ++ cs) = a ++ foldComparators cs := by
  induction a with
  | nil => rfl
  | cons c a ih =>
    obtain ⟨hc, ha⟩ := List.forall_mem_cons.1 ha
    simp only [isFree, Bool.and_eq_true, bne_iff_ne] at hc
    obtain ⟨⟨⟨hnot, hless⟩, hgreater⟩, hequal⟩ := hc
    rw [List.cons_append, List.cons_append, ← ih ha, foldComparators]
    all_goals
      intro rest h _
      contradiction

theorem foldComparators_blank {b : List Char} (hb : Blank b) (cs : List Char) :
    foldComparators (b ++ cs) = b ++ foldComparators cs :=
  foldComparators_append (fun c hc => isFree_of_isBlank (hb c hc)) cs

/-! ## Quotes -/

theorem not_isQuote_of_isBlank {c : Char} (h : isBlank c = true) : isQuote c = false := by
  rw [Bool.eq_false_iff]
  intro hquote
  simp only [isQuote, Bool.or_eq_true, beq_iff_eq] at hquote
  rcases hquote with rfl | rfl <;> exact absurd h (by decide)

theorem filter_isQuote {cs : List Char} (h : ∀ d ∈ cs, isQuote d = false) :
    cs.filter (fun c => !isQuote c) = cs :=
  List.filter_eq_self.2 fun d hd => by rw [h d hd]; rfl

theorem lowersAlone_of_blank {b : List Char} (hb : Blank b) :
    ∀ d ∈ b, LowersAlone d ∧ isQuote d = false := fun d hd =>
  ⟨lowersAlone_of_isBlank (hb d hd), not_isQuote_of_isBlank (hb d hd)⟩

end Condition

/-- The spellings of a comparator. -/
def Comparator.forms : Comparator → List (List Char)
  | equal => [['='], ['=', '=']]
  | notEqual => [['≠'], ['!', '=']]
  | lessThan => [['<']]
  | lessThanOrEqual => [['≤'], ['<', '=']]
  | greaterThan => [['>']]
  | greaterThanOrEqual => [['≥'], ['>', '=']]

namespace Condition

/-- Only before `=` something is folded. -/
theorem foldComparators_cons (d : Char) {c : Char} (hc : c ≠ '=') (cs : List Char) :
    foldComparators (d :: c :: cs) = d :: foldComparators (c :: cs) := by
  rw [foldComparators]
  all_goals
    rintro rest - ⟨⟩
    exact hc rfl

/-- A spelling of a comparator becomes its symbol, unless it is continued. -/
theorem foldComparators_form {comparator : Comparator} {form : List Char}
    (h : form ∈ comparator.forms) {c : Char} (hc : c ≠ '=') (cs : List Char) :
    foldComparators (form ++ c :: cs) = comparator.symbol :: foldComparators (c :: cs) := by
  cases comparator with
  | lessThan | greaterThan =>
    obtain rfl := List.mem_singleton.1 h
    exact foldComparators_cons _ hc cs
  | equal | notEqual | lessThanOrEqual | greaterThanOrEqual =>
    rcases List.mem_cons.1 h with rfl | h
    · exact foldComparators_cons _ hc cs
    · obtain rfl := List.mem_singleton.1 h
      rfl

/-! ## Conjunctions -/

/-- On each side of the joining word there is a space at most. -/
theorem exists_squeeze_conjunction {w b b' : List Char} {c : Char} (hw : Solid w) (hne : w ≠ [])
    (hb : Blank b) (hb' : Blank b') (hc : isBlank c = false) (cs : List Char) :
    ∃ g g', (g = [] ∨ g = [' ']) ∧ (g' = [] ∨ g' = [' ']) ∧
      squeeze (w ++ (b ++ (conjunction ++ (b' ++ c :: cs)))) =
        w ++ (g ++ (conjunction ++ (g' ++ squeeze (c :: cs)))) := by
  have hsolid : ∀ d ∈ conjunction, isBlank d = false := by decide
  refine ⟨_, _, gap_cases w b 'a', gap_cases conjunction b' c, ?_⟩
  rw [← squeeze_append hsolid (by decide) hb' hc]
  exact squeeze_append hw hne hb (by decide) ('n' :: 'd' :: (b' ++ c :: cs))

/-- What stands before the joining word is split off. -/
theorem splitAtText_conjunction {a : List Char} (ha : ¬ ['a', 'n'] <:+: a) (cs : List Char) :
    splitAtText conjunction (a ++ (conjunction ++ cs)) = a :: splitAtText conjunction cs :=
  splitAtText_separator (by decide) ha cs

end Condition

/-! ## Searching and splitting -/

namespace Text

/-- A text without the separator stands on one side of it. -/
theorem infix_of_infix_append_cons {u l r : List Char} {s : Char} (h : u <:+: l ++ s :: r)
    (hs : s ∉ u) : u <:+: l ∨ u <:+: r := by
  obtain ⟨before, after, heq⟩ := h
  rcases List.append_eq_append_iff.1 heq with ⟨rest, hl, -⟩ | ⟨rest, hu, hr⟩
  · exact .inl ⟨before, rest, hl.symm⟩
  cases rest with
  | nil => exact .inl ⟨before, [], by rw [hu, List.append_nil, List.append_nil]⟩
  | cons d rest =>
    obtain ⟨rfl, rfl⟩ := List.cons.inj hr
    rcases List.append_eq_append_iff.1 hu with ⟨rest', -, hu⟩ | ⟨rest', -, hrest⟩
    · exact absurd (hu ▸ List.mem_append_right rest' List.mem_cons_self) hs
    · cases rest' with
      | nil =>
        rw [List.nil_append] at hrest
        exact absurd (hrest ▸ List.mem_cons_self) hs
      | cons e rest' =>
        obtain ⟨-, rfl⟩ := List.cons.inj hrest
        exact .inr ⟨rest', after, rfl⟩

/-- A text is found where it stands in one piece. -/
theorem containsText_iff {sub cs : List Char} : containsText sub cs = true ↔ sub <:+: cs := by
  induction cs with
  | nil => rw [containsText, List.isEmpty_iff, List.infix_nil]
  | cons c cs ih =>
    rw [containsText, Bool.or_eq_true, ih, List.isPrefixOf_iff_prefix, List.infix_cons_iff]

/-- A text with one separator has two parts. -/
theorem splitAtChars_pair {p : Char → Bool} {l r : List Char} {s : Char}
    (hl : ∀ c ∈ l, p c = false) (hs : p s = true) (hr : ∀ c ∈ r, p c = false) :
    splitAtChars p (l ++ s :: r) = [l, r] := by
  rw [splitAtChars_append_cons hs, splitAtChars_eq_singleton hl, splitAtChars_eq_singleton hr]
  rfl

end Text

end Appearance
