import Appearance.Proofs.Branches
import Appearance.Proofs.Compact

/-!
# Keys of conditions

Which spellings of a condition are one key. Conditions with one bare text agree in whether they have
a fallback, and if they have none they are read as the same expressions (`Condition.keys_of_bare`).
That a condition has a fallback is told from its key as well as from its expressions, although these
are read from parts of the key that are normalized once more (`Condition.isDefault_iff`).
They are the same key where both are legible: no comparator has white space inside, and the joining
words stand apart (`Condition.Legible`). The key of a legible condition is made of its expressions
(`Comparison.SpelledApart.exists_expressions`) and is normalized
(`Condition.normalize_normalize`). Other spellings can have keys of their own
(`Condition.keys_tornComparator`).

What a key forgets of a spelling and what it keeps is compared through the bare text, which forgets
everything that should not matter. Two spellings with one bare text have the same expressions in
all cases; that they also have the same key needs that white space stands where `Condition.Legible`
allows it. The theorem on fallbacks is needed since a part is normalized on its own after the text
was split, so the word could come about or get lost there.
-/

namespace Appearance

open Appearance.Text

/-! ## Legible texts -/

namespace Comparison

/-- A spelling of a conjunction in which the joining words stand apart, with white space on both
sides. -/
inductive SpelledApart : List Char → List Comparison → Prop
  | last {cs : List Char} {c : Comparison} : Spelled cs c → SpelledApart cs [c]
  | more {cs b joining b' rest : List Char} {c : Comparison} {others : List Comparison} :
    Spelled cs c → Blank b → b ≠ [] → joining.map Char.toLower = Condition.conjunction →
    Blank b' → b' ≠ [] → SpelledApart rest others →
    SpelledApart (cs ++ (b ++ (joining ++ (b' ++ rest)))) (c :: others)

end Comparison

namespace Condition

/-- The text is the word of the fallback, or a conjunction with its joining words apart; comparators
are spelled without white space. -/
inductive Legible : List Char → Prop
  | fallback {b w b' : List Char} : Blank b → w.map Char.toLower = fallbackWord → Blank b' →
    Legible (b ++ (w ++ b'))
  | conjunction {cs : List Char} {comparisons : List Comparison} :
    Comparison.SpelledApart cs comparisons → Legible cs

/-- The joining word with its white space in a normalized condition. -/
def spacedConjunction : List Char := " and ".toList

/-- The spellings of expressions with the joining word between them. -/
def joinRaws (es : List Expression) : List Char :=
  spacedConjunction.intercalate (es.map fun e => e.raw.toList)

theorem gap_space {w b : List Char} {c : Char} (hb : b ≠ [])
    (hw : endsWith Comparator.isSymbol w = false) (hc : Comparator.isSymbol c = false) :
    gap w b c = [' '] := by
  rw [gap, hw, hc, Bool.or_false, Bool.or_false, if_neg (by simpa using hb)]

end Condition

namespace Comparison

theorem endsWith_isSymbol_of_plainWord {w : List Char} (h : PlainWord w) :
    Condition.endsWith Comparator.isSymbol w = false := by
  rw [Condition.endsWith]
  cases hlast : w.getLast? with
  | none => rfl
  | some d => exact isSymbol_of_isPlain (h.isPlain d (List.mem_of_getLast? hlast))

/-- With white space on both sides of the joining word normalizing leaves a space on each. -/
theorem squeeze_spacedConjunction {w b b' : List Char} {c : Char} (hw : PlainWord w) (hb : Blank b)
    (hbne : b ≠ []) (hb' : Blank b') (hbne' : b' ≠ []) (hc : isPlain c = true) (cs : List Char) :
    Condition.squeeze (w ++ (b ++ (Condition.conjunction ++ (b' ++ c :: cs)))) =
      w ++ (Condition.spacedConjunction ++ Condition.squeeze (c :: cs)) := by
  have hsolid : ∀ d ∈ Condition.conjunction, isBlank d = false := by decide
  have hfirst := Condition.squeeze_append hw.solid hw.ne_nil hb (c := 'a') rfl
    ('n' :: 'd' :: (b' ++ c :: cs))
  have hsecond := Condition.squeeze_append hsolid (by decide) hb' (isBlank_of_isPlain hc) cs
  rw [Condition.gap_space hbne (endsWith_isSymbol_of_plainWord hw) rfl] at hfirst
  rw [Condition.gap_space hbne' rfl (isSymbol_of_isPlain hc)] at hsecond
  refine hfirst.trans (congrArg (w ++ ·) (congrArg (' ' :: ·) ?_))
  exact hsecond

/-- A plain word starts with a plain character. -/
theorem PlainWord.exists_cons {l : List Char} (h : PlainWord l) :
    ∃ d l', l = d :: l' ∧ Comparison.isPlain d = true := by
  cases l with
  | nil => exact absurd rfl h.ne_nil
  | cons d l => exact ⟨d, l, rfl, h.isPlain d List.mem_cons_self⟩

/-- The sides around the symbol of their comparison are the compact comparison. -/
theorem Sides.compact {l r : List Char} {c : Comparison} (h : Sides l r c) :
    Expression.Compact Expression.symbols (l ++ ([c.comparator.symbol] ++ r))
      (.comparison (String.ofList (l ++ c.comparator.symbol :: r)) c.left c.comparator c.right) :=
  .mk h (List.mem_singleton_self _)

/-- Normalizing leaves the compact comparisons, with single spaces around the joining words. -/
theorem SpelledApart.exists_normal {cs : List Char} {comparisons : List Comparison}
    (h : SpelledApart cs comparisons) :
    (∀ d ∈ cs, LowersAlone d ∧ Condition.isQuote d = false) ∧ ∃ ps es b d ds, ps ≠ [] ∧
      List.Forall₂ (Expression.Compact Expression.symbols) ps es ∧ Blank b ∧ isPlain d = true ∧
      Condition.foldComparators (cs.map Char.toLower) = b ++ d :: ds ∧
      Condition.squeeze (d :: ds) = Condition.spacedConjunction.intercalate ps := by
  induction h with
  | @last cs c hc =>
    obtain ⟨b₁, l, b₂, b₃, r, b₄, hsides, hb₁, hb₂, hb₃, hb₄, hfold⟩ := hc.exists_sides
    obtain ⟨d, l, rfl, hd⟩ := hsides.plainWord_left.exists_cons
    have hall := hfold []
    rw [List.append_nil, Condition.foldComparators, List.append_nil] at hall
    refine ⟨hc.lowersAlone, _, _, b₁, d, _, List.cons_ne_nil _ [], .cons hsides.compact .nil,
      hb₁, hd, hall, ?_⟩
    have hsqueeze := hsides.squeeze hb₂ hb₃ b₄
    rw [Condition.squeeze_solid hsides.plainWord_right.solid hsides.plainWord_right.ne_nil hb₄]
      at hsqueeze
    rw [List.intercalate_singleton]
    exact hsqueeze
  | @more cs b joining b' rest c others hc hb hbne hjoining hb' hbne' hrest ih =>
    obtain ⟨b₁, l, b₂, b₃, r, b₄, hsides, hb₁, hb₂, hb₃, hb₄, hfold⟩ := hc.exists_sides
    obtain ⟨hlowers, ps, es, b₅, e, ds, hne, hps, hb₅, he, hfoldRest, hsqueezeRest⟩ := ih
    obtain ⟨d, l, rfl, hd⟩ := hsides.plainWord_left.exists_cons
    have hjoin : Condition.foldComparators ((b ++ (joining ++ (b' ++ rest))).map Char.toLower) =
        b ++ (Condition.conjunction ++ (b' ++ (b₅ ++ e :: ds))) := by
      rw [List.map_append, hb.map_toLower, Condition.foldComparators_blank hb, List.map_append,
        hjoining, Condition.foldComparators_append (by decide), List.map_append, hb'.map_toLower,
        Condition.foldComparators_blank hb', hfoldRest]
    have hall := hfold ((b ++ (joining ++ (b' ++ rest))).map Char.toLower)
    rw [hjoin, ← List.map_append] at hall
    refine ⟨List.forall_mem_append.2 ⟨hc.lowersAlone, List.forall_mem_append.2
      ⟨Condition.lowersAlone_of_blank hb, List.forall_mem_append.2
        ⟨lowersAlone_conjunction hjoining, List.forall_mem_append.2
          ⟨Condition.lowersAlone_of_blank hb', hlowers⟩⟩⟩⟩,
      _ :: ps, _ :: es, b₁, d, _, List.cons_ne_nil _ ps, .cons hsides.compact hps, hb₁, hd,
      hall, ?_⟩
    have hspaced := squeeze_spacedConjunction hsides.plainWord_right
      (List.forall_mem_append.2 ⟨hb₄, hb⟩) (List.append_ne_nil_of_right_ne_nil b₄ hbne)
      (List.forall_mem_append.2 ⟨hb', hb₅⟩) (List.append_ne_nil_of_left_ne_nil hbne' b₅) he ds
    have hsqueeze := hsides.squeeze hb₂ hb₃
      (b₄ ++ (b ++ (Condition.conjunction ++ (b' ++ (b₅ ++ e :: ds)))))
    simp only [List.append_assoc] at hspaced
    rw [hspaced, hsqueezeRest] at hsqueeze
    obtain ⟨p, ps, rfl⟩ := List.exists_cons_of_ne_nil hne
    rw [List.intercalate_cons_cons]
    simp only [List.append_assoc, List.cons_append] at hsqueeze ⊢
    exact hsqueeze

end Comparison

namespace Expression

/-- A compact comparison keeps its own text. -/
theorem map_raw_of_compact {ps : List (List Char)} {es : List Expression}
    (h : List.Forall₂ (Compact symbols) ps es) : es.map (fun e => e.raw.toList) = ps := by
  induction h with
  | nil => rfl
  | cons hp _ ih =>
    rw [List.map_cons, ih]
    cases hp with
    | mk _ hspelling =>
      obtain rfl := List.mem_singleton.1 hspelling
      exact congrArg (· :: _) String.toList_ofList

/-- Joined with spaces or without, comparisons have one ink. -/
theorem ink_intercalate_of_compact {ps : List (List Char)} {es : List Expression}
    (h : List.Forall₂ (Compact symbols) ps es) :
    ink (Condition.spacedConjunction.intercalate ps) = Condition.conjunction.intercalate ps := by
  have hsolid : ∀ p ∈ ps, ink p = id p := fun p hp =>
    have ⟨_, _, hcompact⟩ := exists_mem_of_forall₂ h.flip hp
    ink_solid (hcompact.mono fun _ _ => mem_signs_of_mem_symbols).solid
  have hword : ink Condition.spacedConjunction = Condition.conjunction := by decide
  rw [ink_intercalate, hword, List.map_congr_left hsolid, List.map_id]

end Expression

namespace Condition

/-- What folds to normalized comparisons with the joining word between them. -/
theorem compact_splitAtText_of_symbols {x : List Char} {ps : List (List Char)}
    {es : List Expression} (hne : ps ≠ []) (hfolded : Folded x (conjunction.intercalate ps))
    (h : List.Forall₂ (Expression.Compact Expression.symbols) ps es) :
    List.Forall₂ (Expression.Compact Comparator.signs) (splitAtText conjunction x) es :=
  compact_splitAtText (fun c spelling hspelling signs hsigns => by
    obtain rfl := List.mem_singleton.1 hspelling
    exact Comparator.mem_signs_of_mem_forms hsigns.mem_forms_of_symbol) hne hfolded h

end Condition

namespace Comparison.SpelledApart

/-- The key of a legible conjunction is made of its expressions, and these are told from its bare
text. -/
theorem exists_expressions {cs : List Char} {comparisons : List Comparison}
    (h : SpelledApart cs comparisons) : ∃ es, es ≠ [] ∧
      Condition.normalize cs = Condition.joinRaws es ∧
      List.Forall₂ (Expression.Compact Expression.symbols) (es.map fun e => e.raw.toList) es ∧
      List.Forall₂ (Expression.Compact Comparator.signs)
        (splitAtText Condition.conjunction ((ink cs).map Char.toLower)) es := by
  obtain ⟨hlowers, ps, es, b, d, ds, hne, hps, hb, hd, hfold, hsqueeze⟩ := h.exists_normal
  have hraws := Expression.map_raw_of_compact hps
  refine ⟨es, fun hnil => hne (by rw [← hraws, hnil]; rfl), ?_, hraws.symm ▸ hps, ?_⟩
  · rw [Condition.normalize_eq_squeeze hlowers, hfold, Condition.joinRaws, hraws, ← hsqueeze]
    exact Condition.squeeze_blank hb _
  · have hfolded := (Condition.folded_foldComparators (cs.map Char.toLower)).ink
    rw [hfold, ink_append, ink_blank hb, List.nil_append, ← Condition.ink_squeeze (d :: ds),
      hsqueeze, Expression.ink_intercalate_of_compact hps, ink_map_toLower] at hfolded
    exact Condition.compact_splitAtText_of_symbols hne hfolded hps

/-- Normalized comparisons with spaced joining words between them are a legible conjunction. -/
theorem exists_of_compact {ps : List (List Char)} {es : List Expression}
    (h : List.Forall₂ (Expression.Compact Expression.symbols) ps es) (hne : ps ≠ []) :
    ∃ comparisons, SpelledApart (Condition.spacedConjunction.intercalate ps) comparisons := by
  induction h with
  | nil => exact absurd rfl hne
  | @cons p e ps es hp hps ih =>
    obtain ⟨c, hspelled⟩ : ∃ c, Spelled p c := by
      cases hp with
      | @mk l r spelling c hsides hspelling =>
        obtain rfl := List.mem_singleton.1 hspelling
        have hspelled : Spelled ([] ++ (l ++ c.comparator.symbol :: (r ++ []))) c :=
          hsides.spelled nofun nofun
        rw [List.append_nil] at hspelled
        exact ⟨c, hspelled⟩
    cases ps with
    | nil => exact ⟨[c], List.intercalate_singleton.symm ▸ .last hspelled⟩
    | cons q ps =>
      obtain ⟨others, hothers⟩ := ih (List.cons_ne_nil q ps)
      have hspace : Blank [' '] := List.forall_mem_singleton.2 rfl
      have hjoining : Condition.conjunction.map Char.toLower = Condition.conjunction := by decide
      have hmore := SpelledApart.more hspelled hspace (by simp) hjoining hspace (by simp) hothers
      rw [List.intercalate_cons_cons, List.append_assoc]
      exact ⟨_, hmore⟩

end Comparison.SpelledApart

theorem Folded.refl (cs : List Char) : Folded cs cs := by
  induction cs with
  | nil => exact .nil
  | cons c cs ih => exact .keep c ih

namespace Condition

/-- The word of the fallback is normalized to itself, and so is its bare text. -/
theorem normalize_fallback {b w b' : List Char} (hb : Blank b)
    (hw : w.map Char.toLower = fallbackWord) (hb' : Blank b') :
    normalize (b ++ (w ++ b')) = fallbackWord ∧
      (ink (b ++ (w ++ b'))).map Char.toLower = fallbackWord := by
  have hall : ∀ d ∈ b ++ (w ++ b'), LowersAlone d ∧ isQuote d = false :=
    List.forall_mem_append.2 ⟨lowersAlone_of_blank hb, List.forall_mem_append.2
      ⟨Comparison.lowersAlone_of_map_toLower hw (by decide), lowersAlone_of_blank hb'⟩⟩
  have hlower : (b ++ (w ++ b')).map Char.toLower = b ++ (fallbackWord ++ b') := by
    rw [List.map_append, List.map_append, hb.map_toLower, hw, hb'.map_toLower]
  have hsolid : Solid fallbackWord := by decide
  constructor
  · have hrest := foldComparators_blank hb' []
    rw [List.append_nil, foldComparators, List.append_nil] at hrest
    rw [normalize_eq_squeeze hall, hlower, foldComparators_blank hb,
      foldComparators_append (by decide), hrest]
    exact (squeeze_blank hb _).trans (squeeze_solid hsolid (by decide) hb')
  · rw [← ink_map_toLower, hlower, ink_append, ink_append, ink_blank hb, ink_blank hb',
      ink_solid hsolid, List.nil_append, List.append_nil]

/-- The bare text of a conjunction is not the word of the fallback. -/
theorem bare_ne_fallbackWord {cs : List Char} {comparisons : List Comparison}
    (h : Comparison.SpelledApart cs comparisons) : (ink cs).map Char.toLower ≠ fallbackWord := by
  obtain ⟨es, -, -, -, hes⟩ := h.exists_expressions
  intro heq
  have hnot := (not_fallbackWord_within hes).1
  rw [intercalate_splitAtText (by decide), heq] at hnot
  exact hnot (List.infix_refl _)

/-- Legible texts with one bare text are normalized to one key. -/
theorem normalize_eq_of_legible {cs ds : List Char} (hcs : Legible cs) (hds : Legible ds)
    (h : (ink cs).map Char.toLower = (ink ds).map Char.toLower) : normalize cs = normalize ds := by
  cases hcs with
  | fallback hb hw hb' =>
    obtain ⟨hnormal, hbare⟩ := normalize_fallback hb hw hb'
    cases hds with
    | fallback hb₁ hw₁ hb₂ => rw [hnormal, (normalize_fallback hb₁ hw₁ hb₂).1]
    | conjunction hapart => exact absurd (h.symm.trans hbare) (bare_ne_fallbackWord hapart)
  | conjunction hapart =>
    cases hds with
    | fallback hb hw hb' =>
      exact absurd (h.trans (normalize_fallback hb hw hb').2) (bare_ne_fallbackWord hapart)
    | conjunction hapart' =>
      obtain ⟨es, -, hnormal, -, hes⟩ := hapart.exists_expressions
      obtain ⟨es', -, hnormal', -, hes'⟩ := hapart'.exists_expressions
      rw [h] at hes
      rw [hnormal, hnormal', Expression.Compact.unique_all hes hes']

/-- Normalizing a legible condition again changes nothing. -/
theorem normalize_normalize {cs : List Char} (h : Legible cs) :
    normalize (normalize cs) = normalize cs := by
  cases h with
  | fallback hb hw hb' =>
    rw [(normalize_fallback hb hw hb').1]
    decide
  | conjunction hapart =>
    obtain ⟨es, hne, hnormal, hsymbols, -⟩ := hapart.exists_expressions
    have hmapNe : es.map (fun e => e.raw.toList) ≠ [] := by simpa using hne
    obtain ⟨comparisons, hjoined⟩ := Comparison.SpelledApart.exists_of_compact hsymbols hmapNe
    obtain ⟨es', -, hnormal', -, hes'⟩ := hjoined.exists_expressions
    have hlower : ∀ d ∈ ink (joinRaws es), d.toLower = d ∧ isQuote d = false := fun d hd =>
      toLower_of_mem_normalize (hnormal ▸ List.mem_of_mem_filter hd)
    have hes := compact_splitAtText_of_symbols hmapNe (Folded.refl _) hsymbols
    rw [← joinRaws] at hes' hnormal'
    rw [map_toLower hlower, joinRaws, Expression.ink_intercalate_of_compact hsymbols] at hes'
    rw [hnormal, hnormal', Expression.Compact.unique_all hes' hes]

theorem normalize_unquoted (s : String) : normalize (unquoted s) = normalize s.toList := by
  have hquotes : ∀ d ∈ unquoted s, isQuote d = false := fun d hd => by
    simpa using (List.mem_filter.1 hd).2
  rw [normalize, filter_isQuote hquotes]
  rfl

theorem toList_raw {s : String} {c : Condition} (h : parse s = .ok c) :
    c.raw.toList = normalize s.toList := by
  rw [(parse_eq_ok h).1, String.toList_ofList]

/-- Some expression of a condition holds always if the word of the fallback is found in the bare
text. -/
theorem any_isTautology_iff {s : String} {c : Condition} (h : parse s = .ok c) :
    c.expressions.any Expression.isTautology = true ↔ fallbackWord <:+: bare s := by
  constructor
  · intro hany
    obtain ⟨e, he, htautology⟩ := List.any_eq_true.1 hany
    exact fallbackWord_infix_bare (fallbackWord_infix_normalize h he htautology)
  · intro hwithin
    by_contra hnot
    rw [List.any_eq_true, not_exists] at hnot
    have hcompact := compact_of_parse h fun e he =>
      Bool.eq_false_iff.2 fun htautology => hnot e ⟨he, htautology⟩
    have hword := (not_fallbackWord_within hcompact).1
    rw [intercalate_splitAtText (by decide)] at hword
    exact hword hwithin

/-- The word of the fallback is found in the key of a condition if one of the expressions always
holds, and only then. -/
theorem isDefault_iff {s : String} {c : Condition} (h : parse s = .ok c) :
    c.isDefault = true ↔ ∃ e ∈ c.expressions, e.isTautology = true := by
  rw [isDefault, toList_raw h, containsText_iff]
  constructor
  · intro hwithin
    exact List.any_eq_true.1 ((any_isTautology_iff h).2 (fallbackWord_infix_bare hwithin))
  · rintro ⟨e, he, htautology⟩
    exact fallbackWord_infix_normalize h he htautology

/-- A comparison and the fallback, in capital letters and with quotes in the word. -/
def mixedFallback : String := "Width >= HEIGHT and DEF\"AULT"

/-- A fallback beside a comparison makes the whole a fallback. -/
theorem isDefault_mixedFallback : ∃ c, parse mixedFallback = .ok c ∧
    c.isDefault = true ∧ c.expressions.length = 2 ∧ ∃ e ∈ c.expressions, e.isTautology = true := by
  obtain ⟨c, hc, hdefault⟩ : ∃ c, parse mixedFallback = .ok c ∧
      (c.isDefault && c.expressions.length == 2) = true := exists_ok_of_any (by decide +kernel)
  rw [Bool.and_eq_true, beq_iff_eq] at hdefault
  exact ⟨c, hc, hdefault.1, hdefault.2, (isDefault_iff hc).1 hdefault.1⟩

/-- Conditions with one bare text agree in whether some expression holds always; if none does they
have the same expressions; and if both are legible they are the same condition, at one place in the
order of branches, and its key is normalized. -/
theorem keys_of_bare {s t : String} {c d : Condition} (hs : parse s = .ok c) (ht : parse t = .ok d)
    (hbare : bare s = bare t) :
    (c.expressions.any Expression.isTautology = d.expressions.any Expression.isTautology) ∧
      (c.expressions.any Expression.isTautology = false → c.expressions = d.expressions) ∧
      (Legible (unquoted s) → Legible (unquoted t) →
        c = d ∧ sameKey c d = true ∧ order c d = .eq ∧ normalize c.raw.toList = c.raw.toList) := by
  have hany : c.expressions.any Expression.isTautology =
      d.expressions.any Expression.isTautology := by
    rw [Bool.eq_iff_iff, any_isTautology_iff hs, any_isTautology_iff ht, hbare]
  refine ⟨hany, fun hnone => ?_, fun hsLegible htLegible => ?_⟩
  · have hcompact := compact_of_parse hs fun e he =>
      Bool.eq_false_iff.2 (List.any_eq_false.1 hnone e he)
    have hcompact' := compact_of_parse ht fun e he =>
      Bool.eq_false_iff.2 (List.any_eq_false.1 (hany ▸ hnone) e he)
    rw [hbare] at hcompact
    exact Expression.Compact.unique_all hcompact hcompact'
  · have hnormal := normalize_eq_of_legible hsLegible htLegible hbare
    rw [normalize_unquoted, normalize_unquoted] at hnormal
    have hparse : parse s = parse t := by rw [parse, parseChars, hnormal]; rfl
    obtain rfl : c = d := Except.ok.inj (hs.symm.trans (hparse.trans ht))
    refine ⟨rfl, beq_self_eq_true c.raw, Value.order_of_raw_eq rfl, ?_⟩
    rw [toList_raw hs, ← normalize_unquoted, normalize_normalize hsLegible]

/-- Letters in both cases, quotes and white space, but none inside comparators. -/
def spacedSpelling : String := "Width >'=HEIGHT aNd  \"idiom\"!=\tPad "

def plainSpelling : String := "width >= height and idiom != pad"

/-- White space around comparators and between words leaves a text legible. -/
theorem legible_spacedSpelling : Legible (unquoted spacedSpelling) := by
  have hfirst : Comparison.Spelled "Width >=HEIGHT".toList
      ⟨.width, .greaterThanOrEqual, .height⟩ :=
    @Comparison.Spelled.mk _ "width" "Width".toList "HEIGHT".toList ['>', '='] "height".toList []
      [' '] [] [] (by decide) (by decide) (by decide) (.token rfl) (by decide) (by decide)
      (by decide) (by decide) (by decide)
  have hsecond : Comparison.Spelled "idiom!=\tPad ".toList ⟨.idiom, .notEqual, .pad⟩ :=
    @Comparison.Spelled.mk _ "idiom" "idiom".toList "Pad".toList ['!', '='] "pad".toList
      [] [] ['\t'] [' '] (by decide) (by decide) (by decide) (.token rfl) (by decide)
      (by decide) (by decide) (by decide) (by decide)
  exact .conjunction (@Comparison.SpelledApart.more _ [' '] "aNd".toList [' ', ' '] _ _ _ hfirst
    (by decide) (by decide) (by decide) (by decide) (by decide) (.last hsecond))

theorem legible_plainSpelling : Legible (unquoted plainSpelling) := by
  have hfirst : Comparison.Spelled "width >= height".toList
      ⟨.width, .greaterThanOrEqual, .height⟩ :=
    @Comparison.Spelled.mk _ "width" "width".toList "height".toList ['>', '='] "height".toList []
      [' '] [' '] [] (by decide) (by decide) (by decide) (.token rfl) (by decide) (by decide)
      (by decide) (by decide) (by decide)
  have hsecond : Comparison.Spelled "idiom != pad".toList ⟨.idiom, .notEqual, .pad⟩ :=
    @Comparison.Spelled.mk _ "idiom" "idiom".toList "pad".toList ['!', '='] "pad".toList
      [] [' '] [' '] [] (by decide) (by decide) (by decide) (.token rfl) (by decide)
      (by decide) (by decide) (by decide) (by decide)
  exact .conjunction (@Comparison.SpelledApart.more _ [' '] "and".toList [' '] _ _ _ hfirst
    (by decide) (by decide) (by decide) (by decide) (by decide) (.last hsecond))

/-- Both spellings are one key. -/
theorem keys_spacedSpelling : ∃ c, parse spacedSpelling = .ok c ∧ parse plainSpelling = .ok c ∧
    bare spacedSpelling = bare plainSpelling ∧
    c.expressions.any Expression.isTautology = false ∧ order c c = .eq ∧
    normalize c.raw.toList = c.raw.toList := by
  obtain ⟨c, hc, hnone⟩ : ∃ c, parse spacedSpelling = .ok c ∧
      (!c.expressions.any Expression.isTautology) = true := exists_ok_of_any (by decide +kernel)
  obtain ⟨d, hd, -⟩ : ∃ d, parse plainSpelling = .ok d ∧ true = true :=
    exists_ok_of_any (by decide +kernel)
  have hbare : bare spacedSpelling = bare plainSpelling := by decide +kernel
  obtain ⟨-, -, hlegible⟩ := keys_of_bare hc hd hbare
  obtain ⟨rfl, -, horder, hnormal⟩ := hlegible legible_spacedSpelling legible_plainSpelling
  exact ⟨c, hc, hd, hbare, by simpa using hnone, horder, hnormal⟩

/-- White space inside a comparator makes a key of its own, though the expressions are the same, and
normalizing this key makes the other one. -/
theorem keys_tornComparator : ∃ c d : Condition, parse "width > = height" = .ok c ∧
    parse "width >= height" = .ok d ∧ bare "width > = height" = bare "width >= height" ∧
    c.expressions = d.expressions ∧ sameKey c d = false ∧ order c d ≠ .eq ∧
    normalize c.raw.toList ≠ c.raw.toList :=
  ⟨⟨"width>=height", [.comparison "width≥height" .width .greaterThanOrEqual .height]⟩,
    ⟨"width≥height", [.comparison "width≥height" .width .greaterThanOrEqual .height]⟩, rfl, rfl,
    by decide +kernel, rfl, by decide +kernel, by decide +kernel, by decide +kernel⟩

end Condition

end Appearance
