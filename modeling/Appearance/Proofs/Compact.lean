import Appearance.Proofs.Folding
import Mathlib.Data.List.TakeWhile

/-!
# Comparisons without white space

What a condition reads is told from its text without white space. A part that is read as a
comparison consists of the tokens of its sides with a spelling of its comparator between them
(`Expression.Compact`, `Expression.compact_of_parse`), and such a text is that of one comparison
only (`Expression.Compact.unique`). The bare text of a condition, without quotes and white space and
in small letters, is therefore a conjunction of such texts, unless the condition has a fallback
(`Condition.compact_of_parse`), and then the word of the fallback is found in it
(`Condition.fallbackWord_infix_normalize`, `Condition.fallbackWord_infix_bare`).

The bare text is what two spellings of one condition have in common, whatever white space does to
comparators and joining words. To read the expressions off it one has to know that no comparison
runs into its neighbour: tokens, symbols and the joining word use characters that tell their ends
(`append_inj_of_class`). Capital letters and quotes are gone, and characters beyond ASCII cannot
occur in a condition that is read.
-/

namespace Appearance

open Appearance.Text

/-! ## Tokens that are read -/

/-- A token that is read as a metric is one of its spellings. -/
theorem Metric.mem_tokens {token : String} {m : Metric} (h : Metric.ofToken? token = some m) :
    token ∈ m.tokens := by
  unfold Metric.ofToken? at h
  split at h
  all_goals
    cases h
    try decide

/-- A content size has one spelling. -/
theorem ContentSize.eq_token {token : String} {size : ContentSize}
    (h : ContentSize.ofToken? token = some size) : token = size.token := by
  unfold ContentSize.ofToken? at h
  split at h
  all_goals
    cases h
    try rfl

/-- A term that is read from small letters is written. -/
theorem Term.written_of_ofToken? {text : List Char} {t : Term}
    (hlower : ∀ c ∈ text, c.toLower = c) (h : Term.ofToken? (String.ofList text) = some t) :
    t.Written text := by
  have htoken : ∀ {token : String} {u : Term}, String.ofList text = token →
      u.token? = some token → u.Written text := by
    rintro _ u rfl hu
    have hwritten := Written.token hu
    rwa [String.toList_ofList] at hwritten
  unfold Term.ofToken? at h
  split at h
  · next value hvalue =>
    obtain ⟨n, rfl, rfl, hfinite⟩ := Numeral.exists_of_constant? hlower hvalue
    cases h
    exact .numeral n hfinite
  · split at h
    case h_9 =>
      obtain ⟨size, hsize, rfl⟩ := Option.map_eq_some_iff.1 h
      exact htoken (ContentSize.eq_token hsize) rfl
    all_goals
      next heq =>
        cases h
        exact htoken heq rfl

/-- A symbol is read as the comparator that it is the symbol of. -/
theorem Comparator.eq_symbol {c : Char} {comparator : Comparator}
    (h : ofSymbol? c = some comparator) : c = comparator.symbol := by
  unfold ofSymbol? at h
  split at h
  all_goals
    cases h
    try rfl

theorem Comparator.exists_symbol {c : Char} (h : isSymbol c = true) :
    ∃ comparator : Comparator, c = comparator.symbol := by
  obtain ⟨comparator, h⟩ := Option.isSome_iff_exists.1 h
  exact ⟨comparator, eq_symbol h⟩

/-! ## A comparison that is read -/

namespace Text

/-- A text is its trimmed text with white space around it. -/
theorem exists_trimChars (cs : List Char) :
    ∃ b b', Blank b ∧ Blank b' ∧ cs = b ++ (trimChars cs ++ b') := by
  have hend : trimChars cs ++ ((trimStartChars cs).reverse.takeWhile isBlank).reverse =
      trimStartChars cs := by
    rw [trimChars, trimEndChars, dropEndWhile, ← List.reverse_append,
      List.takeWhile_append_dropWhile, List.reverse_reverse]
  refine ⟨cs.takeWhile isBlank, ((trimStartChars cs).reverse.takeWhile isBlank).reverse,
    fun c hc => List.mem_takeWhile_imp hc,
    fun c hc => List.mem_takeWhile_imp (List.mem_reverse.1 hc), ?_⟩
  rw [hend]
  exact List.takeWhile_append_dropWhile.symm

end Text

/-- A normalized comparison that is read consists of its sides and its symbol. -/
theorem Expression.exists_sides_of_ofNormalized {cs : List Char} {e : Expression}
    (hlower : ∀ c ∈ cs, c.toLower = c) (hsqueeze : Condition.squeeze cs = cs)
    (h : Expression.ofNormalized cs = .ok e) : ∃ l r c, Comparison.Sides l r c ∧
      cs = l ++ c.comparator.symbol :: r ∧
        e = .comparison (String.ofList cs) c.left c.comparator c.right := by
  unfold ofNormalized at h
  split at h
  case h_2 => cases h
  next left right comparator hsplit hfind =>
  obtain ⟨s, hs, hcs⟩ := exists_of_splitAtChars_eq_pair hsplit
  obtain ⟨b₁, b₂, hb₁, hb₂, hleft⟩ := exists_trimChars left
  obtain ⟨b₃, b₄, hb₃, hb₄, hright⟩ := exists_trimChars right
  generalize trimChars left = l at *
  generalize trimChars right = r at *
  subst hleft hright
  unfold ofTokens at h
  split at h
  · cases h
  next metric hmetric =>
  split at h
  · cases h
  next term hterm =>
  have hlowerRight : ∀ c ∈ r, c.toLower = c := fun c hc =>
    hlower c (by simp only [hcs, List.mem_append, List.mem_cons]; tauto)
  have hsides : Comparison.Sides l r ⟨metric, comparator, term⟩ :=
    ⟨⟨_, Metric.mem_tokens hmetric, (String.toList_ofList).symm⟩,
      Term.written_of_ofToken? hlowerRight hterm⟩
  -- The sides have no symbols, so the symbol that is found is the one between them.
  obtain rfl : s = comparator.symbol := by
    obtain ⟨c, hc, hsymbol⟩ := List.exists_of_findSome?_eq_some hfind
    have hblank : ∀ {b : List Char}, Blank b → c ∉ b := fun hb hcb => by
      rw [Comparator.eq_symbol hsymbol] at hcb
      exact absurd ((hb _ hcb).symm.trans comparator.isBlank_symbol) (by decide)
    have hplain : ∀ {w : List Char}, Comparison.PlainWord w → c ∉ w := fun hw hcw => by
      have hnone := Comparison.isSymbol_of_isPlain (hw.isPlain c hcw)
      rw [Comparator.isSymbol, hsymbol] at hnone
      cases hnone
    rw [hcs] at hc
    simp only [List.mem_append, List.mem_cons, hblank hb₁, hblank hb₂, hblank hb₃, hblank hb₄,
      hplain hsides.plainWord_left, hplain hsides.plainWord_right, false_or, or_false] at hc
    exact hc.symm.trans (Comparator.eq_symbol hsymbol)
  have hnormal : Condition.squeeze cs = l ++ comparator.symbol :: r := by
    have hmiddle := hsides.squeeze hb₂ hb₃ b₄
    rw [Condition.squeeze_solid hsides.plainWord_right.solid hsides.plainWord_right.ne_nil hb₄]
      at hmiddle
    rw [hcs]
    simp only [List.append_assoc]
    rw [Condition.squeeze_blank hb₁]
    exact hmiddle
  exact ⟨l, r, _, hsides, hsqueeze.symm.trans hnormal, (Except.ok.inj h).symm⟩

/-! ## Compact comparisons -/

theorem Metric.isOrdinary_of_mem_tokens {m : Metric} {token : String} (h : token ∈ m.tokens) :
    (∀ d ∈ token.toList, Condition.isOrdinary d = true) ∧ token.toList.head? ≠ some 'e' := by
  revert token
  cases m <;> decide

/-- The right side of a comparison is written with ordinary characters. -/
theorem Term.isOrdinary_of_written {t : Term} {text : List Char} (h : t.Written text) :
    ∀ d ∈ text, Condition.isOrdinary d = true := by
  cases h with
  | token htoken =>
    cases t with
    | constant value => cases htoken
    | contentSize size =>
      cases htoken
      cases size <;> decide
    | _ =>
      cases htoken
      decide
  | numeral n _ =>
    intro d hd
    have hfigure := n.isFigure_text d hd
    have hk : (d != 'k') = true := by
      rw [bne_iff_ne]
      rintro rfl
      exact absurd hfigure (by decide)
    rw [Condition.isOrdinary, Comparison.isPlain, hfigure, hk, Bool.or_true, Bool.and_true,
      Bool.true_or]

namespace Comparison.Sides

variable {l r : List Char} {c : Comparison}

theorem isOrdinary_left (h : Sides l r c) : ∀ d ∈ l, Condition.isOrdinary d = true := by
  obtain ⟨token, htoken, rfl⟩ := h.left
  exact (Metric.isOrdinary_of_mem_tokens htoken).1

/-- No left side begins with the letter that follows the first one of the word of the fallback. -/
theorem head_left (h : Sides l r c) : l.head? ≠ some 'e' := by
  obtain ⟨token, htoken, rfl⟩ := h.left
  exact (Metric.isOrdinary_of_mem_tokens htoken).2

theorem isOrdinary_right (h : Sides l r c) : ∀ d ∈ r, Condition.isOrdinary d = true :=
  Term.isOrdinary_of_written h.right

end Comparison.Sides

/-- Two texts that go over from one class of characters to the other at the beginning of their
second parts have the same parts. -/
theorem append_inj_of_class {p : Char → Bool} {a a' b b' : List Char} (ha : ∀ c ∈ a, p c = true)
    (ha' : ∀ c ∈ a', p c = true) (hb : ∀ c ∈ b.head?, p c = false)
    (hb' : ∀ c ∈ b'.head?, p c = false) (h : a ++ b = a' ++ b') : a = a' ∧ b = b' := by
  have hfirst : ∀ {a b : List Char}, (∀ c ∈ a, p c = true) → (∀ c ∈ b.head?, p c = false) →
      (a ++ b).takeWhile p = a := by
    intro a b ha hb
    rw [List.takeWhile_append_of_pos ha]
    cases b with
    | nil => exact List.append_nil a
    | cons c b =>
      have hc : ¬ p c = true := by simp [hb c rfl]
      rw [List.takeWhile_cons_of_neg hc, List.append_nil]
  obtain rfl : a = a' := by rw [← hfirst ha hb, h, hfirst ha' hb']
  exact ⟨rfl, List.append_cancel_left h⟩

namespace Condition

theorem isBlank_of_isOrdinary {c : Char} (h : isOrdinary c = true) : isBlank c = false := by
  rw [isOrdinary, Bool.or_eq_true, Bool.and_eq_true] at h
  rcases h with ⟨hplain, -⟩ | hoperator
  · exact Comparison.isBlank_of_isPlain hplain
  · have hall : ∀ d ∈ ['!', '<', '>', '=', '≠', '≤', '≥'], isBlank d = false := by decide
    exact hall c (eq_of_isOperator hoperator)

end Condition

namespace Expression

/-- A comparison without white space: its sides, with a spelling of its comparator between them. The
expression keeps the normalized spelling. -/
inductive Compact (spellings : Comparator → List (List Char)) : List Char → Expression → Prop
  | mk {l r spelling : List Char} {c : Comparison} : Comparison.Sides l r c →
    spelling ∈ spellings c.comparator → Compact spellings (l ++ (spelling ++ r))
      (.comparison (String.ofList (l ++ c.comparator.symbol :: r)) c.left c.comparator c.right)

/-- The symbols of comparators, as spellings. -/
def symbols (comparator : Comparator) : List (List Char) := [[comparator.symbol]]

theorem mem_signs_of_mem_symbols {comparator : Comparator} {spelling : List Char}
    (h : spelling ∈ symbols comparator) : spelling ∈ comparator.signs := by
  obtain rfl := List.mem_singleton.1 h
  cases comparator <;> exact List.mem_cons_self

namespace Compact

variable {spellings spellings' : Comparator → List (List Char)} {x y : List Char} {e : Expression}

theorem mono (h : Compact spellings x e)
    (hspellings : ∀ c, ∀ spelling ∈ spellings c, spelling ∈ spellings' c) :
    Compact spellings' x e := by
  cases h with
  | mk hsides hspelling => exact .mk hsides (hspellings _ _ hspelling)

/-- What folds to a comparison is the comparison, with something that folds to its comparator. -/
theorem of_folded (h : Compact spellings y e) (hfolded : Folded x y)
    (hspellings : ∀ c, ∀ spelling ∈ spellings c, ∀ signs, Folded signs spelling →
      signs ∈ spellings' c) : Compact spellings' x e := by
  cases h with
  | mk hsides hspelling =>
    have hnone : ∀ {w : List Char}, Comparison.PlainWord w →
        ∀ d ∈ w, Comparator.isSymbol d = false :=
      fun hw d hd => Comparison.isSymbol_of_isPlain (hw.isPlain d hd)
    obtain ⟨l, rest, rfl, hl, hrest⟩ := hfolded.exists_append
    obtain ⟨signs, r, rfl, hsigns, hr⟩ := hrest.exists_append
    rw [hl.eq_of_no_symbol (hnone hsides.plainWord_left),
      hr.eq_of_no_symbol (hnone hsides.plainWord_right)]
    exact .mk hsides (hspellings _ _ hspelling signs hsigns)

/-- A compact comparison has ordinary characters only. -/
theorem isOrdinary (h : Compact Comparator.signs x e) :
    ∀ d ∈ x, Condition.isOrdinary d = true := by
  cases h with
  | mk hsides hspelling =>
    refine List.forall_mem_append.2 ⟨hsides.isOrdinary_left,
      List.forall_mem_append.2 ⟨fun d hd => ?_, hsides.isOrdinary_right⟩⟩
    rw [Condition.isOrdinary, ((Comparator.isOperator_of_mem_signs hspelling).2 d hd).1,
      Bool.or_true]

theorem solid (h : Compact Comparator.signs x e) : Solid x := fun d hd =>
  Condition.isBlank_of_isOrdinary (h.isOrdinary d hd)

/-- The text of a comparison is that of no other. -/
theorem unique {e' : Expression} (h : Compact Comparator.signs x e)
    (h' : Compact Comparator.signs x e') : e = e' := by
  cases h with
  | @mk l r spelling c hsides hspelling =>
    generalize hx : l ++ (spelling ++ r) = y at h'
    cases h' with
    | @mk l' r' spelling' c' hsides' hspelling' =>
      obtain ⟨hne, hsigns⟩ := Comparator.isOperator_of_mem_signs hspelling
      obtain ⟨hne', hsigns'⟩ := Comparator.isOperator_of_mem_signs hspelling'
      have hmiddle : ∀ {w : List Char} {s : List Char}, s ≠ [] →
          (∀ d ∈ s, Condition.isOperator d = true ∧ Comparison.isPlain d = false) →
          ∀ d ∈ (s ++ w).head?, Comparison.isPlain d = false := by
        intro w s hs hall d hd
        rw [List.head?_append_of_ne_nil _ hs] at hd
        exact (hall d (List.mem_of_mem_head? hd)).2
      have hlast : ∀ {w : List Char}, Comparison.PlainWord w →
          ∀ d ∈ w.head?, (!Comparison.isPlain d) = false := fun hw d hd => by
        rw [hw.isPlain d (List.mem_of_mem_head? hd), Bool.not_true]
      obtain ⟨rfl, hrest⟩ := append_inj_of_class hsides.plainWord_left.isPlain
        hsides'.plainWord_left.isPlain (hmiddle hne hsigns) (hmiddle hne' hsigns') hx
      obtain ⟨rfl, rfl⟩ := append_inj_of_class (p := fun d => !Comparison.isPlain d)
        (fun d hd => by rw [(hsigns d hd).2, Bool.not_false])
        (fun d hd => by rw [(hsigns' d hd).2, Bool.not_false])
        (hlast hsides.plainWord_right) (hlast hsides'.plainWord_right) hrest
      have hleft : c.left = c'.left :=
        Option.some.inj (hsides.ofToken?_left.symm.trans hsides'.ofToken?_left)
      have hright : c.right = c'.right :=
        Option.some.inj (hsides.ofToken?_right.symm.trans hsides'.ofToken?_right)
      rw [Comparator.eq_of_mem_signs hspelling hspelling', hleft, hright]

/-- Compact comparisons between joining words are told from their texts. -/
theorem unique_all {xs : List (List Char)} {es es' : List Expression}
    (h : List.Forall₂ (Compact Comparator.signs) xs es)
    (h' : List.Forall₂ (Compact Comparator.signs) xs es') : es = es' := by
  induction h generalizing es' with
  | nil =>
    cases h'
    rfl
  | cons hx _ ih =>
    cases h' with
    | cons hx' h' => rw [hx.unique hx', ih h']

end Compact

end Expression

/-! ## Normalized texts -/

namespace Condition

/-- A normalized text has no characters but those of the text in small letters. -/
theorem mem_normalize {cs : List Char} {d : Char} (h : d ∈ normalize cs) :
    isBlank d = true ∨ Comparator.isSymbol d = true ∨
      d ∈ lowercase (cs.filter fun c => !isQuote c) := by
  cases hd : isBlank d with
  | true => exact .inl rfl
  | false =>
    have hink : d ∈ ink (squeeze (foldComparators (lowercase (cs.filter fun c => !isQuote c)))) :=
      List.mem_filter.2 ⟨h, by rw [hd]; rfl⟩
    rw [ink_squeeze] at hink
    exact .inr ((folded_foldComparators _).mem (List.mem_of_mem_filter hink)).symm

/-- A normalized text has no capital letters of ASCII and no quotes. -/
theorem toLower_of_mem_normalize {cs : List Char} {d : Char} (h : d ∈ normalize cs) :
    d.toLower = d ∧ isQuote d = false := by
  rcases mem_normalize h with hd | hd | hd
  · exact ⟨toLower_of_isBlank hd, not_isQuote_of_isBlank hd⟩
  · obtain ⟨comparator, rfl⟩ := Comparator.exists_symbol hd
    cases comparator <;> decide
  · refine ⟨toLower_of_mem_lowercase hd, not_isQuote_of_mem_lowercase (fun c hc => ?_) hd⟩
    simpa using (List.mem_filter.1 hc).2

theorem map_toLower {cs : List Char} (h : ∀ d ∈ cs, d.toLower = d ∧ isQuote d = false) :
    cs.map Char.toLower = cs := by
  have hid : ∀ d ∈ cs, d.toLower = id d := fun d hd => (h d hd).1
  rw [List.map_congr_left hid, List.map_id]

/-- Without white space a normalized text is the text that is folded. -/
theorem folded_normalize (cs : List Char) :
    Folded (ink (lowercase (cs.filter fun c => !isQuote c))) (ink (normalize cs)) := by
  change Folded _ (ink (squeeze (foldComparators (lowercase (cs.filter fun c => !isQuote c)))))
  rw [ink_squeeze]
  exact (folded_foldComparators _).ink

/-- If all that the lower case of a text has are ordinary characters and white space, it is the
text in small letters of ASCII. -/
theorem lowercase_of_isOrdinary {cs : List Char}
    (h : ∀ d ∈ ink (lowercase cs), isOrdinary d = true) : lowercase cs = cs.map Char.toLower := by
  refine lowercase_eq_map (@lowersAlone_of_lowercaseFrom cs [] fun d hd => ?_)
  cases hblank : isBlank d with
  | true => exact .inr rfl
  | false => exact .inl (h d (List.mem_filter.2 ⟨hd, by rw [hblank]; rfl⟩))

/-- A word of ASCII letters that is found in a normalized text is found in the text, if that has
small letters and no quotes. -/
theorem infix_of_normalize {w : List Char} (hne : w ≠ []) (hw : ∀ c ∈ w, isFaithful c = true)
    {cs : List Char} (hcs : ∀ c ∈ cs, c.toLower = c ∧ isQuote c = false)
    (h : w <:+: normalize cs) : w <:+: cs := by
  have hplain : ∀ c ∈ w, Comparison.isPlain c = true := fun c hc => by
    have hlower := hw c hc
    simp only [isFaithful, Bool.and_eq_true] at hlower
    rw [Comparison.isPlain, hlower.1.1, Bool.true_or]
  have hsymbols : ∀ c ∈ w, Comparator.isSymbol c = false := fun c hc =>
    Comparison.isSymbol_of_isPlain (hplain c hc)
  have hblank : ' ' ∉ w := fun hmem => absurd (hplain _ hmem) (by decide)
  have hfolded : w <:+: foldComparators (lowercase (cs.filter fun c => !isQuote c)) :=
    infix_of_squeeze hne hblank hsymbols h
  have hlowered := (folded_foldComparators _).isInfix hsymbols hfolded
  rw [filter_isQuote fun c hc => (hcs c hc).2] at hlowered
  have hword := infix_of_lowercase hw hlowered
  rwa [map_toLower hcs] at hword

end Condition

/-! ## Parts that are read -/

namespace Expression

/-- A part is read as the fallback or as a compact comparison. -/
theorem parse_cases {part : List Char} {e : Expression} (h : Expression.parse part = .ok e) :
    e.isTautology = true ∧ Condition.fallbackWord <:+: Condition.normalize part ∨
      e.isTautology = false ∧ Compact symbols (Condition.normalize part) e := by
  unfold Expression.parse at h
  dsimp only at h
  split at h
  · next hcontains =>
    cases h
    exact .inl ⟨rfl, containsText_iff.1 hcontains⟩
  · split at h
    · next hok =>
      obtain ⟨l, r, c, hsides, hnormal, rfl⟩ := exists_sides_of_ofNormalized
        (fun d hd => (Condition.toLower_of_mem_normalize hd).1) (Condition.squeeze_squeeze _) hok
      cases h
      have hcompact : Compact symbols (l ++ ([c.comparator.symbol] ++ r)) _ :=
        .mk hsides (List.mem_singleton_self _)
      rw [hnormal]
      exact .inr ⟨rfl, hcompact⟩
    · cases h

section Part

variable {part : List Char} {e : Expression}
  (hpart : ∀ d ∈ part, d.toLower = d ∧ Condition.isQuote d = false)
  (h : Expression.parse part = .ok e)

include hpart h

/-- A part that is read as a comparison is its text with white space. -/
theorem compact_of_parse (he : e.isTautology = false) :
    Compact Comparator.forms (ink part) e := by
  rcases parse_cases h with ⟨htautology, -⟩ | ⟨-, hsymbols⟩
  · rw [he] at htautology
    cases htautology
  have hsolid := (hsymbols.mono fun _ _ => mem_signs_of_mem_symbols).solid
  have hfolded := Condition.folded_normalize part
  rw [ink_solid hsolid, Condition.filter_isQuote fun d hd => (hpart d hd).2] at hfolded
  have hforms : Compact Comparator.forms (ink (lowercase part)) e :=
    hsymbols.of_folded hfolded fun c spelling hspelling signs hsigns => by
      obtain rfl := List.mem_singleton.1 hspelling
      exact hsigns.mem_forms_of_symbol
  have hordinary := (hforms.mono fun _ _ => Comparator.mem_signs_of_mem_forms).isOrdinary
  rwa [Condition.lowercase_of_isOrdinary hordinary, Condition.map_toLower hpart] at hforms

/-- A part that always holds has the word of the fallback. -/
theorem fallbackWord_infix_of_parse (he : e.isTautology = true) :
    Condition.fallbackWord <:+: part := by
  rcases parse_cases h with ⟨-, hwithin⟩ | ⟨hcomparison, -⟩
  · exact Condition.infix_of_normalize (by decide) (by decide) hpart hwithin
  · rw [he] at hcomparison
    cases hcomparison

end Part

end Expression

/-- A word of plain characters in the text of a comparison is found in one of its sides. -/
theorem Expression.Compact.exists_side {x w : List Char} {e : Expression}
    (h : Compact Comparator.signs x e) (hw : ∀ d ∈ w, Comparison.isPlain d = true)
    (hwithin : w <:+: x) : ∃ side, Comparison.PlainWord side ∧ w <:+: side := by
  cases h with
  | @mk l r signs c hsides hspelling =>
    obtain ⟨hne, hsigns⟩ := Comparator.isOperator_of_mem_signs hspelling
    have hnot : ∀ d ∈ signs, d ∉ w := fun d hd hdw => by
      have hplain := hw d hdw
      rw [(hsigns d hd).2] at hplain
      cases hplain
    obtain ⟨s, signs, rfl⟩ := List.exists_cons_of_ne_nil hne
    obtain ⟨hs, hrest⟩ := List.forall_mem_cons.1 hnot
    rcases infix_of_infix_append_cons hwithin hs with hl | hr
    · exact ⟨l, hsides.plainWord_left, hl⟩
    · exact ⟨r, hsides.plainWord_right, infix_of_infix_append hrest hr⟩

theorem Expression.Compact.head_ne {x : List Char} {e : Expression}
    (h : Compact Comparator.signs x e) : x.head? ≠ some 'e' := by
  cases h with
  | mk hsides _ =>
    rw [List.head?_append_of_ne_nil _ hsides.plainWord_left.ne_nil]
    exact hsides.head_left

/-! ## Conditions that are read -/

namespace Text

/-- White space is taken out of the parts and of what joins them. -/
theorem ink_intercalate (sep : List Char) (parts : List (List Char)) :
    ink (sep.intercalate parts) = (ink sep).intercalate (parts.map ink) := by
  induction parts with
  | nil => rfl
  | cons p parts ih =>
    cases parts with
    | nil => rw [List.intercalate_singleton, List.map_singleton, List.intercalate_singleton]
    | cons q parts =>
      rw [List.intercalate_cons_cons, ink_append, ink_append, ih, List.map_cons, List.map_cons,
        List.map_cons, List.intercalate_cons_cons]

/-- A part is found in what the parts are joined to. -/
theorem infix_intercalate (sep : List Char) {part : List Char} {parts : List (List Char)}
    (h : part ∈ parts) : part <:+: sep.intercalate parts := by
  induction parts with
  | nil => cases h
  | cons p parts ih =>
    cases parts with
    | nil =>
      rw [List.mem_singleton.1 h, List.intercalate_singleton]
    | cons q parts =>
      rw [List.intercalate_cons_cons]
      rcases List.mem_cons.1 h with rfl | h
      · exact ⟨[], sep ++ sep.intercalate (q :: parts), by simp⟩
      · exact (ih h).trans (List.suffix_append _ _).isInfix

theorem ink_map_toLower (cs : List Char) :
    ink (cs.map Char.toLower) = (ink cs).map Char.toLower := by
  rw [ink, List.filter_map]
  refine congrArg _ (List.filter_congr fun c _ => ?_)
  rw [Function.comp_apply, isBlank_toLower]

end Text

namespace Condition

/-- The text without quotes. -/
def unquoted (s : String) : List Char := s.toList.filter fun c => !isQuote c

/-- The text without quotes and white space, in small letters. -/
def bare (s : String) : List Char := (ink (unquoted s)).map Char.toLower

/-- What folds to comparisons with the joining word between them is split into their texts. -/
theorem compact_splitAtText {spellings : Comparator → List (List Char)} {x : List Char}
    {ys : List (List Char)} {es : List Expression}
    (hspellings : ∀ c, ∀ spelling ∈ spellings c, ∀ signs, Folded signs spelling → signs ∈ c.signs)
    (hne : ys ≠ []) (hfolded : Folded x (conjunction.intercalate ys))
    (h : List.Forall₂ (Expression.Compact spellings) ys es) :
    List.Forall₂ (Expression.Compact Comparator.signs) (splitAtText conjunction x) es := by
  obtain ⟨xs, rfl, hxs⟩ := hfolded.exists_intercalate (by decide)
  have hall : List.Forall₂ (Expression.Compact Comparator.signs) xs es :=
    forall₂_trans hxs h fun _ _ _ _ hx hy => hy.of_folded hx hspellings
  have hxsNe : xs ≠ [] := by
    rintro rfl
    cases hxs
    exact hne rfl
  have hsplit : splitAtText conjunction (conjunction.intercalate xs) = xs := by
    refine splitAtText_intercalate (by decide) hxsNe fun part hpart hwithin => ?_
    obtain ⟨e, -, he⟩ := exists_mem_of_forall₂ hall.flip hpart
    obtain ⟨side, hside, hword⟩ := he.exists_side (by decide) hwithin
    exact hside.not_joining hword
  rwa [hsplit]

theorem not_fallbackWord_within_side {x : List Char} {e : Expression}
    (h : Expression.Compact Comparator.signs x e) : ¬ fallbackWord <:+: x := fun hwithin =>
  have ⟨_, hside, hword⟩ := h.exists_side (by decide) hwithin
  hside.not_fallback hword

/-- The word of the fallback is not found in comparisons with the joining word between them. -/
theorem not_fallbackWord_within {xs : List (List Char)} {es : List Expression}
    (h : List.Forall₂ (Expression.Compact Comparator.signs) xs es) :
    ¬ fallbackWord <:+: conjunction.intercalate xs ∧
      (conjunction.intercalate xs).head? ≠ some 'e' := by
  induction h with
  | nil => exact ⟨by decide, nofun⟩
  | @cons x e xs es hx hxs ih =>
    have hfirst := not_fallbackWord_within_side hx
    cases xs with
    | nil =>
      rw [List.intercalate_singleton]
      exact ⟨hfirst, hx.head_ne⟩
    | cons y ys =>
      obtain ⟨hrest, hhead⟩ := ih
      rw [List.intercalate_cons_cons]
      generalize conjunction.intercalate (y :: ys) = rest at *
      have hjoined : x ++ conjunction ++ rest = (x ++ ['a']) ++ 'n' :: 'd' :: rest := by
        simp [conjunction]
      rw [hjoined]
      constructor
      · intro hwithin
        rcases infix_of_infix_append_cons hwithin (by decide) with hbefore | hafter
        · rcases List.infix_concat_iff.1 hbefore with hsuffix | hwithin
          · rcases List.suffix_concat_iff.1 hsuffix with hnil | ⟨t, ht, -⟩
            · exact absurd hnil (by decide)
            · have hlast := congrArg List.getLast? ht
              rw [List.getLast?_concat] at hlast
              exact absurd hlast (by decide)
          · exact hfirst hwithin
        · rcases List.infix_cons_iff.1 hafter with hfront | hwithin
          · obtain ⟨after, hafter⟩ := (List.cons_prefix_cons.1 hfront).2
            rw [← hafter] at hhead
            exact hhead rfl
          · exact hrest hwithin
      · cases x with
        | nil => nofun
        | cons d x => exact hx.head_ne

/-- A condition is read part by part from its normalized text. -/
theorem parse_eq_ok {s : String} {c : Condition} (h : parse s = .ok c) :
    c.raw = String.ofList (normalize s.toList) ∧
      List.Forall₂ (fun part e => Expression.parse part = .ok e)
        (splitAtText conjunction (normalize s.toList)) c.expressions := by
  unfold parse parseChars at h
  dsimp only at h
  split at h
  · next hmap =>
    cases h
    exact ⟨rfl, forall₂_of_mapM hmap⟩
  · cases h

theorem part_infix_normalize {cs part : List Char}
    (h : part ∈ splitAtText conjunction (normalize cs)) : part <:+: normalize cs := by
  have hwithin := infix_intercalate conjunction h
  rwa [intercalate_splitAtText (by decide)] at hwithin

theorem forall_mem_part (s : String) : ∀ part ∈ splitAtText conjunction (normalize s.toList),
    ∀ d ∈ part, d.toLower = d ∧ isQuote d = false := fun _ hpart _ hd =>
  toLower_of_mem_normalize ((part_infix_normalize hpart).subset hd)

/-- The word of the fallback in a normalized condition is found in the bare text. -/
theorem fallbackWord_infix_bare {s : String} (h : fallbackWord <:+: normalize s.toList) :
    fallbackWord <:+: bare s := by
  have hink : ink fallbackWord <:+: ink (normalize s.toList) := h.filter _
  rw [ink_solid (by decide)] at hink
  exact infix_of_ink_lowercase (by decide) ((folded_normalize s.toList).isInfix (by decide) hink)

section Read

variable {s : String} {c : Condition} (h : parse s = .ok c)

include h

/-- If no expression holds always, the bare text has the texts of the expressions between its
joining words. -/
theorem compact_of_parse (hc : ∀ e ∈ c.expressions, e.isTautology = false) :
    List.Forall₂ (Expression.Compact Comparator.signs) (splitAtText conjunction (bare s))
      c.expressions := by
  obtain ⟨-, hparts⟩ := parse_eq_ok h
  have hforms : List.Forall₂ (Expression.Compact Comparator.forms)
      ((splitAtText conjunction (normalize s.toList)).map ink) c.expressions :=
    List.forall₂_map_left_iff.2 (forall₂_imp_of_mem hparts fun part hpart e he hparse =>
      Expression.compact_of_parse (forall_mem_part s part hpart) hparse (hc e he))
  have hnormal : ink (normalize s.toList) =
      conjunction.intercalate ((splitAtText conjunction (normalize s.toList)).map ink) := by
    have hink := ink_intercalate conjunction (splitAtText conjunction (normalize s.toList))
    rwa [intercalate_splitAtText (by decide)] at hink
  have hfolded : Folded (ink (lowercase (unquoted s))) (ink (normalize s.toList)) :=
    folded_normalize s.toList
  rw [hnormal] at hfolded
  have hsplit := compact_splitAtText (fun _ _ h _ hsigns => Comparator.mem_signs_of_folded hsigns h)
    (fun hnil => splitTextFrom_ne_nil conjunction _ 0 [] (List.map_eq_nil_iff.1 hnil)) hfolded
    hforms
  -- All that is left of the text without white space is ordinary, so lowering changed ASCII only.
  have hordinary : ∀ d ∈ ink (lowercase (unquoted s)), isOrdinary d = true := by
    have hne : conjunction ≠ [] := by decide
    rw [← intercalate_splitAtText hne (ink (lowercase (unquoted s)))]
    refine forall_mem_intercalate (by decide) fun part hpart => ?_
    obtain ⟨e, -, he⟩ := exists_mem_of_forall₂ hsplit.flip hpart
    exact he.isOrdinary
  rwa [lowercase_of_isOrdinary hordinary, ink_map_toLower] at hsplit

/-- If some expression holds always, the normalized text has the word of the fallback. -/
theorem fallbackWord_infix_normalize {e : Expression} (he : e ∈ c.expressions)
    (htautology : e.isTautology = true) : fallbackWord <:+: normalize s.toList := by
  obtain ⟨part, hpart, hparse⟩ := exists_mem_of_forall₂ (parse_eq_ok h).2 he
  exact (Expression.fallbackWord_infix_of_parse (forall_mem_part s part hpart) hparse
    htautology).trans (part_infix_normalize hpart)

end Read

end Condition

end Appearance
