import Appearance.Proofs.Lowering

/-!
# Folding and spacing

Normalizing changes a text in two ways that the text without its white space shows. It folds
comparators, each to its symbol (`Folded`, `Condition.folded_foldComparators`), and it changes the
spacing, which leaves no trace there (`Condition.ink_squeeze`), makes no word that was not there
(`Condition.infix_of_squeeze`) and is changed no further by a second pass
(`Condition.squeeze_squeeze`). What folds to a text without comparators is the text itself, and
what folds to a conjunction is a conjunction (`Folded.exists_intercalate`). A comparator that is
folded twice, once with the text and once with a part of it, is still told from its characters
(`Comparator.eq_of_mem_signs`).
-/

namespace Appearance

open Appearance.Text

/-! ## Spacing -/

namespace Text

/-- The words of a text are its ink. -/
theorem flatten_wordsFrom (cs word : List Char) :
    (wordsFrom word cs).flatten = word.reverse ++ ink cs := by
  induction cs generalizing word with
  | nil =>
    rw [wordsFrom]
    split
    · next h => rw [List.isEmpty_iff.1 h]; rfl
    · exact List.flatten_singleton.trans (List.append_nil _).symm
  | cons c cs ih =>
    rw [wordsFrom]
    split
    · next hc =>
      rw [ink_cons_of_isBlank hc]
      split
      · next h => rw [List.isEmpty_iff.1 h, ih]
      · rw [List.flatten_cons, ih]
        rfl
    · next hc =>
      rw [ink_cons_of_solid (Bool.eq_false_iff.2 hc), ih, List.reverse_cons, List.append_assoc]
      rfl

theorem ink_ink (cs : List Char) : ink (ink cs) = ink cs :=
  ink_solid fun c hc => by simpa using (List.mem_filter.1 hc).2

/-- Each word stands in the text in one piece. -/
theorem infix_of_mem_wordsFrom {w cs word : List Char} (hw : w ∈ wordsFrom word cs) :
    w <:+: word.reverse ++ cs := by
  induction cs generalizing word with
  | nil =>
    unfold wordsFrom at hw
    split at hw
    · cases hw
    · rw [List.mem_singleton.1 hw, List.append_nil]
  | cons c cs ih =>
    have hbehind : [].reverse ++ cs <:+: word.reverse ++ c :: cs :=
      ((List.suffix_cons c cs).trans (List.suffix_append _ _)).isInfix
    unfold wordsFrom at hw
    split at hw
    · split at hw
      · exact (ih hw).trans hbehind
      · rcases List.mem_cons.1 hw with rfl | hw
        · exact (List.prefix_append _ _).isInfix
        · exact (ih hw).trans hbehind
    · simpa using ih hw

/-- A word of a text is a run of its characters. -/
theorem infix_of_mem_words {w cs : List Char} (hw : w ∈ wordsChars cs) : w <:+: cs :=
  infix_of_mem_wordsFrom hw

end Text

namespace Condition

theorem ink_spacing (w v : List Char) : ink (spacing w v) = [] := by
  unfold spacing
  split <;> rfl

/-- Joining words adds no ink. -/
theorem ink_joinWords (ws : List (List Char)) : ink (joinWords ws) = ink ws.flatten := by
  induction ws with
  | nil => rfl
  | cons w ws ih =>
    cases ws with
    | nil => rw [joinWords, List.flatten_singleton]
    | cons v ws =>
      rw [joinWords, ink_append, ink_append, ink_spacing, List.append_nil, ih, ← ink_append]
      rfl

theorem ink_squeeze (cs : List Char) : ink (squeeze cs) = ink cs := by
  rw [squeeze, ink_joinWords, wordsChars, flatten_wordsFrom, List.reverse_nil, List.nil_append,
    ink_ink]

/-- Words with their spacing begin as the first word does. -/
theorem exists_joinWords {v : List Char} (hv : v ≠ []) (ws : List (List Char)) :
    ∃ c rest, v.head? = some c ∧ joinWords (v :: ws) = c :: rest := by
  cases v with
  | nil => exact absurd rfl hv
  | cons c v =>
    cases ws with
    | nil => exact ⟨c, v, rfl, rfl⟩
    | cons u ws =>
      refine ⟨c, v ++ (spacing (c :: v) u ++ joinWords (u :: ws)), rfl, ?_⟩
      rw [joinWords, List.append_assoc]
      rfl

/-- The spacing of words is the gap that normalizing leaves there. -/
theorem gap_spacing {w v : List Char} {c : Char} (hv : v.head? = some c) :
    gap w (spacing w v) c = spacing w v := by
  unfold spacing gap startsWith
  rw [hv]
  split
  · rfl
  · next h =>
    rw [Option.any_some] at h
    rw [if_neg]
    simpa using h

/-- Joined words are squeezed already. -/
theorem squeeze_joinWords {ws : List (List Char)} (hws : ∀ w ∈ ws, w ≠ [] ∧ Solid w) :
    squeeze (joinWords ws) = joinWords ws := by
  induction ws with
  | nil => rfl
  | cons w ws ih =>
    obtain ⟨⟨hne, hw⟩, hws⟩ := List.forall_mem_cons.1 hws
    cases ws with
    | nil =>
      have h := squeeze_solid (b := []) hw hne nofun
      rwa [List.append_nil] at h
    | cons v ws =>
      obtain ⟨hv, hsolid⟩ := (List.forall_mem_cons.1 hws).1
      obtain ⟨c, rest, hhead, hrest⟩ := exists_joinWords hv ws
      have hc : isBlank c = false := hsolid c (List.mem_of_mem_head? hhead)
      have hblank : Blank (spacing w v) := by
        unfold spacing
        split
        · nofun
        · exact List.forall_mem_singleton.2 rfl
      rw [joinWords, List.append_assoc, hrest, squeeze_append hw hne hblank hc, gap_spacing hhead,
        ← hrest, ih hws]

/-- The spacing of a normalized condition is kept. -/
theorem squeeze_squeeze (cs : List Char) : squeeze (squeeze cs) = squeeze cs :=
  squeeze_joinWords fun _ hw => not_isBlank_of_mem_words hw

section Words

variable {w : List Char}

/-- A word without comparators does not reach from one word to the next one, whatever spacing is
between them. -/
theorem infix_of_infix_spacing {u v rest : List Char} (hblank : ' ' ∉ w)
    (hw : ∀ c ∈ w, Comparator.isSymbol c = false) (hv : v.head? = rest.head?)
    (h : w <:+: u ++ spacing u v ++ rest) : w <:+: u ∨ w <:+: rest := by
  have houtside : ∀ s, Comparator.isSymbol s = true → s ∉ w := fun s hs hmem => by
    rw [hw s hmem] at hs
    cases hs
  unfold spacing at h
  split at h
  · next hjoined =>
    rw [List.append_nil] at h
    rcases Bool.or_eq_true_iff.1 hjoined with hend | hstart
    · obtain ⟨s, hs, hsymbol⟩ := Option.any_eq_true _ _ |>.1 hend
      obtain ⟨u, rfl⟩ := List.getLast?_eq_some_iff.1 hs
      rw [List.append_assoc] at h
      exact (infix_of_infix_append_cons h (houtside s hsymbol)).imp_left fun h =>
        h.trans (List.prefix_append _ _).isInfix
    · obtain ⟨s, hs, hsymbol⟩ := Option.any_eq_true _ _ |>.1 hstart
      obtain ⟨rest, rfl⟩ := List.head?_eq_some_iff.1 (hv ▸ hs)
      exact (infix_of_infix_append_cons h (houtside s hsymbol)).imp_right fun h =>
        h.trans (List.suffix_cons s rest).isInfix
  · rw [List.append_assoc] at h
    exact infix_of_infix_append_cons h hblank

/-- Words with their spacing have a word without comparators only where one of them has it. -/
theorem exists_infix_of_joinWords (hne : w ≠ []) (hblank : ' ' ∉ w)
    (hw : ∀ c ∈ w, Comparator.isSymbol c = false) {words : List (List Char)}
    (hwords : ∀ u ∈ words, u ≠ []) (h : w <:+: joinWords words) : ∃ u ∈ words, w <:+: u := by
  induction words with
  | nil => exact absurd (List.infix_nil.1 h) hne
  | cons u words ih =>
    cases words with
    | nil => exact ⟨u, List.mem_cons_self, h⟩
    | cons v words =>
      obtain ⟨-, hrest⟩ := List.forall_mem_cons.1 hwords
      obtain ⟨c, rest, hhead, hjoin⟩ := exists_joinWords (hrest v List.mem_cons_self) words
      rw [joinWords] at h
      rcases infix_of_infix_spacing hblank hw (by rw [hjoin, hhead, List.head?_cons]) h with h | h
      · exact ⟨u, List.mem_cons_self, h⟩
      · obtain ⟨x, hx, hwithin⟩ := ih hrest h
        exact ⟨x, List.mem_cons_of_mem u hx, hwithin⟩

/-- Spacing makes no word without comparators. -/
theorem infix_of_squeeze (hne : w ≠ []) (hblank : ' ' ∉ w)
    (hw : ∀ c ∈ w, Comparator.isSymbol c = false) {cs : List Char} (h : w <:+: squeeze cs) :
    w <:+: cs := by
  obtain ⟨u, hu, hwithin⟩ :=
    exists_infix_of_joinWords hne hblank hw (fun u hu => (not_isBlank_of_mem_words hu).1) h
  exact hwithin.trans (infix_of_mem_words hu)

end Words

end Condition

/-! ## Folding -/

/-- Some of the spellings of comparators in the text are folded to their symbols. -/
inductive Folded : List Char → List Char → Prop
  | nil : Folded [] []
  | keep (c : Char) {cs fs : List Char} : Folded cs fs → Folded (c :: cs) (c :: fs)
  | fold {comparator : Comparator} {form cs fs : List Char} : form ∈ comparator.forms →
    Folded cs fs → Folded (form ++ cs) (comparator.symbol :: fs)

/-- Folding comparators is a folding. -/
theorem Condition.folded_foldComparators (cs : List Char) : Folded cs (foldComparators cs) := by
  induction cs using foldComparators.induct with
  | case1 cs ih => exact @Folded.fold .notEqual ['!', '='] _ _ (by decide) ih
  | case2 cs ih => exact @Folded.fold .lessThanOrEqual ['<', '='] _ _ (by decide) ih
  | case3 cs ih => exact @Folded.fold .greaterThanOrEqual ['>', '='] _ _ (by decide) ih
  | case4 cs ih => exact @Folded.fold .equal ['=', '='] _ _ (by decide) ih
  | case5 c cs h₁ h₂ h₃ h₄ ih =>
    rw [foldComparators]
    · exact .keep c ih
    all_goals assumption
  | case6 => exact .nil

namespace Comparator

instance (cs : List Char) : Decidable (Solid cs) :=
  inferInstanceAs (Decidable (∀ c ∈ cs, isBlank c = false))

theorem solid_of_mem_forms {comparator : Comparator} {form : List Char}
    (h : form ∈ comparator.forms) : Solid form := by
  revert form
  cases comparator <;> decide

theorem isBlank_symbol (comparator : Comparator) : isBlank comparator.symbol = false := by
  cases comparator <;> rfl

end Comparator

namespace Folded

variable {cs fs gs : List Char}

/-- A text without its white space folds to the folded text without it. -/
theorem ink (h : Folded cs fs) : Folded (ink cs) (ink fs) := by
  induction h with
  | nil => exact .nil
  | @keep c cs fs _ ih =>
    cases hc : isBlank c with
    | true => rwa [ink_cons_of_isBlank hc, ink_cons_of_isBlank hc]
    | false =>
      rw [ink_cons_of_solid hc, ink_cons_of_solid hc]
      exact .keep c ih
  | @fold comparator form cs fs hform _ ih =>
    rw [ink_append, ink_solid (Comparator.solid_of_mem_forms hform),
      ink_cons_of_solid comparator.isBlank_symbol]
    exact .fold hform ih

/-- What folds to two texts one after the other consists of what folds to each. -/
theorem exists_append (h : Folded cs (fs ++ gs)) :
    ∃ cs₁ cs₂, cs = cs₁ ++ cs₂ ∧ Folded cs₁ fs ∧ Folded cs₂ gs := by
  induction fs generalizing cs with
  | nil => exact ⟨[], cs, rfl, .nil, h⟩
  | cons f fs ih =>
    cases h with
    | keep _ h =>
      obtain ⟨cs₁, cs₂, rfl, h₁, h₂⟩ := ih h
      exact ⟨f :: cs₁, cs₂, rfl, .keep f h₁, h₂⟩
    | @fold _ form _ _ hform h =>
      obtain ⟨cs₁, cs₂, rfl, h₁, h₂⟩ := ih h
      exact ⟨form ++ cs₁, cs₂, (List.append_assoc ..).symm, .fold hform h₁, h₂⟩

/-- What folds to a text without symbols is the text. -/
theorem eq_of_no_symbol (h : Folded cs fs) (hfs : ∀ f ∈ fs, Comparator.isSymbol f = false) :
    cs = fs := by
  induction h with
  | nil => rfl
  | keep c _ ih => rw [ih (List.forall_mem_cons.1 hfs).2]
  | @fold comparator _ _ _ _ _ _ =>
    have hsymbol := (List.forall_mem_cons.1 hfs).1
    rw [Comparison.isSymbol_symbol] at hsymbol
    cases hsymbol

/-- A character of a folded text was there before or is a symbol. -/
theorem mem (h : Folded cs fs) {f : Char} (hf : f ∈ fs) :
    f ∈ cs ∨ Comparator.isSymbol f = true := by
  induction h with
  | nil => cases hf
  | keep c _ ih =>
    rcases List.mem_cons.1 hf with rfl | hf
    · exact .inl List.mem_cons_self
    · exact (ih hf).imp_left (List.mem_cons_of_mem c)
  | @fold comparator form _ _ _ _ ih =>
    rcases List.mem_cons.1 hf with rfl | hf
    · exact .inr (Comparison.isSymbol_symbol comparator)
    · exact (ih hf).imp_left (List.mem_append_right form)

/-- A word without symbols that is found after folding was there before. -/
theorem isInfix (h : Folded cs fs) {w : List Char}
    (hw : ∀ c ∈ w, Comparator.isSymbol c = false) (hfs : w <:+: fs) : w <:+: cs := by
  obtain ⟨before, after, rfl⟩ := hfs
  obtain ⟨cs₁, cs₂, rfl, h₁, -⟩ := h.exists_append
  obtain ⟨cs₁, w', rfl, -, hword⟩ := h₁.exists_append
  rw [hword.eq_of_no_symbol hw]
  exact ⟨cs₁, cs₂, rfl⟩

/-- What folds to one symbol is a form of its comparator. -/
theorem mem_forms_of_symbol {comparator : Comparator} (h : Folded cs [comparator.symbol]) :
    cs ∈ comparator.forms := by
  have hsymbol : ∀ {a b : Comparator}, a.symbol = b.symbol → a = b := fun {a b} => by
    cases a <;> cases b <;> decide
  generalize hs : comparator.symbol = s at h
  cases h with
  | keep _ h =>
    cases h
    rw [← hs]
    cases comparator <;> exact List.mem_cons_self
  | fold hform h =>
    cases h
    rw [hsymbol hs, List.append_nil]
    exact hform

/-- What folds to parts with a word between them consists of what folds to each part. -/
theorem exists_intercalate {sep : List Char} (hsep : ∀ c ∈ sep, Comparator.isSymbol c = false)
    {parts : List (List Char)} (h : Folded cs (sep.intercalate parts)) :
    ∃ pieces, cs = sep.intercalate pieces ∧ List.Forall₂ Folded pieces parts := by
  induction parts generalizing cs with
  | nil => exact ⟨[], h.eq_of_no_symbol nofun, .nil⟩
  | cons p parts ih =>
    cases parts with
    | nil =>
      rw [List.intercalate_singleton] at h
      exact ⟨[cs], List.intercalate_singleton.symm, .cons h .nil⟩
    | cons q parts =>
      rw [List.intercalate_cons_cons] at h
      obtain ⟨cs₁, rest, rfl, h₁, hrest⟩ := h.exists_append
      obtain ⟨piece, word, rfl, hpiece, hword⟩ := h₁.exists_append
      obtain ⟨pieces, rfl, hall⟩ := ih hrest
      obtain rfl := hword.eq_of_no_symbol hsep
      cases hall with
      | cons hq hall =>
        exact ⟨piece :: _ :: _, (List.intercalate_cons_cons ..).symm, .cons hpiece (.cons hq hall)⟩

end Folded

/-! ## Comparators that are folded twice -/

namespace Comparator

/-- The texts of which folding twice can make the comparator, if white space keeps some characters
apart the first time. -/
def signs : Comparator → List (List Char)
  | equal => [['='], ['=', '='], ['=', '=', '='], ['=', '=', '=', '=']]
  | notEqual => [['≠'], ['!', '='], ['!', '=', '=']]
  | lessThan => [['<']]
  | lessThanOrEqual => [['≤'], ['<', '='], ['<', '=', '=']]
  | greaterThan => [['>']]
  | greaterThanOrEqual => [['≥'], ['>', '='], ['>', '=', '=']]

theorem eq_of_mem_signs {a b : Comparator} {signs : List Char} (ha : signs ∈ a.signs)
    (hb : signs ∈ b.signs) : a = b := by
  revert signs
  cases a <;> cases b <;> decide

theorem isOperator_of_mem_signs {comparator : Comparator} {signs : List Char}
    (h : signs ∈ comparator.signs) :
    signs ≠ [] ∧ ∀ c ∈ signs, Condition.isOperator c = true ∧ Comparison.isPlain c = false := by
  revert signs
  cases comparator <;> decide

theorem mem_signs_of_mem_forms {comparator : Comparator} {form : List Char}
    (h : form ∈ comparator.forms) : form ∈ comparator.signs := by
  revert form
  cases comparator <;> decide

/-- A spelling of two characters is made of something for each of them. -/
theorem mem_signs_of_pair {comparator : Comparator} {signs : List Char} {c : Char}
    {firsts : List (List Char)} (hfirsts : ∀ {first}, Folded first [c] → first ∈ firsts)
    (hall : ∀ first ∈ firsts, ∀ rest ∈ equal.forms, first ++ rest ∈ comparator.signs)
    (h : Folded signs [c, '=']) : signs ∈ comparator.signs := by
  have hpair : Folded signs ([c] ++ [equal.symbol]) := h
  obtain ⟨first, rest, rfl, hfirst, hrest⟩ := hpair.exists_append
  exact hall first (hfirsts hfirst) rest hrest.mem_forms_of_symbol

/-- What folds to a spelling of a comparator is one of its signs. -/
theorem mem_signs_of_folded {comparator : Comparator} {signs form : List Char}
    (h : Folded signs form) (hform : form ∈ comparator.forms) : signs ∈ comparator.signs := by
  have hsymbol : form = [comparator.symbol] → signs ∈ comparator.signs := fun hform =>
    mem_signs_of_mem_forms (Folded.mem_forms_of_symbol (hform ▸ h))
  cases comparator with
  | lessThan | greaterThan => exact hsymbol (List.mem_singleton.1 hform)
  | equal =>
    refine (List.mem_cons.1 hform).elim hsymbol fun hform => ?_
    obtain rfl := List.mem_singleton.1 hform
    have hfirst : ∀ {first}, Folded first [equal.symbol] → first ∈ equal.forms :=
      Folded.mem_forms_of_symbol
    exact mem_signs_of_pair hfirst (by decide) h
  | notEqual =>
    refine (List.mem_cons.1 hform).elim hsymbol fun hform => ?_
    obtain rfl := List.mem_singleton.1 hform
    have hfirst : ∀ {first}, Folded first ['!'] → first ∈ [['!']] := fun hfirst =>
      List.mem_singleton.2 (hfirst.eq_of_no_symbol (by decide))
    exact mem_signs_of_pair hfirst (by decide) h
  | lessThanOrEqual =>
    refine (List.mem_cons.1 hform).elim hsymbol fun hform => ?_
    obtain rfl := List.mem_singleton.1 hform
    have hfirst : ∀ {first}, Folded first [lessThan.symbol] → first ∈ lessThan.forms :=
      Folded.mem_forms_of_symbol
    exact mem_signs_of_pair hfirst (by decide) h
  | greaterThanOrEqual =>
    refine (List.mem_cons.1 hform).elim hsymbol fun hform => ?_
    obtain rfl := List.mem_singleton.1 hform
    have hfirst : ∀ {first}, Folded first [greaterThan.symbol] → first ∈ greaterThan.forms :=
      Folded.mem_forms_of_symbol
    exact mem_signs_of_pair hfirst (by decide) h

end Comparator

end Appearance
