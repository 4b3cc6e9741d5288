import Appearance.Condition.Code
import Appearance.Proofs.Normalization
import Appearance.Proofs.Numerals
import Appearance.Proofs.Runs
import Mathlib.Data.List.Infix

/-!
# Spellings of conditions

A conjunction of comparisons has many spellings (`Comparison.SpelledAll`): letters in either case,
comparators in each of their forms, white space or none around comparators and around `and`, and
quotes anywhere (`Comparison.Spells`). Normalizing takes them all to one form up to single spaces
(`Comparison.SpelledAll.exists_normal`), the parts between the joining words spell the comparisons
again (`Comparison.Normal.parts`), and each is read as the comparison that it spells
(`Comparison.Spelled.parse`). So every spelling is read as the comparisons that it spells
(`Condition.parse_spelling`).

The text is never compared with a normal form as a whole. Each step of normalizing is described by
what it does to a spelling: quotes go, letters become small, comparators become symbols, and of
white space at most one character stays. A spelled conjunction is kept as a list of comparisons and
of what was written between them, and the induction is over this list. The joining word is found
again because no token of a comparison has it in it.
-/

namespace Appearance

open Appearance.Text

/-! ## Texts without quotes -/

/-- Without quotes and with letters of ASCII only, the case of a text is lowered letter by letter
and the rest of normalizing follows. -/
theorem Condition.normalize_eq_squeeze {cs : List Char}
    (h : ∀ d ∈ cs, LowersAlone d ∧ isQuote d = false) :
    normalize cs = squeeze (foldComparators (cs.map Char.toLower)) := by
  rw [normalize, filter_isQuote fun d hd => (h d hd).2, lowercase_eq_map fun d hd => (h d hd).1]
  rfl

/-! ## Tokens -/

/-- The tokens of a metric, in small letters. -/
def Metric.tokens : Metric → List String
  | fixedWidth => ["fixedwidth"]
  | fixedHeight => ["fixedheight"]
  | width => ["width"]
  | height => ["height"]
  | horizontal => ["horizontal"]
  | vertical => ["vertical"]
  | idiom => ["idiom"]
  | contentSize => ["contentsize", "category"]

/-- The token of a content size, in small letters. -/
def ContentSize.token : ContentSize → String
  | extraSmall => "xs"
  | small => "s"
  | medium => "m"
  | large => "l"
  | extraLarge => "xl"
  | extraExtraLarge => "xxl"
  | extraExtraExtraLarge => "xxxl"
  | accessibilityMedium => "am"
  | accessibilityLarge => "al"
  | accessibilityExtraLarge => "axl"
  | accessibilityExtraExtraLarge => "axxl"
  | accessibilityExtraExtraExtraLarge => "axxxl"

/-- The token of a term that is no number, in small letters. -/
def Term.token? : Term → Option String
  | regular => some "regular"
  | compact => some "compact"
  | fixedWidth => some "fixedwidth"
  | fixedHeight => some "fixedheight"
  | width => some "width"
  | height => some "height"
  | pad => some "pad"
  | phone => some "phone"
  | constant _ => none
  | contentSize size => some size.token

/-- The text stands for the term: its token, or a numeral with its value. -/
inductive Term.Written : Term → List Char → Prop
  | token {t : Term} {token : String} : t.token? = some token → Term.Written t token.toList
  | numeral (n : Numeral) : n.value.isFinite = true → Term.Written (.constant n.value) n.text

/-- A comparison without a spelling. -/
structure Comparison where
  left : Metric
  comparator : Comparator
  right : Term
  deriving DecidableEq, Repr

namespace Comparison

def toSwift (c : Comparison) : String :=
  c.left.toSwift ++ " " ++ c.comparator.toSwift ++ " " ++ c.right.toSwift

/-! ## Spellings -/

/-- A spelling of a comparison. -/
inductive Spelled : List Char → Comparison → Prop
  | mk {c : Comparison} {token : String} {left right form text b₁ b₂ b₃ b₄ : List Char} :
    token ∈ c.left.tokens → left.map Char.toLower = token.toList →
    form ∈ c.comparator.forms →
    c.right.Written text → right.map Char.toLower = text →
    Blank b₁ → Blank b₂ → Blank b₃ → Blank b₄ →
    Spelled (b₁ ++ (left ++ (b₂ ++ (form ++ (b₃ ++ (right ++ b₄)))))) c

/-- A spelling of a conjunction of comparisons; there is at least one. -/
inductive SpelledAll : List Char → List Comparison → Prop
  | last {cs : List Char} {c : Comparison} : Spelled cs c → SpelledAll cs [c]
  | more {cs joining rest : List Char} {c : Comparison} {others : List Comparison} :
    Spelled cs c → joining.map Char.toLower = Condition.conjunction →
    SpelledAll rest others → SpelledAll (cs ++ (joining ++ rest)) (c :: others)

/-- The string is a spelling of the conjunction, once quotes are left out. -/
def Spells (s : String) (comparisons : List Comparison) : Prop :=
  SpelledAll (s.toList.filter fun c => !Condition.isQuote c) comparisons

/-! ## Plain words -/

/-- A character of a token in small letters or of a numeral. -/
def isPlain (c : Char) : Bool := c.isLower || Numeral.isFigure c

/-- A token in small letters or a numeral: its characters are plain, and neither the joining word
nor the word of the fallback is found in it. -/
structure PlainWord (w : List Char) : Prop where
  ne_nil : w ≠ []
  isPlain : ∀ c ∈ w, isPlain c = true
  not_joining : ¬ ['a', 'n'] <:+: w
  not_fallback : ¬ Condition.fallbackWord <:+: w

instance (w : List Char) : Decidable (PlainWord w) :=
  decidable_of_iff (w ≠ [] ∧ (∀ c ∈ w, isPlain c = true) ∧ ¬ ['a', 'n'] <:+: w ∧
      ¬ Condition.fallbackWord <:+: w)
    ⟨fun ⟨hne, hplain, hjoining, hfallback⟩ => ⟨hne, hplain, hjoining, hfallback⟩,
      fun h => ⟨h.ne_nil, h.isPlain, h.not_joining, h.not_fallback⟩⟩

/-- A plain character is a small letter, a digit, a sign or a point. -/
theorem toNat_of_isPlain {c : Char} (h : isPlain c = true) :
    97 ≤ c.toNat ∧ c.toNat ≤ 122 ∨ 48 ≤ c.toNat ∧ c.toNat ≤ 57 ∨ c.toNat = 43 ∨ c.toNat = 45 ∨
      c.toNat = 46 := by
  simp only [isPlain, Numeral.isFigure, Bool.or_eq_true, beq_iff_eq] at h
  rcases h with h | (((h | h) | h) | h) | h
  · exact .inl (isLower_iff.1 h)
  · simp only [Char.isDigit, Bool.and_eq_true, decide_eq_true_eq] at h
    exact .inr (.inl ⟨h.1, h.2⟩)
  all_goals
    subst h
    decide

theorem isBlank_of_isPlain {c : Char} (h : isPlain c = true) : isBlank c = false := by
  have hc := toNat_of_isPlain h
  rw [Bool.eq_false_iff]
  intro hblank
  simp only [isBlank, Bool.or_eq_true, Bool.and_eq_true, decide_eq_true_eq, beq_iff_eq] at hblank
  omega

theorem isSymbol_of_isPlain {c : Char} (h : isPlain c = true) : Comparator.isSymbol c = false := by
  unfold Comparator.isSymbol Comparator.ofSymbol?
  split
  all_goals first | rfl | exact absurd h (by decide)

theorem isFree_of_isPlain {c : Char} (h : isPlain c = true) : Condition.isFree c = true := by
  simp only [Condition.isFree, Bool.and_eq_true, bne_iff_ne]
  refine ⟨⟨⟨?_, ?_⟩, ?_⟩, ?_⟩
  all_goals
    rintro rfl
    exact absurd h (by decide)

theorem toLower_of_isPlain {c : Char} (h : isPlain c = true) : c.toLower = c := by
  have hc := toNat_of_isPlain h
  exact toLower_eq_self (by omega)

/-- A letter whose small letter is plain is an ASCII character and no quote. -/
theorem lowersAlone_of_toLower {c : Char} (h : isPlain c.toLower = true) :
    LowersAlone c ∧ Condition.isQuote c = false := by
  constructor
  · by_cases hc : c.toNat < 128
    · exact lowersAlone_of_lt hc
    · rw [toLower_of_le (Nat.le_of_not_lt hc)] at h
      have := toNat_of_isPlain h
      omega
  · rw [Bool.eq_false_iff]
    intro hquote
    simp only [Condition.isQuote, Bool.or_eq_true, beq_iff_eq] at hquote
    rcases hquote with rfl | rfl <;> exact absurd h (by decide)

/-- A word whose small letters are plain is written in ASCII characters and has no quotes. -/
theorem lowersAlone_of_map_toLower {w lowered : List Char} (h : w.map Char.toLower = lowered)
    (hlowered : ∀ d ∈ lowered, isPlain d = true) :
    ∀ d ∈ w, LowersAlone d ∧ Condition.isQuote d = false := fun _ hd =>
  lowersAlone_of_toLower (hlowered _ (h ▸ List.mem_map_of_mem hd))

theorem PlainWord.map_toLower {w : List Char} (h : PlainWord w) : w.map Char.toLower = w := by
  have hid : ∀ c ∈ w, c.toLower = id c := fun c hc => toLower_of_isPlain (h.isPlain c hc)
  rw [List.map_congr_left hid, List.map_id]

theorem PlainWord.solid {w : List Char} (h : PlainWord w) : Solid w := fun c hc =>
  isBlank_of_isPlain (h.isPlain c hc)

theorem plainWord_of_mem_tokens {m : Metric} {token : String} (h : token ∈ m.tokens) :
    Metric.ofToken? token = some m ∧ PlainWord token.toList := by
  revert token
  cases m <;> decide

theorem ContentSize.plainWord_token (size : ContentSize) :
    Term.ofToken? size.token = some (.contentSize size) ∧ PlainWord size.token.toList := by
  cases size <;> decide

/-- What is written on the right of a comparison is a plain word that is read as the term. -/
theorem plainWord_of_written {t : Term} {text : List Char} (h : t.Written text) :
    Term.ofToken? (String.ofList text) = some t ∧ PlainWord text := by
  cases h with
  | token htoken =>
    rw [String.ofList_toList]
    cases t with
    | constant value => cases htoken
    | contentSize size =>
      cases htoken
      exact ContentSize.plainWord_token size
    | _ =>
      cases htoken
      decide
  | numeral n hfinite =>
    have hfigures := n.isFigure_text
    refine ⟨?_, n.text_ne_nil, fun c hc => ?_, fun h => ?_, fun h => ?_⟩
    · unfold Term.ofToken?
      rw [n.constant?_text hfinite]
    · rw [isPlain, hfigures c hc, Bool.or_true]
    · exact absurd (hfigures 'a' (h.subset (by decide))) (by decide)
    · exact absurd (hfigures 'd' (h.subset (by decide))) (by decide)

/-! ## Normalizing a spelling -/

/-- The text consists of the token of the left side and of what stands for the right side, in small
letters, with the symbol of the comparator between them. -/
structure Sides (l r : List Char) (c : Comparison) : Prop where
  left : ∃ token ∈ c.left.tokens, l = token.toList
  right : c.right.Written r

section Sides

variable {l r : List Char} {c : Comparison}

theorem Sides.plainWord_left (h : Sides l r c) : PlainWord l := by
  obtain ⟨token, htoken, rfl⟩ := h.left
  exact (plainWord_of_mem_tokens htoken).2

theorem Sides.plainWord_right (h : Sides l r c) : PlainWord r := (plainWord_of_written h.right).2

theorem Sides.ofToken?_left (h : Sides l r c) :
    Metric.ofToken? (String.ofList l) = some c.left := by
  obtain ⟨token, htoken, rfl⟩ := h.left
  rw [String.ofList_toList]
  exact (plainWord_of_mem_tokens htoken).1

theorem Sides.ofToken?_right (h : Sides l r c) : Term.ofToken? (String.ofList r) = some c.right :=
  (plainWord_of_written h.right).1

theorem isSymbol_symbol (comparator : Comparator) :
    Comparator.isSymbol comparator.symbol = true := by
  cases comparator <;> rfl

/-- Between the sides normalizing leaves the symbol only. -/
theorem Sides.squeeze (h : Sides l r c) {b₂ b₃ : List Char} (hb₂ : Blank b₂) (hb₃ : Blank b₃)
    (rest : List Char) :
    Condition.squeeze (l ++ (b₂ ++ c.comparator.symbol :: (b₃ ++ (r ++ rest)))) =
      l ++ c.comparator.symbol :: Condition.squeeze (r ++ rest) := by
  have hsymbol := isSymbol_symbol c.comparator
  have hsolid : isBlank c.comparator.symbol = false := by cases c.comparator <;> rfl
  have hr := h.plainWord_right
  cases r with
  | nil => exact absurd rfl hr.ne_nil
  | cons d r =>
    have hd : isBlank d = false := hr.solid d List.mem_cons_self
    have hright := Condition.squeeze_append (w := [c.comparator.symbol])
      (List.forall_mem_singleton.2 hsolid) (List.cons_ne_nil _ _) hb₃ hd (r ++ rest)
    rw [Condition.gap_after_symbol hsymbol] at hright
    rw [Condition.squeeze_append h.plainWord_left.solid h.plainWord_left.ne_nil hb₂ hsolid,
      Condition.gap_symbol _ _ hsymbol]
    exact congrArg (l ++ ·) hright

end Sides

theorem forms_lowersAlone {comparator : Comparator} {form : List Char}
    (h : form ∈ comparator.forms) :
    (∀ d ∈ form, LowersAlone d ∧ Condition.isQuote d = false) ∧ form.map Char.toLower = form := by
  revert form
  cases comparator <;> decide +kernel

/-- A spelling has no quotes, and lowering its case changes ASCII letters only. -/
theorem Spelled.lowersAlone {cs : List Char} {c : Comparison} (h : Spelled cs c) :
    ∀ d ∈ cs, LowersAlone d ∧ Condition.isQuote d = false := by
  cases h with
  | mk htoken hleft hform hwritten hright hb₁ hb₂ hb₃ hb₄ =>
    simp only [List.forall_mem_append]
    exact ⟨Condition.lowersAlone_of_blank hb₁,
      lowersAlone_of_map_toLower hleft (plainWord_of_mem_tokens htoken).2.isPlain,
      Condition.lowersAlone_of_blank hb₂, (forms_lowersAlone hform).1,
      Condition.lowersAlone_of_blank hb₃,
      lowersAlone_of_map_toLower hright (plainWord_of_written hwritten).2.isPlain,
      Condition.lowersAlone_of_blank hb₄⟩

/-- With its case lowered and its comparator folded a spelling consists of its sides, the symbol
and white space. -/
theorem Spelled.exists_sides {cs : List Char} {c : Comparison} (h : Spelled cs c) :
    ∃ b₁ l b₂ b₃ r b₄, Sides l r c ∧ Blank b₁ ∧ Blank b₂ ∧ Blank b₃ ∧ Blank b₄ ∧
      ∀ rest, Condition.foldComparators (cs.map Char.toLower ++ rest) =
        b₁ ++ (l ++ (b₂ ++ c.comparator.symbol :: (b₃ ++ (r ++ (b₄ ++
          Condition.foldComparators rest))))) := by
  cases h with
  | @mk c token left right form text b₁ b₂ b₃ b₄ htoken hleft hform hwritten hright hb₁ hb₂ hb₃
      hb₄ =>
    have hsides : Sides token.toList text c := ⟨⟨token, htoken, rfl⟩, hwritten⟩
    have hl : ∀ d ∈ token.toList, Condition.isFree d = true := fun d hd =>
      isFree_of_isPlain (hsides.plainWord_left.isPlain d hd)
    have hr : ∀ d ∈ text, Condition.isFree d = true := fun d hd =>
      isFree_of_isPlain (hsides.plainWord_right.isPlain d hd)
    refine ⟨b₁, token.toList, b₂, b₃, text, b₄, hsides, hb₁, hb₂, hb₃, hb₄, fun rest => ?_⟩
    -- What follows the comparator does not continue it: it is blank or begins the right side.
    obtain ⟨d, ds, hds, hd⟩ : ∃ d ds, b₃ ++ (text ++ (b₄ ++ rest)) = d :: ds ∧ d ≠ '=' := by
      cases b₃ with
      | cons d b₃ =>
        refine ⟨d, _, rfl, ?_⟩
        rintro rfl
        exact absurd (hb₃ '=' List.mem_cons_self) (by decide)
      | nil =>
        cases text with
        | nil => exact absurd rfl hsides.plainWord_right.ne_nil
        | cons d text =>
          refine ⟨d, _, rfl, ?_⟩
          rintro rfl
          exact absurd (hr '=' List.mem_cons_self) (by decide)
    simp only [List.map_append, hb₁.map_toLower, hb₂.map_toLower, hb₃.map_toLower,
      hb₄.map_toLower, hleft, hright, (forms_lowersAlone hform).2, List.append_assoc]
    rw [Condition.foldComparators_blank hb₁, Condition.foldComparators_append hl,
      Condition.foldComparators_blank hb₂, hds, Condition.foldComparators_form hform hd, ← hds,
      Condition.foldComparators_blank hb₃, Condition.foldComparators_append hr,
      Condition.foldComparators_blank hb₄]

/-- A normalized comparison: its sides and the symbol. -/
theorem Spelled.exists_normalize {cs : List Char} {c : Comparison} (h : Spelled cs c) :
    ∃ l r, Sides l r c ∧ Condition.normalize cs = l ++ c.comparator.symbol :: r := by
  obtain ⟨b₁, l, b₂, b₃, r, b₄, hsides, hb₁, hb₂, hb₃, hb₄, hfold⟩ := h.exists_sides
  have hall := hfold []
  rw [List.append_nil, Condition.foldComparators, List.append_nil] at hall
  refine ⟨l, r, hsides, ?_⟩
  rw [Condition.normalize_eq_squeeze h.lowersAlone, hall, Condition.squeeze_blank hb₁,
    hsides.squeeze hb₂ hb₃,
    Condition.squeeze_solid hsides.plainWord_right.solid hsides.plainWord_right.ne_nil hb₄]

/-- The normalized form of a conjunction: normalized comparisons, with the joining word between
them and perhaps a space on each side of it. -/
inductive Normal : List Char → List Comparison → Prop
  | last {l r : List Char} {c : Comparison} : Sides l r c →
    Normal (l ++ c.comparator.symbol :: r) [c]
  | more {l r g g' rest : List Char} {c : Comparison} {others : List Comparison} : Sides l r c →
    g = [] ∨ g = [' '] → g' = [] ∨ g' = [' '] → Normal rest others →
    Normal (l ++ c.comparator.symbol :: (r ++ (g ++ (Condition.conjunction ++ (g' ++ rest)))))
      (c :: others)

theorem lowersAlone_conjunction {w : List Char} (h : w.map Char.toLower = Condition.conjunction) :
    ∀ d ∈ w, LowersAlone d ∧ Condition.isQuote d = false :=
  lowersAlone_of_map_toLower h (by decide)

/-- Every spelling has the normalized form, and begins with white space and a letter. -/
theorem SpelledAll.exists_normal {cs : List Char} {comparisons : List Comparison}
    (h : SpelledAll cs comparisons) :
    (∀ d ∈ cs, LowersAlone d) ∧ ∃ b d ds, Blank b ∧ isBlank d = false ∧
      Condition.foldComparators (cs.map Char.toLower) = b ++ d :: ds ∧
      Normal (Condition.squeeze (d :: ds)) comparisons := by
  have hsplit : ∀ {l : List Char}, PlainWord l → ∃ d l', l = d :: l' ∧ isBlank d = false := by
    intro l hl
    cases l with
    | nil => exact absurd rfl hl.ne_nil
    | cons d l => exact ⟨d, l, rfl, hl.solid d List.mem_cons_self⟩
  induction h with
  | @last cs c hc =>
    obtain ⟨b₁, l, b₂, b₃, r, b₄, hsides, hb₁, hb₂, hb₃, hb₄, hfold⟩ := hc.exists_sides
    obtain ⟨d, l, rfl, hd⟩ := hsplit hsides.plainWord_left
    have hall := hfold []
    rw [List.append_nil, Condition.foldComparators, List.append_nil] at hall
    refine ⟨fun d hd => (hc.lowersAlone d hd).1, b₁, d, _, hb₁, hd, hall, ?_⟩
    have hsqueeze := hsides.squeeze hb₂ hb₃ b₄
    rw [Condition.squeeze_solid hsides.plainWord_right.solid hsides.plainWord_right.ne_nil hb₄]
      at hsqueeze
    exact hsqueeze ▸ Normal.last hsides
  | @more cs joining rest c others hc hjoining hrest ih =>
    obtain ⟨b₁, l, b₂, b₃, r, b₄, hsides, hb₁, hb₂, hb₃, hb₄, hfold⟩ := hc.exists_sides
    obtain ⟨hlowers, b, e, es, hb, he, hfoldRest, hnormal⟩ := ih
    obtain ⟨d, l, rfl, hd⟩ := hsplit hsides.plainWord_left
    have hjoin : Condition.foldComparators ((joining ++ rest).map Char.toLower) =
        Condition.conjunction ++ (b ++ e :: es) := by
      rw [List.map_append, hjoining, Condition.foldComparators_append (by decide), hfoldRest]
    have hall := hfold ((joining ++ rest).map Char.toLower)
    rw [hjoin, ← List.map_append] at hall
    refine ⟨List.forall_mem_append.2 ⟨fun d hd => (hc.lowersAlone d hd).1,
      List.forall_mem_append.2 ⟨fun d hd => (lowersAlone_conjunction hjoining d hd).1, hlowers⟩⟩,
      b₁, d, _, hb₁, hd, hall, ?_⟩
    obtain ⟨g, g', hg, hg', hjoined⟩ := Condition.exists_squeeze_conjunction
      hsides.plainWord_right.solid hsides.plainWord_right.ne_nil hb₄ hb he es
    have hsqueeze := hsides.squeeze hb₂ hb₃ (b₄ ++ (Condition.conjunction ++ (b ++ e :: es)))
    rw [hjoined] at hsqueeze
    exact hsqueeze ▸ Normal.more hsides hg hg' hnormal

/-! ## Reading a spelling -/

/-- The sides in small letters spell the comparison again, with spaces around them. -/
theorem Sides.spelled {l r g g' : List Char} {c : Comparison} (h : Sides l r c) (hg : Blank g)
    (hg' : Blank g') : Spelled (g ++ (l ++ c.comparator.symbol :: (r ++ g'))) c := by
  obtain ⟨token, htoken, hl⟩ := h.left
  have hform : [c.comparator.symbol] ∈ c.comparator.forms := by
    cases c.comparator <;> exact List.mem_cons_self
  exact @Spelled.mk c token l r [c.comparator.symbol] r g [] [] g' htoken
    (h.plainWord_left.map_toLower.trans hl) hform h.right h.plainWord_right.map_toLower hg nofun
    nofun hg'

theorem blank_of_gap {g : List Char} (hg : g = [] ∨ g = [' ']) : Blank g := by
  rcases hg with rfl | rfl
  · nofun
  · exact List.forall_mem_singleton.2 rfl

/-- The letters at the beginning of the joining word are not found in a comparison. -/
theorem Sides.not_joining {l r g g' : List Char} {c : Comparison} (h : Sides l r c)
    (hg : g = [] ∨ g = [' ']) (hg' : g' = [] ∨ g' = [' ']) :
    ¬ ['a', 'n'] <:+: g ++ (l ++ c.comparator.symbol :: (r ++ g')) := by
  have hsymbol : c.comparator.symbol ∉ ['a', 'n'] := by cases c.comparator <;> decide
  intro hinfix
  rw [← List.append_assoc] at hinfix
  rcases infix_of_infix_append_cons hinfix hsymbol with hl | hr
  · refine h.plainWord_left.not_joining ?_
    rcases hg with rfl | rfl
    · exact hl
    · exact (infix_of_infix_append_cons (l := []) hl (by decide)).resolve_left (by decide)
  · refine h.plainWord_right.not_joining ?_
    rcases hg' with rfl | rfl
    · rwa [List.append_nil] at hr
    · exact (infix_of_infix_append_cons (r := []) hr (by decide)).resolve_right (by decide)

/-- Between the joining words of a normalized conjunction its comparisons are spelled. -/
theorem Normal.parts {cs : List Char} {comparisons : List Comparison} (h : Normal cs comparisons)
    {g : List Char} (hg : g = [] ∨ g = [' ']) :
    List.Forall₂ Spelled (splitAtText Condition.conjunction (g ++ cs)) comparisons := by
  induction h generalizing g with
  | @last l r c hsides =>
    have hnil : ([] : List Char) = [] ∨ ([] : List Char) = [' '] := .inl rfl
    have hspelled := hsides.spelled (blank_of_gap hg) (blank_of_gap hnil)
    have hnot := hsides.not_joining hg hnil
    rw [List.append_nil] at hspelled hnot
    have hsplit : splitAtText Condition.conjunction (g ++ (l ++ c.comparator.symbol :: r)) = _ :=
      splitAtText_of_not_infix hnot
    rw [hsplit]
    exact .cons hspelled .nil
  | @more l r g₁ g₂ rest c others hsides hg₁ hg₂ _ ih =>
    have hspelled := hsides.spelled (blank_of_gap hg) (blank_of_gap hg₁)
    have hsplit := Condition.splitAtText_conjunction (hsides.not_joining hg hg₁) (g₂ ++ rest)
    simp only [List.append_assoc, List.cons_append] at hsplit
    rw [hsplit]
    exact .cons hspelled (ih hg₂)

/-- Two sides with the symbol between them are read as the comparison. -/
theorem Sides.ofNormalized {l r : List Char} {c : Comparison} (h : Sides l r c) :
    Expression.ofNormalized (l ++ c.comparator.symbol :: r) =
      .ok (.comparison (String.ofList (l ++ c.comparator.symbol :: r)) c.left c.comparator
        c.right) := by
  have hnone : ∀ {w : List Char}, PlainWord w → ∀ d ∈ w, Comparator.isSymbol d = false :=
    fun hw d hd => isSymbol_of_isPlain (hw.isPlain d hd)
  have hfind : (l ++ c.comparator.symbol :: r).findSome? Comparator.ofSymbol? =
      some c.comparator := by
    have hleft : l.findSome? Comparator.ofSymbol? = none :=
      List.findSome?_eq_none_iff.2 fun d hd => by
        simpa [Comparator.isSymbol] using hnone h.plainWord_left d hd
    rw [List.findSome?_append, hleft, List.findSome?_cons, Comparator.ofSymbol?_symbol]
    rfl
  rw [Expression.ofNormalized, splitAtChars_pair (hnone h.plainWord_left)
    (isSymbol_symbol c.comparator) (hnone h.plainWord_right), hfind]
  dsimp only
  rw [trimChars_solid h.plainWord_left.solid, trimChars_solid h.plainWord_right.solid,
    Expression.ofTokens, h.ofToken?_left,
    h.ofToken?_right]

/-- A spelling is read as the comparison that it spells. -/
theorem Spelled.parse {cs : List Char} {c : Comparison} (h : Spelled cs c) :
    ∃ raw, Expression.parse cs = .ok (.comparison raw c.left c.comparator c.right) := by
  obtain ⟨l, r, hsides, hnormalize⟩ := h.exists_normalize
  have hfallback : containsText Condition.fallbackWord (l ++ c.comparator.symbol :: r) = false := by
    have hsymbol : c.comparator.symbol ∉ Condition.fallbackWord := by
      cases c.comparator <;> decide
    rw [Bool.eq_false_iff, Ne, containsText_iff]
    intro hinfix
    exact (infix_of_infix_append_cons hinfix hsymbol).elim hsides.plainWord_left.not_fallback
      hsides.plainWord_right.not_fallback
  refine ⟨String.ofList (l ++ c.comparator.symbol :: r), ?_⟩
  rw [Expression.parse, hnormalize, hfallback, if_neg nofun, hsides.ofNormalized]

end Comparison

/-- The expression is the comparison, with some spelling. -/
def Expression.States (e : Expression) (c : Comparison) : Prop :=
  ∃ raw, e = .comparison raw c.left c.comparator c.right

/-- Expressions that state comparisons are printed as these. -/
theorem map_toSwift_of_states {es : List Expression} {comparisons : List Comparison}
    (h : List.Forall₂ Expression.States es comparisons) :
    es.map Expression.toSwift = comparisons.map Comparison.toSwift := by
  induction h with
  | nil => rfl
  | cons hstates _ ih =>
    obtain ⟨raw, rfl⟩ := hstates
    rw [List.map_cons, List.map_cons, ih]
    rfl

/-- Every spelling of a conjunction of comparisons is read as these comparisons, in order, and is
rendered as their conjunction. -/
theorem Condition.parse_spelling {s : String} {comparisons : List Comparison}
    (h : Comparison.Spells s comparisons) :
    ∃ c, parse s = .ok c ∧ List.Forall₂ Expression.States c.expressions comparisons ∧
      c.toSwift = " && ".intercalate (comparisons.map Comparison.toSwift) := by
  obtain ⟨hlowers, b, d, ds, hb, -, hfold, hnormal⟩ := h.exists_normal
  have hnormalize : normalize s.toList = squeeze (d :: ds) := by
    rw [normalize, lowercase_eq_map hlowers, hfold]
    exact squeeze_blank hb _
  have hparts := hnormal.parts (g := []) (.inl rfl)
  rw [List.nil_append, ← hnormalize] at hparts
  obtain ⟨es, hes, hstates⟩ :=
    exists_mapM_of_forall₂ (S := Expression.States) hparts fun part c hpart =>
    have ⟨raw, hraw⟩ := hpart.parse
    ⟨_, hraw, raw, rfl⟩
  refine ⟨⟨String.ofList (normalize s.toList), es⟩, ?_, hstates, ?_⟩
  · rw [parse, parseChars, hes]
  · rw [toSwift, map_toSwift_of_states hstates]

/-- The number 150, written `1.5e2`. -/
def numeral150 : Numeral :=
  ⟨.none, ['1'], some ['5'], some ⟨.none, ['2'], by decide, by decide⟩, by decide, by decide,
    by decide⟩

/-- Letters in both cases, comparators of two characters, quotes and white space. -/
def mixedSpelling : String := "Width >'=1.5E2aNd  \"idiom\"!=\tPad "

def mixedComparisons : List Comparison :=
  [⟨.width, .greaterThanOrEqual, .constant numeral150.value⟩, ⟨.idiom, .notEqual, .pad⟩]

/-- Case, forms, numbers, white space and quotes may all vary in one text. -/
theorem spells_mixedSpelling : Comparison.Spells mixedSpelling mixedComparisons := by
  have hfirst : Comparison.Spelled "Width >=1.5E2".toList
      ⟨.width, .greaterThanOrEqual, .constant numeral150.value⟩ :=
    @Comparison.Spelled.mk _ "width" "Width".toList "1.5E2".toList ['>', '='] _ [] [' '] [] []
      (by decide) (by decide) (by decide) (.numeral numeral150 (by decide +kernel)) (by decide)
      (by decide) (by decide) (by decide) (by decide)
  have hsecond : Comparison.Spelled "  idiom!=\tPad ".toList ⟨.idiom, .notEqual, .pad⟩ :=
    @Comparison.Spelled.mk _ "idiom" "idiom".toList "Pad".toList ['!', '='] "pad".toList
      [' ', ' '] [] ['\t'] [' '] (by decide) (by decide) (by decide) (.token rfl) (by decide)
      (by decide) (by decide) (by decide) (by decide)
  have hjoining : "aNd".toList.map Char.toLower = Condition.conjunction := by decide
  have hall := Comparison.SpelledAll.more hfirst hjoining (.last hsecond)
  have hfilter : mixedSpelling.toList.filter (fun c => !Condition.isQuote c) =
      "Width >=1.5E2".toList ++ ("aNd".toList ++ "  idiom!=\tPad ".toList) := by decide
  rw [Comparison.Spells, hfilter]
  exact hall

/-- This text is read as its two comparisons. -/
theorem Condition.parse_mixedSpelling :
    ∃ c, parse mixedSpelling = .ok c ∧
      List.Forall₂ Expression.States c.expressions mixedComparisons ∧
      c.toSwift = " && ".intercalate (mixedComparisons.map Comparison.toSwift) :=
  parse_spelling spells_mixedSpelling

end Appearance
