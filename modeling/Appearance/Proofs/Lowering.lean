import Appearance.Proofs.Spellings

/-!
# Lowered texts

What the lower case of a text tells of the text. A letter beyond ASCII that has a lower case has
one that no condition is made of (`Text.lowerRanges_avoid`), so a text whose lower case consists of
the characters of conditions had ASCII letters only (`Text.lowersAlone_of_lowercaseFrom`), and a
word in the lower case was a word of ASCII letters (`Text.infix_of_lowercase`). Lowering makes
neither capital letters nor quotes (`Text.toLower_of_mem_lowercase`,
`Text.not_isQuote_of_mem_lowercase`).

Conditions are lowered before anything else is done with them, so what a normalized text tells
about the source has to pass through the tables of letter cases. The code points are cut into
regions in which ordinary characters live and the rest, the strange ones; that the ranges of the
table keep to the rest is a computation over the table. Two letters are exceptions and are left out
of the statements: the Kelvin sign becomes a `k`, and a capital I with a dot becomes an `i` with a
mark.
-/

namespace Appearance

open Appearance.Text

namespace Text

/-- Nothing that was made small is a capital letter. -/
theorem isUpper_toLower (c : Char) : c.toLower.isUpper = false := by
  rw [Bool.eq_false_iff, ne_eq, isUpper_iff, toNat_toLower]
  split
  · next h =>
    have := isUpper_iff.1 h
    omega
  · next h => exact fun hc => h (isUpper_iff.2 hc)

theorem isLower_toLower_of_isUpper {c : Char} (h : c.isUpper = true) :
    c.toLower.isLower = true := by
  have hrange := isUpper_iff.1 h
  rw [isLower_iff, toNat_toLower, if_pos h]
  omega

end Text

/-! ## Characters that no condition has -/

namespace Condition

/-- A character in which comparators are written. -/
def isOperator (c : Char) : Bool := !isFree c || Comparator.isSymbol c

/-- A character that a comparison can be made of: one of a token or a numeral, or one in which
comparators are written. No token has the letter `k`. -/
def isOrdinary (c : Char) : Bool := (Comparison.isPlain c && c != 'k') || isOperator c

/-- The code points at which ASCII characters, ordinary characters and white space are found, but
for the letter `k`, which is the lower case of the Kelvin sign too. -/
def regions : List (Nat × Nat) :=
  [(1, 106), (108, 127), (0x80, 0xA0), (0x1680, 0x1680), (0x2000, 0x205F), (0x2260, 0x2265),
    (0x3000, 0x3000)]

/-- The character is in none of the regions. -/
def Strange (c : Char) : Prop := ∀ r ∈ regions, c.toNat < r.1 ∨ r.2 < c.toNat

instance (c : Char) : Decidable (Strange c) := inferInstanceAs (Decidable (∀ r ∈ regions, _))

theorem toNat_of_strange {c : Char} (h : Strange c) : c.toNat = 0 ∨ c.toNat = 107 ∨
    0xA0 < c.toNat ∧ c.toNat ≠ 0x1680 ∧ (c.toNat < 0x2000 ∨ 0x205F < c.toNat) ∧
      (c.toNat < 0x2260 ∨ 0x2265 < c.toNat) ∧ c.toNat ≠ 0x3000 := by
  simp only [Strange, regions, List.forall_mem_cons, List.not_mem_nil, false_implies,
    implies_true, and_true] at h
  omega

theorem isBlank_of_strange {c : Char} (h : Strange c) : isBlank c = false := by
  have hc := toNat_of_strange h
  rw [Bool.eq_false_iff]
  intro hblank
  simp only [isBlank, Bool.or_eq_true, Bool.and_eq_true, decide_eq_true_eq, beq_iff_eq] at hblank
  omega

/-- The characters of comparators. -/
theorem eq_of_isOperator {c : Char} (h : isOperator c = true) :
    c ∈ ['!', '<', '>', '=', '≠', '≤', '≥'] := by
  by_contra hnot
  simp only [List.mem_cons, List.not_mem_nil, or_false, not_or] at hnot
  obtain ⟨h₁, h₂, h₃, h₄, h₅, h₆, h₇⟩ := hnot
  have hfree : isFree c = true := by simp [isFree, h₁, h₂, h₃, h₄]
  rw [isOperator, hfree, Bool.not_true, Bool.false_or, Comparator.isSymbol,
    Comparator.ofSymbol?] at h
  · cases h
  all_goals assumption

/-- No strange character is an ordinary one. -/
theorem isOrdinary_of_strange {c : Char} (h : Strange c) : isOrdinary c = false := by
  have hc := toNat_of_strange h
  rw [Bool.eq_false_iff]
  intro hordinary
  rw [isOrdinary, Bool.or_eq_true, Bool.and_eq_true, bne_iff_ne] at hordinary
  rcases hordinary with ⟨hplain, hk⟩ | hoperator
  · have hne : c.toNat ≠ 107 := fun h107 => hk (Char.ofNat_toNat c ▸ congrArg Char.ofNat h107)
    have := Comparison.toNat_of_isPlain hplain
    omega
  · have hall : ∀ d ∈ ['!', '<', '>', '=', '≠', '≤', '≥'], ¬ Strange d := by decide
    exact hall c (eq_of_isOperator hoperator) h

theorem isQuote_of_strange {c : Char} (h : Strange c) : isQuote c = false := by
  rw [Bool.eq_false_iff]
  intro hquote
  simp only [isQuote, Bool.or_eq_true, beq_iff_eq] at hquote
  rcases hquote with rfl | rfl <;> exact absurd h (by decide)

theorem toLower_of_strange {c : Char} (h : Strange c) : c.toLower = c := by
  have hc := toNat_of_strange h
  exact toLower_eq_self (by omega)

end Condition

namespace Text

open Appearance.Condition

/-- The lower cases of a range that moves avoid the regions of ordinary characters. -/
theorem lowerRanges_avoid : ∀ r ∈ lowerRanges, ∀ region ∈ regions,
    (r.last : Int) + r.shift < region.1 ∨ (region.2 : Int) < r.first + r.shift := by
  decide +kernel

/-- Letters beyond ASCII have strange small letters. -/
theorem strange_shiftChar {r : CaseRange} (hr : r ∈ lowerRanges) {c : Char}
    (hc : r.has c.toNat = true) : Strange (shiftChar c r.shift) := by
  simp only [CaseRange.has, Bool.and_eq_true, decide_eq_true_eq] at hc
  intro region hregion
  have havoid := lowerRanges_avoid r hr region hregion
  have hpos : 0 < region.1 := (by decide : ∀ region ∈ regions, 0 < region.1) region hregion
  by_cases hvalid : ((c.toNat : Int) + r.shift).toNat.isValidChar
  · have hshifted : (shiftChar c r.shift).toNat = ((c.toNat : Int) + r.shift).toNat :=
      congrArg Char.toNat (dif_pos hvalid)
    omega
  · have hshifted : (shiftChar c r.shift).toNat = 0 := congrArg Char.toNat (dif_neg hvalid)
    omega

/-- What a character becomes in lower case: the small letter of ASCII or the character itself, or
else it leaves a character that no condition has, and nothing that a condition could have but the
letter `i`. -/
theorem exists_lowered (before : List Char) (c : Char) (cs : List Char) : ∃ lowered,
    lowercaseFrom before (c :: cs) = lowered ++ lowercaseFrom (c :: before) cs ∧
      (LowersAlone c ∧ lowered = [c.toLower] ∨
        (∃ d ∈ lowered, Strange d) ∧ ∀ d ∈ lowered, Strange d ∨ d = 'i') := by
  have hstrange : ∀ {d : Char}, Strange d →
      (∃ e ∈ [d], Strange e) ∧ ∀ e ∈ [d], Strange e ∨ e = 'i' := fun hd =>
    ⟨⟨_, List.mem_singleton_self _, hd⟩, List.forall_mem_singleton.2 (.inl hd)⟩
  by_cases hsigma : c.toNat = 0x3A3
  · rw [lowercaseFrom, if_pos hsigma]
    split
    · exact ⟨_, rfl, .inr (hstrange (by decide))⟩
    · exact ⟨_, rfl, .inr (hstrange (by decide))⟩
  rw [lowercaseFrom, if_neg hsigma]
  refine ⟨_, rfl, ?_⟩
  by_cases hascii : c.toNat < 128
  · exact .inl ⟨lowersAlone_of_lt hascii, if_pos hascii⟩
  by_cases hdotted : c.toNat = 0x130
  · rw [lowerChars, if_neg hascii, if_pos hdotted]
    have hdot : Strange (Char.ofNat 0x307) := by decide
    exact .inr ⟨⟨_, List.mem_cons_of_mem _ (List.mem_singleton_self _), hdot⟩,
      List.forall_mem_cons.2 ⟨.inr rfl, List.forall_mem_singleton.2 (.inl hdot)⟩⟩
  have hlower : lowerChars c = [shiftChar c (shiftIn lowerRanges c.toNat)] := by
    rw [lowerChars, if_neg hascii, if_neg hdotted]
  cases hfind : lowerRanges.find? (·.has c.toNat) with
  | some r =>
    rw [hlower, shiftIn, hfind]
    have hhas := List.find?_some hfind
    exact .inr (hstrange (strange_shiftChar (List.mem_of_find?_eq_some hfind) hhas))
  | none =>
    have hself : lowerChars c = [c.toLower] := by
      rw [hlower, shiftIn, hfind, toLower_of_le (Nat.le_of_not_lt hascii)]
      simp [shiftChar]
    exact .inl ⟨⟨hself, hsigma⟩, hself⟩

/-- A character in the lower case of a text is that of an ASCII character or of one that lowers to
itself, or it is strange, or an `i`. -/
theorem mem_lowercaseFrom {d : Char} {cs : List Char} {before : List Char}
    (h : d ∈ lowercaseFrom before cs) :
    (∃ c ∈ cs, d = c.toLower) ∨ Strange d ∨ d = 'i' := by
  induction cs generalizing before with
  | nil => cases h
  | cons c cs ih =>
    obtain ⟨lowered, heq, hlowered⟩ := exists_lowered before c cs
    rw [heq, List.mem_append] at h
    rcases h with h | h
    · rcases hlowered with ⟨-, rfl⟩ | ⟨-, hall⟩
      · exact .inl ⟨c, List.mem_cons_self, List.mem_singleton.1 h⟩
      · exact .inr (hall d h)
    · rcases ih h with ⟨e, he, hd⟩ | hd
      · exact .inl ⟨e, List.mem_cons_of_mem c he, hd⟩
      · exact .inr hd

theorem toLower_of_mem_lowercase {d : Char} {cs : List Char} (h : d ∈ lowercase cs) :
    d.toLower = d := by
  rcases mem_lowercaseFrom h with ⟨c, -, rfl⟩ | hd | rfl
  · exact toLower_eq_self (mt isUpper_iff.2 (Bool.eq_false_iff.1 (isUpper_toLower c)))
  · exact toLower_of_strange hd
  · rfl

theorem toLower_of_not_isAlpha {c : Char} (h : c.toLower.isAlpha = false) : c.toLower = c :=
  toLower_eq_self fun hupper => by
    have hlower : c.toLower.isLower = false := (Bool.or_eq_false_iff.1 h).2
    rw [isLower_toLower_of_isUpper (isUpper_iff.2 hupper)] at hlower
    cases hlower

/-- Lowering the case makes no quotes. -/
theorem not_isQuote_of_mem_lowercase {d : Char} {cs : List Char}
    (hcs : ∀ c ∈ cs, isQuote c = false) (h : d ∈ lowercase cs) : isQuote d = false := by
  rcases mem_lowercaseFrom h with ⟨c, hc, rfl⟩ | hd | rfl
  · rw [Bool.eq_false_iff]
    intro hquote
    have halpha : c.toLower.isAlpha = false := by
      simp only [isQuote, Bool.or_eq_true, beq_iff_eq] at hquote
      rcases hquote with hquote | hquote <;> exact hquote ▸ rfl
    rw [toLower_of_not_isAlpha halpha, hcs c hc] at hquote
    cases hquote
  · exact isQuote_of_strange hd
  · rfl

/-- A text whose lower case consists of ordinary characters and white space had no letters with a
lower case but those of ASCII. -/
theorem lowersAlone_of_lowercaseFrom {cs before : List Char}
    (h : ∀ d ∈ lowercaseFrom before cs, isOrdinary d = true ∨ isBlank d = true) :
    ∀ c ∈ cs, LowersAlone c := by
  induction cs generalizing before with
  | nil => nofun
  | cons c cs ih =>
    obtain ⟨lowered, heq, hlowered⟩ := exists_lowered before c cs
    rw [heq, List.forall_mem_append] at h
    refine List.forall_mem_cons.2 ⟨?_, ih h.2⟩
    rcases hlowered with ⟨hc, -⟩ | ⟨⟨d, hd, hstrange⟩, -⟩
    · exact hc
    · have hordinary := isOrdinary_of_strange hstrange
      have hblank := isBlank_of_strange hstrange
      rcases h.1 d hd with h | h
      · exact absurd (hordinary.symm.trans h) Bool.false_ne_true
      · exact absurd (hblank.symm.trans h) Bool.false_ne_true

/-! ## Ink -/

/-- The text without its white space. -/
def ink (cs : List Char) : List Char := cs.filter fun c => !isBlank c

theorem ink_append (a b : List Char) : ink (a ++ b) = ink a ++ ink b := List.filter_append a b

theorem ink_cons_of_isBlank {c : Char} (hc : isBlank c = true) (cs : List Char) :
    ink (c :: cs) = ink cs := List.filter_cons_of_neg (by simp [hc])

theorem ink_cons_of_solid {c : Char} (hc : isBlank c = false) (cs : List Char) :
    ink (c :: cs) = c :: ink cs := List.filter_cons_of_pos (by simp [hc])

theorem ink_blank {b : List Char} (hb : Blank b) : ink b = [] :=
  List.filter_eq_nil_iff.2 fun c hc => by simp [hb c hc]

theorem ink_solid {w : List Char} (hw : Solid w) : ink w = w :=
  List.filter_eq_self.2 fun c hc => by simp [hw c hc]

/-- An ASCII letter in the lower case of a text, other than `i` and `k`. -/
def isFaithful (c : Char) : Bool := c.isLower && c != 'i' && c != 'k'

/-- A faithful letter is the small letter of ASCII letters only. -/
theorem not_strange_of_isFaithful {c : Char} (h : isFaithful c = true) :
    ¬ (Strange c ∨ c = 'i') := by
  simp only [isFaithful, Bool.and_eq_true, isLower_iff, bne_iff_ne] at h
  obtain ⟨⟨⟨hge, hle⟩, hi⟩, hk⟩ := h
  have hne : c.toNat ≠ 107 := fun h107 => hk (Char.ofNat_toNat c ▸ congrArg Char.ofNat h107)
  rintro (hstrange | h)
  · have := toNat_of_strange hstrange
    omega
  · exact hi h

/-- Making a character small neither blanks it nor fills it. -/
theorem isBlank_toLower (c : Char) : isBlank c.toLower = isBlank c := by
  by_cases hupper : c.isUpper = true
  · have hlower := isLower_toLower_of_isUpper hupper
    have hplain : Comparison.isPlain c.toLower = true := by
      rw [Comparison.isPlain, hlower, Bool.true_or]
    have hsolid := Comparison.isBlank_of_isPlain hplain
    cases hc : isBlank c with
    | true => rw [toLower_of_isBlank hc, hc] at hsolid; cases hsolid
    | false => exact hsolid
  · rw [toLower_eq_self (mt isUpper_iff.2 hupper)]

/-- A text in which none of the characters of the word is found does not begin it. -/
theorem eq_nil_of_prefix_cons {w cs : List Char} {d : Char} (hd : d ∉ w) (h : w <+: d :: cs) :
    w = [] := by
  cases w with
  | nil => rfl
  | cons c w => exact absurd ((List.cons_prefix_cons.1 h).1 ▸ List.mem_cons_self) hd

/-- A word is not found in a text without its characters. -/
theorem infix_of_infix_append {w a cs : List Char} (ha : ∀ d ∈ a, d ∉ w) (h : w <:+: a ++ cs) :
    w <:+: cs := by
  induction a with
  | nil => exact h
  | cons d a ih =>
    obtain ⟨hd, ha⟩ := List.forall_mem_cons.1 ha
    rcases List.infix_cons_iff.1 h with hfront | hwithin
    · rw [eq_nil_of_prefix_cons hd hfront]
      exact List.nil_infix
    · exact ih ha hwithin

/-- A word of faithful letters that begins the lower case of a text, the characters apart that
`keep` drops, begins the text, and one that is found there is found in the text. -/
theorem of_filter_lowercaseFrom {keep : Char → Bool} (hlower : ∀ c : Char, keep c.toLower = keep c)
    (hkeep : ∀ c, Strange c → keep c = true) (cs before : List Char) {w : List Char}
    (hw : ∀ d ∈ w, isFaithful d = true) :
    (w <+: (lowercaseFrom before cs).filter keep → w <+: (cs.filter keep).map Char.toLower) ∧
      (w <:+: (lowercaseFrom before cs).filter keep →
        w <:+: (cs.filter keep).map Char.toLower) := by
  induction cs generalizing before w with
  | nil => exact ⟨id, id⟩
  | cons c cs ih =>
    obtain ⟨lowered, heq, hlowered⟩ := exists_lowered before c cs
    have hrest := ih (c :: before) hw
    rw [heq, List.filter_append]
    rcases hlowered with ⟨-, rfl⟩ | ⟨⟨s, hs, hstrange⟩, hall⟩
    · cases hc : keep c with
      | false =>
        rw [List.filter_singleton, hlower, hc, List.filter_cons_of_neg (by simp [hc])]
        exact hrest
      | true =>
        have hfront : w <+: c.toLower :: (lowercaseFrom (c :: before) cs).filter keep →
            w <+: c.toLower :: (cs.filter keep).map Char.toLower := by
          cases w with
          | nil => exact fun _ => List.nil_prefix
          | cons d w =>
            rw [List.cons_prefix_cons, List.cons_prefix_cons]
            exact fun ⟨hd, h⟩ => ⟨hd, (ih _ (List.forall_mem_cons.1 hw).2).1 h⟩
        rw [List.filter_singleton, hlower, hc, List.filter_cons_of_pos hc]
        refine ⟨hfront, fun h => List.infix_cons_iff.2 ?_⟩
        exact (List.infix_cons_iff.1 h).imp hfront hrest.2
    · have havoid : ∀ d ∈ lowered.filter keep, d ∉ w := fun d hd hdw =>
        not_strange_of_isFaithful (hw d hdw) (hall d (List.mem_of_mem_filter hd))
      have hsuffix : (cs.filter keep).map Char.toLower <:+
          ((c :: cs).filter keep).map Char.toLower :=
        ((List.suffix_cons c cs).filter _).map _
      obtain ⟨d, rest, hd⟩ : ∃ d rest, lowered.filter keep = d :: rest :=
        List.exists_cons_of_ne_nil (List.ne_nil_of_mem (List.mem_filter.2 ⟨hs, hkeep s hstrange⟩))
      constructor
      · intro h
        rw [hd] at h havoid
        rw [eq_nil_of_prefix_cons (havoid d List.mem_cons_self) h]
        exact List.nil_prefix
      · exact fun h => (hrest.2 (infix_of_infix_append havoid h)).trans hsuffix.isInfix

/-- A word of faithful letters in the lower case of a text, white space apart, is found there in the
text. -/
theorem infix_of_ink_lowercase {w cs : List Char} (hw : ∀ d ∈ w, isFaithful d = true)
    (h : w <:+: ink (lowercase cs)) : w <:+: (ink cs).map Char.toLower :=
  (of_filter_lowercaseFrom (fun c => congrArg (!·) (isBlank_toLower c))
    (fun c hc => by simp [isBlank_of_strange hc]) cs [] hw).2 h

/-- A word of faithful letters in the lower case of a text is found in the text. -/
theorem infix_of_lowercase {w cs : List Char} (hw : ∀ d ∈ w, isFaithful d = true)
    (h : w <:+: lowercase cs) : w <:+: cs.map Char.toLower := by
  have hall : w <:+: (lowercase cs).filter (fun _ => true) →
      w <:+: (cs.filter fun _ => true).map Char.toLower :=
    (of_filter_lowercaseFrom (fun _ => rfl) (fun _ _ => rfl) cs [] hw).2
  rw [List.filter_true, List.filter_true] at hall
  exact hall h

end Text

end Appearance
