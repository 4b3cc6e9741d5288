import Appearance.Condition.Parse

/-!
# Numerals

A `Numeral` is a decimal number as it is written: a sign, digits with a point, an exponent, each
perhaps absent. Its text is read as its value (`Numeral.read?_text`), and in a condition it stands
for a constant if this is finite (`Numeral.constant?_text`). Conditions have no other constants
(`Numeral.exists_of_constant?`).

`Numeral` carries the proofs that its parts are digits and that there is at least one, so reading
its text needs no side condition. The converse direction goes from a text that is read to a numeral
with this text, one part after the other: sign, digits before the point, digits behind it,
exponent. Small letters are assumed there since conditions are lowered before they are read. A
numeral whose exponent is absent has only digits, a sign and a point, which dimensions and
durations rely on.
-/

namespace Appearance

/-- A sign that stands before digits, or none. -/
inductive Sign where
  | none
  | plus
  | minus
  deriving DecidableEq, Repr

namespace Sign

/-- A sign as it is written. -/
def text : Sign → List Char
  | none => []
  | plus => ['+']
  | minus => ['-']

/-- The sign makes a number negative. -/
def isMinus : Sign → Bool
  | minus => true
  | _ => false

/-- A sign is split off where another one does not follow. -/
theorem splitSign_append (s : Sign) {c : Char} (hplus : c ≠ '+') (hminus : c ≠ '-')
    (cs : List Char) : splitSign (s.text ++ c :: cs) = (s.isMinus, c :: cs) := by
  cases s with
  | none =>
    change splitSign (c :: cs) = (false, c :: cs)
    unfold splitSign
    split
    · next h => exact absurd (List.cons.inj h).1 hminus
    · next h => exact absurd (List.cons.inj h).1 hplus
    · rfl
  | plus => rfl
  | minus => rfl

end Sign

/-- The exponent of a numeral: a sign and digits. -/
structure ExponentPart where
  sign : Sign
  digits : List Char
  ne_nil : digits ≠ []
  isDigit : ∀ c ∈ digits, c.isDigit = true

/-- A decimal number as it is written, with the digits behind the point if there is one. -/
structure Numeral where
  sign : Sign
  whole : List Char
  fraction : Option (List Char)
  exponent : Option ExponentPart
  isDigit_whole : ∀ c ∈ whole, c.isDigit = true
  isDigit_fraction : ∀ c ∈ fraction.getD [], c.isDigit = true
  some_digit : whole ++ fraction.getD [] ≠ []

namespace ExponentPart

/-- The exponent part as it is written, with a small letter. -/
def text (e : ExponentPart) : List Char := 'e' :: (e.sign.text ++ e.digits)

/-- The exponent with its sign. -/
def value (e : ExponentPart) : Int :=
  if e.sign.isMinus then -(digitsValue e.digits : Int) else digitsValue e.digits

end ExponentPart

namespace Numeral

/-- The point with what follows it. -/
def fractionText (n : Numeral) : List Char :=
  match n.fraction with
  | some ds => '.' :: ds
  | none => []

/-- The exponent part of a numeral, if it has one. -/
def exponentText (n : Numeral) : List Char :=
  match n.exponent with
  | some e => e.text
  | none => []

/-- What follows the sign. -/
def unsignedText (n : Numeral) : List Char := n.whole ++ (n.fractionText ++ n.exponentText)

/-- A numeral as it is written. -/
def text (n : Numeral) : List Char := n.sign.text ++ n.unsignedText

/-- The double nearest to the number. -/
def value (n : Numeral) : Double :=
  .ofDecimal n.sign.isMinus (digitsValue (n.whole ++ n.fraction.getD []))
    ((n.exponent.map ExponentPart.value).getD 0 - (n.fraction.getD []).length)

/-! ## Reading a numeral -/

/-- The digits are split off up to a character that is none. -/
theorem spanDigits_append {ds rest : List Char} (hds : ∀ c ∈ ds, c.isDigit = true)
    (hrest : ∀ c ∈ rest.head?, c.isDigit = false) : spanDigits (ds ++ rest) = (ds, rest) := by
  have hsplit : rest.takeWhile Char.isDigit = [] ∧ rest.dropWhile Char.isDigit = rest := by
    cases rest with
    | nil => exact ⟨rfl, rfl⟩
    | cons c rest =>
      have hc : ¬ c.isDigit = true := by simp [hrest c rfl]
      exact ⟨List.takeWhile_cons_of_neg hc, List.dropWhile_cons_of_neg hc⟩
  rw [spanDigits, List.takeWhile_append_of_pos hds, List.dropWhile_append_of_pos hds, hsplit.1,
    hsplit.2, List.append_nil]

/-- An exponent does not begin with a digit. -/
theorem not_isDigit_exponentText (n : Numeral) :
    ∀ c ∈ n.exponentText.head?, c.isDigit = false := by
  unfold exponentText
  split
  · rintro c ⟨⟩
    rfl
  · nofun

theorem exponentText_ne_point (n : Numeral) (rest : List Char) : n.exponentText ≠ '.' :: rest := by
  unfold exponentText
  split <;> nofun

/-- An exponent is read as its value, and none as zero. -/
theorem readExponent?_text (n : Numeral) :
    Double.readExponent? n.exponentText = some ((n.exponent.map ExponentPart.value).getD 0) := by
  unfold exponentText
  cases n.exponent with
  | none => rfl
  | some e =>
    obtain ⟨sign, digits, hne, hdigit⟩ := e
    cases digits with
    | nil => exact absurd rfl hne
    | cons c cs =>
      have hc : c.isDigit = true := hdigit c List.mem_cons_self
      have hsplit := sign.splitSign_append (c := c) (by rintro rfl; cases hc)
        (by rintro rfl; cases hc) cs
      have hall : (c :: cs).all Char.isDigit = true := List.all_eq_true.2 hdigit
      dsimp only
      rw [ExponentPart.text, Double.readExponent?, if_pos (.inl rfl), hsplit]
      simp only [hall, List.isEmpty_cons, Bool.not_true, Bool.or_false, Bool.false_eq_true,
        if_false]
      rfl

/-- The digits of a numeral are read as its value without the sign. -/
theorem readUnsigned?_text (n : Numeral) (negative : Bool) :
    Double.readUnsigned? negative n.unsignedText = some
      (.ofDecimal negative (digitsValue (n.whole ++ n.fraction.getD []))
        ((n.exponent.map ExponentPart.value).getD 0 - (n.fraction.getD []).length)) := by
  have hsome : ¬ (n.whole.isEmpty && (n.fraction.getD []).isEmpty) = true := by
    have := n.some_digit
    simpa [List.isEmpty_iff] using this
  have hwhole : spanDigits n.unsignedText = (n.whole, n.fractionText ++ n.exponentText) := by
    refine spanDigits_append n.isDigit_whole ?_
    unfold fractionText
    split
    · rintro c ⟨⟩
      rfl
    · exact n.not_isDigit_exponentText
  have hexponent := n.readExponent?_text
  have hdigits := n.isDigit_fraction
  unfold Double.readUnsigned?
  rw [hwhole]
  unfold fractionText
  cases hn : n.fraction with
  | some ds =>
    rw [hn] at hdigits hsome
    have hfraction := @spanDigits_append ds _ hdigits n.not_isDigit_exponentText
    simp only [List.cons_append, hfraction, hexponent]
    exact if_neg hsome
  | none =>
    rw [hn] at hsome
    dsimp only
    rw [List.nil_append]
    split
    · next rest h => exact absurd h (n.exponentText_ne_point rest)
    · dsimp only
      rw [hexponent]
      exact if_neg hsome

/-- A numeral begins with a digit or with its point. -/
theorem exists_unsignedText (n : Numeral) :
    ∃ c cs, n.unsignedText = c :: cs ∧ (c.isDigit = true ∨ c = '.') := by
  unfold unsignedText fractionText
  cases hwhole : n.whole with
  | cons c cs => exact ⟨c, _, rfl, .inl (n.isDigit_whole c (hwhole ▸ List.mem_cons_self))⟩
  | nil =>
    cases hfraction : n.fraction with
    | some ds => exact ⟨'.', _, rfl, .inr rfl⟩
    | none => exact absurd (by rw [hwhole, hfraction]; rfl) n.some_digit

/-- A text that begins with a digit or a point is no word. -/
theorem ofList_map_toLower_ne {c : Char} (hc : c.isDigit = true ∨ c = '.') (cs : List Char)
    (word : String) (hword : ∀ d ∈ word.toList.head?, 64 ≤ d.toNat) :
    String.ofList ((c :: cs).map Char.toLower) ≠ word := by
  have hlt : c.toNat < 64 := by
    rcases hc with hc | rfl
    · simp only [Char.isDigit, Bool.and_eq_true, decide_eq_true_eq] at hc
      have hle : c.toNat ≤ 57 := hc.2
      omega
    · decide
  have hlower : c.toLower = c := by
    unfold Char.toLower
    rw [dif_neg]
    rintro ⟨hge, -⟩
    have hge' : 65 ≤ c.toNat := hge
    omega
  intro h
  have hhead : c ∈ word.toList.head? := by
    rw [← h, String.toList_ofList, List.map_cons, hlower]
    rfl
  have := hword c hhead
  omega

/-- The sign of a numeral is split off, as a digit or the point follows it. -/
theorem splitSign_text (n : Numeral) : splitSign n.text = (n.sign.isMinus, n.unsignedText) := by
  obtain ⟨c, cs, hunsigned, hc⟩ := n.exists_unsignedText
  rw [text, hunsigned]
  exact n.sign.splitSign_append (by rintro rfl; revert hc; decide)
    (by rintro rfl; revert hc; decide) cs

/-- The text of a numeral is read as its value. -/
theorem read?_text (n : Numeral) : Double.read? (String.ofList n.text) = some n.value := by
  obtain ⟨c, cs, hunsigned, hc⟩ := n.exists_unsignedText
  have hinf : ¬ (String.ofList (n.unsignedText.map Char.toLower) = "inf" ∨
      String.ofList (n.unsignedText.map Char.toLower) = "infinity") := by
    rw [hunsigned]
    exact not_or.2 ⟨ofList_map_toLower_ne hc cs "inf" (by simp),
      ofList_map_toLower_ne hc cs "infinity" (by simp)⟩
  have hnan : String.ofList (n.unsignedText.map Char.toLower) ≠ "nan" := by
    rw [hunsigned]
    exact ofList_map_toLower_ne hc cs "nan" (by simp)
  unfold Double.read?
  rw [String.toList_ofList, splitSign_text]
  dsimp only
  rw [if_neg hinf, if_neg hnan, readUnsigned?_text]
  rfl

/-- A condition reads a numeral as a constant, if its value is finite. -/
theorem constant?_text (n : Numeral) (hfinite : n.value.isFinite = true) :
    Condition.constant? (String.ofList n.text) = some n.value := by
  have hbegins : Condition.startsWith Condition.beginsNumber n.text = true := by
    obtain ⟨c, cs, hunsigned, hc⟩ := n.exists_unsignedText
    rw [text, hunsigned]
    cases n.sign with
    | none =>
      rcases hc with hc | rfl
      · simp [Sign.text, Condition.startsWith, Condition.beginsNumber, hc]
      · rfl
    | plus => rfl
    | minus => rfl
  rw [Condition.constant?, String.toList_ofList, if_pos hbegins, read?_text, Option.filter_some,
    if_pos hfinite]

/-! ## The characters of a numeral -/

/-- A character of a numeral whose exponent has a small letter. -/
def isFigure (c : Char) : Bool := c.isDigit || c == '+' || c == '-' || c == '.' || c == 'e'

theorem isFigure_of_isDigit {c : Char} (h : c.isDigit = true) : isFigure c = true := by
  simp [isFigure, h]

theorem isFigure_sign (s : Sign) : ∀ c ∈ s.text, isFigure c = true := by
  cases s <;> decide

/-- All characters of a numeral are figures. -/
theorem isFigure_text (n : Numeral) : ∀ c ∈ n.text, isFigure c = true := by
  have hfraction : ∀ c ∈ n.fractionText, isFigure c = true := by
    have hdigits := n.isDigit_fraction
    unfold fractionText
    split
    · next ds hds =>
      rw [hds] at hdigits
      exact List.forall_mem_cons.2 ⟨rfl, fun c hc => isFigure_of_isDigit (hdigits c hc)⟩
    · nofun
  have hexponent : ∀ c ∈ n.exponentText, isFigure c = true := by
    unfold exponentText
    split
    · next e _ =>
      exact List.forall_mem_cons.2 ⟨rfl, List.forall_mem_append.2
        ⟨isFigure_sign e.sign, fun c hc => isFigure_of_isDigit (e.isDigit c hc)⟩⟩
    · nofun
  exact List.forall_mem_append.2 ⟨isFigure_sign n.sign, List.forall_mem_append.2
    ⟨fun c hc => isFigure_of_isDigit (n.isDigit_whole c hc),
      List.forall_mem_append.2 ⟨hfraction, hexponent⟩⟩⟩

theorem text_ne_nil (n : Numeral) : n.text ≠ [] := by
  obtain ⟨c, cs, hunsigned, -⟩ := n.exists_unsignedText
  rw [text, hunsigned]
  exact List.append_ne_nil_of_right_ne_nil _ (List.cons_ne_nil c cs)

/-! ## Numerals without an exponent -/

theorem unsignedText_eq {n : Numeral} (h : n.exponent = none) :
    n.unsignedText = n.whole ++ n.fractionText := by
  rw [unsignedText, exponentText, h, List.append_nil]

/-- Without an exponent there are only digits and the point behind the sign. -/
theorem forall_mem_unsignedText {n : Numeral} (h : n.exponent = none) :
    ∀ c ∈ n.unsignedText, c.isDigit = true ∨ c = '.' := by
  have hfraction := n.isDigit_fraction
  rw [unsignedText_eq h, fractionText]
  refine List.forall_mem_append.2 ⟨fun c hc => .inl (n.isDigit_whole c hc), ?_⟩
  cases hn : n.fraction with
  | none => nofun
  | some ds =>
    rw [hn] at hfraction
    exact List.forall_mem_cons.2 ⟨.inr rfl, fun c hc => .inl (hfraction c hc)⟩

theorem getLast?_text {n : Numeral} (h : n.exponent = none) :
    ∀ c ∈ n.text.getLast?, c.isDigit = true ∨ c = '.' := by
  obtain ⟨d, ds, hunsigned, -⟩ := n.exists_unsignedText
  intro c hc
  refine forall_mem_unsignedText h c (List.mem_of_getLast? ?_)
  rw [text, List.getLast?_append, hunsigned, List.getLast?_cons] at hc
  rw [hunsigned, List.getLast?_cons]
  exact hc

/-! ## Every number that is read is a numeral -/

/-- What is split off as a sign is one. -/
theorem exists_sign (cs : List Char) :
    ∃ s : Sign, s.text ++ (splitSign cs).2 = cs ∧ s.isMinus = (splitSign cs).1 := by
  unfold splitSign
  split
  · exact ⟨.minus, rfl, rfl⟩
  · exact ⟨.plus, rfl, rfl⟩
  · exact ⟨.none, rfl, rfl⟩

theorem isDigit_of_mem_spanDigits {cs : List Char} {c : Char} (h : c ∈ (spanDigits cs).1) :
    c.isDigit = true :=
  List.all_eq_true.1 List.all_takeWhile c h

/-- An exponent that is read is that of a numeral, if its letter is small. -/
theorem exists_exponentPart {cs : List Char} {e : Int} (hlower : ∀ c ∈ cs, c.toLower = c)
    (h : Double.readExponent? cs = some e) : ∃ part : Option ExponentPart,
      part.elim [] ExponentPart.text = cs ∧ (part.map ExponentPart.value).getD 0 = e := by
  cases cs with
  | nil => exact ⟨none, rfl, Option.some.inj h⟩
  | cons c cs =>
    obtain ⟨sign, htext, hminus⟩ := exists_sign cs
    rw [Double.readExponent?] at h
    split at h
    · next hletter =>
      have hc : c = 'e' := by
        rcases hletter with rfl | rfl
        · rfl
        · exact absurd (hlower 'E' List.mem_cons_self) (by decide)
      dsimp only at h
      by_cases hdigits : ((splitSign cs).2.isEmpty || !(splitSign cs).2.all Char.isDigit) = true
      · rw [if_pos hdigits] at h
        cases h
      rw [if_neg hdigits] at h
      simp only [Bool.or_eq_true, Bool.not_eq_true', not_or, Bool.not_eq_false,
        List.all_eq_true, List.isEmpty_iff] at hdigits
      refine ⟨some ⟨sign, (splitSign cs).2, hdigits.1, hdigits.2⟩, ?_, ?_⟩
      · rw [hc]
        exact congrArg _ htext
      · rw [← Option.some.inj h, ← hminus]
        rfl
    · cases h

/-- Digits, perhaps digits behind a point, and an exponent that is read make up a numeral. -/
theorem exists_of_parts {sign : Sign} {whole rest : List Char} {fraction : Option (List Char)}
    {value : Double} (hwhole : ∀ c ∈ whole, c.isDigit = true)
    (hfraction : ∀ c ∈ fraction.getD [], c.isDigit = true) (hlower : ∀ c ∈ rest, c.toLower = c)
    (h : (if whole.isEmpty && (fraction.getD []).isEmpty then none
      else (Double.readExponent? rest).map fun e =>
        Double.ofDecimal sign.isMinus (digitsValue (whole ++ fraction.getD []))
          (e - (fraction.getD []).length)) = some value) :
    ∃ n : Numeral, n.sign = sign ∧ n.value = value ∧
      n.unsignedText = whole ++ (fraction.elim [] ('.' :: ·) ++ rest) := by
  by_cases hempty : (whole.isEmpty && (fraction.getD []).isEmpty) = true
  · rw [if_pos hempty] at h
    cases h
  rw [if_neg hempty] at h
  obtain ⟨e, he, hvalue⟩ := Option.map_eq_some_iff.1 h
  obtain ⟨part, htext, hpart⟩ := exists_exponentPart hlower he
  have hdigit : whole ++ fraction.getD [] ≠ [] := by simpa [List.isEmpty_iff] using hempty
  refine ⟨⟨sign, whole, fraction, part, hwhole, hfraction, hdigit⟩, rfl, ?_, ?_⟩
  · rw [← hvalue, ← hpart]
    rfl
  · rw [← htext, unsignedText, fractionText, exponentText]
    cases fraction <;> cases part <;> rfl

/-- A number that is read is a numeral, if it has no capital letters and is no word. -/
theorem exists_of_readUnsigned? {sign : Sign} {cs : List Char} {value : Double}
    (hlower : ∀ c ∈ cs, c.toLower = c)
    (h : Double.readUnsigned? sign.isMinus cs = some value) :
    ∃ n : Numeral, n.sign = sign ∧ n.value = value ∧ n.unsignedText = cs := by
  have hcs : (spanDigits cs).1 ++ (spanDigits cs).2 = cs := List.takeWhile_append_dropWhile
  have hwhole : ∀ c ∈ (spanDigits cs).1, c.isDigit = true := fun c hc =>
    isDigit_of_mem_spanDigits hc
  have hrest : ∀ c ∈ (spanDigits cs).2, c.toLower = c := fun c hc =>
    hlower c (hcs ▸ List.mem_append_right _ hc)
  rcases hspan : spanDigits cs with ⟨whole, behind⟩
  rw [hspan] at hcs hwhole hrest
  rw [Double.readUnsigned?, hspan] at h
  dsimp only at h hcs hwhole hrest
  split at h
  · next rest =>
    have hbehind : (spanDigits rest).1 ++ (spanDigits rest).2 = rest :=
      List.takeWhile_append_dropWhile
    obtain ⟨n, hsign, hvalue, htext⟩ := @exists_of_parts _ _ _ (some (spanDigits rest).1) _
      hwhole (fun c hc => isDigit_of_mem_spanDigits hc)
      (fun c hc => hrest c (List.mem_cons_of_mem _ (hbehind ▸ List.mem_append_right _ hc))) h
    refine ⟨n, hsign, hvalue, htext.trans ?_⟩
    rw [Option.elim_some, List.cons_append, hbehind, hcs]
  · obtain ⟨n, hsign, hvalue, htext⟩ := @exists_of_parts _ _ _ none _ hwhole nofun hrest h
    exact ⟨n, hsign, hvalue, htext.trans hcs⟩

/-- A finite number that is read from a text without capital letters is a numeral. -/
theorem exists_of_read? {text : List Char} {value : Double} (hlower : ∀ c ∈ text, c.toLower = c)
    (hfinite : value.isFinite = true) (h : Double.read? (String.ofList text) = some value) :
    ∃ n : Numeral, n.text = text ∧ n.value = value := by
  obtain ⟨sign, htext, hminus⟩ := exists_sign text
  unfold Double.read? at h
  rw [String.toList_ofList] at h
  dsimp only at h
  split at h
  · obtain rfl := Option.some.inj h
    cases hfinite
  split at h
  · obtain rfl := Option.some.inj h
    cases hfinite
  rw [← hminus] at h
  obtain ⟨n, rfl, hvalue, hunsigned⟩ := exists_of_readUnsigned?
    (fun c hc => hlower c (htext ▸ List.mem_append_right _ hc)) h
  exact ⟨n, by rw [Numeral.text, hunsigned, htext], hvalue⟩

/-- A constant of a condition without capital letters is written as a numeral. -/
theorem exists_of_constant? {text : List Char} {value : Double}
    (hlower : ∀ c ∈ text, c.toLower = c)
    (h : Condition.constant? (String.ofList text) = some value) :
    ∃ n : Numeral, n.text = text ∧ n.value = value ∧ value.isFinite = true := by
  rw [Condition.constant?, String.toList_ofList] at h
  split at h
  · obtain ⟨hread, hfinite⟩ := Option.filter_eq_some_iff.1 h
    obtain ⟨n, htext, hvalue⟩ := exists_of_read? hlower hfinite hread
    exact ⟨n, htext, hvalue, hfinite⟩
  · cases h

end Numeral

end Appearance
