import Appearance.Proofs.Cuts
import Appearance.Proofs.Outcomes
import Mathlib.Tactic.IntervalCases

/-!
# Color literals

Whether the last two bytes of a literal are its opacity is decided by the number of bytes, before
any digit is looked at. `Color.parse_eq_ok_iff_digits` says which texts are colors all the same:
those that are, between white space, `#` with three or six hexadecimal digits (`Color.Channels`) and
two decimal digits or none (`Color.Opacity`). Digits have one byte each (`Channels.byteLength`), so
a literal with five or eight bytes has an opacity, and where a cut at bytes leaves anything else
than digits, there is no color.

The channels are read from the digits one by one. They are what shifts and masks cut out of the
number of 32 bits that all the digits write (`Color.ofDigits_eq_ofValue`).
-/

namespace Appearance

open Appearance.Text

namespace Color

/-! ## Digits -/

/-- The character is the hexadecimal digit for the number, small or capital. -/
def HexDigit (c : Char) (n : Nat) : Prop :=
  "0123456789abcdef".toList[n]? = some c ∨ "0123456789ABCDEF".toList[n]? = some c

/-- The character is the decimal digit for the number. -/
def DecimalDigit (c : Char) (n : Nat) : Prop := "0123456789".toList[n]? = some c

instance (c : Char) (n : Nat) : Decidable (HexDigit c n) := inferInstanceAs (Decidable (_ ∨ _))

instance (c : Char) (n : Nat) : Decidable (DecimalDigit c n) := inferInstanceAs (Decidable (_ = _))

section Digits

variable {c : Char} {n : Nat}

theorem HexDigit.lt (h : HexDigit c n) : n < 16 :=
  h.elim (fun h => (List.getElem?_eq_some_iff.1 h).1) fun h => (List.getElem?_eq_some_iff.1 h).1

theorem DecimalDigit.lt (h : DecimalDigit c n) : n < 10 := (List.getElem?_eq_some_iff.1 h).1

/-- What holds of the codes from one character to another holds of the characters between. -/
theorem forall_between {a b : Char} {P : Char → Prop}
    (h : ∀ n ∈ List.range' a.toNat (b.toNat + 1 - a.toNat), P (Char.ofNat n)) (ha : a ≤ c)
    (hb : c ≤ b) : P c := by
  have hlow : a.toNat ≤ c.toNat := UInt32.le_iff_toNat_le.1 (Char.le_def.1 ha)
  have hhigh : c.toNat ≤ b.toNat := UInt32.le_iff_toNat_le.1 (Char.le_def.1 hb)
  have hc := h c.toNat (List.mem_range'_1.2 ⟨hlow, by omega⟩)
  rwa [Char.ofNat_toNat] at hc

theorem isDigit_iff : c.isDigit = true ↔ '0' ≤ c ∧ c ≤ '9' := by
  simp [Char.isDigit, Char.le_def]

/-- The value of a decimal digit is its distance from zero. -/
theorem decimalDigit_iff : DecimalDigit c n ↔ c.isDigit = true ∧ n = c.toNat - '0'.toNat := by
  constructor
  · intro h
    have hn := h.lt
    interval_cases n <;> cases h <;> exact ⟨rfl, rfl⟩
  · rintro ⟨hdigit, rfl⟩
    obtain ⟨hlow, hhigh⟩ := isDigit_iff.1 hdigit
    exact forall_between (P := fun c => DecimalDigit c (c.toNat - '0'.toNat)) (by decide) hlow hhigh

/-- The digits that are read are the hexadecimal ones, in either case. -/
theorem hexDigit?_eq_some_iff : hexDigit? c = some n ↔ HexDigit c n := by
  constructor
  · intro h
    unfold hexDigit? at h
    split at h
    · next hdigit =>
      cases h
      obtain ⟨hlow, hhigh⟩ := isDigit_iff.1 hdigit
      exact forall_between (P := fun c => HexDigit c (c.toNat - '0'.toNat)) (by decide) hlow hhigh
    · split at h
      · next hsmall =>
        cases h
        exact forall_between (P := fun c => HexDigit c (c.toNat - 'a'.toNat + 10)) (by decide)
          hsmall.1 hsmall.2
      · split at h
        · next hcapital =>
          cases h
          exact forall_between (P := fun c => HexDigit c (c.toNat - 'A'.toNat + 10)) (by decide)
            hcapital.1 hcapital.2
        · cases h
  · intro h
    have hn := h.lt
    rcases h with h | h <;> interval_cases n <;> cases h <;> rfl

theorem HexDigit.mem (h : HexDigit c n) : c ∈ "0123456789abcdefABCDEF".toList :=
  h.elim
    (fun h => (by decide : ∀ d ∈ "0123456789abcdef".toList, d ∈ "0123456789abcdefABCDEF".toList) c
      (List.mem_of_getElem? h))
    fun h => (by decide : ∀ d ∈ "0123456789ABCDEF".toList, d ∈ "0123456789abcdefABCDEF".toList) c
      (List.mem_of_getElem? h)

theorem HexDigit.utf8Size (h : HexDigit c n) : c.utf8Size = 1 :=
  (by decide : ∀ d ∈ "0123456789abcdefABCDEF".toList, d.utf8Size = 1) c h.mem

theorem DecimalDigit.utf8Size (h : DecimalDigit c n) : c.utf8Size = 1 :=
  (by decide : ∀ d ∈ "0123456789".toList, d.utf8Size = 1) c (List.mem_of_getElem? h)

end Digits

/-! ## Parts of a literal -/

/-- The digits write the three channels in order: with one digit each, of fifteen, or with two
digits each, of 255. -/
inductive Channels : List Char → Double → Double → Double → Prop
  | three {x y z : Char} {r g b : Nat} : HexDigit x r → HexDigit y g → HexDigit z b →
    Channels [x, y, z] (.ofRatio false r 15) (.ofRatio false g 15) (.ofRatio false b 15)
  | six {x x' y y' z z' : Char} {r r' g g' b b' : Nat} : HexDigit x r → HexDigit x' r' →
    HexDigit y g → HexDigit y' g' → HexDigit z b → HexDigit z' b' →
    Channels [x, x', y, y', z, z'] (.ofRatio false (16 * r + r') 255)
      (.ofRatio false (16 * g + g') 255) (.ofRatio false (16 * b + b') 255)

/-- The digits write the opacity: two digits the percentage, none all of it. -/
inductive Opacity : List Char → Double → Prop
  | full : Opacity [] (.ofInt 1)
  | percent {x y : Char} {m n : Nat} : DecimalDigit x m → DecimalDigit y n →
    Opacity [x, y] (.ofRatio false (10 * m + n) 100)

section Parts

variable {cs digits : List Char} {red green blue alpha : Double} {literal : String}

/-- The channels of a color have three or six bytes. -/
theorem Channels.byteLength (h : Channels cs red green blue) :
    byteLength cs = 3 ∨ byteLength cs = 6 := by
  cases h with
  | three hr hg hb => simp [Text.byteLength, hr.utf8Size, hg.utf8Size, hb.utf8Size]
  | six hr hr' hg hg' hb hb' =>
    simp [Text.byteLength, hr.utf8Size, hr'.utf8Size, hg.utf8Size, hg'.utf8Size, hb.utf8Size,
      hb'.utf8Size]

/-- Two digits are an opacity in percent. -/
theorem Opacity.of_isDigit (hlength : byteLength digits = 2)
    (hdigits : ∀ c ∈ digits, c.isDigit = true) :
    Opacity digits (.ofRatio false (digitsValue digits) 100) := by
  have hdecimal : ∀ c ∈ digits, DecimalDigit c (c.toNat - '0'.toNat) := fun c hc =>
    decimalDigit_iff.2 ⟨hdigits c hc, rfl⟩
  rcases exists_chars_of_byteLength hlength with ⟨c, rfl, hsize⟩ | ⟨d, c, rfl, -, -⟩
  · have hone := (hdecimal c (by simp)).utf8Size
    omega
  · have h := Opacity.percent (hdecimal d (by simp)) (hdecimal c (by simp))
    simpa [digitsValue] using h

/-- What is cut off as an opacity is one. -/
theorem exists_opacity_of_splitAlpha (h : splitAlpha literal cs = .ok (digits, alpha)) :
    ∃ opacity, cs = digits ++ opacity ∧ Opacity opacity alpha := by
  unfold splitAlpha at h
  dsimp only at h
  split at h
  · split at h
    · cases h
    · next before percent hsplit =>
      obtain ⟨hcs, hlength⟩ := splitLastTwoBytes?_eq_some_iff.1 hsplit
      split at h
      · next hall =>
        cases h
        exact ⟨percent, hcs, .of_isDigit hlength (List.all_eq_true.1 hall)⟩
      · cases h
  · cases h
    exact ⟨[], (List.append_nil _).symm, .full⟩

/-- The opacity is told from the channels by the number of bytes. -/
theorem splitAlpha_append (hdigits : byteLength digits = 3 ∨ byteLength digits = 6)
    (h : Opacity cs alpha) : splitAlpha literal (digits ++ cs) = .ok (digits, alpha) := by
  unfold splitAlpha
  dsimp only
  cases h with
  | full =>
    rw [List.append_nil, if_neg (by omega)]
  | @percent x y m n hx hy =>
    have hlength : byteLength [x, y] = 2 := by simp [byteLength, hx.utf8Size, hy.utf8Size]
    have hsplit : splitLastTwoBytes? (digits ++ [x, y]) = some (digits, [x, y]) :=
      splitLastTwoBytes?_eq_some_iff.2 ⟨rfl, hlength⟩
    obtain ⟨hxdigit, rfl⟩ := decimalDigit_iff.1 hx
    obtain ⟨hydigit, rfl⟩ := decimalDigit_iff.1 hy
    rw [byteLength_append, hlength, if_pos (by omega), hsplit]
    simp [hxdigit, hydigit, digitsValue]

/-- Digits are read one by one. -/
theorem hexDigits?_eq_some_iff {ds : List Nat} :
    hexDigits? digits = some ds ↔ List.Forall₂ HexDigit digits ds := by
  simp only [hexDigits?, option_mapM_eq_some_iff, hexDigit?_eq_some_iff]

/-- A color is made of its channels and the opacity that was cut off. -/
theorem channels_of_ofDigits {ds : List Nat} (hds : List.Forall₂ HexDigit digits ds) {c : Color}
    (h : ofDigits literal alpha ds = .ok c) :
    Channels digits c.red c.green c.blue ∧ c.alpha = alpha := by
  unfold ofDigits at h
  split at h
  · cases h
    match hds with
    | .cons hr (.cons hg (.cons hb .nil)) => exact ⟨.three hr hg hb, rfl⟩
  · cases h
    match hds with
    | .cons hr (.cons hr' (.cons hg (.cons hg' (.cons hb (.cons hb' .nil))))) =>
      exact ⟨.six hr hr' hg hg' hb hb', rfl⟩
  · split at h <;> cases h

/-- All channels make a color. -/
theorem Channels.exists_ofDigits (h : Channels digits red green blue) (literal : String)
    (alpha : Double) :
    ∃ ds, List.Forall₂ HexDigit digits ds ∧
      ofDigits literal alpha ds = .ok ⟨red, green, blue, alpha⟩ := by
  cases h with
  | three hr hg hb => exact ⟨_, .cons hr (.cons hg (.cons hb .nil)), rfl⟩
  | six hr hr' hg hg' hb hb' =>
    exact ⟨_, .cons hr (.cons hr' (.cons hg (.cons hg' (.cons hb (.cons hb' .nil))))), rfl⟩

/-- What follows the `#` is read exactly if it consists of channels and an opacity. -/
theorem parseDigits_eq_ok_iff {c : Color} : parseDigits literal cs = .ok c ↔
    ∃ digits opacity, cs = digits ++ opacity ∧ Channels digits c.red c.green c.blue ∧
      Opacity opacity c.alpha := by
  constructor
  · intro h
    unfold parseDigits at h
    split at h
    · cases h
    · next digits alpha hsplit =>
      obtain ⟨opacity, hcs, hopacity⟩ := exists_opacity_of_splitAlpha hsplit
      split at h
      · cases h
      · next ds hds =>
        obtain ⟨hchannels, rfl⟩ := channels_of_ofDigits (hexDigits?_eq_some_iff.1 hds) h
        exact ⟨digits, opacity, hcs, hchannels, hopacity⟩
  · rintro ⟨digits, opacity, rfl, hchannels, hopacity⟩
    obtain ⟨ds, hds, hcolor⟩ := hchannels.exists_ofDigits literal c.alpha
    rw [parseDigits, splitAlpha_append hchannels.byteLength hopacity]
    dsimp only
    rw [hexDigits?_eq_some_iff.2 hds]
    exact hcolor

end Parts

/-! ## Literals -/

/-- A text is a color exactly if it consists of `#`, the digits of three channels and perhaps those
of an opacity, with any white space around them. -/
theorem parse_eq_ok_iff_digits {s : String} {c : Color} : parse s = .ok c ↔
    ∃ digits opacity, trimChars s.toList = '#' :: (digits ++ opacity) ∧
      Channels digits c.red c.green c.blue ∧ Opacity opacity c.alpha := by
  rw [parse, parseChars]
  split
  · next cs hcs =>
    rw [parseDigits_eq_ok_iff]
    simp only [hcs, List.cons.injEq, true_and]
  · next hcs =>
    constructor
    · intro h
      cases h
    · rintro ⟨digits, opacity, h, -, -⟩
      exact absurd h (hcs _)

example : parse " #0078D480\n" =
    .ok ⟨.ofRatio false 0 255, .ofRatio false 120 255, .ofRatio false 212 255,
      .ofRatio false 80 100⟩ := by decide

/-! ## Shifts and masks -/

/-- The color whose channels are cut out of a number that so many digits write. -/
def ofValue (literal : String) (alpha : Double) (value length : Nat) : Except Error Color :=
  if length = 0 ∨ 2 ^ 32 ≤ value then .error (.invalidHex literal)
  else
    match length with
    | 3 => .ok ⟨.ofRatio false (value >>> 8 &&& 0xF) 15, .ofRatio false (value >>> 4 &&& 0xF) 15,
        .ofRatio false (value &&& 0xF) 15, alpha⟩
    | 6 => .ok ⟨.ofRatio false (value >>> 16 &&& 0xFF) 255,
        .ofRatio false (value >>> 8 &&& 0xFF) 255, .ofRatio false (value &&& 0xFF) 255, alpha⟩
    | length => .error (.invalidLength literal length)

theorem shiftRight_and (value k n : Nat) :
    value >>> k &&& (2 ^ n - 1) = value / 2 ^ k % 2 ^ n := by
  rw [Nat.and_two_pow_sub_one_eq_mod, Nat.shiftRight_eq_div_pow]

/-- The channels of digits are what shifts and masks cut out of their number. -/
theorem ofDigits_eq_ofValue (literal : String) (alpha : Double) {ds : List Nat}
    (hds : ∀ d ∈ ds, d < 16) :
    ofDigits literal alpha ds = ofValue literal alpha (hexValue ds) ds.length := by
  unfold ofDigits
  split
  · next r g b =>
    simp only [List.forall_mem_cons] at hds
    have hvalue : hexValue [r, g, b] = 16 * (16 * r + g) + b := by simp [hexValue]
    generalize hexValue [r, g, b] = value at hvalue ⊢
    have hred : value >>> 8 &&& 0xF = r := (shiftRight_and _ 8 4).trans (by omega)
    have hgreen : value >>> 4 &&& 0xF = g := (shiftRight_and _ 4 4).trans (by omega)
    have hblue : value &&& 0xF = b := (shiftRight_and _ 0 4).trans (by omega)
    have hfits : ¬ ([r, g, b].length = 0 ∨ 2 ^ 32 ≤ value) :=
      not_or.2 ⟨by simp, by omega⟩
    rw [ofValue.eq_def, if_neg hfits]
    dsimp only [List.length]
    rw [hred, hgreen, hblue]
    rfl
  · next r r' g g' b b' =>
    simp only [List.forall_mem_cons] at hds
    have hvalue : hexValue [r, r', g, g', b, b'] =
        16 * (16 * (16 * (16 * (16 * r + r') + g) + g') + b) + b' := by simp [hexValue]
    generalize hexValue [r, r', g, g', b, b'] = value at hvalue ⊢
    have hred : value >>> 16 &&& 0xFF = 16 * r + r' := (shiftRight_and _ 16 8).trans (by omega)
    have hgreen : value >>> 8 &&& 0xFF = 16 * g + g' := (shiftRight_and _ 8 8).trans (by omega)
    have hblue : value &&& 0xFF = 16 * b + b' := (shiftRight_and _ 0 8).trans (by omega)
    have hfits : ¬ ([r, r', g, g', b, b'].length = 0 ∨ 2 ^ 32 ≤ value) :=
      not_or.2 ⟨by simp, by omega⟩
    rw [ofValue.eq_def, if_neg hfits]
    dsimp only [List.length]
    rw [hred, hgreen, hblue]
    rfl
  · next hthree hsix =>
    have hlength : ds.length ≠ 3 ∧ ds.length ≠ 6 := by
      constructor <;> intro h
      · obtain ⟨r, g, b, rfl⟩ := List.length_eq_three.1 h
        exact hthree r g b rfl
      · match ds, h with
        | [r, r', g, g', b, b'], _ => exact hsix r r' g g' b b' rfl
    have hbounds : (ds.isEmpty || pow2 32 ≤ hexValue ds) = true ↔
        ds.length = 0 ∨ 2 ^ 32 ≤ hexValue ds := by
      rw [Bool.or_eq_true, List.isEmpty_iff, decide_eq_true_iff, List.length_eq_zero_iff, pow2]
      rfl
    rw [ofValue.eq_def, if_congr hbounds rfl rfl]
    split
    · rfl
    · split
      · next h => exact absurd h hlength.1
      · next h => exact absurd h hlength.2
      · rfl

end Color

end Appearance
