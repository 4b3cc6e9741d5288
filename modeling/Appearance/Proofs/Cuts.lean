import Appearance.Proofs.Grammar
import Appearance.Proofs.Runs
import Appearance.Value.Read

/-!
# Where the reading of a value cuts its text

A text that has more bytes than characters must be cut between characters only. The tokens of a
value text, the texts of arguments and the excerpts in faults are all cut out so
(`Token.exists_lexeme_of_mem_scan`, `Expr.cutsOut_rawText`, `Expr.cutsOut_of_unexpected`).

The opacity of a color is the exception: it is taken as the last two bytes of the digits, whatever
these are (`Color.CutsCharacter`). `Value.parse_eq_splitCharacter_iff` says for which value texts
this goes wrong: those with a color literal, or a call of `color`, whose digits have five or eight
bytes and end in a character of three bytes or more, or in a character of two bytes and one of one,
provided that everything before it in the lists around it is a value.
-/

namespace Appearance

open Appearance.Text

/-! ## The opacity of a color -/

namespace Text

/-- Only the empty text has no bytes. -/
theorem byteLength_eq_zero {cs : List Char} (h : byteLength cs = 0) : cs = [] := by
  cases cs with
  | nil => rfl
  | cons c cs =>
    have := c.utf8Size_pos
    rw [byteLength] at h
    omega

/-- White space is taken off the end, so what begins a text with ink stays. -/
theorem trimEndChars_cons {c : Char} (hc : isBlank c = false) (cs : List Char) :
    trimEndChars (c :: cs) = c :: trimEndChars cs := by
  unfold trimEndChars dropEndWhile
  rw [List.reverse_cons, List.dropWhile_append, List.dropWhile_cons_of_neg (by simp [hc])]
  split
  · next hempty => rw [List.isEmpty_iff.1 hempty]; rfl
  · rw [List.reverse_append]
    rfl

/-- The end of a text is cut out exactly if it consists of whole characters. -/
theorem exists_cutsOut_end_iff {cs : List Char} {n : Nat} (hn : n ≤ byteLength cs) :
    (∃ part, CutsOut cs (byteLength cs - n) (byteLength cs) part) ↔
      ∃ before part, cs = before ++ part ∧ byteLength part = n := by
  constructor
  · rintro ⟨part, before, after, hcs, hstart, hstop⟩
    have hlength := congrArg byteLength hcs
    rw [byteLength_append, byteLength_append] at hlength
    have hafter : after = [] := byteLength_eq_zero (by omega)
    exact ⟨before, part, by rw [hcs, hafter, List.append_nil], by omega⟩
  · rintro ⟨before, part, rfl, hpart⟩
    rw [byteLength_append] at hn ⊢
    exact ⟨part, before, [], (List.append_nil _).symm, by omega, by omega⟩

/-- A text of two bytes is one character or two. -/
theorem exists_chars_of_byteLength {cs : List Char} (h : byteLength cs = 2) :
    (∃ c, cs = [c] ∧ c.utf8Size = 2) ∨
      ∃ d c, cs = [d, c] ∧ d.utf8Size = 1 ∧ c.utf8Size = 1 := by
  match cs with
  | [] => cases h
  | [c] => exact .inl ⟨c, rfl, by simpa [byteLength] using h⟩
  | [d, c] =>
    have := d.utf8Size_pos
    have := c.utf8Size_pos
    simp only [byteLength] at h
    exact .inr ⟨d, c, rfl, by omega, by omega⟩
  | d :: c :: b :: cs =>
    have := d.utf8Size_pos
    have := c.utf8Size_pos
    have := b.utf8Size_pos
    simp only [byteLength] at h
    omega

end Text

namespace Color

/-- The digits have an opacity, and this begins inside a character. -/
structure CutsCharacter (hex : List Char) : Prop where
  length : byteLength hex = 5 ∨ byteLength hex = 8
  inside : ∀ part, ¬ CutsOut hex (byteLength hex - 2) (byteLength hex) part

/-- A text is cut before its last two bytes where a character begins there. -/
theorem splitLastTwoBytes?_eq_some_iff {cs before part : List Char} :
    splitLastTwoBytes? cs = some (before, part) ↔ cs = before ++ part ∧ byteLength part = 2 := by
  constructor
  · intro h
    unfold splitLastTwoBytes? at h
    split at h
    · next c rest hrev =>
      have hcs : cs = rest.reverse ++ [c] := by
        rw [← List.reverse_reverse cs, hrev, List.reverse_cons]
      split at h
      · next hsize =>
        cases h
        exact ⟨hcs, by simpa [byteLength] using hsize⟩
      · split at h
        · next d rest =>
          split at h
          · next hsizes =>
            cases h
            refine ⟨?_, by simp [byteLength, hsizes]⟩
            rw [hcs, List.reverse_cons, List.append_assoc]
            rfl
          · cases h
        · cases h
    · cases h
  · rintro ⟨rfl, hpart⟩
    rcases exists_chars_of_byteLength hpart with ⟨c, rfl, hc⟩ | ⟨d, c, rfl, hd, hc⟩
    · simp [splitLastTwoBytes?, hc]
    · simp [splitLastTwoBytes?, hc, hd]

theorem splitLastTwoBytes?_isSome_iff {cs : List Char} :
    (splitLastTwoBytes? cs).isSome ↔ ∃ before part, cs = before ++ part ∧ byteLength part = 2 := by
  simp only [Option.isSome_iff_exists, Prod.exists, splitLastTwoBytes?_eq_some_iff]

/-- The opacity cannot be cut off if and only if the cut falls into a character. -/
theorem splitAlpha_eq_splitCharacter_iff (literal : String) {hex : List Char} :
    splitAlpha literal hex = .error .splitCharacter ↔ CutsCharacter hex := by
  have hcut : (byteLength hex = 5 ∨ byteLength hex = 8) →
      ((splitLastTwoBytes? hex).isSome ↔
        ∃ part, CutsOut hex (byteLength hex - 2) (byteLength hex) part) := fun hlength =>
    splitLastTwoBytes?_isSome_iff.trans (exists_cutsOut_end_iff (by omega)).symm
  unfold splitAlpha
  dsimp only
  constructor
  · intro h
    split at h
    · next hlength =>
      refine ⟨hlength, not_exists.1 fun hpart => ?_⟩
      split at h
      · next hnone =>
        have hsome := (hcut hlength).2 hpart
        rw [hnone] at hsome
        cases hsome
      · split at h <;> cases h
    · cases h
  · rintro ⟨hlength, hinside⟩
    rw [if_pos hlength]
    split
    · rfl
    · next hsome =>
      obtain ⟨part, hpart⟩ := (hcut hlength).1 (hsome ▸ rfl)
      exact absurd hpart (hinside part)

/-- Once the digits are there nothing is cut any more. -/
theorem ofDigits_ne_splitCharacter {literal : String} {alpha : Double} {digits : List Nat} :
    ofDigits literal alpha digits ≠ .error .splitCharacter := by
  unfold ofDigits
  split
  · nofun
  · nofun
  · split <;> nofun

/-- Of all that can be wrong with digits, only the opacity cuts a character. -/
theorem parseDigits_eq_splitCharacter_iff {literal : String} {hex : List Char} :
    parseDigits literal hex = .error .splitCharacter ↔ CutsCharacter hex := by
  rw [← splitAlpha_eq_splitCharacter_iff literal, parseDigits]
  split
  · next e he => rw [he, Except.error.injEq, Except.error.injEq]
  · next digits alpha hok =>
    rw [hok]
    refine iff_of_false ?_ nofun
    split
    · nofun
    · exact ofDigits_ne_splitCharacter

/-- A color literal cannot be read exactly if its opacity begins inside a character. -/
theorem parseChars_eq_splitCharacter_iff {digits : List Char} :
    parseChars ('#' :: digits) = .error .splitCharacter ↔ CutsCharacter (trimEndChars digits) := by
  rw [parseChars, trimChars, trimStartChars, List.dropWhile_cons_of_neg (by decide),
    trimEndChars_cons (by decide)]
  exact parseDigits_eq_splitCharacter_iff

end Color

/-! ## Faults of other forms -/

namespace Value

section Colorless

variable {α β : Type} {source : String}

/-- No fault of a color comes out. -/
def Colorless (x : Except ValueError α) : Prop := ∀ e, x ≠ .error (.color e)

theorem colorless_ok (a : α) : Colorless (.ok a) := nofun

theorem colorless_fail (fault : Fault) : Colorless (fail source fault : Except ValueError α) :=
  nofun

theorem Colorless.bind {x : Except ValueError α} {f : α → Except ValueError β}
    (hx : Colorless x) (hf : ∀ a, Colorless (f a)) : Colorless (x >>= f) := fun e h =>
  (bind_eq_error.1 h).elim (hx e) fun ⟨a, _, ha⟩ => hf a e ha

theorem colorless_mapM {l : List α} {f : α → Except ValueError β} (hf : ∀ a, Colorless (f a)) :
    Colorless (l.mapM f) := fun e h =>
  have ⟨a, _, ha⟩ := exists_of_mapM_eq_error h
  hf a e ha

/-- No word is a fault of a color. -/
theorem colorless_ofWord (word : String) : Colorless (ofWord word) := by
  unfold ofWord
  split
  · exact colorless_ok _
  · split
    · exact colorless_ok _
    · split
      · exact colorless_ok _
      · exact colorless_fail _

theorem colorless_nameOf (a : Argument) : Colorless (nameOf source a) := by
  unfold nameOf
  split
  · exact colorless_ok _
  · exact colorless_fail _

theorem colorless_numberOf (a : Argument) : Colorless (numberOf source a) := by
  unfold numberOf
  split
  · exact colorless_ok _
  · exact colorless_fail _

theorem colorless_single (form : String) (arguments : List Argument) :
    Colorless (single source form arguments) := by
  unfold single
  split
  · exact colorless_ok _
  · exact colorless_fail _

theorem colorless_singleName (form : String) (arguments : List Argument) :
    Colorless (singleName source form arguments) :=
  (colorless_single form arguments).bind colorless_nameOf

theorem colorless_numbers (form : String) (count : Nat) (arguments : List Argument) :
    Colorless (numbers source form count arguments) := by
  unfold numbers
  split
  · exact colorless_mapM colorless_numberOf
  · exact colorless_fail _

theorem colorless_fontOfNames (typography names : List String) :
    Colorless (fontOfNames source typography names) := by
  unfold fontOfNames
  split
  · exact colorless_ok _
  · nofun

/-- A call of a redirect is read without a fault of a color. -/
theorem colorless_redirectOfCall (arguments : List Argument) :
    Colorless (redirectOfCall source arguments) := by
  have hsingle : Colorless (single source "redirect(Style.property)" arguments) :=
    colorless_single _ _
  unfold redirectOfCall
  split
  · next e he =>
    intro color h
    cases h
    exact hsingle color he
  · split
    · exact colorless_ok _
    · exact (colorless_nameOf _).bind fun _ => colorless_ok _

theorem colorless_changeFields (fields : ChangeFields) (arguments : List Argument) :
    Colorless (changeFields source fields arguments) := by
  induction arguments generalizing fields with
  | nil => exact colorless_ok _
  | cons a rest ih =>
    unfold changeFields
    split
    · exact (colorless_nameOf a).bind fun _ => ih _
    · exact (colorless_numberOf a).bind fun _ => ih _
    · exact (colorless_numberOf a).bind fun _ => ih _
    · exact colorless_fail _

theorem colorless_changeOfFields (fields : ChangeFields) :
    Colorless (changeOfFields source fields) := by
  unfold changeOfFields
  split
  · exact colorless_fail _
  · split
    · exact colorless_ok _
    · exact colorless_fail _

theorem colorless_changeOfCall (arguments : List Argument) :
    Colorless (changeOfCall source arguments) :=
  (colorless_changeFields _ arguments).bind colorless_changeOfFields

/-- The changes of an animation are read without a fault of a color. -/
theorem colorless_changesOf (e : Expr) : Colorless (changesOf source e) := by
  unfold changesOf
  split
  · refine colorless_mapM fun item => ?_
    unfold changeOfItem
    split
    · split
      · exact colorless_changeOfCall _
      · exact colorless_fail _
    · exact colorless_fail _
  · exact colorless_fail _

theorem colorless_keyFrameOfCall (frame : KeyFrame) (arguments : List Argument) :
    Colorless (keyFrameOfCall source frame arguments) := by
  induction arguments generalizing frame with
  | nil => exact colorless_ok _
  | cons a rest ih =>
    unfold keyFrameOfCall
    split
    · exact (colorless_numberOf a).bind fun _ => ih _
    · exact (colorless_numberOf a).bind fun _ => ih _
    · exact (colorless_changesOf a.value).bind fun _ => ih _
    · exact colorless_fail _

theorem colorless_definitionType (capitalized : Bool) (ctx : ValueContext)
    (arguments : List Argument) : Colorless (definitionType source capitalized ctx arguments) := by
  unfold definitionType
  split
  · exact colorless_ok _
  · split
    · exact colorless_fail _
    · exact (colorless_nameOf _).bind fun _ => colorless_ok _

theorem colorless_memberOf (item : Expr) : Colorless (memberOf source item) := by
  unfold memberOf
  split
  · exact colorless_ok _
  · exact colorless_fail _

theorem colorless_optionEntryOf (a : Argument) : Colorless (optionEntryOf source a) := by
  unfold optionEntryOf
  split
  · exact (colorless_mapM colorless_memberOf).bind fun _ => colorless_ok _
  · exact (colorless_nameOf a).bind fun _ => colorless_ok _
  · exact colorless_fail _

theorem colorless_qualified (text : String) : Colorless (qualified source text) := by
  unfold qualified
  split
  · exact colorless_ok _
  · exact colorless_ok _
  · exact colorless_fail _

theorem colorless_optionNames (type : Option String) (arguments : List Argument) :
    Colorless (optionNames source type arguments) := by
  induction arguments generalizing type with
  | nil => exact colorless_ok _
  | cons a rest ih =>
    refine (colorless_nameOf a).bind fun text => (colorless_qualified text).bind fun p => ?_
    dsimp only
    split
    · exact (ih _).bind fun _ => colorless_ok _
    · exact colorless_fail _

/-- Only a call of `color` can have a fault of a color. -/
theorem colorless_ofCall (ctx : ValueContext) {keyword : Keyword} (hkeyword : keyword ≠ .color)
    (capitalized : Bool) (arguments : List Argument) :
    Colorless (ofCall source ctx keyword capitalized arguments) := by
  cases keyword with
  | color => exact absurd rfl hkeyword
  | font => exact (colorless_mapM colorless_nameOf).bind fun _ => colorless_fontOfNames _ _
  | namedColor | image | icon => exact (colorless_singleName _ _).bind fun _ => colorless_ok _
  | redirect => exact colorless_redirectOfCall arguments
  | point | size | rect | edgeInsets =>
    refine (colorless_numbers _ _ _).bind fun _ => ?_
    split
    · exact colorless_ok _
    · exact colorless_fail _
  | repeatCount =>
    refine (colorless_singleName _ _).bind fun _ => ?_
    split
    · exact colorless_ok _
    · exact colorless_fail _
  | timingFunction =>
    refine (colorless_mapM colorless_nameOf).bind fun _ => ?_
    split
    · exact colorless_ok _
    · exact colorless_fail _
  | animationValue => exact (colorless_changeOfCall _).bind fun _ => colorless_ok _
  | keyFrame => exact (colorless_keyFrameOfCall _ _).bind fun _ => colorless_ok _
  | enumDef =>
    refine (colorless_definitionType _ _ _).bind fun _ =>
      (colorless_mapM colorless_nameOf).bind fun _ => ?_
    split
    · exact colorless_fail _
    · exact colorless_ok _
  | optionDef =>
    refine (colorless_definitionType _ _ _).bind fun _ =>
      (colorless_mapM colorless_optionEntryOf).bind fun _ => ?_
    split
    · exact colorless_fail _
    · exact colorless_ok _
  | enumCase =>
    exact (colorless_singleName _ _).bind fun text =>
      (colorless_qualified text).bind fun _ => colorless_ok _
  | optionSet =>
    change Colorless (optionSetOfCall source arguments)
    unfold optionSetOfCall
    split
    · exact colorless_fail _
    · exact (colorless_optionNames _ _).bind fun _ => colorless_ok _
  | call =>
    change Colorless (expressionOfCall source arguments)
    unfold expressionOfCall
    split
    · exact (colorless_nameOf _).bind fun _ => colorless_ok _
    · exact colorless_fail _

end Colorless

/-! ## Values that cannot be read -/

/-- The text that an argument of `color` gives as digits. -/
def digitsText? : Expr → Option String
  | .color digits => some digits
  | .word digits => some digits
  | .quoted digits => some digits
  | _ => none

/-- Reading the value comes to a color whose opacity begins inside a character. -/
inductive CutsCharacter (source : String) (ctx : ValueContext) : Expr → Prop
  | color {digits : String} : Color.CutsCharacter (trimEndChars digits.toList) →
    CutsCharacter source ctx (.color digits)
  | call {name digits : String} {a : Argument} : Keyword.ofName? name = some .color →
    digitsText? a.value = some digits →
    Color.CutsCharacter (trimEndChars (digits.toList.dropWhile (· == '#'))) →
    CutsCharacter source ctx (.call name [a])
  /-- The items before are values. -/
  | list {before after : List Expr} {e : Expr} :
    (∀ f ∈ before, ∃ v, ofExpr source ctx f = .ok v) → CutsCharacter source ctx e →
    CutsCharacter source ctx (.list (before ++ e :: after))

section CutsCharacter

variable {source : String} {ctx : ValueContext}

/-- A color literal fails this way if its digits cut a character. -/
theorem ofHex_eq_splitCharacter_iff {digits : List Char} :
    ofHex digits = .error (.color .splitCharacter) ↔ Color.CutsCharacter (trimEndChars digits) := by
  rw [← Color.parseChars_eq_splitCharacter_iff, ofHex]
  split
  · next hok => rw [hok]; exact iff_of_false nofun nofun
  · next e he => rw [he, Except.error.injEq, ValueError.color.injEq, Except.error.injEq]

/-- A call of `color` with one argument takes its digits from a word, a quoted text or a literal.
-/
theorem colorOfCall_singleton (a : Argument) :
    colorOfCall source [a] =
      match digitsText? a.value with
      | some digits => ofHex (digits.toList.dropWhile (· == '#'))
      | none => fail source .notHexDigits := by
  obtain ⟨label, value, raw⟩ := a
  cases value <;> rfl

/-- A call of `color` fails this way if it has one argument whose digits cut a character. -/
theorem colorOfCall_eq_splitCharacter_iff {arguments : List Argument} :
    colorOfCall source arguments = .error (.color .splitCharacter) ↔
      ∃ a digits, arguments = [a] ∧ digitsText? a.value = some digits ∧
        Color.CutsCharacter (trimEndChars (digits.toList.dropWhile (· == '#'))) := by
  constructor
  · intro h
    rcases arguments with _ | ⟨a, _ | ⟨b, others⟩⟩
    · cases h
    · rw [colorOfCall_singleton] at h
      split at h
      · next digits hdigits => exact ⟨a, digits, rfl, hdigits, ofHex_eq_splitCharacter_iff.1 h⟩
      · cases h
    · cases h
  · rintro ⟨a, digits, rfl, hdigits, hcut⟩
    rw [colorOfCall_singleton, hdigits]
    exact ofHex_eq_splitCharacter_iff.2 hcut

mutual

/-- A value that fails this way has an expression that cuts a character, in a list perhaps. -/
theorem cutsCharacter_of_ofExpr : ∀ {e : Expr},
    ofExpr source ctx e = .error (.color .splitCharacter) → CutsCharacter source ctx e
  | .word word, h => absurd (by rwa [ofExpr] at h) (colorless_ofWord word .splitCharacter)
  | .quoted text, h => by
    rw [ofExpr] at h
    cases h
  | .color digits, h => .color (ofHex_eq_splitCharacter_iff.1 (by rwa [ofExpr] at h))
  | .redirect path, h => by
    rw [ofExpr] at h
    cases h
  | .list items, h => by
    rw [ofExpr] at h
    split at h
    · cases h
    · next e he =>
      cases h
      obtain ⟨before, f, after, hitems, hbefore, hf⟩ := exists_item_of_ofItems he
      rw [hitems]
      exact .list hbefore hf
  | .call name arguments, h => by
    rw [ofExpr] at h
    split at h
    · next keyword hkeyword =>
      by_cases hcolor : keyword = .color
      · subst hcolor
        obtain ⟨a, digits, rfl, hdigits, hcut⟩ := colorOfCall_eq_splitCharacter_iff.1 h
        exact .call hkeyword hdigits hcut
      · exact absurd h (colorless_ofCall ctx hcolor _ _ _)
    · cases h

/-- The first item that is no value decides. -/
theorem exists_item_of_ofItems : ∀ {es : List Expr},
    ofItems source ctx es = .error (.color .splitCharacter) →
      ∃ before e after, es = before ++ e :: after ∧
        (∀ f ∈ before, ∃ v, ofExpr source ctx f = .ok v) ∧ CutsCharacter source ctx e
  | [], h => by
    rw [ofItems] at h
    cases h
  | e :: es, h => by
    rw [ofItems] at h
    split at h
    · next error he =>
      cases h
      exact ⟨[], e, es, rfl, by simp, cutsCharacter_of_ofExpr he⟩
    · next v hv =>
      split at h
      · cases h
      · next error hes =>
        cases h
        obtain ⟨before, f, after, hes, hbefore, hf⟩ := exists_item_of_ofItems hes
        exact ⟨e :: before, f, after, by rw [hes]; rfl,
          List.forall_mem_cons.2 ⟨⟨v, hv⟩, hbefore⟩, hf⟩

end

/-- The first item that is no value decides why a list is none. -/
theorem ofItems_eq_error {before after : List Expr} {e : Expr} {error : ValueError}
    (hbefore : ∀ f ∈ before, ∃ v, ofExpr source ctx f = .ok v)
    (he : ofExpr source ctx e = .error error) :
    ofItems source ctx (before ++ e :: after) = .error error := by
  induction before with
  | nil => rw [List.nil_append, ofItems, he]
  | cons f before ih =>
    obtain ⟨⟨v, hv⟩, hrest⟩ := List.forall_mem_cons.1 hbefore
    rw [List.cons_append, ofItems, hv]
    dsimp only
    rw [ih hrest]

/-- An expression fails this way if and only if it cuts a character. -/
theorem ofExpr_eq_splitCharacter_iff {e : Expr} :
    ofExpr source ctx e = .error (.color .splitCharacter) ↔ CutsCharacter source ctx e := by
  refine ⟨cutsCharacter_of_ofExpr, fun h => ?_⟩
  induction h with
  | color hcut =>
    rw [ofExpr]
    exact ofHex_eq_splitCharacter_iff.2 hcut
  | call hname hdigits hcut =>
    rw [ofExpr, hname]
    exact colorOfCall_eq_splitCharacter_iff.2 ⟨_, _, rfl, hdigits, hcut⟩
  | list hbefore _ ih => rw [ofExpr, ofItems_eq_error hbefore ih]

end CutsCharacter

end Value

/-! ## All cuts -/

/-- The text of a scanned token is cut out of the source. -/
theorem Token.exists_lexeme_of_mem_scan {source : List Char} {t : Token}
    (ht : t ∈ Token.scan source) :
    ∃ part, CutsOut source t.start t.stop part ∧ Token.Lexeme t.kind part := by
  obtain ⟨before, text, after, hsource, hlexeme, hstart, hstop⟩ :=
    (Token.covers_scanFrom 0 source).exists_lexeme ht
  exact ⟨text, ⟨before, after, hsource, by rw [hstart, Nat.zero_add], hstop⟩, hlexeme⟩

namespace Expr

variable {source : List Char}

/-- The text from the first token of what is read to its last one is cut out of the source. -/
theorem cutsOut_rawText {fuel : Nat} {t : Token} {ts : List Token} {p : Parsed Expr}
    (hts : t :: ts <:+ Token.scan source) (h : value source fuel (t :: ts) = .ok p) :
    CutsOut source t.start p.stop (rawText source (t :: ts) p.stop).toList := by
  obtain ⟨v, htokens, -, hstop⟩ := exists_phrase_of_value h
  obtain ⟨u, us, hhead, hstart, -⟩ := v.exists_head
  have hinfix : v.tokens <:+: Token.scan source := by
    refine List.IsInfix.trans ?_ hts.isInfix
    rw [htokens]
    exact (List.prefix_append _ _).isInfix
  obtain rfl : t = u := by
    rw [hhead, List.cons_append] at htokens
    exact (List.cons.inj htokens).1
  have hcut := cutsOut_raw hinfix
  rwa [← rawText_tokens v p.rest, ← htokens, hstop, ← hstart] at hcut

/-- The excerpt that a fault shows is cut out of the source. -/
theorem cutsOut_of_unexpected {text : String} {offset : Nat}
    (h : parseChars source = .error (.unexpected text offset)) :
    ∃ stop, CutsOut source offset stop text.toList := by
  obtain ⟨t, ht, rfl, rfl⟩ := exists_token_of_unexpected h
  obtain ⟨part, hcut, -⟩ := Token.exists_lexeme_of_mem_scan ht
  refine ⟨t.stop, ?_⟩
  rwa [hcut.slice_eq, String.toList_ofList]

end Expr

/-- Reading a value fails to give a value or an error exactly where it comes to a color whose
opacity begins inside a character. Everything else that is cut out of the text is cut between
characters: its tokens, the texts of values from any token on, and the excerpts in faults. -/
theorem Value.parse_eq_splitCharacter_iff (ctx : ValueContext) (source : String) :
    (parse ctx source = .error (.color .splitCharacter) ↔
      ∃ e, Expr.parse source = .ok e ∧ CutsCharacter source ctx e) ∧
    (∀ t ∈ Token.scan source.toList,
      ∃ part, CutsOut source.toList t.start t.stop part ∧ Token.Lexeme t.kind part) ∧
    (∀ fuel t ts p, t :: ts <:+ Token.scan source.toList →
      Expr.value source.toList fuel (t :: ts) = .ok p →
        CutsOut source.toList t.start p.stop
          (Expr.rawText source.toList (t :: ts) p.stop).toList) ∧
    (∀ text offset, Expr.parse source = .error (.unexpected text offset) →
      ∃ stop, CutsOut source.toList offset stop text.toList) := by
  refine ⟨?_, fun t ht => Token.exists_lexeme_of_mem_scan ht,
    fun fuel t ts p hts h => Expr.cutsOut_rawText hts h,
    fun text offset h => Expr.cutsOut_of_unexpected h⟩
  unfold parse
  constructor
  · intro h
    split at h
    · next e he => exact ⟨e, he, ofExpr_eq_splitCharacter_iff.1 h⟩
    · cases h
  · rintro ⟨e, he, hcut⟩
    rw [he]
    exact ofExpr_eq_splitCharacter_iff.2 hcut

/-- The last two bytes of these digits are the end of a character of three. -/
theorem Value.parse_euro_splits :
    parse ⟨none, []⟩ "#ab€" = .error (.color .splitCharacter) := by
  have hhash : Token.next? 0 "#ab€".toList = some ⟨⟨.hash, 0, 1⟩, 1, "ab€".toList⟩ := rfl
  have hword : Token.next? 1 "ab€".toList = some ⟨⟨.word "ab€", 1, 6⟩, 6, []⟩ := rfl
  have hscan : Token.scan "#ab€".toList = [⟨.hash, 0, 1⟩, ⟨.word "ab€", 1, 6⟩] := by
    rw [Token.scan, Token.scanFrom_of_next? hhash, Token.scanFrom_of_next? hword, Token.scanFrom]
    rfl
  have hparse : Expr.parse "#ab€" = .ok (.color "ab€") := by
    rw [Expr.parse, Expr.parseChars, hscan]
    rfl
  rw [parse, hparse]
  rfl

end Appearance
