import Appearance.Proofs.ColorLiterals
import Appearance.Proofs.Printing
import Appearance.Proofs.ScalarTokens
import Appearance.Proofs.Shorthands
import Appearance.Value.OfNode

/-!
# Ways of writing a hexadecimal color

A value text can write a color as `#0078D4`, or in a call with the digits bare, behind `#` or
between quotes (`Color.spellings`). All of these are read by what their one argument says
(`Expr.WrittenAs`, `Value.parse_of_mem_spellings`).

In a source a color may also stand bare behind a key, where it would begin a comment. The key of
such a line ends at the colon in front of the color (`PlainKey.keySplit`), wherever the item of the
line begins (`PlainKey.exists_hasItem`), so that expanding the line makes a call of the color and
leaves the rest (`BeforeValue.expandLine_color`). `hexColor_spellings` says this of whole sources,
together with the values of the call and of a quoted color. That the reader of the program takes
both for strings is `fetches_hexColor`.
-/

namespace Appearance

open Appearance.Text

/-! ## Digits of a color -/

/-- As many hexadecimal digits as a color has, with an opacity or without. -/
structure Color.IsHexText (digits : List Char) : Prop where
  digit : ∀ c ∈ digits, ∃ n, Color.HexDigit c n
  length : digits.length ∈ [3, 5, 6, 8]

namespace Color.IsHexText

variable {digits : List Char}

theorem forall_mem (h : IsHexText digits) {P : Char → Prop}
    (hP : ∀ c ∈ "0123456789abcdefABCDEF".toList, P c) : ∀ c ∈ digits, P c := fun c hc =>
  have ⟨_, hdigit⟩ := h.digit c hc
  hP c hdigit.mem

theorem ne_nil (h : IsHexText digits) : digits ≠ [] := by
  rintro rfl
  exact absurd h.length (by decide)

theorem isWord (h : IsHexText digits) : Token.IsWord digits where
  ne_nil := h.ne_nil
  trimmed := trimChars_solid (h.forall_mem (by decide))
  noDelimiter := h.forall_mem (by decide)

theorem dropWhile_sign (h : IsHexText digits) : digits.dropWhile (· == '#') = digits := by
  have hnot : ∀ c ∈ digits, ¬ (c == '#') = true := h.forall_mem (by decide)
  cases digits with
  | nil => rfl
  | cons c cs => exact List.dropWhile_cons_of_neg (hnot c List.mem_cons_self)

end Color.IsHexText

/-! ## Values -/

namespace Expr

open Appearance.Token

/-- The text is scanned as a derivation of the expression, at every offset and before whatever does
not continue a word. -/
def WrittenAs (e : Expr) (text : List Char) : Prop :=
  ∀ (offset : Nat) {rest : List Char}, EndsWord rest → ∃ (p : Phrase) (next : Nat),
    scanFrom offset (text ++ rest) = p.tokens ++ scanFrom next rest ∧ ∀ source, p.expr source = e

theorem writtenAs_word {text : String} (h : IsWord text.toList) :
    WrittenAs (.word text) text.toList := by
  intro offset rest hrest
  obtain ⟨span, hspan⟩ := scanFrom_word h hrest offset
  exact ⟨.word text span, span.stop, hspan, fun _ => rfl⟩

/-- A color literal has the sign in front. -/
theorem writtenAs_color {digits : String} (h : IsWord digits.toList) :
    WrittenAs (.color digits) ('#' :: digits.toList) := by
  intro offset rest hrest
  obtain ⟨sign, hsign⟩ := exists_scanFrom_punctuation (c := '#') rfl offset (digits.toList ++ rest)
  obtain ⟨span, hspan⟩ := scanFrom_word h hrest sign.stop
  refine ⟨.color sign digits span, span.stop, ?_, fun _ => rfl⟩
  rw [List.cons_append, hsign, hspan]
  rfl

theorem writtenAs_quoted {q : Char} {text : String} (hq : isQuote q = true)
    (htext : q ∉ text.toList) : WrittenAs (.quoted text) (q :: (text.toList ++ [q])) := by
  intro offset rest hrest
  have hscan := (Lexeme.quoted hq htext).scanFrom_append nofun hrest offset
  rw [String.ofList_toList] at hscan
  exact ⟨.quoted text ⟨offset, _⟩, _, hscan, fun _ => rfl⟩

theorem WrittenAs.parse_eq {e : Expr} {s : String} (h : e.WrittenAs s.toList) :
    parse s = .ok e := by
  have hend : EndsWord [] := nofun
  obtain ⟨p, next, hscan, hexpr⟩ := h 0 hend
  rw [List.append_nil] at hscan
  rw [parse_of_scanFrom hscan, hexpr]

/-- A call with one argument is read as such; the argument keeps a text of its own. -/
theorem WrittenAs.exists_parse_call {e : Expr} {text : List Char} (h : e.WrittenAs text)
    {name s : String} (hname : IsWord name.toList)
    (hs : s.toList = name.toList ++ '(' :: (text ++ [')'])) :
    ∃ raw, parse s = .ok (.call name [.mk none e raw]) := by
  obtain ⟨span, hspan⟩ := scanFrom_word hname (endsWord_cons (c := '(') rfl (text ++ [')'])) 0
  obtain ⟨opening, hopening⟩ :=
    exists_scanFrom_punctuation (c := '(') rfl span.stop (text ++ [')'])
  obtain ⟨v, afterValue, hvalue, hexpr⟩ := h opening.stop (endsWord_cons (c := ')') rfl [])
  obtain ⟨closing, hclosing⟩ := exists_scanFrom_punctuation (c := ')') rfl afterValue []
  have hscan : scanFrom 0 s.toList =
      (Phrase.call name span opening (.last none v) closing).tokens ++
        scanFrom closing.stop [] := by
    rw [hs, hspan, hopening, hvalue, hclosing, Phrase.tokens]
    simp only [List.cons_append, List.append_assoc, List.nil_append]
    rfl
  refine ⟨v.raw s.toList, ?_⟩
  rw [parse_of_scanFrom hscan, Phrase.expr, ArgumentPhrases.arguments, hexpr]
  rfl

end Expr

/-- The value texts that write a color: the bare one, and three calls. -/
def Color.spellings (digits : String) : List String :=
  ["#" ++ digits, "color(" ++ digits ++ ")", "color(#" ++ digits ++ ")",
    "Color('" ++ digits ++ "')"]

namespace Value

variable {digits : String}

/-- The argument of a call is digits in any of three forms. -/
theorem colorOfCall_eq_ofHex (h : Color.IsHexText digits.toList) (source raw : String) {e : Expr}
    (he : e ∈ [.word digits, .color digits, .quoted digits]) :
    colorOfCall source [.mk none e raw] = ofHex digits.toList := by
  rw [colorOfCall, single]
  dsimp only [Argument.value]
  simp only [List.mem_cons, List.not_mem_nil, or_false] at he
  rcases he with rfl | rfl | rfl <;> exact congrArg ofHex h.dropWhile_sign

/-- A call of `color` gives the color of its digits, in any of the three forms. -/
theorem parse_call_of_writtenAs (h : Color.IsHexText digits.toList) (ctx : ValueContext) {e : Expr}
    (he : e ∈ [.word digits, .color digits, .quoted digits]) {name : String}
    (hname : Token.IsWord name.toList) (hkeyword : Keyword.ofName? name = some .color)
    {text : List Char} (htext : e.WrittenAs text) {s : String}
    (hs : s.toList = name.toList ++ '(' :: (text ++ [')'])) :
    parse ctx s = ofHex digits.toList := by
  obtain ⟨raw, hparse⟩ := htext.exists_parse_call hname hs
  rw [parse, hparse]
  dsimp only
  rw [ofExpr, hkeyword]
  exact colorOfCall_eq_ofHex h _ raw he

/-- Every way of writing a color gives the color of its digits. -/
theorem parse_of_mem_spellings (h : Color.IsHexText digits.toList) (ctx : ValueContext) :
    ∀ s ∈ Color.spellings digits, parse ctx s = ofHex digits.toList := by
  have hquote : ∀ c ∈ digits.toList, c ≠ '\'' := h.forall_mem (by decide)
  have hword := Expr.writtenAs_word h.isWord
  have hcolor := Expr.writtenAs_color h.isWord
  have hquoted := Expr.writtenAs_quoted (q := '\'') rfl fun hc => hquote _ hc rfl
  have hname : Token.IsWord "color".toList := by decide
  have hcapital : Token.IsWord "Color".toList := by decide
  simp only [Color.spellings, List.forall_mem_cons]
  refine ⟨?_, ?_, ?_, ?_, nofun⟩
  · have hbare : ("#" ++ digits).toList = '#' :: digits.toList := by simp
    rw [← hbare] at hcolor
    rw [parse, hcolor.parse_eq]
    dsimp only
    rw [ofExpr]
  · exact parse_call_of_writtenAs h ctx (by simp) hname (by decide) hword (by simp)
  · exact parse_call_of_writtenAs h ctx (by simp) hname (by decide) hcolor (by simp)
  · exact parse_call_of_writtenAs h ctx (by simp) hcapital (by decide) hquoted (by simp)

end Value

/-! ## Lines -/

namespace Shorthand

variable {key value front indent digits tail : List Char}

/-- A key that ends at the colon behind it and has no shorthand. -/
structure PlainKey (key : List Char) : Prop where
  no_quote : ∀ c ∈ key, isQuote c = false
  no_sign : '#' ∉ key
  no_colon : ¬ [':', ' '] <:+: key
  unmarked : ∀ m ∈ keyMarkers, ¬ m.1.toList <:+: key

/-- The beginning of a line up to a value: indentation, perhaps a dash, a key, and its colon. -/
inductive BeforeValue : List Char → Prop
  | plain {indent key : List Char} : Blank indent → PlainKey key →
    BeforeValue (indent ++ (key ++ [':']))
  | dashed {indent key : List Char} : Blank indent → PlainKey key →
    BeforeValue (indent ++ '-' :: ' ' :: (key ++ [':']))

theorem PlainKey.suffix {rest : List Char} (h : PlainKey key) (hrest : rest <:+ key) :
    PlainKey rest where
  no_quote := fun c hc => h.no_quote c (hrest.subset hc)
  no_sign := fun hc => h.no_sign (hrest.subset hc)
  no_colon := fun hc => h.no_colon (hc.trans hrest.isInfix)
  unmarked := fun m hm hc => h.unmarked m hm (hc.trans hrest.isInfix)

/-- No quote is open behind a text without quotes. -/
theorem quoteAfter_of_no_quote {cs : List Char} (h : ∀ c ∈ cs, isQuote c = false) :
    quoteAfter none cs = none := by
  induction cs with
  | nil => rfl
  | cons c cs ih =>
    obtain ⟨hc, hcs⟩ := List.forall_mem_cons.1 h
    rw [quoteAfter, List.foldl_cons, quoteStep, hc]
    exact ih hcs

/-- A plain key ends at the colon behind it. -/
theorem PlainKey.keySplit (h : PlainKey key) (value : List Char) :
    KeySplit none none (key ++ ':' :: ' ' :: value) key (' ' :: value) where
  eq := rfl
  ends := ⟨quoteAfter_of_no_quote h.no_quote, .inr rfl⟩
  first := by
    rintro pre post rfl ⟨-, hpost⟩
    cases post with
    | nil => simp at hpost
    | cons c post =>
      obtain rfl : c = ' ' := by simpa using hpost
      exact h.no_colon ⟨pre, post, by simp⟩
  uncommented := by
    rintro pre post rfl
    exact absurd (by simp) h.no_sign

theorem PlainKey.expandItem_eq (h : PlainKey key) (value : List Char) :
    expandItem (key ++ ':' :: ' ' :: value) = key ++ ':' :: expandValue (' ' :: value) := by
  rw [expandItem, splitKey?_eq_some_iff.2 (h.keySplit value)]
  dsimp only
  rw [expandKey_eq_self_iff.2 h.unmarked]

/-- The item of a line with a key begins somewhere in the key. -/
theorem PlainKey.exists_hasItem (h : PlainKey key) (hindent : Blank indent) (value : List Char) :
    ∃ rest, rest <:+ key ∧ HasItem (indent ++ (key ++ ':' :: value)) (rest ++ ':' :: value) := by
  induction key generalizing indent with
  | nil => exact ⟨[], List.suffix_rfl, .plain hindent rfl (by decide) (by simp)⟩
  | cons c key ih =>
    by_cases hc : isBlank c = true
    · -- A blank at the beginning of the key is indentation.
      have hindent' : Blank (indent ++ [c]) := by
        intro d hd
        rcases List.mem_append.1 hd with hd | hd
        · exact hindent d hd
        · exact List.mem_singleton.1 hd ▸ hc
      obtain ⟨rest, hrest, hitem⟩ := ih (h.suffix (List.suffix_cons c key)) hindent'
      exact ⟨rest, hrest.trans (List.suffix_cons c key), by simpa using hitem⟩
    · have hsign : c ≠ '#' := by
        rintro rfl
        exact h.no_sign List.mem_cons_self
      by_cases hdash : ['-', ' '] <+: c :: (key ++ ':' :: value)
      · obtain ⟨rfl, hspace⟩ := List.cons_prefix_cons.1 hdash
        cases key with
        | nil => simp at hspace
        | cons d key =>
          obtain ⟨rfl, -⟩ := List.cons_prefix_cons.1 hspace
          exact ⟨key, ⟨['-', ' '], rfl⟩, .dashed hindent⟩
      · exact ⟨c :: key, List.suffix_rfl, .plain hindent (by simpa using hc) hsign hdash⟩

/-- The value of a line with a key is expanded, and all before it stays. -/
theorem BeforeValue.expandLine_eq (h : BeforeValue front) (value : List Char) :
    expandLine (front ++ ' ' :: value) = front ++ expandValue (' ' :: value) := by
  have hexpand {rest : List Char} (hrest : PlainKey rest)
      (hitem : HasItem (front ++ ' ' :: value) (rest ++ ':' :: ' ' :: value)) :
      expandLine (front ++ ' ' :: value) = front ++ expandValue (' ' :: value) := by
    obtain ⟨start, hline, hexpand⟩ := hitem.exists_front
    have hsame : front ++ ' ' :: value = start ++ (rest ++ [':']) ++ ' ' :: value := by
      rw [hline]
      simp
    rw [hexpand, hrest.expandItem_eq, List.append_cancel_right hsame]
    simp
  cases h with
  | plain hindent hkey =>
    obtain ⟨rest, hrest, hitem⟩ := hkey.exists_hasItem hindent (' ' :: value)
    exact hexpand (hkey.suffix hrest) (by simpa using hitem)
  | @dashed indent key hindent hkey =>
    have hitem : HasItem (indent ++ '-' :: ' ' :: (key ++ ':' :: ' ' :: value)) _ := .dashed hindent
    exact hexpand hkey (by simpa using hitem)

/-- A bare color behind a key becomes a call of `color`. -/
theorem BeforeValue.expandLine_color (h : BeforeValue front) (hdigits : Color.IsHexText digits)
    (htail : tail = [] ∨ tail.head? = some ' ') :
    expandLine (front ++ ' ' :: '#' :: (digits ++ tail)) =
      front ++ ' ' :: ("color(".toList ++ digits ++ ')' :: tail) := by
  have hall : ∀ c ∈ digits, isHexDigit c = true := hdigits.forall_mem (by decide)
  have hblank : Blank [' '] := by decide
  have hvalue := expandValue_of_bareColor hblank hall hdigits.length htail
  rw [h.expandLine_eq, ← List.singleton_append, hvalue]
  simp

/-- A quoted value stays. -/
theorem BeforeValue.expandLine_quoted (h : BeforeValue front) (value : List Char) :
    expandLine (front ++ ' ' :: '"' :: value) = front ++ ' ' :: '"' :: value := by
  rw [h.expandLine_eq]
  rfl

/-! ## Behind a key -/

section Scan

open Appearance.Yaml (Scanner EndsScalar)

variable {digits : String}

/-- Behind a key the call is scanned as one plain scalar. -/
theorem fetches_color (h : Color.IsHexText digits.toList) {s : Scanner} (hs : s.BehindKey)
    {rest : List Char} (hends : EndsScalar (s.indent + 1).toNat rest) :
    s.Fetches (' ' :: ("color(".toList ++ digits.toList ++ ')' :: rest))
      (.scalar ("color(" ++ digits ++ ")") true) := by
  have hrest : ∀ c ∈ "olor(".toList ++ digits.toList ++ [')'], Yaml.Scalar.IsPlainChar c := by
    simp only [List.forall_mem_append]
    exact ⟨⟨by decide, h.forall_mem (by decide)⟩, by decide⟩
  have hplain := List.forall_mem_cons.2 ⟨(by decide : Yaml.Scalar.IsPlainChar 'c'), hrest⟩
  have hfetches := hs.fetches_plain rfl hplain hends
  have htext : String.ofList ('c' :: ("olor(".toList ++ digits.toList ++ [')'])) =
      "color(" ++ digits ++ ")" := by
    simp [← String.toList_inj]
  rw [htext] at hfetches
  simpa using hfetches

/-- Behind a key the quoted color is scanned as one quoted scalar. -/
theorem fetches_quoted (h : Color.IsHexText digits.toList) {s : Scanner} (hs : s.BehindKey)
    (rest : List Char) :
    s.Fetches (' ' :: '"' :: '#' :: (digits.toList ++ '"' :: rest))
      (.scalar ("#" ++ digits) false) := by
  have hquoted : ∀ c ∈ '#' :: digits.toList, Yaml.Scalar.IsQuotedChar c :=
    List.forall_mem_cons.2 ⟨by decide, h.forall_mem (by decide)⟩
  have hfetches := hs.fetches_quoted hquoted rest
  have htext : String.ofList ('#' :: digits.toList) = "#" ++ digits := by simp
  rwa [htext] at hfetches

/-- Behind the colon of a key the reader of the program takes the call of a color for a string, as
it does the quoted digits. The call is a plain scalar and might continue on other lines, so what
follows must not be indented as far. -/
theorem fetches_hexColor (h : Color.IsHexText digits.toList) {s : Scanner} {k : Yaml.PossibleKey}
    (hkey : s.candidate = some k) (houter : s.outer = []) (hbegin : k.mark.column ≤ s.column)
    (hindent : s.indent ≤ s.column) {t : Scanner} (ht : s.fetchColon = some t) {rest : List Char}
    (hends : EndsScalar (t.indent + 1).toNat rest) :
    (t.Fetches (' ' :: ("color(".toList ++ digits.toList ++ ')' :: rest))
        (.scalar ("color(" ++ digits ++ ")") true) ∧
      Yaml.Scalar.node ("color(" ++ digits ++ ")") true =
        some (.string ("color(" ++ digits ++ ")"))) ∧
    t.Fetches (' ' :: '"' :: '#' :: (digits.toList ++ '"' :: rest))
        (.scalar ("#" ++ digits) false) ∧
      Yaml.Scalar.node ("#" ++ digits) false = some (.string ("#" ++ digits)) := by
  have hbehind := Scanner.behindKey_of_fetchColon hkey houter hbegin hindent ht
  have hcall : ("color(" ++ digits ++ ")").toList =
      'c' :: 'o' :: ("lor(".toList ++ digits.toList ++ [')']) := by simp
  exact ⟨⟨fetches_color h hbehind hends, Yaml.Scalar.plainNode_color hcall⟩,
    fetches_quoted h hbehind rest, rfl⟩

end Scan

/-! ## All ways -/

/-- What comes of lines. -/
def expandedLines (ls : List (List Char)) : List Char :=
  ls.flatMap fun line => expandLine line ++ ['\n']

theorem toList_expand {source : String} {before after : List (List Char)} {line : List Char}
    (h : lines source.toList = before ++ line :: after) :
    (expand source).toList =
      expandedLines before ++ (expandLine line ++ '\n' :: expandedLines after) := by
  rw [expand, String.toList_ofList, expandChars, h]
  simp [expandedLines]

/-- The four value texts of a color are read as the same value, or fail in the same way. On a line
with a key, a bare color becomes a call and nothing else changes, and a quoted one stays; the values
of the call and of the quoted text are the same. -/
theorem hexColor_spellings {digits : String} (h : Color.IsHexText digits.toList)
    (ctx : ValueContext) :
    (∀ s ∈ Color.spellings digits, Value.parse ctx s = Value.ofHex digits.toList) ∧
    (∀ (source : String) (before after : List (List Char)) (front tail : List Char),
      BeforeValue front → (tail = [] ∨ tail.head? = some ' ') →
      (lines source.toList = before ++ (front ++ ' ' :: '#' :: (digits.toList ++ tail)) :: after →
        (expand source).toList = expandedLines before ++
          (front ++ ' ' :: ("color(".toList ++ digits.toList ++ ')' :: tail) ++
            '\n' :: expandedLines after)) ∧
      (lines source.toList =
          before ++ (front ++ ' ' :: '"' :: '#' :: (digits.toList ++ '"' :: tail)) :: after →
        (expand source).toList = expandedLines before ++
          (front ++ ' ' :: '"' :: '#' :: (digits.toList ++ '"' :: tail) ++
            '\n' :: expandedLines after))) ∧
    Value.ofNode ctx (.string ("color(" ++ digits ++ ")")) =
      Value.ofNode ctx (.string ("#" ++ digits)) := by
  have hvalues := Value.parse_of_mem_spellings h ctx
  refine ⟨hvalues, fun source before after front tail hfront htail => ⟨fun hlines => ?_,
    fun hlines => ?_⟩, ?_⟩
  · rw [toList_expand hlines, hfront.expandLine_color h htail]
  · rw [toList_expand hlines, hfront.expandLine_quoted]
  · rw [Value.ofNode, Value.ofNode, hvalues _ (by simp [Color.spellings]),
      hvalues _ (by simp [Color.spellings])]

/-- A color with an opacity, written in all ways, and in an item of a sequence. -/
theorem hexColor_spellings_accent :
    Color.IsHexText "0078D480".toList ∧ BeforeValue "  - tint:".toList ∧
      (∀ s ∈ Color.spellings "0078D480", Value.parse ⟨none, []⟩ s =
        .ok (.color ⟨.ofRatio false 0 255, .ofRatio false 120 255, .ofRatio false 212 255,
          .ofRatio false 80 100⟩)) ∧
      expand "alpha: 1\n  - tint: #0078D480 # accent\n" =
        "alpha: 1\n  - tint: color(0078D480) # accent\n" ∧
      expand "alpha: 1\n  - tint: \"#0078D480\" # accent\n" =
        "alpha: 1\n  - tint: \"#0078D480\" # accent\n" := by
  have hdigits : Color.IsHexText "0078D480".toList := by
    refine ⟨fun c hc => ?_, by decide⟩
    have hall : ∀ d ∈ "0078D480".toList, ∃ n ∈ List.range 16, Color.HexDigit d n := by decide
    obtain ⟨n, -, hn⟩ := hall c hc
    exact ⟨n, hn⟩
  have hfront : BeforeValue "  - tint:".toList := by
    have hindent : Blank [' ', ' '] := by decide
    have hkey : PlainKey "tint".toList := ⟨by decide, by decide, by decide, by decide⟩
    exact .dashed hindent hkey
  obtain ⟨hvalues, hexpand, -⟩ := hexColor_spellings hdigits ⟨none, []⟩
  have hbare := (hexpand "alpha: 1\n  - tint: #0078D480 # accent\n" ["alpha: 1".toList] []
    "  - tint:".toList " # accent".toList hfront (.inr rfl)).1 (by decide)
  have hkept := (hexpand "alpha: 1\n  - tint: \"#0078D480\" # accent\n" ["alpha: 1".toList] []
    "  - tint:".toList " # accent".toList hfront (.inr rfl)).2 (by decide)
  have hcolor : Color.parseChars ('#' :: "0078D480".toList) = .ok ⟨.ofRatio false 0 255,
      .ofRatio false 120 255, .ofRatio false 212 255, .ofRatio false 80 100⟩ := by decide
  refine ⟨hdigits, hfront, fun s hs => ?_, ?_, ?_⟩
  · rw [hvalues s hs, Value.ofHex, hcolor]
  · rw [← String.toList_inj, hbare]
    decide
  · rw [← String.toList_inj, hkept]
    decide

end Shorthand

end Appearance
