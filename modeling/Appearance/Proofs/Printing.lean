import Appearance.Proofs.Grammar

/-!
# Expressions are read back

`Expr.print` writes an expression. An expression is `Expr.Printable` if its words are words of the
scan and each quoted text lacks one of the two quotes; what is then printed is scanned as the
tokens of a derivation of the same expression (`Expr.Printable.readsBack`), up to the texts that
arguments keep of their source, which `Expr.bare` forgets.

`Expr.parse_iff_derived` gathers what reading a value text comes to.

Two scans are compared in every step, that of the printed text and the tokens of a derivation; what
follows a word must not continue it, and this side condition is part of `ReadsBack`. A quoted text
is printed with a double quote unless it has one itself, so it is the texts with both quotes that
cannot be printed. Expressions lose the raw texts of their arguments in the comparison, because a
printed argument need not be spelled as the one that was read.
-/

namespace Appearance

open Appearance.Text Appearance.Token

/-! ## Printing -/

namespace Expr

/-- The quote that a text is printed with. -/
def quoteOf (text : List Char) : Char := if '"' ∈ text then '\'' else '"'

theorem isQuote_quoteOf (text : List Char) : isQuote (quoteOf text) = true := by
  unfold quoteOf
  split <;> rfl

end Expr

mutual

/-- The text of an expression. -/
def Expr.spell : Expr → List Char
  | .word text => text.toList
  | .quoted text => Expr.quoteOf text.toList :: (text.toList ++ [Expr.quoteOf text.toList])
  | .color digits => '#' :: digits.toList
  | .redirect path => '$' :: path.toList
  | .call name arguments => name.toList ++ '(' :: (Expr.spellArguments arguments ++ [')'])
  | .list items => '[' :: (Expr.spellItems items ++ [']'])

def Argument.spell : Argument → List Char
  | .mk none value _ => value.spell
  | .mk (some label) value _ => label.toList ++ ':' :: ' ' :: value.spell

/-- The texts of arguments, with commas between them. -/
def Expr.spellArguments : List Argument → List Char
  | [] => []
  | [a] => a.spell
  | a :: b :: rest => a.spell ++ ',' :: ' ' :: Expr.spellArguments (b :: rest)

/-- The texts of items, with commas between them. -/
def Expr.spellItems : List Expr → List Char
  | [] => []
  | [e] => e.spell
  | e :: f :: rest => e.spell ++ ',' :: ' ' :: Expr.spellItems (f :: rest)

end

namespace Expr

/-- The text of an expression. -/
def print (e : Expr) : String := String.ofList e.spell

end Expr

mutual

/-- Its words, names, labels, paths and digits are words of the scan, and no quoted text has the
quote that it is printed with. -/
inductive Expr.Printable : Expr → Prop
  | word {text : String} : IsWord text.toList → Expr.Printable (.word text)
  | quoted {text : String} : Expr.quoteOf text.toList ∉ text.toList → Expr.Printable (.quoted text)
  | color {digits : String} : IsWord digits.toList → Expr.Printable (.color digits)
  | redirect {path : String} : IsWord path.toList → Expr.Printable (.redirect path)
  | call {name : String} {arguments : List Argument} : IsWord name.toList →
    (∀ a ∈ arguments, a.Printable) → Expr.Printable (.call name arguments)
  | list {items : List Expr} : (∀ e ∈ items, e.Printable) → Expr.Printable (.list items)

inductive Argument.Printable : Argument → Prop
  | mk {label : Option String} {value : Expr} {raw : String} :
    (∀ l ∈ label, IsWord l.toList) → value.Printable → Argument.Printable (.mk label value raw)

end

mutual

/-- The expression without the texts that its arguments keep. -/
def Expr.bare : Expr → Expr
  | .word text => .word text
  | .quoted text => .quoted text
  | .color digits => .color digits
  | .redirect path => .redirect path
  | .call name arguments => .call name (Expr.bareArguments arguments)
  | .list items => .list (Expr.bareItems items)

def Argument.bare : Argument → Argument
  | .mk label value _ => .mk label value.bare ""

def Expr.bareArguments : List Argument → List Argument
  | [] => []
  | a :: rest => a.bare :: Expr.bareArguments rest

def Expr.bareItems : List Expr → List Expr
  | [] => []
  | e :: rest => e.bare :: Expr.bareItems rest

end

/-! ## What is printed is scanned as a derivation -/

namespace Token

/-- A word is scanned as one token. -/
theorem scanFrom_word {text : String} (h : IsWord text.toList) {rest : List Char}
    (hrest : EndsWord rest) (offset : Nat) :
    ∃ span : Span, scanFrom offset (text.toList ++ rest) =
      span.token (.word text) :: scanFrom span.stop rest := by
  refine ⟨⟨offset, offset + byteLength text.toList⟩, ?_⟩
  rw [(Lexeme.word h).scanFrom_append nofun hrest offset, String.ofList_toList]
  rfl

/-- A quoted text is scanned as one token. -/
theorem scanFrom_quoted {text : String} (h : Expr.quoteOf text.toList ∉ text.toList)
    {rest : List Char} (hrest : EndsWord rest) (offset : Nat) :
    ∃ span : Span, scanFrom offset ((Expr.quoted text).spell ++ rest) =
      span.token (.quoted text) :: scanFrom span.stop rest := by
  refine ⟨⟨offset, offset + byteLength (Expr.quoted text).spell⟩, ?_⟩
  rw [Expr.spell, (Lexeme.quoted (Expr.isQuote_quoteOf _) h).scanFrom_append nofun hrest offset,
    String.ofList_toList]
  rfl

theorem exists_scanFrom_punctuation {c : Char} {kind : Kind} (h : punctuation? c = some kind)
    (offset : Nat) (rest : List Char) :
    ∃ span : Span, scanFrom offset (c :: rest) = span.token kind :: scanFrom span.stop rest :=
  ⟨⟨offset, offset + c.utf8Size⟩, scanFrom_punctuation h offset rest⟩

/-- After punctuation a space changes nothing but the offset. -/
theorem exists_scanFrom_space {c : Char} {kind : Kind} (h : punctuation? c = some kind)
    (offset : Nat) (rest : List Char) :
    ∃ (span : Span) (next : Nat),
      scanFrom offset (c :: ' ' :: rest) = span.token kind :: scanFrom next rest := by
  obtain ⟨span, hspan⟩ := exists_scanFrom_punctuation h offset (' ' :: rest)
  exact ⟨span, _, by rw [hspan, scanFrom_blank rfl]⟩

end Token

namespace Expr

/-- The text is scanned as the tokens of a derivation of the expression, at every offset and before
whatever does not continue a word. -/
def ReadsBack (e : Expr) : Prop :=
  ∀ (offset : Nat) {rest : List Char}, EndsWord rest → ∃ (p : Phrase) (next : Nat),
    scanFrom offset (e.spell ++ rest) = p.tokens ++ scanFrom next rest ∧
      ∀ source, (p.expr source).bare = e.bare

/-- An argument is scanned as its label and the tokens of a derivation of its value. -/
def ArgumentReadsBack (a : Argument) : Prop :=
  ∀ (offset : Nat) {rest : List Char}, EndsWord rest →
    ∃ (label : Option LabelPhrase) (p : Phrase) (next : Nat),
      scanFrom offset (a.spell ++ rest) =
        LabelPhrase.tokensOf label ++ p.tokens ++ scanFrom next rest ∧
      ∀ source raw, (Argument.mk (label.map LabelPhrase.text) (p.expr source) raw).bare = a.bare

/-- Printed arguments are scanned as derivations of them. -/
theorem exists_argumentPhrases {a : Argument} {as : List Argument}
    (h : ∀ b ∈ a :: as, ArgumentReadsBack b) (offset : Nat) {rest : List Char}
    (hrest : EndsWord rest) :
    ∃ (p : ArgumentPhrases) (next : Nat),
      scanFrom offset (spellArguments (a :: as) ++ rest) = p.tokens ++ scanFrom next rest ∧
        ∀ source, bareArguments (p.arguments source) = bareArguments (a :: as) := by
  induction as generalizing a offset with
  | nil =>
    have ha := h a List.mem_cons_self
    obtain ⟨label, p, next, hscan, hbare⟩ := ha offset hrest
    refine ⟨.last label p, next, hscan, fun source => ?_⟩
    simp only [ArgumentPhrases.arguments, bareArguments, hbare]
  | cons b as ih =>
    obtain ⟨ha, has⟩ := List.forall_mem_cons.1 h
    obtain ⟨label, p, afterValue, hvalue, hbare⟩ :=
      ha offset (endsWord_cons (c := ',') rfl (' ' :: (spellArguments (b :: as) ++ rest)))
    obtain ⟨comma, afterComma, hcomma⟩ :=
      exists_scanFrom_space (c := ',') rfl afterValue (spellArguments (b :: as) ++ rest)
    obtain ⟨more, next, hmore, hmoreBare⟩ := ih has afterComma
    refine ⟨.more label p comma more, next, ?_, fun source => ?_⟩
    · rw [spellArguments, List.append_assoc, List.cons_append, List.cons_append, hvalue, hcomma,
        hmore, ArgumentPhrases.tokens, List.append_assoc (_ ++ _), List.cons_append]
    · rw [ArgumentPhrases.arguments, bareArguments, hbare, hmoreBare]
      rfl

/-- Printed items are scanned as derivations of them. -/
theorem exists_itemPhrases {e : Expr} {es : List Expr} (h : ∀ f ∈ e :: es, ReadsBack f)
    (offset : Nat) {rest : List Char} (hrest : EndsWord rest) :
    ∃ (p : ItemPhrases) (next : Nat),
      scanFrom offset (spellItems (e :: es) ++ rest) = p.tokens ++ scanFrom next rest ∧
        ∀ source, bareItems (p.exprs source) = bareItems (e :: es) := by
  induction es generalizing e offset with
  | nil =>
    have he := h e List.mem_cons_self
    obtain ⟨p, next, hscan, hbare⟩ := he offset hrest
    refine ⟨.last p, next, hscan, fun source => ?_⟩
    simp only [ItemPhrases.exprs, bareItems, hbare]
  | cons f es ih =>
    obtain ⟨he, hes⟩ := List.forall_mem_cons.1 h
    obtain ⟨p, afterValue, hvalue, hbare⟩ :=
      he offset (endsWord_cons (c := ',') rfl (' ' :: (spellItems (f :: es) ++ rest)))
    obtain ⟨comma, afterComma, hcomma⟩ :=
      exists_scanFrom_space (c := ',') rfl afterValue (spellItems (f :: es) ++ rest)
    obtain ⟨more, next, hmore, hmoreBare⟩ := ih hes afterComma
    refine ⟨.more p .comma comma more, next, ?_, fun source => ?_⟩
    · rw [spellItems, List.append_assoc, List.cons_append, List.cons_append, hvalue, hcomma,
        hmore, ItemPhrases.tokens, List.append_assoc, List.cons_append, Separator.kind]
    · rw [ItemPhrases.exprs, bareItems, hbare, hmoreBare]
      rfl

/-- A call is read back if its arguments are. -/
theorem readsBack_call {name : String} (hname : IsWord name.toList) {arguments : List Argument}
    (h : ∀ a ∈ arguments, ArgumentReadsBack a) : (call name arguments).ReadsBack := by
  intro offset rest _
  obtain ⟨span, hspan⟩ := scanFrom_word hname
    (endsWord_cons (c := '(') rfl (spellArguments arguments ++ ')' :: rest)) offset
  obtain ⟨opening, hopening⟩ := exists_scanFrom_punctuation (c := '(') rfl span.stop
    (spellArguments arguments ++ ')' :: rest)
  have hspell : (call name arguments).spell ++ rest =
      name.toList ++ '(' :: (spellArguments arguments ++ ')' :: rest) := by
    simp only [spell, List.append_assoc, List.cons_append, List.nil_append]
  rw [hspell, hspan, hopening]
  cases arguments with
  | nil =>
    obtain ⟨closing, hclosing⟩ := exists_scanFrom_punctuation (c := ')') rfl opening.stop rest
    refine ⟨.emptyCall name span opening closing, closing.stop, ?_, fun _ => rfl⟩
    rw [spellArguments, List.nil_append, hclosing, Phrase.tokens]
    rfl
  | cons a as =>
    obtain ⟨p, next, hscan, hbare⟩ :=
      exists_argumentPhrases h opening.stop (endsWord_cons (c := ')') rfl rest)
    obtain ⟨closing, hclosing⟩ := exists_scanFrom_punctuation (c := ')') rfl next rest
    refine ⟨.call name span opening p closing, closing.stop, ?_, fun source => ?_⟩
    · rw [hscan, hclosing, Phrase.tokens]
      simp only [List.cons_append, List.append_assoc, List.nil_append]
    · rw [Phrase.expr, bare, bare, hbare]

/-- A list is read back if its items are. -/
theorem readsBack_list {items : List Expr} (h : ∀ e ∈ items, ReadsBack e) :
    (list items).ReadsBack := by
  intro offset rest _
  obtain ⟨opening, hopening⟩ := exists_scanFrom_punctuation (c := '[') rfl offset
    (spellItems items ++ ']' :: rest)
  have hspell : (list items).spell ++ rest = '[' :: (spellItems items ++ ']' :: rest) := by
    simp only [spell, List.append_assoc, List.cons_append, List.nil_append]
  rw [hspell, hopening]
  cases items with
  | nil =>
    obtain ⟨closing, hclosing⟩ := exists_scanFrom_punctuation (c := ']') rfl opening.stop rest
    refine ⟨.emptyList opening closing, closing.stop, ?_, fun _ => rfl⟩
    rw [spellItems, List.nil_append, hclosing, Phrase.tokens]
    rfl
  | cons e es =>
    obtain ⟨p, next, hscan, hbare⟩ :=
      exists_itemPhrases h opening.stop (endsWord_cons (c := ']') rfl rest)
    obtain ⟨closing, hclosing⟩ := exists_scanFrom_punctuation (c := ']') rfl next rest
    refine ⟨.list opening p closing, closing.stop, ?_, fun source => ?_⟩
    · rw [hscan, hclosing, Phrase.tokens]
      simp only [List.cons_append, List.append_assoc, List.nil_append]
    · rw [Phrase.expr, bare, bare, hbare]

/-- An argument is read back if its value is. -/
theorem argumentReadsBack {label : Option String} (hlabel : ∀ l ∈ label, IsWord l.toList)
    {value : Expr} (hvalue : value.ReadsBack) (raw : String) :
    ArgumentReadsBack (.mk label value raw) := by
  intro offset rest hrest
  cases label with
  | none =>
    obtain ⟨p, next, hscan, hbare⟩ := hvalue offset hrest
    refine ⟨none, p, next, hscan, fun source raw => ?_⟩
    rw [Argument.bare, Argument.bare, hbare]
    rfl
  | some label =>
    obtain ⟨span, hspan⟩ := scanFrom_word (hlabel label rfl)
      (endsWord_cons (c := ':') rfl (' ' :: (value.spell ++ rest))) offset
    obtain ⟨colon, afterColon, hcolon⟩ :=
      exists_scanFrom_space (c := ':') rfl span.stop (value.spell ++ rest)
    obtain ⟨p, next, hscan, hbare⟩ := hvalue afterColon hrest
    refine ⟨some ⟨label, span, colon⟩, p, next, ?_, fun source raw => ?_⟩
    · rw [Argument.spell, List.append_assoc, List.cons_append, List.cons_append, hspan, hcolon,
        hscan]
      rfl
    · rw [Argument.bare, Argument.bare, hbare]
      rfl

end Expr

mutual

/-- Every expression that can be printed is read back. -/
theorem Expr.Printable.readsBack {e : Expr} : e.Printable → e.ReadsBack
  | .word htext => fun offset _ hrest =>
    have ⟨span, hspan⟩ := scanFrom_word htext hrest offset
    ⟨.word _ span, span.stop, hspan, fun _ => rfl⟩
  | .quoted htext => fun offset _ hrest =>
    have ⟨span, hspan⟩ := scanFrom_quoted htext hrest offset
    ⟨.quoted _ span, span.stop, hspan, fun _ => rfl⟩
  | .color hdigits => fun offset _ hrest => by
    obtain ⟨hash, hhash⟩ := exists_scanFrom_punctuation (c := '#') rfl offset _
    obtain ⟨span, hspan⟩ := scanFrom_word hdigits hrest hash.stop
    exact ⟨.color hash _ span, span.stop, by rw [Expr.spell, List.cons_append, hhash, hspan]; rfl,
      fun _ => rfl⟩
  | .redirect hpath => fun offset _ hrest => by
    obtain ⟨dollar, hdollar⟩ := exists_scanFrom_punctuation (c := '$') rfl offset _
    obtain ⟨span, hspan⟩ := scanFrom_word hpath hrest dollar.stop
    exact ⟨.redirect dollar _ span, span.stop,
      by rw [Expr.spell, List.cons_append, hdollar, hspan]; rfl, fun _ => rfl⟩
  | .call hname harguments => Expr.readsBack_call hname fun a ha => (harguments a ha).readsBack
  | .list hitems => Expr.readsBack_list fun e he => (hitems e he).readsBack

theorem Argument.Printable.readsBack {a : Argument} : a.Printable → Expr.ArgumentReadsBack a
  | .mk hlabel hvalue => Expr.argumentReadsBack hlabel hvalue.readsBack _

end

namespace Expr

/-- A text that is scanned as a derivation from beginning to end is read as its expression. -/
theorem parse_of_scanFrom {s : String} {p : Phrase} {next : Nat}
    (h : scanFrom 0 s.toList = p.tokens ++ scanFrom next []) :
    parse s = .ok (p.expr s.toList) := by
  have hnil : scanFrom next [] = [] := by
    rw [scanFrom]
    rfl
  rw [hnil, List.append_nil] at h
  exact parseChars_eq_ok_iff.2 ⟨p, h.symm, rfl⟩

/-- What is printed is read as the same expression, up to the texts of its arguments. -/
theorem Printable.parse_print {e : Expr} (h : e.Printable) :
    ∃ e', parse e.print = .ok e' ∧ e'.bare = e.bare := by
  have hend : EndsWord [] := nofun
  have hprint : e.print.toList = e.spell := String.toList_ofList
  obtain ⟨p, next, hscan, hbare⟩ := h.readsBack 0 hend
  rw [List.append_nil, ← hprint] at hscan
  exact ⟨p.expr e.print.toList, parse_of_scanFrom hscan, hbare _⟩

/-- A value text is read exactly if its tokens have a derivation, as the expression of that one
derivation; an unterminated quote is in none. The text of each argument, at every depth, stands in
the value text from the first to the last token of a derivation of its value. And what is printed is
read back. -/
theorem parse_iff_derived (s : String) :
    (∀ e, parse s = .ok e ↔
      ∃ p : Phrase, p.tokens = Token.scan s.toList ∧ p.expr s.toList = e) ∧
    (∀ p q : Phrase, p.tokens = Token.scan s.toList → q.tokens = Token.scan s.toList → p = q) ∧
    (∀ e, parse s = .ok e → ∀ t ∈ Token.scan s.toList, t.kind ≠ .unterminated) ∧
    (∀ e a, parse s = .ok e → e.HasArgument a →
      ∃ (v : Phrase) (first last : Token), v.tokens <:+: Token.scan s.toList ∧
        v.expr s.toList = a.value ∧ v.tokens.head? = some first ∧
        v.tokens.getLast? = some last ∧
        CutsOut s.toList first.start last.stop a.raw.toList) ∧
    (∀ e : Expr, e.Printable → ∃ e', parse e.print = .ok e' ∧ e'.bare = e.bare) := by
  refine ⟨fun e => parseChars_eq_ok_iff, fun p q hp hq => Phrase.eq_of_tokens_eq (hp.trans hq.symm),
    fun e h => ?_, fun e a h ha => ?_, fun e he => he.parse_print⟩
  · obtain ⟨p, htokens, -⟩ := parseChars_eq_ok_iff.1 h
    exact htokens ▸ p.kind_ne_unterminated
  · obtain ⟨p, htokens, rfl⟩ := parseChars_eq_ok_iff.1 h
    obtain ⟨v, hinfix, hvalue, hraw⟩ := p.derivesArgument ha
    rw [htokens] at hinfix
    obtain ⟨first, ts, hfirst, hstart, -⟩ := v.exists_head
    obtain ⟨last, us, hlast, hstop⟩ := v.exists_last
    refine ⟨v, first, last, hinfix, hvalue, by rw [hfirst, List.head?_cons],
      by rw [hlast, List.getLast?_concat], ?_⟩
    rw [hstart, hstop, ← hraw]
    exact cutsOut_raw hinfix

/-- A call with a label, a list, both quotes and a path. -/
def nestedCall : Expr :=
  .call "call" [.mk (some "to") (.list [.word "Helvetica Neue", .quoted "it's"]) "",
    .mk none (.redirect "Theme.color") ""]

/-- The words of this call are words, and its texts lack one of the quotes. -/
theorem nestedCall_printable : nestedCall.Printable := by
  refine .call (by decide) (List.forall_mem_cons.2 ⟨.mk ?_ (.list ?_),
    List.forall_mem_cons.2 ⟨.mk nofun (.redirect (by decide)), nofun⟩⟩)
  · rintro _ ⟨⟩
    decide
  · exact List.forall_mem_cons.2 ⟨.word (by decide),
      List.forall_mem_cons.2 ⟨.quoted (by decide), nofun⟩⟩

/-- This call is printed with both quotes in it and read back. -/
theorem parse_print_nestedCall :
    nestedCall.print = "call(to: [Helvetica Neue, \"it's\"], $Theme.color)" ∧
      nestedCall.Printable ∧ ∃ e, parse nestedCall.print = .ok e ∧ e.bare = nestedCall.bare :=
  have ⟨_, _, _, _, hprint⟩ := parse_iff_derived nestedCall.print
  ⟨by decide, nestedCall_printable, hprint nestedCall nestedCall_printable⟩

end Expr

end Appearance
