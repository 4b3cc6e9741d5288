import Appearance.Proofs.Lexemes
import Appearance.Proofs.Phrases

/-!
# Reading is exact for the grammar

A text that has a derivation is read as the expression of that derivation, whatever follows it
(`Expr.value_tokens`): twice as many steps as it has tokens are enough. And what is read has a
derivation, with the rest of the tokens behind it (`Expr.exists_phrase_of_value`).

Where reading fails because of a token, the error shows the text of that token
(`Expr.exists_token_of_unexpected`).

Both directions are inductions on the number of steps of the reader, over values, arguments and
items at once (`Expr.ValuesDerived`, `Expr.ArgumentsDerived`, `Expr.ItemsDerived`): each calls the
others with one step less.

The number of steps is counted against the tokens that are read, two for each, and any larger
number gives the same result. Derivations are unique because reading is a function, so no separate
proof of unambiguity is needed; that words and labels cannot be confused is decided by the token
behind them. Raw texts are cut out of the source by the offsets of the tokens, and `cutsOut_raw`
says that they are what was written.
-/

namespace Appearance.Expr

open Appearance.Text

variable {source : List Char}

/-! ## What is derived is read -/

/-- The text of a value is what stands between its first and its last token. -/
theorem rawText_tokens (p : Phrase) (rest : List Token) :
    rawText source (p.tokens ++ rest) p.stop = p.raw source := by
  obtain ⟨t, ts, htokens, hstart, -⟩ := p.exists_head
  rw [htokens, List.cons_append, rawText, hstart, Phrase.raw]

/-- The last argument ends at the closing parenthesis. -/
theorem arguments_last {fuel : Nat} {label : Option LabelPhrase} {p : Phrase} {closing : Span}
    {rest : List Token}
    (h : value source fuel (p.tokens ++ closing.token .closeParen :: rest) =
      .ok ⟨p.expr source, p.stop, closing.token .closeParen :: rest⟩) :
    arguments source (fuel + 1)
        (LabelPhrase.tokensOf label ++ p.tokens ++ closing.token .closeParen :: rest) =
      .ok ⟨[.mk (label.map LabelPhrase.text) (p.expr source) (p.raw source)], closing.stop,
        rest⟩ := by
  rw [arguments, splitLabel_tokens label p rest (by simp)]
  simp only [h, rawText_tokens, Span.kind_token, Span.stop_token]

/-- An argument before a comma is read with those that follow it. -/
theorem arguments_more {fuel : Nat} (label : Option LabelPhrase) {p : Phrase} (comma : Span)
    {ts : List Token} {q : Parsed (List Argument)}
    (h : value source fuel (p.tokens ++ comma.token .comma :: ts) =
      .ok ⟨p.expr source, p.stop, comma.token .comma :: ts⟩)
    (hrest : arguments source fuel ts = .ok q) :
    arguments source (fuel + 1)
        (LabelPhrase.tokensOf label ++ p.tokens ++ comma.token .comma :: ts) =
      .ok ⟨.mk (label.map LabelPhrase.text) (p.expr source) (p.raw source) :: q.result, q.stop,
        q.rest⟩ := by
  rw [arguments, splitLabel_tokens label p ts (by simp)]
  simp only [h, hrest, rawText_tokens, Span.kind_token]

theorem opensCall_separator (separator : Separator) (span : Span) (ts : List Token) :
    opensCall (span.token separator.kind :: ts) = false := by
  cases separator <;> rfl

theorem isSeparator (separator : Separator) (span : Span) :
    (span.token separator.kind).kind = .comma ∨ (span.token separator.kind).kind = .pipe := by
  cases separator <;> simp [Separator.kind]

mutual

/-- A value that has a derivation is read, if what follows does not make a call of it. -/
theorem value_tokens : ∀ (p : Phrase) (fuel : Nat) (rest : List Token), opensCall rest = false →
    2 * p.tokens.length ≤ fuel →
      value source fuel (p.tokens ++ rest) = .ok ⟨p.expr source, p.stop, rest⟩
  | .word text span, 0, _, _, hfuel => by simp [Phrase.tokens] at hfuel
  | .word text span, fuel + 1, rest, hrest, _ => by
    simp [Phrase.tokens, Phrase.expr, Phrase.stop, value, hrest]
  | .quoted text span, 0, _, _, hfuel => by simp [Phrase.tokens] at hfuel
  | .quoted text span, fuel + 1, rest, _, _ => rfl
  | .color hash digits span, 0, _, _, hfuel => by simp [Phrase.tokens] at hfuel
  | .color hash digits span, fuel + 1, rest, _, _ => rfl
  | .redirect dollar path span, 0, _, _, hfuel => by simp [Phrase.tokens] at hfuel
  | .redirect dollar path span, fuel + 1, rest, _, _ => rfl
  | .emptyCall name span opening closing, 0, _, _, hfuel => by simp [Phrase.tokens] at hfuel
  | .emptyCall name span opening closing, fuel + 1, rest, _, _ => by
    simp [Phrase.tokens, Phrase.expr, Phrase.stop, value, opensCall]
  | .call name span opening args closing, 0, _, _, hfuel => by
    simp [Phrase.tokens] at hfuel
  | .call name span opening args closing, fuel + 1, rest, _, hfuel => by
    simp only [Phrase.tokens, List.length_cons, List.length_append, List.length_nil] at hfuel
    have hargs := arguments_tokens args closing fuel rest (by omega)
    obtain ⟨t, ts, htokens, ht⟩ := args.exists_head
    rw [htokens, List.cons_append] at hargs
    simp [Phrase.tokens, Phrase.expr, Phrase.stop, value, opensCall, htokens, ht, hargs]
  | .emptyList opening closing, 0, _, _, hfuel => by simp [Phrase.tokens] at hfuel
  | .emptyList opening closing, fuel + 1, rest, _, _ => by
    simp [Phrase.tokens, Phrase.expr, Phrase.stop, value]
  | .list opening elements closing, 0, _, _, hfuel => by simp [Phrase.tokens] at hfuel
  | .list opening elements closing, fuel + 1, rest, _, hfuel => by
    simp only [Phrase.tokens, List.length_cons, List.length_append, List.length_nil] at hfuel
    have hitems := items_tokens elements closing fuel rest (by omega)
    obtain ⟨t, ts, htokens, ht⟩ := elements.exists_head
    rw [htokens, List.cons_append] at hitems
    simp [Phrase.tokens, Phrase.expr, Phrase.stop, value, htokens, ht, hitems]

/-- Derived arguments are read as these, up to the parenthesis that closes them. -/
theorem arguments_tokens : ∀ (a : ArgumentPhrases) (closing : Span) (fuel : Nat)
    (rest : List Token), 2 * a.tokens.length + 1 ≤ fuel →
      arguments source fuel (a.tokens ++ closing.token .closeParen :: rest) =
        .ok ⟨a.arguments source, closing.stop, rest⟩
  | _, _, 0, _, hfuel => by omega
  | .last label p, closing, fuel + 1, rest, hfuel => by
    rw [ArgumentPhrases.tokens, List.length_append] at hfuel
    exact arguments_last (value_tokens p fuel _ rfl (by omega))
  | .more label p comma more, closing, fuel + 1, rest, hfuel => by
    simp only [ArgumentPhrases.tokens, List.length_append, List.length_cons] at hfuel
    have hmore := arguments_tokens more closing fuel rest (by omega)
    have hall := arguments_more label comma (value_tokens p fuel _ rfl (by omega)) hmore
    rwa [← List.cons_append, ← List.append_assoc] at hall

/-- Derived items are read as these, up to the bracket that closes them. -/
theorem items_tokens : ∀ (a : ItemPhrases) (closing : Span) (fuel : Nat) (rest : List Token),
    2 * a.tokens.length + 1 ≤ fuel →
      items source fuel (a.tokens ++ closing.token .closeBracket :: rest) =
        .ok ⟨a.exprs source, closing.stop, rest⟩
  | _, _, 0, _, hfuel => by omega
  | .last p, closing, fuel + 1, rest, hfuel => by
    rw [ItemPhrases.tokens] at hfuel
    have hvalue := value_tokens p fuel (closing.token .closeBracket :: rest) rfl (by omega)
    simp [ItemPhrases.tokens, ItemPhrases.exprs, items, hvalue]
  | .more p separator span more, closing, fuel + 1, rest, hfuel => by
    simp only [ItemPhrases.tokens, List.length_append, List.length_cons] at hfuel
    have hvalue := value_tokens p fuel
      (span.token separator.kind :: (more.tokens ++ closing.token .closeBracket :: rest))
      (opensCall_separator separator span _) (by omega)
    have hmore := items_tokens more closing fuel rest (by omega)
    simp only [ItemPhrases.tokens, ItemPhrases.exprs, List.append_assoc, List.cons_append, items,
      hvalue, if_pos (isSeparator separator span), hmore]

end

/-! ## What is read is derived -/

/-- What is read as a value in the given number of steps is derived. -/
def ValuesDerived (source : List Char) (fuel : Nat) : Prop :=
  ∀ {ts : List Token} {p : Parsed Expr}, value source fuel ts = .ok p →
    ∃ v : Phrase, ts = v.tokens ++ p.rest ∧ v.expr source = p.result ∧ v.stop = p.stop

/-- What is read as arguments, up to a closing parenthesis, is derived. -/
def ArgumentsDerived (source : List Char) (fuel : Nat) : Prop :=
  ∀ {ts : List Token} {p : Parsed (List Argument)}, arguments source fuel ts = .ok p →
    ∃ (a : ArgumentPhrases) (closing : Span), ts = a.tokens ++ closing.token .closeParen :: p.rest ∧
      a.arguments source = p.result ∧ closing.stop = p.stop

/-- What is read as items, up to a closing bracket, is derived. -/
def ItemsDerived (source : List Char) (fuel : Nat) : Prop :=
  ∀ {ts : List Token} {p : Parsed (List Expr)}, items source fuel ts = .ok p →
    ∃ (a : ItemPhrases) (closing : Span), ts = a.tokens ++ closing.token .closeBracket :: p.rest ∧
      a.exprs source = p.result ∧ closing.stop = p.stop

/-- The span of a token. -/
def spanOf (t : Token) : Span := ⟨t.start, t.stop⟩

theorem token_spanOf {t : Token} {kind : Token.Kind} (h : t.kind = kind) :
    (spanOf t).token kind = t := Span.token_of_kind h

/-- Where a word must follow, what is read is this word. -/
theorem wordAfter_eq_ok {what : Missing} {make : String → Expr} {ts : List Token}
    {p : Parsed Expr} (h : wordAfter source what make ts = .ok p) :
    ∃ (text : String) (span : Span), ts = span.token (.word text) :: p.rest ∧ p.result = make text ∧
      p.stop = span.stop := by
  cases ts with
  | nil => cases h
  | cons t ts =>
    rw [wordAfter] at h
    split at h
    · next text hkind =>
      cases h
      exact ⟨text, spanOf t, by rw [token_spanOf hkind], rfl, rfl⟩
    · cases h

/-- A label is split off, or nothing is. -/
theorem exists_label (ts : List Token) :
    ∃ label, ts = LabelPhrase.tokensOf label ++ (splitLabel ts).2 ∧
      (splitLabel ts).1 = label.map LabelPhrase.text := by
  unfold splitLabel
  split
  · next t u rest =>
    split
    · next text hword hcolon =>
      refine ⟨some ⟨text, spanOf t, spanOf u⟩, ?_, rfl⟩
      simp [LabelPhrase.tokensOf, LabelPhrase.tokens, token_spanOf hword, token_spanOf hcolon]
    · exact ⟨none, rfl, rfl⟩
  · exact ⟨none, rfl, rfl⟩

/-- A call is derived, with arguments or without. -/
theorem ArgumentsDerived.call {fuel : Nat} (harguments : ArgumentsDerived source fuel) {t : Token}
    {name : String} (hname : t.kind = .word name) {ts : List Token} (hopens : opensCall ts = true)
    {p : Parsed Expr} (h : value source (fuel + 1) (t :: ts) = .ok p) :
    ∃ v : Phrase, t :: ts = v.tokens ++ p.rest ∧ v.expr source = p.result ∧ v.stop = p.stop := by
  obtain ⟨u, us, rfl, hu⟩ : ∃ u us, ts = u :: us ∧ u.kind = .openParen := by
    cases ts with
    | nil => cases hopens
    | cons u us => exact ⟨u, us, rfl, by simpa [opensCall] using hopens⟩
  simp only [value, hname, hopens, if_true, List.tail_cons] at h
  split at h
  · next v rest =>
    split at h
    · next hclose =>
      cases h
      refine ⟨.emptyCall name (spanOf t) (spanOf u) (spanOf v), ?_, rfl, rfl⟩
      simp [Phrase.tokens, token_spanOf hname, token_spanOf hu, token_spanOf hclose]
    · split at h
      · next q hq =>
        cases h
        obtain ⟨a, closing, htokens, hresult, hstop⟩ := harguments hq
        refine ⟨.call name (spanOf t) (spanOf u) a closing, ?_, ?_, hstop⟩
        · simp [Phrase.tokens, token_spanOf hname, token_spanOf hu, htokens]
        · rw [Phrase.expr, hresult]
      · cases h
  · cases h

/-- A list is derived, with items or without. -/
theorem ItemsDerived.list {fuel : Nat} (hitems : ItemsDerived source fuel) {t : Token}
    (hopen : t.kind = .openBracket) {ts : List Token} {p : Parsed Expr}
    (h : value source (fuel + 1) (t :: ts) = .ok p) :
    ∃ v : Phrase, t :: ts = v.tokens ++ p.rest ∧ v.expr source = p.result ∧ v.stop = p.stop := by
  simp only [value, hopen] at h
  split at h
  · next u rest =>
    split at h
    · next hclose =>
      cases h
      refine ⟨.emptyList (spanOf t) (spanOf u), ?_, rfl, rfl⟩
      simp [Phrase.tokens, token_spanOf hopen, token_spanOf hclose]
    · split at h
      · next q hq =>
        cases h
        obtain ⟨a, closing, htokens, hresult, hstop⟩ := hitems hq
        refine ⟨.list (spanOf t) a closing, ?_, ?_, hstop⟩
        · simp [Phrase.tokens, token_spanOf hopen, htokens]
        · rw [Phrase.expr, hresult]
      · cases h
  · cases h

/-- With one more step what is read as a value is derived, case by case of its first token. -/
theorem ValuesDerived.succ {fuel : Nat} (harguments : ArgumentsDerived source fuel)
    (hitems : ItemsDerived source fuel) : ValuesDerived source (fuel + 1) := by
  intro ts p h
  cases ts with
  | nil => simp [value] at h
  | cons t ts =>
    have hvalue := h
    unfold value at h
    split at h
    · next name hname =>
      split at h
      · next hopens => exact harguments.call hname hopens hvalue
      · cases h
        exact ⟨.word name (spanOf t), by simp [Phrase.tokens, token_spanOf hname], rfl, rfl⟩
    · next text htext =>
      cases h
      exact ⟨.quoted text (spanOf t), by simp [Phrase.tokens, token_spanOf htext], rfl, rfl⟩
    · next hdollar =>
      obtain ⟨path, span, rfl, hresult, hstop⟩ := wordAfter_eq_ok h
      exact ⟨.redirect (spanOf t) path span, by simp [Phrase.tokens, token_spanOf hdollar],
        hresult.symm, hstop.symm⟩
    · next hhash =>
      obtain ⟨digits, span, rfl, hresult, hstop⟩ := wordAfter_eq_ok h
      exact ⟨.color (spanOf t) digits span, by simp [Phrase.tokens, token_spanOf hhash],
        hresult.symm, hstop.symm⟩
    · next hopen => exact hitems.list hopen hvalue
    · cases h

/-- Arguments that are read in one step more are derived. -/
theorem ArgumentsDerived.succ {fuel : Nat} (hvalues : ValuesDerived source fuel)
    (harguments : ArgumentsDerived source fuel) : ArgumentsDerived source (fuel + 1) := by
  intro ts p h
  obtain ⟨label, hts, hlabel⟩ := exists_label ts
  rw [arguments] at h
  dsimp only at h
  split at h
  · cases h
  · next v hv =>
    obtain ⟨phrase, htokens, hresult, hstop⟩ := hvalues hv
    have hraw : rawText source (splitLabel ts).2 v.stop = phrase.raw source := by
      rw [htokens, ← hstop, rawText_tokens]
    split at h
    · cases h
    · next t rest hrest =>
      rw [hrest] at htokens
      rw [htokens] at hts
      split at h
      · next hcomma =>
        split at h
        · next q hq =>
          cases h
          obtain ⟨a, closing, hmore, hq, hclosing⟩ := harguments hq
          refine ⟨.more label phrase (spanOf t) a, closing, ?_, ?_, hclosing⟩
          · rw [hts, hmore, ArgumentPhrases.tokens, token_spanOf hcomma]
            simp only [List.append_assoc, List.cons_append]
          · rw [ArgumentPhrases.arguments, hq, hlabel, hresult, hraw]
        · cases h
      · next hclose =>
        cases h
        refine ⟨.last label phrase, spanOf t, ?_, ?_, rfl⟩
        · rw [hts, ArgumentPhrases.tokens, token_spanOf hclose, List.append_assoc]
        · rw [ArgumentPhrases.arguments, hlabel, hresult, hraw]
      · cases h

/-- Items that are read in one step more are derived. -/
theorem ItemsDerived.succ {fuel : Nat} (hvalues : ValuesDerived source fuel)
    (hitems : ItemsDerived source fuel) : ItemsDerived source (fuel + 1) := by
  intro ts p h
  rw [items] at h
  split at h
  · cases h
  · next v hv =>
    obtain ⟨phrase, htokens, hresult, -⟩ := hvalues hv
    split at h
    · cases h
    · next t rest hrest =>
      rw [hrest] at htokens
      split at h
      · next hkind =>
        split at h
        · next q hq =>
          cases h
          obtain ⟨a, closing, hmore, hq, hclosing⟩ := hitems hq
          obtain ⟨separator, hseparator⟩ : ∃ separator : Separator, t.kind = separator.kind :=
            hkind.elim (fun hc => ⟨.comma, hc⟩) fun hp => ⟨.bar, hp⟩
          refine ⟨.more phrase separator (spanOf t) a, closing, ?_, ?_, hclosing⟩
          · rw [htokens, hmore, ItemPhrases.tokens, token_spanOf hseparator, List.append_assoc,
              List.cons_append]
          · rw [ItemPhrases.exprs, hq, hresult]
        · cases h
      · split at h
        · next hclose =>
          cases h
          refine ⟨.last phrase, spanOf t, ?_, ?_, rfl⟩
          · rw [htokens, ItemPhrases.tokens, token_spanOf hclose]
          · rw [ItemPhrases.exprs, hresult]
        · cases h

/-- Whatever is read in any number of steps is derived. -/
theorem derived (source : List Char) (fuel : Nat) :
    ValuesDerived source fuel ∧ ArgumentsDerived source fuel ∧ ItemsDerived source fuel := by
  induction fuel with
  | zero => exact ⟨fun h => (by cases h), fun h => (by cases h), fun h => (by cases h)⟩
  | succ fuel ih =>
    obtain ⟨hvalues, harguments, hitems⟩ := ih
    exact ⟨ValuesDerived.succ harguments hitems, ArgumentsDerived.succ hvalues harguments,
      ItemsDerived.succ hvalues hitems⟩

/-- What is read as a value is derived. -/
theorem exists_phrase_of_value {fuel : Nat} {ts : List Token} {p : Parsed Expr}
    (h : value source fuel ts = .ok p) :
    ∃ v : Phrase, ts = v.tokens ++ p.rest ∧ v.expr source = p.result ∧ v.stop = p.stop :=
  (derived source fuel).1 h

/-- A whole text is read as the expression of its derivation, if it has one, and not otherwise. -/
theorem parseChars_eq_ok_iff {e : Expr} :
    parseChars source = .ok e ↔ ∃ p : Phrase, p.tokens = Token.scan source ∧ p.expr source = e := by
  unfold parseChars
  dsimp only
  constructor
  · intro h
    split at h
    · cases h
    · next v hv =>
      obtain ⟨p, htokens, hresult, -⟩ := exists_phrase_of_value hv
      split at h
      · next hrest =>
        cases h
        exact ⟨p, by rw [htokens, hrest, List.append_nil], hresult⟩
      · cases h
  · rintro ⟨p, htokens, rfl⟩
    have hvalue : value source (2 * p.tokens.length + 2) (p.tokens ++ []) = _ :=
      value_tokens p _ [] rfl (by omega)
    rw [List.append_nil] at hvalue
    rw [← htokens, hvalue]

/-- The text of a derivation from tokens that were scanned is cut out of the source, from the
beginning of its first token to the end of its last. -/
theorem cutsOut_raw {p : Phrase} (h : p.tokens <:+: Token.scan source) :
    CutsOut source p.start p.stop (p.raw source).toList := by
  obtain ⟨us, vs, hscan⟩ := h
  obtain ⟨t, ts, htokens, hstart, -⟩ := p.exists_head
  obtain ⟨u, ts', htokens', hstop⟩ := p.exists_last
  have hu : u ∈ t :: (ts ++ vs) := by
    rw [← List.cons_append, ← htokens, htokens']
    simp
  rw [htokens, List.append_assoc, List.cons_append] at hscan
  obtain ⟨part, hcut⟩ := Token.exists_cutsOut hscan.symm hu
  rw [hstart, hstop] at hcut
  rwa [Phrase.raw, hcut.slice_eq, String.toList_ofList]

/-! ## Where reading fails -/

/-- If the fault shows an excerpt, this is the text of one of the tokens. -/
inductive Fault.Shows (source : List Char) (ts : List Token) : Fault → Prop
  | missing (what : Missing) : Shows source ts (.missing what)
  | unterminated : Shows source ts .unterminated
  | unexpected {t : Token} : t ∈ ts →
    Shows source ts (.unexpected (String.ofList (slice t.start t.stop source)) t.start)

theorem Fault.Shows.mono {ts us : List Token} {f : Fault} (h : f.Shows source ts)
    (hsub : ts ⊆ us) : f.Shows source us := by
  cases h with
  | missing what => exact .missing what
  | unterminated => exact .unterminated
  | unexpected ht => exact .unexpected (hsub ht)

theorem shows_unexpectedToken {t : Token} {ts : List Token} (ht : t ∈ ts) :
    (unexpectedToken source t).Shows source ts := by
  unfold unexpectedToken
  split
  · exact .unterminated
  · exact .unexpected ht

/-- A token that should be a word is shown. -/
theorem shows_of_wordAfter {what : Missing} {make : String → Expr} {ts : List Token} {f : Fault}
    (h : wordAfter source what make ts = .error f) : f.Shows source ts := by
  cases ts with
  | nil =>
    cases h
    exact .missing what
  | cons t ts =>
    rw [wordAfter] at h
    split at h
    · cases h
    · cases h
      exact shows_unexpectedToken List.mem_cons_self

/-- Whatever of the three readings fails in the given number of steps, its fault shows a token. -/
def FaultsShow (source : List Char) (fuel : Nat) : Prop :=
  ∀ {ts : List Token} {f : Fault}, value source fuel ts = .error f ∨
    arguments source fuel ts = .error f ∨ items source fuel ts = .error f → f.Shows source ts

/-- The token that is no beginning of a value is shown. -/
theorem shows_of_value {fuel : Nat} (ih : FaultsShow source fuel) {ts : List Token} {f : Fault}
    (h : value source (fuel + 1) ts = .error f) : f.Shows source ts := by
  cases ts with
  | nil =>
    simp only [value, Except.error.injEq] at h
    exact h ▸ .missing _
  | cons t ts =>
    unfold value at h
    split at h
    · split at h
      · split at h
        · next v rest hrest =>
          have hsub : v :: rest ⊆ t :: ts := fun x hx =>
            List.mem_cons_of_mem t (List.mem_of_mem_tail (hrest ▸ hx))
          split at h
          · cases h
          · split at h
            · cases h
            · next hfault =>
              cases h
              exact (ih (.inr (.inl hfault))).mono hsub
        · cases h
          exact .missing _
      · cases h
    · cases h
    · exact (shows_of_wordAfter h).mono (List.subset_cons_self t ts)
    · exact (shows_of_wordAfter h).mono (List.subset_cons_self t ts)
    · split at h
      · split at h
        · cases h
        · split at h
          · cases h
          · next hfault =>
            cases h
            exact (ih (.inr (.inr hfault))).mono (List.subset_cons_self t _)
      · cases h
        exact .missing _
    · cases h
      exact shows_unexpectedToken List.mem_cons_self

/-- What is left when a value has been read. -/
theorem rest_subset_of_value {fuel : Nat} {ts : List Token} {p : Parsed Expr}
    (h : value source fuel ts = .ok p) : p.rest ⊆ ts := by
  obtain ⟨v, htokens, -, -⟩ := exists_phrase_of_value h
  rw [htokens]
  exact List.subset_append_right _ _

/-- The token that ends no argument is shown. -/
theorem shows_of_arguments {fuel : Nat} (ih : FaultsShow source fuel) {ts : List Token} {f : Fault}
    (h : arguments source (fuel + 1) ts = .error f) : f.Shows source ts := by
  obtain ⟨label, hts, -⟩ := exists_label ts
  have hsub : (splitLabel ts).2 ⊆ ts := fun t ht => hts ▸ List.mem_append_right _ ht
  rw [arguments] at h
  dsimp only at h
  split at h
  · next hfault =>
    cases h
    exact (ih (.inl hfault)).mono hsub
  · next p hp =>
    have hrest : p.rest ⊆ ts := List.Subset.trans (rest_subset_of_value hp) hsub
    split at h
    · cases h
      exact .missing _
    · next t rest hcons =>
      rw [hcons] at hrest
      split at h
      · split at h
        · cases h
        · next hfault =>
          cases h
          exact (ih (.inr (.inl hfault))).mono
            (List.Subset.trans (List.subset_cons_self t rest) hrest)
      · cases h
      · cases h
        exact shows_unexpectedToken (hrest List.mem_cons_self)

/-- The token that ends no item is shown. -/
theorem shows_of_items {fuel : Nat} (ih : FaultsShow source fuel) {ts : List Token} {f : Fault}
    (h : items source (fuel + 1) ts = .error f) : f.Shows source ts := by
  rw [items] at h
  split at h
  · next hfault =>
    cases h
    exact ih (.inl hfault)
  · next p hp =>
    have hrest := rest_subset_of_value hp
    split at h
    · cases h
      exact .missing _
    · next t rest hcons =>
      rw [hcons] at hrest
      split at h
      · split at h
        · cases h
        · next hfault =>
          cases h
          exact (ih (.inr (.inr hfault))).mono
            (List.Subset.trans (List.subset_cons_self t rest) hrest)
      · split at h
        · cases h
        · cases h
          exact shows_unexpectedToken (hrest List.mem_cons_self)

/-- Whatever cannot be read shows a token, in any number of steps. -/
theorem faultsShow (source : List Char) (fuel : Nat) : FaultsShow source fuel := by
  induction fuel with
  | zero =>
    intro ts f h
    simp only [value, arguments, items, or_self, Except.error.injEq] at h
    exact h ▸ .missing _
  | succ fuel ih =>
    intro ts f h
    rcases h with h | h | h
    · exact shows_of_value ih h
    · exact shows_of_arguments ih h
    · exact shows_of_items ih h

/-- Where a text is no expression, an excerpt in the fault is the text of one of its tokens. -/
theorem exists_token_of_unexpected {text : String} {offset : Nat}
    (h : parseChars source = .error (.unexpected text offset)) :
    ∃ t ∈ Token.scan source, offset = t.start ∧
      text = String.ofList (slice t.start t.stop source) := by
  have hshows : Fault.Shows source (Token.scan source) (.unexpected text offset) := by
    unfold parseChars at h
    dsimp only at h
    split at h
    · next hfault =>
      cases h
      exact faultsShow source _ (.inl hfault)
    · next p hp =>
      have hrest := rest_subset_of_value hp
      split at h
      · cases h
      · next t rest hcons =>
        injection h with h
        rw [hcons] at hrest
        exact h ▸ shows_unexpectedToken (hrest List.mem_cons_self)
  cases hshows with
  | unexpected ht => exact ⟨_, ht, rfl, rfl⟩

end Appearance.Expr
