import Appearance.Proofs.Lexemes

/-!
# Tokens lose nothing

What the spans of the tokens of a text are (`Token.Tokenizes`): cut out of the text one behind the
other, with nothing but white space left between them, so that each other character stands in one
token. The text of a word and of a quoted string is told from its span, and a quote that is not
closed takes all that follows. `Token.tokenizes_scan` is the result for every text. Most of it is
read off `Token.Covers`, by induction on the tokens; that a scan ends, and where it ends with a
quote, is told of its steps (`Token.Runs`).

The gaps between spans are listed as intervals of offsets, so the statement that they hold nothing
but white space is one about slices of the text, and that each character stands in one token is one
about offsets. `Token.Lexeme`, from `Proofs.Lexemes`, says which characters a token of each kind
stands for; here it is only lifted from single steps to the whole text.
-/

namespace Appearance

open Appearance.Text

namespace Text

/-- A character of a text in two parts stands in the first or in the second one. -/
theorem append_eq_append_cons {l r before after : List Char} {c : Char}
    (h : l ++ r = before ++ c :: after) :
    (∃ rest, l = before ++ c :: rest) ∨ ∃ rest, before = l ++ rest ∧ r = rest ++ c :: after := by
  rcases List.append_eq_append_iff.1 h with ⟨rest, hbefore, hr⟩ | ⟨rest, hl, hc⟩
  · exact .inr ⟨rest, hbefore, hr⟩
  · rcases List.cons_eq_append_iff.1 hc with ⟨rfl, hr⟩ | ⟨rest, rfl, -⟩
    · exact .inr ⟨[], by rw [hl, List.append_nil, List.append_nil], hr⟩
    · exact .inl ⟨rest, hl⟩

theorem byteLength_pos {cs : List Char} (h : cs ≠ []) : 0 < byteLength cs := by
  cases cs with
  | nil => exact absurd rfl h
  | cons c cs => exact Nat.add_pos_left c.utf8Size_pos _

end Text

namespace Token

/-! ## Lexemes of a kind -/

theorem Lexeme.ne_nil {kind : Kind} {text : List Char} (h : Lexeme kind text) : text ≠ [] := by
  cases h with
  | word hw => exact hw.ne_nil
  | quoted | punctuation | unterminated => exact List.cons_ne_nil _ _

theorem punctuation?_ne {c : Char} {kind : Kind} (h : punctuation? c = some kind) :
    (∀ text, kind ≠ .word text) ∧ (∀ text, kind ≠ .quoted text) ∧ kind ≠ .unterminated := by
  unfold punctuation? at h
  split at h <;> cases h <;> exact ⟨nofun, nofun, nofun⟩

/-- The text of a word is the word. -/
theorem Lexeme.eq_of_word {w : String} {text : List Char} (h : Lexeme (.word w) text) :
    w.toList = text ∧ IsWord w.toList := by
  cases h with
  | word hw =>
    rw [String.toList_ofList]
    exact ⟨rfl, hw⟩
  | punctuation hp => exact absurd rfl ((punctuation?_ne hp).1 w)

theorem Lexeme.eq_of_quoted {w : String} {text : List Char} (h : Lexeme (.quoted w) text) :
    ∃ q, isQuote q = true ∧ text = q :: (w.toList ++ [q]) ∧ q ∉ w.toList := by
  cases h with
  | @quoted q _ hq hmem =>
    exact ⟨q, hq, by rw [String.toList_ofList], by rwa [String.toList_ofList]⟩
  | punctuation hp => exact absurd rfl ((punctuation?_ne hp).2.1 w)

/-! ## Steps of a scan -/

/-- A scan, step by step, until no token is left. -/
inductive Runs : Nat → List Char → List Token → Prop
  | done {offset : Nat} {cs : List Char} : next? offset cs = none → Runs offset cs []
  | step {offset : Nat} {cs : List Char} {s : Step} {ts : List Token} :
    next? offset cs = some s → Runs s.offset s.rest ts → Runs offset cs (s.token :: ts)

/-- A scan runs step by step to its end. -/
theorem runs_scanFrom (offset : Nat) (cs : List Char) : Runs offset cs (scanFrom offset cs) := by
  induction offset, cs using scanFrom.induct with
  | case1 offset cs hnone =>
    rw [scanFrom]
    split
    · exact .done hnone
    · next s hs => rw [hnone] at hs; cases hs
  | case2 offset cs s hs ih =>
    rw [scanFrom_of_next? hs]
    exact .step hs ih

/-- A quote that is not closed leaves nothing. -/
theorem rest_of_unterminated {offset : Nat} {cs : List Char} {s : Step}
    (h : next? offset cs = some s) (hkind : s.token.kind = .unterminated) : s.rest = [] := by
  unfold next? at h
  split at h
  · cases h
  · cases h
    unfold stepAt at hkind ⊢
    split at hkind
    · next hp => exact absurd hkind (punctuation?_ne hp).2.2
    · split at hkind
      · next hq =>
        simp only [hq, if_true]
        unfold quotedStep at hkind ⊢
        split at hkind
        · cases hkind
        · rfl
      · cases hkind

/-- Behind a quote that is not closed there is no token. -/
theorem Runs.eq_nil_of_unterminated {us vs : List Token} {t : Token} {offset : Nat}
    {cs : List Char} (h : Runs offset cs (us ++ t :: vs)) (hkind : t.kind = .unterminated) :
    vs = [] := by
  induction us generalizing offset cs with
  | nil =>
    cases h with
    | step hs hrest =>
      rw [rest_of_unterminated hs hkind] at hrest
      cases hrest with
      | done => rfl
      | step hnext => cases hnext
  | cons u us ih =>
    cases h with
    | step _ hrest => exact ih hrest

/-! ## Spans -/

/-- The offsets between which no token stands: before the first one, between one and the next, and
behind the last one. -/
def gaps (start stop : Nat) : List Token → List (Nat × Nat)
  | [] => [(start, stop)]
  | t :: ts => (start, t.start) :: gaps t.stop stop ts

section Covers

variable {offset : Nat} {cs : List Char} {ts : List Token}

theorem Covers.start_lt_stop (h : Covers offset cs ts) {t : Token} (ht : t ∈ ts) :
    offset ≤ t.start ∧ t.start < t.stop := by
  obtain ⟨before, text, after, -, hlexeme, hstart, hstop⟩ := h.exists_lexeme ht
  have hpos := byteLength_pos hlexeme.ne_nil
  omega

theorem Covers.inOrder (h : Covers offset cs ts) : ts.Pairwise fun t u => t.stop ≤ u.start := by
  induction h with
  | nil => exact .nil
  | cons _ _ _ _ hrest ih => exact .cons (fun u hu => (hrest.start_lt_stop hu).1) ih

/-- What stands between tokens and around them is white space. -/
theorem Covers.exists_blanks (h : Covers offset cs ts) :
    ∀ g ∈ gaps offset (offset + byteLength cs) ts, ∃ before blanks after,
      cs = before ++ blanks ++ after ∧ g.1 = offset + byteLength before ∧
        g.2 = g.1 + byteLength blanks ∧ ∀ c ∈ blanks, isBlank c = true := by
  induction h with
  | @nil offset blanks hblanks =>
    refine List.forall_mem_singleton.2 ⟨[], blanks, [], ?_, rfl, rfl, hblanks⟩
    rw [List.nil_append, List.append_nil]
  | @cons offset blanks text rest t ts hblanks _ hstart hstop _ ih =>
    have hlength : offset + byteLength (blanks ++ text ++ rest) = t.stop + byteLength rest := by
      rw [byteLength_append, byteLength_append]
      omega
    rw [gaps, hlength]
    refine List.forall_mem_cons.2 ⟨⟨[], blanks, text ++ rest, ?_, rfl, hstart, hblanks⟩, ?_⟩
    · rw [List.nil_append, List.append_assoc]
    · intro g hg
      obtain ⟨before, gap, after, rfl, hg₁, hg₂, hgap⟩ := ih g hg
      refine ⟨blanks ++ text ++ before, gap, after, by simp only [List.append_assoc], ?_, hg₂, hgap⟩
      rw [byteLength_append, byteLength_append]
      omega

/-- A character that is no white space stands in a token. -/
theorem Covers.exists_token (h : Covers offset cs ts) {before after : List Char} {c : Char}
    (hcs : cs = before ++ c :: after) (hc : isBlank c = false) :
    ∃ t ∈ ts, t.start ≤ offset + byteLength before ∧
      offset + byteLength before + c.utf8Size ≤ t.stop := by
  induction h generalizing before with
  | @nil offset blanks hblanks =>
    have hblank := hblanks c (hcs ▸ List.mem_append_right _ List.mem_cons_self)
    rw [hc] at hblank
    cases hblank
  | @cons offset blanks text rest t ts hblanks _ hstart hstop _ ih =>
    rcases append_eq_append_cons hcs with ⟨behind, hfront⟩ | ⟨front, rfl, hrest⟩
    · rcases append_eq_append_cons hfront with ⟨behind, rfl⟩ | ⟨front, rfl, rfl⟩
      · have hblank := hblanks c (List.mem_append_right _ List.mem_cons_self)
        rw [hc] at hblank
        cases hblank
      · refine ⟨t, List.mem_cons_self, ?_, ?_⟩
        all_goals
          simp only [byteLength_append, byteLength] at hstop ⊢
          omega
    · obtain ⟨u, hu, hstart', hstop'⟩ := ih hrest
      refine ⟨u, List.mem_cons_of_mem t hu, ?_, ?_⟩
      all_goals
        simp only [byteLength_append] at hstart' hstop' ⊢
        omega

/-- Tokens in order have no character in common. -/
theorem eq_of_inOrder (h : ts.Pairwise fun t u => t.stop ≤ u.start) {t u : Token} (ht : t ∈ ts)
    (hu : u ∈ ts) {position : Nat} (htp : t.start ≤ position ∧ position < t.stop)
    (hup : u.start ≤ position ∧ position < u.stop) : t = u := by
  induction h with
  | nil => cases ht
  | @cons a ts hrest _ ih =>
    rcases List.mem_cons.1 ht with rfl | htail
    · rcases List.mem_cons.1 hu with rfl | hutail
      · rfl
      · have := hrest u hutail
        omega
    · rcases List.mem_cons.1 hu with rfl | hutail
      · have := hrest t htail
        omega
      · exact ih htail hutail

end Covers

/-! ## Tokens of a text -/

/-- What is promised of the tokens of a text. -/
structure Tokenizes (cs : List Char) (ts : List Token) : Prop where
  /-- The scan ends. -/
  runs : Runs 0 cs ts
  nonempty : ∀ t ∈ ts, t.start < t.stop
  inOrder : ts.Pairwise fun t u => t.stop ≤ u.start
  /-- A span lies between characters of the text, and what stands there is of the kind of the
  token. -/
  cut : ∀ t ∈ ts, ∃ text, CutsOut cs t.start t.stop text ∧ Lexeme t.kind text
  blanks : ∀ g ∈ gaps 0 (byteLength cs) ts, ∃ blanks, CutsOut cs g.1 g.2 blanks ∧
    ∀ c ∈ blanks, isBlank c = true
  once : ∀ before c after, cs = before ++ c :: after → isBlank c = false →
    ∃! t, t ∈ ts ∧ t.start ≤ byteLength before ∧ byteLength before + c.utf8Size ≤ t.stop
  word : ∀ t ∈ ts, ∀ w, t.kind = .word w → w.toList = slice t.start t.stop cs ∧ IsWord w.toList
  quoted : ∀ t ∈ ts, ∀ w, t.kind = .quoted w → ∃ q, isQuote q = true ∧
    slice t.start t.stop cs = q :: (w.toList ++ [q]) ∧ q ∉ w.toList
  unterminated : ∀ us t vs, ts = us ++ t :: vs → t.kind = .unterminated → vs = []

/-- The lexeme of a token is its slice of the text. -/
theorem lexeme_slice {cs : List Char} {t : Token} (ht : t ∈ scan cs) :
    CutsOut cs t.start t.stop (slice t.start t.stop cs) ∧
      Lexeme t.kind (slice t.start t.stop cs) := by
  obtain ⟨before, text, after, hcs, hlexeme, hstart, hstop⟩ :=
    (covers_scanFrom 0 cs).exists_lexeme ht
  have hcut : CutsOut cs t.start t.stop text :=
    ⟨before, after, hcs, by rw [hstart, Nat.zero_add], hstop⟩
  rw [hcut.slice_eq]
  exact ⟨hcut, hlexeme⟩

/-- Scanning a text ends, and of the text only white space is not in its tokens. -/
theorem tokenizes_scan (cs : List Char) : Tokenizes cs (scan cs) where
  runs := runs_scanFrom 0 cs
  nonempty t ht := ((covers_scanFrom 0 cs).start_lt_stop ht).2
  inOrder := (covers_scanFrom 0 cs).inOrder
  cut t ht := ⟨_, lexeme_slice ht⟩
  blanks g hg := by
    have hcovers := (covers_scanFrom 0 cs).exists_blanks
    rw [Nat.zero_add] at hcovers
    obtain ⟨before, blanks, after, hcs, hstart, hstop, hblanks⟩ := hcovers g hg
    exact ⟨blanks, ⟨before, after, hcs, by rw [hstart, Nat.zero_add], hstop⟩, hblanks⟩
  once before c after hcs hc := by
    obtain ⟨t, ht, hstart, hstop⟩ := (covers_scanFrom 0 cs).exists_token hcs hc
    rw [Nat.zero_add] at hstart hstop
    have hpos := c.utf8Size_pos
    refine ⟨t, ⟨ht, hstart, hstop⟩, fun u hu => ?_⟩
    exact eq_of_inOrder (covers_scanFrom 0 cs).inOrder hu.1 ht
      ⟨hu.2.1, Nat.lt_of_lt_of_le (Nat.lt_add_of_pos_right hpos) hu.2.2⟩
      ⟨hstart, Nat.lt_of_lt_of_le (Nat.lt_add_of_pos_right hpos) hstop⟩
  word t ht w hkind := (hkind ▸ (lexeme_slice ht).2).eq_of_word
  quoted t ht w hkind := (hkind ▸ (lexeme_slice ht).2).eq_of_quoted
  unterminated us t vs hts hkind :=
    (hts ▸ runs_scanFrom 0 cs : Runs 0 cs (us ++ t :: vs)).eq_nil_of_unterminated hkind

end Token

end Appearance
