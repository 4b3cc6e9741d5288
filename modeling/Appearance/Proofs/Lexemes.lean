import Appearance.Value.Token
import Mathlib.Data.List.DropRight

/-!
# Tokens and the text they stand for

`CutsOut` says of two offsets that they lie between characters of a text, and what the text has
between them; `slice` then gives just that (`CutsOut.slice_eq`).

The text of a token is a `Lexeme` of its kind. `Token.Covers` says that a text consists of the
lexemes of tokens and of white space around them, and that the offsets of the tokens are those of
their lexemes. A scan covers its text (`Token.covers_scanFrom`), so the text from the beginning of
a token to the end of the same or a later one is always cut out (`Token.exists_cutsOut`). In the
other direction, a lexeme is scanned as one token wherever a word is not continued by what follows
(`Token.Lexeme.scanFrom_append`).
-/

namespace Appearance

namespace Text

/-! ## Cuts -/

/-- The offsets lie between characters of the text, and `part` stands between them. -/
def CutsOut (cs : List Char) (start stop : Nat) (part : List Char) : Prop :=
  ∃ before after, cs = before ++ part ++ after ∧ start = byteLength before ∧
    stop = start + byteLength part

/-- A slice of two texts is put together from slices of both. -/
theorem sliceFrom_append (offset start stop : Nat) (as bs : List Char) :
    sliceFrom offset start stop (as ++ bs) =
      sliceFrom offset start stop as ++ sliceFrom (offset + byteLength as) start stop bs := by
  induction as generalizing offset with
  | nil => rfl
  | cons a as ih =>
    simp only [List.cons_append, sliceFrom, byteLength, ih, Nat.add_assoc]
    split <;> rfl

/-- What ends before the slice begins has no part in it. -/
theorem sliceFrom_before {offset start : Nat} (stop : Nat) {cs : List Char}
    (h : offset + byteLength cs ≤ start) : sliceFrom offset start stop cs = [] := by
  induction cs generalizing offset with
  | nil => rfl
  | cons c cs ih =>
    have hpos := c.utf8Size_pos
    rw [byteLength] at h
    have hlt : ¬ start ≤ offset := by omega
    simp only [sliceFrom, ih (show offset + c.utf8Size + byteLength cs ≤ start by omega), hlt,
      decide_false, Bool.false_and, Bool.false_eq_true, if_false]

theorem sliceFrom_after {offset stop : Nat} (start : Nat) {cs : List Char} (h : stop ≤ offset) :
    sliceFrom offset start stop cs = [] := by
  induction cs generalizing offset with
  | nil => rfl
  | cons c cs ih =>
    have hlt : ¬ offset < stop := by omega
    simp only [sliceFrom, ih (show stop ≤ offset + c.utf8Size by omega), hlt, decide_false,
      Bool.and_false, Bool.false_eq_true, if_false]

/-- What stands within the slice is wholly in it. -/
theorem sliceFrom_within {offset start stop : Nat} {cs : List Char} (hstart : start ≤ offset)
    (hstop : offset + byteLength cs ≤ stop) : sliceFrom offset start stop cs = cs := by
  induction cs generalizing offset with
  | nil => rfl
  | cons c cs ih =>
    have hpos := c.utf8Size_pos
    rw [byteLength] at hstop
    have hlt : offset < stop := by omega
    simp only [sliceFrom, ih (show start ≤ offset + c.utf8Size by omega) (by omega), hstart, hlt,
      decide_true, Bool.and_self, if_true]

/-- What stands between the offsets is the slice. -/
theorem CutsOut.slice_eq {cs : List Char} {start stop : Nat} {part : List Char}
    (h : CutsOut cs start stop part) : slice start stop cs = part := by
  obtain ⟨before, after, rfl, hstart, hstop⟩ := h
  have hafter : stop ≤ 0 + byteLength (before ++ part) := by
    rw [byteLength_append]
    omega
  rw [slice, sliceFrom_append, sliceFrom_append, sliceFrom_before stop (by omega),
    sliceFrom_within (by omega) (by omega), sliceFrom_after start hafter, List.nil_append,
    List.append_nil]

/-! ## Trimmed texts -/

/-- A trimmed text does not begin with white space. -/
theorem head_not_blank {cs : List Char} (h : trimChars cs = cs) :
    ∀ c ∈ cs.head?, isBlank c = false := by
  have hdrop : trimStartChars cs = cs := by
    have hle : (trimChars cs).length ≤ (trimStartChars cs).length :=
      (List.rdropWhile_prefix isBlank _).length_le
    rw [h] at hle
    exact (List.dropWhile_suffix isBlank).eq_of_length_le hle
  cases cs with
  | nil => simp
  | cons a cs =>
    intro c hc
    cases hc
    by_contra hblank
    rw [trimStartChars, List.dropWhile_cons_of_pos (by simpa using hblank)] at hdrop
    have := (List.dropWhile_suffix (l := cs) isBlank).length_le
    rw [hdrop, List.length_cons] at this
    omega

theorem trimEndChars_of_trimChars {cs : List Char} (h : trimChars cs = cs) :
    trimEndChars cs = cs := by
  rw [← h]
  exact List.rdropWhile_idempotent isBlank _

/-- What is left of a text that begins with no blank, once blanks at the end are dropped, is
trimmed. -/
theorem trimChars_trimEndChars {c : Char} (cs : List Char) (hc : isBlank c = false) :
    trimChars (trimEndChars (c :: cs)) = trimEndChars (c :: cs) ∧
      trimEndChars (c :: cs) ≠ [] := by
  have hne : trimEndChars (c :: cs) ≠ [] := fun h => by
    have hall := (List.rdropWhile_eq_nil_iff (p := isBlank) (l := c :: cs)).1 h c
      List.mem_cons_self
    rw [hc] at hall
    cases hall
  refine ⟨?_, hne⟩
  have hfront : trimEndChars (c :: cs) <+: c :: cs := List.rdropWhile_prefix isBlank _
  obtain ⟨rest, hrest⟩ := hfront
  cases hword : trimEndChars (c :: cs) with
  | nil => exact absurd hword hne
  | cons d ds =>
    rw [hword, List.cons_append] at hrest
    cases hrest
    rw [trimChars, trimStartChars, List.dropWhile_cons_of_neg (by simp [hc]), ← hword]
    exact List.rdropWhile_idempotent isBlank _

end Text

open Appearance.Text

namespace Token

/-! ## Lexemes -/

/-- A word: not empty, trimmed, and without delimiters. -/
structure IsWord (w : List Char) : Prop where
  ne_nil : w ≠ []
  trimmed : trimChars w = w
  noDelimiter : ∀ c ∈ w, isDelimiter c = false

instance (w : List Char) : Decidable (IsWord w) :=
  decidable_of_iff (w ≠ [] ∧ trimChars w = w ∧ ∀ c ∈ w, isDelimiter c = false)
    ⟨fun ⟨hne, htrim, hall⟩ => ⟨hne, htrim, hall⟩, fun h => ⟨h.ne_nil, h.trimmed, h.noDelimiter⟩⟩

/-- The text of a token of a kind. -/
inductive Lexeme : Kind → List Char → Prop
  | word {w : List Char} : IsWord w → Lexeme (.word (String.ofList w)) w
  | quoted {q : Char} {w : List Char} : isQuote q = true → q ∉ w →
    Lexeme (.quoted (String.ofList w)) (q :: (w ++ [q]))
  | punctuation {c : Char} {kind : Kind} : punctuation? c = some kind → Lexeme kind [c]
  /-- All that follows a quote that is not closed. -/
  | unterminated {q : Char} {body : List Char} : isQuote q = true → q ∉ body →
    Lexeme .unterminated (q :: body)

/-- The text consists of the lexemes of the tokens, with white space before, between and after
them; it begins at the given offset. -/
inductive Covers : Nat → List Char → List Token → Prop
  | nil {offset : Nat} {blanks : List Char} : (∀ c ∈ blanks, isBlank c = true) →
    Covers offset blanks []
  | cons {offset : Nat} {blanks text rest : List Char} {t : Token} {ts : List Token} :
    (∀ c ∈ blanks, isBlank c = true) → Lexeme t.kind text →
    t.start = offset + byteLength blanks → t.stop = t.start + byteLength text →
    Covers t.stop rest ts → Covers offset (blanks ++ text ++ rest) (t :: ts)

/-- White space in front of covered text is covered. -/
theorem Covers.append_blanks {offset : Nat} {gap cs : List Char} {ts : List Token}
    (hgap : ∀ c ∈ gap, isBlank c = true) (h : Covers (offset + byteLength gap) cs ts) :
    Covers offset (gap ++ cs) ts := by
  cases h with
  | nil hblanks => exact .nil fun c hc => (List.mem_append.1 hc).elim (hgap c) (hblanks c)
  | @cons _ blanks text rest t ts hblanks htext hstart hstop hrest =>
    have hcover := @Covers.cons offset (gap ++ blanks) text rest t ts
      (fun c hc => (List.mem_append.1 hc).elim (hgap c) (hblanks c)) htext
      (by rw [hstart, byteLength_append, Nat.add_assoc]) hstop hrest
    simpa only [List.append_assoc] using hcover

/-! ## One step of a scan -/

/-- A quoted text is scanned up to its quote, or to the end. -/
theorem lexeme_quotedStep {q : Char} (hq : isQuote q = true) (start : Nat) (body : List Char) :
    ∃ text, q :: body = text ++ (quotedStep q start body).rest ∧
      Lexeme (quotedStep q start body).token.kind text ∧
      (quotedStep q start body).token.start = start ∧
      (quotedStep q start body).token.stop = start + byteLength text ∧
      (quotedStep q start body).offset = start + byteLength text := by
  have hsize : q.utf8Size = 1 := by
    simp only [isQuote, Bool.or_eq_true, beq_iff_eq] at hq
    rcases hq with rfl | rfl <;> decide
  have hnot : ∀ cs : List Char, q ∉ cs.takeWhile (· != q) := fun cs hmem => by
    simpa using List.mem_takeWhile_imp hmem
  unfold quotedStep
  cases hdrop : body.dropWhile (· != q) with
  | nil =>
    have htake : body.takeWhile (· != q) = body := by
      simpa [hdrop] using List.takeWhile_append_dropWhile (p := (· != q)) (l := body)
    refine ⟨q :: body, (List.append_nil _).symm, .unterminated hq (htake ▸ hnot body), rfl, ?_, ?_⟩
    all_goals
      simp only [byteLength, hsize]
      omega
  | cons d after =>
    have hd : d = q := by
      have := List.head_dropWhile_not (· != q) (l := body) (by simp [hdrop])
      simpa [hdrop] using this
    subst hd
    refine ⟨d :: (body.takeWhile (· != d) ++ [d]), ?_, .quoted hq (hnot body), rfl, ?_, ?_⟩
    · simp only [List.cons_append, List.append_assoc, List.nil_append]
      rw [← hdrop, List.takeWhile_append_dropWhile]
    all_goals
      simp only [byteLength, byteLength_append, hsize]
      omega

/-- A word is scanned up to white space behind it. -/
theorem lexeme_wordStep {c : Char} (cs : List Char) (hblank : isBlank c = false)
    (hdelimiter : isDelimiter c = false) (start : Nat) :
    ∃ text gap, c :: cs = text ++ gap ++ (wordStep start (c :: cs)).rest ∧
      (∀ d ∈ gap, isBlank d = true) ∧ Lexeme (wordStep start (c :: cs)).token.kind text ∧
      (wordStep start (c :: cs)).token.start = start ∧
      (wordStep start (c :: cs)).token.stop = start + byteLength text ∧
      (wordStep start (c :: cs)).offset = start + byteLength text + byteLength gap := by
  have hrun : (c :: cs).takeWhile (fun d => !isDelimiter d) =
      c :: cs.takeWhile (fun d => !isDelimiter d) :=
    List.takeWhile_cons_of_pos (by simp [hdelimiter])
  set run := cs.takeWhile (fun d => !isDelimiter d)
  obtain ⟨htrim, hne⟩ := trimChars_trimEndChars run hblank
  have hsplit : trimEndChars (c :: run) ++ (c :: run).rtakeWhile isBlank = c :: run :=
    List.rdropWhile_append_rtakeWhile
  refine ⟨trimEndChars (c :: run), (c :: run).rtakeWhile isBlank, ?_, ?_, ?_, rfl, ?_, ?_⟩
  · rw [hsplit, ← hrun]
    exact (List.takeWhile_append_dropWhile).symm
  · exact fun d hd => List.mem_rtakeWhile_imp hd
  · simp only [wordStep, hrun]
    refine .word ⟨hne, htrim, fun d hd => ?_⟩
    have hmem : d ∈ (c :: cs).takeWhile (fun d => !isDelimiter d) := by
      rw [hrun, ← hsplit]
      exact List.mem_append_left _ hd
    simpa using List.mem_takeWhile_imp hmem
  · simp only [wordStep, hrun]
  · simp only [wordStep, hrun]
    rw [Nat.add_assoc, ← byteLength_append, hsplit]

/-- A step passes over white space, a lexeme and white space. -/
theorem exists_lexeme_of_next? {offset : Nat} {cs : List Char} {s : Step}
    (h : next? offset cs = some s) :
    ∃ blanks text gap, cs = blanks ++ text ++ gap ++ s.rest ∧
      (∀ c ∈ blanks, isBlank c = true) ∧ (∀ c ∈ gap, isBlank c = true) ∧
      Lexeme s.token.kind text ∧ s.token.start = offset + byteLength blanks ∧
      s.token.stop = s.token.start + byteLength text ∧
      s.offset = s.token.stop + byteLength gap := by
  unfold next? at h
  split at h
  · cases h
  · next c rest hdrop =>
    cases h
    have hcs : cs = cs.takeWhile isBlank ++ c :: rest := by
      rw [← hdrop, List.takeWhile_append_dropWhile]
    have hc : isBlank c = false := by
      have := List.head_dropWhile_not isBlank (l := cs) (by simp [hdrop])
      simpa [hdrop] using this
    have hblanks : ∀ d ∈ cs.takeWhile isBlank, isBlank d = true := fun d hd =>
      List.mem_takeWhile_imp hd
    refine ⟨cs.takeWhile isBlank, ?_⟩
    generalize offset + byteLength (cs.takeWhile isBlank) = start
    generalize cs.takeWhile isBlank = blanks at hcs hblanks
    unfold stepAt
    cases hp : punctuation? c with
    | some kind =>
      refine ⟨[c], [], ?_, hblanks, by simp, .punctuation hp, rfl, rfl, rfl⟩
      simp [hcs]
    | none =>
      by_cases hq : isQuote c = true
      · simp only [hq, if_true]
        obtain ⟨text, htext, hlexeme, hstart, hstop, hoffset⟩ := lexeme_quotedStep hq start rest
        refine ⟨text, [], ?_, hblanks, by simp, hlexeme, hstart, ?_, ?_⟩
        · rw [List.append_nil, List.append_assoc, ← htext, hcs]
        · rw [hstop, hstart]
        · rw [hoffset, hstop, byteLength, Nat.add_zero]
      · have hdelimiter : isDelimiter c = false := by simp [isDelimiter, hp, hq]
        simp only [hq, Bool.false_eq_true, if_false]
        obtain ⟨text, gap, htext, hgap, hlexeme, hstart, hstop, hoffset⟩ :=
          lexeme_wordStep rest hc hdelimiter start
        refine ⟨text, gap, ?_, hblanks, hgap, hlexeme, hstart, ?_, ?_⟩
        · rw [List.append_assoc, List.append_assoc, ← List.append_assoc text, ← htext, hcs]
        · rw [hstop, hstart]
        · rw [hoffset, hstop]

/-! ## Whole scans -/

/-- A scan covers its text. -/
theorem covers_scanFrom (offset : Nat) (cs : List Char) :
    Covers offset cs (scanFrom offset cs) := by
  induction hn : cs.length using Nat.strong_induction_on generalizing offset cs with
  | h n ih =>
    rw [scanFrom]
    split
    · next hnone =>
      refine .nil (List.dropWhile_eq_nil_iff.1 ?_)
      unfold next? at hnone
      split at hnone
      · assumption
      · cases hnone
    · next s hs =>
      obtain ⟨blanks, text, gap, hcs, hblanks, hgap, hlexeme, hstart, hstop, hoffset⟩ :=
        exists_lexeme_of_next? hs
      have hrest := ih s.rest.length (hn ▸ length_of_next? hs) s.offset s.rest rfl
      rw [hoffset] at hrest
      have hcover := Covers.cons hblanks hlexeme hstart hstop (.append_blanks hgap hrest)
      rwa [← List.append_assoc, ← hcs, ← hoffset] at hcover

section Covers

variable {offset : Nat} {cs : List Char} {ts : List Token}

/-- The text behind some of the tokens is covered by the others. -/
theorem Covers.drop {us : List Token} (h : Covers offset cs (us ++ ts)) :
    ∃ before rest, cs = before ++ rest ∧ Covers (offset + byteLength before) rest ts := by
  induction us generalizing offset cs with
  | nil => exact ⟨[], cs, rfl, h⟩
  | cons u us ih =>
    cases h with
    | @cons _ blanks text rest _ _ _ _ hstart hstop hrest =>
      obtain ⟨before, rest', hcs, hcover⟩ := ih hrest
      refine ⟨blanks ++ text ++ before, rest', by simp only [hcs, List.append_assoc], ?_⟩
      rw [byteLength_append, byteLength_append]
      rwa [show offset + (byteLength blanks + byteLength text + byteLength before) =
        u.stop + byteLength before by omega]

/-- Each token has its lexeme in the text. -/
theorem Covers.exists_lexeme (h : Covers offset cs ts) {t : Token} (ht : t ∈ ts) :
    ∃ before text after, cs = before ++ text ++ after ∧ Lexeme t.kind text ∧
      t.start = offset + byteLength before ∧ t.stop = t.start + byteLength text := by
  obtain ⟨us, vs, rfl⟩ := List.append_of_mem ht
  obtain ⟨before, rest, rfl, hcover⟩ := h.drop
  cases hcover with
  | @cons _ blanks text rest _ _ _ hlexeme hstart hstop _ =>
    refine ⟨before ++ blanks, text, rest, by simp only [List.append_assoc], hlexeme, ?_, hstop⟩
    rw [hstart, byteLength_append, Nat.add_assoc]

/-- What stands from the beginning of a token to the end of the same or a later one. -/
theorem Covers.exists_part {us vs : List Token} {t u : Token}
    (h : Covers offset cs (us ++ t :: vs)) (hu : u ∈ t :: vs) :
    ∃ before part after, cs = before ++ part ++ after ∧ t.start = offset + byteLength before ∧
      u.stop = t.start + byteLength part := by
  obtain ⟨before, rest, rfl, hcover⟩ := h.drop
  cases hcover with
  | @cons _ blanks text rest _ _ _ _ hstart hstop hrest =>
    rcases List.mem_cons.1 hu with rfl | hu
    · refine ⟨before ++ blanks, text, rest, by simp only [List.append_assoc], ?_, hstop⟩
      rw [hstart, byteLength_append, Nat.add_assoc]
    · obtain ⟨between, text', after, rfl, -, hstart', hstop'⟩ := hrest.exists_lexeme hu
      refine ⟨before ++ blanks, text ++ between ++ text', after,
        by simp only [List.append_assoc], ?_, ?_⟩
      · rw [hstart, byteLength_append, Nat.add_assoc]
      · rw [byteLength_append, byteLength_append]
        omega

end Covers

/-- From the beginning of a scanned token to the end of the same or a later one the text is cut
between characters. -/
theorem exists_cutsOut {cs : List Char} {us vs : List Token} {t u : Token}
    (h : scan cs = us ++ t :: vs) (hu : u ∈ t :: vs) :
    ∃ part, CutsOut cs t.start u.stop part := by
  have hcover : Covers 0 cs (us ++ t :: vs) := h ▸ covers_scanFrom 0 cs
  obtain ⟨before, part, after, hcs, hstart, hstop⟩ := hcover.exists_part hu
  exact ⟨part, before, after, hcs, by rw [hstart, Nat.zero_add], hstop⟩

/-! ## Scanning lexemes -/

/-- What follows does not continue a word. -/
def EndsWord (rest : List Char) : Prop := ∀ c ∈ rest.head?, isDelimiter c = true

theorem endsWord_cons {c : Char} (h : isDelimiter c = true) (rest : List Char) :
    EndsWord (c :: rest) := fun d hd => by
  cases hd
  exact h

/-- A scan goes on behind its first token. -/
theorem scanFrom_of_next? {offset : Nat} {cs : List Char} {s : Step}
    (h : next? offset cs = some s) : scanFrom offset cs = s.token :: scanFrom s.offset s.rest := by
  rw [scanFrom]
  split
  · next hnone => rw [h] at hnone; cases hnone
  · next s' hs =>
    rw [h] at hs
    cases hs
    rfl

theorem scanFrom_blank {c : Char} (hc : isBlank c = true) (offset : Nat) (rest : List Char) :
    scanFrom offset (c :: rest) = scanFrom (offset + c.utf8Size) rest := by
  have hnext : next? offset (c :: rest) = next? (offset + c.utf8Size) rest := by
    unfold next?
    rw [List.dropWhile_cons_of_pos hc, List.takeWhile_cons_of_pos hc, byteLength, Nat.add_assoc]
  rw [scanFrom, hnext, scanFrom]

theorem next?_of_not_blank {c : Char} (hc : isBlank c = false) (offset : Nat) (rest : List Char) :
    next? offset (c :: rest) = some (stepAt offset c rest) := by
  rw [next?, List.dropWhile_cons_of_neg (by simp [hc]), List.takeWhile_cons_of_neg (by simp [hc])]
  rfl

theorem not_isBlank_of_isDelimiter {c : Char} (h : isDelimiter c = true) : isBlank c = false := by
  unfold isDelimiter at h
  rcases Bool.or_eq_true _ _ ▸ h with h | h
  · unfold punctuation? at h
    split at h <;> first | rfl | cases h
  · simp only [isQuote, Bool.or_eq_true, beq_iff_eq] at h
    rcases h with rfl | rfl <;> rfl

theorem punctuation?_of_isQuote {c : Char} (h : isQuote c = true) : punctuation? c = none := by
  simp only [isQuote, Bool.or_eq_true, beq_iff_eq] at h
  rcases h with rfl | rfl <;> rfl

theorem isDelimiter_of_punctuation? {c : Char} {kind : Kind} (h : punctuation? c = some kind) :
    isDelimiter c = true := by
  simp [isDelimiter, h]

/-- Punctuation is scanned as one token, whatever follows. -/
theorem scanFrom_punctuation {c : Char} {kind : Kind} (h : punctuation? c = some kind)
    (offset : Nat) (rest : List Char) :
    scanFrom offset (c :: rest) =
      ⟨kind, offset, offset + c.utf8Size⟩ :: scanFrom (offset + c.utf8Size) rest := by
  have hnext := next?_of_not_blank
    (not_isBlank_of_isDelimiter (isDelimiter_of_punctuation? h)) offset rest
  rw [stepAt, h] at hnext
  exact scanFrom_of_next? hnext

/-- Text between quotes is scanned as one token. -/
theorem scanFrom_quotes_append {q : Char} {w : List Char} (hq : isQuote q = true) (hmem : q ∉ w)
    (offset : Nat) (rest : List Char) :
    scanFrom offset (q :: (w ++ [q]) ++ rest) =
      ⟨.quoted (String.ofList w), offset, offset + byteLength (q :: (w ++ [q]))⟩ ::
        scanFrom (offset + byteLength (q :: (w ++ [q]))) rest := by
  have hc : isDelimiter q = true := by simp [isDelimiter, hq]
  have hsize : q.utf8Size = 1 := by
    simp only [isQuote, Bool.or_eq_true, beq_iff_eq] at hq
    rcases hq with rfl | rfl <;> decide
  have hall : ∀ c ∈ w, (c != q) = true := fun c hcw => by
    simpa using fun h : c = q => hmem (h ▸ hcw)
  have htake : (w ++ q :: rest).takeWhile (· != q) = w := by
    rw [List.takeWhile_append_of_pos hall, List.takeWhile_cons_of_neg (by simp),
      List.append_nil]
  have hdrop : (w ++ q :: rest).dropWhile (· != q) = q :: rest := by
    rw [List.dropWhile_append_of_pos hall, List.dropWhile_cons_of_neg (by simp)]
  have hlength : byteLength (q :: (w ++ [q])) = 1 + byteLength w + 1 := by
    rw [byteLength, byteLength_append, byteLength, byteLength, hsize]
    omega
  have hnext := next?_of_not_blank (not_isBlank_of_isDelimiter hc) offset (w ++ q :: rest)
  rw [stepAt, punctuation?_of_isQuote hq] at hnext
  simp only [hq, if_true, quotedStep, htake, hdrop] at hnext
  rw [List.cons_append, List.append_assoc, List.singleton_append, scanFrom_of_next? hnext,
    hlength, ← Nat.add_assoc, ← Nat.add_assoc]

/-- A word is scanned as one token, if what follows does not continue it. -/
theorem scanFrom_isWord_append {w : List Char} (hw : IsWord w) {rest : List Char}
    (hrest : EndsWord rest) (offset : Nat) :
    scanFrom offset (w ++ rest) =
      ⟨.word (String.ofList w), offset, offset + byteLength w⟩ ::
        scanFrom (offset + byteLength w) rest := by
  cases w with
  | nil => exact absurd rfl hw.ne_nil
  | cons c w =>
    have hc : isDelimiter c = false := hw.noDelimiter c List.mem_cons_self
    have hblank : isBlank c = false := head_not_blank hw.trimmed c rfl
    have hp : punctuation? c = none := by
      simpa using (Bool.or_eq_false_iff.1 hc).1
    have hq : isQuote c = false := (Bool.or_eq_false_iff.1 hc).2
    have hall : ∀ d ∈ c :: w, (!isDelimiter d) = true := fun d hd => by
      rw [hw.noDelimiter d hd]
      rfl
    have htake : rest.takeWhile (fun d => !isDelimiter d) = [] ∧
        rest.dropWhile (fun d => !isDelimiter d) = rest := by
      cases rest with
      | nil => exact ⟨rfl, rfl⟩
      | cons d rest =>
        have hd : isDelimiter d = true := hrest d rfl
        exact ⟨List.takeWhile_cons_of_neg (by simp [hd]),
          List.dropWhile_cons_of_neg (by simp [hd])⟩
    have hnext := next?_of_not_blank hblank offset (w ++ rest)
    rw [stepAt, hp] at hnext
    simp only [hq, Bool.false_eq_true, if_false, wordStep, ← List.cons_append] at hnext
    rw [List.takeWhile_append_of_pos hall, List.dropWhile_append_of_pos hall, htake.1, htake.2,
      List.append_nil, trimEndChars_of_trimChars hw.trimmed] at hnext
    exact scanFrom_of_next? hnext

/-- A lexeme that is closed is scanned as one token, if what follows does not continue a word. -/
theorem Lexeme.scanFrom_append {kind : Kind} {text : List Char} (h : Lexeme kind text)
    (hkind : kind ≠ .unterminated) {rest : List Char} (hrest : EndsWord rest) (offset : Nat) :
    scanFrom offset (text ++ rest) =
      ⟨kind, offset, offset + byteLength text⟩ :: scanFrom (offset + byteLength text) rest := by
  cases h with
  | unterminated => exact absurd rfl hkind
  | punctuation hp => exact scanFrom_punctuation hp offset rest
  | quoted hq hmem => exact scanFrom_quotes_append hq hmem offset rest
  | word hw => exact scanFrom_isWord_append hw hrest offset

end Token

end Appearance
