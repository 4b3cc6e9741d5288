import Appearance.Yaml.Node.Scalar
import Appearance.Yaml.Token.Stream
import Mathlib.Data.List.Basic

/-!
# Scalars behind keys

A scalar on the line of its key becomes one token, if nothing continues it: a plain scalar goes on
over lines that are indented far enough (`EndsScalar` excludes these), a quoted one ends at its
quote. `Scanner.BehindKey.fetches_plain` and `Scanner.BehindKey.fetches_quoted` say so of a scan
that has just passed the colon of a key (`Scanner.behindKey_of_fetchColon`).

`Scanner.Fetches` is one step of the scan, stated with the text that follows left general, and
`BehindKey` is the state that such a step needs: no bracket is open, the column lies beyond the
indentation, and no key is awaited. With both a line of a document is scanned by composing steps,
and the scanner is never run on a whole text. The bounds on the loops inside a scalar are the
lengths of the text and do not matter, as every lemma on a loop says where it stops.
-/

namespace Appearance.Yaml

variable {limit : Nat} {text rest cs : List Char}

/-! ## What follows a scalar -/

/-- Lines that do not continue a plain scalar whose lines must be indented to the limit: after empty
lines there is a comment, or text that is indented less, or nothing. -/
inductive Dedented (limit : Nat) : List Char → Prop
  | nil (n : Nat) : Dedented limit (List.replicate n ' ')
  | empty (n : Nat) {cs : List Char} : Dedented limit cs →
    Dedented limit (List.replicate n ' ' ++ '\n' :: cs)
  | comment (n : Nat) (cs : List Char) : Dedented limit (List.replicate n ' ' ++ '#' :: cs)
  | text {n : Nat} {c : Char} (cs : List Char) : n < limit → isBlank c = false →
    isBreak c = false → Dedented limit (List.replicate n ' ' ++ c :: cs)

/-- The text behind a scalar has nothing more of it: a comment may follow, or other lines. -/
inductive EndsScalar (limit : Nat) : List Char → Prop
  | nil : EndsScalar limit []
  | comment {blanks : List Char} (cs : List Char) : blanks ≠ [] →
    (∀ c ∈ blanks, isBlank c = true) → EndsScalar limit (blanks ++ '#' :: cs)
  | line {cs : List Char} : Dedented limit cs → EndsScalar limit ('\n' :: cs)

/-- A plain scalar stops at the cursor. -/
def Cursor.StopsPlain (limit : Nat) (c : Cursor) : Prop :=
  c.rest = [] ∨ c.sees '#' = true ∨ c.column < limit

namespace Gap

/-- A blank character belongs to the gap. -/
theorem gather_blank {c : Char} (hc : isBlank c = true) {m : Mark} {g : Gap}
    (htab : c = ' ' ∨ g.lead = none) :
    gather limit m g (c :: cs) = gather limit (m.along [c]) (g.addBlank c) cs := by
  have hreturn : c ≠ '\r' := by rintro rfl; cases hc
  rw [gather, if_pos hc, if_neg]
  · rcases htab with rfl | hlead
    · simp
    · simp [hlead]
  · exact fun _ h => absurd h hreturn

/-- Spaces belong to the gap and move the column. -/
theorem exists_gather_replicate (limit n : Nat) (m : Mark) (g : Gap) (cs : List Char) :
    ∃ m' g', gather limit m g (List.replicate n ' ' ++ cs) = gather limit m' g' cs ∧
      m'.column = m.column + n := by
  induction n generalizing m g with
  | zero => exact ⟨m, g, rfl, rfl⟩
  | succ n ih =>
    obtain ⟨m', g', hgather, hcolumn⟩ := ih (m.along [' ']) (g.addBlank ' ')
    refine ⟨m', g', ?_, ?_⟩
    · rw [List.replicate_succ, List.cons_append, gather_blank rfl (.inl rfl), hgather]
    · rw [hcolumn, Mark.along, Nat.add_assoc, Nat.add_comm n]
      rfl

theorem gather_text {c : Char} (hblank : isBlank c = false) (hbreak : isBreak c = false) (m : Mark)
    (g : Gap) : gather limit m g (c :: cs) = some (⟨m, c :: cs⟩, g) := by
  have hreturn : c ≠ '\r' := by rintro rfl; cases hbreak
  rw [gather, if_neg (by simp [hblank]), if_neg (by simp [hbreak])]
  exact fun _ h => absurd h hreturn

theorem gather_feed (m : Mark) (g : Gap) :
    gather limit m g ('\n' :: cs) = gather limit (m.nextLine ['\n']) (g.addBreak '\n') cs := by
  rw [gather]
  · rfl
  · nofun

/-- Blanks on the line of the scalar are passed. -/
theorem exists_gather_blanks (limit : Nat) {blanks : List Char}
    (hblanks : ∀ c ∈ blanks, isBlank c = true) (m : Mark) {g : Gap} (hg : g.lead = none)
    (cs : List Char) :
    ∃ m' g', gather limit m g (blanks ++ cs) = gather limit m' g' cs := by
  induction blanks generalizing m g with
  | nil => exact ⟨m, g, rfl⟩
  | cons c blanks ih =>
    obtain ⟨hc, hblanks⟩ := List.forall_mem_cons.1 hblanks
    have hlead : (g.addBlank c).lead = none := by simp [addBlank, hg]
    obtain ⟨m', g', hgather⟩ := ih hblanks (m.along [c]) hlead
    exact ⟨m', g', by rw [List.cons_append, gather_blank hc (.inr hg), hgather]⟩

end Gap

/-- A gap in front of a line that is indented less stops a plain scalar. -/
theorem Dedented.exists_gather (h : Dedented limit cs) {m : Mark} (hm : m.column = 0) (g : Gap) :
    ∃ c g', Gap.gather limit m g cs = some (c, g') ∧ c.StopsPlain limit := by
  induction h generalizing m g with
  | nil n =>
    obtain ⟨m', g', hgather, -⟩ := Gap.exists_gather_replicate limit n m g []
    rw [List.append_nil] at hgather
    exact ⟨⟨m', []⟩, g', hgather, .inl rfl⟩
  | @empty n cs _ ih =>
    obtain ⟨m', g', hgather, -⟩ :=
      Gap.exists_gather_replicate limit n m g ('\n' :: cs)
    have hnext : (m'.nextLine ['\n']).column = 0 := rfl
    rw [hgather, Gap.gather_feed]
    exact ih hnext _
  | comment n cs =>
    obtain ⟨m', g', hgather, -⟩ := Gap.exists_gather_replicate limit n m g ('#' :: cs)
    exact ⟨⟨m', '#' :: cs⟩, g', hgather.trans (Gap.gather_text rfl rfl m' g'), .inr (.inl rfl)⟩
  | @text n c cs hn hblank hbreak =>
    obtain ⟨m', g', hgather, hcolumn⟩ :=
      Gap.exists_gather_replicate limit n m g (c :: cs)
    refine ⟨⟨m', c :: cs⟩, g', hgather.trans (Gap.gather_text hblank hbreak m' g'), .inr (.inr ?_)⟩
    rw [Cursor.column, hcolumn, hm]
    omega

/-- What follows a scalar is a gap that stops it. -/
theorem EndsScalar.exists_gather (h : EndsScalar limit rest) (m : Mark) :
    ∃ c g, Gap.gather limit m Gap.empty rest = some (c, g) ∧ c.StopsPlain limit := by
  cases h with
  | nil => exact ⟨⟨m, []⟩, Gap.empty, rfl, .inl rfl⟩
  | comment cs _ hblanks =>
    obtain ⟨m', g', hgather⟩ :=
      Gap.exists_gather_blanks limit hblanks m (g := Gap.empty) rfl ('#' :: cs)
    exact ⟨⟨m', '#' :: cs⟩, g', hgather.trans (Gap.gather_text rfl rfl m' g'), .inr (.inl rfl)⟩
  | line hcs =>
    rw [Gap.gather_feed]
    exact hcs.exists_gather rfl _

/-- Nothing or a gap follows. -/
theorem EndsScalar.atGap (h : EndsScalar limit rest) : atGap rest = true := by
  cases h with
  | nil => rfl
  | @comment blanks cs hne hblanks =>
    cases blanks with
    | nil => exact absurd rfl hne
    | cons c blanks => simp [Yaml.atGap, hblanks c List.mem_cons_self]
  | line => rfl

namespace Scalar

/-! ## Plain scalars -/

/-- A plain scalar can have the character anywhere, also in front of a gap. -/
def IsPlainChar (c : Char) : Prop :=
  isBlank c = false ∧ isBreak c = false ∧ c ≠ ':'

instance (c : Char) : Decidable (IsPlainChar c) := inferInstanceAs (Decidable (_ ∧ _))

/-- The characters of a plain scalar are passed up to the gap. -/
theorem plainRun_append (htext : ∀ c ∈ text, IsPlainChar c) (hrest : atGap rest = true)
    (acc : List Char) : plainRun false acc (text ++ rest) = some (text.reverse ++ acc) := by
  induction text generalizing acc with
  | nil =>
    cases rest with
    | nil => rfl
    | cons c cs =>
      rw [List.nil_append, plainRun]
      exact if_pos hrest
  | cons c text ih =>
    obtain ⟨⟨hblank, hbreak, hcolon⟩, htext⟩ := List.forall_mem_cons.1 htext
    rw [List.cons_append, plainRun, if_neg (by simp [hblank, hbreak]), if_neg (by simp),
      if_neg (by simp [hcolon]), ih htext, List.reverse_cons, List.append_assoc]
    rfl

/-- The loop ends at a cursor at which a plain scalar stops. -/
theorem exists_plainLoop {c : Cursor} (h : c.StopsPlain limit) (fuel : Nat) (acc : List Char)
    (gap : Gap) : ∃ next broken,
      (if !false && c.column < limit then some (acc, c, gap.lead.isSome)
        else plainLoop false limit fuel acc gap c) = some (acc, next, broken) := by
  by_cases hcolumn : c.column < limit
  · exact ⟨c, _, if_pos (by simpa using hcolumn)⟩
  · rw [if_neg (by simpa using hcolumn)]
    cases fuel with
    | zero => exact ⟨c, _, rfl⟩
    | succ fuel =>
      rw [plainLoop]
      by_cases hend : (c.seesDocumentMarker || c.sees '#') = true
      · exact ⟨c, _, if_pos hend⟩
      · have hrest : c.rest = [] := by
          rcases h with h | h | h
          · exact h
          · exact absurd (by simp [h]) hend
          · exact absurd h hcolumn
        rw [if_neg hend, hrest]
        simp [plainRun, Cursor.drop, hrest]

/-- A plain scalar is read up to what ends it. -/
theorem exists_plain {c : Char} (hc : c ≠ '#') (htext : ∀ d ∈ c :: text, IsPlainChar d) {m : Mark}
    (hm : m.column ≠ 0) (hrest : EndsScalar limit rest) :
    ∃ next broken, plain false limit ⟨m, c :: text ++ rest⟩ =
      some (String.ofList (c :: text), next, broken) := by
  have hloop : ∃ next broken,
      plainLoop false limit ((c :: text ++ rest).length + 1) [] Gap.empty ⟨m, c :: text ++ rest⟩ =
        some ((c :: text).reverse, next, broken) := by
    have hbegin : ¬ ((⟨m, c :: text ++ rest⟩ : Cursor).seesDocumentMarker ||
        (⟨m, c :: text ++ rest⟩ : Cursor).sees '#') = true := by
      simp [Cursor.seesDocumentMarker, Cursor.seesMarker, Cursor.column, Cursor.sees, hm, hc]
    have hdrop : (⟨m, c :: text ++ rest⟩ : Cursor).drop (c :: text).length =
        ⟨m.along (c :: text), rest⟩ := by
      simp [Cursor.drop]
    rw [plainLoop, if_neg hbegin, plainRun_append htext hrest.atGap, List.append_nil]
    dsimp only
    rw [List.length_reverse, hdrop]
    have hempty : (c :: text).reverse.isEmpty = false := by simp
    have hacc : (c :: text).reverse ++ (Gap.empty.folded ++ []) = (c :: text).reverse :=
      List.append_nil _
    simp only [hempty, Bool.false_eq_true, if_false, hacc]
    obtain ⟨stop, gap, hgather, hstop⟩ := hrest.exists_gather (m.along (c :: text))
    have hgap := hrest.atGap
    cases rest with
    | nil => exact ⟨_, _, rfl⟩
    | cons d ds =>
      rw [hgather]
      obtain ⟨next, broken, hend⟩ := exists_plainLoop hstop _ (c :: text).reverse gap
      exact ⟨next, broken, (if_pos hgap).trans hend⟩
  obtain ⟨next, broken, hloop⟩ := hloop
  exact ⟨next, broken, by rw [plain, hloop]; simp⟩

/-! ## Quoted scalars -/

/-- A character that stands for itself between double quotes. -/
def IsQuotedChar (c : Char) : Prop :=
  isBlank c = false ∧ isBreak c = false ∧ c ≠ '"' ∧ c ≠ '\\'

instance (c : Char) : Decidable (IsQuotedChar c) := inferInstanceAs (Decidable (_ ∧ _))

/-- The characters of a quoted scalar are passed up to the quote. -/
theorem quotedRun_append (htext : ∀ c ∈ text, IsQuotedChar c) {fuel : Nat}
    (hfuel : text.length < fuel) (acc : List Char) (passed : Nat) :
    quotedRun '"' fuel acc (text ++ '"' :: rest) passed =
      some (text.reverse ++ acc, passed + text.length, .closing) := by
  induction text generalizing fuel acc passed with
  | nil =>
    obtain ⟨fuel, rfl⟩ : ∃ k, fuel = k + 1 := ⟨fuel - 1, by simp at hfuel; omega⟩
    rfl
  | cons c text ih =>
    obtain ⟨⟨hblank, hbreak, hquote, hescape⟩, htext⟩ := List.forall_mem_cons.1 htext
    obtain ⟨fuel, rfl⟩ : ∃ k, fuel = k + 1 := ⟨fuel - 1, by simp at hfuel; omega⟩
    rw [List.cons_append, quotedRun, if_neg (by simp [hblank, hbreak]), if_neg (by simp),
      if_neg hquote, if_neg (by simp [hescape]), ih htext (by simpa using hfuel)]
    simp only [List.reverse_cons, List.append_assoc, List.singleton_append, List.length_cons]
    rw [Nat.add_assoc, Nat.add_comm 1]

/-- A quoted scalar is read up to its quote. -/
theorem exists_quoted (htext : ∀ c ∈ text, IsQuotedChar c) (m : Mark) :
    ∃ next, quoted ⟨m, '"' :: (text ++ '"' :: rest)⟩ = some (String.ofList text, next) := by
  have hbegin : ((⟨m.along ['"'], text ++ '"' :: rest⟩ : Cursor).seesDocumentMarker ||
      (text ++ '"' :: rest).isEmpty) = false := by
    simp [Cursor.seesDocumentMarker, Cursor.seesMarker, Cursor.column, Mark.along]
  have hfuel : text.length < (text ++ '"' :: rest).length + 1 := by
    rw [List.length_append]
    omega
  have hrun : quotedRun '"' ((text ++ '"' :: rest).length + 1) [] (text ++ '"' :: rest) 0 = _ :=
    quotedRun_append htext hfuel [] 0
  have hloop : ∃ next, quotedLoop '"' (('"' :: (text ++ '"' :: rest)).length + 1) []
      ⟨m.along ['"'], text ++ '"' :: rest⟩ = some (text.reverse, next) := by
    rw [quotedLoop, hbegin]
    simp only [Bool.false_eq_true, if_false, hrun, List.append_nil]
    exact ⟨_, rfl⟩
  obtain ⟨next, hloop⟩ := hloop
  refine ⟨next, ?_⟩
  have hdrop : (⟨m, '"' :: (text ++ '"' :: rest)⟩ : Cursor).drop 1 =
      ⟨m.along ['"'], text ++ '"' :: rest⟩ := rfl
  rw [quoted]
  dsimp only
  rw [hdrop, hloop]
  simp

end Scalar

/-! ## Tokens -/

namespace Scanner

variable {s : Scanner}

/-- The scan has passed the colon of a key, outside all brackets. -/
structure BehindKey (s : Scanner) : Prop where
  outer : s.outer = []
  candidate : s.candidate = none
  keyAllowed : s.keyAllowed = false
  indent_le : s.indent ≤ s.column

/-- A colon that makes a key of what stands before it on the line leaves the scan behind the key. -/
theorem behindKey_of_fetchColon {k : PossibleKey} (hkey : s.candidate = some k)
    (houter : s.outer = []) (hbegin : k.mark.column ≤ s.column) (hindent : s.indent ≤ s.column)
    {t : Scanner} (h : s.fetchColon = some t) : t.BehindKey := by
  have hpassed : s.column ≤ (s.cursor.drop 1).column := Nat.le_add_right _ _
  rw [fetchColon, hkey] at h
  cases h
  unfold openBlock
  dsimp only
  split
  · exact ⟨houter, rfl, rfl, Int.le_trans hindent (Int.ofNat_le.2 hpassed)⟩
  · exact ⟨houter, rfl, rfl, Int.ofNat_le.2 (Nat.le_trans hbegin hpassed)⟩

/-- The scanner in front of another text. -/
def before (s : Scanner) (cs : List Char) : Scanner := { s with cursor := ⟨s.cursor.mark, cs⟩ }

/-- In front of the text the scan adds the token and goes on. -/
def Fetches (s : Scanner) (cs : List Char) (t : Token) : Prop :=
  ∃ u, (s.before cs).next = some (.inl u) ∧ u.tokens = s.tokens.push t

/-- The scanner in front of another text, one column further. -/
def behindSpace (s : Scanner) (cs : List Char) : Scanner :=
  { s with cursor := ⟨s.cursor.mark.along [' '], cs⟩ }

/-- One space is the whole gap. -/
theorem skipGap_space {c : Char} (hblank : isBlank c = false) (hbreak : isBreak c = false)
    (hsign : c ≠ '#') (s : Scanner) (fuel : Nat) (cs : List Char) :
    (s.before (' ' :: c :: cs)).skipGap (fuel + 1) = s.behindSpace (c :: cs) := by
  have hmark : ((s.before (' ' :: c :: cs)).column == 0 &&
      (s.before (' ' :: c :: cs)).cursor.sees byteOrderMark) = false := by
    rw [Bool.and_eq_false_iff]
    exact .inr rfl
  have hskip (tabs : Bool) : ((s.before (' ' :: c :: cs)).cursor.skipWhile
      fun ch => ch == ' ' || (tabs && ch == '\t')) = ⟨s.cursor.mark.along [' '], c :: cs⟩ := by
    have hc : c ≠ ' ' ∧ c ≠ '\t' := by simpa [isBlank] using hblank
    simp [Cursor.skipWhile, before, hc, Cursor.drop]
  rw [skipGap, hmark]
  simp only [Bool.false_eq_true, if_false, hskip]
  simp [Cursor.sees, hsign, hbreak, before, behindSpace]

/-- Behind a key and a space the next token begins with the next character. -/
theorem BehindKey.next_space (hs : s.BehindKey) {c : Char} (hblank : isBlank c = false)
    (hbreak : isBreak c = false) (hsign : c ≠ '#') (cs : List Char) :
    (s.before (' ' :: c :: cs)).next = ((s.behindSpace (c :: cs)).fetchAt c cs).map .inl := by
  have hstale : (s.behindSpace (c :: cs)).dropStaleKeys = some (s.behindSpace (c :: cs)) := by
    simp [dropStaleKeys, behindSpace, hs.candidate, hs.outer, freshKey]
  have hclose : (s.behindSpace (c :: cs)).closeBlocks (s.behindSpace (c :: cs)).column =
      s.behindSpace (c :: cs) := by
    have hindent :
        ¬ ((s.behindSpace (c :: cs)).column : Int) < (s.behindSpace (c :: cs)).indent := by
      have hle : s.indent ≤ (s.cursor.mark.column : Int) := hs.indent_le
      simp only [behindSpace, column, Cursor.column, Mark.along]
      push_cast
      omega
    have houter : (s.behindSpace (c :: cs)).inFlow = false := by
      simp [inFlow, behindSpace, hs.outer]
    rw [closeBlocks, houter]
    simp only [Bool.false_eq_true, if_false]
    cases hindents : (s.behindSpace (c :: cs)).indents with
    | nil => rw [closeFrom, ← hindents]
    | cons outer indents => rw [closeFrom, if_neg hindent, ← hindents]
  rw [next, skipGap_space hblank hbreak hsign, hstale]
  simp only [Option.bind_eq_bind, Option.bind_some, hclose]
  show ((s.behindSpace (c :: cs)).fetchAt c cs).bind (fun t => some (Sum.inl t)) = _
  cases (s.behindSpace (c :: cs)).fetchAt c cs <;> rfl

/-- Behind a space no marker of a document begins. -/
theorem seesMarker_behindSpace (s : Scanner) (cs : List Char) (ch : Char) :
    (s.behindSpace cs).cursor.seesMarker ch = false := by
  simp [Cursor.seesMarker, behindSpace, Cursor.column, Mark.along]

theorem column_behindSpace (s : Scanner) (cs : List Char) :
    (s.behindSpace cs).column = s.column + 1 := rfl

theorem fetchAt_quote (s : Scanner) (cs rest : List Char) :
    (s.behindSpace cs).fetchAt '"' rest = (s.behindSpace cs).fetchQuoted := by
  simp [fetchAt, seesMarker_behindSpace, column_behindSpace]

/-- A letter begins a plain scalar. -/
theorem fetchAt_letter {c : Char} (hc : c.isAlpha = true) (hblank : isBlank c = false)
    (hbreak : isBreak c = false) (s : Scanner) (cs rest : List Char) :
    (s.behindSpace cs).fetchAt c rest = (s.behindSpace cs).fetchPlain := by
  have hother : ∀ d ∈ "-?:,[]\x7b\x7d#&*!|>'\"%@`".toList, c ≠ d := by
    rintro _ hd rfl
    have hfalse := (by decide : ∀ e ∈ "-?:,[]\x7b\x7d#&*!|>'\"%@`".toList, e.isAlpha = false) c hd
    rw [hc] at hfalse
    cases hfalse
  have hcontains : "-?:,[]\x7b\x7d#&*!|>'\"%@`".toList.contains c = false :=
    List.contains_eq_mem c _ ▸ decide_eq_false fun hmem => hother c hmem rfl
  have hbegins : beginsPlain (s.behindSpace cs).inFlow c rest = true := by
    rw [beginsPlain, hblank, hbreak, hcontains]
    rfl
  simp only [String.reduceToList, List.mem_cons, List.not_mem_nil, or_false, ne_eq,
    forall_eq_or_imp, forall_eq] at hother
  simp [fetchAt, seesMarker_behindSpace, column_behindSpace, hbegins, hother]

/-- Behind a key a plain scalar that begins with a letter is one token. -/
theorem BehindKey.fetches_plain (hs : s.BehindKey) {c : Char} (hc : c.isAlpha = true)
    (htext : ∀ d ∈ c :: text, Scalar.IsPlainChar d) (hrest : EndsScalar (s.indent + 1).toNat rest) :
    s.Fetches (' ' :: (c :: text ++ rest)) (.scalar (String.ofList (c :: text)) true) := by
  set u := s.behindSpace (c :: text ++ rest) with hu
  have hsign : c ≠ '#' := by
    rintro rfl
    cases hc
  obtain ⟨hblank, hbreak, -⟩ := htext c List.mem_cons_self
  obtain ⟨next, broken, hplain⟩ : ∃ next broken,
      Scalar.plain false (s.indent + 1).toNat u.cursor =
        some (String.ofList (c :: text), next, broken) :=
    Scalar.exists_plain hsign htext (Nat.succ_ne_zero _) hrest
  have hkey : u.keyAllowed = false := hs.keyAllowed
  have hflow : u.inFlow = false := by simp [inFlow, hu, behindSpace, hs.outer]
  have hindent : u.indent = s.indent := rfl
  have hfetch : u.fetchPlain =
      some ((u.allowKey broken).emit (.scalar (String.ofList (c :: text)) true) next) := by
    simp [fetchPlain, saveKey, hkey, hflow, hindent, hplain]
  rw [Fetches, List.cons_append, hs.next_space hblank hbreak hsign, fetchAt_letter hc hblank hbreak,
    ← List.cons_append, ← hu, hfetch]
  exact ⟨_, rfl, rfl⟩

/-- Behind a key a quoted scalar is one token. -/
theorem BehindKey.fetches_quoted (hs : s.BehindKey) (htext : ∀ c ∈ text, Scalar.IsQuotedChar c)
    (rest : List Char) :
    s.Fetches (' ' :: '"' :: (text ++ '"' :: rest)) (.scalar (String.ofList text) false) := by
  set u := s.behindSpace ('"' :: (text ++ '"' :: rest)) with hu
  obtain ⟨next, hquoted⟩ : ∃ next, Scalar.quoted u.cursor = some (String.ofList text, next) :=
    Scalar.exists_quoted htext _
  have hkey : u.keyAllowed = false := hs.keyAllowed
  have hfetch : u.fetchQuoted =
      some ((u.allowKey false).emit (.scalar (String.ofList text) false) next) := by
    simp [fetchQuoted, saveKey, hkey, hquoted]
  rw [Fetches, hs.next_space rfl rfl (by decide), fetchAt_quote, ← hu, hfetch]
  exact ⟨_, rfl, rfl⟩

end Scanner

/-! ## Nodes -/

namespace Scalar

theorem contains_eq_false {s : String} {c : Char} {cs : List Char} (hs : s.toList = c :: cs)
    {words : List String} (hwords : ∀ w ∈ words, w.toList.head? ≠ some c) :
    words.contains s = false := by
  rw [List.contains_eq_mem]
  exact decide_eq_false fun hmem => hwords s hmem (by rw [hs]; rfl)

/-- Behind `c` and another letter that is no digit there is no number. -/
theorem read?_color {s : String} {cs : List Char} (hs : s.toList = 'c' :: 'o' :: cs) :
    Double.read? s = none := by
  have hword : ∀ w ∈ ["inf", "infinity", "nan"],
      String.ofList (('c' :: 'o' :: cs).map Char.toLower) ≠ w := by
    rintro w hw rfl
    have hhead := (by decide : ∀ w ∈ ["inf", "infinity", "nan"], w.toList.head? ≠ some 'c') _ hw
    exact hhead (by rw [String.toList_ofList]; rfl)
  simp only [List.forall_mem_cons] at hword
  have hsign : splitSign s.toList = (false, 'c' :: 'o' :: cs) := by rw [hs]; rfl
  rw [Double.read?, hsign]
  dsimp only
  rw [if_neg (not_or.2 ⟨hword.1, hword.2.1⟩), if_neg hword.2.2.1]
  rfl

/-- A plain scalar that is a call of `color` is neither null nor a flag nor a number. -/
theorem plainNode_color {s : String} {cs : List Char} (hs : s.toList = 'c' :: 'o' :: cs) :
    plainNode s = some (.string s) := by
  have hnull : isNullWord s = false := contains_eq_false hs (by decide)
  have hbool : boolWord? s = none := by
    have htrue : ["true", "True", "TRUE"].contains s = false := contains_eq_false hs (by decide)
    have hfalse : ["false", "False", "FALSE"].contains s = false :=
      contains_eq_false hs (by decide)
    simp only [boolWord?, htrue, hfalse, Bool.false_eq_true, if_false]
  have hinteger : readInteger? s.toList = none := by rw [hs]; rfl
  have hzero : hasLeadingZero s.toList = false := by rw [hs]; rfl
  have hreal : real? s = none := by
    have hinf : [".inf", ".Inf", ".INF"].contains s = false := contains_eq_false hs (by decide)
    have hminus : ["-.inf", "-.Inf", "-.INF"].contains s = false :=
      contains_eq_false hs (by decide)
    have hnan : [".nan", ".NaN", ".NAN"].contains s = false := contains_eq_false hs (by decide)
    have hword : String.ofList ('c' :: 'o' :: cs) = s := by rw [← hs, String.ofList_toList]
    unfold real?
    rw [hs]
    split
    · next h => cases h
    · dsimp only
      rw [hword, hinf, hminus, hnan, read?_color hs]
      rfl
  rw [plainNode, hnull, hbool, hinteger, hzero, hreal]
  rfl

end Scalar

end Appearance.Yaml
