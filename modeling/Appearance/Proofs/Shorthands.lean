import Appearance.Proofs.Normalization
import Appearance.Shorthand
import Mathlib.Data.List.Infix
import Mathlib.Data.List.TakeWhile

/-!
# What the shorthands leave alone

`Shorthand.expand` goes from line to line. A key ends where `EndsKey` says, at the first colon
outside quotes that the end of the line or a space follows, if no comment begins before
(`splitKey?_eq_some_iff`). Every replacement makes a text longer, so a line is left as it is exactly
if nothing in it is replaced (`expandLine_eq_self_iff`): its key has no marker, wherever it may
stand in the key, and its value is no bare color (`Unmarked`).

`expand_unchanged_iff` says the same of a source. As the prefixes of keys are also found inside of
words, a key such as `MEAN_size` is changed (`expand_meanSize`).

That nothing in a line is replaced cannot be read off the line alone if replacements could undo
each other. They cannot, as each makes its text longer (`Lengthens`): then a line that comes out as
it went in was not touched at any step.
-/

namespace Appearance

open Appearance.Text

/-! ## Replacing -/

namespace Text

variable {old new sep cs part : List Char}

/-- Where the separator is not found the text is one part. -/
theorem splitTextFrom_eq_singleton (h : ¬ sep <:+: cs) (part : List Char) :
    splitTextFrom sep 0 part cs = [part.reverse ++ cs] := by
  induction cs generalizing part with
  | nil => rw [splitTextFrom, List.append_nil]
  | cons c cs ih =>
    have hprefix : ¬ sep.isPrefixOf (c :: cs) = true := fun hsep =>
      h (List.isPrefixOf_iff_prefix.1 hsep).isInfix
    have hcs : ¬ sep <:+: cs := fun hsep => h (hsep.trans (List.suffix_cons c cs).isInfix)
    rw [splitTextFrom, if_neg hprefix, ih hcs, List.reverse_cons, List.append_assoc]
    rfl

/-- Where it is found there are two parts or more. -/
theorem two_le_length_splitTextFrom (hsep : sep ≠ []) (h : sep <:+: cs) (part : List Char) :
    2 ≤ (splitTextFrom sep 0 part cs).length := by
  induction cs generalizing part with
  | nil => exact absurd (List.infix_nil.1 h) hsep
  | cons c cs ih =>
    rw [splitTextFrom]
    split
    · rw [List.length_cons]
      exact Nat.succ_le_succ (List.length_pos_of_ne_nil (splitTextFrom_ne_nil _ _ _ _))
    · next hprefix =>
      refine ih ((List.infix_cons_iff.1 h).resolve_left fun hsep => ?_) _
      exact hprefix (List.isPrefixOf_iff_prefix.2 hsep)

/-- How long the parts are when they are joined. -/
theorem length_intercalate_cons (a : List Char) (parts : List (List Char)) :
    (sep.intercalate (a :: parts)).length =
      a.length + (parts.length * sep.length + parts.flatten.length) := by
  induction parts generalizing a with
  | nil => simp
  | cons b parts ih =>
    rw [List.intercalate_cons_cons, List.length_append, List.length_append, ih, List.flatten_cons,
      List.length_append, List.length_cons, Nat.succ_mul]
    omega

/-- A longer text in place of a shorter one leaves a text alone where the shorter one does not
occur, and makes any other text longer. -/
theorem replaceText_cases (hold : old ≠ []) (hlt : old.length < new.length) (cs : List Char) :
    (¬ old <:+: cs ∧ replaceText old new cs = cs) ∨
      (old <:+: cs ∧ cs.length < (replaceText old new cs).length) := by
  by_cases h : old <:+: cs
  · refine .inr ⟨h, ?_⟩
    have hparts := two_le_length_splitTextFrom hold h []
    have hcs : old.intercalate (splitAtText old cs) = cs := intercalate_splitAtText hold cs
    rw [replaceText]
    match hsplit : splitAtText old cs with
    | [] => simp [splitAtText] at hsplit; simp [hsplit] at hparts
    | [a] => rw [splitAtText] at hsplit; simp [hsplit] at hparts
    | a :: b :: parts =>
      rw [hsplit] at hcs
      have hle : (b :: parts).length * old.length < (b :: parts).length * new.length :=
        Nat.mul_lt_mul_of_pos_left hlt (Nat.succ_pos _)
      rw [← hcs, length_intercalate_cons, length_intercalate_cons]
      omega
  · refine .inl ⟨h, ?_⟩
    rw [replaceText, splitAtText, splitTextFrom_eq_singleton h, List.intercalate_singleton,
      List.reverse_nil, List.nil_append]

/-! ## Lines -/

/-- The text consists of the lines with an end, a line feed or a carriage return and a line feed,
behind each; the last line may be without. -/
inductive Lined : List (List Char) → List Char → Prop
  | nil : Lined [] []
  | last {line : List Char} : line ≠ [] → '\n' ∉ line → Lined [line] line
  | feed {line cs : List Char} {ls : List (List Char)} : '\n' ∉ line → Lined ls cs →
    Lined (line :: ls) (line ++ '\n' :: cs)
  | returnFeed {line cs : List Char} {ls : List (List Char)} : '\n' ∉ line → Lined ls cs →
    Lined (line :: ls) (line ++ '\r' :: '\n' :: cs)

/-- Lines are what stands between the ends of lines. -/
theorem lined_linesFrom {line : List Char} (hline : '\n' ∉ line) (cs : List Char) :
    Lined (linesFrom line cs) (line.reverse ++ cs) := by
  induction cs generalizing line with
  | nil =>
    rw [linesFrom, List.append_nil]
    split
    · next h =>
      rw [List.isEmpty_iff.1 h]
      exact .nil
    · next h =>
      exact .last (by simpa using h) (by simpa using hline)
  | cons c cs ih =>
    by_cases hc : c = '\n'
    · subst hc
      have hrest : Lined (linesFrom [] cs) cs := ih List.not_mem_nil
      have hfeed : Lined (line.reverse :: linesFrom [] cs) (line.reverse ++ '\n' :: cs) :=
        .feed (by simpa using hline) hrest
      match line with
      | [] => exact hfeed
      | d :: before =>
        by_cases hd : d = '\r'
        · subst hd
          rw [List.reverse_cons, List.append_assoc]
          have hbefore : '\n' ∉ before.reverse := fun h =>
            hline (List.mem_cons_of_mem _ (List.mem_reverse.1 h))
          exact .returnFeed hbefore hrest
        · have hlines : linesFrom (d :: before) ('\n' :: cs) =
              (d :: before).reverse :: linesFrom [] cs := by
            rw [linesFrom]
            exact fun _ h => hd (List.cons.inj h).1
          rw [hlines]
          exact hfeed
    · have hlines : linesFrom line (c :: cs) = linesFrom (c :: line) cs := by
        rw [linesFrom]
        exact hc
      have hnext : '\n' ∉ c :: line := by
        rw [List.mem_cons, not_or]
        exact ⟨fun h => hc h.symm, hline⟩
      rw [hlines]
      simpa using ih hnext

theorem lined_lines (cs : List Char) : Lined (lines cs) cs := lined_linesFrom List.not_mem_nil cs

end Text

namespace Shorthand

/-! ## Where a key ends -/

/-- The quote that is open behind a character. -/
def quoteStep (quote : Option Char) (c : Char) : Option Char :=
  match quote with
  | some q => if c = q then none else some q
  | none => if isQuote c then some c else none

/-- The quote that is open behind a text. -/
def quoteAfter (quote : Option Char) (cs : List Char) : Option Char := cs.foldl quoteStep quote

/-- A colon between the texts ends a key: it is outside quotes, and the line ends behind it or a
space follows. -/
def EndsKey (quote : Option Char) (pre post : List Char) : Prop :=
  quoteAfter quote pre = none ∧ (post = [] ∨ post.head? = some ' ')

instance (quote : Option Char) (pre post : List Char) : Decidable (EndsKey quote pre post) :=
  inferInstanceAs (Decidable (_ ∧ _))

/-- A number sign behind the text begins a comment: it is outside quotes and behind a space. `last`
is the character before the text. -/
def BeginsComment (quote last : Option Char) (pre : List Char) : Prop :=
  quoteAfter quote pre = none ∧ pre.getLast?.or last = some ' '

instance (quote last : Option Char) (pre : List Char) :
    Decidable (BeginsComment quote last pre) :=
  inferInstanceAs (Decidable (_ ∧ _))

/-- A key, the colon that ends it, and what follows. No colon ends a key before, and no comment
begins. -/
structure KeySplit (quote last : Option Char) (item key value : List Char) : Prop where
  eq : item = key ++ ':' :: value
  ends : EndsKey quote key value
  first : ∀ pre post, key = pre ++ ':' :: post → ¬ EndsKey quote pre (post ++ ':' :: value)
  uncommented : ∀ pre post, key = pre ++ '#' :: post → ¬ BeginsComment quote last pre

variable {quote last : Option Char} {cs item key value line : List Char}

theorem not_keySplit_nil : ¬ KeySplit quote last [] key value := fun h => by
  simpa using h.eq

theorem beginsComment_cons (c : Char) (pre : List Char) :
    BeginsComment quote last (c :: pre) ↔ BeginsComment (quoteStep quote c) (some c) pre := by
  cases pre <;> simp [BeginsComment, quoteAfter, List.getLast?_cons]

/-- The first character is the colon that ends the key, or it is of the key. -/
theorem keySplit_cons {c : Char} :
    KeySplit quote last (c :: cs) key value ↔
      (key = [] ∧ c = ':' ∧ value = cs ∧ EndsKey quote [] cs) ∨
        ∃ rest, key = c :: rest ∧ ¬ (c = ':' ∧ EndsKey quote [] cs) ∧
          ¬ (c = '#' ∧ BeginsComment quote last []) ∧
          KeySplit (quoteStep quote c) (some c) cs rest value := by
  constructor
  · rintro ⟨heq, hends, hfirst, huncommented⟩
    cases key with
    | nil =>
      obtain ⟨rfl, rfl⟩ := List.cons.inj heq
      exact .inl ⟨rfl, rfl, rfl, hends⟩
    | cons d rest =>
      obtain ⟨rfl, rfl⟩ := List.cons.inj heq
      refine .inr ⟨rest, rfl, ?_, ?_, rfl, hends, fun pre post h => ?_, fun pre post h hpre => ?_⟩
      · rintro ⟨rfl, hc⟩
        exact hfirst [] rest rfl hc
      · rintro ⟨rfl, hc⟩
        exact huncommented [] rest rfl hc
      · exact hfirst (c :: pre) post (by rw [h]; rfl)
      · exact huncommented (c :: pre) post (by rw [h]; rfl) ((beginsComment_cons c pre).2 hpre)
  · rintro (⟨rfl, rfl, rfl, hends⟩ | ⟨rest, rfl, hcolon, hsign, heq, hends, hfirst, huncommented⟩)
    · exact ⟨rfl, hends, by simp, by simp⟩
    · refine ⟨by rw [heq]; rfl, hends, fun pre post h => ?_, fun pre post h hpre => ?_⟩
      · cases pre with
        | nil =>
          obtain ⟨rfl, rfl⟩ := List.cons.inj h
          exact fun hc => hcolon ⟨rfl, heq ▸ hc⟩
        | cons d pre =>
          obtain ⟨rfl, rfl⟩ := List.cons.inj h
          exact hfirst pre post rfl
      · cases pre with
        | nil =>
          obtain ⟨rfl, rfl⟩ := List.cons.inj h
          exact hsign ⟨rfl, hpre⟩
        | cons d pre =>
          obtain ⟨rfl, rfl⟩ := List.cons.inj h
          exact huncommented pre post rfl ((beginsComment_cons c pre).1 hpre)

theorem endsKey_nil : EndsKey quote [] cs ↔ quote = none ∧ (cs = [] ∨ cs.head? = some ' ') :=
  Iff.rfl

theorem beginsComment_nil : BeginsComment quote last [] ↔ quote = none ∧ last = some ' ' := Iff.rfl

/-- A step of the search for the key. -/
theorem splitKeyFrom_cons (quote : Option Char) (before : List Char) (c : Char) (cs : List Char) :
    splitKeyFrom quote before (c :: cs) =
      if c = ':' ∧ EndsKey quote [] cs then some (before.reverse, cs)
      else if c = '#' ∧ BeginsComment quote before.head? [] then none
      else splitKeyFrom (quoteStep quote c) (c :: before) cs := by
  cases quote with
  | some q => simp [splitKeyFrom, endsKey_nil, beginsComment_nil, quoteStep]
  | none =>
    by_cases hquote : isQuote c = true
    · have hcolon : c ≠ ':' := by rintro rfl; cases hquote
      have hsign : c ≠ '#' := by rintro rfl; cases hquote
      simp [splitKeyFrom, quoteStep, hquote, hcolon, hsign]
    · simp [splitKeyFrom, quoteStep, hquote, endsKey_nil, beginsComment_nil]

/-- The scan finds the split that the definition tells, if there is one. -/
theorem splitKeyFrom_eq_some_iff {before : List Char} :
    splitKeyFrom quote before cs = some (key, value) ↔
      ∃ rest, key = before.reverse ++ rest ∧ KeySplit quote before.head? cs rest value := by
  induction cs generalizing quote before with
  | nil =>
    rw [splitKeyFrom]
    exact ⟨nofun, fun ⟨_, _, h⟩ => absurd h not_keySplit_nil⟩
  | cons c cs ih =>
    rw [splitKeyFrom_cons]
    split
    · next hends =>
      rw [Option.some.injEq, Prod.mk.injEq]
      constructor
      · rintro ⟨rfl, rfl⟩
        exact ⟨[], (List.append_nil _).symm, keySplit_cons.2 (.inl ⟨rfl, hends.1, rfl, hends.2⟩)⟩
      · rintro ⟨rest, rfl, h⟩
        rcases keySplit_cons.1 h with ⟨rfl, -, rfl, -⟩ | ⟨-, -, hnot, -⟩
        · exact ⟨(List.append_nil _).symm, rfl⟩
        · exact absurd hends hnot
    · next hends =>
      split
      · next hcomment =>
        refine ⟨nofun, fun ⟨rest, _, h⟩ => ?_⟩
        rcases keySplit_cons.1 h with ⟨-, hc, -, h⟩ | ⟨-, -, -, hnot, -⟩
        · exact absurd ⟨hc, h⟩ hends
        · exact absurd hcomment hnot
      · next hcomment =>
        rw [ih]
        constructor
        · rintro ⟨rest, rfl, h⟩
          refine ⟨c :: rest, ?_, keySplit_cons.2 (.inr ⟨rest, rfl, hends, hcomment, h⟩)⟩
          rw [List.reverse_cons, List.append_assoc]
          rfl
        · rintro ⟨rest, rfl, h⟩
          rcases keySplit_cons.1 h with ⟨-, hc, -, h⟩ | ⟨rest, rfl, -, -, h⟩
          · exact absurd ⟨hc, h⟩ hends
          · refine ⟨rest, ?_, h⟩
            rw [List.reverse_cons, List.append_assoc]
            rfl

/-- The key of an item is what stands before the first colon that ends one. -/
theorem splitKey?_eq_some_iff :
    splitKey? item = some (key, value) ↔ KeySplit none none item key value := by
  rw [splitKey?, splitKeyFrom_eq_some_iff]
  simp

/-! ## Replacements make a text longer -/

/-- The new text is the old one, or is longer. -/
def Lengthens (cs new : List Char) : Prop := new = cs ∨ cs.length < new.length

theorem Lengthens.length_le {a b : List Char} (h : Lengthens a b) : a.length ≤ b.length := by
  rcases h with rfl | h
  · exact Nat.le_refl _
  · exact h.le

theorem Lengthens.eq_of_length_le {a b : List Char} (h : Lengthens a b)
    (hle : b.length ≤ a.length) : b = a := by
  rcases h with h | h
  · exact h
  · omega

/-- Two parts that become longer or stay do so together. -/
theorem Lengthens.append {a a' b b' : List Char} (ha : Lengthens a a') (hb : Lengthens b b') :
    Lengthens (a ++ b) (a' ++ b') := by
  rcases ha with rfl | ha
  · rcases hb with rfl | hb
    · exact .inl rfl
    · exact .inr (by simpa using hb)
  · have := hb.length_le
    exact .inr (by simp only [List.length_append]; omega)

/-- Texts that are lengthened side by side stay as they are only together. -/
theorem Lengthens.append_eq_iff {a a' b b' : List Char} (ha : Lengthens a a')
    (hb : Lengthens b b') : a' ++ b' = a ++ b ↔ a' = a ∧ b' = b := by
  refine ⟨fun h => ?_, fun ⟨ha, hb⟩ => by rw [ha, hb]⟩
  have hlength := congrArg List.length h
  have := ha.length_le
  have := hb.length_le
  rw [List.length_append, List.length_append] at hlength
  exact ⟨ha.eq_of_length_le (by omega), hb.eq_of_length_le (by omega)⟩

/-! ### Keys -/

theorem keyMarkers_longer :
    ∀ m ∈ keyMarkers, m.1.toList ≠ [] ∧ m.1.toList.length < m.2.toList.length := by decide

/-- Replacing markers one after the other makes a key longer or leaves it. -/
theorem lengthens_markers {markers : List (String × String)}
    (h : ∀ m ∈ markers, m.1.toList ≠ [] ∧ m.1.toList.length < m.2.toList.length)
    (key : List Char) :
    Lengthens key (markers.foldl (fun key m => replaceText m.1.toList m.2.toList key) key) ∧
      (markers.foldl (fun key m => replaceText m.1.toList m.2.toList key) key = key ↔
        ∀ m ∈ markers, ¬ m.1.toList <:+: key) := by
  induction markers generalizing key with
  | nil => exact ⟨.inl rfl, by simp⟩
  | cons m markers ih =>
    obtain ⟨⟨hne, hlt⟩, hmarkers⟩ := List.forall_mem_cons.1 h
    rw [List.foldl_cons, List.forall_mem_cons]
    obtain ⟨hlengthens, hiff⟩ := ih hmarkers (replaceText m.1.toList m.2.toList key)
    rcases replaceText_cases hne hlt key with ⟨hnot, hkeep⟩ | ⟨hfound, hlonger⟩
    · rw [hkeep] at hlengthens hiff ⊢
      exact ⟨hlengthens, hiff.trans (by simp [hnot])⟩
    · have hlong := hlonger.trans_le hlengthens.length_le
      exact ⟨.inr hlong, fun heq => by rw [heq] at hlong; omega, fun hall => absurd hfound hall.1⟩

theorem lengthens_expandKey (key : List Char) : Lengthens key (expandKey key) :=
  (lengthens_markers keyMarkers_longer key).1

theorem expandKey_eq_self_iff : expandKey key = key ↔ ∀ m ∈ keyMarkers, ¬ m.1.toList <:+: key :=
  (lengthens_markers keyMarkers_longer key).2

/-! ### Values -/

/-- A bare color: behind white space a number sign with as many hexadecimal digits as a color has,
at the end of the line or before a space. -/
def BareColor (value : List Char) : Prop :=
  ∃ blanks digits tail, value = blanks ++ '#' :: (digits ++ tail) ∧ Blank blanks ∧
    (∀ c ∈ digits, isHexDigit c = true) ∧ digits.length ∈ colorLengths ∧
    (tail = [] ∨ tail.head? = some ' ')

/-- A bare color is put into quotes. -/
theorem expandValue_of_bareColor {blanks digits tail : List Char} (hblanks : Blank blanks)
    (hdigits : ∀ c ∈ digits, isHexDigit c = true) (hlength : digits.length ∈ colorLengths)
    (htail : tail = [] ∨ tail.head? = some ' ') :
    expandValue (blanks ++ '#' :: (digits ++ tail)) =
      blanks ++ "color(".toList ++ digits ++ ')' :: tail := by
  have hstop : tail.takeWhile isHexDigit = [] ∧ tail.dropWhile isHexDigit = tail := by
    rcases htail with rfl | htail
    · exact ⟨rfl, rfl⟩
    · cases tail with
      | nil => exact ⟨rfl, rfl⟩
      | cons c tail =>
        obtain rfl : c = ' ' := Option.some.inj htail
        exact ⟨rfl, rfl⟩
  have hspace : (tail.isEmpty || tail.head? == some ' ') = true := by
    rcases htail with rfl | htail
    · rfl
    · simp [htail]
  rw [expandValue, List.dropWhile_append_of_pos hblanks,
    List.dropWhile_cons_of_neg (by decide), List.takeWhile_append_of_pos hblanks,
    List.takeWhile_cons_of_neg (by decide), List.append_nil]
  split
  · next rest hrest =>
    obtain rfl := (List.cons.inj hrest).2
    dsimp only
    rw [List.takeWhile_append_of_pos hdigits, List.dropWhile_append_of_pos hdigits, hstop.1,
      hstop.2, List.append_nil, hspace, Bool.and_true, if_pos (List.contains_iff_mem.2 hlength)]
  · next h => exact absurd rfl (h _)

/-- Nothing but a bare color is changed in a value. -/
theorem bareColor_or_expandValue (value : List Char) :
    BareColor value ∨ expandValue value = value := by
  rw [expandValue]
  split
  · next rest hrest =>
    dsimp only
    split
    · next h =>
      rw [Bool.and_eq_true, List.contains_iff_mem, Bool.or_eq_true, List.isEmpty_iff,
        beq_iff_eq] at h
      refine .inl ⟨value.takeWhile isBlank, rest.takeWhile isHexDigit, rest.dropWhile isHexDigit,
        ?_, fun c => List.mem_takeWhile_imp, fun c => List.mem_takeWhile_imp, h.1, h.2⟩
      rw [List.takeWhile_append_dropWhile, ← hrest, List.takeWhile_append_dropWhile]
    · exact .inr rfl
  · exact .inr rfl

theorem lengthens_expandValue (value : List Char) : Lengthens value (expandValue value) := by
  rcases bareColor_or_expandValue value with h | h
  · obtain ⟨blanks, digits, tail, rfl, hblanks, hdigits, hlength, htail⟩ := h
    rw [expandValue_of_bareColor hblanks hdigits hlength htail]
    have hcall : "color(".toList.length = 6 := rfl
    refine .inr ?_
    simp only [List.length_append, List.length_cons]
    omega
  · exact .inl h

/-- A value is left as it is if it is no bare color. -/
theorem expandValue_eq_self_iff : expandValue value = value ↔ ¬ BareColor value := by
  refine ⟨fun heq h => ?_, fun h => (bareColor_or_expandValue value).resolve_left h⟩
  obtain ⟨blanks, digits, tail, rfl, hblanks, hdigits, hlength, htail⟩ := h
  rw [expandValue_of_bareColor hblanks hdigits hlength htail] at heq
  have hcall : "color(".toList.length = 6 := rfl
  have := congrArg List.length heq
  simp only [List.length_append, List.length_cons] at this
  omega

/-! ### Lines -/

/-- The line has an item: behind the indentation and perhaps a dash, on a line that is neither blank
nor a comment. -/
inductive HasItem : List Char → List Char → Prop
  | dashed {indent item : List Char} : Blank indent → HasItem (indent ++ '-' :: ' ' :: item) item
  | plain {indent item : List Char} {c : Char} : Blank indent → isBlank c = false → c ≠ '#' →
    ¬ ['-', ' '] <+: c :: item → HasItem (indent ++ c :: item) (c :: item)

/-- The indentation ends at the first character that is not blank. -/
theorem dropWhile_blank_append {indent : List Char} (h : Blank indent) {c : Char}
    (hc : isBlank c = false) (cs : List Char) :
    (indent ++ c :: cs).takeWhile isBlank = indent ∧
      (indent ++ c :: cs).dropWhile isBlank = c :: cs := by
  have hneg : ¬ isBlank c = true := by simp [hc]
  rw [List.takeWhile_append_of_pos h, List.dropWhile_append_of_pos h,
    List.takeWhile_cons_of_neg hneg, List.dropWhile_cons_of_neg hneg, List.append_nil]
  exact ⟨rfl, rfl⟩

/-- The item of a line is expanded, and what stands before it stays. -/
theorem HasItem.exists_front {item : List Char} (h : HasItem line item) :
    ∃ front, line = front ++ item ∧ expandLine line = front ++ expandItem item := by
  cases h with
  | @dashed indent item hindent =>
    obtain ⟨htake, hdrop⟩ := dropWhile_blank_append hindent (c := '-') rfl (' ' :: item)
    refine ⟨indent ++ ['-', ' '], by simp, ?_⟩
    rw [expandLine, htake, hdrop]
    simp
  | @plain indent item c hindent hblank hsign hdash =>
    obtain ⟨htake, hdrop⟩ := dropWhile_blank_append hindent hblank item
    refine ⟨indent, rfl, ?_⟩
    rw [expandLine, htake, hdrop]
    split
    · next heq => cases heq
    · next heq => exact absurd (List.cons.inj heq).1 hsign
    · next heq => exact absurd (heq ▸ List.prefix_append ['-', ' '] _) hdash
    · rfl

theorem HasItem.dropWhile_eq {item : List Char} (h : HasItem line item) :
    (line.dropWhile isBlank = '-' :: ' ' :: item) ∨
      (line.dropWhile isBlank = item ∧ ¬ ['-', ' '] <+: item) := by
  cases h with
  | dashed hindent => exact .inl (dropWhile_blank_append hindent rfl _).2
  | plain hindent hblank _ hdash => exact .inr ⟨(dropWhile_blank_append hindent hblank _).2, hdash⟩

/-- A line has one item at most. -/
theorem HasItem.unique {item item' : List Char} (h : HasItem line item) (h' : HasItem line item') :
    item = item' := by
  rcases h.dropWhile_eq with heq | ⟨heq, hdash⟩ <;>
    rcases h'.dropWhile_eq with heq' | ⟨heq', hdash'⟩
  · rw [heq] at heq'
    exact (List.cons.inj (List.cons.inj heq').2).2
  · exact absurd (heq' ▸ heq ▸ List.prefix_append ['-', ' '] item) hdash'
  · exact absurd (heq ▸ heq' ▸ List.prefix_append ['-', ' '] item') hdash
  · exact heq.symm.trans heq'

/-- A line without an item, one that is blank or a comment, stays. -/
theorem expandLine_of_not_hasItem (h : ∀ item, ¬ HasItem line item) : expandLine line = line := by
  have hline : line.takeWhile isBlank ++ line.dropWhile isBlank = line :=
    List.takeWhile_append_dropWhile
  have hindent : Blank (line.takeWhile isBlank) := fun _ hc => List.mem_takeWhile_imp hc
  rw [expandLine]
  split
  · rfl
  · rfl
  · next item hitem =>
    rw [hitem] at hline
    exact absurd (hline ▸ HasItem.dashed hindent) (h item)
  · next hnil hsign hdash =>
    match hitem : line.dropWhile isBlank with
    | [] => exact absurd hitem hnil
    | c :: item =>
      rw [hitem] at hline
      have hblank : isBlank c = false := by
        have := List.head?_dropWhile_not isBlank line
        rw [hitem] at this
        simpa using this
      have hplain : HasItem (line.takeWhile isBlank ++ c :: item) (c :: item) := by
        refine .plain hindent hblank ?_ ?_
        · rintro rfl
          exact hsign _ hitem
        · rintro ⟨rest, hrest⟩
          exact hdash rest (hitem.trans hrest.symm)
      exact absurd (hline ▸ hplain) (h _)

/-! ## What is left alone -/

/-- Nothing on the line is a shorthand: the key of its item has no marker, and the value behind the
key, or the item if it has no key, is no bare color. -/
def Unmarked (line : List Char) : Prop :=
  ∀ item, HasItem line item →
    (∀ key value, KeySplit none none item key value →
      (∀ m ∈ keyMarkers, ¬ m.1.toList <:+: key) ∧ ¬ BareColor value) ∧
    ((∀ key value, ¬ KeySplit none none item key value) → ¬ BareColor item)

/-- An item becomes longer or stays as it is. -/
theorem lengthens_expandItem (item : List Char) : Lengthens item (expandItem item) := by
  rw [expandItem]
  split
  · next key value hsplit =>
    rw [(splitKey?_eq_some_iff.1 hsplit).eq]
    exact (lengthens_expandKey key).append
      (Lengthens.append (a := [':']) (.inl rfl) (lengthens_expandValue value))
  · exact lengthens_expandValue item

/-- An item is left as it is if its key has no marker and its value is no bare color. -/
theorem expandItem_eq_self_iff : expandItem item = item ↔
    (∀ key value, KeySplit none none item key value →
      (∀ m ∈ keyMarkers, ¬ m.1.toList <:+: key) ∧ ¬ BareColor value) ∧
    ((∀ key value, ¬ KeySplit none none item key value) → ¬ BareColor item) := by
  rw [expandItem]
  split
  · next key value hsplit =>
    have hkey := splitKey?_eq_some_iff.1 hsplit
    have hunique : ∀ key' value', KeySplit none none item key' value' →
        key' = key ∧ value' = value := by
      intro key' value' h
      rw [← splitKey?_eq_some_iff, hsplit] at h
      obtain ⟨rfl, rfl⟩ := Prod.mk.inj (Option.some.inj h)
      exact ⟨rfl, rfl⟩
    have hkeep : expandKey key ++ ':' :: expandValue value = item ↔
        (∀ m ∈ keyMarkers, ¬ m.1.toList <:+: key) ∧ ¬ BareColor value := by
      have hvalue := Lengthens.append (a := [':']) (.inl rfl) (lengthens_expandValue value)
      rw [hkey.eq, ← expandKey_eq_self_iff, ← expandValue_eq_self_iff]
      exact ((lengthens_expandKey key).append_eq_iff hvalue).trans
        (and_congr_right fun _ => List.cons_inj_right ':')
    rw [hkeep]
    refine ⟨fun h => ⟨fun key' value' h' => ?_, fun hnone => absurd hkey (hnone key value)⟩,
      fun h => h.1 key value hkey⟩
    obtain ⟨rfl, rfl⟩ := hunique key' value' h'
    exact h
  · next hsplit =>
    have hnone : ∀ key value, ¬ KeySplit none none item key value := fun key value h => by
      rw [← splitKey?_eq_some_iff, hsplit] at h
      cases h
    rw [expandValue_eq_self_iff]
    exact ⟨fun h => ⟨fun key value hkey => absurd hkey (hnone key value), fun _ => h⟩,
      fun h => h.2 hnone⟩

theorem lengthens_expandLine (line : List Char) : Lengthens line (expandLine line) := by
  by_cases h : ∃ item, HasItem line item
  · obtain ⟨item, hitem⟩ := h
    obtain ⟨front, hline, hexpand⟩ := hitem.exists_front
    rw [hexpand, hline]
    exact Lengthens.append (.inl rfl) (lengthens_expandItem item)
  · exact .inl (expandLine_of_not_hasItem (not_exists.1 h))

/-- A line is left as it is if and only if nothing in it is a shorthand. -/
theorem expandLine_eq_self_iff : expandLine line = line ↔ Unmarked line := by
  by_cases h : ∃ item, HasItem line item
  · obtain ⟨item, hitem⟩ := h
    obtain ⟨front, hline, hexpand⟩ := hitem.exists_front
    have hitems : expandLine line = line ↔ expandItem item = item := by
      rw [hexpand, hline, List.append_cancel_left_eq]
    rw [hitems, expandItem_eq_self_iff]
    exact ⟨fun h item' hitem' => hitem.unique hitem' ▸ h, fun h => h item hitem⟩
  · have hnone := not_exists.1 h
    exact iff_of_true (expandLine_of_not_hasItem hnone) fun item hitem => absurd hitem (hnone item)

/-- A source is left as it is if and only if each of its lines is. -/
theorem lengthens_flatMap_expandLine (ls : List (List Char)) :
    Lengthens (ls.flatMap fun line => line ++ ['\n'])
        (ls.flatMap fun line => expandLine line ++ ['\n']) ∧
      ((ls.flatMap fun line => expandLine line ++ ['\n']) =
          (ls.flatMap fun line => line ++ ['\n']) ↔ ∀ line ∈ ls, Unmarked line) := by
  induction ls with
  | nil => exact ⟨.inl rfl, by simp⟩
  | cons line ls ih =>
    obtain ⟨hlengthens, hiff⟩ := ih
    have hline : Lengthens (line ++ ['\n']) (expandLine line ++ ['\n']) :=
      (lengthens_expandLine line).append (.inl rfl)
    rw [List.flatMap_cons, List.flatMap_cons, List.forall_mem_cons, hline.append_eq_iff hlengthens,
      hiff, List.append_cancel_right_eq, expandLine_eq_self_iff]
    exact ⟨hline.append hlengthens, Iff.rfl⟩

/-- A source is expanded line by line, with a line feed behind each. A line is left as it is exactly
if nothing on it is a shorthand, and the lines of a source are all left as they are exactly if none
of them has a shorthand. -/
theorem expand_unchanged_iff (source : String) (line : List Char) :
    Lined (lines source.toList) source.toList ∧
      (expand source).toList =
        (lines source.toList).flatMap (fun line => expandLine line ++ ['\n']) ∧
      (expandLine line = line ↔ Unmarked line) ∧
      ((expand source).toList = (lines source.toList).flatMap (fun line => line ++ ['\n']) ↔
        ∀ line ∈ lines source.toList, Unmarked line) := by
  have hexpand : (expand source).toList =
      (lines source.toList).flatMap fun line => expandLine line ++ ['\n'] := by
    rw [expand, String.toList_ofList, expandChars]
  refine ⟨lined_lines _, hexpand, expandLine_eq_self_iff, ?_⟩
  rw [hexpand]
  exact (lengthens_flatMap_expandLine _).2

/-- A key that does not begin with a marker is changed nevertheless if it has one inside. -/
theorem expand_meanSize :
    lines "MEAN_size: 3\n".toList = ["MEAN_size: 3".toList] ∧
      HasItem "MEAN_size: 3".toList "MEAN_size: 3".toList ∧
      KeySplit none none "MEAN_size: 3".toList "MEAN_size".toList " 3".toList ∧
      (∀ m ∈ keyMarkers, ¬ m.1.toList <+: "MEAN_size".toList) ∧ ¬ BareColor " 3".toList ∧
      expand "MEAN_size: 3\n" = "ME__animator size: 3\n" := by
  refine ⟨by decide, ?_, splitKey?_eq_some_iff.1 (by decide), by decide, ?_, by decide +kernel⟩
  · have hindent : Blank [] := by decide
    exact .plain hindent (by decide) (by decide) (by decide)
  · rw [← expandValue_eq_self_iff]
    decide

end Shorthand

end Appearance
