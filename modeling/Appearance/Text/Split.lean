/-!
# Splitting and searching

Lists of characters are split at characters that satisfy a predicate (`splitAtChars`) or at each
occurrence of a text (`splitAtText`), from left to right without overlap; `replaceText` joins the
parts with another text.

Both splitting functions give at least one part and put the open part in reverse order. They come
with the lemmas that everything else uses: what has no separator stays in the open part, and a
separator behind such a text closes it. `splitTextFrom` counts down the characters of an occurrence
that are still to be passed, so it recurses on the list itself and not on what is left after an
occurrence. Replacing is splitting and joining, so what a replacement joins with its surroundings
is not searched again.
-/

namespace Appearance.Text

/-- Splits at the characters that satisfy `p`; `part` is the open part, last character first. -/
def splitCharsFrom (p : Char → Bool) (part : List Char) : List Char → List (List Char)
  | [] => [part.reverse]
  | c :: cs =>
    if p c then part.reverse :: splitCharsFrom p [] cs else splitCharsFrom p (c :: part) cs

/-- The parts between the characters that satisfy `p`; at least one, some perhaps empty. -/
def splitAtChars (p : Char → Bool) (cs : List Char) : List (List Char) := splitCharsFrom p [] cs

/-- Splits at each occurrence of `sep`; `skip` characters of an occurrence are still to be
passed over. -/
def splitTextFrom (sep : List Char) (skip : Nat) (part : List Char) : List Char → List (List Char)
  | [] => [part.reverse]
  | c :: cs =>
    match skip with
    | skip + 1 => splitTextFrom sep skip part cs
    | 0 =>
      if sep.isPrefixOf (c :: cs) then part.reverse :: splitTextFrom sep (sep.length - 1) [] cs
      else splitTextFrom sep 0 (c :: part) cs

/-- The parts between the occurrences of a text that is not empty. -/
def splitAtText (sep cs : List Char) : List (List Char) := splitTextFrom sep 0 [] cs

/-- The text with every occurrence of `old` replaced, from left to right. What a replacement joins
with its surroundings is not searched again. -/
def replaceText (old new cs : List Char) : List Char := new.intercalate (splitAtText old cs)

/-- The text occurs somewhere. -/
def containsText (sub : List Char) : List Char → Bool
  | [] => sub.isEmpty
  | c :: cs => sub.isPrefixOf (c :: cs) || containsText sub cs

/-- The text with every occurrence of a character replaced. -/
def replaceChar (old new : Char) (s : String) : String :=
  String.ofList (s.toList.map fun c => if c = old then new else c)

/-- What follows the prefix, if the text has it. -/
def afterPrefix? (pre cs : List Char) : Option (List Char) :=
  if pre.isPrefixOf cs then some (cs.drop pre.length) else none

/-- What follows the prefix of a string, if it has it. -/
def stripPrefix? (pre s : String) : Option String :=
  (afterPrefix? pre.toList s.toList).map String.ofList

/-- What stands before `suf` at the end of a text. -/
def stripSuffix? (suf s : String) : Option String :=
  (afterPrefix? suf.toList.reverse s.toList.reverse).map fun cs => String.ofList cs.reverse

theorem splitCharsFrom_ne_nil (p : Char → Bool) (cs part : List Char) :
    splitCharsFrom p part cs ≠ [] := by
  induction cs generalizing part with
  | nil => simp [splitCharsFrom]
  | cons c cs ih =>
    by_cases h : p c = true
    · simp [splitCharsFrom, h]
    · simpa [splitCharsFrom, h] using ih _

theorem splitTextFrom_ne_nil (sep cs : List Char) (skip : Nat) (part : List Char) :
    splitTextFrom sep skip part cs ≠ [] := by
  induction cs generalizing skip part with
  | nil => simp [splitTextFrom]
  | cons c cs ih =>
    cases skip with
    | succ skip => exact ih skip part
    | zero =>
      unfold splitTextFrom
      by_cases h : sep.isPrefixOf (c :: cs) = true
      · simp [h]
      · simpa [h] using ih 0 _

/-- Characters that satisfy `p` nowhere belong to the open part. -/
theorem splitCharsFrom_append {p : Char → Bool} {a : List Char} (ha : ∀ c ∈ a, p c = false)
    (part cs : List Char) :
    splitCharsFrom p part (a ++ cs) = splitCharsFrom p (a.reverse ++ part) cs := by
  induction a generalizing part with
  | nil => rfl
  | cons c a ih =>
    obtain ⟨hc, ha⟩ := List.forall_mem_cons.1 ha
    rw [List.cons_append, splitCharsFrom, hc, if_neg nofun, ih ha, List.reverse_cons,
      List.append_assoc]
    rfl

/-- A text is split at each character that satisfies the predicate. -/
theorem splitCharsFrom_append_cons {p : Char → Bool} {s : Char} (hs : p s = true)
    (part l r : List Char) :
    splitCharsFrom p part (l ++ s :: r) = splitCharsFrom p part l ++ splitCharsFrom p [] r := by
  induction l generalizing part with
  | nil => simp [splitCharsFrom, hs]
  | cons c l ih =>
    by_cases hc : p c = true
    · simp only [List.cons_append, splitCharsFrom, if_pos hc, ih]
    · simp only [List.cons_append, splitCharsFrom, if_neg hc, ih]

/-- The parts are those on both sides of a separator. -/
theorem splitAtChars_append_cons {p : Char → Bool} {s : Char} (hs : p s = true)
    (l r : List Char) : splitAtChars p (l ++ s :: r) = splitAtChars p l ++ splitAtChars p r :=
  splitCharsFrom_append_cons hs [] l r

theorem splitAtChars_eq_singleton {p : Char → Bool} {cs : List Char}
    (h : ∀ c ∈ cs, p c = false) : splitAtChars p cs = [cs] := by
  have hsplit := splitCharsFrom_append h [] []
  rwa [List.append_nil, List.append_nil, splitCharsFrom, List.reverse_reverse] at hsplit

/-- The text is one part, or it has a first separator. -/
theorem splitAtChars_cases (p : Char → Bool) (cs : List Char) :
    splitAtChars p cs = [cs] ∨ ∃ l s r, cs = l ++ s :: r ∧ p s = true ∧
      splitAtChars p cs = l :: splitAtChars p r := by
  cases hfind : cs.find? p with
  | none =>
    exact .inl (splitAtChars_eq_singleton fun c hc =>
      Bool.eq_false_iff.2 (List.find?_eq_none.1 hfind c hc))
  | some s =>
    obtain ⟨hs, l, r, rfl, hl⟩ := List.find?_eq_some_iff_append.1 hfind
    refine .inr ⟨l, s, r, rfl, hs, ?_⟩
    rw [splitAtChars_append_cons hs, splitAtChars_eq_singleton fun c hc => by simpa using hl c hc]
    rfl

/-- Two parts have one such character between them. -/
theorem exists_of_splitAtChars_eq_pair {p : Char → Bool} {cs l r : List Char}
    (h : splitAtChars p cs = [l, r]) : ∃ s, p s = true ∧ cs = l ++ s :: r := by
  rcases splitAtChars_cases p cs with hone | ⟨l, s, rest, rfl, hs, hsplit⟩
  · rw [hone] at h
    cases h
  rw [hsplit] at h
  obtain ⟨rfl, hrest⟩ := List.cons.inj h
  rcases splitAtChars_cases p rest with hone | ⟨l', s', rest', rfl, hs', hsplit'⟩
  · rw [hone] at hrest
    cases hrest
    exact ⟨s, hs, rfl⟩
  · rw [hsplit'] at hrest
    exact absurd (List.cons.inj hrest).2 (splitCharsFrom_ne_nil p rest' [])

/-- What is stripped off stands in front of what follows. -/
theorem eq_append_of_stripPrefix? {pre s rest : String} (h : stripPrefix? pre s = some rest) :
    s = pre ++ rest := by
  obtain ⟨cs, hcs, rfl⟩ := Option.map_eq_some_iff.1 h
  unfold afterPrefix? at hcs
  split at hcs
  · next hpre =>
    cases hcs
    apply String.toList_injective
    rw [String.toList_append, String.toList_ofList]
    exact (List.prefix_iff_eq_append.1 (List.isPrefixOf_iff_prefix.1 hpre)).symm
  · cases hcs

end Appearance.Text
