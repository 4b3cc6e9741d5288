import Appearance.Proofs.Namespace

/-!
# Enumerations in generated lines

Generated lines are read for the enumerations that they declare: a line that opens an enumeration
names it, and its cases are the lines one tab deeper that begin with `case`, up to the line that
closes it. `enumsIn` reads all enumerations of a file, at any depth.

Lines that begin with none of certain words, tabs apart, lack them (`Lacks`); those that lack what
opens an enumeration are passed over. What is read of lines does not depend on how deep they stand,
nor on what stands around them (`Reads`), so the enumerations of a file are those of its parts.

Reading back is done line by line and by depth, the number of tabs in front, and it knows nothing
of the functions that print. `Reads` says that lines contribute the same enumerations wherever they
stand, which makes reading compositional, and `Lacks` is how the bulk of a file, which declares
none, is dealt with by looking at beginnings of lines only.
-/

namespace Appearance

open Appearance.Text

/-- An enumeration of generated code. -/
structure Enumeration where
  name : String
  cases : List String
  deriving DecidableEq, Repr

namespace Code

/-! ## Reading -/

/-- How the declaration of an enumeration begins. -/
def enumOpenings : List String := ["enum ", "public enum ", "@objc enum ", "@objc public enum "]

/-- How the declaration of a case begins. -/
def caseOpening : String := "case "

/-- The number of tabs at the beginning of a line. -/
def depth (line : String) : Nat := (line.toList.takeWhile (· == '\t')).length

/-- A line without the tabs at its beginning. -/
def bare (line : String) : String := String.ofList (line.toList.dropWhile (· == '\t'))

/-- The name of the enumeration that a line opens. -/
def enumName? (line : String) : Option String :=
  (enumOpenings.findSome? fun w => stripPrefix? w (bare line)).map leadingName

/-- The line closes what was opened at a depth. -/
def Closes (d : Nat) (line : String) : Prop := depth line = d ∧ bare line = closing

instance (d : Nat) (line : String) : Decidable (Closes d line) :=
  inferInstanceAs (Decidable (depth line = d ∧ bare line = closing))

/-- The name with which a case begins; a raw value or associated values can follow. -/
def caseName (text : String) : String :=
  String.ofList (text.toList.takeWhile fun c => c != ' ' && c != '(')

/-- The case that a line declares for an enumeration at a depth. -/
def caseAt? (d : Nat) (line : String) : Option String :=
  if depth line = d + 1 then (stripPrefix? caseOpening (bare line)).map caseName else none

/-- The cases that lines declare for an enumeration at a depth, until it is closed. -/
def casesAt (d : Nat) : List String → List String
  | [] => []
  | line :: rest => if Closes d line then [] else (caseAt? d line).toList ++ casesAt d rest

/-- The enumerations that lines declare. -/
def enumsIn : List String → List Enumeration
  | [] => []
  | line :: rest =>
    ((enumName? line).map fun name => ⟨name, casesAt (depth line) rest⟩).toList ++ enumsIn rest

/-! ## Words that lines lack -/

/-- The line begins with none of the words, tabs apart. -/
def Apart (words : List (List Char)) (line : String) : Prop :=
  ∀ w ∈ words, ¬ w <+: (bare line).toList

/-- None of the lines begins with one of the words, tabs apart. -/
def Lacks (words : List (List Char)) (part : List String) : Prop := ∀ line ∈ part, Apart words line

/-- The characters with which enumerations open, written out because `decide` is slow in taking
strings apart. -/
def enumWords : List (List Char) :=
  [['e', 'n', 'u', 'm', ' '], ['p', 'u', 'b', 'l', 'i', 'c', ' ', 'e', 'n', 'u', 'm', ' '],
    ['@', 'o', 'b', 'j', 'c', ' ', 'e', 'n', 'u', 'm', ' '],
    ['@', 'o', 'b', 'j', 'c', ' ', 'p', 'u', 'b', 'l', 'i', 'c', ' ', 'e', 'n', 'u', 'm', ' ']]

theorem enumOpenings_eq : enumOpenings = enumWords.map String.ofList := rfl

/-- The characters with which a case opens. -/
def caseWord : List Char := ['c', 'a', 's', 'e', ' ']

theorem caseOpening_eq : caseOpening = String.ofList caseWord := rfl

variable {words : List (List Char)}

theorem toList_bare (line : String) :
    (bare line).toList = line.toList.dropWhile (· == '\t') := String.toList_ofList

/-- A fixed line. -/
theorem apart_ofList {cs : List Char} (h : ∀ w ∈ words, ¬ w <+: cs.dropWhile (· == '\t')) :
    Apart words (String.ofList cs) := by
  rwa [Apart, toList_bare, String.toList_ofList]

/-- However a line goes on that begins so, it begins with none of the words. -/
def Excludes (words : List (List Char)) (cs : List Char) : Prop :=
  ∀ w ∈ words, ¬ w <+: cs.dropWhile (· == '\t') ∧ ¬ cs.dropWhile (· == '\t') <+: w

instance (words : List (List Char)) (cs : List Char) : Decidable (Excludes words cs) :=
  inferInstanceAs (Decidable
    (∀ w ∈ words, ¬ w <+: cs.dropWhile (· == '\t') ∧ ¬ cs.dropWhile (· == '\t') <+: w))

/-- A line with a fixed beginning. -/
theorem apart_append {cs : List Char} (h : Excludes words cs) (s : String) :
    Apart words (String.ofList cs ++ s) := fun w hw hprefix => by
  obtain ⟨hshort, hlong⟩ := h w hw
  have hne : cs.dropWhile (· == '\t') ≠ [] := fun hnil => hlong (hnil ▸ List.nil_prefix)
  rw [toList_bare, String.toList_append, String.toList_ofList, List.dropWhile_append,
    if_neg (by simpa using hne)] at hprefix
  rcases List.prefix_or_prefix_of_prefix hprefix (List.prefix_append _ _) with h | h
  · exact hshort h
  · exact hlong h

@[simp] theorem lacks_nil : Lacks words [] := by simp [Lacks]

@[simp] theorem lacks_cons {line : String} {part : List String} :
    Lacks words (line :: part) ↔ Apart words line ∧ Lacks words part := List.forall_mem_cons

@[simp] theorem lacks_append {part part' : List String} :
    Lacks words (part ++ part') ↔ Lacks words part ∧ Lacks words part' := List.forall_mem_append

theorem lacks_flatMap {α : Type} {f : α → List String} {l : List α}
    (h : ∀ a ∈ l, Lacks words (f a)) : Lacks words (l.flatMap f) := fun line hline => by
  obtain ⟨a, ha, hline⟩ := List.mem_flatMap.1 hline
  exact h a ha line hline

theorem lacks_map {α : Type} {f : α → String} {l : List α} (h : ∀ a ∈ l, Apart words (f a)) :
    Lacks words (l.map f) := List.forall_mem_map.2 h

theorem lacks_ite {p : Prop} [Decidable p] {part part' : List String} (h : Lacks words part)
    (h' : Lacks words part') : Lacks words (if p then part else part') := by
  split
  · exact h
  · exact h'

theorem Lacks.mono {words' : List (List Char)} {part : List String} (h : Lacks words part)
    (hw : words' ⊆ words) :
    Lacks words' part := fun line hline w hword => h line hline w (hw hword)

/-! ## Deeper lines -/

/-- A line one tab deeper. -/
def indentLine (line : String) : String := if line.isEmpty then line else "\t" ++ line

theorem indent_eq_map (part : List String) : indent part = part.map indentLine := rfl

theorem indent_append (part part' : List String) :
    indent (part ++ part') = indent part ++ indent part' := List.map_append

@[simp] theorem bare_indentLine (line : String) : bare (indentLine line) = bare line := by
  unfold indentLine
  split
  · rfl
  · simp [bare]

theorem apart_tab {s : String} : Apart words ("\t" ++ s) ↔ Apart words s := by
  have hbare : bare ("\t" ++ s) = bare s := by simp [bare]
  rw [Apart, hbare, Apart]

@[simp] theorem apart_indentLine {line : String} :
    Apart words (indentLine line) ↔ Apart words line := by
  rw [Apart, bare_indentLine, Apart]

@[simp] theorem lacks_indent {part : List String} :
    Lacks words (indent part) ↔ Lacks words part := by
  rw [indent_eq_map, Lacks, List.forall_mem_map]
  exact forall₂_congr fun _ _ => apart_indentLine

theorem depth_indentLine {line : String} (h : line ≠ "") :
    depth (indentLine line) = depth line + 1 := by
  have hne : line.isEmpty = false := by simpa using h
  simp [indentLine, hne, depth]

/-- An indented line closes what was opened by an indented line. -/
theorem closes_indentLine {d : Nat} {line : String} :
    Closes (d + 1) (indentLine line) ↔ Closes d line := by
  by_cases h : line = ""
  · subst h
    have hbare : bare (indentLine "") ≠ closing ∧ bare "" ≠ closing := by decide
    exact iff_of_false (fun hc => hbare.1 hc.2) fun hc => hbare.2 hc.2
  · simp [Closes, depth_indentLine h]

/-- A line that stands deeper closes nothing at the left margin. -/
theorem not_closes_of_isDeeper {line : String} (h : IsDeeper line) : ¬ Closes 0 line := by
  rintro ⟨hdepth, hbare⟩
  cases hline : line.toList with
  | nil =>
    have hempty : bare "" ≠ closing := by decide
    rw [String.toList_eq_nil_iff.1 hline] at hbare
    exact hempty hbare
  | cons c cs =>
    have hc : c = '\t' := h c (by rw [hline]; rfl)
    rw [depth, hline, hc] at hdepth
    simp at hdepth

/-- An indented line is a case one tab deeper. -/
theorem caseAt?_indentLine (d : Nat) (line : String) :
    caseAt? (d + 1) (indentLine line) = caseAt? d line := by
  by_cases h : line = ""
  · subst h
    have hzero : depth (indentLine "") = 0 ∧ depth "" = 0 := by decide
    rw [caseAt?, caseAt?, hzero.1, hzero.2, if_neg (by omega), if_neg (by omega)]
  · simp [caseAt?, depth_indentLine h]

theorem enumName?_indentLine (line : String) : enumName? (indentLine line) = enumName? line := by
  rw [enumName?, bare_indentLine, enumName?]

/-- A line that begins otherwise than with a tab is bare. -/
theorem bare_append {cs : List Char} (h : (cs.head?.any fun c => !(c == '\t')) = true)
    (s : String) : bare (String.ofList cs ++ s) = String.ofList cs ++ s := by
  obtain ⟨c, hc, htab⟩ := Option.any_eq_true .. |>.1 h
  obtain ⟨cs, rfl⟩ := List.head?_eq_some_iff.1 hc
  rw [Bool.not_eq_true'] at htab
  rw [← String.toList_inj, toList_bare, String.toList_append, String.toList_ofList,
    List.cons_append, List.dropWhile_cons, htab, if_neg Bool.false_ne_true]

/-! ## One enumeration -/

theorem stripPrefix?_ofList_eq_none {cs : List Char} {s : String} (h : ¬ cs <+: s.toList) :
    stripPrefix? (String.ofList cs) s = none := by
  rw [stripPrefix?, String.toList_ofList, afterPrefix?, if_neg (by simpa using h)]
  rfl

/-- A line that is apart from the openings opens no enumeration. -/
theorem Apart.enumName?_eq_none {line : String} (h : Apart enumWords line) :
    enumName? line = none := by
  have hnone : enumOpenings.findSome? (fun w => stripPrefix? w (bare line)) = none := by
    rw [enumOpenings_eq, List.findSome?_eq_none_iff, List.forall_mem_map]
    exact fun w hw => stripPrefix?_ofList_eq_none (h w hw)
  rw [enumName?, hnone]
  rfl

/-- A line that begins like an enumeration opens one at the left margin. -/
theorem enumName?_append {w : List Char} (hw : w ∈ enumWords) (rest : String) :
    enumName? (String.ofList w ++ rest) = some (leadingName rest) ∧
      depth (String.ofList w ++ rest) = 0 := by
  have hfirst : ∀ w ∈ enumWords, (w.head?.any fun c => !(c == '\t')) = true := by decide
  have hapart : ∀ w ∈ enumWords, ∀ w' ∈ enumWords, w <+: w' → w = w' := by decide
  obtain ⟨c, hc, htab⟩ := Option.any_eq_true .. |>.1 (hfirst w hw)
  obtain ⟨cs, rfl⟩ : ∃ cs, w = c :: cs := List.head?_eq_some_iff.1 hc
  rw [Bool.not_eq_true'] at htab
  have hline : (String.ofList (c :: cs) ++ rest).toList = c :: (cs ++ rest.toList) := by
    rw [String.toList_append, String.toList_ofList, List.cons_append]
  have hbare := bare_append (hfirst _ hw) rest
  refine ⟨?_, by rw [depth, hline, List.takeWhile_cons, htab]; rfl⟩
  have hfound : stripPrefix? (String.ofList (c :: cs)) (String.ofList (c :: cs) ++ rest) =
      some rest :=
    stripPrefix?_append _ _
  rw [enumName?, hbare, enumOpenings_eq]
  cases hfind : (enumWords.map String.ofList).findSome?
      fun v => stripPrefix? v (String.ofList (c :: cs) ++ rest) with
  | none =>
    have hnone := List.findSome?_eq_none_iff.1 hfind _ (List.mem_map_of_mem hw)
    rw [hfound] at hnone
    cases hnone
  | some r =>
    -- what is found is this word, since none begins another one
    obtain ⟨v, hv, hr⟩ := List.exists_of_findSome?_eq_some hfind
    obtain ⟨w', hw', rfl⟩ := List.mem_map.1 hv
    have hprefix : w' <+: (c :: cs) ++ rest.toList := by
      by_contra hnot
      rw [stripPrefix?_ofList_eq_none (by simpa using hnot)] at hr
      cases hr
    have heq : w' = c :: cs := by
      rcases List.prefix_or_prefix_of_prefix hprefix (List.prefix_append _ _) with h | h
      · exact hapart w' hw' _ hw h
      · exact (hapart _ hw w' hw' h).symm
    rw [heq, hfound] at hr
    rw [Option.some.inj hr, Option.map_some]

/-- A part that opens no enumeration is passed over. -/
theorem enumsIn_lacks {part : List String} (h : Lacks enumWords part) (rest : List String) :
    enumsIn (part ++ rest) = enumsIn rest := by
  induction part with
  | nil => rfl
  | cons line part ih =>
    obtain ⟨hline, hpart⟩ := lacks_cons.1 h
    rw [List.cons_append, enumsIn, hline.enumName?_eq_none, ih hpart]
    rfl

/-- Cases are read up to the line that closes the enumeration. -/
theorem casesAt_append {d : Nat} {part : List String} (h : ∀ line ∈ part, ¬ Closes d line)
    (rest : List String) :
    casesAt d (part ++ rest) = part.filterMap (caseAt? d) ++ casesAt d rest := by
  induction part with
  | nil => rfl
  | cons line part ih =>
    obtain ⟨hline, hpart⟩ := List.forall_mem_cons.1 h
    rw [List.cons_append, casesAt, if_neg hline, ih hpart]
    cases hcase : caseAt? d line <;> simp [hcase]

/-- The lines are the declaration of an enumeration at a depth. -/
structure Spells (d : Nat) (e : Enumeration) (first : String) (body : List String)
    (last : String) : Prop where
  name : enumName? first = some e.name
  depth_eq : depth first = d
  lacks : Lacks enumWords (body ++ [last])
  inside : ∀ line ∈ body, ¬ Closes d line
  closes : Closes d last
  cases_eq : body.filterMap (caseAt? d) = e.cases

variable {d : Nat} {e : Enumeration} {first last : String} {body : List String}

/-- Lines that spell an enumeration are read as this enumeration, whatever follows. -/
theorem Spells.enumsIn (h : Spells d e first body last) (rest : List String) :
    enumsIn (first :: body ++ [last] ++ rest) = e :: enumsIn rest := by
  have hcases : casesAt d (body ++ last :: rest) = e.cases := by
    rw [casesAt_append h.inside, casesAt, if_pos h.closes, List.append_nil, h.cases_eq]
  rw [List.append_assoc, List.cons_append, Code.enumsIn, h.name, h.depth_eq,
    List.singleton_append, hcases, ← List.singleton_append, ← List.append_assoc,
    enumsIn_lacks h.lacks]
  rfl

/-- Indented lines spell the same enumeration one tab deeper. -/
theorem Spells.indent (h : Spells d e first body last) :
    Spells (d + 1) e (indentLine first) (Code.indent body) (indentLine last) := by
  have hnone : enumName? "" = none := by decide
  have hne : first ≠ "" := fun hempty => by
    have hname := h.name
    rw [hempty, hnone] at hname
    cases hname
  refine ⟨(enumName?_indentLine _).trans h.name, by rw [depth_indentLine hne, h.depth_eq], ?_, ?_,
    closes_indentLine.2 h.closes, ?_⟩
  · have hlacks : Lacks enumWords (Code.indent (body ++ [last])) := lacks_indent.2 h.lacks
    rwa [indent_eq_map, List.map_append] at hlacks
  · rw [indent_eq_map, List.forall_mem_map]
    exact fun line hline => closes_indentLine.not.2 (h.inside line hline)
  · rw [indent_eq_map, List.filterMap_map, ← h.cases_eq]
    exact List.filterMap_congr fun line _ => caseAt?_indentLine d line

/-! ## Parts of a file -/

/-- At every depth, and whatever follows, the lines declare these enumerations. -/
def Reads (part : List String) (es : List Enumeration) : Prop :=
  ∀ n rest, enumsIn (indent^[n] part ++ rest) = es ++ enumsIn rest

theorem reads_of_lacks {part : List String} (h : Lacks enumWords part) : Reads part [] := by
  intro n
  induction n generalizing part with
  | zero => exact enumsIn_lacks h
  | succ n ih => exact ih (lacks_indent.2 h)

/-- Parts one after the other are read as their enumerations one after the other. -/
theorem reads_append {part part' : List String} {es es' : List Enumeration} (h : Reads part es)
    (h' : Reads part' es') : Reads (part ++ part') (es ++ es') := by
  have hindent : ∀ n, indent^[n] (part ++ part') = indent^[n] part ++ indent^[n] part' := by
    intro n
    clear h h'
    induction n generalizing part part' with
    | zero => rfl
    | succ n ih =>
      rw [Function.iterate_succ_apply, indent_append, ih]
      rfl
  intro n rest
  rw [hindent, List.append_assoc, h, h', List.append_assoc]

theorem Reads.append_lacks {part part' : List String} {es : List Enumeration} (h : Reads part es)
    (h' : Lacks enumWords part') : Reads (part ++ part') es := by
  simpa using reads_append h (reads_of_lacks h')

theorem Reads.lacks_append {part part' : List String} {es : List Enumeration}
    (h' : Reads part' es) (h : Lacks enumWords part) : Reads (part ++ part') es :=
  reads_append (reads_of_lacks h) h'

theorem Reads.indent {part : List String} {es : List Enumeration} (h : Reads part es) :
    Reads (indent part) es := fun n => h (n + 1)

/-- Lines that spell an enumeration are read as this one. -/
theorem Spells.reads (h : Spells d e first body last) : Reads (first :: body ++ [last]) [e] := by
  intro n
  induction n generalizing d first body last with
  | zero => exact h.enumsIn
  | succ n ih =>
    have hindent : Code.indent (first :: body ++ [last]) =
        indentLine first :: Code.indent body ++ [indentLine last] := List.map_append
    intro rest
    rw [Function.iterate_succ_apply, hindent]
    exact ih h.indent rest

theorem Reads.enumsIn {part : List String} {es : List Enumeration} (h : Reads part es)
    (rest : List String) : enumsIn (part ++ rest) = es ++ enumsIn rest := h 0 rest

theorem apart_closing : Apart enumWords closing := apart_ofList (by decide)

theorem apart_empty : Apart enumWords "" := apart_ofList (by decide)

theorem Reads.paragraph {part : List String} {es : List Enumeration} (h : Reads part es) :
    Reads (paragraph part) es := h.append_lacks (lacks_cons.2 ⟨apart_empty, lacks_nil⟩)

/-- A block that is no enumeration declares what stands in it. -/
theorem Reads.block {head : String} {es : List Enumeration} (h : Reads body es)
    (hhead : Apart enumWords (opening head)) : Reads (block head body) es :=
  (h.indent.lacks_append (lacks_cons.2 ⟨hhead, lacks_nil⟩)).append_lacks
    (lacks_cons.2 ⟨apart_closing, lacks_nil⟩)

/-- A block that is an enumeration. Its cases stand at the beginning of lines. -/
theorem reads_block_enum {head name : String} (hname : enumName? (opening head) = some name)
    (hdepth : depth (opening head) = 0) (h : Lacks enumWords body) :
    Reads (block head body) [⟨name, (indent body).filterMap (caseAt? 0)⟩] := by
  have hspells : Spells 0 ⟨name, (indent body).filterMap (caseAt? 0)⟩ (opening head) (indent body)
      closing := by
    refine ⟨hname, hdepth, ?_, ?_, by decide, rfl⟩
    · exact lacks_append.2 ⟨lacks_indent.2 h, lacks_cons.2 ⟨apart_closing, lacks_nil⟩⟩
    exact fun line hline => not_closes_of_isDeeper (isDeeper_of_mem_indent hline)
  exact hspells.reads

end Code

end Appearance
