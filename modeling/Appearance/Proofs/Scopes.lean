import Appearance.Proofs.EnumTemplates

/-!
# Scopes in generated code

A text is read for what stands between braces, character by character: a brace opens a scope, headed
by what stands before it on its line, and the brace that matches closes it (`scopes`). Whatever can
be read so has balanced braces (`balanced_of_scopes`).

A part of the generated lines encloses scopes if reading it adds them beside what was read before,
whatever that is (`Encloses`). Then the scopes of lines are those of their parts, one tab more or
less makes no difference (`Encloses.indent`), and a block around lines is a scope around theirs
(`Encloses.block`). All of this needs texts without braces and line breaks in the places that are
filled in (`Plain`).
-/

namespace Appearance

/-- A part of a text between braces: what stands before it on its line, and the parts in it. -/
inductive Scope where
  | mk (head : String) (inner : List Scope)

namespace Code

/-! ## Plain texts -/

/-- The characters that open and close scopes and end lines. -/
def frameMarks : List Char := ['\x7b', '\x7d', '\n']

def isText (c : Char) : Bool := !frameMarks.contains c

theorem mem_frameMarks {c : Char} (h : isText c = false) : c ∈ frameMarks := by
  simpa [isText] using h

/-- The text has no braces and no line breaks. -/
def Plain (s : String) : Prop := ∀ c ∈ s.toList, isText c = true

instance (s : String) : Decidable (Plain s) :=
  inferInstanceAs (Decidable (∀ c ∈ s.toList, isText c = true))

theorem plain_ofList {cs : List Char} : Plain (String.ofList cs) ↔ ∀ c ∈ cs, isText c = true := by
  rw [Plain, String.toList_ofList]

/-- A fixed text; its characters are compared one by one, which is faster than taking the string
apart. -/
theorem plain_literal {cs : List Char} (h : ∀ c ∈ cs, isText c = true) : Plain (String.ofList cs) :=
  plain_ofList.2 h

@[simp] theorem plain_append {s t : String} : Plain (s ++ t) ↔ Plain s ∧ Plain t := by
  rw [Plain, String.toList_append, List.forall_mem_append]
  rfl

/-- A text behind a fixed one. -/
theorem plain_behind {cs : List Char} (h : ∀ c ∈ cs, isText c = true) {s : String} (hs : Plain s) :
    Plain (String.ofList cs ++ s) := plain_append.2 ⟨plain_literal h, hs⟩

/-- A text between two fixed ones. -/
theorem plain_between {cs ds : List Char} (h : ∀ c ∈ cs ++ ds, isText c = true) {s : String}
    (hs : Plain s) : Plain (String.ofList cs ++ s ++ String.ofList ds) := by
  obtain ⟨hcs, hds⟩ := List.forall_mem_append.1 h
  exact plain_append.2 ⟨plain_behind hcs hs, plain_literal hds⟩

theorem plain_mark {applies : Bool} {words : String} (h : Plain words) :
    Plain (mark applies words) := by
  unfold mark
  split
  · exact plain_append.2 ⟨h, plain_literal (by decide)⟩
  · exact plain_literal (by decide)

theorem plain_access (isOpen : Bool) : Plain (access isOpen) := by
  cases isOpen <;> exact plain_literal (by decide)

theorem plain_identifier {name : String} (h : Plain name) : Plain (identifier name) := by
  unfold identifier
  split
  · exact plain_between (by decide) h
  · exact h

/-! ## Reading -/

/-- What was read of a text: the line since the last brace, the scopes beside each other that are
closed, and for each open one its head and what stands beside it, from the innermost on. -/
structure ScopeReader where
  line : List Char
  beside : List Scope
  around : List (String × List Scope)

namespace ScopeReader

/-- Reads a character. The tabs at the beginning of a line are passed over; a brace that closes
nothing ends the reading. -/
def step (r : ScopeReader) (c : Char) : Option ScopeReader :=
  if c = '\x7b' then some ⟨[], [], (String.ofList r.line, r.beside) :: r.around⟩
  else if c = '\x7d' then
    match r.around with
    | [] => none
    | (head, beside) :: around => some ⟨[], beside ++ [.mk head r.beside], around⟩
  else if c = '\n' then some { r with line := [] }
  else if c = '\t' ∧ r.line = [] then some r
  else some { r with line := r.line ++ [c] }

/-- Reads characters in order. -/
def run (r : ScopeReader) (cs : List Char) : Option ScopeReader := cs.foldlM step r

end ScopeReader

/-- The scopes of a text that stand in no other one; none if the braces do not match. -/
def scopes (text : String) : Option (List Scope) :=
  match ScopeReader.run ⟨[], [], []⟩ text.toList with
  | some ⟨_, beside, []⟩ => some beside
  | _ => none

namespace ScopeReader

variable {line : List Char} {beside : List Scope} {around : List (String × List Scope)}

theorem run_append (r : ScopeReader) (cs ds : List Char) :
    r.run (cs ++ ds) = (r.run cs).bind fun r => r.run ds := List.foldlM_append

theorem run_cons (r : ScopeReader) (c : Char) (cs : List Char) :
    r.run (c :: cs) = (r.step c).bind fun r => r.run cs := List.foldlM_cons

/-- A plain text belongs to the line. -/
theorem run_plain {cs : List Char} (h : ∀ c ∈ cs, isText c = true) :
    run ⟨line, beside, around⟩ cs =
      some ⟨if line = [] then cs.dropWhile (· == '\t') else line ++ cs, beside, around⟩ := by
  induction cs generalizing line with
  | nil => cases line <;> simp [run]
  | cons c cs ih =>
    obtain ⟨hc, hcs⟩ := List.forall_mem_cons.1 h
    obtain ⟨hopen, hclose, hbreak⟩ : c ≠ '\x7b' ∧ c ≠ '\x7d' ∧ c ≠ '\n' := by
      simpa [isText, frameMarks] using hc
    rw [run_cons, step, if_neg hopen, if_neg hclose, if_neg hbreak]
    by_cases htab : c = '\t' ∧ line = []
    · obtain ⟨rfl, rfl⟩ := htab
      rw [if_pos ⟨rfl, rfl⟩, Option.bind_some, ih hcs, if_pos rfl, if_pos rfl]
      rfl
    · rw [if_neg htab, Option.bind_some, ih hcs, if_neg (by simp)]
      by_cases hline : line = []
      · have hc : (c == '\t') = false := by simpa [hline] using htab
        rw [if_pos hline, hline, List.dropWhile_cons, hc]
        rfl
      · rw [if_neg hline, List.append_assoc, List.singleton_append]

theorem run_text {s : String} (h : Plain s) :
    run ⟨[], beside, around⟩ s.toList = some ⟨(bare s).toList, beside, around⟩ := by
  rw [run_plain h, if_pos rfl, toList_bare]

theorem step_open (r : ScopeReader) :
    r.step '\x7b' = some ⟨[], [], (String.ofList r.line, r.beside) :: r.around⟩ := rfl

theorem step_close (head : String) (inner : List Scope) :
    step ⟨line, inner, (head, beside) :: around⟩ '\x7d' =
      some ⟨[], beside ++ [.mk head inner], around⟩ := rfl

theorem step_tab : step ⟨[], beside, around⟩ '\t' = some ⟨[], beside, around⟩ := rfl

theorem step_break (r : ScopeReader) : r.step '\n' = some { r with line := [] } := rfl

/-- After a line break the line is empty. -/
theorem line_of_run_break {r r' : ScopeReader} {cs : List Char}
    (h : r.run (cs ++ ['\n']) = some r') : r'.line = [] := by
  rw [run_append] at h
  obtain ⟨u, -, hu⟩ := Option.bind_eq_some_iff.1 h
  cases hu
  rfl

/-! ## Balance -/

/-- Each opening brace adds a scope around and each closing brace takes one away. -/
theorem length_around_step {r r' : ScopeReader} {c : Char} (h : r.step c = some r') :
    r'.around.length + [c].count '\x7d' = r.around.length + [c].count '\x7b' := by
  have hbraces : ['\x7b'].count '\x7d' = 0 ∧ ['\x7d'].count '\x7b' = 0 := by decide
  unfold step at h
  by_cases hopen : c = '\x7b'
  · subst hopen
    cases h
    simp [hbraces.1]
  rw [if_neg hopen] at h
  by_cases hclose : c = '\x7d'
  · subst hclose
    rw [if_pos rfl] at h
    split at h
    · cases h
    · next hr =>
      cases h
      simp [hr, hbraces.2]
  · have haround : r'.around = r.around := by
      rw [if_neg hclose] at h
      split_ifs at h <;> cases h <;> rfl
    rw [haround, List.count_singleton, List.count_singleton, if_neg (by simpa using hclose),
      if_neg (by simpa using hopen)]

/-- As many scopes are open as were opened and not closed. -/
theorem length_around {r r' : ScopeReader} {cs : List Char} (h : r.run cs = some r') :
    r'.around.length + cs.count '\x7d' = r.around.length + cs.count '\x7b' := by
  induction cs generalizing r with
  | nil =>
    cases h
    rfl
  | cons c cs ih =>
    rw [run_cons] at h
    obtain ⟨u, hu, hrun⟩ := Option.bind_eq_some_iff.1 h
    have hstep := length_around_step hu
    have hrest := ih hrun
    rw [← List.singleton_append, List.count_append, List.count_append]
    omega

end ScopeReader

/-- The braces of a text match: it closes as many as it opens, and nowhere more. -/
structure Balanced (text : String) : Prop where
  total : text.toList.count '\x7d' = text.toList.count '\x7b'
  never_more : ∀ start, start <+: text.toList → start.count '\x7d' ≤ start.count '\x7b'

/-- What can be read has balanced braces. -/
theorem balanced_of_scopes {text : String} {found : List Scope} (h : scopes text = some found) :
    Balanced text := by
  unfold scopes at h
  split at h
  · next line beside hrun =>
    refine ⟨by simpa using ScopeReader.length_around hrun, fun start hstart => ?_⟩
    obtain ⟨rest, hrest⟩ := hstart
    rw [← hrest, ScopeReader.run_append] at hrun
    obtain ⟨u, hu, -⟩ := Option.bind_eq_some_iff.1 hrun
    have := ScopeReader.length_around hu
    simp only [List.length_nil] at this
    omega
  · cases h

/-! ## Scopes of lines -/

open ScopeReader

/-- Reading the lines adds the scopes beside what was read before. -/
def Encloses (part : List String) (found : List Scope) : Prop :=
  ∀ (beside : List Scope) (around : List (String × List Scope)),
    run ⟨[], beside, around⟩ (unlines part).toList = some ⟨[], beside ++ found, around⟩

theorem toList_unlines_cons (line : String) (part : List String) :
    (unlines (line :: part)).toList = line.toList ++ ['\n'] ++ (unlines part).toList := by
  simp [unlines, String.toList_join]

variable {part part' : List String} {found found' : List Scope}

theorem encloses_nil : Encloses [] [] := fun beside around => by
  rw [List.append_nil]
  rfl

theorem Encloses.append (h : Encloses part found) (h' : Encloses part' found') :
    Encloses (part ++ part') (found ++ found') := fun beside around => by
  rw [Text.unlines_append, String.toList_append, run_append, h, Option.bind_some, h',
    List.append_assoc]

theorem Encloses.scopes (h : Encloses part found) : scopes (unlines part) = some found := by
  rw [Code.scopes, h]
  rfl

/-- What a line adds depends on its text only, not on where it stands. -/
theorem encloses_singleton {line : String}
    (h : ∀ (beside : List Scope) (around : List (String × List Scope)),
      ∃ rest, run ⟨[], beside, around⟩ line.toList = some ⟨rest, beside ++ found, around⟩) :
    Encloses [line] found := fun beside around => by
  obtain ⟨rest, hrun⟩ := h beside around
  rw [toList_unlines_cons, run_append, run_append, hrun]
  rfl

theorem encloses_line {line : String} (h : Plain line) : Encloses [line] [] :=
  encloses_singleton fun beside around =>
    ⟨_, by rw [run_plain h, List.append_nil]⟩

theorem encloses_lines (h : ∀ line ∈ part, Plain line) : Encloses part [] := by
  induction part with
  | nil => exact encloses_nil
  | cons line part ih =>
    obtain ⟨hline, hpart⟩ := List.forall_mem_cons.1 h
    exact (encloses_line hline).append (ih hpart)

/-- A line with one part between braces. -/
theorem encloses_braced {before body behind : String} (hbefore : Plain before) (hbody : Plain body)
    (hbehind : Plain behind) :
    Encloses [before ++ braced body ++ behind] [.mk (bare before) []] := by
  have hinner : Plain (" " ++ body ++ " ") :=
    plain_between (by decide) hbody
  have htext : (before ++ braced body ++ behind).toList =
      before.toList ++ '\x7b' :: ((" " ++ body ++ " ").toList ++ '\x7d' :: behind.toList) := by
    simp [braced]
  refine encloses_singleton fun beside around => ⟨(bare behind).toList, ?_⟩
  rw [htext, run_append, run_text hbefore, Option.bind_some, run_cons, step_open, Option.bind_some,
    run_append, run_text hinner, Option.bind_some, run_cons, step_close, Option.bind_some,
    run_text hbehind, String.ofList_toList]

theorem encloses_inlineBlock {head body : String} (hhead : Plain head) (hbody : Plain body) :
    Encloses [inlineBlock head body] [.mk (bare (head ++ " ")) []] := by
  have hbefore : Plain (head ++ " ") := plain_append.2 ⟨hhead, plain_literal (by decide)⟩
  have hline := encloses_braced hbefore hbody (plain_literal (by decide) : Plain "")
  rwa [String.append_empty] at hline

/-- The tabs before lines are passed over. -/
theorem run_indent (part : List String) (beside : List Scope)
    (around : List (String × List Scope)) :
    run ⟨[], beside, around⟩ (unlines (indent part)).toList =
      run ⟨[], beside, around⟩ (unlines part).toList := by
  induction part generalizing beside around with
  | nil => rfl
  | cons line part ih =>
    have hline : run ⟨[], beside, around⟩ ((indentLine line).toList ++ ['\n']) =
        run ⟨[], beside, around⟩ (line.toList ++ ['\n']) := by
      unfold indentLine
      split
      · rfl
      · have htab : ("\t" ++ line).toList ++ ['\n'] = '\t' :: (line.toList ++ ['\n']) := by simp
        rw [htab, run_cons, step_tab, Option.bind_some]
    rw [indent_eq_map, List.map_cons, ← indent_eq_map, toList_unlines_cons, toList_unlines_cons,
      run_append _ (_ ++ _), run_append _ (_ ++ _), hline]
    refine Option.bind_congr fun r hr => ?_
    have hbreak := line_of_run_break hr
    obtain ⟨l, b, a⟩ := r
    obtain rfl : l = [] := hbreak
    exact ih b a

theorem Encloses.indent (h : Encloses part found) : Encloses (indent part) found :=
  fun beside around => (run_indent part beside around).trans (h beside around)

/-- A block is one scope. -/
theorem Encloses.block (h : Encloses part found) {head : String} (hhead : Plain head) :
    Encloses (block head part) [.mk (bare (head ++ " ")) found] := fun beside around => by
  have hbefore : Plain (head ++ " ") := plain_append.2 ⟨hhead, plain_literal (by decide)⟩
  have htext : (unlines (Code.block head part)).toList = (head ++ " ").toList ++
      '\x7b' :: '\n' :: ((unlines (Code.indent part)).toList ++ ['\x7d', '\n']) := by
    rw [Code.block, List.cons_append, toList_unlines_cons, Text.unlines_append,
      String.toList_append]
    simp [opening, closing, unlines]
  rw [htext, run_append, run_text hbefore, Option.bind_some, run_cons, step_open, Option.bind_some,
    run_cons, step_break, Option.bind_some, run_append, h.indent, Option.bind_some, run_cons,
    step_close, Option.bind_some, String.ofList_toList]
  rfl

end Code

end Appearance
