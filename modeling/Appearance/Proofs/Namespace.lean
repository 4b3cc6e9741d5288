import Appearance.Code.File
import Appearance.Proofs.Normalization

/-!
# The types of the namespace

Generated lines are read for the types that stand in the namespace of enumerations and option sets.
`namespaceOpenings` are the lines that open the namespace or an extension of it; between such a line
and the one that closes it, `typeOf?` tells which type a line declares. `typesIn` reads the lines of
a file.

Lines of which none opens the namespace are `Inert` and are passed over, and so are all lines that
stand deeper (`inert_indent`). Everything that files hold beside the declarations of global values
is inert, apart from the text styles.

A type is declared one tab deep in the namespace, and what is declared inside of it stands deeper
still. So a block is read by its opening alone, and to see which types a file declares its bodies
need not be looked into.
-/

namespace Appearance

open Appearance.Text

namespace Text

/-! ## Lines of a text -/

/-- The text has no end of line in it. -/
def OneLine (s : String) : Prop := ∀ c ∈ s.toList, c ≠ '\n' ∧ c ≠ '\r'

instance (s : String) : Decidable (OneLine s) :=
  inferInstanceAs (Decidable (∀ c ∈ s.toList, c ≠ '\n' ∧ c ≠ '\r'))

@[simp] theorem oneLine_append {s t : String} : OneLine (s ++ t) ↔ OneLine s ∧ OneLine t := by
  rw [OneLine, String.toList_append, List.forall_mem_append]
  rfl

/-- A text without a line end is one line if a line end follows. -/
theorem linesFrom_append {cs : List Char} (hcs : ∀ c ∈ cs, c ≠ '\n' ∧ c ≠ '\r')
    {line : List Char} (hline : line.head? ≠ some '\r') (rest : List Char) :
    linesFrom line (cs ++ '\n' :: rest) = (line.reverse ++ cs) :: linesFrom [] rest := by
  induction cs generalizing line with
  | nil =>
    cases line with
    | nil => rfl
    | cons c line =>
      have hc : c ≠ '\r' := by simpa using hline
      simp [linesFrom, hc]
  | cons c cs ih =>
    obtain ⟨⟨hfeed, hreturn⟩, hrest⟩ := List.forall_mem_cons.1 hcs
    rw [List.cons_append, linesFrom, ih hrest (by simpa using hreturn)]
    · simp
    · exact fun h => hfeed h

/-- The lines of which a text is made. -/
theorem lines_unlines {ls : List String} (h : ∀ l ∈ ls, OneLine l) :
    (lines (Code.unlines ls).toList).map String.ofList = ls := by
  induction ls with
  | nil => rfl
  | cons l ls ih =>
    obtain ⟨hl, hls⟩ := List.forall_mem_cons.1 h
    have htext :
        (Code.unlines (l :: ls)).toList = l.toList ++ '\n' :: (Code.unlines ls).toList := by
      simp [Code.unlines, String.toList_join]
    rw [htext, lines, linesFrom_append hl (by simp), List.map_cons]
    simpa [lines] using ih hls

theorem unlines_append (ls ms : List String) :
    Code.unlines (ls ++ ms) = Code.unlines ls ++ Code.unlines ms := by
  rw [← String.toList_inj]
  simp [Code.unlines, String.toList_join]

theorem unlines_injective {ls ms : List String} (hl : ∀ l ∈ ls, OneLine l)
    (hm : ∀ m ∈ ms, OneLine m) (h : Code.unlines ls = Code.unlines ms) : ls = ms := by
  rw [← lines_unlines hl, h, lines_unlines hm]

end Text

namespace Code

/-! ## Reading -/

/-- The lines that open the namespace or an extension of it. -/
def namespaceOpenings : List String :=
  [opening namespaceExtension, opening (namespaceHead false), opening (namespaceHead true)]

/-- A line without a word at its beginning, if that stands there. -/
def without (word line : String) : String := (stripPrefix? word line).getD line

/-- A declaration without its modifiers. -/
def unmodified (declaration : String) : String :=
  without "public " (without "@objc " declaration)

/-- The name with which a text begins. -/
def leadingName (text : String) : String :=
  String.ofList (text.toList.takeWhile fun c => c != ' ' && c != ':')

/-- The type that a line declares one tab deep. -/
def typeOf? (line : String) : Option String :=
  (stripPrefix? "\t" line).bind fun declaration =>
    ((stripPrefix? "enum " (unmodified declaration)).or
      (stripPrefix? "struct " (unmodified declaration))).map leadingName

/-- The types that lines declare in the namespace; `inside` tells whether it is open. -/
def typesIn (inside : Bool) : List String → List String
  | [] => []
  | line :: rest =>
    if line ∈ namespaceOpenings then typesIn true rest
    else if line = closing then typesIn false rest
    else (if inside then (typeOf? line).toList else []) ++ typesIn inside rest

/-- None of the lines opens the namespace. -/
def Inert (part : List String) : Prop := ∀ line ∈ part, line ∉ namespaceOpenings

instance (part : List String) : Decidable (Inert part) :=
  inferInstanceAs (Decidable (∀ line ∈ part, line ∉ namespaceOpenings))

/-- Outside of the namespace nothing is read of what does not open it. -/
theorem typesIn_inert {part : List String} (h : Inert part) (rest : List String) :
    typesIn false (part ++ rest) = typesIn false rest := by
  induction part with
  | nil => rfl
  | cons line part ih =>
    obtain ⟨hline, hpart⟩ := List.forall_mem_cons.1 h
    rw [List.cons_append, typesIn, if_neg hline, ih hpart]
    simp

@[simp] theorem inert_nil : Inert [] := by simp [Inert]

@[simp] theorem inert_cons {line : String} {part : List String} :
    Inert (line :: part) ↔ line ∉ namespaceOpenings ∧ Inert part := List.forall_mem_cons

@[simp] theorem inert_append {part part' : List String} :
    Inert (part ++ part') ↔ Inert part ∧ Inert part' := List.forall_mem_append

theorem inert_flatMap {α : Type} {f : α → List String} {l : List α} (h : ∀ a ∈ l, Inert (f a)) :
    Inert (l.flatMap f) := fun line hline => by
  obtain ⟨a, ha, hline⟩ := List.mem_flatMap.1 hline
  exact h a ha line hline

/-- A line that stands deeper neither opens nor closes the namespace. -/
theorem not_mem_of_mem_indent {body : List String} {line : String} (h : line ∈ indent body) :
    line ∉ namespaceOpenings ∧ line ≠ closing := by
  obtain ⟨l, -, rfl⟩ := List.mem_map.1 h
  have hne : ∀ t ∈ closing :: namespaceOpenings,
      (if l.isEmpty then l else "\t" ++ l) ≠ t := by
    have hfirst : ∀ t ∈ closing :: namespaceOpenings, t.toList.head? ≠ some '\t' ∧ ¬ t.isEmpty := by
      decide
    intro t ht heq
    obtain ⟨htab, hempty⟩ := hfirst t ht
    split at heq <;> subst heq
    case isTrue hl => exact hempty hl
    case isFalse => exact htab (by simp)
  exact ⟨fun hmem => hne _ (List.mem_cons_of_mem _ hmem) rfl, hne _ List.mem_cons_self⟩

@[simp] theorem inert_indent (body : List String) : Inert (indent body) := fun _ h =>
  (not_mem_of_mem_indent h).1

@[simp] theorem inert_block {head : String} {body : List String} :
    Inert (block head body) ↔ opening head ∉ namespaceOpenings := by
  have hclosing : closing ∉ namespaceOpenings := by decide
  simp [block, hclosing]

@[simp] theorem inert_paragraph {part : List String} : Inert (paragraph part) ↔ Inert part := by
  have hempty : "" ∉ namespaceOpenings := by decide
  simp [paragraph, hempty]

/-- Inside of the namespace the types are read off line by line. -/
theorem typesIn_indent (body rest : List String) :
    typesIn true (indent body ++ rest) = (indent body).filterMap typeOf? ++ typesIn true rest := by
  suffices ∀ part : List String, (∀ line ∈ part, line ∉ namespaceOpenings ∧ line ≠ closing) →
      typesIn true (part ++ rest) = part.filterMap typeOf? ++ typesIn true rest from
    this _ fun _ => not_mem_of_mem_indent
  intro part h
  induction part with
  | nil => rfl
  | cons line part ih =>
    obtain ⟨⟨hopen, hclose⟩, hpart⟩ := List.forall_mem_cons.1 h
    rw [List.cons_append, typesIn, if_neg hopen, if_neg hclose, ih hpart, if_pos rfl]
    cases htype : typeOf? line <;> simp [htype]

/-- A block of the namespace declares the types of its lines. -/
theorem typesIn_block {head : String} (h : opening head ∈ namespaceOpenings)
    (body rest : List String) :
    typesIn false (block head body ++ rest) =
      (indent body).filterMap typeOf? ++ typesIn false rest := by
  have hclosing : closing ∉ namespaceOpenings := by decide
  rw [block, List.append_assoc, List.cons_append, typesIn, if_pos h, typesIn_indent,
    List.singleton_append, typesIn, if_neg hclosing, if_pos rfl]

theorem typesIn_paragraph {head : String} (h : opening head ∈ namespaceOpenings)
    (body rest : List String) :
    typesIn false (paragraph (block head body) ++ rest) =
      (indent body).filterMap typeOf? ++ typesIn false rest := by
  have hempty : Inert [""] := by decide
  rw [paragraph, List.append_assoc, typesIn_block h, typesIn_inert hempty]

/-! ## What is passed over -/

section Templates

/-- A line with a beginning that no line opening the namespace has. -/
theorem not_mem_of_append (pre : String)
    (h : ∀ line ∈ namespaceOpenings, ¬ pre.toList <+: line.toList) (s : String) :
    pre ++ s ∉ namespaceOpenings := fun hmem => by
  refine h _ hmem ?_
  rw [String.toList_append]
  exact List.prefix_append _ _

theorem opening_append (s t : String) : opening (s ++ t) = s ++ opening t := String.append_assoc ..

variable (settings : Settings)

theorem inert_headerLines : Inert (headerLines settings) := by
  refine inert_append.2 ⟨by decide, fun line hline => ?_⟩
  obtain ⟨name, -, rfl⟩ := Option.map_eq_some_iff.1 (Option.mem_toList.1 hline)
  exact not_mem_of_append "import " (by decide) name

theorem inert_protocolLines : Inert protocolLines := by
  simp only [protocolLines, inert_append, inert_cons, inert_paragraph, inert_block]
  decide

theorem inert_animationLines (animations : List String) : Inert (animationLines animations) := by
  simp only [animationLines, enumBlock, inert_append, inert_paragraph, inert_block]
  decide

/-- The template of the manager stands outside of the namespace. -/
theorem inert_managerLines (base : String) : Inert (managerLines settings base) := by
  have hsize : Inert contentSizeLines := by
    rw [contentSizeLines, inert_paragraph, inert_block]
    decide
  have hnotification : Inert (notificationLines settings.manager) := by
    rw [notificationLines, inert_paragraph, inert_block]
    decide
  have htheming : Inert (themingLines settings.manager base) := by
    simp only [themingLines, inert_append, inert_paragraph, inert_block, opening_append,
      String.append_assoc]
    exact ⟨not_mem_of_append _ (by decide) _, not_mem_of_append _ (by decide) _⟩
  have hclass : Inert (managerClassLines settings base) := by
    simp only [managerClassLines, inert_paragraph, inert_block, opening_append,
      String.append_assoc]
    cases settings.objc
    · exact not_mem_of_append "public class " (by decide) _
    · exact not_mem_of_append "@objcMembers " (by decide) _
  simp only [managerLines, inert_append]
  refine ⟨⟨⟨?_, ?_⟩, htheming⟩, hclass⟩
  · split
    · exact hsize
    · exact inert_nil
  · split
    · exact inert_nil
    · exact hnotification

/-- An extension of the manager opens with a longer line than the namespace. -/
theorem opening_manager_not_mem :
    opening ("public extension " ++ settings.manager) ∉ namespaceOpenings := fun hmem => by
  have hmanager : "StylesheetManager".length ≤ settings.manager.length := by
    unfold Settings.manager
    split
    · rw [String.length_append]
      exact Nat.le_add_left ..
    · exact le_rfl
  have hshort : ∀ line ∈ namespaceOpenings,
      line.length < (opening "public extension ").length + "StylesheetManager".length := by decide
  have := hshort _ hmem
  simp only [opening, String.length_append] at this
  omega

/-- The template of themes stands outside of the namespace. -/
theorem inert_themeLines (base : String) (themes : List Theme) :
    Inert (themeLines settings base themes) := by
  have hdefaults : Inert userDefaultsLines := by
    rw [userDefaultsLines, inert_paragraph, inert_block]
    decide
  have henum : Inert (themeEnumLines settings.objc base themes) := by
    rw [themeEnumLines, inert_paragraph, inert_block]
    cases settings.objc <;> decide
  have hplaced : Inert (placedThemeEnum settings base themes) := by
    unfold placedThemeEnum
    split
    · simp only [inert_append, inert_cons, inert_nil, opening_append]
      exact ⟨⟨not_mem_of_append _ (by decide) _, henum⟩, by decide, trivial⟩
    · exact henum
  have hmanager : ∀ type first, Inert (themedManagerLines settings base type first) := by
    intro type first
    rw [themedManagerLines, inert_paragraph, inert_block]
    exact opening_manager_not_mem settings
  simp only [themeLines, inert_append, inert_cons]
  refine ⟨⟨⟨⟨by decide, ?_⟩, hplaced⟩, ?_⟩, hmanager _ _⟩
  · split
    · exact hdefaults
    · exact inert_nil
  · split <;> decide

/-- The enclosing enumeration is another one than the namespace. -/
theorem inert_enclosingLines (isBase : Bool) : Inert (enclosingLines settings isBase) := by
  have hempty : "" ∉ namespaceOpenings := by decide
  unfold enclosingLines
  split
  · exact inert_nil
  · split
    · simp only [inert_cons, inert_nil, opening_append]
      exact ⟨not_mem_of_append _ (by decide) _, hempty, trivial⟩
    · split
      · simp only [inert_cons, inert_nil, opening_append, String.append_assoc]
        exact ⟨not_mem_of_append _ (by decide) _, not_mem_of_append _ (by decide) _, hempty,
          trivial⟩
      · simp only [inert_cons, inert_nil, opening_append]
        exact ⟨not_mem_of_append _ (by decide) _, hempty, trivial⟩

theorem inert_enclosingEnd : Inert (enclosingEnd settings) := by
  unfold enclosingEnd
  split <;> decide

/-- The class of a stylesheet stands outside of the namespace. -/
theorem inert_sheetClassLines (sheet : Stylesheet) (body : List String) :
    Inert (sheetClassLines settings sheet body) := by
  simp only [sheetClassLines, inert_cons, inert_paragraph, inert_block, opening_append,
    String.append_assoc]
  refine ⟨by decide, ?_⟩
  cases settings.objc
  · exact not_mem_of_append "public class " (by decide) _
  · simp only [mark, if_pos, String.append_assoc]
    exact not_mem_of_append "@objc(STR" (by decide) _

/-- The extensions of views stand outside of the namespace. -/
theorem inert_viewExtensionLines (ctx : ViewContext) (sheet : Stylesheet) :
    Inert (viewExtensionLines ctx sheet) := by
  have hview : ∀ style heirs, Inert (viewLines ctx style heirs) := by
    intro style heirs
    simp only [viewLines, inert_cons, inert_block, opening_append, String.append_assoc]
    exact ⟨by decide, not_mem_of_append _ (by decide) _⟩
  unfold viewExtensionLines
  dsimp only
  split
  · exact inert_nil
  · rw [List.cons_append, inert_cons, inert_append]
    exact ⟨by decide, by decide, inert_flatMap fun style _ => hview _ _⟩

end Templates

/-! ## Declarations -/

/-- A text that begins with another character does not have the prefix. -/
theorem stripPrefix?_eq_none {pre s : String} (hne : pre ≠ "")
    (h : s.toList.head? ≠ pre.toList.head?) : stripPrefix? pre s = none := by
  have hfalse : pre.toList.isPrefixOf s.toList = false := by
    rw [← Bool.not_eq_true, List.isPrefixOf_iff_prefix]
    rintro ⟨rest, hrest⟩
    refine h ?_
    rw [← hrest]
    cases hpre : pre.toList with
    | nil => exact absurd (String.toList_eq_nil_iff.1 hpre) hne
    | cons c cs => rfl
  rw [stripPrefix?, afterPrefix?, hfalse]
  rfl

theorem without_append (word s : String) : without word (word ++ s) = s := by
  rw [without, stripPrefix?_append]
  rfl

theorem without_of_head (word : String) {s : String} (hne : word ≠ "")
    (h : s.toList.head? ≠ word.toList.head?) : without word s = s := by
  rw [without, stripPrefix?_eq_none hne h]
  rfl

/-- The line is empty or stands one tab deep. -/
def IsDeeper (line : String) : Prop := ∀ c ∈ line.toList.head?, c = '\t'

theorem isDeeper_append {pre : String} (h : pre.toList.head? = some '\t') (s : String) :
    IsDeeper (pre ++ s) := by
  simp [IsDeeper, h]

theorem isDeeper_of_mem_indent {body : List String} {line : String} (h : line ∈ indent body) :
    IsDeeper line := by
  obtain ⟨l, -, rfl⟩ := List.mem_map.1 h
  split
  case isTrue hl => simp [IsDeeper, String.isEmpty_iff.1 hl]
  case isFalse => exact isDeeper_append rfl l

/-- What stands deeper than a type is no type of the namespace. -/
theorem typeOf?_of_isDeeper {line : String} (h : IsDeeper line) :
    typeOf? ("\t" ++ line) = none := by
  have hhead : ∀ word ∈ ["@objc ", "public ", "enum ", "struct "],
      word ≠ "" ∧ line.toList.head? ≠ word.toList.head? := by
    have htab : ∀ word ∈ ["@objc ", "public ", "enum ", "struct "],
        word ≠ "" ∧ some '\t' ≠ word.toList.head? ∧ none ≠ word.toList.head? := by decide
    intro word hword
    obtain ⟨hne, hsome, hnone⟩ := htab word hword
    refine ⟨hne, ?_⟩
    cases hc : line.toList.head? with
    | none => exact hnone
    | some c =>
      rw [h c hc]
      exact hsome
  simp only [List.forall_mem_cons] at hhead
  obtain ⟨⟨hobjc, hobjc'⟩, ⟨hpublic, hpublic'⟩, ⟨henum, henum'⟩, ⟨hstruct, hstruct'⟩, -⟩ := hhead
  rw [typeOf?, stripPrefix?_append, Option.bind_some, unmodified, without_of_head _ hobjc hobjc',
    without_of_head _ hpublic hpublic', stripPrefix?_eq_none henum henum',
    stripPrefix?_eq_none hstruct hstruct']
  rfl

/-- The modifiers of a declaration. -/
def modifiers (objc isPublic : Bool) : String :=
  (if objc then "@objc " else "") ++ if isPublic then "public " else ""

/-- All modifiers are taken away, whichever of them are written. -/
theorem unmodified_modifiers (objc isPublic : Bool) {s : String}
    (h : s.toList.head? ≠ some '@' ∧ s.toList.head? ≠ some 'p') :
    unmodified (modifiers objc isPublic ++ s) = s := by
  have hpublic : without "public " ((if isPublic then "public " else "") ++ s) = s := by
    cases isPublic
    · simpa using without_of_head "public " (by decide) h.2
    · exact without_append _ _
  have hobjc : without "@objc " (modifiers objc isPublic ++ s) =
      (if isPublic then "public " else "") ++ s := by
    rw [modifiers, String.append_assoc]
    cases objc
    · rw [if_neg nofun, String.empty_append]
      refine without_of_head _ (by decide) ?_
      cases isPublic
      · simpa using h.1
      · simp
    · exact without_append _ _
  rw [unmodified, hobjc, hpublic]

/-- The text ends the name before it. -/
def EndsName (text : String) : Prop := ∀ c ∈ text.toList.head?, c = ' ' ∨ c = ':'

/-- The text is a name as a whole. -/
def IsName (name : String) : Prop := ∀ c ∈ name.toList, c ≠ ' ' ∧ c ≠ ':'

instance (name : String) : Decidable (IsName name) :=
  inferInstanceAs (Decidable (∀ c ∈ name.toList, c ≠ ' ' ∧ c ≠ ':'))

/-- The name is read up to the space or the colon that ends it. -/
theorem leadingName_append {name rest : String} (h : IsName name) (hrest : EndsName rest) :
    leadingName (name ++ rest) = name := by
  have hname : ∀ c ∈ name.toList, (c != ' ' && c != ':') = true := fun c hc => by
    simpa using h c hc
  have hnil : (rest.toList.takeWhile fun c => c != ' ' && c != ':') = [] := by
    cases hr : rest.toList with
    | nil => rfl
    | cons c cs => rcases hrest c (by rw [hr]; rfl) with rfl | rfl <;> rfl
  rw [leadingName, String.toList_append, List.takeWhile_append_of_pos hname, hnil,
    List.append_nil, String.ofList_toList]

variable {name rest : String}

theorem typeOf?_enum (objc isPublic : Bool) (h : IsName name) (hrest : EndsName rest) :
    typeOf? ("\t" ++ (modifiers objc isPublic ++ ("enum " ++ (name ++ rest)))) = some name := by
  rw [typeOf?, stripPrefix?_append, Option.bind_some, unmodified_modifiers _ _ (by simp),
    stripPrefix?_append, Option.some_or, Option.map_some, leadingName_append h hrest]

theorem typeOf?_struct (objc isPublic : Bool) (h : IsName name) (hrest : EndsName rest) :
    typeOf? ("\t" ++ (modifiers objc isPublic ++ ("struct " ++ (name ++ rest)))) = some name := by
  rw [typeOf?, stripPrefix?_append, Option.bind_some, unmodified_modifiers _ _ (by simp),
    stripPrefix?_eq_none (by decide) (by simp), stripPrefix?_append, Option.none_or,
    Option.map_some, leadingName_append h hrest]

/-- The lines declare a type: the first one names it, and what follows stands deeper. -/
def Declares (ls : List String) (type : String) : Prop :=
  ∃ first members, ls = first :: members ++ [closing] ∧ typeOf? ("\t" ++ first) = some type ∧
    ∀ line ∈ members, IsDeeper line

/-- Inside a block, the lines of a declaration name one type. -/
theorem Declares.filterMap_indent {ls : List String} {type : String} (h : Declares ls type) :
    (indent ls).filterMap typeOf? = [type] := by
  obtain ⟨first, members, rfl, hfirst, hmembers⟩ := h
  have hclosing : typeOf? ("\t" ++ closing) = none := by decide
  have hline : ∀ line, typeOf? (if line.isEmpty then line else "\t" ++ line) =
      typeOf? ("\t" ++ line) := fun line => by
    split
    case isTrue hl =>
      rw [String.isEmpty_iff.1 hl]
      decide
    case isFalse => rfl
  rw [indent, List.filterMap_map]
  simp only [Function.comp_def, hline, List.cons_append, List.filterMap_cons, hfirst]
  have hnone : ∀ line ∈ members ++ [closing], typeOf? ("\t" ++ line) = none :=
    List.forall_mem_append.2
      ⟨fun line h => typeOf?_of_isDeeper (hmembers line h), by simp [hclosing]⟩
  rw [List.filterMap_eq_nil_iff.2 hnone]

theorem declares_block (head type : String) (body : List String)
    (h : typeOf? ("\t" ++ opening head) = some type) : Declares (block head body) type :=
  ⟨_, _, rfl, h, fun _ => isDeeper_of_mem_indent⟩

/-! ## Text styles -/

/-- The text styles are one type of the namespace. -/
theorem typesIn_textStyleLines (typography rest : List String) :
    typesIn false (textStyleLines typography ++ rest) =
      Font.textStyleEnum :: typesIn false rest := by
  have hopen : opening ("public extension " ++ Value.enums) ∈ namespaceOpenings := by decide
  have hprivate : ∀ body, Inert (paragraph (block ("private extension " ++ textStyleType) body)) :=
    fun body => by
      rw [inert_paragraph, inert_block]
      decide
  have hdeclares := declares_block ("enum " ++ Font.textStyleEnum ++ ": String") Font.textStyleEnum
    ((textStyles typography).map fun s => "case " ++ s.1) (by decide)
  rw [textStyleLines, List.append_assoc, typesIn_paragraph hopen, hdeclares.filterMap_indent,
    typesIn_inert (hprivate _)]
  rfl

/-- The lines of fonts declare the text styles in the namespace. -/
theorem typesIn_fontLines (typography : List String) (hasSymbolFont : Bool) (manager : String)
    (rest : List String) :
    typesIn false (fontLines typography hasSymbolFont manager ++ rest) =
      Font.textStyleEnum :: typesIn false rest := by
  have hsymbols : Inert (if hasSymbolFont then symbolFontLines manager else []) := by
    split
    · rw [symbolFontLines, inert_paragraph, inert_block]
      decide
    · exact inert_nil
  have hfonts : Inert (paragraph (block "extension UIFont" fontFunction)) := by
    rw [inert_paragraph, inert_block]
    decide
  have hcache : Inert (paragraph ["private var fontCache = [String: UIFont]()"]) := by decide
  simp only [fontLines, List.append_assoc, typesIn_textStyleLines, typesIn_inert hsymbols,
    typesIn_inert hcache, typesIn_inert hfonts]

end Code

end Appearance
