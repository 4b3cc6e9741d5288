import Appearance.Proofs.EnumTemplates
import Appearance.Proofs.Normalization
import Appearance.Proofs.Printed

/-!
# What view extensions refer to

A view extension names classes of proxies, that of its style and those of the styles that extend it,
and it asks the stylesheet in use for accessors. `Code.references` reads these names back from
generated lines, and `Code.references_viewLines` says what they are.

All are written as if the base declared them. So they exist exactly for the styles of the base
(`Suite.Prepares.views_refer_iff`): a style that a theme declares first has its class in the theme,
the base has no accessor of its name, and still its view extension asks the base for both
(`Suite.views_misrefer_chipTheme`).

A reference is told by how its line begins, and every other line of a view extension begins with
none of these words, tabs apart (`Apart`). The search for heirs is bounded, and here it matters
only that it finds styles of the same stylesheet. The negative half is an instance, a view
extension of a theme for a style of its own; the positive half holds for every style of the base,
whatever the themes declare.
-/

namespace Appearance

open Appearance.Text
open Code

namespace Stylesheet

/-! ## Heirs -/

/-- The search for heirs meets styles of the stylesheet only. -/
theorem heirsFrom_subset {styles : List Style} {depth : Nat} {name : String}
    {state : List String × List Style} (h : state.2 ⊆ styles) :
    (heirsFrom styles depth name state).2 ⊆ styles := by
  induction depth generalizing name state with
  | zero => exact h
  | succ depth ih =>
    rw [heirsFrom]
    refine List.foldlRecOn styles _
      (motive := fun b : List String × List Style => b.2 ⊆ styles) h ?_
    rintro ⟨found, heirs⟩ hheirs style hstyle
    dsimp only at hheirs ⊢
    split
    · exact hheirs
    · exact List.append_subset.2 ⟨ih hheirs, List.cons_subset.2 ⟨hstyle, List.nil_subset _⟩⟩

/-- What extends a style stands in the same stylesheet. -/
theorem heirs_subset (t : Stylesheet) (name : String) : t.heirs name ⊆ t.styles :=
  heirsFrom_subset (List.nil_subset _)

end Stylesheet

namespace Code

/-! ## Reading -/

/-- What a line of a view extension refers to. -/
inductive Reference where
  /-- The class of a proxy. -/
  | type (path : String)
  /-- An accessor of the stylesheet in use. -/
  | accessor (name : String)
  deriving DecidableEq, Repr

/-- How the class of the proxies of a view is declared. -/
def typeWord : List Char :=
  ['p', 'u', 'b', 'l', 'i', 'c', ' ', 't', 'y', 'p', 'e', 'a', 'l', 'i', 'a', 's', ' ', 'A', 'p',
    'p', 'e', 'a', 'r', 'a', 'n', 'c', 'e', 'P', 'r', 'o', 'x', 'y', 'T', 'y', 'p', 'e', ' ', '=',
    ' ']

/-- How a proxy is told by its class. -/
def checkWord : List Char := ['i', 'f', ' ', 'p', 'r', 'o', 'x', 'y', ' ', 'i', 's', ' ']

/-- How a result is given. -/
def returnWord : List Char := ['r', 'e', 't', 'u', 'r', 'n', ' ']

/-- How an accessor of the stylesheet in use is given. -/
def accessorOpening (current : String) : String := String.ofList returnWord ++ current ++ "."

/-- What a line refers to, where `current` is the stylesheet in use. -/
def reference? (current line : String) : Option Reference :=
  ((stripPrefix? (String.ofList typeWord) (bare line)).map .type).or <|
    (((stripPrefix? (String.ofList checkWord) (bare line)).bind (stripSuffix? (opening ""))).map
        .type).or <|
      (stripPrefix? (accessorOpening current) (bare line)).map .accessor

/-- All that lines refer to. -/
def references (current : String) (part : List String) : List Reference :=
  part.filterMap (reference? current)

/-- The words of which a line begins with one if it refers to something. -/
def referenceWords (current : String) : List (List Char) :=
  [typeWord, checkWord, (accessorOpening current).toList]

/-- The beginnings of those words that no stylesheet is part of. -/
def fixedWords : List (List Char) := [typeWord, checkWord, returnWord]

variable {current head line : String} {part : List String}

/-! ### Lines without references -/

/-- A line that is apart from the words refers to nothing. -/
theorem Apart.reference?_eq_none (h : Apart (referenceWords current) line) :
    reference? current line = none := by
  have htype := stripPrefix?_ofList_eq_none (h typeWord (by simp [referenceWords]))
  have hcheck := stripPrefix?_ofList_eq_none (h checkWord (by simp [referenceWords]))
  have haccessor := stripPrefix?_ofList_eq_none (h (accessorOpening current).toList
    (by simp [referenceWords]))
  rw [String.ofList_toList] at haccessor
  rw [reference?, htype, hcheck, haccessor]
  rfl

/-- The words about the stylesheet in use all begin with `return`. -/
theorem Apart.of_fixed (h : Apart fixedWords line) : Apart (referenceWords current) line := by
  have hreturn : ¬ (accessorOpening current).toList <+: (bare line).toList := by
    intro hword
    refine h returnWord (by simp [fixedWords]) (List.IsPrefix.trans ?_ hword)
    rw [accessorOpening, String.append_assoc, String.toList_append, String.toList_ofList]
    exact List.prefix_append _ _
  simp only [Apart, referenceWords, List.forall_mem_cons, List.not_mem_nil, false_implies,
    implies_true, and_true]
  exact ⟨h typeWord (by simp [fixedWords]), h checkWord (by simp [fixedWords]), hreturn⟩

theorem Lacks.of_fixed (h : Lacks fixedWords part) : Lacks (referenceWords current) part :=
  fun line hline => (h line hline).of_fixed

/-- A result without a point is none of the stylesheet in use. -/
theorem apart_of_pointless {cs : List Char} (hcs : '.' ∉ cs.dropWhile (· == '\t'))
    (h : ∀ w ∈ [typeWord, checkWord], ¬ w <+: cs.dropWhile (· == '\t')) :
    Apart (referenceWords current) (String.ofList cs) := by
  refine apart_ofList fun w hw => ?_
  rcases List.mem_cons.1 hw with rfl | hw
  · exact h typeWord (by simp)
  rcases List.mem_cons.1 hw with rfl | hw
  · exact h checkWord (by simp)
  · rw [List.mem_singleton.1 hw, accessorOpening, String.toList_append]
    exact fun hword => hcs (hword.subset (List.mem_append_right _ (by simp)))

theorem apart_closing_reference : Apart (referenceWords current) closing :=
  Apart.of_fixed (apart_ofList (by decide))

theorem apart_empty_reference : Apart (referenceWords current) "" :=
  Apart.of_fixed (apart_ofList (by decide))

/-! ### Parts -/

theorem references_lacks (h : Lacks (referenceWords current) part) :
    references current part = [] :=
  List.filterMap_eq_nil_iff.2 fun line hline => (h line hline).reference?_eq_none

theorem references_cons (line : String) (part : List String) :
    references current (line :: part) =
      (reference? current line).toList ++ references current part := by
  rw [references, List.filterMap_cons]
  cases reference? current line <;> rfl

theorem references_append (part part' : List String) :
    references current (part ++ part') = references current part ++ references current part' :=
  List.filterMap_append

theorem reference?_indentLine (line : String) :
    reference? current (indentLine line) = reference? current line := by
  rw [reference?, bare_indentLine, reference?]

theorem references_indent (part : List String) :
    references current (indent part) = references current part := by
  have hcomp : reference? current ∘ indentLine = reference? current := funext fun line => by
    rw [Function.comp_apply, reference?_indentLine]
  rw [indent_eq_map, references, List.filterMap_map, hcomp, references]

theorem references_block (head : String) (body : List String) :
    references current (block head body) =
      (reference? current (opening head)).toList ++ references current body := by
  have hclosing : references current [closing] = [] :=
    references_lacks (lacks_cons.2 ⟨apart_closing_reference, lacks_nil⟩)
  rw [block, references_append, references_cons, references_indent, hclosing, List.append_nil]

/-- A block that begins with none of the words refers to what is in it. -/
theorem references_block_apart (h : Apart fixedWords (opening head)) (body : List String) :
    references current (block head body) = references current body := by
  rw [references_block, h.of_fixed.reference?_eq_none]
  rfl

theorem references_paragraph (part : List String) :
    references current (paragraph part) = references current part := by
  rw [paragraph, references_append,
    references_lacks (lacks_cons.2 ⟨apart_empty_reference, lacks_nil⟩), List.append_nil]

/-! ### Lines with a reference -/

theorem reference?_type (path : String) :
    reference? current (String.ofList typeWord ++ path) = some (.type path) := by
  rw [reference?, bare_append (by decide), stripPrefix?_append, Option.map_some, Option.some_or]

/-- The type that a proxy is checked for is a reference. -/
theorem reference?_check (path : String) :
    reference? current (opening (String.ofList checkWord ++ path)) = some (.type path) := by
  have hapart : Apart [typeWord] (String.ofList checkWord ++ opening path) :=
    apart_append (by decide) _
  have htype := stripPrefix?_ofList_eq_none (hapart typeWord (by simp))
  have hpath : stripSuffix? (opening "") (opening path) = some path := by
    have hopening : opening path = path ++ opening "" := by
      rw [← opening_append, String.append_empty]
    rw [hopening, stripSuffix?_append]
  rw [opening_append, reference?, htype, bare_append (by decide), stripPrefix?_append,
    Option.bind_some, hpath, Option.map_none, Option.none_or, Option.map_some, Option.some_or]

/-- The accessor that is returned is a reference. -/
theorem reference?_accessor (name : String) :
    reference? current (accessorOpening current ++ name) = some (.accessor name) := by
  have hline : accessorOpening current ++ name =
      String.ofList returnWord ++ (current ++ ("." ++ name)) := by
    rw [accessorOpening, String.append_assoc, String.append_assoc]
  have hbare : bare (accessorOpening current ++ name) = accessorOpening current ++ name := by
    rw [hline, bare_append (by decide)]
  have hapart : Apart [typeWord, checkWord] (accessorOpening current ++ name) := by
    rw [hline]
    exact apart_append (by decide) _
  rw [reference?, stripPrefix?_ofList_eq_none (hapart typeWord (by simp)),
    stripPrefix?_ofList_eq_none (hapart checkWord (by simp)), hbare, stripPrefix?_append,
    Option.bind_none, Option.map_none, Option.none_or, Option.none_or, Option.map_some]

/-! ## A view extension -/

/-- The line that asks the stylesheet in use for an accessor. -/
theorem references_accessor (current name : String) :
    references current ["return " ++ current ++ "." ++ name] = [.accessor name] := by
  have hreturn : String.ofList returnWord = "return " := rfl
  have hline : "return " ++ current ++ "." ++ name = accessorOpening current ++ name := by
    rw [accessorOpening, hreturn]
  rw [hline, references_cons, reference?_accessor]
  rfl

/-- What the check for an heir refers to: its class, and the accessor to ask for then. -/
def heirReferences (base : String) (heir : Style) : List Reference :=
  [.type (base ++ "." ++ heir.className), .accessor heir.name]

/-- The check for an heir refers to its class and to its accessor. -/
theorem references_heir (ctx : ViewContext) (heir : Style) :
    references ctx.current
        (block ("if proxy is " ++ ctx.baseType ++ "." ++ heir.className)
          ["return " ++ ctx.current ++ "." ++ heir.name]) =
      heirReferences ctx.baseType heir := by
  have hcheck : "if proxy is " ++ ctx.baseType ++ "." ++ heir.className =
      String.ofList checkWord ++ (ctx.baseType ++ "." ++ heir.className) := by
    rw [String.append_assoc, String.append_assoc, String.append_assoc]
    rfl
  rw [references_block, hcheck, reference?_check, references_accessor]
  rfl

/-- The variable refers to those of all heirs, and to the accessor of the style last. -/
theorem references_proxyVariable (ctx : ViewContext) (style : Style) (heirs : List Style) :
    references ctx.current (proxyVariable ctx style heirs) =
      heirs.flatMap (heirReferences ctx.baseType) ++ [.accessor style.name] := by
  have hheirs : references ctx.current (heirs.flatMap fun heir =>
      block ("if proxy is " ++ ctx.baseType ++ "." ++ heir.className)
        ["return " ++ ctx.current ++ "." ++ heir.name]) =
      heirs.flatMap (heirReferences ctx.baseType) := by
    rw [references, List.filterMap_flatMap]
    exact List.flatMap_congr fun heir _ => references_heir ctx heir
  have haware : references ctx.current (paragraph [inlineBlock "if !themeAware" "return proxy"]) =
      [] := by
    rw [references_paragraph]
    exact references_lacks (Lacks.of_fixed
      (lacks_cons.2 ⟨apart_inlineBlock (by decide) _, lacks_nil⟩))
  have hproxy : references ctx.current ["return proxy"] = [] :=
    references_lacks (lacks_cons.2 ⟨apart_of_pointless (by decide) (by decide), lacks_nil⟩)
  have hset : references ctx.current
      (block "set" [associate proxyHandle "newValue", "didChangeAppearanceProxy()"]) = [] := by
    refine references_lacks (Lacks.of_fixed ?_)
    rw [lacks_block (apart_ofList (by decide)), lacks_cons, lacks_cons]
    exact ⟨apart_opening (by decide), apart_associate (by decide), apart_ofList (by decide),
      lacks_nil⟩
  have hassociated : Apart fixedWords (opening ("if let proxy = objc_getAssociatedObject(self, &" ++
      proxyHandle ++ ") as? AppearanceProxyType")) := by
    rw [String.append_assoc]
    exact apart_opening_append (by decide) _
  rw [proxyVariable, references_block_apart (apart_opening (by decide)), references_append, hset,
    List.append_nil, references_block_apart (apart_opening (by decide)), references_append,
    references_accessor, references_paragraph, references_block_apart hassociated,
    references_append, references_append, haware, hproxy, hheirs, List.append_nil, List.nil_append]

/-- A view extension refers to the classes of its style and of the heirs, and to their accessors. -/
theorem references_viewLines (ctx : ViewContext) (style : Style) (heirs : List Style) :
    references ctx.current (viewLines ctx style heirs) =
      .type (ctx.baseType ++ "." ++ style.className) ::
        heirs.flatMap (heirReferences ctx.baseType) ++ [.accessor style.name] := by
  have haware : references ctx.current awareVariable = [] := by
    refine references_lacks ?_
    simp only [awareVariable, lacks_block apart_closing_reference, lacks_append, lacks_cons]
    exact ⟨.of_fixed (apart_opening (by decide)), ⟨.of_fixed (apart_opening (by decide)),
      .of_fixed (apart_associated (by decide)), apart_of_pointless (by decide) (by decide),
      lacks_nil⟩, .of_fixed (apart_opening (by decide)), .of_fixed (apart_associate (by decide)),
      .of_fixed (apart_ofList (by decide)), lacks_nil⟩
  have hobserving : references ctx.current observingVariable = [] := by
    refine references_lacks ?_
    simp only [observingVariable, lacks_block apart_closing_reference, lacks_append, lacks_cons,
      String.append_assoc]
    exact ⟨.of_fixed (apart_opening (by decide)), ⟨.of_fixed (apart_opening (by decide)),
      .of_fixed (apart_associated (by decide)), apart_of_pointless (by decide) (by decide),
      lacks_nil⟩, .of_fixed (apart_opening (by decide)),
      .of_fixed (apart_inlineBlock (by decide) _), .of_fixed (apart_opening (by decide)),
      .of_fixed (apart_append (by decide) _), .of_fixed (apart_ofList (by decide)),
      .of_fixed (apart_append (by decide) _), apart_closing_reference,
      .of_fixed (apart_associate (by decide)), lacks_nil⟩
  have htype : "public typealias AppearanceProxyType = " ++ ctx.baseType ++ "." ++
      style.className = String.ofList typeWord ++ (ctx.baseType ++ "." ++ style.className) := by
    rw [String.append_assoc, String.append_assoc, String.append_assoc]
    rfl
  have hempty : ∀ part, references ctx.current ("" :: part) = references ctx.current part :=
    fun part => by rw [references_cons, apart_empty_reference.reference?_eq_none]; rfl
  have hextension : Apart fixedWords
      (opening ("extension " ++ style.name ++ ": AppearanceProxyComponent")) := by
    rw [String.append_assoc]
    exact apart_opening_append (by decide) _
  rw [viewLines, hempty, references_block_apart hextension, references_append, references_append,
    hempty, references_cons, htype, reference?_type, references_paragraph, references_paragraph,
    haware, hobserving, references_proxyVariable, List.append_nil, List.append_nil]
  rfl

/-- Every style with a view extension has it among those of its stylesheet. -/
theorem infix_viewExtensionLines (ctx : ViewContext) {sheet : Stylesheet} {x : Style}
    (hx : x ∈ sheet.styles) (hextension : x.head.isExtension = true)
    (hoverride : x.head.isOverride = false) :
    viewLines ctx x (sheet.heirs x.name) <:+: viewExtensionLines ctx sheet := by
  have hmem : x ∈ sheet.styles.filter fun s => s.head.isExtension && !s.head.isOverride :=
    List.mem_filter.2 ⟨hx, by rw [hextension, hoverride]; rfl⟩
  have hne : (sheet.styles.filter fun s => s.head.isExtension && !s.head.isOverride).isEmpty =
      false := List.isEmpty_eq_false_iff.2 (List.ne_nil_of_mem hmem)
  rw [viewExtensionLines, hne, if_neg Bool.false_ne_true]
  obtain ⟨before, after, hsplit⟩ := List.append_of_mem hmem
  rw [hsplit, List.flatMap_append, List.flatMap_cons, ← List.append_assoc, ← List.append_assoc]
  exact List.infix_append _ _ _

end Code

namespace Suite

variable {s l r : Suite} {settings : Settings} {base id : SheetId} {x : Style}

/-! ## The views of a suite -/

/-- What the view extensions of a suite need to know of the run. -/
def viewContext (s : Suite) (settings : Settings) (base : SheetId) : ViewContext :=
  ⟨s.baseType settings base,
    settings.manager ++ ".stylesheet(" ++ s.baseType settings base ++ ".shared())"⟩

/-- The view extension of a style of a stylesheet. -/
def viewExtension (s : Suite) (settings : Settings) (base id : SheetId) (x : Style) :
    List String :=
  viewLines (s.viewContext settings base) x ((s.sheet id).heirs x.name)

/-- All that the view extension of a style of a stylesheet refers to. -/
def viewReferences (s : Suite) (settings : Settings) (base id : SheetId) (x : Style) :
    List Reference :=
  references (s.viewContext settings base).current (s.viewExtension settings base id x)

/-- What a view extension of a stylesheet refers to exists: a class is that of a style of the same
stylesheet, and an accessor is one of the class of the base. -/
def Declares (s : Suite) (settings : Settings) (base id : SheetId) : Reference → Prop
  | .type path => ∃ y ∈ (s.sheet id).styles, path = qualified settings ((s.sheet id).classOf y).path
  | .accessor name => ∃ y ∈ (s.sheet base).styles, y.name = name

/-- The view extension of a style stands in the file of its stylesheet. -/
theorem exists_viewExtension (hw : s.Written settings id) (base : SheetId)
    (hx : x ∈ (s.sheet id).styles) (hextension : x.head.isExtension = true)
    (hoverride : x.head.isOverride = false) :
    ∃ file ∈ s.linesOf settings base id, s.viewExtension settings base id x <:+: file := by
  have hmain : ∀ styles, s.viewExtension settings base id x <:+:
      s.mainLines settings base id styles := fun styles =>
    (infix_viewExtensionLines _ hx hextension hoverride).trans (List.suffix_append _ _).isInfix
  rw [linesOf, hw.isBase_and_not_writesBase]
  exact ⟨_, List.mem_cons_self, hmain _⟩

theorem qualified_append (settings : Settings) (sheet rest : String) :
    qualified settings (sheet ++ rest) = qualified settings sheet ++ rest := by
  unfold qualified
  cases settings.enclosing with
  | none => rfl
  | some outer => exact (String.append_assoc ..).symm

/-- The type under which a view extension knows a style of the base is the path of its class. -/
theorem baseType_className (s : Suite) (settings : Settings) (base : SheetId) (y : Style) :
    s.baseType settings base ++ "." ++ y.className =
      qualified settings ((s.sheet base).classOf y).path := by
  rw [baseType, Stylesheet.classOf, String.append_assoc, String.append_assoc, qualified_append]

theorem viewReferences_eq (s : Suite) (settings : Settings) (base id : SheetId) (x : Style) :
    s.viewReferences settings base id x =
      .type (s.baseType settings base ++ "." ++ x.className) ::
        ((s.sheet id).heirs x.name).flatMap (heirReferences (s.baseType settings base)) ++
          [.accessor x.name] :=
  references_viewLines _ _ _

/-- In the base all that a view extension refers to exists. -/
theorem declares_of_base (hx : x ∈ (s.sheet base).styles) :
    ∀ ref ∈ s.viewReferences settings base base x, s.Declares settings base base ref := by
  have hstyle : ∀ y ∈ (s.sheet base).styles,
      s.Declares settings base base (.type (s.baseType settings base ++ "." ++ y.className)) ∧
        s.Declares settings base base (.accessor y.name) :=
    fun y hy => ⟨⟨y, hy, s.baseType_className settings base y⟩, y, hy, rfl⟩
  rw [viewReferences_eq]
  refine List.forall_mem_append.2 ⟨List.forall_mem_cons.2 ⟨(hstyle x hx).1, fun ref href => ?_⟩,
    List.forall_mem_singleton.2 (hstyle x hx).2⟩
  obtain ⟨y, hy, href⟩ := List.mem_flatMap.1 href
  have hheir := hstyle y ((s.sheet base).heirs_subset x.name hy)
  rcases List.mem_cons.1 href with rfl | href
  · exact hheir.1
  · rw [List.mem_singleton.1 href]
    exact hheir.2

/-! ## Styles that a theme declares first -/

/-- Marking leaves without an override only what has no counterpart in the base. -/
theorem baseWith?_of_withInheritance {m : Stylesheet} (h : s.withInheritance settings id = .ok m)
    (hx : x ∈ m.styles) (hoverride : x.head.isOverride = false) :
    s.baseWith? id x.name = none := by
  obtain ⟨z, -, earlier, hz⟩ := exists_step_of_withInheritance h hx
  have hname : z.name = x.name := (Style.name_eq_of_outline (outline_inheritingStyle hz)).symm
  rcases inheritingStyle_heir hz with ⟨b, as, -, -, -, -, hmarked⟩ | ⟨hnone, -, -⟩ | ⟨hnone, -⟩
  · rw [hoverride] at hmarked
    cases hmarked
  · rwa [hname] at hnone
  · rwa [hname] at hnone

/-- The base has no style of the name of one that a theme declares first. -/
theorem Stage.name_ne {u : Suite} (h : Stage settings l r u id)
    (hbase : u.superclass? id = some base) (hx : x ∈ (r.sheet id).styles)
    (hoverride : x.head.isOverride = false) {y : Style} (hy : y ∈ (r.sheet base).styles) :
    y.name ≠ x.name := by
  obtain ⟨redirected, marked, -, hmarked, hsorted⟩ := resolved_ok h.resolved_eq
  obtain ⟨z, hz, rfl⟩ : ∃ z ∈ marked.styles, z.sorted = x := by
    rw [hsorted, Stylesheet.sorted] at hx
    obtain ⟨z, hz, rfl⟩ := List.mem_map.1 hx
    exact ⟨z, (List.mergeSort_perm _ _).mem_iff.1 hz, rfl⟩
  rw [Style.head_sorted] at hoverride
  have hnone := baseWith?_of_withInheritance hmarked hz hoverride
  rw [baseWith?, superclass?_setSheet, hbase] at hnone
  intro hname
  rw [← h.base_eq base hbase, ← sheet_setSheet_of_ne redirected (ne_of_superclass? hbase).symm]
    at hy
  have hfound := isSome_find?_of_mem (by
    rw [isLinked_setSheet]
    exact isLinked_of_superclass? hbase) hy
  rw [hname, Style.name_sorted] at hfound
  simp [Option.filter, hfound] at hnone

/-- What view extensions refer to exists for the styles of the base, and for those only: of what the
view extension of a style of another stylesheet refers to, something exists nowhere. Code is
generated for every suite that is prepared, and each view extension stands in it unless its
stylesheet gets no file. It refers to the class of its style, in each check to the class of an heir
and the accessor of that heir, and at last to the accessor of its style. -/
theorem Prepares.views_refer_iff (h : Prepares settings s l) :
    ∃ base files, l.baseId = .ok base ∧
      (l.prepared settings).1.generateAll settings = .ok files ∧
      files.map GeneratedFile.content =
        ((l.prepared settings).1.allLines settings base).map unlines ∧
      ∀ id ∈ l.ids, ∀ x ∈ ((l.prepared settings).1.sheet id).styles,
        x.head.isExtension = true → x.head.isOverride = false →
          ((l.prepared settings).1.Written settings id →
            ∃ file ∈ (l.prepared settings).1.allLines settings base,
              (l.prepared settings).1.viewExtension settings base id x <:+: file) ∧
          (l.prepared settings).1.viewReferences settings base id x =
            .type ((l.prepared settings).1.baseType settings base ++ "." ++ x.className) ::
              (((l.prepared settings).1.sheet id).heirs x.name).flatMap
                (heirReferences ((l.prepared settings).1.baseType settings base)) ++
              [.accessor x.name] ∧
          ((∀ ref ∈ (l.prepared settings).1.viewReferences settings base id x,
            (l.prepared settings).1.Declares settings base id ref) ↔ id = base) := by
  obtain ⟨base, files, hbase, hfiles, hcontent⟩ := h.exists_generated
  obtain ⟨hbased, -⟩ := basedOn_baseId h.linked hbase
  refine ⟨base, files, hbase, hfiles, hcontent, fun id hid x hx hextension hoverride =>
    ⟨fun hw => ?_, viewReferences_eq _ _ _ _ _, fun hrefer => ?_, ?_⟩⟩
  · obtain ⟨file, hfile, hinfix⟩ := exists_viewExtension hw base hx hextension hoverride
    exact ⟨file, linesOf_subset_allLines (h.ids_eq ▸ hid) hfile, hinfix⟩
  · by_contra hne
    obtain ⟨u, hstage⟩ := h.exists_stage hid
    have hsuper : u.superclass? id = some base := by
      rw [superclass?_congr hstage.base?_eq, hbased.superclass? id hid, if_neg hne]
    have haccessor : Reference.accessor x.name ∈
        (l.prepared settings).1.viewReferences settings base id x := by
      rw [viewReferences_eq]
      exact List.mem_append_right _ (List.mem_singleton_self _)
    obtain ⟨y, hy, hname⟩ := hrefer _ haccessor
    exact hstage.name_ne hsuper hx hoverride hy hname
  · rintro rfl
    exact declares_of_base hx

/-- A base with a view extension and an heir, and a theme with a view extension of its own. -/
def chipTheme : Suite :=
  ⟨[⟨"Base",
      [.mk { StyleHead.named "Badge" with isExtension := true }
        [.leaf ⟨"x", false, false⟩ (.int 1)],
        .mk { StyleHead.named "Pill" with superclass := some "Badge" } []],
      none, none, false, []⟩,
    ⟨"Dark",
      [.mk { StyleHead.named "Chip" with isExtension := true }
        [.leaf ⟨"y", false, false⟩ (.int 2)]],
      none, some "Base", false, []⟩],
    none, none⟩

theorem prepares_chipTheme :
    Prepares .standard chipTheme { chipTheme with base? := some 0 } :=
  ⟨rfl, by cbv⟩

/-- The view of the style that the base has refers to what is declared. -/
theorem views_refer_chipTheme :
    Prepares .standard chipTheme { chipTheme with base? := some 0 } ∧
      ∀ id ∈ [SheetId.registered 0, .registered 1],
        ∀ x ∈ (({ chipTheme with base? := some 0 }.prepared .standard).1.sheet id).styles,
          x.head.isExtension = true → x.head.isOverride = false →
            ((∀ ref ∈ ({ chipTheme with base? := some 0 }.prepared .standard).1.viewReferences
                .standard (.registered 0) id x,
              ({ chipTheme with base? := some 0 }.prepared .standard).1.Declares .standard
                (.registered 0) id ref) ↔ id = .registered 0) := by
  obtain ⟨base, files, hbase, -, -, hviews⟩ := Prepares.views_refer_iff prepares_chipTheme
  cases hbase
  exact ⟨prepares_chipTheme, fun id hid x hx hextension hoverride =>
    (hviews id hid x hx hextension hoverride).2.2⟩

/-- The view extension of the theme refers to a class that is not generated, and to an accessor that
the base does not have. -/
theorem views_misrefer_chipTheme :
    ∃ x ∈ (({ chipTheme with base? := some 0 }.prepared .standard).1.sheet
        (.registered 1)).styles,
      x.head.isExtension = true ∧ x.head.isOverride = false ∧
        ({ chipTheme with base? := some 0 }.prepared .standard).1.viewReferences .standard
            (.registered 0) (.registered 1) x =
          [.type "Base.ChipAppearanceProxy", .accessor "Chip"] ∧
        "Base.ChipAppearanceProxy" ∉
          ({ chipTheme with base? := some 0 }.prepared .standard).1.classes.map Ancestor.path ∧
        "Chip" ∉ (({ chipTheme with base? := some 0 }.prepared .standard).1.sheet
          (.registered 0)).styles.map Style.name := by
  have hpaths : ({ chipTheme with base? := some 0 }.prepared .standard).1.classes.map
      Ancestor.path =
      ["Base.BadgeAppearanceProxy", "Base.PillAppearanceProxy", "Dark.DarkBadgeAppearanceProxy",
        "Dark.ChipAppearanceProxy", "Dark.DarkPillAppearanceProxy"] := by
    cbv
  have hnames : (({ chipTheme with base? := some 0 }.prepared .standard).1.sheet
      (.registered 0)).styles.map Style.name = ["Badge", "Pill"] := by
    cbv
  have hviews : ((({ chipTheme with base? := some 0 }.prepared .standard).1.sheet
      (.registered 1)).styles.map fun s : Style => (s.head.isExtension, s.head.isOverride, s.name,
        s.className, ((({ chipTheme with base? := some 0 }.prepared .standard).1.sheet
          (.registered 1)).heirs s.name).isEmpty))[1]? =
      some (true, false, "Chip", "ChipAppearanceProxy", true) := by
    cbv
  have hbaseType : ({ chipTheme with base? := some 0 }.prepared .standard).1.baseType .standard
      (.registered 0) = "Base" := by
    cbv
  obtain ⟨x, hx, hview⟩ := List.mem_map.1 (List.mem_of_getElem? hviews)
  simp only [Prod.mk.injEq, List.isEmpty_iff] at hview
  obtain ⟨hextension, hoverride, hname, hclassName, hheirs⟩ := hview
  refine ⟨x, hx, hextension, hoverride, ?_, ?_, ?_⟩
  · rw [viewReferences_eq, hheirs, hbaseType, hname, hclassName]
    rfl
  · rw [hpaths]
    decide
  · rw [hnames]
    decide

end Suite

end Appearance
