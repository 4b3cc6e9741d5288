import Appearance.Proofs.Classes
import Appearance.Proofs.GlobalTypes

/-!
# Where classes are printed

The class of a style is printed as a block, with the accessor in front of it. That of a nested style
stands among the members of the class around it, and that of a top-level style in the class of its
stylesheet or, if every style has a file of its own, in an extension of that. `Style.Stands` says so
of lines of text, and `Suite.exists_stands` finds every class of a stylesheet in one of its files.
The members of a class hold a function for every value that is no definition
(`Style.function_in_bodyLines`).

`Stands` follows the path of a class through lines: its block stands among the members of the class
around it, and so on up to the class of the stylesheet. The lines are found as infixes, never by
their number, so what else is printed in a class does not matter. The names for Objective-C are
listed in the same order as the classes, which is how each of them gets exactly one.
-/

namespace Appearance

open Code

/-! ## Blocks -/

namespace Style

/-- The members of the class of a style. `outer` begins the name of the class for Objective-C. -/
def bodyLines (ctx : ProxyContext) (outer : String) (x : Style) : List String :=
  (if x.head.inherits.isNone then initLines ctx else []) ++
    memberLines ctx (objcName outer x.head) x.properties ++ applyLines x.head x.properties

/-- The class of a style. -/
def classBlock (ctx : ProxyContext) (outer : String) (x : Style) : List String :=
  block (classHead ctx outer x.head) (x.bodyLines ctx outer)

/-- A class stands in lines that are the members of the type at a path: it is declared there with
its accessor, or it stands in the class of a style that is. -/
inductive Stands (ctx : ProxyContext) : List String → String → String → Ancestor → String → Prop
  | here {lines : List String} {outer path proxy : String} {x : Style} :
    accessorLines proxy x.head ++ x.classBlock ctx outer <:+: lines →
    Stands ctx lines outer path ⟨path ++ "." ++ x.className, x⟩ outer
  | inside {lines : List String} {outer path proxy outer' : String} {x : Style} {c : Ancestor} :
    accessorLines proxy x.head ++ x.classBlock ctx outer <:+: lines →
    Stands ctx (x.bodyLines ctx outer) (objcName outer x.head) (path ++ "." ++ x.className) c
      outer' →
    Stands ctx lines outer path c outer'

variable {ctx : ProxyContext} {outer path : String}

/-! ## Members -/

/-- Members are printed one after the other. -/
theorem memberLines_append (ps qs : List Property) :
    memberLines ctx outer (ps ++ qs) = memberLines ctx outer ps ++ memberLines ctx outer qs := by
  induction ps with
  | nil => rw [List.nil_append, memberLines, List.nil_append]
  | cons p ps ih =>
    cases p with
    | leaf => rw [List.cons_append, memberLines, memberLines, ih, List.append_assoc]
    | nested k n =>
      obtain ⟨h, rs⟩ := n
      rw [List.cons_append, memberLines, memberLines, ih, List.append_assoc]

/-- The members of one property stand among those of all. -/
theorem memberLines_of_mem {p : Property} {ps : List Property} (hp : p ∈ ps) :
    memberLines ctx outer [p] <:+: memberLines ctx outer ps := by
  obtain ⟨before, after, rfl⟩ := List.append_of_mem hp
  refine ⟨memberLines ctx outer before, memberLines ctx outer after, ?_⟩
  rw [← memberLines_append, ← memberLines_append, List.append_assoc, List.singleton_append]

theorem memberLines_in_bodyLines (x : Style) :
    memberLines ctx (objcName outer x.head) x.properties <:+: x.bodyLines ctx outer :=
  List.infix_append _ _ _

/-- The block of a class stands behind its accessor. -/
theorem class_in_classLines (proxy : String) (x : Style) :
    accessorLines proxy x.head ++ x.classBlock ctx outer <:+:
      classLines ctx outer proxy x.head x.properties
        (memberLines ctx (objcName outer x.head) x.properties) := by
  refine ⟨["", "//MARK: - " ++ x.head.name], [], ?_⟩
  rw [List.append_nil, ← List.append_assoc]
  rfl

/-- A nested style has its accessor and its class among the members. -/
theorem nested_in_bodyLines {x n : Style} (hn : n ∈ x.nestedStyles) :
    accessorLines "mainProxy" n.head ++ n.classBlock ctx (objcName outer x.head) <:+:
      x.bodyLines ctx outer := by
  obtain ⟨k, hk⟩ := mem_nestedStyles.1 hn
  refine .trans ?_ ((memberLines_of_mem hk).trans (memberLines_in_bodyLines x))
  obtain ⟨h, ps⟩ := n
  rw [memberLines, memberLines, List.append_nil]
  exact class_in_classLines "mainProxy" (mk h ps)

/-- A value that is no definition has its function among the members. -/
theorem function_in_bodyLines (ctx : ProxyContext) (outer : String) {x : Style}
    {k : PropertyHead} {v : Value} (hk : Property.leaf k v ∈ x.properties)
    (hv : v.isGlobal = false) :
    Property.functionLines ctx.settings.frameworkManager? k v <:+: x.bodyLines ctx outer := by
  refine .trans ?_ ((memberLines_of_mem hk).trans (memberLines_in_bodyLines x))
  rw [memberLines, memberLines, hv, List.append_nil]
  exact List.infix_append _ _ _

/-! ## Names for Objective-C -/

mutual

/-- The classes of a style with their names for Objective-C. -/
def annotatedAt (outer path : String) : Style → List (String × Ancestor)
  | mk head properties =>
    let path := path ++ "." ++ head.className
    (objcName outer head, ⟨path, mk head properties⟩) ::
      annotatedIn (objcName outer head) path properties

/-- The annotated classes of nested styles, in the order of the code. -/
def annotatedIn (outer path : String) : List Property → List (String × Ancestor)
  | [] => []
  | .leaf .. :: ps => annotatedIn outer path ps
  | .nested _ style :: ps => annotatedAt outer path style ++ annotatedIn outer path ps

end

/-- The classes in properties are those of the nested styles. -/
theorem annotatedIn_eq (outer path : String) (ps : List Property) :
    annotatedIn outer path ps =
      (ps.filterMap Property.style?).flatMap (annotatedAt outer path) := by
  induction ps with
  | nil => rfl
  | cons p ps ih =>
    cases p with
    | leaf => rw [annotatedIn, ih]; rfl
    | nested k n => rw [annotatedIn, ih]; rfl

/-- A class has its own name, and in front of it that of the class around it. -/
theorem annotatedAt_eq (outer path : String) (x : Style) :
    x.annotatedAt outer path =
      (objcName outer x.head, ⟨path ++ "." ++ x.className, x⟩) :: x.nestedStyles.flatMap
        (annotatedAt (objcName outer x.head) (path ++ "." ++ x.className)) := by
  obtain ⟨h, ps⟩ := x
  rw [annotatedAt, annotatedIn_eq]
  rfl

theorem map_snd_annotatedAt (outer path : String) (x : Style) :
    (x.annotatedAt outer path).map Prod.snd = x.classesAt (path ++ "." ++ x.className) := by
  induction x using nestedInduction generalizing outer path with
  | step x ih =>
    rw [annotatedAt_eq, classesAt_eq, List.map_cons, List.map_flatMap]
    exact congrArg _ (List.flatMap_congr fun n hn => ih n hn _ _)

/-- Where a style is declared, all its classes stand. -/
theorem exists_stands {lines : List String} {proxy name : String} {x : Style} {c : Ancestor}
    (hx : accessorLines proxy x.head ++ x.classBlock ctx outer <:+: lines)
    (hc : (name, c) ∈ x.annotatedAt outer path) :
    ∃ outer', Stands ctx lines outer path c outer' ∧ name = objcName outer' c.style.head := by
  induction x using nestedInduction generalizing lines outer path proxy with
  | step x ih =>
    rw [annotatedAt_eq, List.mem_cons, List.mem_flatMap] at hc
    rcases hc with hc | ⟨n, hn, hc⟩
    · cases hc
      exact ⟨outer, .here hx, rfl⟩
    · obtain ⟨outer', hstands, hname⟩ := ih n hn (nested_in_bodyLines hn) hc
      exact ⟨outer', .inside hx hstands, hname⟩

end Style

/-! ## Files -/

namespace Code

/-- The declaration of the class of a stylesheet. -/
def sheetHead (settings : Settings) (t : Stylesheet) : String :=
  mark settings.objc ("@objc(STR" ++ t.name ++ ") @objcMembers") ++ "public class " ++ t.name ++
    inherits (sheetSuperclass? settings t)

/-- The lines are the last members of the class of a stylesheet, or they are those of an extension
of it. -/
def SheetMembers (settings : Settings) (t : Stylesheet) (file lines : List String) : Prop :=
  (∃ first, block (sheetHead settings t) (first ++ lines) <:+: file) ∨
    block ("extension " ++ qualified settings t.name) lines <:+: file

/-- The members of a stylesheet stand in its class. -/
theorem sheetMembers_sheetClassLines (settings : Settings) (t : Stylesheet) (lines : List String) :
    SheetMembers settings t (sheetClassLines settings t lines) lines := by
  have hclass : ∃ first, sheetClassLines settings t lines =
      "/// Entry point for the app stylesheet" ::
        paragraph (block (sheetHead settings t) (first ++ lines)) := ⟨_, rfl⟩
  obtain ⟨first, hfirst⟩ := hclass
  exact .inl ⟨first, ["/// Entry point for the app stylesheet"], [""], hfirst.symm⟩

theorem SheetMembers.mono {settings : Settings} {t : Stylesheet} {file file' lines : List String}
    (h : SheetMembers settings t file lines) (hfile : file <:+: file') :
    SheetMembers settings t file' lines :=
  h.imp (fun ⟨first, hfirst⟩ => ⟨first, hfirst.trans hfile⟩) fun hlines => hlines.trans hfile

end Code

namespace Stylesheet

/-- The classes of a stylesheet with their names for Objective-C. -/
def annotated (t : Stylesheet) : List (String × Ancestor) :=
  t.allStyles.flatMap (Style.annotatedAt t.name t.name)

theorem map_snd_annotated (t : Stylesheet) : t.annotated.map Prod.snd = t.classes := by
  rw [annotated, List.map_flatMap]
  exact List.flatMap_congr fun x _ => Style.map_snd_annotatedAt _ _ x

end Stylesheet

namespace Suite

variable {s l : Suite} {settings : Settings} {base id : SheetId}

/-- What the classes of a suite need to know of the run. -/
def proxyContext (s : Suite) (settings : Settings) (base : SheetId) : ProxyContext :=
  ⟨settings, s.baseType settings base⟩

/-- The stylesheet gets files. The base only does if it is asked for. -/
def Written (s : Suite) (settings : Settings) (id : SheetId) : Prop :=
  (s.sheet id).isBase = true → settings.writesBase = true

theorem Written.isBase_and_not_writesBase (hw : s.Written settings id) :
    ((s.sheet id).isBase && !settings.writesBase) = false := by
  cases hb : (s.sheet id).isBase with
  | false => rfl
  | true => simp [hw hb]

/-- The members of the class of a stylesheet, or of an extension of it, for some of its styles. -/
theorem mem_linesOf_cases (hw : s.Written settings id) (base : SheetId) {x : Style}
    (hx : x ∈ (s.sheet id).allStyles) :
    ∃ file ∈ s.linesOf settings base id, ∃ styles, x ∈ styles ∧
      SheetMembers settings (s.sheet id) file (s.styleLines settings base id styles) := by
  have hmain : ∀ styles, SheetMembers settings (s.sheet id) (s.mainLines settings base id styles)
      (s.styleLines settings base id styles) := fun styles =>
    (sheetMembers_sheetClassLines settings (s.sheet id) _).mono <|
      ((List.suffix_append _ _).isInfix.trans (List.prefix_append _ _).isInfix).trans
        (List.prefix_append _ _).isInfix
  have hstyle : ∀ x, SheetMembers settings (s.sheet id) (s.styleFileLines settings base id x)
      (s.styleLines settings base id [x]) := fun x =>
    .inr ⟨headerLines settings ++ [""], [], by simp [styleFileLines]⟩
  rw [Stylesheet.allStyles, List.mem_append] at hx
  rw [linesOf, hw.isBase_and_not_writesBase]
  cases hsplit : settings.splitsStyles with
  | false =>
    refine ⟨_, List.mem_cons_self, _, ?_, hmain _⟩
    rw [List.mem_append]
    exact hx
  | true =>
    rcases hx with hx | hx
    · refine ⟨_, List.mem_cons_of_mem _ ?_, [x], List.mem_singleton_self x, hstyle x⟩
      exact List.mem_map_of_mem hx
    · exact ⟨_, List.mem_cons_self, _, hx, hmain _⟩

/-- Every class of a stylesheet that gets files stands in the class of the stylesheet in one of
them. -/
theorem exists_stands (hw : s.Written settings id) (base : SheetId) {name : String} {c : Ancestor}
    (hc : (name, c) ∈ (s.sheet id).annotated) :
    ∃ file ∈ s.linesOf settings base id, ∃ lines outer,
      SheetMembers settings (s.sheet id) file lines ∧
      Style.Stands (s.proxyContext settings base) lines (s.sheet id).name (s.sheet id).name c
        outer ∧
      name = Style.objcName outer c.style.head := by
  obtain ⟨x, hx, hc⟩ := List.mem_flatMap.1 hc
  obtain ⟨file, hfile, styles, hmem, hmembers⟩ := mem_linesOf_cases hw base hx
  have hinfix : Style.accessorLines (braced "return self") x.head ++
      x.classBlock (s.proxyContext settings base) (s.sheet id).name <:+:
        s.styleLines settings base id styles := by
    obtain ⟨before, after, rfl⟩ := List.append_of_mem hmem
    refine .trans (Style.class_in_classLines _ x) ?_
    rw [styleLines, List.flatMap_append, List.flatMap_cons, ← List.append_assoc]
    exact List.infix_append _ _ _
  obtain ⟨outer, hstands, hname⟩ := Style.exists_stands hinfix hc
  exact ⟨file, hfile, _, outer, hmembers, hstands, hname⟩

/-- The files of a stylesheet are files of the suite. -/
theorem linesOf_subset_allLines (hid : id ∈ s.ids) :
    s.linesOf settings base id ⊆ s.allLines settings base := by
  intro file hfile
  refine List.mem_flatMap.2 ⟨id, ?_, hfile⟩
  by_cases heq : id = base
  · exact heq ▸ List.mem_cons_self
  · exact List.mem_cons_of_mem _ (List.mem_filter.2 ⟨hid, by simpa using heq⟩)

/-- Code is generated for every suite that is prepared. -/
theorem Prepares.exists_generated (h : Prepares settings s l) :
    ∃ base files, l.baseId = .ok base ∧
      (l.prepared settings).1.generateAll settings = .ok files ∧
      files.map GeneratedFile.content =
        ((l.prepared settings).1.allLines settings base).map Code.unlines := by
  obtain ⟨b, -, hl, -⟩ := linked_ok h.linked
  have hb : l.base? = some b := by rw [hl]
  obtain ⟨files, hfiles, hcontent⟩ := exists_generateAll (h.kept.base?_eq.trans hb) settings
  exact ⟨.registered b, files, by rw [baseId, hb], hfiles, hcontent⟩

end Suite

end Appearance
