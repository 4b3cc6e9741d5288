import Appearance.Proofs.EnumCases

/-!
# Files for each style

With a file for each style (`Settings.splitsStyles`) the classes of the styles move from the class
of the stylesheet into extensions of it. Their texts do not change: those in the files of the
styles, read one after the other, and that of the animator, which stays, make the text that stands
in the class when the file is whole, and what stands around it is the same in both cases
(`Suite.generate_divided`). That a class is printed alike in both is told by the settings on which
it depends (`Style.proxyLines_congr`).

The file of a stylesheet is cut into three parts, the lines before the classes, those of the
classes and those behind. The two outer parts do not depend on how styles are divided, and the
middle one is a concatenation over styles, from which the styles with files of their own are taken
out. Indentation is the same in a class and in an extension, so it is the texts that are moved and
not only the declarations.
-/

namespace Appearance

open Appearance.Text Appearance.Code

/-! ## What classes depend on -/

namespace Style

section Context

variable {ctx ctx' : ProxyContext} (hobjc : ctx.settings.objc = ctx'.settings.objc)
  (hmanager : ctx.settings.frameworkManager? = ctx'.settings.frameworkManager?)
  (hbase : ctx.baseType = ctx'.baseType)

include hobjc hbase

theorem classLines_congr (outer proxy : String) (head : StyleHead) (ps : List Property)
    (members : List String) :
    classLines ctx outer proxy head ps members = classLines ctx' outer proxy head ps members := by
  simp only [classLines, classHead, initLines, hobjc, hbase]

include hmanager

/-- The members of a class depend on one setting only, at every depth. -/
theorem memberLines_congr (s : Style) (outer : String) :
    memberLines ctx outer s.properties = memberLines ctx' outer s.properties := by
  induction s using Style.induction generalizing outer with
  | mk head ps ih =>
    simp only [properties_mk]
    induction ps with
    | nil => rw [memberLines, memberLines]
    | cons p ps ihps =>
      have hrest := ihps fun k n hn => ih k n (List.mem_cons_of_mem p hn)
      cases p with
      | leaf k v => rw [memberLines, memberLines, hmanager, hrest]
      | nested k n =>
        obtain ⟨h, qs⟩ := n
        have hinner := ih k (mk h qs) List.mem_cons_self (objcName outer h)
        rw [properties_mk] at hinner
        rw [memberLines, memberLines, hinner, hrest, classLines_congr hobjc hbase]

/-- The class of a style depends on nothing else of the run. -/
theorem proxyLines_congr (sheet : String) (s : Style) :
    proxyLines ctx sheet s = proxyLines ctx' sheet s := by
  rw [proxyLines, proxyLines, memberLines_congr hobjc hmanager hbase, classLines_congr hobjc hbase]

end Context

end Style

/-! ## Lines around the classes -/

namespace Code

/-- The lines of the class of a stylesheet in front of the classes of its styles. -/
def classOpening (settings : Settings) (sheet : Stylesheet) : List String :=
  ["/// Entry point for the app stylesheet", opening (sheetHead settings sheet)] ++
    indent (sheetMembers settings sheet [])

/-- The class of a stylesheet is written around its body. -/
theorem sheetClassLines_eq_append (settings : Settings) (sheet : Stylesheet) (body : List String) :
    sheetClassLines settings sheet body =
      classOpening settings sheet ++ indent body ++ [closing, ""] := by
  have hmembers : sheetMembers settings sheet body = sheetMembers settings sheet [] ++ body := by
    rw [sheetMembers, sheetMembers, List.append_nil]
  rw [sheetClassLines_eq, paragraph, block, hmembers, indent_append, classOpening]
  simp only [List.cons_append, List.nil_append, List.append_assoc]

/-- The lines of the file of a style in front of its class. -/
def extensionOpening (settings : Settings) (sheet : Stylesheet) : List String :=
  headerLines settings ++ ["", opening ("extension " ++ qualified settings sheet.name)]

end Code

namespace Suite

variable (s : Suite) (settings : Settings) (base id : SheetId)

/-- The lines of the file of a stylesheet in front of the classes of its styles. -/
def linesBefore : List String :=
  headerLines settings ++ s.declarationLines settings base id ++
    enclosingLines settings (s.sheet id).isBase ++ classOpening settings (s.sheet id)

/-- The lines of the file of a stylesheet behind the classes of its styles. -/
def linesBehind : List String :=
  [closing, ""] ++ enclosingEnd settings ++
    viewExtensionLines
      ⟨s.baseType settings base,
        settings.manager ++ ".stylesheet(" ++ s.baseType settings base ++ ".shared())"⟩
      (s.sheet id)

/-- The text of the classes of styles in the class of their stylesheet. -/
def classText (styles : List Style) : String :=
  unlines (indent (s.styleLines settings base id styles))

theorem mainLines_eq (styles : List Style) :
    s.mainLines settings base id styles =
      s.linesBefore settings base id ++ indent (s.styleLines settings base id styles) ++
        s.linesBehind settings base id := by
  rw [mainLines, sheetClassLines_eq_append, linesBefore, linesBehind]
  simp only [List.append_assoc]

theorem classText_append (l m : List Style) :
    s.classText settings base id (l ++ m) =
      s.classText settings base id l ++ s.classText settings base id m := by
  rw [classText, styleLines, List.flatMap_append, indent_append, unlines_append]
  rfl

/-- The classes of styles are those of each style one after the other. -/
theorem classText_eq_join (styles : List Style) :
    s.classText settings base id styles =
      String.join (styles.map fun x => s.classText settings base id [x]) := by
  induction styles with
  | nil => rfl
  | cons x styles ih =>
    rw [List.map_cons, String.join_cons, ← ih, ← classText_append, List.singleton_append]

/-! ## Both kinds of files -/

theorem unlines_mainLines (styles : List Style) :
    unlines (s.mainLines settings base id styles) =
      unlines (s.linesBefore settings base id) ++ s.classText settings base id styles ++
        unlines (s.linesBehind settings base id) := by
  rw [mainLines_eq, unlines_append, unlines_append, classText]

theorem content_styleFile (x : Style) :
    (s.styleFile settings base id x).content =
      unlines (extensionOpening settings (s.sheet id)) ++ s.classText settings base id [x] ++
        unlines [closing] := by
  rw [classText, ← unlines_append, ← unlines_append, extensionOpening]
  simp only [styleFile, block, List.append_assoc, List.cons_append, List.nil_append]

theorem styleLines_splitsStyles (d : Bool) (styles : List Style) :
    s.styleLines { settings with splitsStyles := d } base id styles =
      s.styleLines settings base id styles := by
  refine List.flatMap_congr fun x _ => ?_
  apply Style.proxyLines_congr <;> rfl

theorem mainLines_splitsStyles (d : Bool) (styles : List Style) :
    s.mainLines { settings with splitsStyles := d } base id styles =
      s.mainLines settings base id styles := by
  rw [mainLines_eq, mainLines_eq, styleLines_splitsStyles]
  rfl

theorem styleFile_splitsStyles (d : Bool) (x : Style) :
    s.styleFile { settings with splitsStyles := d } base id x =
      s.styleFile settings base id x := by
  unfold styleFile
  rw [styleLines_splitsStyles]
  rfl

variable {s settings id}

theorem filesOf_of_not_written (hw : ¬ s.Written settings id) (d : Bool) :
    s.filesOf { settings with splitsStyles := d } base id = [] := by
  obtain ⟨hbase, hwrites⟩ := Classical.not_imp.1 hw
  rw [filesOf, if_pos]
  simpa [hbase] using hwrites

/-- The file of a stylesheet, and behind it those of its styles. -/
theorem filesOf_of_written (hw : s.Written settings id) (d : Bool) :
    s.filesOf { settings with splitsStyles := d } base id =
      ⟨fileName settings (s.sheet id).name, unlines (s.mainLines settings base id
        ((if d then [] else (s.sheet id).styles) ++ (s.sheet id).animator.toList))⟩ ::
          if d then (s.sheet id).styles.map (s.styleFile settings base id) else [] := by
  rw [filesOf, if_neg (by rw [hw.isBase_and_not_writesBase]; exact Bool.false_ne_true)]
  simp only [mainLines_splitsStyles, funext (s.styleFile_splitsStyles settings base id d)]
  rfl

variable {base}

/-- The file of a stylesheet is divided into one without the classes of its styles and the files of
these: the texts of the classes in the files, in order, and behind them that of the animator, make
the text of the classes in the whole file, and around the classes the two are the same. -/
structure Divides (s : Suite) (settings : Settings) (base id : SheetId)
    (whole divided : GeneratedFile) (files : List GeneratedFile) (texts : List String) : Prop where
  name_eq : divided.name = whole.name
  names : files.map GeneratedFile.name =
    (s.sheet id).styles.map fun x => styleFileName (s.sheet id).name x.name
  contents : files.map GeneratedFile.content = texts.map fun text =>
    unlines (extensionOpening settings (s.sheet id)) ++ text ++ unlines [closing]
  divided_eq : divided.content = unlines (s.linesBefore settings base id) ++
    s.classText settings base id (s.sheet id).animator.toList ++
      unlines (s.linesBehind settings base id)
  whole_eq : whole.content = unlines (s.linesBefore settings base id) ++
    (String.join texts ++ s.classText settings base id (s.sheet id).animator.toList) ++
      unlines (s.linesBehind settings base id)

/-- The files for each style and the whole file have the same text. -/
theorem divides (s : Suite) (settings : Settings) (base id : SheetId) (name : String) :
    s.Divides settings base id
      ⟨name, unlines (s.mainLines settings base id (s.sheet id).allStyles)⟩
      ⟨name, unlines (s.mainLines settings base id (s.sheet id).animator.toList)⟩
      ((s.sheet id).styles.map (s.styleFile settings base id))
      ((s.sheet id).styles.map fun x => s.classText settings base id [x]) where
  name_eq := rfl
  names := List.map_map
  contents := by
    rw [List.map_map, List.map_map]
    exact List.map_congr_left fun x _ => content_styleFile s settings base id x
  divided_eq := unlines_mainLines s settings base id _
  whole_eq := by
    rw [← classText_eq_join, ← classText_append]
    exact unlines_mainLines s settings base id _

/-- A stylesheet without a file has none for its styles either. Otherwise files for each style move
the texts of their classes out of its file and change nothing else. -/
theorem generate_divided {b : Nat} (hb : s.base? = some b) (settings : Settings) (id : SheetId) :
    (¬ s.Written settings id ∧
      ∀ d, s.generate { settings with splitsStyles := d } id = .ok []) ∨
    s.Written settings id ∧ ∃ whole divided files texts,
      s.generate { settings with splitsStyles := false } id = .ok [whole] ∧
      s.generate { settings with splitsStyles := true } id = .ok (divided :: files) ∧
      s.Divides settings (.registered b) id whole divided files texts := by
  by_cases hw : s.Written settings id
  · have hfiles := fun d => (generate_eq hb { settings with splitsStyles := d } id).trans
      (congrArg Except.ok (filesOf_of_written _ hw d))
    exact .inr ⟨hw, _, _, _, _, hfiles false, hfiles true, s.divides settings (.registered b) id _⟩
  · refine .inl ⟨hw, fun d => ?_⟩
    rw [generate_eq hb, filesOf_of_not_written _ hw]

/-- A base with two styles and an animator. -/
def pairSuite : Suite :=
  ⟨[⟨"App", [.named "Label" [.ofValue "size" (.int 12)], .named "Title" []],
    some (.named "Motion" []), none, false, []⟩], none, some 0⟩

/-- Two styles and an animator, in one file and in three. -/
theorem generate_pairSuite : ∃ whole divided files texts,
    pairSuite.generate { Settings.standard with splitsStyles := false } (.registered 0) =
      .ok [whole] ∧
    pairSuite.generate { Settings.standard with splitsStyles := true } (.registered 0) =
      .ok (divided :: files) ∧
    files.map GeneratedFile.name = ["App.Label.generated.swift", "App.Title.generated.swift"] ∧
    pairSuite.Divides .standard (.registered 0) (.registered 0) whole divided files texts := by
  have hb : pairSuite.base? = some 0 := rfl
  rcases generate_divided hb .standard (.registered 0) with ⟨hnot, -⟩ |
    ⟨-, whole, divided, files, texts, hwhole, hdivided, h⟩
  · exact absurd (fun _ => rfl) hnot
  · exact ⟨whole, divided, files, texts, hwhole, hdivided, h.names.trans (by decide +kernel), h⟩

end Suite

end Appearance
