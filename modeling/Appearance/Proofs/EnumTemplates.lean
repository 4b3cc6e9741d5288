import Appearance.Proofs.Enumerations

/-!
# The enumerations of templates

The fixed parts of generated files declare the enumerations of text styles
(`Code.reads_fontLines`), of animations (`Code.reads_animationLines`) and of themes
(`Code.reads_themeLines`). All else that files hold beside the definitions of stylesheets declares
none: the headers, the manager, the extensions of views, and the classes of styles, which hold no
line that begins like a case either (`Style.lacks_proxyLines`).

A template is written out in the text, so whether a line begins with a word can be computed where
the line begins with fixed characters. Where a name stands first, the line is apart from the words
by what stands before or behind the name (`Code.apart_opening_append`, `Code.apart_override`).
-/

namespace Appearance

open Appearance.Text

namespace Code

variable {words : List (List Char)}

theorem lacks_block {head : String} {body : List String} (h : Apart words closing) :
    Lacks words (block head body) ↔ Apart words (opening head) ∧ Lacks words body := by
  simp [block, h]

theorem lacks_paragraph {part : List String} (h : Apart words "") :
    Lacks words (paragraph part) ↔ Lacks words part := by
  simp [paragraph, h]

/-- A line with a fixed beginning that is written in two parts. -/
theorem apart_append_append {cs ds : List Char} (h : Excludes words (cs ++ ds)) (s : String) :
    Apart words (String.ofList cs ++ (String.ofList ds ++ s)) := by
  rw [← String.append_assoc, ← String.ofList_append]
  exact apart_append h s

theorem apart_opening {cs : List Char} (h : Excludes words cs) :
    Apart words (opening (String.ofList cs)) := apart_append h _

theorem apart_opening_append {cs : List Char} (h : Excludes words cs) (s : String) :
    Apart words (opening (String.ofList cs ++ s)) := by
  rw [opening_append]
  exact apart_append h _

theorem apart_inlineBlock {cs : List Char} (h : Excludes words cs) (body : String) :
    Apart words (inlineBlock (String.ofList cs) body) := by
  rw [inlineBlock, String.append_assoc]
  exact apart_append h _

/-- A line that stores an associated object begins with the name of the call. -/
theorem apart_associate (h : Excludes words ['o', 'b', 'j', 'c', '_']) {handle value : String} :
    Apart words (associate handle value) := by
  have hword : "objc_setAssociatedObject(self, &" =
      String.ofList ['o', 'b', 'j', 'c', '_'] ++ "setAssociatedObject(self, &" := rfl
  unfold associate
  simp only [hword, String.append_assoc]
  exact apart_append h _

theorem apart_associated (h : Excludes words ['g', 'u', 'a', 'r', 'd', ' '])
    {name handle type missing : String} : Apart words (associated name handle type missing) := by
  have hword : "guard let " = String.ofList ['g', 'u', 'a', 'r', 'd', ' '] ++ "let " := rfl
  unfold associated
  simp only [hword, String.append_assoc]
  exact apart_append h _

/-! ## Classes -/

/-- The words with which declarations of enumerations and cases begin. -/
def declaringWords : List (List Char) := caseWord :: enumWords

/-- The words with which accessors of styles and variables of properties begin. -/
def variableWords : List (List Char) :=
  [['p', 'u', 'b', 'l', 'i', 'c', ' ', 'v', 'a', 'r', ' '],
    ['o', 'p', 'e', 'n', ' ', 'v', 'a', 'r', ' '],
    ['o', 'v', 'e', 'r', 'r', 'i', 'd', 'e', ' ', 'p', 'u', 'b', 'l', 'i', 'c', ' ', 'v', 'a', 'r',
      ' '],
    ['o', 'v', 'e', 'r', 'r', 'i', 'd', 'e', ' ', 'o', 'p', 'e', 'n', ' ', 'v', 'a', 'r', ' ']]

/-- The words with which members of option sets begin. -/
def optionWords : List (List Char) :=
  [['s', 't', 'a', 't', 'i', 'c', ' ', 'l', 'e', 't', ' '],
    ['p', 'u', 'b', 'l', 'i', 'c', ' ', 's', 't', 'a', 't', 'i', 'c', ' ', 'l', 'e', 't', ' ']]

/-- The words with which members are declared. -/
def memberWords : List (List Char) := variableWords ++ optionWords

/-- The words with which the other lines of a class do not begin. -/
def bodyWords : List (List Char) := memberWords ++ declaringWords

theorem declaringWords_subset : declaringWords ⊆ bodyWords := List.subset_append_right _ _

theorem memberWords_subset : memberWords ⊆ bodyWords := List.subset_append_left _ _

/-- A line that is open or public begins with one of these two words. -/
theorem apart_access (isOpen : Bool) {cs : List Char} (rest : String)
    (h : Excludes words (['o', 'p', 'e', 'n'] ++ cs) ∧
      Excludes words (['p', 'u', 'b', 'l', 'i', 'c'] ++ cs)) :
    Apart words (access isOpen ++ (String.ofList cs ++ rest)) := by
  cases isOpen
  · exact apart_append_append h.2 _
  · exact apart_append_append h.1 _

theorem mark_override : mark true "override" =
    String.ofList ['o', 'v', 'e', 'r', 'r', 'i', 'd', 'e', ' '] := rfl

/-- Four beginnings are possible where a line may be an override and may be open. -/
theorem apart_override (applies isOpen : Bool) {cs : List Char} (rest : String)
    (h : (Excludes words (['o', 'p', 'e', 'n'] ++ cs) ∧
        Excludes words (['p', 'u', 'b', 'l', 'i', 'c'] ++ cs)) ∧
      Excludes words (['o', 'v', 'e', 'r', 'r', 'i', 'd', 'e', ' ', 'o', 'p', 'e', 'n'] ++ cs) ∧
      Excludes words
        (['o', 'v', 'e', 'r', 'r', 'i', 'd', 'e', ' ', 'p', 'u', 'b', 'l', 'i', 'c'] ++ cs)) :
    Apart words (mark applies "override" ++ (access isOpen ++ (String.ofList cs ++ rest))) := by
  cases applies
  · rw [mark, if_neg Bool.false_ne_true, String.empty_append]
    exact apart_access isOpen rest h.1
  · rw [mark_override, ← String.append_assoc]
    cases isOpen
    · exact apart_append_append h.2.2 _
    · exact apart_append_append h.2.1 _

end Code

open Code

namespace Property

/-- The function of a value declares no variable. -/
theorem lacks_functionLines (manager : Option String) (head : PropertyHead) (value : Value) :
    Lacks bodyWords (functionLines manager head value) := by
  have hreturn : Lacks bodyWords (value.returnLines manager) := by
    refine lacks_map fun statement _ => ?_
    cases statement with
    | returnIf condition value =>
      simp only [Value.Statement.toSwift, String.append_assoc]
      exact apart_append (by decide) _
    | returnAlways value => exact apart_append (by decide) _
  rw [functionLines, lacks_block (apart_ofList (by decide)), lacks_cons]
  refine ⟨?_, ?_, hreturn⟩
  · simp only [opening, functionHead, String.append_assoc]
    exact apart_override _ _ _ (by decide)
  · simp only [inlineBlock, String.append_assoc]
    exact apart_append (by decide) _

/-- The members of a value declare no enumeration and no case. -/
theorem lacks_memberLines (manager : Option String) (head : PropertyHead) (value : Value) :
    Lacks declaringWords (Property.memberLines manager head value) := by
  have hclosing : Apart declaringWords closing := apart_ofList (by decide)
  have hfunction := (lacks_functionLines manager head value).mono declaringWords_subset
  have hvariable : Lacks declaringWords (variableLines head value.swiftType) := by
    simp only [variableLines, lacks_block hclosing, lacks_cons, opening, inlineBlock,
      String.append_assoc]
    exact ⟨apart_append (by decide) _, apart_append (by decide) _, apart_append (by decide) _,
      lacks_nil⟩
  simp only [Property.memberLines, lacks_append, lacks_cons]
  refine ⟨⟨⟨⟨apart_ofList (by decide), apart_append (by decide) _, lacks_nil⟩,
    lacks_ite lacks_nil ?_⟩, hfunction⟩, lacks_ite lacks_nil hvariable⟩
  simp only [storageLine, lacks_cons, String.append_assoc]
  exact ⟨apart_append (by decide) _, lacks_nil⟩

end Property

namespace Style

variable (ctx : ProxyContext)

/-- The lines that apply a style hold neither a variable nor a declaration. -/
theorem lacks_applyLines (head : StyleHead) (properties : List Property) :
    Lacks bodyWords (applyLines head properties) := by
  have hsuper : Lacks bodyWords ["super.apply(view: view)"] :=
    lacks_cons.2 ⟨apart_ofList (by decide), lacks_nil⟩
  rw [applyLines]
  refine lacks_ite lacks_nil ?_
  simp only [lacks_cons, lacks_block (apart_ofList (by decide) : Apart bodyWords closing),
    lacks_append]
  refine ⟨apart_ofList (by decide), ?_, lacks_ite hsuper lacks_nil, lacks_map fun key _ => ?_⟩
  · simp only [opening, String.append_assoc]
    cases head.overridesApply
    · rw [mark, if_neg Bool.false_ne_true, String.empty_append]
      exact apart_append (by decide) _
    · rw [mark_override]
      exact apart_append_append (by decide) _
  · simp only [assignment, String.append_assoc]
    exact apart_append (by decide) _

/-- The initializer of a class holds neither a variable nor a declaration. -/
theorem lacks_initLines : Lacks bodyWords (initLines ctx) := by
  have hsuper : Lacks bodyWords ["super.init()"] :=
    lacks_cons.2 ⟨apart_ofList (by decide), lacks_nil⟩
  simp only [initLines, lacks_cons, opening, String.append_assoc,
    lacks_block (apart_ofList (by decide) : Apart bodyWords closing)]
  exact ⟨apart_append (by decide) _, apart_append (by decide) _, apart_ofList (by decide),
    lacks_ite hsuper lacks_nil⟩

/-- The head of a class is apart from all of these words. -/
theorem apart_classHead (outer : String) (head : StyleHead) :
    Apart bodyWords (opening (classHead ctx outer head)) := by
  simp only [opening, classHead, String.append_assoc]
  cases ctx.settings.objc
  · rw [mark, if_neg Bool.false_ne_true, String.empty_append]
    exact apart_access _ _ (by decide)
  · simp only [mark, if_pos, String.append_assoc]
    exact apart_append (by decide) _

/-- A class declares no enumeration and no case if its members do not. -/
theorem lacks_classLines (outer proxy : String) (head : StyleHead) (properties : List Property)
    {members : List String} (h : Lacks declaringWords members) :
    Lacks declaringWords (classLines ctx outer proxy head properties members) := by
  have hclosing : Apart declaringWords closing := apart_ofList (by decide)
  have haccessor : Lacks declaringWords (accessorLines proxy head) := by
    simp only [accessorLines, lacks_block hclosing, lacks_cons, opening, String.append_assoc]
    exact ⟨apart_override _ _ _ (by decide), apart_append (by decide) _, lacks_nil⟩
  have hinit := (lacks_initLines ctx).mono declaringWords_subset
  have happly := (lacks_applyLines head properties).mono declaringWords_subset
  simp only [classLines, lacks_append, lacks_cons, lacks_block hclosing]
  exact ⟨⟨⟨apart_ofList (by decide), apart_append (by decide) _, lacks_nil⟩, haccessor⟩,
    fun w hw => apart_classHead ctx outer head w (declaringWords_subset hw),
    ⟨lacks_ite hinit lacks_nil, h⟩, happly⟩

/-- The classes of styles hold neither enumerations nor cases. -/
theorem lacks_memberLines (outer : String) (ps : List Property) :
    Lacks declaringWords (memberLines ctx outer ps) := by
  -- on the recursion of the members: of a nested style, those in it come before those behind it
  induction outer, ps using memberLines.induct with
  | case1 outer =>
    rw [memberLines]
    exact lacks_nil
  | case2 outer head value ps ih =>
    rw [memberLines, lacks_append]
    exact ⟨lacks_ite lacks_nil (Property.lacks_memberLines _ head value), ih⟩
  | case3 outer k head properties ps ih ih' =>
    rw [memberLines, lacks_append]
    exact ⟨lacks_classLines ctx _ _ head properties ih, ih'⟩

theorem lacks_proxyLines (sheet : String) (style : Style) :
    Lacks declaringWords (proxyLines ctx sheet style) :=
  lacks_classLines ctx _ _ _ _ (lacks_memberLines ctx _ _)

end Style

namespace Code

/-! ## Cases -/

/-- The name of a case ends where a blank or a parenthesis follows. -/
theorem caseName_append (s : String) {t : String}
    (h : t.toList.head? = some ' ' ∨ t.toList.head? = some '(') :
    caseName (s ++ t) = caseName s := by
  have hend : (t.toList.takeWhile fun c => c != ' ' && c != '(') = [] := by
    cases ht : t.toList with
    | nil => rfl
    | cons c cs =>
      rw [ht] at h
      rcases h with h | h <;> cases h <;> rfl
  rw [caseName, caseName, String.toList_append]
  refine congrArg String.ofList ?_
  induction s.toList with
  | nil => exact hend
  | cons c cs ih => rw [List.cons_append, List.takeWhile_cons, List.takeWhile_cons, ih]

theorem caseName_ofList (cs : List Char) :
    caseName (String.ofList cs) = String.ofList (cs.takeWhile fun c => c != ' ' && c != '(') := by
  rw [caseName, String.toList_ofList]

/-- A line of a case names the case. -/
theorem caseAt?_case (name : String) :
    caseAt? 0 (indentLine (caseOpening ++ name)) = some (caseName name) := by
  have hdepth : depth (caseOpening ++ name) = 0 := by simp [depth, caseOpening]
  have hbare : bare (caseOpening ++ name) = caseOpening ++ name := by
    rw [← String.toList_inj, toList_bare]
    simp [caseOpening]
  have hne : caseOpening ++ name ≠ "" := by simp [caseOpening]
  rw [caseAt?, depth_indentLine hne, hdepth, bare_indentLine, hbare, stripPrefix?_append]
  rfl

theorem filterMap_cases {α : Type} (f : α → String) (l : List α) :
    (indent (l.map fun a => caseOpening ++ f a)).filterMap (caseAt? 0) =
      l.map fun a => caseName (f a) := by
  rw [indent_eq_map, List.map_map, List.filterMap_map]
  simp only [Function.comp_def, caseAt?_case]
  exact congrFun List.filterMap_eq_map' l

/-- What begins otherwise is no case. -/
theorem filterMap_lacks {part : List String} (h : Lacks [caseWord] part) (d : Nat) :
    part.filterMap (caseAt? d) = [] := by
  refine List.filterMap_eq_nil_iff.2 fun line hline => ?_
  rw [caseAt?, caseOpening_eq,
    stripPrefix?_ofList_eq_none (h line hline _ List.mem_cons_self)]
  split <;> rfl

/-- What stands deeper is no case. -/
theorem filterMap_indent_indent (part : List String) :
    (indent (indent part)).filterMap (caseAt? 0) = [] := by
  refine List.filterMap_eq_nil_iff.2 fun line hline => ?_
  simp only [indent_eq_map, List.map_map, List.mem_map, Function.comp_apply] at hline
  obtain ⟨l, -, rfl⟩ := hline
  by_cases hl : l = ""
  · rw [hl]
    decide
  · have hdepth := depth_indentLine hl
    have hne : indentLine l ≠ "" := fun hempty => by
      rw [hempty] at hdepth
      cases hdepth
    rw [caseAt?, depth_indentLine hne, hdepth, if_neg (by omega)]

/-- A block of cases alone. -/
theorem reads_block_cases {α : Type} {head name : String} (f : α → String) (l : List α)
    (hname : enumName? (opening head) = some name) (hdepth : depth (opening head) = 0) :
    Reads (block head (l.map fun a => caseOpening ++ f a))
      [⟨name, l.map fun a => caseName (f a)⟩] := by
  have hcases : Lacks enumWords (l.map fun a => caseOpening ++ f a) :=
    lacks_map fun a _ => apart_append (by decide) _
  rw [← filterMap_cases]
  exact reads_block_enum hname hdepth hcases

/-! ## Fonts and animations -/

/-- The enumeration of the text styles. -/
def textStyleEnumeration (typography : List String) : Enumeration :=
  ⟨Font.textStyleEnum, (textStyles typography).map fun s => caseName s.1⟩

/-- The enumerations of animations. -/
def animationEnumerations (animations : List String) : List Enumeration :=
  [⟨"AnimationRepeatCount", ["infinite", "count"]⟩,
    ⟨"AnimationCurveType", ["native", "timingParameters"]⟩,
    ⟨"AnimationType", animations.map caseName⟩,
    ⟨"AnimatableProp", Animatable.all.map Animatable.name⟩]

/-- The enumeration of themes. -/
def themeEnumeration (themes : List Theme) : Enumeration :=
  ⟨"Theme", themes.map fun t => caseName t.name⟩

/-- The text styles are read back as the one enumeration of the template. -/
theorem reads_textStyleLines (typography : List String) :
    Reads (textStyleLines typography) [textStyleEnumeration typography] := by
  have henum : Reads
      (block ("enum " ++ Font.textStyleEnum ++ ": String")
        ((textStyles typography).map fun s => "case " ++ s.1)) [textStyleEnumeration typography] :=
    reads_block_cases Prod.fst _ (by decide) (by decide)
  have hswitch : Lacks enumWords
      (paragraph (block ("private extension " ++ textStyleType)
        (block "var style: UIFont.TextStyle"
          ("switch self \x7b" ::
            (textStyles typography).map (fun s => "case ." ++ s.1 ++ ": return ." ++ s.2) ++
            [closing])))) := by
    simp only [lacks_paragraph apart_empty, lacks_block apart_closing, lacks_append, lacks_cons,
      lacks_nil, opening, String.append_assoc]
    exact ⟨apart_append (by decide) _, apart_append (by decide) _,
      ⟨apart_ofList (by decide), lacks_map fun s _ => apart_append (by decide) _⟩, apart_closing,
      trivial⟩
  have hhead : Apart enumWords (opening ("public extension " ++ Value.enums)) := by
    rw [opening_append]
    exact apart_append (by decide) _
  exact (henum.block hhead).paragraph.append_lacks hswitch

/-- The rest of the template of fonts declares nothing more. -/
theorem reads_fontLines (typography : List String) (hasSymbolFont : Bool) (manager : String) :
    Reads (fontLines typography hasSymbolFont manager) [textStyleEnumeration typography] := by
  have hsymbols : Lacks enumWords (symbolFontLines manager) := by
    simp only [symbolFontLines, lacks_paragraph apart_empty, lacks_block apart_closing,
      lacks_cons, opening, String.append_assoc]
    exact ⟨apart_append (by decide) _, apart_append (by decide) _, apart_ofList (by decide),
      apart_append (by decide) _, apart_append (by decide) _, apart_closing, lacks_nil⟩
  have hparameters : Lacks enumWords fontParameters := by
    simp only [fontParameters, lacks_cons, String.append_assoc]
    exact ⟨apart_ofList (by decide), apart_ofList (by decide), apart_append (by decide) _,
      apart_ofList (by decide), apart_ofList (by decide), apart_ofList (by decide), lacks_nil⟩
  have hkey : Apart enumWords fontKey := apart_append (by decide) _
  have hlookup : Lacks enumWords fontLookup := by
    simp only [fontLookup, lacks_append, lacks_cons, lacks_block apart_closing]
    exact ⟨⟨apart_ofList (by decide), hkey, lacks_nil⟩, apart_opening (by decide),
      apart_ofList (by decide), lacks_nil⟩
  have hsize : Lacks enumWords fontSize := by
    simp only [fontSize, inlineBlock, lacks_cons, String.append_assoc]
    exact ⟨apart_ofList (by decide), apart_append (by decide) _, apart_ofList (by decide),
      lacks_nil⟩
  have hchoice : Lacks enumWords fontChoice := by
    simp only [fontChoice, lacks_cons]
    exact ⟨apart_ofList (by decide), apart_opening (by decide), apart_ofList (by decide),
      apart_ofList (by decide), apart_ofList (by decide), apart_ofList (by decide),
      apart_ofList (by decide), apart_closing, lacks_nil⟩
  have htraits : Lacks enumWords fontTraits := by
    simp only [fontTraits, lacks_block apart_closing, lacks_cons, opening, String.append_assoc]
    exact ⟨apart_append (by decide) _, apart_ofList (by decide), lacks_nil⟩
  have hscale : Lacks enumWords fontScale := by
    simp only [fontScale, inlineBlock, lacks_block apart_closing, lacks_cons, opening,
      String.append_assoc]
    exact ⟨apart_append (by decide) _, apart_append (by decide) _, apart_ofList (by decide),
      lacks_nil⟩
  have hfunction : Lacks enumWords fontFunction := by
    simp only [fontFunction, lacks_append, lacks_block apart_closing, lacks_paragraph apart_empty,
      lacks_cons]
    exact ⟨hparameters, apart_opening (by decide), ⟨⟨⟨⟨hlookup, hsize⟩, hchoice⟩, htraits⟩,
      hscale⟩, apart_ofList (by decide), apart_ofList (by decide), lacks_nil⟩
  have hcache : Lacks enumWords (paragraph ["private var fontCache = [String: UIFont]()"]) :=
    (lacks_paragraph apart_empty).2 (lacks_cons.2 ⟨apart_ofList (by decide), lacks_nil⟩)
  have hfont : Lacks enumWords (paragraph (block "extension UIFont" fontFunction)) := by
    simp only [lacks_paragraph apart_empty, lacks_block apart_closing]
    exact ⟨apart_opening (by decide), hfunction⟩
  exact (((reads_textStyleLines typography).append_lacks
    (lacks_ite hsymbols lacks_nil)).append_lacks hcache).append_lacks hfont

theorem lacks_changeLines (name : String) {cases : List String} (h : Lacks enumWords cases) :
    Lacks enumWords (changeLines name cases) := by
  simp only [changeLines, lacks_block apart_closing, lacks_append, lacks_cons, opening,
    String.append_assoc]
  exact ⟨apart_append (by decide) _, ⟨apart_append (by decide) _, h⟩, apart_closing, lacks_nil⟩

theorem reads_enumBlock (head name : String) (cases : List String)
    (hname : enumName? (opening ("public enum " ++ head)) = some name)
    (hdepth : depth (opening ("public enum " ++ head)) = 0) :
    Reads (paragraph (enumBlock head cases)) [⟨name, cases.map caseName⟩] :=
  (reads_block_cases id cases hname hdepth).paragraph

/-- The template of animations is read back as its enumerations. -/
theorem reads_animationLines (animations : List String) :
    Reads (animationLines animations) (animationEnumerations animations) := by
  have hkeyFrame : Lacks enumWords (paragraph (block "public struct KeyFrame"
        ["public var relativeStartTime: CGFloat", "public var relativeDuration: CGFloat?",
          "public var values: [AnimatableProp]"])) := by
    simp only [lacks_paragraph apart_empty, lacks_block apart_closing, lacks_cons]
    exact ⟨apart_opening (by decide), apart_ofList (by decide), apart_ofList (by decide),
      apart_ofList (by decide), lacks_nil⟩
  have hstart : Lacks enumWords (Animatable.all.map startCase) := lacks_map fun p _ => by
    simp only [startCase, String.append_assoc]
    exact apart_append (by decide) _
  have hfinish : Lacks enumWords (Animatable.all.map finishCase) := lacks_map fun p _ => by
    simp only [finishCase, String.append_assoc]
    exact apart_append (by decide) _
  have hchanges : Lacks enumWords (paragraph (block "public extension AnimatableProp"
        (paragraph (changeLines "applyFrom" (Animatable.all.map startCase)) ++
          changeLines "applyTo" (Animatable.all.map finishCase)))) := by
    simp only [lacks_paragraph apart_empty, lacks_block apart_closing, lacks_append]
    exact ⟨apart_opening (by decide), lacks_changeLines _ hstart, lacks_changeLines _ hfinish⟩
  have hrepeat := reads_enumBlock "AnimationRepeatCount" "AnimationRepeatCount"
    ["infinite", "count(Int)"] (by decide) (by decide)
  have hcurve := reads_enumBlock "AnimationCurveType" "AnimationCurveType"
    ["native(UIView.AnimationCurve)", "timingParameters(UITimingCurveProvider)"]
    (by decide) (by decide)
  have htype := reads_enumBlock "AnimationType" "AnimationType" animations (by decide) (by decide)
  have hprop := reads_enumBlock "AnimatableProp: Equatable" "AnimatableProp"
    (Animatable.all.map fun p => p.name ++ "(from: CGFloat?, to: CGFloat)") (by decide) (by decide)
  have hcount : ["infinite", "count(Int)"].map caseName = ["infinite", "count"] := by
    rw [List.map_cons, List.map_cons, List.map_nil, caseName_ofList, caseName_ofList]
    rfl
  have hnative : ["native(UIView.AnimationCurve)",
      "timingParameters(UITimingCurveProvider)"].map caseName = ["native", "timingParameters"] := by
    rw [List.map_cons, List.map_cons, List.map_nil, caseName_ofList, caseName_ofList]
    rfl
  have hprops : (Animatable.all.map fun p => p.name ++ "(from: CGFloat?, to: CGFloat)").map
      caseName = Animatable.all.map Animatable.name := by
    rw [List.map_map]
    refine List.map_congr_left fun p _ => ?_
    rw [Function.comp_apply, caseName_append _ (.inr (by simp))]
    cases p <;> rw [Animatable.name, caseName_ofList] <;> rfl
  rw [hcount] at hrepeat
  rw [hnative] at hcurve
  rw [hprops] at hprop
  exact (reads_append (reads_append (reads_append (hrepeat.lacks_append hkeyFrame) hcurve)
    htype) hprop).append_lacks hchanges

/-! ## Themes -/

/-- A line is apart from the words with or without the attribute in front. -/
theorem apart_objc (objc : Bool) {cs : List Char} (rest : String)
    (h : Excludes enumWords (['@', 'o', 'b', 'j', 'c', ' '] ++ cs) ∧ Excludes enumWords cs) :
    Apart enumWords (mark objc "@objc" ++ (String.ofList cs ++ rest)) := by
  cases objc
  · rw [mark, if_neg Bool.false_ne_true, String.empty_append]
    exact apart_append h.2 _
  · rw [mark, if_pos rfl]
    exact apart_append_append h.1 _

/-- What stands in the enumeration of themes: the cases, and the stylesheet of each. -/
def themeMembers (base : String) (themes : List Theme) : List String :=
  paragraph (themes.map fun t => caseOpening ++ t.name) ++
    block ("public var stylesheet: " ++ base)
      (opening "switch self" ::
        themes.map (fun t => "case ." ++ t.name ++ ": return " ++ t.type ++ ".shared()") ++
        [closing])

/-- The members of the themes declare no enumeration. -/
theorem lacks_themeMembers (base : String) (themes : List Theme) :
    Lacks enumWords (themeMembers base themes) := by
  simp only [themeMembers, lacks_block apart_closing, lacks_paragraph apart_empty, lacks_append,
    lacks_cons, String.append_assoc]
  rw [opening_append]
  exact ⟨lacks_map fun t _ => apart_append (by decide) _, apart_append (by decide) _,
    ⟨apart_opening (by decide), lacks_map fun t _ => apart_append (by decide) _⟩, apart_closing,
    lacks_nil⟩

/-- Among the members of the themes only the themes are cases. -/
theorem filterMap_themeMembers (base : String) (themes : List Theme) :
    (indent (themeMembers base themes)).filterMap (caseAt? 0) =
      themes.map fun t => caseName t.name := by
  have hopen : Lacks [caseWord] (indent ["", opening ("public var stylesheet: " ++ base)]) := by
    rw [lacks_indent, lacks_cons, lacks_cons, opening_append]
    exact ⟨apart_ofList (by decide), apart_append (by decide) _, lacks_nil⟩
  have hclose : Lacks [caseWord] (indent [closing]) := by
    rw [lacks_indent, lacks_cons]
    exact ⟨apart_ofList (by decide), lacks_nil⟩
  have hparts : ∀ cases inner : List String,
      indent (paragraph cases ++ block ("public var stylesheet: " ++ base) inner) =
        indent cases ++ (indent ["", opening ("public var stylesheet: " ++ base)] ++
          (indent (indent inner) ++ indent [closing])) := fun cases inner => by
    simp [indent_eq_map, paragraph, block]
  rw [themeMembers, hparts, List.filterMap_append, List.filterMap_append, List.filterMap_append,
    filterMap_cases, filterMap_lacks hopen, filterMap_indent_indent, filterMap_lacks hclose]
  simp

/-- The enumeration of themes is read back with one case for each theme. -/
theorem reads_themeEnumLines (objc : Bool) (base : String) (themes : List Theme) :
    Reads (themeEnumLines objc base themes) [themeEnumeration themes] := by
  have hread : ∀ head, enumName? (opening head) = some "Theme" → depth (opening head) = 0 →
      Reads (block head (themeMembers base themes)) [themeEnumeration themes] := by
    intro head hname hdepth
    rw [themeEnumeration, ← filterMap_themeMembers base]
    exact reads_block_enum hname hdepth (lacks_themeMembers base themes)
  cases objc
  · exact (hread "public enum Theme: Int" (by decide) (by decide)).paragraph
  · exact (hread "@objc public enum Theme: Int" (by decide) (by decide)).paragraph

/-- What is kept in the defaults declares nothing. -/
theorem lacks_userDefaultsLines : Lacks enumWords userDefaultsLines := by
  simp only [userDefaultsLines, lacks_block apart_closing, lacks_paragraph apart_empty,
    lacks_append, lacks_cons]
  exact ⟨apart_opening (by decide), ⟨apart_opening (by decide), apart_inlineBlock (by decide) _,
    apart_inlineBlock (by decide) _, lacks_nil⟩, apart_opening (by decide),
    ⟨apart_opening (by decide), ⟨apart_opening (by decide), apart_ofList (by decide), lacks_nil⟩,
      apart_ofList (by decide), lacks_nil⟩, apart_inlineBlock (by decide) _, lacks_nil⟩

/-- The enumeration of themes is read back wherever it is placed. -/
theorem reads_placedThemeEnum (settings : Settings) (base : String) (themes : List Theme) :
    Reads (placedThemeEnum settings base themes) [themeEnumeration themes] := by
  have henum := reads_themeEnumLines settings.objc base themes
  unfold placedThemeEnum
  split
  · next outer _ =>
    have hhead : Lacks enumWords [opening ("extension " ++ outer)] :=
      lacks_cons.2 ⟨apart_opening_append (by decide) _, lacks_nil⟩
    exact (henum.lacks_append hhead).append_lacks (lacks_cons.2 ⟨apart_closing, lacks_nil⟩)
  · exact henum

/-- The theme of a view declares nothing. -/
theorem lacks_ownThemeLines (type first : String) :
    Lacks enumWords (ownThemeLines type first) := by
  unfold ownThemeLines
  simp only [lacks_block apart_closing, lacks_append, lacks_cons]
  exact ⟨apart_opening_append (by decide) _,
    ⟨apart_opening (by decide), apart_associated (by decide), apart_ofList (by decide), lacks_nil⟩,
    apart_opening (by decide), apart_associate (by decide), apart_ofList (by decide),
    apart_ofList (by decide), lacks_nil⟩

/-- The manager of themes declares nothing. -/
theorem lacks_themedManagerLines (settings : Settings) (base type first : String) :
    Lacks enumWords (themedManagerLines settings base type first) := by
  have hcurrent : Lacks enumWords (paragraph (block ("static func currentTheme() -> " ++ base)
      ["return " ++ settings.manager ++ ".default.theme.stylesheet"])) := by
    simp only [lacks_paragraph apart_empty, lacks_block apart_closing, lacks_cons,
      String.append_assoc]
    exact ⟨apart_opening_append (by decide) _, apart_append (by decide) _, lacks_nil⟩
  have hkeys : Lacks enumWords (paragraph (block "private struct DefaultKeys"
      ["static let theme = \"" ++ settings.manager ++ ".theme\""])) := by
    simp only [lacks_paragraph apart_empty, lacks_block apart_closing, lacks_cons,
      String.append_assoc]
    exact ⟨apart_opening (by decide), apart_append (by decide) _, lacks_nil⟩
  have hinit : Lacks enumWords (themeInitLines type first) := by
    unfold themeInitLines
    simp only [lacks_block apart_closing, lacks_cons, String.append_assoc]
    exact ⟨apart_opening (by decide), apart_append (by decide) _, apart_associate (by decide),
      lacks_nil⟩
  have hfollowed : ∀ followed, Lacks enumWords (followedThemeLines type first followed) := by
    intro followed
    unfold followedThemeLines
    simp only [lacks_block apart_closing, lacks_cons, String.append_assoc]
    exact ⟨apart_opening_append (by decide) _, apart_append (by decide) _, lacks_nil⟩
  unfold themedManagerLines
  rw [lacks_paragraph apart_empty, lacks_block apart_closing]
  refine ⟨apart_opening_append (by decide) _, ?_⟩
  split
  · exact lacks_append.2 ⟨hcurrent, hfollowed _⟩
  · exact lacks_append.2 ⟨lacks_append.2 ⟨lacks_append.2 ⟨hcurrent, hkeys⟩,
      (lacks_paragraph apart_empty).2 (lacks_ownThemeLines type first)⟩, hinit⟩

/-- The template of themes is read back as the enumeration of themes. -/
theorem reads_themeLines (settings : Settings) (base : String) (themes : List Theme) :
    Reads (themeLines settings base themes) [themeEnumeration themes] := by
  have hempty : Lacks enumWords [""] := lacks_cons.2 ⟨apart_empty, lacks_nil⟩
  have hhandle : Lacks enumWords
      (paragraph ["fileprivate var " ++ themeHandle ++ ": UInt8 = 0"]) := by
    rw [lacks_paragraph apart_empty, lacks_cons, String.append_assoc]
    exact ⟨apart_append (by decide) _, lacks_nil⟩
  have henum := reads_placedThemeEnum settings base themes
  exact (((henum.lacks_append (lacks_ite lacks_userDefaultsLines lacks_nil)).append_lacks
    (lacks_ite hhandle lacks_nil)).append_lacks
      (lacks_themedManagerLines settings base _ _)).lacks_append hempty

/-! ## What is passed over -/

/-- The head of a file declares nothing. -/
theorem lacks_headerLines (settings : Settings) : Lacks enumWords (headerLines settings) := by
  refine lacks_append.2 ⟨?_, fun line hline => ?_⟩
  · simp only [lacks_cons]
    exact ⟨apart_ofList (by decide), apart_empty, apart_ofList (by decide),
      apart_ofList (by decide), lacks_nil⟩
  · obtain ⟨name, -, rfl⟩ := Option.map_eq_some_iff.1 (Option.mem_toList.1 hline)
    exact apart_append (by decide) _

theorem lacks_protocolLines : Lacks enumWords protocolLines := by
  unfold protocolLines
  simp only [lacks_block apart_closing, lacks_paragraph apart_empty, lacks_append, lacks_cons]
  exact ⟨⟨apart_ofList (by decide), apart_opening (by decide), apart_ofList (by decide),
    apart_inlineBlock (by decide) _, apart_inlineBlock (by decide) _, apart_ofList (by decide),
    lacks_nil⟩, apart_opening (by decide), apart_opening (by decide), apart_ofList (by decide),
    apart_ofList (by decide), lacks_nil⟩

theorem lacks_managerClassLines (settings : Settings) (base : String) :
    Lacks enumWords (managerClassLines settings base) := by
  have hsuper : Lacks enumWords ["super.init()"] :=
    lacks_cons.2 ⟨apart_ofList (by decide), lacks_nil⟩
  unfold managerClassLines
  simp only [lacks_paragraph apart_empty, lacks_block apart_closing, lacks_append, lacks_cons,
    String.append_assoc]
  refine ⟨?_, ⟨⟨⟨?_, apart_ofList (by decide), lacks_nil⟩, ⟨apart_append (by decide) _,
    lacks_nil⟩⟩, ⟨apart_opening_append (by decide) _, apart_ofList (by decide), lacks_nil⟩⟩,
    lacks_ite lacks_nil ?_⟩
  · rw [opening_append]
    cases settings.objc
    · rw [mark, if_neg Bool.false_ne_true, String.empty_append, opening_append]
      exact apart_append (by decide) _
    · rw [mark, if_pos rfl, String.append_assoc]
      exact apart_append (by decide) _
  · rw [opening_append, opening_append]
    exact apart_objc _ _ (by decide)
  · simp only [lacks_block apart_closing, lacks_append, lacks_cons]
    exact ⟨apart_empty, apart_opening_append (by decide) _, lacks_ite hsuper lacks_nil,
      apart_ofList (by decide), lacks_nil⟩

/-- The template of the manager declares nothing. -/
theorem lacks_managerLines (settings : Settings) (base : String) :
    Lacks enumWords (managerLines settings base) := by
  have hsize : Lacks enumWords contentSizeLines := by
    unfold contentSizeLines
    simp only [lacks_paragraph apart_empty, lacks_block apart_closing, lacks_cons]
    exact ⟨apart_opening (by decide), apart_opening_append (by decide) _,
      apart_ofList (by decide), lacks_nil⟩
  have hnotification : Lacks enumWords (notificationLines settings.manager) := by
    unfold notificationLines
    simp only [lacks_paragraph apart_empty, lacks_block apart_closing, lacks_cons,
      String.append_assoc]
    exact ⟨apart_opening (by decide), apart_append (by decide) _, lacks_nil⟩
  have htheming : Lacks enumWords (themingLines settings.manager base) := by
    unfold themingLines
    simp only [lacks_paragraph apart_empty, lacks_block apart_closing, lacks_append, lacks_cons,
      String.append_assoc]
    exact ⟨⟨apart_opening_append (by decide) _, apart_append (by decide) _,
      apart_ofList (by decide), lacks_nil⟩, apart_opening_append (by decide) _,
      ⟨apart_opening_append (by decide) _, apart_append (by decide) _, lacks_nil⟩,
      apart_opening (by decide), lacks_nil⟩
  exact lacks_append.2 ⟨lacks_append.2 ⟨lacks_append.2 ⟨lacks_ite hsize lacks_nil,
    lacks_ite lacks_nil hnotification⟩, htheming⟩, lacks_managerClassLines settings base⟩

/-- The extensions of views declare nothing. -/
theorem lacks_viewExtensionLines (ctx : ViewContext) (sheet : Stylesheet) :
    Lacks enumWords (viewExtensionLines ctx sheet) := by
  have hhandles : Lacks enumWords handleLines := lacks_map fun h _ => by
    rw [String.append_assoc]
    exact apart_append (by decide) _
  have hproxy : ∀ style heirs, Lacks enumWords (proxyVariable ctx style heirs) := by
    intro style heirs
    have hheir : ∀ heir : Style, Lacks enumWords
        (block ("if proxy is " ++ (ctx.baseType ++ ("." ++ heir.className)))
          ["return " ++ (ctx.current ++ ("." ++ heir.name))]) := fun heir => by
      rw [lacks_block apart_closing, lacks_cons]
      exact ⟨apart_opening_append (by decide) _, apart_append (by decide) _, lacks_nil⟩
    unfold proxyVariable
    simp only [lacks_block apart_closing, lacks_paragraph apart_empty, lacks_append, lacks_cons,
      String.append_assoc]
    exact ⟨apart_opening (by decide), ⟨apart_opening (by decide),
      ⟨apart_opening_append (by decide) _,
        ⟨⟨apart_inlineBlock (by decide) _, lacks_nil⟩, lacks_flatMap fun heir _ => hheir heir⟩,
        apart_ofList (by decide), lacks_nil⟩,
      apart_append (by decide) _, lacks_nil⟩,
      apart_opening (by decide), apart_associate (by decide), apart_ofList (by decide), lacks_nil⟩
  have haware : Lacks enumWords awareVariable := by
    unfold awareVariable
    simp only [lacks_block apart_closing, lacks_append, lacks_cons]
    exact ⟨apart_opening (by decide), ⟨apart_opening (by decide), apart_associated (by decide),
      apart_ofList (by decide), lacks_nil⟩, apart_opening (by decide), apart_associate (by decide),
      apart_ofList (by decide), lacks_nil⟩
  have hobserving : Lacks enumWords observingVariable := by
    unfold observingVariable
    simp only [lacks_block apart_closing, lacks_append, lacks_cons, String.append_assoc]
    exact ⟨apart_opening (by decide), ⟨apart_opening (by decide), apart_associated (by decide),
      apart_ofList (by decide), lacks_nil⟩, apart_opening (by decide),
      apart_inlineBlock (by decide) _, apart_opening (by decide), apart_append (by decide) _,
      apart_ofList (by decide), apart_append (by decide) _, apart_closing,
      apart_associate (by decide), lacks_nil⟩
  have hview : ∀ style heirs, Lacks enumWords (viewLines ctx style heirs) := by
    intro style heirs
    unfold viewLines
    simp only [lacks_block apart_closing, lacks_paragraph apart_empty, lacks_append, lacks_cons,
      String.append_assoc]
    exact ⟨apart_empty, apart_opening_append (by decide) _, ⟨⟨apart_empty,
      apart_append (by decide) _, hproxy _ _⟩, haware⟩, hobserving⟩
  unfold viewExtensionLines
  dsimp only
  split
  · exact lacks_nil
  · exact lacks_cons.2 ⟨apart_empty, lacks_append.2 ⟨hhandles, lacks_flatMap fun _ _ => hview _ _⟩⟩

end Code

end Appearance
