import Appearance.Proofs.PlainTexts
import Mathlib.Data.Option.Basic

/-!
# Classes in generated code

The scopes of generated code are read for the classes that they stand for: a scope that is headed
like a class is one, with the functions and the classes that stand directly in it (`ClassTree`). The
function of a value is told from others by the stored override that it tests first; the name in its
head has to agree (`Code.function?`).

The text of a style is read back as the tree of the style: its braces are balanced, there is one
class for each style at every depth, the classes of nested styles stand directly in that of the
style around them, in order, and the functions of a class are those of the values that are not
global, in order, and the one that applies the style (`Style.scopes_proxyLines`).

A part of the lines that is silent (`Silent`) may stand anywhere and opens no class; a part that
mirrors a list of functions and classes (`Mirrors`) is read as these lists. Every kind of line that
a style is printed as is one or the other, so the induction over the style only has to put them
side by side.
-/

namespace Appearance

open Appearance.Text

/-- A function of a class: that of a value, by its key, or another one. -/
inductive DeclaredFunction where
  | ofValue (key : String)
  | other (head : String)
  deriving DecidableEq, Repr

/-- A class with the functions and classes that are declared directly in it. -/
inductive ClassTree where
  | mk (head : String) (functions : List DeclaredFunction) (nested : List ClassTree)

/-- What stands before the opening brace. -/
def Scope.head : Scope → String
  | mk head _ => head

namespace Code

/-! ## Reading -/

/-- How the heads of classes begin; the name for Objective-C stands before classes only. -/
def classOpenings : List String := ["open class ", "public class ", "@objc("]

/-- How the heads of functions begin. -/
def functionOpenings : List String :=
  ["open func ", "public func ", "override open func ", "override public func "]

/-- The text begins with one of the words. -/
def beginsWith (words : List String) (s : String) : Bool :=
  words.any fun w => w.toList.isPrefixOf s.toList

/-- The head of the test for a stored override, up to the key. -/
def overrideOpening : String := "if let override = _"

/-- The key whose stored override is tested first. -/
def testedKey? : List Scope → Option String
  | .mk test _ :: _ =>
    (stripPrefix? overrideOpening test).map fun rest => String.ofList rest.toList.dropLast
  | [] => none

/-- The function that a scope is, if it is one. -/
def function? : Scope → Option DeclaredFunction
  | .mk head inner =>
    if beginsWith functionOpenings head then
      some <|
        match testedKey? inner with
        | some key =>
          if beginsWith (functionOpenings.map (· ++ key ++ functionSuffix ++ "(")) head then
            .ofValue key
          else .other head
        | none => .other head
    else none

mutual

def classTreeOf : Scope → ClassTree
  | .mk head inner => ⟨head, inner.filterMap function?, classTreesIn inner⟩

/-- The classes that stand directly among scopes. -/
def classTreesIn : List Scope → List ClassTree
  | [] => []
  | s :: rest =>
    if beginsWith classOpenings s.head then classTreeOf s :: classTreesIn rest
    else classTreesIn rest

end

mutual

def classCountOf : Scope → Nat
  | .mk head inner => (if beginsWith classOpenings head then 1 else 0) + classCountIn inner

/-- The number of classes in scopes, at every depth. -/
def classCountIn : List Scope → Nat
  | [] => 0
  | s :: rest => classCountOf s + classCountIn rest

end

/-- The classes of scopes side by side are those of either part. -/
theorem classTreesIn_append (found found' : List Scope) :
    classTreesIn (found ++ found') = classTreesIn found ++ classTreesIn found' := by
  induction found with
  | nil => rfl
  | cons s found ih =>
    rw [List.cons_append, classTreesIn, classTreesIn, ih]
    split <;> rfl

theorem classCountIn_append (found found' : List Scope) :
    classCountIn (found ++ found') = classCountIn found + classCountIn found' := by
  induction found with
  | nil => rw [List.nil_append, classCountIn, Nat.zero_add]
  | cons s found ih => rw [List.cons_append, classCountIn, classCountIn, ih, Nat.add_assoc]

/-! ## Heads -/

/-- The characters with which the heads of classes begin. -/
def classWords : List (List Char) :=
  [['o', 'p', 'e', 'n', ' ', 'c', 'l', 'a', 's', 's', ' '],
    ['p', 'u', 'b', 'l', 'i', 'c', ' ', 'c', 'l', 'a', 's', 's', ' '],
    ['@', 'o', 'b', 'j', 'c', '(']]

/-- The characters with which the heads of functions begin. -/
def functionWords : List (List Char) :=
  [['o', 'p', 'e', 'n', ' ', 'f', 'u', 'n', 'c', ' '],
    ['p', 'u', 'b', 'l', 'i', 'c', ' ', 'f', 'u', 'n', 'c', ' '],
    ['o', 'v', 'e', 'r', 'r', 'i', 'd', 'e', ' ', 'o', 'p', 'e', 'n', ' ', 'f', 'u', 'n', 'c', ' '],
    ['o', 'v', 'e', 'r', 'r', 'i', 'd', 'e', ' ', 'p', 'u', 'b', 'l', 'i', 'c', ' ', 'f', 'u', 'n',
      'c', ' ']]

theorem classOpenings_eq : classOpenings = classWords.map String.ofList := rfl

theorem functionOpenings_eq : functionOpenings = functionWords.map String.ofList := rfl

theorem beginsWith_append {words : List String} {w : String} (hw : w ∈ words) (s : String) :
    beginsWith words (w ++ s) = true :=
  List.any_eq_true.2 ⟨w, hw, List.isPrefixOf_iff_prefix.2 (by simp)⟩

theorem beginsWith_eq_false {words : List (List Char)} {line : String} (h : Apart words line) :
    beginsWith (words.map String.ofList) (bare line) = false := by
  rw [beginsWith, List.any_map, List.any_eq_false]
  intro w hw
  simpa using h w hw

theorem bare_class {w : List Char} (hw : w ∈ classWords) (s : String) :
    bare (String.ofList w ++ s) = String.ofList w ++ s := by
  have hall : ∀ w ∈ classWords, (w.head?.any fun c => !(c == '\t')) = true := by decide
  exact bare_append (hall w hw) s

theorem bare_function {w : List Char} (hw : w ∈ functionWords) (s : String) :
    bare (String.ofList w ++ s) = String.ofList w ++ s := by
  have hall : ∀ w ∈ functionWords, (w.head?.any fun c => !(c == '\t')) = true := by decide
  exact bare_append (hall w hw) s

theorem apart_class {w : List Char} (hw : w ∈ functionWords) (s : String) :
    Apart classWords (String.ofList w ++ s) := by
  have hall : ∀ w ∈ functionWords, Excludes classWords w := by decide
  exact apart_append (hall w hw) s

theorem apart_function {w : List Char} (hw : w ∈ classWords) (s : String) :
    Apart functionWords (String.ofList w ++ s) := by
  have hall : ∀ w ∈ classWords, Excludes functionWords w := by decide
  exact apart_append (hall w hw) s

/-- How a declaration begins that may override and may be open. -/
def declarationWord : Bool → Bool → List Char
  | false, false => ['p', 'u', 'b', 'l', 'i', 'c']
  | false, true => ['o', 'p', 'e', 'n']
  | true, false => ['o', 'v', 'e', 'r', 'r', 'i', 'd', 'e', ' ', 'p', 'u', 'b', 'l', 'i', 'c']
  | true, true => ['o', 'v', 'e', 'r', 'r', 'i', 'd', 'e', ' ', 'o', 'p', 'e', 'n']

theorem mark_append_access (isOverride isOpen : Bool) :
    mark isOverride "override" ++ access isOpen =
      String.ofList (declarationWord isOverride isOpen) := by
  cases isOverride <;> cases isOpen <;> rfl

theorem plain_declaration (isOverride isOpen : Bool) {cs : List Char}
    (h : ∀ c ∈ cs, isText c = true) :
    Plain (mark isOverride "override" ++ access isOpen ++ String.ofList cs) :=
  plain_append.2 ⟨plain_append.2 ⟨plain_mark (plain_literal (by decide)), plain_access _⟩,
    plain_literal h⟩

/-! ## Classes of lines -/

theorem function?_eq_none {text : String} (h : Apart functionWords text) (inner : List Scope) :
    function? (.mk (bare text) inner) = none := by
  have hhead := beginsWith_eq_false h
  rw [← functionOpenings_eq] at hhead
  rw [function?, hhead, if_neg nofun]

theorem isClass_eq_false {text : String} (h : Apart classWords text) :
    beginsWith classOpenings (bare text) = false := by
  have hhead := beginsWith_eq_false h
  rwa [← classOpenings_eq] at hhead

/-- Reading the lines adds scopes with the functions and classes, and with that many classes at
every depth. -/
def Mirrors (part : List String) (functions : List DeclaredFunction) (classes : List ClassTree)
    (count : Nat) : Prop :=
  ∃ found, Encloses part found ∧ found.filterMap function? = functions ∧
    classTreesIn found = classes ∧ classCountIn found = count

variable {part part' : List String} {functions functions' : List DeclaredFunction}
  {classes classes' : List ClassTree} {count count' : Nat}

theorem mirrors_nil : Mirrors [] [] [] 0 := ⟨[], encloses_nil, rfl, rfl, rfl⟩

/-- Parts that are read one after the other mirror what both of them mirror. -/
theorem Mirrors.append (h : Mirrors part functions classes count)
    (h' : Mirrors part' functions' classes' count') :
    Mirrors (part ++ part') (functions ++ functions') (classes ++ classes') (count + count') := by
  obtain ⟨found, hfound, rfl, rfl, rfl⟩ := h
  obtain ⟨found', hfound', rfl, rfl, rfl⟩ := h'
  exact ⟨found ++ found', hfound.append hfound', List.filterMap_append,
    classTreesIn_append found found', classCountIn_append found found'⟩

/-- The lines stand for nothing that is read. -/
def Silent (part : List String) : Prop := Mirrors part [] [] 0

theorem silent_nil : Silent [] := mirrors_nil

theorem Silent.append (h : Silent part) (h' : Silent part') : Silent (part ++ part') :=
  Mirrors.append h h'

theorem Silent.append_mirrors (h : Silent part) (h' : Mirrors part' functions classes count) :
    Mirrors (part ++ part') functions classes count := by
  simpa using Mirrors.append h h'

theorem Mirrors.append_silent (h : Mirrors part functions classes count) (h' : Silent part') :
    Mirrors (part ++ part') functions classes count := by
  simpa using h.append h'

theorem silent_line {line : String} (h : Plain line) : Silent [line] :=
  ⟨[], encloses_line h, rfl, rfl, rfl⟩

theorem silent_lines (h : ∀ line ∈ part, Plain line) : Silent part :=
  ⟨[], encloses_lines h, rfl, rfl, rfl⟩

/-- Lines that are made one by one are silent if each of them is. -/
theorem silent_map {α : Type} {f : α → String} {l : List α} (h : ∀ a ∈ l, Silent [f a]) :
    Silent (l.map f) := by
  induction l with
  | nil => exact silent_nil
  | cons a l ih =>
    obtain ⟨ha, hl⟩ := List.forall_mem_cons.1 h
    exact ha.append (ih hl)

/-- The words with which heads of classes and functions begin. -/
def scopeWords : List (List Char) := classWords ++ functionWords

/-- A scope with another head is passed over, if no class stands in it. -/
theorem silent_of_encloses {found : List Scope} {text : String}
    (h : Encloses part [.mk (bare text) found]) (hapart : Apart scopeWords text)
    (hcount : classCountIn found = 0) : Silent part := by
  have hclass : beginsWith classOpenings (bare text) = false :=
    isClass_eq_false fun w hw => hapart w (List.mem_append_left _ hw)
  have hfunction := function?_eq_none (fun w hw => hapart w (List.mem_append_right _ hw)) found
  refine ⟨_, h, ?_, ?_, ?_⟩
  · rw [List.filterMap_cons_none hfunction, List.filterMap_nil]
  · rw [classTreesIn, Scope.head, hclass, if_neg nofun, classTreesIn]
  · rw [classCountIn, classCountOf, hclass, if_neg nofun, hcount]
    rfl

theorem Silent.block (h : Silent part) {head : String} (hhead : Plain head)
    (hapart : Apart scopeWords (head ++ " ")) : Silent (block head part) := by
  obtain ⟨found, hfound, -, -, hcount⟩ := h
  exact silent_of_encloses (hfound.block hhead) hapart hcount

theorem silent_braced {before body behind : String} (hbefore : Plain before) (hbody : Plain body)
    (hbehind : Plain behind) (hapart : Apart scopeWords before) :
    Silent [before ++ braced body ++ behind] :=
  silent_of_encloses (encloses_braced hbefore hbody hbehind) hapart rfl

theorem silent_inlineBlock {head body : String} (hhead : Plain head) (hbody : Plain body)
    (hapart : Apart scopeWords (head ++ " ")) : Silent [inlineBlock head body] :=
  silent_of_encloses (encloses_inlineBlock hhead hbody) hapart rfl

/-- A block that is headed like a class is one. -/
theorem Mirrors.block_class (h : Mirrors part functions classes count) {w : List Char}
    (hw : w ∈ classWords) {rest : String} (hhead : Plain (String.ofList w ++ rest)) :
    Mirrors (block (String.ofList w ++ rest) part) []
      [⟨String.ofList w ++ rest ++ " ", functions, classes⟩] (1 + count) := by
  obtain ⟨found, hfound, rfl, rfl, rfl⟩ := h
  have hblock := hfound.block hhead
  have hbegins : beginsWith classOpenings (String.ofList w ++ (rest ++ " ")) = true :=
    beginsWith_append (classOpenings_eq ▸ List.mem_map_of_mem hw) _
  have hfunction := function?_eq_none (apart_function hw (rest ++ " ")) found
  rw [bare_class hw] at hfunction
  rw [String.append_assoc, bare_class hw] at hblock
  rw [String.append_assoc]
  refine ⟨_, hblock, ?_, ?_, ?_⟩
  · rw [List.filterMap_cons_none hfunction, List.filterMap_nil]
  · rw [classTreesIn, Scope.head, if_pos hbegins, classTreesIn, classTreeOf]
  · rw [classCountIn, classCountOf, if_pos hbegins, classCountIn, Nat.add_zero]

/-- A block that is headed like a function is one, if no class stands in it. -/
theorem mirrors_function {inner : List Scope} (h : Encloses part inner)
    (hcount : classCountIn inner = 0) {w : List Char} (hw : w ∈ functionWords) {rest : String}
    (hhead : Plain (String.ofList w ++ rest)) {f : DeclaredFunction}
    (hf : function? (.mk (String.ofList w ++ (rest ++ " ")) inner) = some f) :
    Mirrors (block (String.ofList w ++ rest) part) [f] [] 0 := by
  have hblock := h.block hhead
  have hclass := isClass_eq_false (apart_class hw (rest ++ " "))
  rw [bare_function hw] at hclass
  rw [String.append_assoc, bare_function hw] at hblock
  refine ⟨_, hblock, ?_, ?_, ?_⟩
  · rw [List.filterMap_cons_some hf, List.filterMap_nil]
  · rw [classTreesIn, Scope.head, hclass, if_neg nofun, classTreesIn]
  · rw [classCountIn, classCountOf, hclass, if_neg nofun, hcount]
    rfl

theorem beginsWith_function {w : List Char} (hw : w ∈ functionWords) (s : String) :
    beginsWith functionOpenings (String.ofList w ++ s) = true :=
  beginsWith_append (functionOpenings_eq ▸ List.mem_map_of_mem hw) s

/-- The test for the override of a key. -/
def overrideTest (key : String) : Scope := .mk (overrideOpening ++ key ++ " ") []

theorem bare_overrideTest (key : String) :
    bare (overrideOpening ++ key ++ " ") = overrideOpening ++ key ++ " " := by
  rw [String.append_assoc]
  exact bare_append (by decide) _

theorem testedKey?_overrideTest (key : String) (inner : List Scope) :
    testedKey? (overrideTest key :: inner) = some key := by
  have hkey : (key ++ " ").toList.dropLast = key.toList := by simp
  rw [overrideTest, testedKey?, String.append_assoc, stripPrefix?_append, Option.map_some, hkey,
    String.ofList_toList]

theorem classCountOf_overrideTest (key : String) : classCountOf (overrideTest key) = 0 := by
  have hapart : Apart classWords (overrideOpening ++ key ++ " ") := by
    rw [String.append_assoc]
    exact apart_append (by decide) _
  have hclass := isClass_eq_false hapart
  rw [bare_overrideTest] at hclass
  rw [overrideTest, classCountOf, hclass, if_neg nofun, classCountIn]

/-- A function that tests the override of the key in its name is that of a value. -/
theorem function?_ofValue {w : List Char} (hw : w ∈ functionWords) (key rest : String)
    (inner : List Scope) :
    function? (.mk (String.ofList w ++ (key ++ functionSuffix ++ "(" ++ rest))
      (overrideTest key :: inner)) = some (.ofValue key) := by
  have hkey : beginsWith (functionOpenings.map (· ++ key ++ functionSuffix ++ "("))
      (String.ofList w ++ (key ++ functionSuffix ++ "(" ++ rest)) = true := by
    have hmem : String.ofList w ++ key ++ functionSuffix ++ "(" ∈
        functionOpenings.map (· ++ key ++ functionSuffix ++ "(") :=
      List.mem_map_of_mem (functionOpenings_eq ▸ List.mem_map_of_mem hw)
    have := beginsWith_append hmem rest
    simpa only [String.append_assoc] using this
  rw [function?, if_pos (beginsWith_function hw _), testedKey?_overrideTest]
  dsimp only
  rw [if_pos hkey]

theorem function?_other {w : List Char} (hw : w ∈ functionWords) (s : String) :
    function? (.mk (String.ofList w ++ s) []) = some (.other (String.ofList w ++ s)) := by
  rw [function?, if_pos (beginsWith_function hw s)]
  rfl

end Code

open Code

/-! ## Values -/

/-- The value that a statement returns. -/
def Value.Statement.value : Value.Statement → Value
  | returnIf _ value => value
  | returnAlways value => value

/-- The values that are returned are branches of the value. -/
theorem Value.plainTexts_of_mem_returnStatements {manager : Option String} {v : Value}
    (h : v.PlainTexts manager) {statement : Statement} (hs : statement ∈ v.returnStatements) :
    statement.value.PlainTexts manager := by
  unfold returnStatements at hs
  split at hs
  · next branches =>
    have hbranches := plainBranches_iff.1 h
    rcases List.mem_append.1 hs with hs | hs
    · obtain ⟨b, hb, rfl⟩ := List.mem_map.1 hs
      exact hbranches b (List.mem_of_mem_filter hb)
    · rw [Option.mem_toList] at hs
      obtain ⟨value, hvalue, rfl⟩ := Option.map_eq_some_iff.1 hs
      obtain ⟨b, hb, rfl⟩ := Option.map_eq_some_iff.1 hvalue
      refine hbranches b ?_
      rcases (Option.orElse_eq_some _ _ _).1 hb with hb | ⟨-, hb⟩
      · exact List.mem_of_find?_eq_some hb
      · exact List.mem_of_getLast? hb
  · rw [List.mem_singleton.1 hs]
    exact h

namespace Property

open Value

/-- A statement that returns a value opens no scope. -/
theorem silent_statement {manager : Option String} {statement : Value.Statement}
    (h : statement.value.PlainTexts manager) : Silent [statement.toSwift manager] := by
  cases statement with
  | returnIf condition value =>
    have hline : Value.Statement.toSwift manager (.returnIf condition value) =
        inlineBlock ("if " ++ condition.toSwift) ("return " ++ value.toSwift manager) := by
      rw [← String.toList_inj]
      simp [Value.Statement.toSwift, inlineBlock, braced]
    rw [hline]
    refine silent_inlineBlock (plain_behind (by decide) condition.plain_toSwift)
      (plain_behind (by decide) (value.plain_toSwift h)) ?_
    rw [String.append_assoc]
    exact apart_append (by decide) _
  | returnAlways value =>
    exact silent_line (plain_behind (by decide) (value.plain_toSwift h))

theorem silent_returnLines {manager : Option String} {value : Value}
    (h : value.PlainTexts manager) : Silent (value.returnLines manager) :=
  silent_map fun _ hstatement => silent_statement (plainTexts_of_mem_returnStatements h hstatement)

/-- The function of a value is the one function that its lines declare. -/
theorem mirrors_functionLines {manager : Option String} {head : PropertyHead} {value : Value}
    (hkey : Plain head.key) (h : value.PlainTexts manager) :
    Mirrors (functionLines manager head value) [.ofValue head.key] [] 0 := by
  have hwords : ∀ isOverride isOpen,
      declarationWord isOverride isOpen ++ [' ', 'f', 'u', 'n', 'c', ' '] ∈ functionWords := by
    decide
  have htest : Plain (overrideOpening ++ head.key) := plain_behind (by decide) hkey
  obtain ⟨found, hfound, -, -, hcount⟩ := silent_returnLines h
  have hbody : Encloses (inlineBlock (overrideOpening ++ head.key) "return override" ::
      value.returnLines manager) (overrideTest head.key :: found) := by
    have hline := encloses_inlineBlock htest (plain_literal (by decide) : Plain "return override")
    rw [bare_overrideTest] at hline
    exact hline.append hfound
  have hhead : functionHead head value.swiftType =
      String.ofList (declarationWord head.isOverride head.isOverridable ++
        [' ', 'f', 'u', 'n', 'c', ' ']) ++ (head.key ++ functionSuffix ++ "(" ++
          (traitParameter ++ ") -> " ++ value.swiftType)) := by
    rw [functionHead, mark_append_access, String.ofList_append]
    simp only [String.append_assoc]
  have hparameter : Plain (traitParameter ++ ") -> " ++ value.swiftType) :=
    plain_append.2 ⟨plain_append.2 ⟨plain_literal (by decide), plain_literal (by decide)⟩,
      value.plain_swiftType h⟩
  have hname : Plain (head.key ++ functionSuffix ++ "(") :=
    plain_append.2 ⟨plain_append.2 ⟨hkey, plain_literal (by decide)⟩, plain_literal (by decide)⟩
  have hplain : Plain (functionHead head value.swiftType) := by
    rw [hhead, String.ofList_append, ← mark_append_access]
    exact plain_append.2 ⟨plain_declaration _ _ (by decide), plain_append.2 ⟨hname, hparameter⟩⟩
  rw [hhead] at hplain
  rw [functionLines, hhead]
  refine mirrors_function hbody ?_ (hwords _ _) hplain ?_
  · rw [classCountIn, hcount, classCountOf_overrideTest]
  · rw [String.append_assoc]
    exact function?_ofValue (hwords _ _) _ _ _

/-- The stored override of a value declares no function. -/
theorem silent_variableLines {head : PropertyHead} {type : String} (hkey : Plain head.key)
    (htype : Plain type) : Silent (variableLines head type) := by
  have hhead : Plain ("public var " ++ identifier head.key ++ ": " ++ type) :=
    plain_append.2 ⟨plain_between (by decide) (plain_identifier hkey), htype⟩
  have hget : Silent [inlineBlock "get" ("return self." ++ head.key ++ functionSuffix ++ "()")] :=
    silent_inlineBlock (plain_literal (by decide))
      (plain_append.2 ⟨plain_between (by decide) hkey, plain_literal (by decide)⟩)
      (apart_append (by decide) _)
  have hset : Silent [inlineBlock "set" ("_" ++ head.key ++ " = newValue")] :=
    silent_inlineBlock (plain_literal (by decide)) (plain_between (by decide) hkey)
      (apart_append (by decide) _)
  refine (hget.append hset).block hhead ?_
  simp only [String.append_assoc]
  exact apart_append (by decide) _

/-- The members of a value hold its function and nothing else that is read. -/
theorem mirrors_memberLines {manager : Option String} {head : PropertyHead} {value : Value}
    (hkey : Plain head.key) (h : value.PlainTexts manager) :
    Mirrors (Property.memberLines manager head value) [.ofValue head.key] [] 0 := by
  have htype := value.plain_swiftType h
  have htitle : Silent ["", "//MARK: " ++ head.key] :=
    (silent_line (plain_literal (by decide))).append (silent_line (plain_behind (by decide) hkey))
  have hstorage : Silent (if head.isOverride then [] else [storageLine head value.swiftType]) := by
    split
    · exact silent_nil
    · exact silent_line (plain_append.2 ⟨plain_append.2 ⟨plain_between (by decide) hkey, htype⟩,
        plain_literal (by decide)⟩)
  have hvariable : Silent (if head.isOverride then [] else variableLines head value.swiftType) := by
    split
    · exact silent_nil
    · exact silent_variableLines hkey htype
  exact ((htitle.append hstorage).append_mirrors (mirrors_functionLines hkey h)).append_silent
    hvariable

end Property

namespace Style

/-! ## Styles -/

/-- The head of the function that applies a style to a view. -/
def applyHead (head : StyleHead) : String :=
  mark head.overridesApply "override" ++ "public func apply(view: " ++ head.viewClass ++ ")"

/-- The function that applies a style to a view, if there is one. -/
def applyFunction (head : StyleHead) (properties : List Property) : List DeclaredFunction :=
  if !head.isApplicable || (head.overridesApply && (appliedKeys properties).isEmpty) then []
  else [.other (applyHead head ++ " ")]

mutual

/-- The class that a style stands for: the functions are those of its values that are not global, in
order, and the one that applies it. -/
def classTree (ctx : ProxyContext) (outer : String) : Style → ClassTree
  | mk head properties =>
    ⟨classHead ctx outer head ++ " ",
      (appliedKeys properties).map .ofValue ++ applyFunction head properties,
      nestedTrees ctx (objcName outer head) properties⟩

/-- The classes of the nested styles among properties, in order. -/
def nestedTrees (ctx : ProxyContext) (outer : String) : List Property → List ClassTree
  | [] => []
  | .leaf .. :: ps => nestedTrees ctx outer ps
  | .nested _ style :: ps => classTree ctx outer style :: nestedTrees ctx outer ps

end

mutual

/-- The number of styles, at every depth. -/
def count : Style → Nat
  | mk _ properties => 1 + nestedCount properties

def nestedCount : List Property → Nat
  | [] => 0
  | .leaf .. :: ps => nestedCount ps
  | .nested _ style :: ps => count style + nestedCount ps

end

/-- An accessor declares no function and no class. -/
theorem silent_accessorLines {proxy : String} {head : StyleHead} (h : head.PlainNames)
    (hreturn : Silent ["return " ++ head.className ++ "(proxy: " ++ proxy ++ ")"]) :
    Silent (accessorLines proxy head) := by
  have hwords : ∀ isOverride isOpen, Excludes scopeWords
      (declarationWord isOverride isOpen ++ [' ', 'v', 'a', 'r', ' ']) := by decide
  refine hreturn.block ?_ ?_
  · exact plain_append.2 ⟨plain_append.2 ⟨plain_append.2 ⟨plain_declaration _ _ (by decide),
      plain_identifier h.name⟩, plain_literal (by decide)⟩, h.accessor⟩
  · simp only [mark_append_access, String.append_assoc]
    exact apart_append_append (hwords _ _) _

theorem silent_initLines {ctx : ProxyContext} (hbase : Plain ctx.baseType) :
    Silent (initLines ctx) := by
  have hhead : Plain ("public init(proxy: @escaping () -> " ++ ctx.baseType ++ ")") :=
    plain_between (by decide) hbase
  have hbody : Silent ("self.mainProxy = proxy" ::
      if ctx.settings.objc then ["super.init()"] else []) := by
    refine silent_lines (List.forall_mem_cons.2 ⟨plain_literal (by decide), ?_⟩)
    split
    · exact List.forall_mem_singleton.2 (plain_literal (by decide))
    · exact List.forall_mem_nil _
  refine (silent_line (plain_behind (by decide) hbase)).append (hbody.block hhead ?_)
  simp only [String.append_assoc]
  exact apart_append (by decide) _

/-- The head of the function that applies a style begins like a function. -/
theorem exists_applyHead (head : StyleHead) :
    ∃ w ∈ functionWords, ∃ rest, applyHead head = String.ofList w ++ rest := by
  have hwords : ∀ isOverride,
      declarationWord isOverride false ++ [' ', 'f', 'u', 'n', 'c', ' '] ∈ functionWords := by
    decide
  refine ⟨_, hwords head.overridesApply, "apply(view: " ++ head.viewClass ++ ")", ?_⟩
  rw [applyHead, ← String.toList_inj]
  cases head.overridesApply <;> simp [mark, declarationWord]

/-- The lines that apply a style declare at most the function that does so. -/
theorem mirrors_applyLines {head : StyleHead} {properties : List Property} (h : head.PlainNames)
    (hkeys : ∀ key ∈ appliedKeys properties, Plain key) :
    Mirrors (applyLines head properties) (applyFunction head properties) [] 0 := by
  have hplain : Plain (applyHead head) :=
    plain_append.2 ⟨plain_append.2 ⟨plain_append.2 ⟨plain_mark (plain_literal (by decide)),
      plain_literal (by decide)⟩, h.viewClass⟩, plain_literal (by decide)⟩
  have hbody : Encloses ((if head.overridesApply then ["super.apply(view: view)"] else []) ++
      (appliedKeys properties).map assignment) [] := by
    refine encloses_lines (List.forall_mem_append.2 ⟨?_, List.forall_mem_map.2 fun key hkey => ?_⟩)
    · split
      · exact List.forall_mem_singleton.2 (plain_literal (by decide))
      · exact List.forall_mem_nil _
    · have hplain := hkeys key hkey
      exact plain_append.2 ⟨plain_between (by decide) (plain_replaceChar '_' (by decide) hplain),
        plain_identifier hplain⟩
  obtain ⟨w, hw, rest, hrest⟩ := exists_applyHead head
  unfold applyLines applyFunction
  dsimp only
  split
  · exact mirrors_nil
  · refine (silent_line (plain_literal (by decide))).append_mirrors ?_
    rw [hrest] at hplain
    rw [← applyHead, hrest, String.append_assoc]
    exact mirrors_function hbody rfl hw hplain (function?_other hw _)

/-- The head of a generated class begins like a class. -/
theorem exists_classHead (ctx : ProxyContext) (outer : String) (head : StyleHead) :
    ∃ w ∈ classWords, ∃ rest, classHead ctx outer head = String.ofList w ++ rest := by
  have hwords : ∀ isOpen,
      declarationWord false isOpen ++ [' ', 'c', 'l', 'a', 's', 's', ' '] ∈ classWords := by decide
  have haccess : ∀ isOpen, access isOpen = String.ofList (declarationWord false isOpen) :=
    fun isOpen => (String.empty_append).symm.trans (mark_append_access false isOpen)
  unfold classHead
  cases ctx.settings.objc
  · refine ⟨_, hwords (head.isOverridable || head.isNestedOverridable),
      head.className ++ inherits head.inherits, ?_⟩
    rw [mark, if_neg Bool.false_ne_true, String.empty_append, haccess, String.ofList_append]
    simp [String.append_assoc]
  · refine ⟨['@', 'o', 'b', 'j', 'c', '('], by decide, objcName outer head ++ ") @objcMembers " ++
      access (head.isOverridable || head.isNestedOverridable) ++ " class " ++ head.className ++
      inherits (head.inherits <|> some "NSObject"), ?_⟩
    rw [← String.toList_inj]
    simp [mark]

theorem plain_objcName {outer : String} {head : StyleHead} (houter : Plain outer)
    (h : head.PlainNames) : Plain (objcName outer head) :=
  plain_append.2 ⟨houter, plain_firstUpper h.classStem⟩

/-- The head of a class is plain if the names in it are. -/
theorem plain_classHead {ctx : ProxyContext} {outer : String} {head : StyleHead}
    (houter : Plain outer) (h : head.PlainNames) : Plain (classHead ctx outer head) := by
  have hattribute : Plain ("@objc(" ++ objcName outer head ++ ") @objcMembers") :=
    plain_between (by decide) (plain_objcName houter h)
  have hinherits : Plain (inherits
      (head.inherits <|> if ctx.settings.objc then some "NSObject" else none)) := by
    cases htype : head.inherits with
    | some type => exact plain_behind (by decide) (h.inherits type htype)
    | none =>
      cases ctx.settings.objc
      · exact (plain_literal (by decide) : Plain "")
      · exact (plain_behind (by decide) (plain_literal (by decide)) : Plain (": " ++ "NSObject"))
  exact plain_append.2 ⟨plain_append.2 ⟨plain_append.2 ⟨plain_append.2 ⟨plain_mark hattribute,
    plain_access _⟩, plain_literal (by decide)⟩, h.className⟩, hinherits⟩

/-- The class of a style holds what its members hold. -/
theorem mirrors_classLines {ctx : ProxyContext} {outer proxy : String} {head : StyleHead}
    {properties : List Property} {members : List String} {functions : List DeclaredFunction}
    {classes : List ClassTree} {n : Nat} (hbase : Plain ctx.baseType) (houter : Plain outer)
    (h : head.PlainNames) (hkeys : ∀ key ∈ appliedKeys properties, Plain key)
    (hreturn : Silent ["return " ++ head.className ++ "(proxy: " ++ proxy ++ ")"])
    (hmembers : Mirrors members functions classes n) :
    Mirrors (classLines ctx outer proxy head properties members) []
      [⟨classHead ctx outer head ++ " ", functions ++ applyFunction head properties, classes⟩]
      (1 + n) := by
  have htitle : Silent ["", "//MARK: - " ++ head.name] :=
    (silent_line (plain_literal (by decide))).append
      (silent_line (plain_behind (by decide) h.name))
  have hinit : Silent (if head.inherits.isNone then initLines ctx else []) := by
    split
    · exact silent_initLines hbase
    · exact silent_nil
  have hbody := (hinit.append_mirrors hmembers).append (mirrors_applyLines h hkeys)
  rw [List.append_nil, Nat.add_zero] at hbody
  have hplain : Plain (classHead ctx outer head) := plain_classHead houter h
  obtain ⟨w, hw, rest, hrest⟩ := exists_classHead ctx outer head
  rw [hrest] at hplain
  rw [classLines, hrest]
  have hfront := htitle.append (silent_accessorLines h hreturn)
  exact hfront.append_mirrors (hbody.block_class hw hplain)

theorem appliedKeys_leaf (head : PropertyHead) (value : Value) (ps : List Property) :
    appliedKeys (.leaf head value :: ps) =
      if value.isGlobal then appliedKeys ps else head.key :: appliedKeys ps := by
  rw [appliedKeys, List.filterMap_cons]
  split <;> simp_all [appliedKeys]

/-- The keys that are applied are plain if all names of the style are. -/
theorem plain_appliedKeys {manager : Option String} {properties : List Property}
    (h : PlainTextsIn manager properties) : ∀ key ∈ appliedKeys properties, Plain key := by
  induction properties with
  | nil => exact List.forall_mem_nil _
  | cons p ps ih =>
    cases p with
    | leaf head value =>
      obtain ⟨⟨hkey, -⟩, hps⟩ := h
      rw [appliedKeys_leaf]
      split
      · exact ih hps
      · exact List.forall_mem_cons.2 ⟨hkey, ih hps⟩
    | nested head style => exact ih h.2

/-- The members of a class hold the functions of the values and the classes of the nested styles. -/
theorem mirrors_memberLines {ctx : ProxyContext} (hbase : Plain ctx.baseType) {outer : String}
    (houter : Plain outer) {ps : List Property}
    (h : PlainTextsIn ctx.settings.frameworkManager? ps) :
    Mirrors (memberLines ctx outer ps) ((appliedKeys ps).map .ofValue) (nestedTrees ctx outer ps)
      (nestedCount ps) := by
  -- on the recursion of the members: of a nested style, those in it come before those behind it
  induction outer, ps using memberLines.induct with
  | case1 outer =>
    rw [memberLines, nestedTrees, nestedCount]
    exact mirrors_nil
  | case2 outer head value ps ih =>
    obtain ⟨⟨hkey, hvalue⟩, hps⟩ := h
    rw [memberLines, appliedKeys_leaf]
    split
    · exact silent_nil.append_mirrors (ih houter hps)
    · have hmembers := (Property.mirrors_memberLines hkey hvalue).append (ih houter hps)
      rwa [Nat.zero_add] at hmembers
  | case3 outer k head properties ps ih ih' =>
    obtain ⟨⟨hhead, hproperties⟩, hps⟩ := h
    have hreturn : Silent ["return " ++ head.className ++ "(proxy: " ++ "mainProxy" ++ ")"] :=
      silent_line (plain_append.2 ⟨plain_append.2 ⟨plain_between (by decide) hhead.className,
        plain_literal (by decide)⟩, plain_literal (by decide)⟩)
    have hmembers := ih (plain_objcName houter hhead) hproperties
    have hclass := mirrors_classLines hbase houter hhead (plain_appliedKeys hproperties) hreturn
      hmembers
    rw [memberLines, nestedTrees, nestedCount, classTree, count]
    exact hclass.append (ih' houter hps)

theorem scopes_proxyLines {ctx : ProxyContext} {sheet : String} {style : Style}
    (hbase : Plain ctx.baseType) (hsheet : Plain sheet)
    (h : style.PlainTexts ctx.settings.frameworkManager?) :
    ∃ found, scopes (unlines (indent (style.proxyLines ctx sheet))) = some found ∧
      Balanced (unlines (indent (style.proxyLines ctx sheet))) ∧
      classTreesIn found = [style.classTree ctx sheet] ∧ classCountIn found = style.count := by
  obtain ⟨head, properties⟩ := style
  obtain ⟨hhead, hproperties⟩ := h
  have hreturn : Silent
      ["return " ++ head.className ++ "(proxy: " ++ braced "return self" ++ ")"] := by
    refine silent_braced (plain_between (by decide) hhead.className) (plain_literal (by decide))
      (plain_literal (by decide)) ?_
    rw [String.append_assoc]
    exact apart_append (by decide) _
  have hmembers := mirrors_memberLines hbase (plain_objcName hsheet hhead) hproperties
  obtain ⟨found, hfound, -, hclasses, hcount⟩ :=
    mirrors_classLines hbase hsheet hhead (plain_appliedKeys hproperties) hreturn hmembers
  have hscopes := hfound.indent.scopes
  exact ⟨found, hscopes, balanced_of_scopes hscopes, hclasses, hcount⟩

/-- The names of a style that is known by its name only. -/
theorem plainNames_named {name : String} (h : Plain name) : (StyleHead.named name).PlainNames where
  name := h
  overrideName := nofun
  viewClass := plain_literal (by decide)
  inherits := nofun
  accessorType := nofun

/-- A run for Objective-C over the stylesheet `Base`. -/
def objcContext : ProxyContext := ⟨{ Settings.standard with objc := true }, "Base"⟩

/-- A style with a conditional value, a definition and a nested style. -/
def panel : Style :=
  .named "Panel"
    [.ofValue "width" (.conditional
      [(⟨"width>1", [.comparison "width>1" .width .greaterThan (.constant (.ofInt 1))]⟩, .int 2),
        (⟨"default", [.always "default"]⟩, .int 1)]),
      .ofValue "mode" (.enumDef "Mode" ["on", "off"]),
      .ofStyle (.named "Title" [.ofValue "text" (.call "S.Key.title" "String")])]

/-- The names and the values of the panel are plain. -/
theorem plainTexts_panel : panel.PlainTexts none := by
  have hkeys : Plain (Property.keyOf "width") ∧ Plain (Property.keyOf "mode") ∧
      Plain (Property.keyOf "text") := by decide +kernel
  have htitle : (Style.named "Title" [.ofValue "text" (.call "S.Key.title" "String")]).PlainTexts
      none :=
    ⟨plainNames_named (plain_literal (by decide)),
      ⟨hkeys.2.2, plain_literal (by decide), plain_literal (by decide)⟩, trivial⟩
  exact ⟨plainNames_named (plain_literal (by decide)), ⟨hkeys.1, trivial, trivial, trivial⟩,
    ⟨hkeys.2.1, plain_literal (by decide)⟩, htitle, trivial⟩

/-- The text of a panel with a title nested in it is read back as its tree. -/
theorem scopes_proxyLines_panel :
    Plain objcContext.baseType ∧ Plain "Sheet" ∧
      panel.PlainTexts objcContext.settings.frameworkManager? ∧
      ∃ found, scopes (unlines (indent (panel.proxyLines objcContext "Sheet"))) = some found ∧
        Balanced (unlines (indent (panel.proxyLines objcContext "Sheet"))) ∧
        classTreesIn found = [panel.classTree objcContext "Sheet"] ∧
        classCountIn found = panel.count := by
  have hbase : Plain objcContext.baseType := plain_literal (by decide)
  have hsheet : Plain "Sheet" := plain_literal (by decide)
  exact ⟨hbase, hsheet, plainTexts_panel, scopes_proxyLines hbase hsheet plainTexts_panel⟩

end Style

end Appearance
