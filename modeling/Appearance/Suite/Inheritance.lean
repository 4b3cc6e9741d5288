import Appearance.Settings
import Appearance.Suite.Extension

/-!
# Inheritance between styles

The class of a style derives from that of the same style of the base stylesheet, or from the one
that its declaration extends, and so on: its `Ancestor`s, the nearest first. `Suite.withInheritance`
finds them for every style of a stylesheet and marks what overrides what.

A style is *opened* if others may derive from it: every style of the base stylesheet, and every
style that another one of its stylesheet extends.

`Suite.ancestorsFrom` climbs by name from ground to ground: the styles of the own stylesheet that
are done, the base, the imported stylesheet. Styles are marked in the order of extension, so an
ancestor on the own ground is marked before its heirs, and an ancestor on another ground belongs to
a stylesheet that was finished earlier or is never changed. Pairs of ground and name that were met
are remembered, so the climb ends on circular declarations too; the number of steps it is given is
never used up.

A property overrides if any ancestor has a value under its key (`Ancestor.hasValue`), and a nested
style overrides the one of its name in the nearest ancestor that has it.
-/

namespace Appearance

open Appearance.Text

/-- Where an ancestor is looked up. -/
inductive Ground where
  /-- Among the styles of the same stylesheet that are done. -/
  | own
  | base (id : SheetId)
  | imported
  deriving DecidableEq, Repr

/-- A style from which another one derives, with the path of its class. -/
structure Ancestor where
  path : String
  style : Style

namespace Ancestor

/-- The type of the accessor that an heir overrides. -/
def accessorType (a : Ancestor) : String := a.style.head.accessorType.getD a.path

/-- The style nested in an ancestor under a name. -/
def nested? (name : String) (a : Ancestor) : Option Ancestor :=
  (a.style.nested? name).map fun nested => ⟨a.path ++ "." ++ nested.className, nested⟩

/-- The ancestor has a value under a key. -/
def hasValue (key : String) (a : Ancestor) : Bool :=
  match a.style.property? key with
  | some (.leaf ..) => true
  | _ => false

end Ancestor

namespace Style

/-! ## Opening -/

mutual

/-- Opens a style and everything in it. -/
def opened : Style → Style
  | mk head properties => mk { head with isOverridable := true } (openedEach properties)

/-- Opens properties and the styles nested in them. -/
def openedEach : List Property → List Property
  | [] => []
  | .leaf head value :: ps => .leaf { head with isOverridable := true } value :: openedEach ps
  | .nested head style :: ps =>
    let style := opened style
    .nested { head with isOverridable := true }
      (style.withHead { style.head with isNestedOverridable := true }) :: openedEach ps

end

/-- Opens the accessors of nested styles with one of the names. -/
def openNested (names : List String) (style : Style) : Style :=
  mk style.head <| style.properties.map fun
    | .nested head nested =>
      if names.contains nested.name then
        .nested head (nested.withHead { nested.head with isNestedOverridable := true })
      else .nested head nested
    | p => p

/-- The names that more than one of the nested styles have. -/
def sharedNames (styles : List Style) : List String :=
  let names := styles.flatMap fun s => s.nestedStyles.map Style.name
  names.filter fun n => 1 < names.count n

/-! ## Marking -/

/-- The head of an heir. It is applied to views if an ancestor is, and then in its stead. -/
def heirHead (head : StyleHead) (ancestors : List Ancestor) : StyleHead :=
  match ancestors.find? (·.style.head.isApplicable) with
  | some a =>
    { head with viewClass := if head.isApplicable then head.viewClass else a.style.head.viewClass
                isApplicable := true, overridesApply := true }
  | none => head

/-- The head of a nested style. It overrides the nested style of the same name in an ancestor of
the style around it, whose class name begins with `stem`. -/
def nestedHeirHead (stem : String) (head : StyleHead) (ancestors : List Ancestor) : StyleHead :=
  match ancestors with
  | [] => head
  | a :: _ =>
    { head with isOverride := true, overrideName := some (stem ++ firstUpper head.name)
                inherits := some a.path, accessorType := some a.accessorType }

/-- Marks which properties of a style override those of its ancestors, at every depth. They are
open if the style is. -/
def inheritingEach (style : StyleHead) : List Property → List Ancestor → List Property
  | [], _ => []
  | .leaf head value :: ps, ancestors =>
    .leaf ⟨head.key, ancestors.any (Ancestor.hasValue head.key),
        head.isOverridable || style.isOverridable⟩ value :: inheritingEach style ps ancestors
  | .nested head (.mk nested properties) :: ps, ancestors =>
    let found := ancestors.filterMap (Ancestor.nested? nested.name)
    let nested := heirHead (nestedHeirHead style.classStem nested found) found
    .nested { head with isOverridable := head.isOverridable || style.isOverridable }
      (mk nested (inheritingEach nested properties found)) :: inheritingEach style ps ancestors

/-- A style as an heir of its ancestors. -/
def inheriting (style : Style) (ancestors : List Ancestor) : Style :=
  let head := heirHead style.head ancestors
  mk head (inheritingEach head style.properties ancestors)

end Style

namespace Suite

/-! ## Ancestors -/

/-- The style of a name on a ground; `done` are the styles of the own stylesheet that are done, the
latest first. -/
def styleOn? (s : Suite) (done : List Style) (ground : Ground) (name : String) : Option Style :=
  match ground with
  | .own => done.find? (·.name == name)
  | .base id => s.find? id name
  | .imported => s.importedId?.bind fun id => s.find? id name

/-- The path of the class of a style on a ground. -/
def classPath (s : Suite) (settings : Settings) (id : SheetId) (ground : Ground) (style : Style) :
    String :=
  match ground with
  | .own => (s.sheet id).name ++ "." ++ style.className
  | .base base => (s.sheet base).name ++ "." ++ style.className
  | .imported =>
    settings.frameworkPrefix ++ (s.sheet .imported).name ++ "." ++ style.className

/-- Where the next ancestor after a style is. -/
def nextAncestor? (s : Suite) (id : SheetId) (ground : Ground) (style : Style) :
    Option (Ground × String) :=
  if style.head.isOverride && ground = .own then
    (s.superclass? id).map fun base => (.base base, style.name)
  else
    style.head.superclass.map fun name =>
      (if style.head.extendsImported then .imported else ground, name)

/-- The ancestors from a ground and a name on, up to one that is not found or was met before. -/
def ancestorsFrom (s : Suite) (settings : Settings) (id : SheetId) (done : List Style) :
    Nat → List (Ground × String) → Ground × String → List Ancestor
  | 0, _, _ => []
  | steps + 1, met, next =>
    if next ∈ met then []
    else
      match s.styleOn? done next.1 next.2 with
      | none => []
      | some style =>
        ⟨s.classPath settings id next.1 style, style⟩ ::
          match s.nextAncestor? id next.1 style with
          | some after => ancestorsFrom s settings id done steps (met ++ [next]) after
          | none => []

/-- The number of styles of a suite. No list of different ancestors is longer than it. -/
def styleCount (s : Suite) : Nat := (s.sheets.flatMap Stylesheet.allStyles).length

/-- A style that extends an unknown one. -/
def unknownStyle (s : Suite) (id : SheetId) (style : Style) (superclass : String) : SuiteError :=
  .unknownStyle (s.sheet id).name style.name superclass

/-- The base stylesheet of the one at a place, if it has a style of that name. -/
def baseWith? (s : Suite) (id : SheetId) (name : String) : Option SheetId :=
  (s.superclass? id).filter fun base => (s.find? base name).isSome

/-- The ground and the name of the superclass in a declaration. -/
def declaredAncestor? (s : Suite) (id : SheetId) (done : List Style) (style : Style) :
    Except SuiteError (Option (Ground × String)) :=
  match style.head.superclass with
  | none => .ok none
  | some superclass =>
    if style.head.extendsImported then .ok (some (.imported, superclass))
    else if done.any (·.name == superclass) then .ok (some (.own, superclass))
    else
      match s.baseWith? id superclass with
      | some base => .ok (some (.base base, superclass))
      | none => .error (s.unknownStyle id style superclass)

/-- A style that overrides one of the base stylesheet. -/
def overriding (s : Suite) (id : SheetId) (style : Style) : Style :=
  style.withHead { style.head with
    isOverride := true, overrideName := some ((s.sheet id).name ++ style.name) }

/-- A style with the ancestors that begin at a ground and a name. -/
def heir (s : Suite) (settings : Settings) (id : SheetId) (done : List Style) (style : Style)
    (first : Ground × String) : Except SuiteError Style :=
  match s.ancestorsFrom settings id done (s.styleCount + 1) [] first with
  | [] => .error (s.unknownStyle id style first.2)
  | a :: rest =>
    let head := { style.head with
      inherits := some a.path
      accessorType := if style.head.isOverride then some a.accessorType
        else style.head.accessorType }
    .ok ((style.withHead head).inheriting (a :: rest))

/-- A style that extends one of a framework whose stylesheet is not at hand. -/
def derivingUnseen (s : Suite) (settings : Settings) (id : SheetId) (style : Style)
    (superclass : String) : Except SuiteError Style :=
  match settings.framework with
  | none => .error (s.unknownStyle id style superclass)
  | some f =>
    let path := settings.frameworkPrefix ++ f.stylesheet ++ "." ++ superclass ++ "AppearanceProxy"
    .ok ((style.withHead { style.head with inherits := some path }).inheriting [])

/-- A top-level style of a stylesheet with its inheritance marked; `done` are the styles before
it. -/
def inheritingStyle (s : Suite) (settings : Settings) (id : SheetId) (done : List Style)
    (style : Style) : Except SuiteError Style :=
  match s.baseWith? id style.name with
  | some base => s.heir settings id done (s.overriding id style) (.base base, style.name)
  | none =>
    match s.declaredAncestor? id done style with
    | .error e => .error e
    | .ok none => .ok (style.inheriting [])
    | .ok (some (ground, superclass)) =>
      if ground = .imported && s.imported.isNone then
        s.derivingUnseen settings id style superclass
      else s.heir settings id done style (ground, superclass)

/-! ## Stylesheets -/

/-- The styles of a stylesheet, opened as far as others derive from them. -/
def openStyles (sheet : Stylesheet) : List Style :=
  let extended := sheet.styles.filterMap Style.localSuperclass?
  let styles := sheet.styles.map fun style =>
    if sheet.isBase || extended.contains style.name then style.opened else style
  if sheet.isBase then styles else styles.map (Style.openNested (Style.sharedNames styles))

/-- Marks the styles at indices one after the other; the result has the latest first. -/
def inheritingStyles (s : Suite) (settings : Settings) (id : SheetId) (styles : List Style) :
    List Nat → List Style → Except SuiteError (List Style)
  | [], done => .ok done
  | i :: order, done =>
    match styles[i]? with
    | none => inheritingStyles s settings id styles order done
    | some style =>
      match s.inheritingStyle settings id done style with
      | .error e => .error e
      | .ok style => inheritingStyles s settings id styles order (style :: done)

/-- The stylesheet at a place with the inheritance of all its styles marked. Of several styles of
one name the last one stays. -/
def withInheritance (s : Suite) (settings : Settings) (id : SheetId) :
    Except SuiteError Stylesheet := do
  let sheet := s.sheet id
  let styles := openStyles sheet
  let order ← Style.extensionOrder styles
  let done ← s.inheritingStyles settings id styles order []
  let animator ← sheet.animator.mapM fun animator =>
    s.inheritingStyle settings id done (if sheet.isBase then animator.opened else animator)
  let names := Value.distinct (styles.map Style.name)
  return { sheet with
    styles := names.filterMap fun name => done.find? (·.name == name)
    animator }

end Suite

end Appearance
