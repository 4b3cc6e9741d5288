import Appearance.Code.Animations
import Appearance.Code.Fonts
import Appearance.Code.Globals
import Appearance.Code.Manager
import Appearance.Code.Views
import Appearance.Style.Code
import Appearance.Suite.Basic

/-!
# Generated files

Every stylesheet gets a file with its class. The file of the base also holds what all share: the
protocol of views, fonts, animations, the manager and the namespace of enumerations; the file of the
first theme holds what belongs to themes. On request each style stands in a file of its own.

`Suite.filesOf` gives the files of one stylesheet: the main file, and behind it one for each style
if styles are divided. `Suite.mainLines` puts the parts of a main file in order: header, shared
declarations, the enumeration around all, the class of the stylesheet with the classes of its
styles, and the extensions of views. Whether styles are divided decides only which of them
`Suite.mainLines` is given and where the others go, so one definition serves both layouts.
`Suite.generateAll` takes the stylesheets in the order of the suite.
-/

namespace Appearance

open Appearance.Code

/-- A generated file by its name in the output directory. -/
structure GeneratedFile where
  name : String
  content : String
  deriving DecidableEq, Repr

namespace Code

/-- What the name of every generated file ends in. -/
def fileSuffix : String := "generated.swift"

/-- The name of the file of a stylesheet. -/
def fileName (settings : Settings) (sheet : String) : String :=
  match settings.extendedName with
  | some extended => sheet ++ "." ++ extended ++ "." ++ fileSuffix
  | none => sheet ++ "." ++ fileSuffix

/-- The name of the file of a style. -/
def styleFileName (sheet style : String) : String := sheet ++ "." ++ style ++ "." ++ fileSuffix

/-- The class of a stylesheet as it is seen from outside the enclosing enumeration. -/
def qualified (settings : Settings) (sheet : String) : String :=
  match settings.enclosing with
  | some outer => outer ++ "." ++ sheet
  | none => sheet

/-- A text that is not empty. -/
def given? (text : String) : Option String := if text.isEmpty then none else some text

/-- How every file begins. -/
def headerLines (settings : Settings) : List String :=
  ["/// Autogenerated file", "", "// swiftlint:disable all", "import UIKit"] ++
    ((settings.framework.bind fun f => given? f.name).map ("import " ++ ·)).toList

/-- The line that opens the enclosing enumeration. The base declares it. -/
def enclosingLines (settings : Settings) (isBase : Bool) : List String :=
  match settings.enclosing with
  | none => []
  | some outer =>
    if !isBase then [opening ("extension " ++ outer), ""]
    else if settings.objc then
      [opening ("@objc public enum " ++ outer ++ ": Int"), "\tcase " ++ Text.firstLower outer, ""]
    else [opening ("public enum " ++ outer), ""]

/-- The line that closes the enclosing enumeration. -/
def enclosingEnd (settings : Settings) : List String :=
  if settings.enclosing.isSome then ["", closing] else []

/-- The superclass of the class of a stylesheet. -/
def sheetSuperclass? (settings : Settings) (sheet : Stylesheet) : Option String :=
  match sheet.superclass, settings.framework with
  | some superclass, _ => some superclass
  | none, some f => given? (settings.frameworkPrefix ++ f.stylesheet)
  | none, none => if settings.objc then some "NSObject" else none

/-- The class of a stylesheet around the classes of its styles. -/
def sheetClassLines (settings : Settings) (sheet : Stylesheet) (body : List String) :
    List String :=
  let isDerived := sheet.superclass.isSome || settings.framework.isSome
  "/// Entry point for the app stylesheet" ::
    paragraph
      (block
        (mark settings.objc ("@objc(STR" ++ sheet.name ++ ") @objcMembers") ++ "public class " ++
          sheet.name ++ inherits (sheetSuperclass? settings sheet))
        ("" ::
          block
            ("public " ++ mark isDerived "override" ++ "class func shared() -> " ++ sheet.name)
            ["struct __ " ++ braced ("static let _sharedInstance = " ++ sheet.name ++ "()"),
              "return __._sharedInstance"] ++
          body))

end Code

namespace Suite

/-- The class of the base stylesheet. -/
def baseType (s : Suite) (settings : Settings) (base : SheetId) : String :=
  qualified settings (s.sheet base).name

/-- The stylesheets other than the base, in order. -/
def themeIds (s : Suite) (base : SheetId) : List SheetId :=
  (base :: s.ids.filter (· != base)).filter fun id => !(s.sheet id).isBase

/-- The themes of a suite. -/
def themes (s : Suite) (settings : Settings) (base : SheetId) : List Theme :=
  (s.themeIds base).map fun id =>
    let name := (s.sheet id).name
    ⟨themeCase name, qualified settings name⟩

/-- What the file of a base stylesheet declares for all. A framework has declared most of it. -/
def sharedLines (s : Suite) (settings : Settings) (base : SheetId) (sheet : Stylesheet) :
    List String :=
  let own :=
    if settings.framework.isSome then []
    else
      (if settings.declaresProtocol then protocolLines else []) ++
        fontLines settings.typography sheet.hasSymbolFont settings.manager ++
        if s.registered.any (·.animator.isSome) then
          animationLines (sheet.animations.map fun a => Text.firstLower a.name)
        else []
  "" :: own ++ managerLines settings (s.baseType settings base)

/-- What a file declares beside classes. -/
def declarationLines (s : Suite) (settings : Settings) (base id : SheetId) : List String :=
  let sheet := s.sheet id
  if sheet.isBase then
    s.sharedLines settings base sheet ++
      baseGlobalLines settings.objc settings.framework.isSome sheet
  else
    (if (s.themeIds base).head? = some id then
        themeLines settings (s.baseType settings base) (s.themes settings base)
      else []) ++
      themeGlobalLines settings.objc (s.sheet base) sheet

/-- The classes of the styles of a stylesheet. -/
def styleLines (s : Suite) (settings : Settings) (base id : SheetId) (styles : List Style) :
    List String :=
  styles.flatMap (Style.proxyLines ⟨settings, s.baseType settings base⟩ (s.sheet id).name)

/-- The lines of the file of a stylesheet; `styles` are those whose classes stand in it. -/
def mainLines (s : Suite) (settings : Settings) (base id : SheetId) (styles : List Style) :
    List String :=
  let sheet := s.sheet id
  let baseType := s.baseType settings base
  headerLines settings ++ s.declarationLines settings base id ++
    enclosingLines settings sheet.isBase ++
    sheetClassLines settings sheet (s.styleLines settings base id styles) ++
    enclosingEnd settings ++
    viewExtensionLines
      ⟨baseType, settings.manager ++ ".stylesheet(" ++ baseType ++ ".shared())"⟩ sheet

/-- The file of a style, which extends the class of its stylesheet. -/
def styleFile (s : Suite) (settings : Settings) (base id : SheetId) (style : Style) :
    GeneratedFile :=
  let sheet := s.sheet id
  ⟨styleFileName sheet.name style.name,
    unlines <|
      headerLines settings ++ "" ::
        block ("extension " ++ qualified settings sheet.name)
          (s.styleLines settings base id [style])⟩

/-- The files of a stylesheet: its own, then those of its styles. -/
def filesOf (s : Suite) (settings : Settings) (base id : SheetId) : List GeneratedFile :=
  let sheet := s.sheet id
  if sheet.isBase && !settings.writesBase then []
  else
    let inside := if settings.splitsStyles then [] else sheet.styles
    let main : GeneratedFile :=
      ⟨fileName settings sheet.name,
        unlines (s.mainLines settings base id (inside ++ sheet.animator.toList))⟩
    main :: if settings.splitsStyles then sheet.styles.map (s.styleFile settings base id) else []

/-- The files of a stylesheet of a linked suite. -/
def generate (s : Suite) (settings : Settings) (id : SheetId) :
    Except SuiteError (List GeneratedFile) :=
  match s.baseId with
  | .ok base => .ok (s.filesOf settings base id)
  | .error e => .error e

/-- The files of all stylesheets of a linked suite, the base first. -/
def generateAll (s : Suite) (settings : Settings) : Except SuiteError (List GeneratedFile) := do
  return (← (← s.order).mapM (s.generate settings)).flatten

end Suite

end Appearance
