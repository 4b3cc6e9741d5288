import Appearance.Code.Block
import Appearance.Settings
import Appearance.Text.Case
import Appearance.Text.Split

/-!
# Themes in generated code

Every stylesheet other than the base is a theme. The file of the first one declares the enumeration
of themes and how the manager switches between them; over a framework the theme is that of its
manager.

The case of a theme is the name of its stylesheet without the usual suffix, its first letter in
lower case (`Code.themeCase`). The manager keeps the theme beside itself as an associated value,
writes it to the defaults of the user and reads it back when it starts; over a framework it follows
the theme of the other manager by its number instead. Themes come in the order of the suite, the
first one being the one that holds before any is chosen.
-/

namespace Appearance.Code

open Appearance.Text

/-- What the name of a stylesheet may end in. -/
def sheetSuffix : String := "Style"

/-- A stylesheet as a case of the enumeration of themes: its name without the usual suffix. -/
def themeCase (sheet : String) : String :=
  let stem := (stripSuffix? sheetSuffix sheet).getD sheet
  firstLower (if stem.isEmpty then sheet else stem)

/-- A theme: its case and the class of its stylesheet. -/
structure Theme where
  name : String
  type : String
  deriving DecidableEq, Repr

/-- The enumeration of themes. -/
def themeEnumLines (objc : Bool) (base : String) (themes : List Theme) : List String :=
  paragraph <|
    block (mark objc "@objc" ++ "public enum Theme: Int")
      (paragraph (themes.map fun t => "case " ++ t.name) ++
        block ("public var stylesheet: " ++ base)
          (opening "switch self" ::
            themes.map (fun t => "case ." ++ t.name ++ ": return " ++ t.type ++ ".shared()") ++
            [closing]))

/-- Defaults of the user by keys, for plain values and for cases. -/
def userDefaultsLines : List String :=
  paragraph <|
    block "fileprivate extension UserDefaults"
      (paragraph
          (block "subscript<T>(key: String) -> T?"
            [inlineBlock "get" "return value(forKey: key) as? T",
              inlineBlock "set" "set(newValue, forKey: key)"]) ++
        block "subscript<T: RawRepresentable>(key: String) -> T?"
          (block "get"
              (block "if let rawValue = value(forKey: key) as? T.RawValue"
                  ["return T(rawValue: rawValue)"] ++
                ["return nil"]) ++
            [inlineBlock "set" "self[key] = newValue?.rawValue"]))

/-- The statement that keeps a value beside an object. -/
def associate (handle value : String) : String :=
  "objc_setAssociatedObject(self, &" ++ handle ++ ", " ++ value ++
    ", .OBJC_ASSOCIATION_RETAIN_NONATOMIC)"

/-- The value that is kept beside an object, or another one. -/
def associated (name handle type missing : String) : String :=
  "guard let " ++ name ++ " = objc_getAssociatedObject(self, &" ++ handle ++ ") as? " ++ type ++
    " else " ++ braced ("return " ++ missing)

/-- The handle of the theme in use. -/
def themeHandle : String := "__ThemeHandle"

/-- The theme of the manager, if it keeps one of its own. -/
def ownThemeLines (type first : String) : List String :=
  block ("var theme: " ++ type)
    (block "get" [associated "theme" themeHandle type ("." ++ first), "return theme"] ++
      block "set"
        [associate themeHandle "newValue",
          "NotificationCenter.default.post(name: .didChangeTheme, object: newValue)",
          "UserDefaults.standard[DefaultKeys.theme] = newValue"])

/-- The theme of the manager after that of the manager of a framework. -/
def followedThemeLines (type first followed : String) : List String :=
  block ("var theme: " ++ type)
    ["return " ++ type ++ "(rawValue: " ++ followed ++ ".default.theme.rawValue) ?? ." ++ first]

/-- How a manager begins with the theme that was chosen last. -/
def themeInitLines (type first : String) : List String :=
  block "func themeInit()"
    ["let theme: " ++ type ++ " = UserDefaults.standard[DefaultKeys.theme] ?? ." ++ first,
      associate themeHandle "theme"]

/-- The part of the manager that knows the theme in use. -/
def themedManagerLines (settings : Settings) (base type first : String) : List String :=
  let current :=
    paragraph
      (block ("static func currentTheme() -> " ++ base)
        ["return " ++ settings.manager ++ ".default.theme.stylesheet"])
  paragraph <|
    block ("public extension " ++ settings.manager) <|
      match settings.framework with
      | some f => current ++ followedThemeLines type first f.manager
      | none =>
        current ++
          paragraph
            (block "private struct DefaultKeys"
              ["static let theme = \"" ++ settings.manager ++ ".theme\""]) ++
          paragraph (ownThemeLines type first) ++ themeInitLines type first

/-- The enumeration of themes where it belongs. -/
def placedThemeEnum (settings : Settings) (base : String) (themes : List Theme) : List String :=
  let lines := themeEnumLines settings.objc base themes
  match settings.enclosing with
  | some outer => opening ("extension " ++ outer) :: lines ++ [closing]
  | none => lines

/-- All that the first theme's file declares of themes. -/
def themeLines (settings : Settings) (base : String) (themes : List Theme) : List String :=
  let type :=
    match settings.enclosing with
    | some outer => outer ++ ".Theme"
    | none => "Theme"
  let first := ((themes.head?).map Theme.name).getD ""
  let isOwn := settings.framework.isNone
  "" :: (if isOwn then userDefaultsLines else []) ++ placedThemeEnum settings base themes ++
    (if isOwn then paragraph ["fileprivate var " ++ themeHandle ++ ": UInt8 = 0"] else []) ++
    themedManagerLines settings base type first

end Appearance.Code
