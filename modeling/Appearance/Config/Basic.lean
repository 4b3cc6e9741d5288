import Appearance.Path
import Appearance.Settings
import Appearance.Sheet.Load
import Appearance.Text.Split

/-!
# Configurations

A configuration says which stylesheets a run reads, how code is generated from them, and where it is
written. Its paths lead from the working directory.

The structures follow the sections of the file, and each field is what a section says after it has
been read: paths are completed, missing flags have their defaults, and lists that were given as a
single text are lists. `Config.names` has one name for each input. Links to a project, property
lists and asset catalogs are kept as they were given, though nothing is generated from them here.

`Config.settings` is the part that the generator sees, and `OutputConfig.dir` the one directory
that is written to.
-/

namespace Appearance

open Appearance.Text

/-- A project of the development environment to which generated files belong. -/
structure ProjectLink where
  project : String
  target : String
  group : Option String
  deriving DecidableEq, Repr

/-- Where files are written. -/
structure OutputConfig where
  path : Option String
  link : Option ProjectLink
  /-- The property list of the app. -/
  plist : Option String
  /-- The directory of fonts as the property list names it. -/
  fontFolder : Option String
  deriving DecidableEq, Repr

/-- The framework on which the stylesheets build. -/
structure FrameworkConfig where
  name : String
  /-- The file of its base stylesheet. -/
  base : String
  styles : List String
  deriving DecidableEq, Repr

/-- The symbol fonts of stylesheets, and files to make fonts from. -/
structure SymbolFontConfig where
  inputs : List String
  output : Option OutputConfig
  /-- The fonts by the names of the stylesheets, each name once. -/
  fonts : List (String × SymbolFont)
  deriving DecidableEq, Repr

/-- Icons to make an asset catalog from. -/
structure SymbolAssetConfig where
  icons : String
  format : String
  names : List String
  inputs : List String
  output : OutputConfig
  deriving DecidableEq, Repr

/-- A configuration. -/
structure Config where
  framework : Option FrameworkConfig
  objc : Bool
  extendedName : Option String
  /-- The enumeration around the generated classes. -/
  enclosing : Option String
  writesBase : Bool
  declaresProtocol : Bool
  splitsStyles : Bool
  /-- The file of the base stylesheet. -/
  base : Option String
  inputs : List String
  /-- The names of the stylesheets, one for each input. -/
  names : List String
  symbolFont : Option SymbolFontConfig
  symbolAsset : Option SymbolAssetConfig
  /-- Text styles beside those of the platform. -/
  typography : List String
  output : OutputConfig
  deriving DecidableEq, Repr

/-- The directory of an output: its path, else the group beside the project. -/
def OutputConfig.dir (o : OutputConfig) : String :=
  match o.path, o.link with
  | some path, _ => path
  | none, some link =>
    let beside := (Path.parent? link.project).getD ""
    match link.group with
    | some group => Path.join beside group
    | none => beside
  | none, none => ""

namespace Config

/-- The name of the base stylesheet. -/
def baseName? (c : Config) : Option String := c.base.map Path.fileStem

/-- The choices for generated code. A stylesheet without a base is always written. -/
def settings (c : Config) : Settings :=
  { objc := c.objc
    enclosing := c.enclosing
    extendedName := c.extendedName
    writesBase := c.writesBase || c.base.isNone
    declaresProtocol := c.declaresProtocol
    splitsStyles := c.splitsStyles
    framework := c.framework.map fun f =>
      ⟨f.name, Path.fileStem f.base, Settings.usualManager⟩
    typography := c.typography }

/-- The symbol fonts by the names of stylesheets. -/
def fonts (c : Config) : List (String × SymbolFont) :=
  match c.symbolFont with
  | some font => font.fonts
  | none => []

end Config

end Appearance
