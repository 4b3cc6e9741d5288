/-!
# Settings

What can be chosen for a run: how the generated code is marked and divided into files, and on which
framework it builds.

`Settings` is what the generator reads of a configuration, and no more: functions that print code
take it or a field of it, none takes the configuration. `Config.settings` makes it from a
configuration, `Settings.standard` is the one in which nothing is chosen. With a framework the
manager that is generated has a name of its own, so that it does not clash with that of the
framework, and types of the framework have to be reached through its module as soon as the
generated code stands inside an enumeration.
-/

namespace Appearance

/-- A framework with a stylesheet of its own, on which the stylesheets of a run build. -/
structure Framework where
  /-- The module that is imported. -/
  name : String
  /-- The class of its base stylesheet. -/
  stylesheet : String
  /-- The class of its manager. -/
  manager : String
  deriving DecidableEq, Repr

/-- The choices for a run. -/
structure Settings where
  /-- Declarations are marked for use from Objective-C. -/
  objc : Bool
  /-- The enumeration around the generated classes. -/
  enclosing : Option String
  /-- The suffix of generated files. Over a framework it also begins the name of the manager. -/
  extendedName : Option String
  /-- The base stylesheet gets a file. -/
  writesBase : Bool
  /-- Views declare that they have a proxy. -/
  declaresProtocol : Bool
  /-- Each style gets a file. -/
  splitsStyles : Bool
  framework : Option Framework
  /-- Text styles beside those of the platform. -/
  typography : List String
  deriving DecidableEq, Repr

namespace Settings

/-- The choices that hold if nothing is chosen. -/
def standard : Settings := ⟨false, none, none, true, true, false, none, []⟩

/-- The usual name of a manager. -/
def usualManager : String := "StylesheetManager"

/-- The manager class that is generated. -/
def manager (s : Settings) : String :=
  match s.extendedName, s.framework with
  | some extended, some _ => extended ++ usualManager
  | _, _ => usualManager

/-- The manager class of the framework. -/
def frameworkManager? (s : Settings) : Option String := s.framework.map Framework.manager

/-- What stands before the types of the framework. Only code inside an enumeration has to name the
module. -/
def frameworkPrefix (s : Settings) : String :=
  match s.framework, s.enclosing with
  | some f, some _ => f.name ++ "."
  | _, _ => ""

end Settings

end Appearance
