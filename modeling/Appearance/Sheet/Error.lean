import Appearance.Value.Error

/-!
# Why a stylesheet cannot be loaded

`LoadError` says what is wrong with a source and where; `LoadError.message` words it.

An error names the stylesheet, and for an illegal value the key of its property with the
`ValueError` as its cause. Faults of form are listed in `SheetFault`; they concern the root,
declarations of styles and animators, keys and imports. Imports that do not end are an error here:
the reading of files is bounded, and `LoadError.endlessImport` is what is left when the bound is
reached.
-/

namespace Appearance

/-- What is wrong with the form of a stylesheet source. -/
inductive SheetFault where
  | nullRoot
  | rootNotMapping
  | styleNotMapping (declaration : String)
  | animatorNotMapping (name : String)
  | unsupportedKey (node : String)
  | importForm
  | importEntry
  deriving DecidableEq, Repr

def SheetFault.message : SheetFault → String
  | nullRoot => "null root object"
  | rootNotMapping => "the root object is not a mapping"
  | styleNotMapping declaration => s!"malformed style definition `{declaration}`"
  | animatorNotMapping name => s!"malformed animator definition `{name}`"
  | unsupportedKey node => s!"unsupported key {node}"
  | importForm => "import must be a file name or a list of file names"
  | importEntry => "import entries must be file names"

/-- Why a stylesheet cannot be loaded. -/
inductive LoadError where
  | fileMissing (path : String)
  /-- The source is no YAML document. -/
  | notYaml (stylesheet : String)
  | malformed (stylesheet : String) (fault : SheetFault)
  | illegalValue (stylesheet key : String) (cause : ValueError)
  /-- Files import each other without end. -/
  | endlessImport (path : String)
  deriving DecidableEq, Repr

def LoadError.message : LoadError → String
  | fileMissing path => s!"file {path} does not exist"
  | notYaml stylesheet => s!"malformed YAML in stylesheet `{stylesheet}`"
  | malformed stylesheet fault =>
    "malformed YAML in stylesheet `" ++ stylesheet ++ "`: " ++ fault.message
  | illegalValue stylesheet key cause =>
    "illegal value for `" ++ key ++ "` in stylesheet `" ++ stylesheet ++ "`: " ++ cause.message
  | endlessImport path => s!"imports of {path} do not end"

/-- The error and its cause, each in a text of its own. -/
def LoadError.chain : LoadError → List String
  | illegalValue stylesheet key cause =>
    [(illegalValue stylesheet key cause).message, cause.message]
  | e => [e.message]

end Appearance
