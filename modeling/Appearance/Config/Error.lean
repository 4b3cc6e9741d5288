import Appearance.FileTree
import Appearance.Double.Layout

/-!
# Why a configuration is refused

A fault of an entry is told by the path of its key. `ConfigError.message` words what is wrong.

A key is kept as the list of its parts. The function that reads an entry names its own part only,
and `ConfigError.within` puts the part of each section before it on the way out, so a section that
is read in two places needs no path as an argument. What was expected and what was found are
enumerations with texts of their own, among them the counts of names and fonts that do not match
their stylesheets. `ConfigError.chain` adds the words of the system behind those of a file that
cannot be read.
-/

namespace Appearance

/-- The kinds of nodes. -/
inductive NodeKind where
  | null
  | bool
  | number
  | string
  | sequence
  | mapping
  | tagged
  deriving DecidableEq, Repr

/-- What an entry should have been. -/
inductive Expected where
  | string
  | bool
  | mapping
  | stringOrSequence
  | stringOrMapping
  | fontNames
  | stringKey
  | namePerInput
  | fontPerSheet
  deriving DecidableEq, Repr

/-- What an entry is instead. -/
inductive Found where
  | node (kind : NodeKind)
  | names (names inputs : Nat)
  | fonts (fonts sheets : Nat)
  deriving DecidableEq, Repr

/-- Why a configuration is refused. A key is the list of its parts. -/
inductive ConfigError where
  | missing (key : List String)
  | wrongType (key : List String) (expected : Expected) (found : Found)
  | pathMissing (path : String)
  | unreadable (path : String) (trouble : FileTrouble)
  /-- The source is no YAML document. -/
  | notYaml
  deriving DecidableEq, Repr

def NodeKind.text : NodeKind → String
  | null => "null"
  | bool => "bool"
  | number => "number"
  | string => "string"
  | sequence => "sequence"
  | mapping => "mapping"
  | tagged => "tagged value"

def Expected.text : Expected → String
  | string => "string"
  | bool => "bool"
  | mapping => "mapping"
  | stringOrSequence => "string or sequence"
  | stringOrMapping => "string or mapping"
  | fontNames => "string, sequence or mapping"
  | stringKey => "string key"
  | namePerInput => "one name per input"
  | fontPerSheet => "one font per stylesheet"

def Found.text : Found → String
  | node kind => kind.text
  | names n inputs => natText n ++ " names for " ++ natText inputs ++ " inputs"
  | fonts n sheets => natText n ++ " fonts for " ++ natText sheets ++ " stylesheets"

namespace ConfigError

/-- A key as it is printed. -/
def keyText (key : List String) : String := ".".intercalate key

/-- The error of an entry as one of the mapping around it. -/
def within (part : String) : ConfigError → ConfigError
  | missing key => missing (part :: key)
  | wrongType key expected found => wrongType (part :: key) expected found
  | e => e

/-- What is wrong, with the whole key of the entry. -/
def message : ConfigError → String
  | missing key => "missing entry " ++ keyText key
  | wrongType key expected found =>
    "wrong type for " ++ keyText key ++ ": expected " ++ expected.text ++ ", got " ++ found.text
  | pathMissing path => "path not found: " ++ path
  | unreadable path trouble => "cannot read " ++ path ++ ": " ++ trouble.message
  | notYaml => "malformed configuration"

/-- The error and its causes, each in a text of its own. -/
def chain : ConfigError → List String
  | unreadable path trouble => [(unreadable path trouble).message, trouble.message]
  | e => [e.message]

end ConfigError

end Appearance
