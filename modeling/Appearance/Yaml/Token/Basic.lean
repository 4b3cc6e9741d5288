import Appearance.Yaml.Cursor

/-!
# Tokens of a YAML text

Brackets, indicators, properties of nodes, scalars, and the start and end of block collections,
which the text shows by indentation alone.

The tokens are few: what opens, divides and closes collections of either style, keys and values,
and what belongs to single nodes. A scalar keeps its text after unescaping and folding, and of its
style only whether it was plain, for that is all that reading a node asks for. Tags keep the handle
as it was written, since which prefix it stands for is only known to the document.
-/

namespace Appearance.Yaml

/-- A tag as written: the handle that stands for a prefix, and the bytes that follow it. -/
structure TagName where
  handle : String
  suffix : List UInt8
  deriving DecidableEq, Repr

/-- A token of a YAML text. -/
inductive Token where
  | versionDirective (major minor : Nat)
  | tagDirective (handle : String) (pre : List UInt8)
  | documentStart
  | documentEnd
  | blockSequenceStart
  | blockMappingStart
  | blockEnd
  | flowSequenceStart
  | flowSequenceEnd
  | flowMappingStart
  | flowMappingEnd
  | blockEntry
  | flowEntry
  | key
  | value
  | alias (name : String)
  | anchor (name : String)
  | tag (name : TagName)
  /-- A scalar; only a plain one can be anything but a string. -/
  | scalar (text : String) (plain : Bool)
  | streamEnd
  deriving DecidableEq, Repr

end Appearance.Yaml
