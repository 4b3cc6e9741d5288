import Appearance.Text.Quoted
import Appearance.Yaml.Node.Basic

/-!
# Nodes in messages

`Node.display` writes a node so that its kind shows; messages quote nodes in this form.

The display is for messages and is not read back. Kinds are written out, so the string `"1"` and
the number `1` look different, except for keys of mappings, which are written short. Strings are
quoted by `Text.quoted`, and numbers are written as `Yaml.Number.text` writes them.
-/

namespace Appearance.Yaml.Node

/-- The name of a tag after its mark. -/
def tagText (name : String) : String := "!" ++ name

mutual

/-- The form of a node in messages. -/
def display : Node → String
  | null => "Null"
  | bool b => "Bool(" ++ (if b then "true" else "false") ++ ")"
  | number n => "Number(" ++ n.text ++ ")"
  | string s => "String(" ++ Text.quoted s ++ ")"
  | sequence items => "Sequence [" ++ ", ".intercalate (displayItems items) ++ "]"
  | mapping entries => "Mapping \x7b" ++ ", ".intercalate (displayEntries entries) ++ "\x7d"
  | tagged tag node =>
    "TaggedValue \x7b tag: " ++ tagText tag ++ ", value: " ++ display node ++ " \x7d"

/-- The items of a sequence in messages. -/
def displayItems : List Node → List String
  | [] => []
  | n :: ns => display n :: displayItems ns

/-- Keys that are strings, numbers or flags are written without their kind. -/
def displayEntries : List (Node × Node) → List String
  | [] => []
  | (k, v) :: rest =>
    ((match k with
      | string s => Text.quoted s
      | number n => n.text
      | bool b => if b then "true" else "false"
      | _ => display k) ++ ": " ++ display v) :: displayEntries rest

end

end Appearance.Yaml.Node
