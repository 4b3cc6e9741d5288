/-!
# Tags

A tag is a sequence of bytes, for an escape in it writes a byte. `Tag.ofBytes` says what a tag means
for its node: a tag that begins with `!` is the document's own and stays with the node, and the
tags of the language itself say of which kind a scalar is.

A tag that begins with `!` stays with its node under its name without that mark, and the single `!`
is one of them: it stays too, on a scalar as on a collection, under its own name. A node that keeps
a tag is not looked through by a pattern on its kind, so a value with a tag of its own is refused
where a plain value is asked for. The tags of the language are compared as whole texts with their
prefix, and one that is not listed makes a string of a scalar and says nothing about a collection.
-/

namespace Appearance.Yaml

/-- The bytes of a text. -/
def textBytes (s : String) : List UInt8 := s.toUTF8.toList

/-- The prefix of the tags that the language itself defines. -/
def coreTagPrefix : String := "tag:yaml.org,2002:"

/-- The kinds of scalars that are not strings. -/
inductive ScalarKind where
  | null
  | bool
  | int
  | float
  deriving DecidableEq, Repr

namespace ScalarKind

/-- The kinds that have a tag of their own. -/
def all : List ScalarKind := [.null, .bool, .int, .float]

/-- The name of a kind in its tag. -/
def name : ScalarKind → String
  | null => "null"
  | bool => "bool"
  | int => "int"
  | float => "float"

/-- The kind that a tag of the language itself asks for. -/
def ofTag? (tag : String) : Option ScalarKind := all.find? fun k => coreTagPrefix ++ k.name == tag

end ScalarKind

/-- What a tag means for its node. -/
inductive Tag where
  /-- The tag stays with the node. -/
  | own (name : String)
  /-- The tag begins like one of the document's own, but its bytes are no text; it says nothing. -/
  | unreadable
  /-- A scalar must be of the kind. -/
  | scalar (kind : ScalarKind)
  /-- A scalar is a string. -/
  | other
  deriving DecidableEq, Repr

namespace Tag

/-- The name of a tag that begins with `!`; a second `!` counts for nothing. The single `!` is its
own name. -/
def ownName? (tag : List Char) : Option String :=
  match tag with
  | ['!'] => some "!"
  | '!' :: '!' :: c :: name => some (String.ofList (c :: name))
  | '!' :: name => some (String.ofList name)
  | _ => none

/-- The meaning of a tag that is a text. -/
def ofText (tag : String) : Tag :=
  match ownName? tag.toList with
  | some name => .own name
  | none =>
    match ScalarKind.ofTag? tag with
    | some kind => .scalar kind
    | none => .other

/-- The meaning of a tag. -/
def ofBytes (tag : List UInt8) : Tag :=
  match String.fromUTF8? ⟨tag.toArray⟩ with
  | some text => ofText text
  | none => if tag.head? = (textBytes "!").head? then .unreadable else .other

end Tag

end Appearance.Yaml
