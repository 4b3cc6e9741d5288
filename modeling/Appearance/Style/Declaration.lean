import Appearance.Style.Basic

/-!
# Style declarations

The key of a style declares it: its name, surrounded by markers and by the clauses `for` and
`extends`, as in `__appearance_proxy __open Button for UIButton extends BaseButton`. The order of
the parts is free; words that are no part of anything add up to the name.

Words are read from left to right into a head that begins empty (`StyleHead.addWords`). A word
`for` or `extends` takes the next one, whatever that is; without a next one it is a part of the
name. Markers may stand alone or be glued to the front of a word, in which case what is behind them
belongs to the name. Because each word changes its own fields of the head only, clauses can be
exchanged, which is how the freedom of order is proved.
-/

namespace Appearance

open Appearance.Text

namespace StyleHead

/-- Marks a style that generates a view extension. -/
def proxyMarker : String := "__appearance_proxy"

/-- Marks a style whose members stay open. -/
def openMarker : String := "__open"

/-- A marker without effect. -/
def styleMarker : String := "__style"

/-- Stands before a superclass of the imported stylesheet. -/
def importedPrefix : String := "S."

/-- Adds the view class of a `for` clause. `Self` keeps the general one. -/
def applyTo (h : StyleHead) (view : String) : StyleHead :=
  { h with isApplicable := true, viewClass := if view = "Self" then h.viewClass else view }

/-- Adds the superclass of an `extends` clause. -/
def extend (h : StyleHead) (superclass : String) : StyleHead :=
  match stripPrefix? importedPrefix superclass with
  | some imported => { h with extendsImported := true, superclass := some imported }
  | none => { h with superclass := some superclass }

/-- Takes the marker of a view extension off the front of a word. -/
def takeProxyMarker (h : StyleHead) (word : String) : StyleHead × String :=
  match stripPrefix? proxyMarker word with
  | some rest => ({ h with isExtension := true }, rest)
  | none => (h, word)

/-- Takes the marker of an open style off the front of a word. -/
def takeOpenMarker (h : StyleHead) (word : String) : StyleHead × String :=
  match stripPrefix? openMarker word with
  | some rest => ({ h with isOverridable := true }, rest)
  | none => (h, word)

/-- Adds a word of the name; markers may be glued to it. -/
def addName (h : StyleHead) (word : String) : StyleHead :=
  let (h, word) := h.takeProxyMarker word
  let (h, word) := h.takeOpenMarker word
  { h with name := h.name ++ word }

/-- Adds a word that begins no clause. -/
def addWord (h : StyleHead) (word : String) : StyleHead :=
  if word = proxyMarker then { h with isExtension := true }
  else if word = openMarker then { h with isOverridable := true }
  else if word = styleMarker then h
  else h.addName word

/-- Adds words from left to right. A clause needs a word after its own. -/
def addWords (h : StyleHead) : List String → StyleHead
  | [] => h
  | [word] => h.addWord word
  | word :: next :: rest =>
    if word = "for" then (h.applyTo next).addWords rest
    else if word = "extends" then (h.extend next).addWords rest
    else (h.addWord word).addWords (next :: rest)

/-- The head that a declaration describes. -/
def ofDeclaration (declaration : String) : StyleHead := (named "").addWords (words declaration)

end StyleHead

/-- The style of a declaration. If it is open, so are its properties. -/
def Style.ofDeclaration (declaration : String) (properties : List Property) : Style :=
  let head := StyleHead.ofDeclaration declaration
  .mk head (if head.isOverridable then properties.map Property.opened else properties)

end Appearance
