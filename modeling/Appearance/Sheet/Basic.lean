import Appearance.Style.Basic

/-!
# Stylesheets

A stylesheet has a name, styles, perhaps an animator, and perhaps a base stylesheet that it
extends. The styles nested in the animator are the animations of the stylesheet.

A stylesheet keeps its styles in the order in which they were declared or imported until
`Stylesheet.sorted` orders them, and there may be several of one name. The animator is a style of
its own beside them, with the animations nested in it. `Stylesheet.globals` collects the
definitions of enumerations and option sets at every depth, sorted by their keys; the sort is
stable, so definitions of one key stay in order.
-/

namespace Appearance

open Appearance.Text

/-- A named collection of styles. -/
structure Stylesheet where
  name : String
  styles : List Style
  animator : Option Style
  /-- The stylesheet that this one extends. -/
  superclass : Option String
  hasSymbolFont : Bool
  /-- The files that it imports. -/
  dependencies : List String

namespace Stylesheet

/-- A stylesheet with a name and nothing else. -/
def named (name : String) : Stylesheet := ⟨name, [], none, none, false, []⟩

instance : Inhabited Stylesheet := ⟨named ""⟩

/-- The stylesheet of a declaration, `Name` or `Name:Base`. -/
def ofDeclaration (declaration : String) : Stylesheet :=
  let cs := declaration.toList
  let sheet := named (String.ofList (trimChars (cs.takeWhile (· != ':'))))
  let base := trimChars (cs.dropWhile (· != ':')).tail
  if base.isEmpty then sheet else { sheet with superclass := some (String.ofList base) }

/-- The stylesheet extends none. -/
def isBase (s : Stylesheet) : Bool := s.superclass.isNone

/-- The name of the animator, if there is one. -/
def animatorName? (s : Stylesheet) : Option String := s.animator.map Style.name

/-- The animations. -/
def animations (s : Stylesheet) : List Style :=
  match s.animator with
  | some animator => animator.nestedStyles
  | none => []

/-- The first top-level style of a name. -/
def style? (s : Stylesheet) (name : String) : Option Style := s.styles.find? (·.name == name)

/-- The top-level styles, then the animator. -/
def allStyles (s : Stylesheet) : List Style := s.styles ++ s.animator.toList

/-- The global values of the stylesheet, sorted by key. -/
def globals (s : Stylesheet) : List Value :=
  ((s.allStyles.flatMap Style.globals).mergeSort fun a b => Value.textLE a.1 b.1).map (·.2)

/-- The order of styles by name. -/
def nameLE (a b : Style) : Bool := Value.textLE a.name b.name

/-- The stylesheet with its styles sorted by name, and the properties of all styles by key. -/
def sorted (s : Stylesheet) : Stylesheet :=
  { s with styles := (s.styles.mergeSort nameLE).map Style.sorted
           animator := s.animator.map Style.sorted }

end Stylesheet

end Appearance
