import Appearance.Animation.Basic
import Appearance.Color
import Appearance.Condition.Parse
import Appearance.Font.Basic

/-!
# Values

A property of a style has a value: a number, a flag, a shape, a font, a color and so on. A value
can be conditional, an array, or a redirect to the value of another property.

The constructors are the forms that a source can write, plus the conditional value and the array
that contain others. A redirect has its target once it is resolved. Branches are sorted when a
conditional value is made (`Value.ofBranches`), so the order in which a source lists them has no
effect beyond branches that compare equal; everything that reads branches relies on that order.

The mutual recursions over a value, the list of its items and the list of its branches are written
as three functions each, so that they are structural. `Value.mapRedirects` is the only one that
changes values.
-/

namespace Appearance

/-- Where a redirect leads: the expression whose accessor is called, and the type it returns. -/
structure RedirectTarget where
  access : String
  type : String
  deriving DecidableEq, Repr

/-- A reference to another property by its path, `Style.property` or `Style.Nested.property`. -/
structure Redirect where
  path : String
  resolved : Option RedirectTarget
  deriving DecidableEq, Repr

/-- A member of an option set: a flag of its own, or a name for several. -/
inductive OptionEntry where
  | flag (name : String)
  | composite (name : String) (members : List String)
  deriving DecidableEq, Repr

/-- The value of a property. -/
inductive Value where
  | int (n : Int)
  | float (x : Double)
  | bool (b : Bool)
  | point (x y : Double)
  | size (width height : Double)
  | rect (x y width height : Double)
  | edgeInsets (top left bottom right : Double)
  | font (font : Font)
  | color (color : Color)
  /-- A color of an asset catalog. -/
  | namedColor (name : String)
  | image (name : String)
  | icon (name : String)
  | redirect (redirect : Redirect)
  /-- Branches in the order in which they are tested. -/
  | conditional (branches : List (Condition × Value))
  | enumDef (type : String) (cases : List String)
  | enumCase (type name : String)
  | optionDef (type : String) (entries : List OptionEntry)
  | optionSet (type : String) (names : List String)
  | timing (function : TimingFunction)
  | keyFrame (frame : KeyFrame)
  | animationValue (value : AnimationValue)
  | repeatCount (count : RepeatCount)
  | array (items : List Value)
  /-- An expression of the generated language with its type. -/
  | call (expression type : String)
  deriving Repr, Inhabited

namespace Value

/-- A conditional value; the branches are put into the order in which they are tested. -/
def ofBranches (branches : List (Condition × Value)) : Value :=
  .conditional (branches.mergeSort fun a b => (Condition.order a.1 b.1).isLE)

/-- Definitions of enumerations and option sets are global: they are declared once and have no
accessor. -/
def isGlobal : Value → Bool
  | enumDef .. => true
  | optionDef .. => true
  | _ => false

/-- The value has branches. -/
def isConditional : Value → Bool
  | conditional _ => true
  | _ => false

/-- The path of a redirect. -/
def redirectPath? : Value → Option String
  | redirect r => some r.path
  | _ => none

mutual

/-- The redirects of a value, also in arrays and branches, from left to right. -/
def redirects : Value → List Redirect
  | redirect r => [r]
  | array items => redirectsOfItems items
  | conditional branches => redirectsOfBranches branches
  | _ => []

/-- The redirects of the items of an array. -/
def redirectsOfItems : List Value → List Redirect
  | [] => []
  | v :: vs => redirects v ++ redirectsOfItems vs

/-- The redirects of branches; conditions have none. -/
def redirectsOfBranches : List (Condition × Value) → List Redirect
  | [] => []
  | (_, v) :: bs => redirects v ++ redirectsOfBranches bs

end

mutual

/-- Resolves every redirect of a value from left to right; the first failure ends it. -/
def mapRedirects {ε : Type} (f : Redirect → Except ε Redirect) : Value → Except ε Value
  | redirect r =>
    match f r with
    | .ok r => .ok (redirect r)
    | .error e => .error e
  | array items =>
    match mapRedirectsOfItems f items with
    | .ok items => .ok (array items)
    | .error e => .error e
  | conditional branches =>
    match mapRedirectsOfBranches f branches with
    | .ok branches => .ok (conditional branches)
    | .error e => .error e
  | v => .ok v

/-- Resolves every redirect of the items of an array. -/
def mapRedirectsOfItems {ε : Type} (f : Redirect → Except ε Redirect) :
    List Value → Except ε (List Value)
  | [] => .ok []
  | v :: vs =>
    match mapRedirects f v with
    | .error e => .error e
    | .ok v =>
      match mapRedirectsOfItems f vs with
      | .ok vs => .ok (v :: vs)
      | .error e => .error e

/-- Resolves every redirect of branches and keeps their conditions. -/
def mapRedirectsOfBranches {ε : Type} (f : Redirect → Except ε Redirect) :
    List (Condition × Value) → Except ε (List (Condition × Value))
  | [] => .ok []
  | (c, v) :: bs =>
    match mapRedirects f v with
    | .error e => .error e
    | .ok v =>
      match mapRedirectsOfBranches f bs with
      | .ok bs => .ok ((c, v) :: bs)
      | .error e => .error e

end

end Value

end Appearance
