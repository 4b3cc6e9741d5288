import Appearance.Settings
import Appearance.Suite.Basic
import Appearance.Value.Code

/-!
# Redirects

A redirect names a property, as `Style.property` or `Style.Nested.property`. `Suite.target` looks
it up in the stylesheet where it stands, then in the one that this extends, then in the imported
one. Its type is the type of the value that is found; redirects in that value are followed in their
turn, and a path that is met twice on the way is a cycle.

`Suite.valueType` and `Suite.pathType` are two halves of one search. The first is structural in a
value and asks a function for the type behind a path; the second is that function, and its depth
goes down with each path. The `Trail` of paths is passed through the items of an array from left to
right, and of a conditional value only the branch that is tested first is followed. The depth is
one more than the number of redirects of the suite and is not reached before a path repeats.

Resolution keeps the form of all values: `Value.mapRedirects` writes into each redirect the
expression by which its property is reached and the type that was found.
-/

namespace Appearance

open Appearance.Text

/-- A property and the place of the stylesheet in which it was found. -/
structure Target where
  sheet : SheetId
  property : Property

/-- The parts of a redirect's path. -/
structure RedirectPath where
  style : String
  nested : Option String
  key : String
  deriving DecidableEq, Repr

/-- Reads a path of two or three parts. -/
def RedirectPath.parse? (path : String) : Option RedirectPath :=
  match (splitAtChars (· == '.') path.toList).map String.ofList with
  | [style, key] => some ⟨style, none, key⟩
  | [style, nested, key] => some ⟨style, some nested, key⟩
  | _ => none

namespace Suite

/-! ## Lookup -/

/-- The property of a path in one stylesheet. -/
def propertyAt? (s : Suite) (id : SheetId) (path : RedirectPath) : Option Property := do
  let style ← s.find? id path.style
  let style ←
    match path.nested with
    | some nested => style.nested? nested
    | none => some style
  style.property? path.key

/-- The stylesheets in which a redirect is looked up. -/
def searched (s : Suite) (id : SheetId) : List SheetId :=
  id :: (s.superclass? id).toList ++ s.importedId?.toList

/-- The property that a path leads to from a stylesheet. -/
def target (s : Suite) (id : SheetId) (path : String) : Except SuiteError Target :=
  match RedirectPath.parse? path with
  | none => .error (.redirectForm path)
  | some parts =>
    match (s.searched id).findSome? fun c => (s.propertyAt? c parts).map (Target.mk c) with
    | some t => .ok t
    | none => .error (.redirectTarget path (s.sheet id).name)

/-! ## Types -/

/-- The paths that were followed so far, in order. -/
abbrev Trail := List String

mutual

/-- The type of a value; `follow` gives the type behind a path. -/
def valueType (follow : String → Trail → Except SuiteError (String × Trail)) :
    Value → Trail → Except SuiteError (String × Trail)
  | .redirect r, trail => follow r.path trail
  | .conditional branches, trail => firstBranchType follow branches trail
  | .array items, trail =>
    match itemTypes follow items trail with
    | .ok (types, trail) => .ok (Value.arrayType types, trail)
    | .error e => .error e
  | v, trail => .ok (v.swiftType, trail)

/-- The type of the branch that is tested first. -/
def firstBranchType (follow : String → Trail → Except SuiteError (String × Trail)) :
    List (Condition × Value) → Trail → Except SuiteError (String × Trail)
  | [], trail => .ok ((Value.conditional []).swiftType, trail)
  | (_, v) :: _, trail => valueType follow v trail

/-- The types of the items of an array, from left to right. -/
def itemTypes (follow : String → Trail → Except SuiteError (String × Trail)) :
    List Value → Trail → Except SuiteError (List String × Trail)
  | [], trail => .ok ([], trail)
  | v :: vs, trail =>
    match valueType follow v trail with
    | .error e => .error e
    | .ok (type, trail) =>
      match itemTypes follow vs trail with
      | .error e => .error e
      | .ok (types, trail) => .ok (type :: types, trail)

end

/-- The type of the property that a path leads to from a stylesheet, at most `depth` redirects
away. A nested style has none. -/
def pathType (s : Suite) : Nat → SheetId → String → Trail → Except SuiteError (String × Trail)
  | 0, _, path, trail => .error (.redirectCycle (trail ++ [path]))
  | depth + 1, id, path, trail =>
    if path ∈ trail then .error (.redirectCycle (trail ++ [path]))
    else
      let trail := trail ++ [path]
      match s.target id path with
      | .error e => .error e
      | .ok ⟨found, .leaf _ value⟩ => valueType (s.pathType depth found) value trail
      | .ok ⟨found, .nested ..⟩ => .error (.redirectTarget path (s.sheet found).name)

mutual

/-- The redirects of a style at every depth. -/
def redirectsOf : Style → List Redirect
  | .mk _ properties => redirectsOfEach properties

/-- The redirects of properties, nested styles included. -/
def redirectsOfEach : List Property → List Redirect
  | [] => []
  | .leaf _ value :: ps => value.redirects ++ redirectsOfEach ps
  | .nested _ style :: ps => redirectsOf style ++ redirectsOfEach ps

end

/-- The redirects of a suite. A chain of different paths is not longer than their list. -/
def redirects (s : Suite) : List Redirect :=
  s.sheets.flatMap fun t => t.allStyles.flatMap redirectsOf

/-! ## Resolution -/

/-- The receiver of redirects into stylesheets of the run. -/
def mainProxy : String := "mainProxy()"

/-- The expression of a property found at a place. The imported stylesheet is reached by the
manager of its framework. -/
def access (settings : Settings) (found : SheetId) (path : String) : String :=
  match found with
  | .imported =>
    settings.frameworkManager?.getD Settings.usualManager ++ "." ++ Value.enums ++ "." ++ path
  | .registered _ => mainProxy ++ "." ++ path

/-- Resolves a redirect that stands in a stylesheet. -/
def resolveRedirect (s : Suite) (settings : Settings) (id : SheetId) (r : Redirect) :
    Except SuiteError Redirect :=
  match s.target id r.path with
  | .error e => .error e
  | .ok t =>
    match s.pathType (s.redirects.length + 1) id r.path [] with
    | .error e => .error e
    | .ok (type, _) => .ok { r with resolved := some ⟨access settings t.sheet r.path, type⟩ }

/-- Resolves the redirects of a value. The branches of a conditional value then have one type. -/
def resolveValue (s : Suite) (settings : Settings) (id : SheetId) (property : String) (v : Value) :
    Except SuiteError Value :=
  match v.mapRedirects (s.resolveRedirect settings id) with
  | .error e => .error e
  | .ok v =>
    if v.isConditional && 1 < v.branchTypes.length then
      .error (.branchTypes property v.branchTypes)
    else .ok v

mutual

/-- Resolves the redirects of a style at every depth. -/
def resolveStyle (s : Suite) (settings : Settings) (id : SheetId) :
    Style → Except SuiteError Style
  | .mk head properties =>
    match resolveEach s settings id head.name properties with
    | .ok properties => .ok (.mk head properties)
    | .error e => .error e

/-- Resolves the redirects of properties, which errors name by the style around them. -/
def resolveEach (s : Suite) (settings : Settings) (id : SheetId) (style : String) :
    List Property → Except SuiteError (List Property)
  | [] => .ok []
  | .leaf head value :: ps =>
    match s.resolveValue settings id (style ++ "." ++ head.key) value with
    | .error e => .error e
    | .ok value =>
      match resolveEach s settings id style ps with
      | .error e => .error e
      | .ok ps => .ok (.leaf head value :: ps)
  | .nested head nested :: ps =>
    match resolveStyle s settings id nested with
    | .error e => .error e
    | .ok nested =>
      match resolveEach s settings id style ps with
      | .error e => .error e
      | .ok ps => .ok (.nested head nested :: ps)

end

/-- The stylesheet at a place with all its redirects resolved. -/
def withRedirects (s : Suite) (settings : Settings) (id : SheetId) :
    Except SuiteError Stylesheet := do
  let sheet := s.sheet id
  let styles ← sheet.styles.mapM (s.resolveStyle settings id)
  let animator ← sheet.animator.mapM (s.resolveStyle settings id)
  return { sheet with styles, animator }

end Suite

end Appearance
