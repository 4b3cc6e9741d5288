import Appearance.Sheet.Basic
import Appearance.Suite.Error

/-!
# Suites of stylesheets

A suite holds the stylesheets of a run: the registered ones, for which code is generated, and
perhaps the stylesheet of an imported framework, which is only looked into. `Suite.linked` checks
that exactly one registered stylesheet is a base and that all others extend it; after that
`Suite.base?` knows it, and stylesheets come in the order `Suite.order`. A change to the set of
stylesheets unlinks the suite.

`Suite.find?` looks a style up by its name. Of several styles of one name the last one counts, and
a style comes before an animator.

This is the view of a run that passes read and that statements are made about: the registered
stylesheets by their index, the imported one apart, and the index of the base once it is known. The
keeping of stylesheets in slots with tables is `Registry`, and `Registry.suite` is the step from
there to here. What a linked suite knows, such as `Suite.order` and `Suite.superclass?`, is
computed from the three fields when it is asked for.
-/

namespace Appearance

/-- The place of a stylesheet in a suite. -/
inductive SheetId where
  | registered (index : Nat)
  | imported
  deriving DecidableEq, Repr

/-- The stylesheets of a run. -/
structure Suite where
  registered : List Stylesheet
  imported : Option Stylesheet
  /-- The place of the base stylesheet among the registered ones, once the suite is linked. -/
  base? : Option Nat

namespace Suite

/-- The suite of a run that has no stylesheet yet. -/
def empty : Suite := ⟨[], none, none⟩

instance : Inhabited Suite := ⟨empty⟩

/-! ## Stylesheets by their places -/

/-- The stylesheet at a place. -/
def sheet? (s : Suite) : SheetId → Option Stylesheet
  | .registered i => s.registered[i]?
  | .imported => s.imported

/-- The stylesheet at a place; a place that holds none counts as an empty one. -/
def sheet (s : Suite) (id : SheetId) : Stylesheet := (s.sheet? id).getD default

/-- The suite with another stylesheet at a place. -/
def setSheet (s : Suite) (sheet : Stylesheet) : SheetId → Suite
  | .registered i => { s with registered := s.registered.set i sheet }
  | .imported => { s with imported := some sheet }

/-- The places of the registered stylesheets, in order. -/
def ids (s : Suite) : List SheetId := (List.range s.registered.length).map .registered

/-- The place of the registered stylesheet of a name. -/
def idOf? (s : Suite) (name : String) : Option SheetId :=
  (s.registered.findIdx? (·.name == name)).map .registered

/-- The place of the imported stylesheet, if there is one. -/
def importedId? (s : Suite) : Option SheetId := s.imported.map fun _ => .imported

/-! ## Building a suite -/

/-- Adds a stylesheet behind the others. Names are taken once. -/
def register (s : Suite) (sheet : Stylesheet) : Except SuiteError Suite :=
  if (s.idOf? sheet.name).isSome then .error (.registeredTwice sheet.name)
  else .ok { s with registered := s.registered ++ [sheet], base? := none }

/-- Sets the stylesheet of the framework. -/
def setImported (s : Suite) (sheet : Stylesheet) : Suite :=
  { s with imported := some sheet, base? := none }

/-- The places of the stylesheets that extend none. -/
def baseIndices (s : Suite) : List Nat :=
  (List.range s.registered.length).filter fun i => (s.sheet (.registered i)).isBase

/-- A stylesheet extends none or the base, which is at index `base`. -/
def checkSuperclass (s : Suite) (base : Nat) (sheet : Stylesheet) : Except SuiteError Unit :=
  match sheet.superclass with
  | none => .ok ()
  | some superclass =>
    match s.idOf? superclass with
    | none => .error (.unknownBase sheet.name superclass)
    | some id =>
      if id = .registered base then .ok () else .error (.indirectBase sheet.name superclass)

/-- The suite with its base known, if it has exactly one and all others extend it. -/
def linked (s : Suite) : Except SuiteError Suite :=
  match s.baseIndices with
  | [] => .error .noBase
  | [base] =>
    match s.registered.forM (s.checkSuperclass base) with
    | .ok () => .ok { s with base? := some base }
    | .error e => .error e
  | bases => .error (.severalBases (bases.map fun i => (s.sheet (.registered i)).name))

/-- The base stylesheet is known. -/
def isLinked (s : Suite) : Bool := s.base?.isSome

/-! ## What is known of a linked suite -/

/-- The place of the base stylesheet. -/
def baseId (s : Suite) : Except SuiteError SheetId :=
  match s.base? with
  | some base => .ok (.registered base)
  | none => .error .notLinked

/-- The base stylesheet first, then the others as they were registered. -/
def order (s : Suite) : Except SuiteError (List SheetId) :=
  match s.baseId with
  | .ok base => .ok (base :: s.ids.filter (· != base))
  | .error e => .error e

/-- The place of the stylesheet that another one extends. -/
def superclass? (s : Suite) : SheetId → Option SheetId
  | .imported => none
  | .registered i =>
    match s.base? with
    | some base => if i = base then none else some (.registered base)
    | none => none

/-- The index of the last style of a name. -/
def lastIndex? (styles : List Style) (name : String) : Option Nat :=
  (styles.reverse.findIdx? (·.name == name)).map fun i => styles.length - 1 - i

/-- The index of a top-level style of a stylesheet in a linked suite. -/
def styleIndex? (s : Suite) (id : SheetId) (name : String) : Option Nat :=
  if s.isLinked then lastIndex? (s.sheet id).styles name else none

/-- A top-level style of a stylesheet in a linked suite. -/
def style? (s : Suite) (id : SheetId) (name : String) : Option Style :=
  (s.styleIndex? id name).bind fun i => (s.sheet id).styles[i]?

/-- A top-level style or the animator of a stylesheet, by its name. -/
def find? (s : Suite) (id : SheetId) (name : String) : Option Style :=
  match s.style? id name with
  | some style => some style
  | none => (s.sheet id).animator.filter (·.name == name)

/-- All stylesheets. -/
def sheets (s : Suite) : List Stylesheet := s.registered ++ s.imported.toList

end Suite

end Appearance
