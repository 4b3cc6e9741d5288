import Appearance.Suite.Basic

/-!
# The registry of a run

A registry keeps all stylesheets of a run in one list, in the order in which they came, the imported
one among the registered ones. Whoever puts a stylesheet into it gets its slot, which is the index
in that list, and asks for the stylesheet by it from then on. The imported stylesheet keeps its slot
when it is set again.

`Registry.link` checks that exactly one registered stylesheet is a base and that all others extend
it, and lays tables down (`Link`): the slot of the base, the order of the registered stylesheets,
what each one extends, and for each one the indices of its styles by their names. Later passes look
into these tables and search no more. A change to the set of stylesheets drops them, and
`Registry.reindexed` makes the table of one stylesheet anew after its styles have changed.

Each call gives the registry after it together with its answer, also where the call is refused.
-/

namespace Appearance

/-- A slot of a registry. -/
structure Slot where
  index : Nat
  deriving DecidableEq, Repr

/-- A top-level style of a stylesheet in a registry. -/
structure StyleHandle where
  sheet : Slot
  index : Nat
  deriving DecidableEq, Repr

/-- Names of styles with their indices. Of several entries of one name the first one counts. -/
abbrev StyleTable := List (String × Nat)

/-- The styles of a stylesheet by their names. They are entered one after the other, each before
those that are there, so of several styles of one name the last one counts. -/
def Stylesheet.styleTable (s : Stylesheet) : StyleTable :=
  (s.styles.zipIdx.map fun (style, i) => (style.name, i)).reverse

/-- The tables of a linked registry. -/
structure Link where
  /-- The slot of the base stylesheet. -/
  base : Slot
  /-- The base stylesheet first, then the others as they were registered. -/
  order : List Slot
  /-- For each slot that of the stylesheet which the one in it extends. -/
  superclasses : List (Option Slot)
  /-- For each slot the styles of the stylesheet in it. -/
  styles : List StyleTable

/-- The stylesheets of a run with their slots. -/
structure Registry where
  sheets : List Stylesheet
  /-- The slot of the imported stylesheet. -/
  imported? : Option Slot
  link? : Option Link

namespace Registry

/-- The registry of a run that has no stylesheet yet. -/
def empty : Registry := ⟨[], none, none⟩

instance : Inhabited Registry := ⟨empty⟩

/-! ## Stylesheets by their slots -/

/-- The stylesheet in a slot; a slot that was not handed out counts as one with an empty
stylesheet. -/
def sheet (r : Registry) (slot : Slot) : Stylesheet := (r.sheets[slot.index]?).getD default

/-- The slots of the registered stylesheets, in order. The slot of the imported one is left out. -/
def slots (r : Registry) : List Slot :=
  ((List.range r.sheets.length).map Slot.mk).filter fun slot => some slot != r.imported?

/-- The slot of the registered stylesheet of a name. -/
def find? (r : Registry) (name : String) : Option Slot :=
  r.slots.find? fun slot => (r.sheet slot).name == name

/-! ## Building a registry -/

/-- Adds a stylesheet behind all others. Names are taken once. -/
def register (r : Registry) (sheet : Stylesheet) : Registry × Except SuiteError Slot :=
  if (r.find? sheet.name).isSome then (r, .error (.registeredTwice sheet.name))
  else ({ r with sheets := r.sheets ++ [sheet], link? := none }, .ok ⟨r.sheets.length⟩)

/-- Sets the stylesheet of the framework, in the slot of the one that was set before. -/
def setImported (r : Registry) (sheet : Stylesheet) : Registry × Slot :=
  match r.imported? with
  | some slot => ({ r with sheets := r.sheets.set slot.index sheet, link? := none }, slot)
  | none =>
    let slot := ⟨r.sheets.length⟩
    (⟨r.sheets ++ [sheet], some slot, none⟩, slot)

/-- The slots of the registered stylesheets that extend none. -/
def bases (r : Registry) : List Slot := r.slots.filter fun slot => (r.sheet slot).isBase

/-- Enters into a table what the stylesheets in slots extend, which can only be the base. -/
def enterSuperclasses (r : Registry) (base : Slot) :
    List Slot → List (Option Slot) → Except SuiteError (List (Option Slot))
  | [], table => .ok table
  | slot :: slots, table =>
    match (r.sheet slot).superclass with
    | none => enterSuperclasses r base slots table
    | some superclass =>
      match r.find? superclass with
      | none => .error (.unknownBase (r.sheet slot).name superclass)
      | some parent =>
        if parent = base then
          enterSuperclasses r base slots (table.set slot.index (some parent))
        else .error (.indirectBase (r.sheet slot).name superclass)

/-- The tables of a registry, if it has exactly one base and all others extend it. -/
def tables (r : Registry) : Except SuiteError Link :=
  match r.bases with
  | [] => .error .noBase
  | [base] =>
    match r.enterSuperclasses base r.slots (List.replicate r.sheets.length none) with
    | .ok superclasses =>
      .ok ⟨base, base :: r.slots.filter (· != base), superclasses,
        r.sheets.map Stylesheet.styleTable⟩
    | .error e => .error e
  | bases => .error (.severalBases (bases.map fun slot => (r.sheet slot).name))

/-- Lays the tables down. -/
def link (r : Registry) : Registry × Except SuiteError Unit :=
  match r.tables with
  | .ok link => ({ r with link? := some link }, .ok ())
  | .error e => (r, .error e)

/-- The tables are laid down. -/
def isLinked (r : Registry) : Bool := r.link?.isSome

/-! ## What a linked registry knows -/

/-- The tables, if they are laid down. -/
def linked (r : Registry) : Except SuiteError Link :=
  match r.link? with
  | some link => .ok link
  | none => .error .notLinked

/-- The slot of the base stylesheet. -/
def base (r : Registry) : Except SuiteError Slot := r.linked.map Link.base

/-- The slots of the registered stylesheets, the base first. -/
def order (r : Registry) : Except SuiteError (List Slot) := r.linked.map Link.order

/-- The slot of the stylesheet that the one in a slot extends. -/
def superclass? (r : Registry) (slot : Slot) : Option Slot :=
  r.link?.bind fun link => (link.superclasses[slot.index]?).join

/-- The handle of a top-level style of a name. -/
def findStyle? (r : Registry) (slot : Slot) (name : String) : Option StyleHandle :=
  r.link?.bind fun link =>
    (link.styles[slot.index]?).bind fun table => (table.lookup name).map (StyleHandle.mk slot)

/-- The style of a handle. -/
def style? (r : Registry) (handle : StyleHandle) : Option Style :=
  (r.sheet handle.sheet).styles[handle.index]?

/-- A top-level style or the animator of a stylesheet, by its name. -/
def lookup? (r : Registry) (slot : Slot) (name : String) : Option Style :=
  match r.findStyle? slot name with
  | some handle => r.style? handle
  | none => (r.sheet slot).animator.filter (·.name == name)

/-! ## Changing stylesheets -/

/-- The registry with another stylesheet in a slot. The tables stay as they are. -/
def setSheet (r : Registry) (slot : Slot) (sheet : Stylesheet) : Registry :=
  { r with sheets := r.sheets.set slot.index sheet }

/-- The registry with the styles of the stylesheet in a slot entered anew. -/
def reindexed (r : Registry) (slot : Slot) : Registry :=
  { r with link? := r.link?.map fun link =>
      { link with styles := link.styles.set slot.index (r.sheet slot).styleTable } }

end Registry

end Appearance
