import Appearance.Suite.Basic

/-!
# The order of extension

A style is worked on after the style of its own stylesheet that it extends. `Style.extensionOrder`
lists the indices of styles in such an order, or finds a cycle. A name stands for the last style of
that name; an extended style of the imported stylesheet sets no order.

The search visits the indices in order; for each it climbs along the extended styles up to one that
is placed already and adds the way in reverse (`Style.addToOrder`), so an extended style always
comes first. Every style extends at most one other, so the way is a list and needs no stack. A
style that is met twice on one way closes a cycle, and the reported names are those from its first
to its second visit.
-/

namespace Appearance.Style

/-- The name of the style in the same stylesheet that a style extends. -/
def localSuperclass? (s : Style) : Option String :=
  if s.head.extendsImported then none else s.head.superclass

/-- The index of the style that the one at an index extends. -/
def extendedIndex? (styles : List Style) (index : Nat) : Option Nat :=
  (styles[index]?.bind localSuperclass?).bind (Suite.lastIndex? styles)

/-- The names of the styles at indices. -/
def namesAt (styles : List Style) (indices : List Nat) : List String :=
  indices.filterMap fun i => styles[i]?.map Style.name

/-- Climbs from style to extended style up to one that is done, or to one that extends none; `path`
is the way so far. A style that is met twice closes a cycle. -/
def climb (styles : List Style) (done : List Nat) :
    Nat → List Nat → Option Nat → Except SuiteError (List Nat)
  | 0, path, _ => .ok path
  | _ + 1, path, none => .ok path
  | steps + 1, path, some i =>
    if i ∈ done then .ok path
    else if i ∈ path then
      .error (.extensionCycle (namesAt styles (path.dropWhile (· != i) ++ [i])))
    else climb styles done steps (path ++ [i]) (extendedIndex? styles i)

/-- Adds a style and those that it extends, the farthest one first. -/
def addToOrder (styles : List Style) (order : List Nat) (index : Nat) :
    Except SuiteError (List Nat) :=
  match climb styles order (styles.length + 1) [] (some index) with
  | .ok path => .ok (order ++ path.reverse)
  | .error e => .error e

/-- The indices of styles, each after that of the style it extends. -/
def extensionOrder (styles : List Style) : Except SuiteError (List Nat) :=
  (List.range styles.length).foldlM (addToOrder styles) []

end Appearance.Style
