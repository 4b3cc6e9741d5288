import Appearance.Registry.Basic
import Appearance.Suite.Prepared

/-!
# Registries as suites

What the passes over a run ask of a registry does not depend on how it keeps its stylesheets.
`Registry.suite` is a registry seen as a suite, in which the registered stylesheets stand in one
list, the imported one stands by itself, and `Registry.place` says where the stylesheet of a slot
is. The passes read this view.

`Registry.prepared` gets a registry ready for generation as `Suite.prepared` does. It writes each
stylesheet back into its slot, and enters the styles anew where names may have come, gone or moved:
behind the shadows, and each time the stylesheet has been sorted.
-/

namespace Appearance.Registry

/-- The place of the stylesheet of a slot in the suite. -/
def place (r : Registry) (slot : Slot) : SheetId :=
  if r.imported? = some slot then .imported else .registered (r.slots.idxOf slot)

/-- A registry as a suite. -/
def suite (r : Registry) : Suite where
  registered := r.slots.map r.sheet
  imported := r.imported?.map r.sheet
  base? := r.link?.map fun link => r.slots.idxOf link.base

/-- Puts a stylesheet into its slot and goes on, or stops at a failure. -/
def continueWith (r : Registry) (slot : Slot) (sheet : Except SuiteError Stylesheet)
    (next : Registry → Registry × Except SuiteError Unit) : Registry × Except SuiteError Unit :=
  match sheet with
  | .ok sheet => next (r.setSheet slot sheet)
  | .error e => (r, .error e)

/-- The registry with the shadows of a stylesheet. -/
def withShadows (r : Registry) (slot : Slot) : Registry :=
  match r.superclass? slot with
  | some base => (r.setSheet slot ((r.sheet slot).shadowing (r.sheet base))).reindexed slot
  | none => r

/-- The registry with a stylesheet sorted. -/
def withSorted (r : Registry) (slot : Slot) : Registry :=
  (r.setSheet slot (r.sheet slot).sorted).reindexed slot

/-- Gets the stylesheets in slots ready, one after the other. -/
def prepareEach (settings : Settings) :
    List Slot → Registry → Registry × Except SuiteError Unit
  | [], r => (r, .ok ())
  | slot :: slots, r =>
    let r := (r.withShadows slot).withSorted slot
    r.continueWith slot (r.suite.withRedirects settings (r.place slot)) fun r =>
      r.continueWith slot (r.suite.withInheritance settings (r.place slot)) fun r =>
        prepareEach settings slots (r.withSorted slot)

/-- Gets all registered stylesheets ready. -/
def prepared (r : Registry) (settings : Settings) : Registry × Except SuiteError Unit :=
  match r.order with
  | .ok slots => prepareEach settings slots r
  | .error e => (r, .error e)

end Appearance.Registry
