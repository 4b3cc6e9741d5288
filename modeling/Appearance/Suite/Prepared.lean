import Appearance.Suite.Inheritance
import Appearance.Suite.Redirects
import Appearance.Suite.Shadows

/-!
# Prepared suites

`Suite.prepared` gets a linked suite ready for generation: the base stylesheet first, each one gets
its shadows, has its redirects resolved and its inheritance marked, and is sorted. A failure leaves
the suite as it was when it arose.

A stylesheet that is prepared earlier is not touched afterwards: the base comes first because the
others look at it, and none of them looks at another theme. `Suite.prepareEach` is a recursion over
the list of places that stops at the first error, and its three steps are functions of a suite and
a place, so an invariant of a prepared suite is shown for each step once and carried along the
recursion.
-/

namespace Appearance.Suite

/-- Puts a stylesheet into its place and goes on, or stops at a failure. -/
def continueWith (s : Suite) (id : SheetId) (sheet : Except SuiteError Stylesheet)
    (next : Suite → Suite × Except SuiteError Unit) : Suite × Except SuiteError Unit :=
  match sheet with
  | .ok sheet => next (s.setSheet sheet id)
  | .error e => (s, .error e)

/-- The suite with the shadows of a stylesheet. -/
def withShadows (s : Suite) (id : SheetId) : Suite :=
  match s.superclass? id with
  | some base => s.setSheet ((s.sheet id).shadowing (s.sheet base)) id
  | none => s

/-- The suite with a stylesheet sorted. -/
def withSorted (s : Suite) (id : SheetId) : Suite := s.setSheet (s.sheet id).sorted id

/-- Gets the stylesheets at places ready, one after the other. -/
def prepareEach (settings : Settings) : List SheetId → Suite → Suite × Except SuiteError Unit
  | [], s => (s, .ok ())
  | id :: ids, s =>
    let s := (s.withShadows id).withSorted id
    s.continueWith id (s.withRedirects settings id) fun s =>
      s.continueWith id (s.withInheritance settings id) fun s =>
        prepareEach settings ids (s.withSorted id)

/-- Gets all registered stylesheets ready. -/
def prepared (s : Suite) (settings : Settings) : Suite × Except SuiteError Unit :=
  match s.order with
  | .ok ids => prepareEach settings ids s
  | .error e => (s, .error e)

end Appearance.Suite
