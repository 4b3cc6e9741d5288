/-!
# Why a suite of stylesheets is refused

`SuiteError` says what is wrong between stylesheets or between their styles; `SuiteError.message`
words it.

Faults of linking, of redirects and of inheritance share one type, because a build stops at the
first of them whichever pass finds it. Cycles are kept as lists of names or paths, and the last of
them is one that was met before, so the printed chain (`SuiteError.arrows`) shows where it closes.
-/

namespace Appearance

/-- What is wrong with a suite. -/
inductive SuiteError where
  | noBase
  | severalBases (names : List String)
  | registeredTwice (sheet : String)
  | unknownBase (sheet superclass : String)
  /-- A stylesheet extends one that is not the base. -/
  | indirectBase (sheet superclass : String)
  | unknownStyle (sheet style superclass : String)
  | notLinked
  /-- The path of a redirect has too few or too many parts. -/
  | redirectForm (path : String)
  /-- A redirect leads to no value. -/
  | redirectTarget (path sheet : String)
  | redirectCycle (paths : List String)
  | extensionCycle (styles : List String)
  /-- The branches of a conditional value have several types. -/
  | branchTypes (property : String) (types : List String)
  deriving DecidableEq, Repr

namespace SuiteError

/-- A cycle as it is printed. -/
def arrows (names : List String) : String := " -> ".intercalate names

def message : SuiteError → String
  | noBase => "no base stylesheet: exactly one stylesheet must have no superclass"
  | severalBases names => "multiple base stylesheets: " ++ ", ".intercalate names
  | registeredTwice sheet => "stylesheet `" ++ sheet ++ "` is registered twice"
  | unknownBase sheet superclass =>
    "stylesheet `" ++ sheet ++ "` extends unknown stylesheet `" ++ superclass ++ "`"
  | indirectBase sheet superclass =>
    "stylesheet `" ++ sheet ++ "` extends `" ++ superclass ++ "`, which is not the base stylesheet"
  | unknownStyle sheet style superclass =>
    "style `" ++ style ++ "` in stylesheet `" ++ sheet ++ "` extends unknown style `" ++
      superclass ++ "`"
  | notLinked => "registry must be linked before resolution"
  | redirectForm path =>
    "invalid redirect `" ++ path ++ "`: expected Style.property or Style.Nested.property"
  | redirectTarget path sheet =>
    "redirect `" ++ path ++ "` in stylesheet `" ++ sheet ++ "` does not match any property"
  | redirectCycle paths => "cycle detected in redirects: " ++ arrows paths
  | extensionCycle styles => "cycle detected in style inheritance: " ++ arrows styles
  | branchTypes property types =>
    "conditional branches of `" ++ property ++ "` disagree on type: " ++ ", ".intercalate types

end SuiteError

end Appearance
