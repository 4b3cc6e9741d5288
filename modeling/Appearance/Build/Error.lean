import Appearance.Config.Error
import Appearance.Sheet.Error
import Appearance.Suite.Error

/-!
# Why a build fails

A build passes on the errors of its steps and says on what it was working. `BuildError.message`
gives the whole chain, from the outermost error to its cause.

The constructors follow the steps of a build: the configuration, the loading of a stylesheet in one
of three roles, the suite of stylesheets, the writing of a file. `BuildError.chain` lists the error
and its causes, each in a text of its own, and `BuildError.joined` puts them on one line. One cause
has no message: a color literal cut inside a character ends the program at once, and
`BuildError.aborts` tells this case from a failure that is reported.
-/

namespace Appearance

/-- What a stylesheet is for in a build. -/
inductive SheetRole where
  | base
  | input
  | framework
  deriving DecidableEq, Repr

/-- A stylesheet of a role as messages name it. -/
def SheetRole.text : SheetRole → String
  | base => "base stylesheet"
  | input => "stylesheet"
  | framework => "imported stylesheet"

/-- Why a build fails. -/
inductive BuildError where
  | config (error : ConfigError)
  | load (role : SheetRole) (path : String) (error : LoadError)
  | suite (error : SuiteError)
  | write (path : String) (trouble : FileTrouble)
  deriving DecidableEq, Repr

namespace BuildError

/-- The error and its causes, each in a text of its own. -/
def chain : BuildError → List String
  | config e => e.chain
  | load role path e => ("cannot load " ++ role.text ++ " " ++ path) :: e.chain
  | suite e => [e.message]
  | write path trouble => ["cannot write " ++ path, trouble.message]

/-- Errors from the outermost to the innermost on one line. -/
def joined (chain : List String) : String := ": ".intercalate chain

/-- The error with all its causes on one line. -/
def message (e : BuildError) : String := joined e.chain

/-- A color that cannot be cut into channels and opacity ends the program at once. -/
def aborts : BuildError → Bool
  | load _ _ (.illegalValue _ _ (.color .splitCharacter)) => true
  | _ => false

end BuildError

end Appearance
