import Appearance.Build.Run
import Appearance.Config.Read
import Appearance.Yaml.Node.Read

/-!
# The command line

The program takes a configuration and builds it. `Invocation.parse` reads its arguments and
`Invocation.run` runs it on a tree of files: what it prints, and the code with which it ends.

Reading is a run of a small machine over the arguments. `Options` is its state, `Invocation.step`
reads one argument and `Invocation.finish` ends the run. A value that stands in an argument of its
own is only noted (`Pending`); it takes effect when the next option is taken up or when the
arguments end, and this is what decides which of two faults is told. After `--version` nothing is
read any more. Everything behind `--` is an operand, and there is none.

Running is a function on trees of files: `Invocation.run` gives the tree after the run and a
`Report`, and `Invocation.looksAt` lists the paths that the outer program has to fetch before. The
disk itself appears in `Main` only.
-/

namespace Appearance

open Appearance.Text

/-- What the program is asked for. -/
inductive Invocation where
  | build (config : String)
  | version
  deriving DecidableEq, Repr

/-- What is wrong with the arguments. -/
inductive UsageError where
  | unexpected (argument : String)
  | missingValue
  | repeated (option : String)
  | unexpectedValue (value option : String)
  deriving DecidableEq, Repr

/-- A configuration that is named by an argument of its own. It takes effect with the next option
or at the end. -/
inductive Pending where
  | nothing
  /-- The option is there and its value is not. -/
  | valueNext
  | value (path : String)
  deriving DecidableEq, Repr

/-- The options that are read so far. -/
structure Options where
  config : Option String
  isVerbose : Bool
  pending : Pending
  deriving DecidableEq, Repr

/-- What a run of the program leaves: its code, and what it printed. -/
structure Report where
  code : Nat
  output : String
  errors : String
  deriving DecidableEq, Repr

/-- The file that is read if no other is named. -/
def Config.usualPath : String := "sgen.yml"

namespace UsageError

/-- The option of a configuration as usage shows it. -/
def configOption : String := "--config <CONFIG>"

def message : UsageError → String
  | unexpected argument => "unexpected argument '" ++ argument ++ "' found"
  | missingValue => "a value is required for '" ++ configOption ++ "' but none was supplied"
  | repeated option => "the argument '" ++ option ++ "' cannot be used multiple times"
  | unexpectedValue value option =>
    "unexpected value '" ++ value ++ "' for '" ++ option ++ "' found; no more were expected"

end UsageError

namespace Options

/-- The options without any argument. -/
def start : Options := ⟨none, false, .nothing⟩

/-- Names the configuration, at most once. -/
def setConfig (o : Options) (path : String) : Except UsageError Options :=
  if o.config.isSome then .error (.repeated UsageError.configOption)
  else if path.isEmpty then .error .missingValue
  else .ok { o with config := some path }

/-- Lets a pending value take effect. -/
def settled (o : Options) : Except UsageError Options :=
  match o.pending with
  | .nothing => .ok o
  | .valueNext => .error .missingValue
  | .value path => { o with pending := .nothing }.setConfig path

/-- Asks for messages about the steps, at most once. -/
def setVerbose (o : Options) : Except UsageError Options :=
  if o.isVerbose then .error (.repeated "--verbose") else .ok { o with isVerbose := true }

/-- The invocation of all arguments. -/
def invocation (o : Options) : Invocation := .build (o.config.getD Config.usualPath)

end Options

namespace Invocation

/-- What an argument leads to: the invocation, or the options with those before it. -/
inductive Step where
  | done (invocation : Invocation)
  | options (options : Options)
  /-- No option follows. -/
  | lastOption

/-- The value that is glued to a letter; a sign of equality may stand before it. -/
def gluedValue : List Char → String
  | '=' :: value => String.ofList value
  | value => String.ofList value

/-- Takes an option up: what is pending comes first. -/
def takeUp (o : Options) (apply : Options → Except UsageError Options) :
    Except UsageError Options :=
  match o.settled with
  | .ok o => apply o
  | .error e => .error e

/-- Asks for the version. -/
def askVersion (o : Options) : Except UsageError Step :=
  (takeUp o .ok).map fun _ => .done .version

/-- The value of the configuration is the next argument. -/
def awaitValue (o : Options) : Except UsageError Step :=
  (takeUp o .ok).map fun o => .options { o with pending := .valueNext }

/-- Reads letters behind a dash. -/
def letters (o : Options) : List Char → Except UsageError Step
  | [] => .ok (.options o)
  | 'v' :: rest =>
    match takeUp o Options.setVerbose with
    | .ok o => letters o rest
    | .error e => .error e
  | 'V' :: _ => askVersion o
  | ['c'] => awaitValue o
  | 'c' :: rest => (takeUp o (·.setConfig (gluedValue rest))).map .options
  | c :: _ => .error (.unexpected ("-" ++ String.singleton c))

/-- Reads a word behind two dashes. -/
def word (o : Options) (name : String) (value : Option String) : Except UsageError Step :=
  match name, value with
  | "config", some value => (takeUp o (·.setConfig value)).map .options
  | "config", none => awaitValue o
  | "verbose", none => (takeUp o Options.setVerbose).map .options
  | "verbose", some value => .error (.unexpectedValue value "--verbose")
  | "version", none => askVersion o
  | "version", some value => .error (.unexpectedValue value "--version")
  | name, _ => .error (.unexpected ("--" ++ name))

/-- Reads an argument that is no option: the value that is awaited, if one is. -/
def operand (o : Options) (argument : String) : Except UsageError Step :=
  if o.pending = .valueNext then .ok (.options { o with pending := .value argument })
  else .error (.unexpected argument)

/-- Reads one argument. -/
def step (o : Options) (argument : String) : Except UsageError Step :=
  match argument.toList with
  | '-' :: '-' :: name =>
    if name.isEmpty then .ok .lastOption
    else if name.contains '=' then
      word o (String.ofList (name.takeWhile (· != '=')))
        (some (String.ofList (name.dropWhile (· != '=')).tail))
    else word o (String.ofList name) none
  | '-' :: c :: rest => letters o (c :: rest)
  | _ => operand o argument

/-- The invocation when the arguments end. -/
def finish (o : Options) : Except UsageError Invocation := (takeUp o .ok).map Options.invocation

/-- Reads arguments from left to right. -/
def parseFrom (o : Options) : List String → Except UsageError Invocation
  | [] => finish o
  | argument :: rest =>
    match step o argument with
    | .error e => .error e
    | .ok (.done invocation) => .ok invocation
    | .ok (.options o) => parseFrom o rest
    | .ok .lastOption =>
      match rest with
      | [] => finish o
      | argument :: _ => .error (.unexpected argument)

/-- Reads the arguments of the program. -/
def parse (arguments : List String) : Except UsageError Invocation := parseFrom .start arguments

/-! ## Running -/

/-- The code after a fault that ends the program at once. -/
def abortCode : Nat := 101

/-- What the program calls itself, with its version. -/
def versionLine : String := "sgen 0.1.0\n"

/-- A failure as it is printed. -/
def errorLine (message : String) : String := "error: " ++ message ++ "\n"

/-- What is told of a file. -/
def fileLines (file : BuiltFile) : String :=
  "Generating stylesheet " ++ file.title ++ "...\n" ++ "Stylesheet " ++ file.title ++
    (match file.outcome with
      | .written => " generated.\n"
      | .unchanged => " skipped (no changes).\n")

/-- The code after a failed build. -/
def failureCode : Nat := 1

/-- The code after arguments that cannot be read. -/
def usageCode : Nat := 2

/-- The errors of a configuration that cannot be read. -/
def configMessage (path : String) (e : ConfigError) : String :=
  BuildError.joined (("cannot load " ++ path) :: e.chain)

/-- Runs the program. -/
def run (tree : FileTree) : Invocation → FileTree × Report
  | version => (tree, ⟨0, versionLine, ""⟩)
  | build path =>
    match Config.load tree path with
    | .error e => (tree, ⟨failureCode, "", errorLine (configMessage path e)⟩)
    | .ok config =>
      match config.run tree with
      | (tree, .ok files) => (tree, ⟨0, String.join (files.map fileLines), ""⟩)
      | (tree, .error e) =>
        if e.aborts then (tree, ⟨abortCode, "", ""⟩)
        else (tree, ⟨failureCode, "", errorLine e.message⟩)

/-- What is left of arguments that cannot be read. -/
def usageReport (e : UsageError) : Report := ⟨usageCode, "", errorLine e.message⟩

/-- Runs the program with arguments. -/
def runArguments (tree : FileTree) (arguments : List String) : FileTree × Report :=
  match parse arguments with
  | .ok invocation => invocation.run tree
  | .error e => (tree, usageReport e)

/-- The paths that a run looks at, as far as the files in the tree tell. -/
def looksAt (tree : FileTree) : Invocation → List String
  | version => []
  | build path =>
    path ::
      match Config.load tree path with
      | .ok config => config.looksAt tree
      | .error _ => []

end Invocation

end Appearance
