import Appearance.Build.Error
import Appearance.Code.File
import Appearance.Config.Basic
import Appearance.Registry.Prepared

/-!
# Builds

A build reads the stylesheets of a configuration from a tree of files into a registry, links it,
gets the stylesheets ready, and generates code from them. The first failure ends a build.
`Config.run` also writes the files; one whose content would stay the same is left alone.

A build is a composition of total functions. `Config.registry` loads the base stylesheet, then the
inputs in order, and registers each before the next one is read; the stylesheet of the framework
comes last. `Config.compile` checks the paths, links the registry, prepares it and generates the
files from its view as a suite. `Config.writeFiles` writes them one by one and keeps those before a
failure. Imports are followed through at most as many files as the tree has, which is enough for
every tree without a cycle of imports. The reader of YAML is a parameter (`Yaml.Parser`), so what
is proved of builds holds for every reader.
-/

namespace Appearance

open Appearance.Text

/-- A generated file and what became of it. -/
structure BuiltFile where
  /-- The name that is told to the user. -/
  title : String
  path : String
  outcome : WriteOutcome
  deriving DecidableEq, Repr

namespace Config

/-! ## Paths -/

/-- The files that a configuration reads. -/
def requiredPaths (c : Config) : List String :=
  c.base.toList ++ (c.framework.map FrameworkConfig.base).toList ++ c.inputs

/-- The directory in which the output directory lies, if it is not the working directory. -/
def outputParent? (c : Config) : Option String := (Path.parent? c.output.dir).filter (· != "")

/-- All files that are read, and the directory around the output, are there. -/
def checkPaths (c : Config) (tree : FileTree) : Except BuildError Unit :=
  match (c.requiredPaths ++ c.outputParent?.toList).find? (!tree.has ·) with
  | some path => .error (.config (.pathMissing path))
  | none => .ok ()

/-! ## Stylesheets -/

/-- The symbol font of a stylesheet. If any has one, the base has at least a placeholder. -/
def fontOf (c : Config) (name : String) (isBase : Bool) : Option SymbolFont :=
  match c.fonts.lookup name with
  | some font => some font
  | none => if isBase && !c.fonts.isEmpty then some .placeholder else none

/-- A stylesheet that a build reads. -/
structure Source where
  role : SheetRole
  path : String
  declaration : String
  font : Option SymbolFont

/-- The base stylesheet, if the configuration names one. -/
def baseSource? (c : Config) : Option Source :=
  c.base.map fun path =>
    let name := Path.fileStem path
    ⟨.base, path, name, c.fontOf name true⟩

/-- The stylesheets of the inputs. They extend the base stylesheet, if there is one. -/
def inputSources (c : Config) : List Source :=
  (c.inputs.zip c.names).map fun (path, name) =>
    let declaration :=
      match c.baseName? with
      | some base => name ++ ":" ++ base
      | none => name
    ⟨.input, path, declaration, c.fontOf name c.base.isNone⟩

/-- The stylesheet of the framework. -/
def frameworkSource? (c : Config) : Option Source :=
  c.framework.map fun f => ⟨.framework, f.base, Path.fileStem f.base, none⟩

/-- Reads a stylesheet with all that it imports. -/
def loadSource [Yaml.Parser] (c : Config) (tree : FileTree) (source : Source) :
    Except BuildError Stylesheet :=
  match Load.file tree.read? (tree.size + 1) ⟨c.typography, source.font⟩ source.path
      source.declaration with
  | .ok sheet => .ok sheet
  | .error e => .error (.load source.role source.path e)

/-- Reads stylesheets and registers each before the next one is read. -/
def registerSources [Yaml.Parser] (c : Config) (tree : FileTree) :
    List Source → Registry → Except BuildError Registry
  | [], registry => .ok registry
  | source :: sources, registry =>
    match c.loadSource tree source with
    | .error e => .error e
    | .ok sheet =>
      match registry.register sheet with
      | (_, .error e) => .error (.suite e)
      | (registry, .ok _) => registerSources c tree sources registry

/-- Reads the stylesheet of the framework, if there is one. -/
def setFramework [Yaml.Parser] (c : Config) (tree : FileTree) (registry : Registry) :
    Except BuildError Registry :=
  match c.frameworkSource? with
  | none => .ok registry
  | some source => (c.loadSource tree source).map fun sheet => (registry.setImported sheet).1

/-- The registry of all stylesheets of a configuration. -/
def registry [Yaml.Parser] (c : Config) (tree : FileTree) : Except BuildError Registry := do
  let registry ← c.registerSources tree (c.baseSource?.toList ++ c.inputSources) .empty
  c.setFramework tree registry

/-- All stylesheets of a configuration as a suite. -/
def suite [Yaml.Parser] (c : Config) (tree : FileTree) : Except BuildError Suite :=
  (c.registry tree).map Registry.suite

/-! ## Code -/

/-- An error of the suite as one of the build. -/
def ofSuite {α : Type} : Except SuiteError α → Except BuildError α
  | .ok a => .ok a
  | .error e => .error (.suite e)

/-- The generated files of a configuration. -/
def compile [Yaml.Parser] (c : Config) (tree : FileTree) :
    Except BuildError (List GeneratedFile) := do
  c.checkPaths tree
  let registry ← c.registry tree
  match registry.link with
  | (_, .error e) => .error (.suite e)
  | (registry, .ok ()) =>
    match registry.prepared c.settings with
    | (_, .error e) => .error (.suite e)
    | (ready, .ok ()) => ofSuite (ready.suite.generateAll c.settings)

/-! ## Output -/

/-- The name of a file without the ends that all generated files have. -/
def titleOf (c : Config) (file : String) : String :=
  let name :=
    match stripSuffix? Code.fileSuffix file with
    | some name => trimEndChar '.' name
    | none => file
  match c.extendedName with
  | some extended => (stripSuffix? ("." ++ extended) name).getD name
  | none => name

/-- The path of a generated file. -/
def outputPath (c : Config) (file : GeneratedFile) : String := Path.join c.output.dir file.name

/-- Writes files into the output directory one after the other. The first failure ends it; the
files before it stay written. -/
def writeFiles (c : Config) :
    List GeneratedFile → FileTree → FileTree × Except BuildError (List BuiltFile)
  | [], tree => (tree, .ok [])
  | file :: files, tree =>
    let path := c.outputPath file
    match tree.writeIfChanged path file.content with
    | .error trouble => (tree, .error (.write path trouble))
    | .ok (outcome, tree) =>
      let (tree, rest) := writeFiles c files tree
      (tree, rest.map (⟨c.titleOf file.name, path, outcome⟩ :: ·))

/-- Generates the files of a configuration and writes those that changed. -/
def run [Yaml.Parser] (c : Config) (tree : FileTree) :
    FileTree × Except BuildError (List BuiltFile) :=
  match c.compile tree with
  | .ok files => c.writeFiles files tree
  | .error e => (tree, .error e)

/-- The paths that a run looks at, as far as the files in the tree tell: an import that is not
there ends the list. -/
def looksAt [Yaml.Parser] (c : Config) (tree : FileTree) : List String :=
  c.requiredPaths ++ c.outputParent?.toList ++
    match c.compile tree with
    | .ok files => files.map c.outputPath
    | .error (.load _ _ (.fileMissing path)) => [path]
    | .error _ => []

end Config

end Appearance
