import Appearance.Config.Basic
import Appearance.Config.Error
import Appearance.Yaml.Node.Basic

/-!
# Reading a configuration

A configuration is a YAML mapping, read section by section. An entry that is null counts as absent.
Paths are completed by the directory of the configuration.

`ConfigSection` is a mapping with the directory that completes its paths, and it has one accessor
for each kind of entry: texts, paths, flags, lists of texts and sections, each in a form that may
be absent and, where it is needed, in one that must be there. Sections are sequences of such
accesses, in the order in which their faults are told. The document comes from `Yaml.Parser`, and
nothing but its tree is looked at. `Config.load` reads a file of a tree; `Config.parse` is the part
of it that knows no files.
-/

namespace Appearance

open Appearance.Text
open Appearance.Yaml (Node)

/-- The kind of a node. -/
def Yaml.Node.kind : Node → NodeKind
  | .null => .null
  | .bool _ => .bool
  | .number _ => .number
  | .string _ => .string
  | .sequence _ => .sequence
  | .mapping _ => .mapping
  | .tagged .. => .tagged

/-- A mapping of a configuration with the directory that completes its paths. -/
structure ConfigSection where
  entries : List (Node × Node)
  dir : String

/-- What comes of reading a part of a configuration. -/
abbrev ConfigResult := Except ConfigError

/-- The fault of an entry that has the wrong kind. -/
def wrongKind {α : Type} (key : List String) (expected : Expected) (node : Node) :
    ConfigResult α :=
  .error (.wrongType key expected (.node node.kind))

/-- A value that has to be there. -/
def required {α : Type} (key : List String) : Option α → ConfigResult α
  | some a => .ok a
  | none => .error (.missing key)

/-- A result in a section of the given key. -/
def inSection {α : Type} (key : String) : ConfigResult α → ConfigResult α
  | .ok a => .ok a
  | .error e => .error (e.within key)

/-- Reads a list of nodes; `index` is the index of the first one. -/
def readItems {α : Type} (read : Nat → Node → ConfigResult α) :
    Nat → List Node → ConfigResult (List α)
  | _, [] => .ok []
  | index, node :: nodes =>
    match read index node with
    | .error e => .error e
    | .ok a => (readItems read (index + 1) nodes).map (a :: ·)

namespace ConfigSection

/-! ## Entries -/

/-- The entry of a key that is not null. -/
def get? (s : ConfigSection) (key : String) : Option Node :=
  (Node.lookup key s.entries).filter (!·.isNull)

/-- A text that may be absent. -/
def string? (s : ConfigSection) (key : String) : ConfigResult (Option String) :=
  match s.get? key with
  | none => .ok none
  | some (.string text) => .ok (some text)
  | some node => wrongKind [key] .string node

/-- A text that has to be there. -/
def string (s : ConfigSection) (key : String) : ConfigResult String := do
  required [key] (← s.string? key)

/-- A path from the working directory. -/
def path? (s : ConfigSection) (key : String) : ConfigResult (Option String) :=
  (s.string? key).map (Option.map (Path.join s.dir))

/-- A path from the working directory that has to be there. -/
def path (s : ConfigSection) (key : String) : ConfigResult String := do
  required [key] (← s.path? key)

/-- A flag; `missing` is its value if it is not given. -/
def flag (s : ConfigSection) (key : String) (missing : Bool) : ConfigResult Bool :=
  match s.get? key with
  | none => .ok missing
  | some (.bool b) => .ok b
  | some node => wrongKind [key] .bool node

/-- A text in a list. -/
def item (key : String) (index : Nat) : Node → ConfigResult String
  | .string text => .ok text
  | node => wrongKind [key, natText index] .string node

/-- A text or a list of texts. -/
def strings? (s : ConfigSection) (key : String) : ConfigResult (Option (List String)) :=
  match s.get? key with
  | none => .ok none
  | some (.string text) => .ok (some [text])
  | some (.sequence items) => (readItems (item key) 0 items).map some
  | some node => wrongKind [key] .stringOrSequence node

/-- A text or a list of texts that has to be there. -/
def strings (s : ConfigSection) (key : String) : ConfigResult (List String) := do
  required [key] (← s.strings? key)

/-- A section that may be absent; its paths are completed by the same directory. -/
def section? (s : ConfigSection) (key : String) : ConfigResult (Option ConfigSection) :=
  match s.get? key with
  | none => .ok none
  | some (.mapping entries) => .ok (some ⟨entries, s.dir⟩)
  | some node => wrongKind [key] .mapping node

/-- Reads a section that may be absent. -/
def read? {α : Type} (s : ConfigSection) (key : String) (read : ConfigSection → ConfigResult α) :
    ConfigResult (Option α) := do
  match ← s.section? key with
  | some inner => return some (← inSection key (read inner))
  | none => return none

end ConfigSection

/-! ## Sections -/

/-- Reads the project of an output. A separator at the end of the group counts for nothing. -/
def ProjectLink.read (s : ConfigSection) : ConfigResult ProjectLink := do
  let project ← s.path "project"
  let target ← s.string "target"
  let group ← s.string? "group"
  return ⟨project, target, group.map (trimEndChar '/')⟩

/-- Reads where files are written: a path or a project must be given. -/
def OutputConfig.read (s : ConfigSection) : ConfigResult OutputConfig := do
  let link ← s.read? "link" ProjectLink.read
  let path ← s.path? "path"
  if path.isNone && link.isNone then
    .error (.missing ["path"])
  else
    let plist ← s.path? "plist"
    let folder ← s.string? "folderFontForPlist"
    return ⟨path, link, plist, folder.map (trimStartChar '/')⟩

/-- Reads the framework on which the stylesheets build. -/
def FrameworkConfig.read (s : ConfigSection) : ConfigResult FrameworkConfig := do
  let name ← s.string "name"
  let base ← s.path "baseStylePath"
  let styles ← s.strings? "styles"
  return ⟨name, base, styles.getD []⟩

/-- Reads the section of an asset catalog. Its output is asked for first. -/
def SymbolAssetConfig.read (s : ConfigSection) : ConfigResult SymbolAssetConfig := do
  let output ← required ["output"] (← s.section? "output")
  let icons ← s.path "icons"
  let format ← s.string "format"
  let names ← s.strings "names"
  let inputs ← s.strings "inputs"
  let output ← inSection "output" (OutputConfig.read output)
  return ⟨icons, format, names, inputs.map (Path.join s.dir), output⟩

/-! ## Symbol fonts -/

/-- One font for both weights. -/
def SymbolFont.ofName (name : String) : SymbolFont := ⟨name, name⟩

namespace SymbolFontConfig

/-- The name of a weight of a font. -/
def weight? (key : List String) (entries : List (Node × Node)) (weight : String) :
    ConfigResult (Option String) :=
  match Node.lookup weight entries with
  | none => .ok none
  | some .null => .ok none
  | some (.string font) => .ok (some font)
  | some node => wrongKind (key ++ [weight]) .string node

/-- The font of a stylesheet: a name, or a name for each weight. A missing weight is that of the
other one. -/
def font (key : List String) : Node → ConfigResult SymbolFont
  | .string name => .ok (.ofName name)
  | .mapping entries => do
    match ← weight? key entries "light", ← weight? key entries "regular" with
    | some light, some regular => return ⟨light, regular⟩
    | some font, none => return .ofName font
    | none, some font => return .ofName font
    | none, none => .error (.missing (key ++ ["regular"]))
  | node => wrongKind key .stringOrMapping node

/-- The fonts with that of a stylesheet, in the stead of an earlier one. -/
def setFont (fonts : List (String × SymbolFont)) (sheet : String) (font : SymbolFont) :
    List (String × SymbolFont) :=
  fonts.filter (·.1 != sheet) ++ [(sheet, font)]

/-- The fonts of a list, one for each stylesheet; `count` is the length of the whole list and
`total` the number of stylesheets. -/
def fontsOfItems (count total : Nat) :
    Nat → List String → List Node → List (String × SymbolFont) →
      ConfigResult (List (String × SymbolFont))
  | _, _, [], fonts => .ok fonts
  | index, [], _ :: _, _ =>
    .error (.wrongType ["names", natText index] .fontPerSheet (.fonts count total))
  | index, sheet :: sheets, node :: nodes, fonts =>
    match font ["names", natText index] node with
    | .error e => .error e
    | .ok f => fontsOfItems count total (index + 1) sheets nodes (setFont fonts sheet f)

/-- The fonts of a mapping from the names of stylesheets. -/
def fontsOfEntries :
    List (Node × Node) → List (String × SymbolFont) → ConfigResult (List (String × SymbolFont))
  | [], fonts => .ok fonts
  | (key, node) :: rest, fonts =>
    match key.asText? with
    | none => wrongKind ["names"] .stringKey key
    | some sheet =>
      match font ["names", sheet] node with
      | .error e => .error e
      | .ok f => fontsOfEntries rest (setFont fonts sheet f)

/-- The fonts of stylesheets. A single name is for the first one. -/
def fontsOfNode (sheets : List String) : Node → ConfigResult (List (String × SymbolFont))
  | .string name => .ok ((sheets.head?.map fun sheet => (sheet, .ofName name)).toList)
  | .sequence items => fontsOfItems items.length sheets.length 0 sheets items []
  | .mapping entries => fontsOfEntries entries []
  | node => wrongKind ["names"] .fontNames node

/-- Reads the section of symbol fonts. Files to make fonts from and an output need each other. -/
def read (sheets : List String) (s : ConfigSection) : ConfigResult SymbolFontConfig := do
  let inputDir ← s.path? "inputDir"
  let inputs := ((← s.strings? "inputs").getD []).map (Path.join (inputDir.getD s.dir))
  let output ← s.read? "output" OutputConfig.read
  if !inputs.isEmpty && output.isNone then
    .error (.missing ["output"])
  else if inputs.isEmpty && output.isSome then
    .error (.missing ["inputs"])
  else
    let node ← required ["names"] (s.get? "names")
    let fonts ← fontsOfNode sheets node
    return ⟨inputs, output, fonts.mergeSort fun a b => Value.textLE a.1 b.1⟩

end SymbolFontConfig

namespace Config

/-! ## The whole -/

/-- The text of a key that is a string. -/
def styleKey (key : Node) : ConfigResult String :=
  match key.asText? with
  | some name => .ok name
  | none => wrongKind ["styles"] .stringKey key

/-- The text styles: a list, or the keys of a mapping. -/
def typographyOf (s : ConfigSection) : ConfigResult (List String) :=
  match s.get? "styles" with
  | some (.mapping entries) => entries.mapM fun e => styleKey e.1
  | _ => (s.strings? "styles").map (·.getD [])

/-- The names of stylesheets: the given ones, one for each input, else the names of the files. -/
def namesOf (inputs : List String) : Option (List String) → ConfigResult (List String)
  | none => .ok (inputs.map Path.fileStem)
  | some names =>
    if names.length = inputs.length then .ok names
    else .error (.wrongType ["names"] .namePerInput (.names names.length inputs.length))

/-- Reads the root of a configuration. -/
def ofSection (s : ConfigSection) : ConfigResult Config := do
  let framework ← s.read? "import" FrameworkConfig.read
  let inputDir ← s.path? "inputDir"
  let inputs := (← s.strings "inputs").map (Path.join (inputDir.getD s.dir))
  let names ← namesOf inputs (← s.strings? "names")
  let symbolFont ← s.read? "symbolsFont" (SymbolFontConfig.read names)
  let symbolAsset ← s.read? "symbolsAsset" SymbolAssetConfig.read
  let typography ← s.read? "typography" typographyOf
  let output ← required ["output", "path"] (← s.section? "output")
  let output ← inSection "output" (OutputConfig.read output)
  let objc ← s.flag "objc" false
  let extendedName ← s.string? "extendedName"
  let enclosing ← s.string? "namespace"
  let writesBase ← s.flag "generateBaseStyle" false
  let declaresProtocol ← s.flag "generateAppearanceProxyProtocol" true
  let splitsStyles ← s.flag "generateFilePerAppearanceProxy" false
  let base ← s.path? "baseStylePath"
  return {
    framework, objc, extendedName, enclosing, writesBase, declaresProtocol, splitsStyles, base
    inputs, names, symbolFont, symbolAsset, typography := typography.getD [], output }

/-- What the keys of errors begin with. -/
def rootKey : String := "stylesheet"

/-- Reads a configuration; `dir` is its directory. -/
def parse [Yaml.Parser] (dir source : String) : ConfigResult Config :=
  match Yaml.Parser.parse? source with
  | none => .error .notYaml
  | some root =>
    match root.entries? with
    | some entries => inSection rootKey (ofSection ⟨entries, dir⟩)
    | none => inSection rootKey (wrongKind [] .mapping root)

/-- Reads the configuration of a file. -/
def load [Yaml.Parser] (tree : FileTree) (path : String) : ConfigResult Config :=
  match tree.read path with
  | .ok source => parse ((Path.parent? path).getD "") source
  | .error trouble => .error (.unreadable path trouble)

end Config

end Appearance
