import Appearance.Path
import Appearance.Sheet.Basic
import Appearance.Sheet.Error
import Appearance.Shorthand
import Appearance.Style.Declaration
import Appearance.Value.OfNode
import Appearance.Yaml.Node.Basic

/-!
# Loading stylesheets

A stylesheet source is a YAML mapping from declarations to styles. The form of a node says what a
property is: a sequence of mappings is a nested style, a mapping is a conditional value, any other
sequence is an array, and a scalar is a value. The key `import` names files whose styles are taken
over.

`Style.propertyOfNode` reads properties, `Style.ofEntry` and `Style.animatorOfNode` read styles, and
`Load.source` and `Load.file` read stylesheets. Files are read through a function, so the same
definitions serve any set of files; the depth of imports bounds the recursion.

The recursion over nodes is bounded by their height (`Yaml.Node.height`), which is computed for
each entry of a style and never reached. Nested styles merge all mappings of their sequence into
one, a later entry replacing the value of an earlier one in its place. `Style.adopt` is the last
step of a declared style: it marks the style and all nested in it with the stylesheet and with the
style around them.

Imports and declarations are taken up in the order of the source, one after the other, so the
styles of a file stand where its import stood. What is imported is marked as a dependency and
otherwise kept. The symbol font comes last and is a style like any other.
-/

namespace Appearance

open Appearance.Text
open Appearance.Yaml (Node)

/-- The font names of a symbol font, one for each weight. -/
structure SymbolFont where
  light : String
  regular : String
  deriving DecidableEq, Repr

/-- The font of a base stylesheet that has none of its own. -/
def SymbolFont.placeholder : SymbolFont := ⟨"-", "-"⟩

/-- What loading depends on beside the source. -/
structure LoadOptions where
  typography : List String
  symbolFont : Option SymbolFont
  deriving Repr

/-- How a stylesheet is read: its name, and the text styles of the project. -/
structure SheetContext where
  stylesheet : String
  typography : List String
  deriving Repr

namespace SheetContext

/-- A fault in the form of the source. -/
def fail {α : Type} (ctx : SheetContext) (fault : SheetFault) : Except LoadError α :=
  .error (.malformed ctx.stylesheet fault)

/-- The failure of the value of a key. -/
def illegal {α : Type} (ctx : SheetContext) (key : String) :
    Except ValueError α → Except LoadError α
  | .ok a => .ok a
  | .error cause => .error (.illegalValue ctx.stylesheet key cause)

/-- The text of a key. -/
def keyText (ctx : SheetContext) (key : Node) : Except LoadError String :=
  match key.scalarText? with
  | some text => .ok text
  | none => ctx.fail (.unsupportedKey key.display)

/-- How the value of a key is read. -/
def values (ctx : SheetContext) (key : String) : ValueContext := ⟨some key, ctx.typography⟩

end SheetContext

namespace Yaml.Node

/-- Replaces the value of the key, or adds an entry at the end. -/
def setEntry (key value : Node) : List (Node × Node) → List (Node × Node)
  | [] => [(key, value)]
  | (k, v) :: rest => if key.same k then (k, value) :: rest else (k, v) :: setEntry key value rest

/-- The entries of mappings, taken together; a later value replaces an earlier one. Only mappings
without a tag count. -/
def mergedEntries (items : List Node) : List (Node × Node) :=
  items.foldl
    (fun merged item =>
      match item with
      | .mapping entries => entries.foldl (fun m e => setEntry e.1 e.2 m) merged
      | _ => merged)
    []

mutual

/-- How deep nodes are nested in a node. -/
def height : Node → Nat
  | .sequence items => heightOfItems items + 1
  | .mapping entries => heightOfEntries entries + 1
  | .tagged _ node => height node + 1
  | _ => 0

/-- The height of the highest item. -/
def heightOfItems : List Node → Nat
  | [] => 0
  | n :: ns => max (height n) (heightOfItems ns)

/-- The height of the highest key or value. -/
def heightOfEntries : List (Node × Node) → Nat
  | [] => 0
  | (k, v) :: rest => max (max (height k) (height v)) (heightOfEntries rest)

end

end Yaml.Node

namespace Style

/-- The key whose value is a list of keyframes. -/
def keyFramesKey : String := "keyFrames"

/-- The key whose value is a repeat count. -/
def repeatCountKey : String := "repeatCount"

/-- A sequence of mappings, which writes a nested style. -/
def isNested (items : List Node) : Bool := !items.isEmpty && items.all Node.isMapping

/-- Any other property than a nested style. -/
def leafOfNode (ctx : SheetContext) (key : String) (node : Node) : Except LoadError Property :=
  let value :=
    if key = repeatCountKey && !node.isMapping then
      (Value.repeatCountOfNode (ctx.values key) node).map Value.repeatCount
    else Value.ofNode (ctx.values key) node
  (ctx.illegal key value).map (Property.ofValue key)

/-- The keyframes of a sequence. -/
def framesOfNodes (ctx : SheetContext) (key : String) (items : List Node) :
    Except LoadError Property :=
  (ctx.illegal key (items.mapM Value.keyFrameOfNode)).map fun frames =>
    .ofValue key (.array (frames.map Value.keyFrame))

/-- Reads the property of a key; nesting deeper than the given number of levels is not looked
into. -/
def propertyOfNode (ctx : SheetContext) : Nat → String → Node → Except LoadError Property
  | 0, key, node => leafOfNode ctx key node
  | depth + 1, key, node =>
    match node with
    | .sequence items =>
      if key = keyFramesKey then framesOfNodes ctx key items
      else if isNested items then do
        let properties ← (Node.mergedEntries items).mapM fun e => do
          propertyOfNode ctx depth (← ctx.keyText e.1) e.2
        return .ofNested key (named key properties)
      else leafOfNode ctx key node
    | _ => leafOfNode ctx key node

/-- The properties of a mapping. -/
def propertiesOfEntries (ctx : SheetContext) (entries : List (Node × Node)) :
    Except LoadError (List Property) :=
  entries.mapM fun e => do propertyOfNode ctx (e.2.height + 1) (← ctx.keyText e.1) e.2

mutual

/-- Marks a style and those nested in it as belonging to a stylesheet, and the nested ones with the
name of the style around them. -/
def adopt (sheet : String) : Style → Style
  | mk head properties =>
    mk { head with belongsTo := some sheet } (adoptEach sheet head.name properties)

/-- Adopts the nested styles among properties. -/
def adoptEach (sheet parent : String) : List Property → List Property
  | [] => []
  | .leaf head value :: ps => .leaf head value :: adoptEach sheet parent ps
  | .nested head style :: ps =>
    .nested head (adoptIn sheet parent style) :: adoptEach sheet parent ps

/-- Adopts a style that is nested in another one. -/
def adoptIn (sheet parent : String) : Style → Style
  | mk head properties =>
    mk { head with nestedIn := some parent, belongsTo := some sheet }
      (adoptEach sheet head.name properties)

end

/-- The style of a declaration and its node. -/
def ofEntry (ctx : SheetContext) (declaration : String) (node : Node) : Except LoadError Style :=
  match node with
  | .mapping entries =>
    (propertiesOfEntries ctx entries).map fun properties =>
      (ofDeclaration declaration properties).adopt ctx.stylesheet
  | _ => ctx.fail (.styleNotMapping declaration)

/-- An animation of the animator of the given name. -/
def animationOfEntry (ctx : SheetContext) (animator : String) (e : Node × Node) :
    Except LoadError Property := do
  let style ← ofEntry ctx (← ctx.keyText e.1) e.2
  return .ofStyle
    (style.withHead { style.head with isAnimation := true, nestedIn := some animator })

/-- The animator of a name and its node. -/
def animatorOfNode (ctx : SheetContext) (name : String) (node : Node) : Except LoadError Style :=
  match node with
  | .mapping entries =>
    (entries.mapM (animationOfEntry ctx name)).map fun properties =>
      mk { StyleHead.named name with isAnimation := true, belongsTo := some ctx.stylesheet }
        properties
  | _ => ctx.fail (.animatorNotMapping name)

/-- The name of the style that holds the names of a symbol font. -/
def symbolFontName : String := "__SymbolFont"

/-- The enumeration of the weights of a symbol font. -/
def iconicFontStyle : String := "IconicFontStyle"

/-- A property that names a font of the symbol font. -/
def symbolFontProperty (ctx : SheetContext) (key name : String) : Except LoadError Property :=
  (ctx.illegal key (Value.fontOfNames name [] [name])).map (Property.ofValue key)

/-- The style of a symbol font. A base stylesheet defines the weights as well. -/
def ofSymbolFont (ctx : SheetContext) (font : SymbolFont) (isBase : Bool) :
    Except LoadError Style := do
  let light ← symbolFontProperty ctx "lightFontName" font.light
  let regular ← symbolFontProperty ctx "regularFontName" font.regular
  let weights :=
    if isBase then
      [Property.ofValue iconicFontStyle (.enumDef iconicFontStyle ["light", "regular"])]
    else []
  return mk { StyleHead.named symbolFontName with belongsTo := some ctx.stylesheet }
    ([light, regular] ++ weights)

end Style

namespace Load

/-- The key whose value names imported files. -/
def importKey : String := "import"

/-- A declaration of an animator begins with this. -/
def animatorPrefix : String := "__animator"

/-- The files that an import names. -/
def importedFiles (ctx : SheetContext) (node : Node) : Except LoadError (List String) :=
  match node with
  | .string file => .ok [file]
  | .sequence items =>
    items.mapM fun item =>
      match item.asText? with
      | some file => .ok file
      | none => ctx.fail .importEntry
  | _ => ctx.fail .importForm

/-- Marks a style as imported. -/
def asDependency (s : Style) : Style := s.withHead { s.head with isDependency := true }

/-- Adds the styles of an imported file. -/
def addImport (sheet : Stylesheet) (file : String) (dependency : Stylesheet) : Stylesheet :=
  { sheet with styles := sheet.styles ++ dependency.styles.map asDependency
               dependencies := sheet.dependencies ++ [file] }

/-- Adds the styles of imported files in order. `importFile` loads one. -/
def addImports (importFile : String → Except LoadError Stylesheet) :
    Stylesheet → List String → Except LoadError Stylesheet
  | sheet, [] => .ok sheet
  | sheet, file :: files =>
    match importFile file with
    | .ok dependency => addImports importFile (addImport sheet file dependency) files
    | .error e => .error e

/-- Adds a declared style. -/
def addStyle (sheet : Stylesheet) (style : Style) : Stylesheet :=
  { sheet with
    styles :=
      sheet.styles ++ [style.withHead { style.head with extendsSheet := sheet.superclass }] }

/-- Adds an entry of the root mapping. -/
def addEntry (importFile : String → Except LoadError Stylesheet) (ctx : SheetContext)
    (sheet : Stylesheet) (e : Node × Node) : Except LoadError Stylesheet := do
  let key ← ctx.keyText e.1
  if key = importKey then
    addImports importFile sheet (← importedFiles ctx e.2)
  else
    match stripPrefix? animatorPrefix key with
    | some name =>
      let animator ← Style.animatorOfNode ctx (trim name) e.2
      return { sheet with animator := some animator }
    | none => return addStyle sheet (← Style.ofEntry ctx key e.2)

/-- Adds entries of the root mapping in order. -/
def addEntries (importFile : String → Except LoadError Stylesheet) (ctx : SheetContext) :
    Stylesheet → List (Node × Node) → Except LoadError Stylesheet
  | sheet, [] => .ok sheet
  | sheet, e :: es =>
    match addEntry importFile ctx sheet e with
    | .ok sheet => addEntries importFile ctx sheet es
    | .error error => .error error

/-- Adds the style of the symbol font, if there is one. -/
def addSymbolFont (ctx : SheetContext) (font : Option SymbolFont) (sheet : Stylesheet) :
    Except LoadError Stylesheet :=
  match font with
  | none => .ok sheet
  | some font =>
    (Style.ofSymbolFont ctx font sheet.isBase).map fun style =>
      { sheet with styles := sheet.styles ++ [style], hasSymbolFont := true }

/-- The entries of the root mapping of a source. -/
def rootEntries [Yaml.Parser] (ctx : SheetContext) (source : String) :
    Except LoadError (List (Node × Node)) :=
  match Yaml.Parser.parse? (Shorthand.expand source) with
  | none => .error (.notYaml ctx.stylesheet)
  | some root =>
    if root.isNull then ctx.fail .nullRoot
    else
      match root with
      | .mapping entries => .ok entries
      | _ => ctx.fail .rootNotMapping

/-- The stylesheet of a declaration and its source. `importFile` loads the files that it imports. -/
def sourceWith [Yaml.Parser] (importFile : String → Except LoadError Stylesheet)
    (options : LoadOptions) (declaration source : String) : Except LoadError Stylesheet := do
  let sheet := Stylesheet.ofDeclaration declaration
  let ctx : SheetContext := ⟨sheet.name, options.typography⟩
  let sheet ← addEntries importFile ctx sheet (← rootEntries ctx source)
  addSymbolFont ctx options.symbolFont sheet

/-- Reads the content of a file, if there is one at the path. -/
abbrev Reader := String → Option String

/-- The stylesheet of a file. Imported files are found from its directory and share the text
styles, and they have no symbol font. Imports are followed through at most `depth` files. -/
def file [Yaml.Parser] (read : Reader) :
    Nat → LoadOptions → String → String → Except LoadError Stylesheet
  | 0, _, path, _ => .error (.endlessImport path)
  | depth + 1, options, path, declaration =>
    match read path with
    | none => .error (.fileMissing path)
    | some text =>
      let dir := (Path.parent? path).getD ""
      let name := (Stylesheet.ofDeclaration declaration).name
      sourceWith
        (fun imported => file read depth ⟨options.typography, none⟩ (Path.join dir imported) name)
        options declaration text

/-- The stylesheet of a source that is in no directory; its imports are found from the working
directory. -/
def source [Yaml.Parser] (read : Reader) (depth : Nat) (options : LoadOptions)
    (declaration text : String) : Except LoadError Stylesheet :=
  let name := (Stylesheet.ofDeclaration declaration).name
  sourceWith (fun imported => file read depth ⟨options.typography, none⟩ imported name)
    options declaration text

end Load

end Appearance
