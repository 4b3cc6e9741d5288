import Appearance.Dimension
import Appearance.Font.Basic
import Appearance.Text.Split

/-!
# Reading fonts

A font is given by up to four texts: a family, a size or a text style, and modifiers. The family
can be missing; a single text that is neither size nor text style names a symbol. A modifier is a
weight, or traits joined by `-`. `Font.Face` gathers weight and traits.

Names of families such as `System-bold` or `SystemItalic` imply a weight or a trait, which then
counts as given. After the family comes the size or the text style, and behind it the modifiers in
any order. A second weight is a fault, a second trait of one kind is passed over. `PreferredSystem`
may do without size and style and is then the body text.
-/

namespace Appearance.Font

open Appearance.Text

/-- Why texts are no font. -/
inductive Fault where
  | noArguments
  | tooManyArguments (count : Nat)
  | unknownSystemWeight (name : String)
  | weightTwice (name : String)
  | unknownModifier (name : String)
  | sizeNotFirst
  | unknownTextStyle (name : String)
  | noSizeOrStyle
  deriving DecidableEq, Repr

def Fault.message : Fault → String
  | noArguments => "expected at least one argument"
  | tooManyArguments count => "expected at most 4 arguments, got " ++ natText count
  | unknownSystemWeight name =>
    "`" ++ name ++ "` is not a system font weight, expected one of " ++
      ", ".intercalate (FontWeight.all.map FontWeight.name)
  | weightTwice name => s!"weight `{name}` given twice"
  | unknownModifier name =>
    "`" ++ name ++ "` is neither a weight nor a trait (" ++
      ", ".intercalate (FontTrait.all.map FontTrait.name) ++ ")"
  | sizeNotFirst => "size must follow the font name"
  | unknownTextStyle name => s!"`{name}` is not a text style"
  | noSizeOrStyle => "expected a size or a text style"

/-- Weight and traits of a font. -/
structure Face where
  weight : Option FontWeight
  traits : List FontTrait
  deriving DecidableEq, Repr

/-- Neither weight nor traits. -/
def Face.plain : Face := ⟨none, []⟩

/-- Adds a trait unless it is there. -/
def Face.addTrait (f : Face) (t : FontTrait) : Face :=
  if f.traits.contains t then f else ⟨f.weight, f.traits ++ [t]⟩

/-- Adds traits by name. -/
def Face.addTraits (f : Face) : List String → Except Fault Face
  | [] => .ok f
  | name :: names =>
    match FontTrait.ofName? name with
    | none => .error (.unknownModifier name)
    | some t => (f.addTrait t).addTraits names

/-- Adds a weight, of which there can be one, or traits joined by `-`. -/
def Face.modify (f : Face) (modifier : String) : Except Fault Face :=
  match FontWeight.ofName? modifier with
  | some w => if f.weight.isSome then .error (.weightTwice modifier) else .ok ⟨some w, f.traits⟩
  | none => f.addTraits ((splitAtChars (· == '-') modifier.toList).map String.ofList)

/-- Adds modifiers from left to right. -/
def Face.modifyAll (f : Face) : List String → Except Fault Face
  | [] => .ok f
  | m :: ms =>
    match f.modify m with
    | .ok f => f.modifyAll ms
    | .error e => .error e

/-- The family of a name, and the weight or trait that the name implies. -/
def parseFamily (name : String) : Except Fault (FontFamily × Face) :=
  match name with
  | "PreferredSystem" => .ok (.preferredSystem, .plain)
  | "System" => .ok (.system, .plain)
  | "SystemBold" => .ok (.system, ⟨none, [.bold]⟩)
  | "SystemItalic" => .ok (.system, ⟨none, [.italic]⟩)
  | _ =>
    match stripPrefix? "System-" name with
    | none => .ok (.named name, .plain)
    | some weight =>
      match FontWeight.ofName? weight with
      | some w => .ok (.system, ⟨some w, []⟩)
      | none => .error (.unknownSystemWeight weight)

/-- The text is a size. -/
def isSize (s : String) : Bool := (Dimension.parse? s).isSome

/-- The text is a size or a text style, so it is no family. -/
def isSelector (typography : List String) (s : String) : Bool :=
  isSize s || (TextStyle.find? typography s).isSome

/-- The family of the first text, unless that is a size or a text style, and the texts after the
family. -/
def splitFamily (typography : List String) (first : String) (rest : List String) :
    Except Fault (FontFamily × Face × List String) :=
  if isSelector typography first then .ok (.unspecified, .plain, first :: rest)
  else
    match parseFamily first with
    | .ok (family, face) => .ok (family, face, rest)
    | .error e => .error e

/-- The font of a family, its face and an optional size or text style; `hasSize` says whether any
text is a size. -/
def select (typography : List String) (family : FontFamily) (face : Face) (hasSize : Bool)
    (selector : Option String) : Except Fault Font :=
  if hasSize then
    match selector.bind Dimension.parse? with
    | some size => .ok (.sized family size face.weight face.traits)
    | none => .error .sizeNotFirst
  else
    match selector with
    | some name =>
      match TextStyle.find? typography name with
      | some style => .ok (.styled family style face.weight face.traits)
      | none => .error (.unknownTextStyle name)
    | none =>
      if family = .preferredSystem then
        .ok (.styled family (.builtin "body") face.weight face.traits)
      else .error .noSizeOrStyle

/-- A single text names a symbol unless it is a size, a text style or a system family. -/
def isSymbolName (typography : List String) (s : String) : Bool :=
  !isSelector typography s && (stripPrefix? "System" s).isNone && s != "PreferredSystem"

/-- Reads a font with a family, size or text style. -/
def parseFace (typography : List String) (first : String) (rest : List String) :
    Except Fault Font :=
  match splitFamily typography first rest with
  | .error e => .error e
  | .ok (family, face, texts) =>
    match face.modifyAll texts.tail with
    | .error e => .error e
    | .ok face => select typography family face (texts.any isSize) texts.head?

/-- Reads a font from its texts. -/
def parse (typography : List String) : List String → Except Fault Font
  | [] => .error .noArguments
  | first :: rest =>
    if rest.isEmpty && isSymbolName typography first then .ok (.symbol first)
    else if 4 < rest.length + 1 then .error (.tooManyArguments (rest.length + 1))
    else parseFace typography first rest

end Appearance.Font
