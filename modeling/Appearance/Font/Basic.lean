import Appearance.Code.Literal
import Appearance.Text.Case

/-!
# Fonts

A font is a symbol of an icon font, or a family with a size or a text style, and with a weight and
traits. Names of weights, traits and built-in text styles are fixed; further text styles come from
the typography of the project.

A font with a family has either a size or a text style, never both; this is a choice of
constructors and not a condition on fields. A custom text style hides a built-in one of the same
name (`TextStyle.find?`). In generated code a font with a family is a call of one function with the
same arguments (`Font.callSwift`), in which what is not given is `nil`; a symbol is a plain string.
Fonts of a text style scale with the size that the user chose, and so do those of the preferred
system family.
-/

namespace Appearance

/-- The weights of a system font, lightest first. -/
inductive FontWeight where
  | ultraLight
  | thin
  | light
  | regular
  | medium
  | semibold
  | bold
  | heavy
  | black
  deriving DecidableEq, Repr

namespace FontWeight

/-- All weights, lightest first; messages list them in this order. -/
def all : List FontWeight :=
  [ultraLight, thin, light, regular, medium, semibold, bold, heavy, black]

/-- The name of a weight, in sources as in generated code. -/
def name : FontWeight → String
  | ultraLight => "ultraLight"
  | thin => "thin"
  | light => "light"
  | regular => "regular"
  | medium => "medium"
  | semibold => "semibold"
  | bold => "bold"
  | heavy => "heavy"
  | black => "black"

/-- The weight of a name. -/
def ofName? (name : String) : Option FontWeight := all.find? (·.name == name)

@[simp] theorem ofName?_name (w : FontWeight) : ofName? w.name = some w := by
  cases w <;> decide

end FontWeight

/-- The symbolic traits of a font. -/
inductive FontTrait where
  | italic
  | bold
  | expanded
  | condensed
  deriving DecidableEq, Repr

namespace FontTrait

/-- All traits, in the order of messages. -/
def all : List FontTrait := [italic, bold, expanded, condensed]

/-- The name of a trait in sources. In generated code it is capitalized. -/
def name : FontTrait → String
  | italic => "italic"
  | bold => "bold"
  | expanded => "expanded"
  | condensed => "condensed"

/-- The trait of a name. -/
def ofName? (name : String) : Option FontTrait := all.find? (·.name == name)

@[simp] theorem ofName?_name (t : FontTrait) : ofName? t.name = some t := by
  cases t <;> decide

end FontTrait

/-- The family of a font. -/
inductive FontFamily where
  /-- No family is given. -/
  | unspecified
  | named (name : String)
  | system
  | preferredSystem
  deriving DecidableEq, Repr

/-- The built-in text styles, smallest first. -/
def builtinTextStyles : List String :=
  ["caption2", "caption1", "footnote", "subheadline", "callout", "body", "headline", "title3",
    "title2", "title1"]

/-- A text style: built in, or of the typography of the project. -/
inductive TextStyle where
  | builtin (name : String)
  | custom (name : String)
  deriving DecidableEq, Repr

namespace TextStyle

/-- The name of a text style, which is its case in generated code. -/
def name : TextStyle → String
  | builtin name => name
  | custom name => name

/-- The text style of a name. The typography of the project comes before the built-in styles. -/
def find? (typography : List String) (name : String) : Option TextStyle :=
  if typography.contains name then some (custom name)
  else if builtinTextStyles.contains name then some (builtin name)
  else none

end TextStyle

/-- A font. -/
inductive Font where
  /-- A symbol of an icon font. -/
  | symbol (name : String)
  | sized (family : FontFamily) (size : Double) (weight : Option FontWeight)
    (traits : List FontTrait)
  | styled (family : FontFamily) (style : TextStyle) (weight : Option FontWeight)
    (traits : List FontTrait)
  deriving DecidableEq, Repr

namespace Font

/-- The font is a symbol of an icon font. -/
def isSymbol : Font → Bool
  | symbol _ => true
  | _ => false

/-- The enumeration of text styles in generated code. -/
def textStyleEnum : String := "FontTextStyle"

/-- The type of a font. A symbol is a plain text, so that a view can show it. -/
def swiftType (f : Font) : String := if f.isSymbol then "String" else "UIFont"

/-- The name argument of a font in generated code. -/
def familySwift : FontFamily → String
  | .named name => "\"" ++ name ++ "\""
  | _ => "nil"

/-- The weight argument of a font in generated code. -/
def weightSwift : Option FontWeight → String
  | some w => "UIFont.Weight." ++ w.name
  | none => "nil"

/-- A trait in generated code. -/
def traitSwift (t : FontTrait) : String :=
  "UIFontDescriptor.SymbolicTraits.trait" ++ Text.firstUpper t.name

/-- The constructor call of a font in generated code. -/
def callSwift (family : FontFamily) (size style : String) (weight : Option FontWeight)
    (traits : List FontTrait) (scalable : Bool) : String :=
  "UIFont.font(name: " ++ familySwift family ++ ", size: " ++ size ++ ", textStyle: " ++ style ++
    ", weight: " ++ weightSwift weight ++ ", traits: [" ++
    ", ".intercalate (traits.map traitSwift) ++
    "], traitCollection: traitCollection, isScalable: " ++
    (if scalable then "true" else "false") ++ ")"

/-- A font in generated code; `enums` is the namespace of generated enumerations. A font scales if
it has a text style or is of the preferred system family. -/
def toSwift (enums : String) : Font → String
  | symbol name => "\"" ++ name ++ "\""
  | sized family size weight traits =>
    callSwift family (Code.number size) "nil" weight traits (family == .preferredSystem)
  | styled family style weight traits =>
    callSwift family "nil" (enums ++ "." ++ textStyleEnum ++ "." ++ style.name) weight traits true

end Font

end Appearance
