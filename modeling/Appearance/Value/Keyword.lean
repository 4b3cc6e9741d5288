import Appearance.Text.Case

/-!
# The names of value forms

A call such as `color(#fff)` names the form of its value. The first letter of the name may be
capital.

The table has one keyword for each form, and two names where a form has a short one. A capital
first letter changes nothing except for definitions of enumerations and option sets, which then
take the name of their type from the key of the property; `Keyword.isCapitalized` is asked for this
alone. Only the first letter is lowered, so all other letters must be as they are in the table.
-/

namespace Appearance

/-- The forms that a call can have. -/
inductive Keyword where
  | font
  | color
  | namedColor
  | image
  | icon
  | redirect
  | point
  | size
  | rect
  | edgeInsets
  | repeatCount
  | timingFunction
  | animationValue
  | keyFrame
  | enumDef
  | enumCase
  | optionDef
  | optionSet
  | call
  deriving DecidableEq, Repr

namespace Keyword

/-- The keyword of a name whose first letter is in lower case. -/
def ofLowered? : String → Option Keyword
  | "font" => some font
  | "color" => some color
  | "namedColor" => some namedColor
  | "image" => some image
  | "icon" => some icon
  | "redirect" => some redirect
  | "point" => some point
  | "size" => some size
  | "rect" => some rect
  | "edgeInsets" => some edgeInsets
  | "insets" => some edgeInsets
  | "repeatCount" => some repeatCount
  | "timingFunction" => some timingFunction
  | "animationValue" => some animationValue
  | "keyFrame" => some keyFrame
  | "enumDef" => some enumDef
  | "enum" => some enumCase
  | "optionDef" => some optionDef
  | "option" => some optionSet
  | "call" => some call
  | _ => none

/-- The keyword of a name, with or without a capital. -/
def ofName? (name : String) : Option Keyword := ofLowered? (Text.firstLower name)

/-- The name begins with a capital. -/
def isCapitalized (name : String) : Bool := name.toList.head?.any Text.isUppercase

end Keyword

end Appearance
