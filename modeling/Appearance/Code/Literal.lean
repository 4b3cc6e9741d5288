import Appearance.Double.Layout

/-!
# Words of the generated language

Number literals and identifiers as they stand in generated Swift.

`Code.number` is the only place where a double becomes text of generated code. An integral value
below 10¹⁶ gets `.0` behind it, so that the literal is read back as a floating-point number.
`Code.identifier` is the only place where a name is escaped, and the places that declare or use a
name decide whether they call it. `Code.unlines` ends every line, the last one too.
-/

namespace Appearance.Code

/-- Below this magnitude an integral number keeps a fractional part in its literal. -/
def integralBound : Nat := pow10 16

/-- The literal of a number. An integral one ends in `.0`, so that it stays a floating-point
literal. -/
def number (x : Double) : String :=
  if x.isIntegral && x.absBelow integralBound then x.toText ++ ".0" else x.toText

/-- The words that may not stand for a name on their own. -/
def reservedWords : List String :=
  ["default", "class", "struct", "enum", "protocol", "self", "Type", "in", "is", "as", "func",
    "let", "var", "return"]

/-- A name as an identifier; a reserved word stands between backticks. -/
def identifier (name : String) : String :=
  if reservedWords.contains name then "`" ++ name ++ "`" else name

/-- The text of lines, each ended by a line feed. -/
def unlines (lines : List String) : String := String.join (lines.map (· ++ "\n"))

end Appearance.Code
