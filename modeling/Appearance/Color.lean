import Appearance.Double.Reading
import Appearance.Code.Literal
import Appearance.Text.Blank
import Appearance.Text.Offset

/-!
# Colors

A color literal is `#` followed by three or six hexadecimal digits and, optionally, two decimal
digits for the opacity in percent. The one-digit channels are divided by 15, the two-digit ones by
255.

`Color.parse` trims the text, asks for the `#` and looks at the number of bytes behind it: with
five or eight bytes the last two are the opacity, so `Color.splitAlpha` cuts them off before any
digit is read. The cut is made in bytes and can fall inside a character; this is
`Error.splitCharacter`, which has no words of its own since it ends the program. The remaining
digits are a list of numbers below sixteen, and `Color.ofDigits` is a match on the two lengths that
make a color. All channels are ratios rounded once, so equal digits give equal doubles and the
equality of colors is decidable.
-/

namespace Appearance

open Appearance.Text

/-- A color with channels between zero and one. -/
structure Color where
  red : Double
  green : Double
  blue : Double
  alpha : Double
  deriving DecidableEq, Repr

namespace Color

/-- Why a text is no color literal. -/
inductive Error where
  | missingHash (literal : String)
  | invalidHex (literal : String)
  | invalidLength (literal : String) (length : Nat)
  /-- The two bytes for the opacity begin inside a character. -/
  | splitCharacter
  deriving DecidableEq, Repr

/-- What is wrong with a literal. A cut inside a character has no words: it ends the program. -/
def Error.message : Error → String
  | missingHash literal => s!"color `{literal}` must start with `#`"
  | invalidHex literal => s!"color `{literal}` is not a valid hex value"
  | invalidLength literal length =>
    "color `" ++ literal ++ "` has " ++ natText length ++
      " hex digits, expected 3 or 6 plus an optional 2-digit alpha"
  | splitCharacter => ""

/-- The value of a hexadecimal digit. -/
def hexDigit? (c : Char) : Option Nat :=
  if c.isDigit then some (c.toNat - '0'.toNat)
  else if 'a' ≤ c ∧ c ≤ 'f' then some (c.toNat - 'a'.toNat + 10)
  else if 'A' ≤ c ∧ c ≤ 'F' then some (c.toNat - 'A'.toNat + 10)
  else none

/-- The values of hexadecimal digits, if the text has no other characters. -/
def hexDigits? (cs : List Char) : Option (List Nat) := cs.mapM hexDigit?

/-- The number that hexadecimal digits write. -/
def hexValue (ds : List Nat) : Nat := ds.foldl (fun n d => 16 * n + d) 0

/-- The last two bytes of a text as characters, and what stands before them; nothing if a
character reaches over the cut. -/
def splitLastTwoBytes? (cs : List Char) : Option (List Char × List Char) :=
  match cs.reverse with
  | c :: rest =>
    if c.utf8Size = 2 then some (rest.reverse, [c])
    else
      match rest with
      | d :: rest => if c.utf8Size = 1 ∧ d.utf8Size = 1 then some (rest.reverse, [d, c]) else none
      | [] => none
  | [] => none

/-- The digits of the channels and the opacity. Only texts of five or eight bytes have an
opacity. -/
def splitAlpha (literal : String) (hex : List Char) : Except Error (List Char × Double) :=
  let length := byteLength hex
  if length = 5 ∨ length = 8 then
    match splitLastTwoBytes? hex with
    | none => .error .splitCharacter
    | some (digits, percent) =>
      if percent.all Char.isDigit then
        .ok (digits, .ofRatio false (digitsValue percent) 100)
      else .error (.invalidHex literal)
  else .ok (hex, .ofInt 1)

/-- The color of three or six hexadecimal digits. -/
def ofDigits (literal : String) (alpha : Double) (digits : List Nat) : Except Error Color :=
  match digits with
  | [r, g, b] => .ok ⟨.ofRatio false r 15, .ofRatio false g 15, .ofRatio false b 15, alpha⟩
  | [r, r', g, g', b, b'] =>
    .ok ⟨.ofRatio false (16 * r + r') 255, .ofRatio false (16 * g + g') 255,
      .ofRatio false (16 * b + b') 255, alpha⟩
  | _ =>
    if digits.isEmpty || pow2 32 ≤ hexValue digits then .error (.invalidHex literal)
    else .error (.invalidLength literal digits.length)

/-- Reads what follows the `#` of a literal. -/
def parseDigits (literal : String) (hex : List Char) : Except Error Color :=
  match splitAlpha literal hex with
  | .error e => .error e
  | .ok (digits, alpha) =>
    match hexDigits? digits with
    | none => .error (.invalidHex literal)
    | some digits => ofDigits literal alpha digits

/-- Reads a color literal. -/
def parseChars (cs : List Char) : Except Error Color :=
  let cs := trimChars cs
  match cs with
  | '#' :: hex => parseDigits (String.ofList cs) hex
  | _ => .error (.missingHash (String.ofList cs))

/-- Reads a color literal. -/
def parse (s : String) : Except Error Color := parseChars s.toList

/-- The color in generated code. -/
def toSwift (c : Color) : String :=
  "UIColor(red: " ++ Code.number c.red ++ ", green: " ++ Code.number c.green ++ ", blue: " ++
    Code.number c.blue ++ ", alpha: " ++ Code.number c.alpha ++ ")"

end Color

end Appearance
