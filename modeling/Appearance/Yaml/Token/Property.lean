import Appearance.Color
import Appearance.Yaml.Tag
import Appearance.Yaml.Token.Basic

/-!
# Anchors, tags and directives

The tokens that give properties to nodes and documents. Each function starts at the indicator and
gives the token and the cursor behind it, or nothing if the token is malformed.

A tag is collected as bytes, since an escape may write any byte of a character; whether the bytes
are a text is asked when the meaning of the tag is (`Tag.ofBytes`). A tag between angle brackets is
taken as it stands, any other one is split into a handle and a suffix. Directives are for versions
and handles only and end with their line; the name of any other directive makes the text malformed.
-/

namespace Appearance.Yaml

/-- The characters that may follow the name of an anchor without a gap. -/
def endsAnchor (cs : List Char) : Bool :=
  atGap cs || cs.head?.any fun c => "?:,]\x7d%@`".toList.contains c

/-- The name behind a `*` or `&`. -/
def anchorName (c : Cursor) : Option (String × Cursor) :=
  let c := c.drop 1
  let name := c.rest.takeWhile isNameChar
  let c := c.drop name.length
  if name.isEmpty || !endsAnchor c.rest then none else some (String.ofList name, c)

/-- A character that may stand in a tag; flow indicators only where the tag has brackets or is
that of a directive. -/
def isTagChar (wide : Bool) (c : Char) : Bool :=
  isNameChar c || ";/?:@&=+$.%!~*'()".toList.contains c || (wide && ",[]".toList.contains c)

/-- A byte in hexadecimal after a percent sign. -/
def percentByte? : List Char → Option UInt8
  | '%' :: a :: b :: _ => (Color.hexDigits? [a, b]).map fun ds => UInt8.ofNat (Color.hexValue ds)
  | _ => none

/-- The number of bytes of the character that begins with a byte. -/
def characterLength? (b : UInt8) : Option Nat :=
  if b < 0x80 then some 1
  else if 0xC0 ≤ b ∧ b < 0xE0 then some 2
  else if 0xE0 ≤ b ∧ b < 0xF0 then some 3
  else if 0xF0 ≤ b ∧ b < 0xF8 then some 4
  else none

/-- Escaped bytes that continue a character. -/
def continuation? : Nat → List Char → Option (List UInt8)
  | 0, _ => some []
  | count + 1, cs => do
    let b ← percentByte? cs
    if 0x80 ≤ b ∧ b < 0xC0 then (continuation? count (cs.drop 3)).map (b :: ·) else none

/-- The escaped bytes of a character. -/
def percentBytes? (cs : List Char) : Option (List UInt8) := do
  let b ← percentByte? cs
  let count ← characterLength? b
  let bs ← continuation? (count - 1) (cs.drop 3)
  return b :: bs

/-- The bytes of a tag with its escapes read, and the rest of the text. -/
def tagBytes (wide : Bool) : Nat → List Char → Option (List UInt8 × List Char)
  | 0, cs => some ([], cs)
  | fuel + 1, cs =>
    match cs with
    | [] => some ([], [])
    | c :: rest =>
      if c = '%' then do
        let escaped ← percentBytes? cs
        let (bytes, rest) ← tagBytes wide fuel (cs.drop (3 * escaped.length))
        return (escaped ++ bytes, rest)
      else if isTagChar wide c then do
        let (bytes, rest) ← tagBytes wide fuel rest
        return (UInt8.ofNat c.toNat :: bytes, rest)
      else some ([], cs)

/-- The bytes of a tag; the cursor moves behind them. -/
def takeTagBytes (wide : Bool) (c : Cursor) : Option (List UInt8 × Cursor) :=
  (tagBytes wide (c.rest.length + 1) c.rest).map fun (bytes, rest) =>
    (bytes, c.drop (c.rest.length - rest.length))

/-- A tag ends before a byte that is zero. -/
def beforeZero (bytes : List UInt8) : List UInt8 := bytes.takeWhile (· != 0)

/-- A handle of a tag: `!`, name characters, and perhaps a second `!`. -/
def takeHandle (c : Cursor) : Option (List Char × Cursor) :=
  match c.rest with
  | '!' :: rest =>
    let name := rest.takeWhile isNameChar
    match rest.drop name.length with
    | '!' :: _ => some ('!' :: name ++ ['!'], c.drop (name.length + 2))
    | _ => some ('!' :: name, c.drop (name.length + 1))
  | _ => none

/-- A tag between angle brackets is taken as it stands. -/
def verbatimTag (c : Cursor) : Option (TagName × Cursor) := do
  let (bytes, c) ← takeTagBytes true (c.drop 2)
  if bytes.isEmpty || !c.sees '>' then none
  else return (⟨"", beforeZero bytes⟩, c.drop 1)

/-- A tag with a handle, or one whose handle is the single `!`. -/
def shortTag (c : Cursor) : Option (TagName × Cursor) := do
  let (handle, c) ← takeHandle c
  let (bytes, c) ← takeTagBytes false c
  if 1 < handle.length && handle.getLast? == some '!' then
    if bytes.isEmpty then none else return (⟨String.ofList handle, beforeZero bytes⟩, c)
  else
    let suffix := textBytes (String.ofList handle.tail) ++ beforeZero bytes
    return (if suffix.isEmpty then ⟨"", textBytes "!"⟩ else ⟨"!", suffix⟩, c)

/-- The tag at the cursor. A gap must follow, or inside brackets a comma. -/
def takeTag (flow : Bool) (c : Cursor) : Option (TagName × Cursor) := do
  let (name, c) ← if (c.rest.drop 1).head? == some '<' then verbatimTag c else shortTag c
  if atGap c.rest || (flow && c.sees ',') then return (name, c) else none

/-- The rest of a line that holds blanks and a comment at most. -/
def endLine (c : Cursor) : Option Cursor :=
  let c := c.skipWhile isBlank
  let c := if c.sees '#' then c.skipLine else c
  match c.rest with
  | [] => some c
  | ch :: _ => if isBreak ch then some c.takeBreak.2 else none

/-- A number of a version, of at most nine digits. -/
def versionNumber (c : Cursor) : Option (Nat × Cursor) :=
  let ds := c.rest.takeWhile Char.isDigit
  if ds.isEmpty || 9 < ds.length then none else some (digitsValue ds, c.drop ds.length)

/-- The version behind the name of a version directive. -/
def versionDirective (c : Cursor) : Option (Token × Cursor) := do
  let (major, c) ← versionNumber (c.skipWhile isBlank)
  if c.sees '.' then
    let (minor, c) ← versionNumber (c.drop 1)
    return (.versionDirective major minor, c)
  else none

/-- The handle and the prefix behind the name of a tag directive. -/
def tagDirective (c : Cursor) : Option (Token × Cursor) := do
  let (handle, c) ← takeHandle (c.skipWhile isBlank)
  if (handle != ['!'] && (handle.length < 2 || handle.getLast? != some '!')) ||
      !c.rest.head?.any isBlank then none
  else
    let (pre, c) ← takeTagBytes true (c.skipWhile isBlank)
    if pre.isEmpty || !atGap c.rest then none
    else return (.tagDirective (String.ofList handle) (beforeZero pre), c)

/-- The directive at the cursor. -/
def takeDirective (c : Cursor) : Option (Token × Cursor) := do
  let c := c.drop 1
  let name := c.rest.takeWhile isNameChar
  let c := c.drop name.length
  if name.isEmpty || !atGap c.rest then none
  else
    let (token, c) ←
      if name = "YAML".toList then versionDirective c
      else if name = "TAG".toList then tagDirective c
      else none
    return (token, ← endLine c)

end Appearance.Yaml
