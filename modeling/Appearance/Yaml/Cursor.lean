import Appearance.Text.Offset

/-!
# Positions in a YAML text

A `Cursor` is what is left of a text together with the position reached: the offset in bytes of the
next character, its line and its column. `Gap.gather` passes blanks and line breaks and keeps what
line folding needs of them.

Offsets are counted in bytes and columns in characters, for the limit on keys is in bytes while
indentation is a number of columns. A cursor moves by `Cursor.drop` within a line and by
`Cursor.takeBreak` to the next one, and each keeps the position that of the text which is left. A
`Gap` gathers what stands between two words of a scalar and decides only at the end (`Gap.folded`)
whether it was a space, a run of blanks or line breaks.
-/

namespace Appearance.Yaml

/-- A character that YAML texts may contain. -/
def isAllowed (c : Char) : Bool :=
  let n := c.toNat
  n == 0x9 || n == 0xA || n == 0xD || (0x20 ≤ n && n ≤ 0x7E) || n == 0x85 ||
    (0xA0 ≤ n && n ≤ 0xFFFD) || 0x10000 ≤ n

/-- The mark that can begin a text or a line. -/
def byteOrderMark : Char := Char.ofNat 0xFEFF

/-- A space or a tab. -/
def isBlank (c : Char) : Bool := c == ' ' || c == '\t'

/-- A character that ends a line. -/
def isBreak (c : Char) : Bool :=
  let n := c.toNat
  n == 0xA || n == 0xD || n == 0x85 || n == 0x2028 || n == 0x2029

/-- Letters, digits, `_` and `-`, of which anchors and handles of tags consist. -/
def isNameChar (c : Char) : Bool := c.isAlphanum || c == '_' || c == '-'

/-- The text begins with a blank or a line break, or is at its end. -/
def atGap : List Char → Bool
  | [] => true
  | c :: _ => isBlank c || isBreak c

/-- A line break as it counts in a scalar; the separators of lines and paragraphs keep their
form. -/
def breakText (c : Char) : Char := if c.toNat < 0x2028 then '\n' else c

/-- A position in a text. -/
structure Mark where
  offset : Nat
  line : Nat
  column : Nat
  deriving Repr

namespace Mark

/-- The position after some characters of the same line. -/
def along (m : Mark) (cs : List Char) : Mark :=
  ⟨m.offset + Text.byteLength cs, m.line, m.column + cs.length⟩

/-- The start of the next line, after the characters of a line break. -/
def nextLine (m : Mark) (cs : List Char) : Mark := ⟨m.offset + Text.byteLength cs, m.line + 1, 0⟩

end Mark

/-- What is left of a text, and the position of its first character. -/
structure Cursor where
  mark : Mark
  rest : List Char

namespace Cursor

/-- The cursor at the start of a text. -/
def start (cs : List Char) : Cursor := ⟨⟨0, 0, 0⟩, cs⟩

/-- The number of characters before the cursor on its line. -/
def column (c : Cursor) : Nat := c.mark.column

/-- Passes characters of the same line. -/
def drop (c : Cursor) (count : Nat) : Cursor :=
  ⟨c.mark.along (c.rest.take count), c.rest.drop count⟩

/-- Passes the characters that satisfy `p`, none of which is a line break. -/
def skipWhile (c : Cursor) (p : Char → Bool) : Cursor := c.drop (c.rest.takeWhile p).length

/-- Passes a line break, if the cursor stands at one, and gives its text. -/
def takeBreak (c : Cursor) : List Char × Cursor :=
  match c.rest with
  | '\r' :: '\n' :: cs => (['\n'], ⟨c.mark.nextLine ['\r', '\n'], cs⟩)
  | ch :: cs => if isBreak ch then ([breakText ch], ⟨c.mark.nextLine [ch], cs⟩) else ([], c)
  | [] => ([], c)

/-- Passes all up to the end of the line. -/
def skipLine (c : Cursor) : Cursor := c.skipWhile fun ch => !isBreak ch

/-- The first character is `ch`. -/
def sees (c : Cursor) (ch : Char) : Bool := c.rest.head? == some ch

/-- A line that begins with three equal characters `ch` and then a gap. -/
def seesMarker (c : Cursor) (ch : Char) : Bool :=
  c.column == 0 && c.rest.take 3 == [ch, ch, ch] && atGap (c.rest.drop 3)

/-- The cursor stands at the marker of the start or the end of a document. -/
def seesDocumentMarker (c : Cursor) : Bool := c.seesMarker '-' || c.seesMarker '.'

end Cursor

/-- What stands between two words of a scalar: blanks on one line, or line breaks. Texts are kept
last character first. -/
structure Gap where
  blanks : List Char
  /-- The first line break; empty for one that is escaped. -/
  lead : Option (List Char)
  breaks : List Char

namespace Gap

/-- Nothing has been passed. -/
def empty : Gap := ⟨[], none, []⟩

/-- Blanks count only before the first line break. -/
def addBlank (g : Gap) (c : Char) : Gap :=
  if g.lead.isSome then g else ⟨c :: g.blanks, g.lead, g.breaks⟩

/-- The first line break is kept apart from further ones, since it alone can fold to a space. -/
def addBreak (g : Gap) (text : Char) : Gap :=
  match g.lead with
  | none => ⟨[], some [text], g.breaks⟩
  | some lead => ⟨g.blanks, some lead, text :: g.breaks⟩

/-- The text of a gap, last character first: a single line feed folds to a space, further breaks
stay. -/
def folded (g : Gap) : List Char :=
  match g.lead with
  | none => g.blanks
  | some ['\n'] => if g.breaks.isEmpty then [' '] else g.breaks
  | some lead => g.breaks ++ lead

/-- Passes blanks and line breaks. A tab that indents a later line to a column below `tabLimit` is
refused. -/
def gather (tabLimit : Nat) (mark : Mark) (g : Gap) : List Char → Option (Cursor × Gap)
  | [] => some (⟨mark, []⟩, g)
  | '\r' :: '\n' :: cs => gather tabLimit (mark.nextLine ['\r', '\n']) (g.addBreak '\n') cs
  | c :: cs =>
    if isBlank c then
      if g.lead.isSome && c == '\t' && mark.column < tabLimit then none
      else gather tabLimit (mark.along [c]) (g.addBlank c) cs
    else if isBreak c then gather tabLimit (mark.nextLine [c]) (g.addBreak (breakText c)) cs
    else some (⟨mark, c :: cs⟩, g)

end Gap

end Appearance.Yaml
