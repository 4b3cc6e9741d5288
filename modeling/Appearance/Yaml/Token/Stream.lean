import Appearance.Yaml.Token.Property
import Appearance.Yaml.Token.Scalar

/-!
# Tokens from text

`Token.scan` reads the tokens of a YAML text. Two things make this more than a loop over the
characters: indentation opens and closes block collections, and a colon can make a key of what
stands before it. A `Scanner` therefore keeps the open indentations and, for each level of
brackets, the place where a key could begin. A key lies on one line and has at most 1024
bytes.

Tokens for block collections and keys are put in when it is known that they are needed, which can
be later than their place, so `Scanner.insert` puts them before tokens that are there already.
`Scanner.next` is the one step: it passes the gap before a token, gives up possible keys that have
become stale, closes the blocks that the column ends, and fetches one token. `Scanner.run` repeats
it, and ends because every token takes at least one character of the text; the check of this in the
definition stands for a proof and never fails.
-/

namespace Appearance.Yaml

/-- A place where a key could begin. -/
structure PossibleKey where
  /-- The number of tokens before it. -/
  position : Nat
  /-- It stands at the indentation of a block mapping, so it must be a key. -/
  required : Bool
  mark : Mark

/-- The state of a scan. -/
structure Scanner where
  cursor : Cursor
  tokens : Array Token
  /-- The innermost indentation, −1 outside all block collections. -/
  indent : Int
  /-- The indentations around it. -/
  indents : List Int
  /-- A key may begin here. -/
  keyAllowed : Bool
  /-- The possible key of the innermost brackets. -/
  candidate : Option PossibleKey
  /-- Those of the brackets around it. -/
  outer : List (Option PossibleKey)

namespace Scanner

/-- A scan at the start of a text, outside all collections. -/
def start (cs : List Char) : Scanner := ⟨Cursor.start cs, #[], -1, [], true, none, []⟩

/-- The scan is inside brackets. -/
def inFlow (s : Scanner) : Bool := !s.outer.isEmpty

/-- The column of the cursor. -/
def column (s : Scanner) : Nat := s.cursor.column

/-- Adds a token and goes on at a cursor. -/
def emit (s : Scanner) (t : Token) (c : Cursor) : Scanner :=
  { s with tokens := s.tokens.push t, cursor := c }

/-- Sets whether a key may begin at the cursor. -/
def allowKey (s : Scanner) (allowed : Bool) : Scanner := { s with keyAllowed := allowed }

/-- Inserts a token before the one at a position. -/
def insert (s : Scanner) (position : Nat) (t : Token) : Scanner :=
  { s with tokens := s.tokens.insertIdxIfInBounds position t }

/-- Opens a block collection at a column beyond the indentation. -/
def openBlock (s : Scanner) (column position : Nat) (t : Token) : Scanner :=
  if s.inFlow || (column : Int) ≤ s.indent then s
  else
    let s := s.insert position t
    { s with indents := s.indent :: s.indents, indent := column }

/-- Closes the block collections beyond a column; `indents` are the indentations around the
innermost one. -/
def closeFrom (column : Int) (s : Scanner) : List Int → Scanner
  | [] => { s with indents := [] }
  | outer :: indents =>
    if column < s.indent then
      closeFrom column { s with tokens := s.tokens.push .blockEnd, indent := outer } indents
    else { s with indents := outer :: indents }

/-- Closes the block collections beyond a column. -/
def closeBlocks (s : Scanner) (column : Int) : Scanner :=
  if s.inFlow then s else closeFrom column s s.indents

/-- Gives up the possible key; fails if it had to be a key. -/
def dropKey (s : Scanner) : Option Scanner :=
  if s.candidate.any (·.required) then none else some { s with candidate := none }

/-- Notes that a key could begin at the cursor. -/
def saveKey (s : Scanner) : Option Scanner :=
  if s.keyAllowed then do
    let required := !s.inFlow && s.indent == s.column
    let s ← s.dropKey
    return { s with candidate := some ⟨s.tokens.size, required, s.cursor.mark⟩ }
  else some s

/-- The place is on an earlier line or too far back. -/
def isStale (m : Mark) (k : PossibleKey) : Bool :=
  k.mark.line < m.line || k.mark.offset + 1024 < m.offset

/-- A possible key that has become stale is given up; fails if it had to be a key. -/
def freshKey (m : Mark) : Option PossibleKey → Option (Option PossibleKey)
  | none => some none
  | some k => if isStale m k then if k.required then none else some none else some (some k)

/-- Gives up all possible keys that have become stale. -/
def dropStaleKeys (s : Scanner) : Option Scanner := do
  let candidate ← freshKey s.cursor.mark s.candidate
  let outer ← s.outer.mapM (freshKey s.cursor.mark)
  return { s with candidate, outer }

/-- Passes blanks, comments and line breaks before a token. A tab is passed only where it does not
indent. -/
def skipGap : Nat → Scanner → Scanner
  | 0, s => s
  | fuel + 1, s =>
    let c := if s.column == 0 && s.cursor.sees byteOrderMark then s.cursor.drop 1 else s.cursor
    let tabs := s.inFlow || !s.keyAllowed
    let c := c.skipWhile fun ch => ch == ' ' || (tabs && ch == '\t')
    let c := if c.sees '#' then c.skipLine else c
    match c.rest with
    | [] => { s with cursor := c }
    | ch :: _ =>
      if isBreak ch then
        skipGap fuel { s with cursor := c.takeBreak.2, keyAllowed := s.keyAllowed || !s.inFlow }
      else { s with cursor := c }

/-- Closes everything before a directive or a marker of a document. -/
def closeAll (s : Scanner) : Option Scanner := do
  let s ← (s.closeBlocks (-1)).dropKey
  return s.allowKey false

/-- The marker of the start or the end of a document, of three characters. -/
def fetchMarker (s : Scanner) (t : Token) : Option Scanner := do
  let s ← s.closeAll
  return s.emit t (s.cursor.drop 3)

/-- A directive, which ends all collections before it. -/
def fetchDirective (s : Scanner) : Option Scanner := do
  let s ← s.closeAll
  let (t, c) ← takeDirective s.cursor
  return s.emit t c

/-- An opening bracket; it can begin a key. -/
def fetchOpening (s : Scanner) (t : Token) : Option Scanner := do
  let s ← s.saveKey
  let s := { s with outer := s.candidate :: s.outer, candidate := none }
  return (s.allowKey true).emit t (s.cursor.drop 1)

/-- A closing bracket. What stood before the opening one can be a key again. -/
def fetchClosing (s : Scanner) (t : Token) : Option Scanner := do
  let s ← s.dropKey
  let s :=
    match s.outer with
    | k :: outer => { s with outer, candidate := k }
    | [] => s
  return (s.allowKey false).emit t (s.cursor.drop 1)

/-- The comma between items in brackets; a key may follow it. -/
def fetchComma (s : Scanner) : Option Scanner := do
  let s ← s.dropKey
  return (s.allowKey true).emit .flowEntry (s.cursor.drop 1)

/-- The dash of a block sequence. -/
def fetchDash (s : Scanner) : Option Scanner :=
  if !s.inFlow && !s.keyAllowed then none
  else do
    let s ← (s.openBlock s.column s.tokens.size .blockSequenceStart).dropKey
    return (s.allowKey true).emit .blockEntry (s.cursor.drop 1)

/-- The question mark before a key of any form. -/
def fetchQuestion (s : Scanner) : Option Scanner :=
  if !s.inFlow && !s.keyAllowed then none
  else do
    let s ← (s.openBlock s.column s.tokens.size .blockMappingStart).dropKey
    return (s.allowKey (!s.inFlow)).emit .key (s.cursor.drop 1)

/-- The colon before a value. It makes a key of what stands at the possible key. -/
def fetchColon (s : Scanner) : Option Scanner :=
  match s.candidate with
  | some k =>
    let s := s.insert k.position .key
    let s := s.openBlock k.mark.column k.position .blockMappingStart
    let s := { s with candidate := none }
    some ((s.allowKey false).emit .value (s.cursor.drop 1))
  | none =>
    if !s.inFlow && !s.keyAllowed then none
    else
      let s := s.openBlock s.column s.tokens.size .blockMappingStart
      some ((s.allowKey (!s.inFlow)).emit .value (s.cursor.drop 1))

/-- An anchor or an alias, which can begin a key. -/
def fetchAnchor (s : Scanner) (make : String → Token) : Option Scanner := do
  let s ← s.saveKey
  let (name, c) ← anchorName s.cursor
  return (s.allowKey false).emit (make name) c

/-- A tag, which can begin a key. -/
def fetchTag (s : Scanner) : Option Scanner := do
  let s ← s.saveKey
  let (name, c) ← takeTag s.inFlow s.cursor
  return (s.allowKey false).emit (.tag name) c

/-- A block scalar. It is never a key, and one may follow it. -/
def fetchBlockScalar (s : Scanner) (literal : Bool) : Option Scanner := do
  let s ← s.dropKey
  let (text, c) ← Scalar.block literal s.indent s.cursor
  return (s.allowKey true).emit (.scalar text false) c

/-- A quoted scalar, which can be a key. -/
def fetchQuoted (s : Scanner) : Option Scanner := do
  let s ← s.saveKey
  let (text, c) ← Scalar.quoted s.cursor
  return (s.allowKey false).emit (.scalar text false) c

/-- A plain scalar. If lines were broken behind it, a key may follow. -/
def fetchPlain (s : Scanner) : Option Scanner := do
  let s ← s.saveKey
  let (text, c, broken) ← Scalar.plain s.inFlow (s.indent + 1).toNat s.cursor
  return (s.allowKey broken).emit (.scalar text true) c

/-- A plain scalar may begin with this text. -/
def beginsPlain (flow : Bool) (c : Char) (rest : List Char) : Bool :=
  !(isBlank c || isBreak c || "-?:,[]\x7b\x7d#&*!|>'\"%@`".toList.contains c) ||
    (c == '-' && !rest.head?.any isBlank) ||
    (!flow && (c == '?' || c == ':') && !atGap rest)

/-- The token at the cursor, which begins with the character `c`. -/
def fetchAt (s : Scanner) (c : Char) (rest : List Char) : Option Scanner :=
  let flow := s.inFlow
  if s.column = 0 ∧ c = '%' then s.fetchDirective
  else if s.cursor.seesMarker '-' then s.fetchMarker .documentStart
  else if s.cursor.seesMarker '.' then s.fetchMarker .documentEnd
  else if c = '[' then s.fetchOpening .flowSequenceStart
  else if c = '\x7b' then s.fetchOpening .flowMappingStart
  else if c = ']' then s.fetchClosing .flowSequenceEnd
  else if c = '\x7d' then s.fetchClosing .flowMappingEnd
  else if c = ',' then s.fetchComma
  else if c = '-' ∧ atGap rest then s.fetchDash
  else if c = '?' ∧ (flow ∨ atGap rest) then s.fetchQuestion
  else if c = ':' ∧ (flow ∨ atGap rest) then s.fetchColon
  else if c = '*' then s.fetchAnchor .alias
  else if c = '&' then s.fetchAnchor .anchor
  else if c = '!' then s.fetchTag
  else if c = '|' ∧ ¬ flow then s.fetchBlockScalar true
  else if c = '>' ∧ ¬ flow then s.fetchBlockScalar false
  else if c = '\'' ∨ c = '"' then s.fetchQuoted
  else if beginsPlain flow c rest then s.fetchPlain
  else none

/-- The end of the text closes all block collections. -/
def finish (s : Scanner) : Option (List Token) := do
  let s ← s.closeAll
  return (s.tokens.push .streamEnd).toList

/-- Goes on to the next token: the scanner after it, or all tokens at the end of the text. -/
def next (s : Scanner) : Option (Scanner ⊕ List Token) := do
  let s ← (s.skipGap (s.cursor.rest.length + 1)).dropStaleKeys
  let s := s.closeBlocks s.column
  match s.cursor.rest with
  | [] => return .inr (← s.finish)
  | c :: rest => return .inl (← s.fetchAt c rest)

/-- Reads token after token. Every token takes something of the text, so the check on what is left
never fails. -/
def run (s : Scanner) : Option (List Token) :=
  match s.next with
  | none => none
  | some (.inr tokens) => some tokens
  | some (.inl t) =>
    if _h : t.cursor.rest.length < s.cursor.rest.length then t.run else none
termination_by s.cursor.rest.length

end Scanner

/-- The tokens of a text without its byte order mark. -/
def Token.scan (cs : List Char) : Option (List Token) :=
  let cs :=
    match cs with
    | c :: rest => if c = byteOrderMark then rest else cs
    | [] => cs
  if cs.all isAllowed then (Scanner.start cs).run else none

end Appearance.Yaml
