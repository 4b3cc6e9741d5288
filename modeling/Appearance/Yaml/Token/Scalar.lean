import Appearance.Color
import Appearance.Yaml.Cursor

/-!
# Texts of scalars

Quoted, plain and block scalars become texts: escapes are read, lines are folded, and block
scalars are chomped. Each function starts at the first character of the scalar and gives the text
and the cursor behind it, or nothing if the scalar is malformed. The loops run at most once for
each character that is left.

Each style has a loop over runs and gaps: a run is text within a line, a gap is what the line
breaks and blanks between two runs fold to. Text is gathered in reverse, so that adding to it is
cheap and trailing blanks are at hand. A plain scalar ends at a comment, at an indicator or where
the indentation ends, and a gap is only kept if a further run follows. In block scalars indentation
is found from the first line unless it is given, and chomping decides at the end what becomes of
the last line breaks.
-/

namespace Appearance.Yaml.Scalar

/-- The character of a one-letter escape. -/
def simpleEscape? : Char → Option Char
  | '0' => some (Char.ofNat 0)
  | 'a' => some (Char.ofNat 7)
  | 'b' => some (Char.ofNat 8)
  | 't' => some '\t'
  | '\t' => some '\t'
  | 'n' => some '\n'
  | 'v' => some (Char.ofNat 0xB)
  | 'f' => some (Char.ofNat 0xC)
  | 'r' => some '\r'
  | 'e' => some (Char.ofNat 0x1B)
  | ' ' => some ' '
  | '"' => some '"'
  | '/' => some '/'
  | '\\' => some '\\'
  | 'N' => some (Char.ofNat 0x85)
  | '_' => some (Char.ofNat 0xA0)
  | 'L' => some (Char.ofNat 0x2028)
  | 'P' => some (Char.ofNat 0x2029)
  | _ => none

/-- The number of hexadecimal digits of a numeric escape. -/
def escapeDigits? : Char → Option Nat
  | 'x' => some 2
  | 'u' => some 4
  | 'U' => some 8
  | _ => none

/-- The character of a code point, if it is one. -/
def scalarChar? (n : Nat) : Option Char := if n.isValidChar then some (Char.ofNat n) else none

/-- The character of an escape, and the number of characters after the backslash that it takes. -/
def escape? : List Char → Option (Char × Nat)
  | [] => none
  | c :: cs =>
    match simpleEscape? c with
    | some ch => some (ch, 1)
    | none => do
      let count ← escapeDigits? c
      let digits ← Color.hexDigits? (cs.take count)
      if digits.length = count then
        let ch ← scalarChar? (Color.hexValue digits)
        return (ch, count + 1)
      else none

/-- Why a run inside quotes ended. -/
inductive RunEnd where
  | gap
  | closing
  | escapedBreak

/-- Characters up to a gap, the closing quote or an escaped line break, put before `acc` with the
last one first; also the number of characters passed. -/
def quotedRun (quote : Char) : Nat → List Char → List Char → Nat →
    Option (List Char × Nat × RunEnd)
  | 0, _, _, _ => none
  | fuel + 1, acc, cs, passed =>
    match cs with
    | [] => some (acc, passed, .gap)
    | c :: rest =>
      if isBlank c || isBreak c then some (acc, passed, .gap)
      else if quote = '\'' ∧ c = '\'' ∧ rest.head? = some '\'' then
        quotedRun quote fuel ('\'' :: acc) rest.tail (passed + 2)
      else if c = quote then some (acc, passed, .closing)
      else if quote = '"' ∧ c = '\\' then
        if rest.head?.any isBreak then some (acc, passed + 1, .escapedBreak)
        else
          match escape? rest with
          | none => none
          | some (ch, count) =>
            quotedRun quote fuel (ch :: acc) (rest.drop count) (passed + 1 + count)
      else quotedRun quote fuel (c :: acc) rest (passed + 1)

/-- Runs and gaps inside quotes up to the closing quote. -/
def quotedLoop (quote : Char) : Nat → List Char → Cursor → Option (List Char × Cursor)
  | 0, _, _ => none
  | fuel + 1, acc, c =>
    if c.seesDocumentMarker || c.rest.isEmpty then none
    else
      match quotedRun quote (c.rest.length + 1) acc c.rest 0 with
      | none => none
      | some (acc, passed, ending) =>
        let c := c.drop passed
        match ending with
        | .closing => some (acc, c.drop 1)
        | .gap =>
          match Gap.empty.gather 0 c.mark c.rest with
          | none => none
          | some (c, gap) => quotedLoop quote fuel (gap.folded ++ acc) c
        | .escapedBreak =>
          let (_, c) := c.takeBreak
          match Gap.gather 0 c.mark ⟨[], some [], []⟩ c.rest with
          | none => none
          | some (c, gap) => quotedLoop quote fuel (gap.folded ++ acc) c

/-- A scalar between quotes; the cursor stands at the opening quote. -/
def quoted (c : Cursor) : Option (String × Cursor) :=
  match c.rest with
  | [] => none
  | quote :: _ =>
    (quotedLoop quote (c.rest.length + 1) [] (c.drop 1)).map fun (acc, c) =>
      (String.ofList acc.reverse, c)

/-- A character that ends a plain scalar inside brackets. -/
def isFlowIndicator (c : Char) : Bool :=
  c == ',' || c == '[' || c == ']' || c == '\x7b' || c == '\x7d'

/-- Characters of a plain scalar up to a gap or an indicator, put before `acc` with the last one
first. A colon directly before an indicator is refused inside brackets. -/
def plainRun (flow : Bool) (acc : List Char) : List Char → Option (List Char)
  | [] => some acc
  | c :: cs =>
    if isBlank c || isBreak c then some acc
    else if flow && c == ':' && cs.head?.any (fun d => isFlowIndicator d || d == '?') then none
    else if (c == ':' && atGap cs) || (flow && isFlowIndicator c) then some acc
    else plainRun flow (c :: acc) cs

/-- Runs and gaps of a plain scalar. A gap is kept only if a run follows. Gives the text, the
cursor, and whether the scalar was followed by a line break. -/
def plainLoop (flow : Bool) (indent : Nat) : Nat → List Char → Gap → Cursor →
    Option (List Char × Cursor × Bool)
  | 0, acc, gap, c => some (acc, c, gap.lead.isSome)
  | fuel + 1, acc, gap, c =>
    if c.seesDocumentMarker || c.sees '#' then some (acc, c, gap.lead.isSome)
    else
      match plainRun flow [] c.rest with
      | none => none
      | some run =>
        let acc := if run.isEmpty then acc else run ++ (gap.folded ++ acc)
        let gap := if run.isEmpty then gap else Gap.empty
        let c := c.drop run.length
        if c.rest.head?.any fun ch => isBlank ch || isBreak ch then
          match gap.gather indent c.mark c.rest with
          | none => none
          | some (c, gap) =>
            if !flow && c.column < indent then some (acc, c, gap.lead.isSome)
            else plainLoop flow indent fuel acc gap c
        else some (acc, c, gap.lead.isSome)

/-- A plain scalar whose further lines must be indented to the given column. -/
def plain (flow : Bool) (indent : Nat) (c : Cursor) : Option (String × Cursor × Bool) :=
  (plainLoop flow indent (c.rest.length + 1) [] Gap.empty c).map fun (acc, c, broken) =>
    (String.ofList acc.reverse, c, broken)

/-- What becomes of the line breaks at the end of a block scalar. -/
inductive Chomping where
  | strip
  | clip
  | keep
  deriving DecidableEq

/-- The indicators of a block scalar: its chomping and its indentation, in either order. -/
def header (c : Cursor) : Option (Chomping × Nat × Cursor) :=
  let chomping (c : Cursor) : Option Chomping × Cursor :=
    if c.sees '+' then (some .keep, c.drop 1)
    else if c.sees '-' then (some .strip, c.drop 1)
    else (none, c)
  let increment (c : Cursor) : Option (Nat × Cursor) :=
    match c.rest with
    | d :: _ =>
      if d.isDigit then
        if d = '0' then none else some (d.toNat - '0'.toNat, c.drop 1)
      else some (0, c)
    | [] => some (0, c)
  match chomping c with
  | (some k, c) => (increment c).map fun (n, c) => (k, n, c)
  | (none, c) =>
    match increment c with
    | none => none
    | some (n, c) =>
      if n = 0 then some (.clip, 0, c)
      else
        let (k, c) := chomping c
        some (k.getD .clip, n, c)

/-- Passes the rest of the line behind the indicators, which holds blanks and a comment at most. -/
def endHeader (c : Cursor) : Option Cursor :=
  let c := c.skipWhile isBlank
  let c := if c.sees '#' then c.skipLine else c
  match c.rest with
  | [] => some c
  | ch :: _ => if isBreak ch then some c.takeBreak.2 else none

/-- Passes indentation and empty lines. `indent` is zero while the indentation is unknown; `widest`
is the widest indentation seen. The breaks are kept last first. -/
def blockBreaks (indent : Nat) : Nat → Nat → List Char → Cursor →
    Option (Nat × List Char × Cursor)
  | 0, _, _, _ => none
  | fuel + 1, widest, breaks, c =>
    let spaces := (c.rest.takeWhile (· == ' ')).length
    let c := c.drop (if indent = 0 then spaces else min spaces (indent - c.column))
    let widest := max widest c.column
    if (indent = 0 || c.column < indent) && c.sees '\t' then none
    else
      match c.rest with
      | ch :: _ =>
        if isBreak ch then
          let (text, c) := c.takeBreak
          blockBreaks indent fuel widest (text ++ breaks) c
        else some (widest, breaks, c)
      | [] => some (widest, breaks, c)

/-- The lines of a block scalar. `lead` is the break of the line before, `breaks` the breaks of the
empty lines since, and `afterBlank` says whether the line before began with a blank. -/
def blockLines (literal : Bool) (indent : Nat) : Nat → List Char → List Char → List Char → Bool →
    Cursor → Option (List Char × List Char × List Char × Cursor)
  | 0, acc, lead, breaks, _, c => some (acc, lead, breaks, c)
  | fuel + 1, acc, lead, breaks, afterBlank, c =>
    if c.column = indent ∧ ¬ c.rest.isEmpty then
      let blank := c.rest.head?.any isBlank
      let joint :=
        if !literal && lead == ['\n'] && !afterBlank && !blank then
          if breaks.isEmpty then [' '] else []
        else lead
      let line := c.rest.takeWhile fun ch => !isBreak ch
      let acc := line.reverse ++ (breaks ++ (joint ++ acc))
      let (lead, c) := (c.drop line.length).takeBreak
      match blockBreaks indent (c.rest.length + 1) 0 [] c with
      | none => none
      | some (_, breaks, c) => blockLines literal indent fuel acc lead breaks blank c
    else some (acc, lead, breaks, c)

/-- A block scalar; the cursor stands at its `|` or `>`. `parent` is the indentation around it. -/
def block (literal : Bool) (parent : Int) (c : Cursor) : Option (String × Cursor) := do
  let (chomping, increment, c) ← header (c.drop 1)
  let c ← endHeader c
  let given := if increment = 0 then 0 else parent.toNat + increment
  let (widest, breaks, c) ← blockBreaks given (c.rest.length + 1) 0 [] c
  let indent := if given = 0 then max (max widest (parent + 1).toNat) 1 else given
  let (acc, lead, breaks, c) ←
    blockLines literal indent (c.rest.length + 1) [] [] breaks false c
  let tail :=
    match chomping with
    | .strip => []
    | .clip => lead
    | .keep => breaks ++ lead
  return (String.ofList (tail ++ acc).reverse, c)

end Appearance.Yaml.Scalar
