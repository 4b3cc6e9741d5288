import Appearance.Text.Blank
import Appearance.Text.Offset

/-!
# Tokens of a value text

A value text such as `font(Helvetica Neue, 14pt)` is a sequence of delimiters, quoted strings and
words. A word is a run without delimiters, trimmed, so names of several words and dotted paths are
one token. `Token.scan` reads all tokens; each keeps the byte offsets of its span, and each step
of the scan shortens what is left (`Token.length_of_next?`).

`Token.next?` finds one token and `Token.scanFrom` repeats it. Blanks before a token are passed
over, and those behind a word are no part of it, so the spans of tokens do not overlap and what
lies between them is white space. A quote that is never closed becomes a token as well, and the
reader of expressions refuses it; scanning itself never fails. No character is passed twice.
-/

namespace Appearance

open Appearance.Text

namespace Token

/-- The kinds of tokens. -/
inductive Kind where
  | word (text : String)
  /-- The text between two equal quotes. -/
  | quoted (text : String)
  | openParen
  | closeParen
  | openBracket
  | closeBracket
  | comma
  | colon
  | pipe
  | dollar
  | hash
  /-- A quote that is never closed, with all that follows. -/
  | unterminated
  deriving DecidableEq, Repr

end Token

/-- A token with the byte offsets of its span. -/
structure Token where
  kind : Token.Kind
  start : Nat
  stop : Nat
  deriving DecidableEq, Repr

namespace Token

/-- The kind of a delimiter that stands for itself. -/
def punctuation? : Char → Option Kind
  | '(' => some .openParen
  | ')' => some .closeParen
  | '[' => some .openBracket
  | ']' => some .closeBracket
  | ',' => some .comma
  | ':' => some .colon
  | '|' => some .pipe
  | '$' => some .dollar
  | '#' => some .hash
  | _ => none

/-- A quote of either kind. -/
def isQuote (c : Char) : Bool := c == '"' || c == '\''

/-- A character that ends a word. -/
def isDelimiter (c : Char) : Bool := (punctuation? c).isSome || isQuote c

/-- A token, and where and with what the scan goes on. -/
structure Step where
  token : Token
  offset : Nat
  rest : List Char

/-- The string that begins with `quote` at `start`; `body` is what follows the quote. -/
def quotedStep (quote : Char) (start : Nat) (body : List Char) : Step :=
  let inner := body.takeWhile (· != quote)
  match body.dropWhile (· != quote) with
  | _ :: after =>
    let stop := start + 1 + byteLength inner + 1
    ⟨⟨.quoted (String.ofList inner), start, stop⟩, stop, after⟩
  | [] =>
    let stop := start + 1 + byteLength body
    ⟨⟨.unterminated, start, stop⟩, stop, []⟩

/-- The word that begins at `start` with the first character of `cs`. -/
def wordStep (start : Nat) (cs : List Char) : Step :=
  let run := cs.takeWhile fun c => !isDelimiter c
  let word := trimEndChars run
  ⟨⟨.word (String.ofList word), start, start + byteLength word⟩, start + byteLength run,
    cs.dropWhile fun c => !isDelimiter c⟩

/-- The token that begins at `start` with the character `c`. -/
def stepAt (start : Nat) (c : Char) (rest : List Char) : Step :=
  match punctuation? c with
  | some kind => ⟨⟨kind, start, start + c.utf8Size⟩, start + c.utf8Size, rest⟩
  | none => if isQuote c then quotedStep c start rest else wordStep start (c :: rest)

/-- The first token of a text that begins at `offset`, after any white space. -/
def next? (offset : Nat) (cs : List Char) : Option Step :=
  match cs.dropWhile isBlank with
  | [] => none
  | c :: rest => some (stepAt (offset + byteLength (cs.takeWhile isBlank)) c rest)

/-- Dropping characters makes no text longer. -/
theorem length_dropWhile_le (p : Char → Bool) (cs : List Char) :
    (cs.dropWhile p).length ≤ cs.length := by
  induction cs with
  | nil => simp
  | cons c cs ih =>
    by_cases h : p c = true
    · simp only [List.dropWhile_cons, h, if_true, List.length_cons]
      omega
    · simp [h]

/-- Behind a quoted text less is left. -/
theorem length_quotedStep_le (quote : Char) (start : Nat) (body : List Char) :
    (quotedStep quote start body).rest.length ≤ body.length := by
  unfold quotedStep
  have h := length_dropWhile_le (· != quote) body
  split
  · next q after heq =>
    rw [heq, List.length_cons] at h
    exact Nat.le_of_succ_le h
  · exact Nat.zero_le _

/-- Behind any token no more is left than was behind its first character. -/
theorem length_stepAt_le (start : Nat) (c : Char) (rest : List Char) :
    (stepAt start c rest).rest.length ≤ rest.length := by
  unfold stepAt
  split
  · exact Nat.le_refl _
  · next hp =>
    split
    · exact length_quotedStep_le c start rest
    · next hq =>
      have hd : isDelimiter c = false := by simp [isDelimiter, hp, hq]
      simpa [wordStep, hd] using length_dropWhile_le _ rest

/-- A step leaves less than it was given. -/
theorem length_of_next? {offset : Nat} {cs : List Char} {s : Step} (h : next? offset cs = some s) :
    s.rest.length < cs.length := by
  unfold next? at h
  have hd := length_dropWhile_le isBlank cs
  split at h
  · cases h
  · next c rest heq =>
    rw [heq, List.length_cons] at hd
    have hs := length_stepAt_le (offset + byteLength (cs.takeWhile isBlank)) c rest
    cases h
    omega

/-- The tokens of a text that begins at `offset`. -/
def scanFrom (offset : Nat) (cs : List Char) : List Token :=
  match _h : next? offset cs with
  | none => []
  | some s => s.token :: scanFrom s.offset s.rest
termination_by cs.length
decreasing_by exact length_of_next? _h

/-- The tokens of a text. -/
def scan (cs : List Char) : List Token := scanFrom 0 cs

end Token

end Appearance
