import Appearance.Double.Layout
import Appearance.Value.Token

/-!
# Expressions of value texts

A value text is an expression of this grammar:

* value: a call, a redirect, a color, a list, a quoted string or a word;
* call: a word, then arguments between parentheses, separated by commas; an argument can begin
  with a word and a colon, its label;
* list: values between brackets, separated by commas or bars;
* redirect: `$` and a word; color: `#` and a word.

`Expr.parse` reads one expression from a whole text. Reading is structural in a number of steps
that is twice the number of tokens: a value takes at least one token and a call two.

An argument keeps the raw text of its value beside the expression, because one form takes an
expression of the generated language as it was written. Reading gives the rest of the tokens and
the end of the last one (`Expr.Parsed`), so an error names the token that could not be taken and
its offset. The steps are an upper bound and not a limit: with twice as many steps as tokens a
reading never stops for want of them, which is shown once and used wherever a text is read.
-/

namespace Appearance

open Appearance.Text

mutual

/-- An expression, with no meaning given to its words yet. -/
inductive Expr where
  | word (text : String)
  | quoted (text : String)
  | color (digits : String)
  | redirect (path : String)
  | call (name : String) (arguments : List Argument)
  | list (items : List Expr)

/-- An argument of a call: its label if it has one, its value, and the text of the value. -/
inductive Argument where
  | mk (label : Option String) (value : Expr) (raw : String)

end

namespace Argument

/-- The label of an argument. -/
def label : Argument → Option String
  | mk label _ _ => label

/-- The expression of an argument. -/
def value : Argument → Expr
  | mk _ value _ => value

/-- The text of an argument's value as it was written. -/
def raw : Argument → String
  | mk _ _ raw => raw

end Argument

namespace Expr

/-- The text of a word or of a quoted string. -/
def text? : Expr → Option String
  | word text => some text
  | quoted text => some text
  | _ => none

/-- What can be missing at the end of a text. -/
inductive Missing where
  | value
  | path
  | digits
  | closeParen
  | closeBracket
  deriving DecidableEq, Repr

/-- Why a text is no expression. -/
inductive Fault where
  | missing (what : Missing)
  | unterminated
  | unexpected (text : String) (offset : Nat)
  deriving DecidableEq, Repr

def Missing.message : Missing → String
  | value => "expected a value"
  | path => "expected a path after `$`"
  | digits => "expected hex digits after `#`"
  | closeParen => "expected `)` at end of input"
  | closeBracket => "expected `]` at end of input"

def Fault.message : Fault → String
  | missing what => what.message
  | unterminated => "unterminated string"
  | unexpected text offset => "unexpected `" ++ text ++ "` at offset " ++ natText offset

/-- The fault of a token that cannot stand where it does. -/
def unexpectedToken (source : List Char) (t : Token) : Fault :=
  if t.kind = .unterminated then .unterminated
  else .unexpected (String.ofList (slice t.start t.stop source)) t.start

/-- What has been read, where its last token ends, and the tokens that follow. -/
structure Parsed (α : Type) where
  result : α
  stop : Nat
  rest : List Token

/-- The word that must follow a `$` or a `#`. -/
def wordAfter (source : List Char) (what : Missing) (make : String → Expr) :
    List Token → Except Fault (Parsed Expr)
  | [] => .error (.missing what)
  | t :: ts =>
    match t.kind with
    | .word text => .ok ⟨make text, t.stop, ts⟩
    | _ => .error (unexpectedToken source t)

/-- The label at the beginning of an argument, and the tokens after it. -/
def splitLabel : List Token → Option String × List Token
  | ts@(t :: u :: rest) =>
    match t.kind, u.kind with
    | .word label, .colon => (some label, rest)
    | _, _ => (none, ts)
  | ts => (none, ts)

/-- The text of a value that begins with the first of the tokens and ends at `stop`. -/
def rawText (source : List Char) (tokens : List Token) (stop : Nat) : String :=
  match tokens with
  | t :: _ => String.ofList (slice t.start stop source)
  | [] => ""

/-- The token opens the arguments of a call. -/
def opensCall : List Token → Bool
  | t :: _ => t.kind == .openParen
  | [] => false

mutual

/-- Reads a value in at most the given number of steps. -/
def value (source : List Char) : Nat → List Token → Except Fault (Parsed Expr)
  | 0, _ => .error (.missing .value)
  | _ + 1, [] => .error (.missing .value)
  | fuel + 1, t :: ts =>
    match t.kind with
    | .word name =>
      if opensCall ts then
        match ts.tail with
        | u :: rest =>
          if u.kind = .closeParen then .ok ⟨.call name [], u.stop, rest⟩
          else
            match arguments source fuel (u :: rest) with
            | .ok p => .ok ⟨.call name p.result, p.stop, p.rest⟩
            | .error e => .error e
        | [] => .error (.missing .value)
      else .ok ⟨.word name, t.stop, ts⟩
    | .quoted text => .ok ⟨.quoted text, t.stop, ts⟩
    | .dollar => wordAfter source .path .redirect ts
    | .hash => wordAfter source .digits .color ts
    | .openBracket =>
      match ts with
      | u :: rest =>
        if u.kind = .closeBracket then .ok ⟨.list [], u.stop, rest⟩
        else
          match items source fuel (u :: rest) with
          | .ok p => .ok ⟨.list p.result, p.stop, p.rest⟩
          | .error e => .error e
      | [] => .error (.missing .value)
    | _ => .error (unexpectedToken source t)

/-- Reads the arguments of a call up to the closing parenthesis. -/
def arguments (source : List Char) : Nat → List Token → Except Fault (Parsed (List Argument))
  | 0, _ => .error (.missing .value)
  | fuel + 1, ts =>
    let (label, ts) := splitLabel ts
    match value source fuel ts with
    | .error e => .error e
    | .ok p =>
      let argument := Argument.mk label p.result (rawText source ts p.stop)
      match p.rest with
      | [] => .error (.missing .closeParen)
      | t :: rest =>
        match t.kind with
        | .comma =>
          match arguments source fuel rest with
          | .ok q => .ok ⟨argument :: q.result, q.stop, q.rest⟩
          | .error e => .error e
        | .closeParen => .ok ⟨[argument], t.stop, rest⟩
        | _ => .error (unexpectedToken source t)

/-- Reads the items of a list up to the closing bracket. -/
def items (source : List Char) : Nat → List Token → Except Fault (Parsed (List Expr))
  | 0, _ => .error (.missing .value)
  | fuel + 1, ts =>
    match value source fuel ts with
    | .error e => .error e
    | .ok p =>
      match p.rest with
      | [] => .error (.missing .closeBracket)
      | t :: rest =>
        if t.kind = .comma ∨ t.kind = .pipe then
          match items source fuel rest with
          | .ok q => .ok ⟨p.result :: q.result, q.stop, q.rest⟩
          | .error e => .error e
        else if t.kind = .closeBracket then .ok ⟨[p.result], t.stop, rest⟩
        else .error (unexpectedToken source t)

end

/-- Reads an expression from a whole text. -/
def parseChars (source : List Char) : Except Fault Expr :=
  let tokens := Token.scan source
  match value source (2 * tokens.length + 2) tokens with
  | .error e => .error e
  | .ok p =>
    match p.rest with
    | [] => .ok p.result
    | t :: _ => .error (unexpectedToken source t)

/-- Reads an expression from a whole text. -/
def parse (s : String) : Except Fault Expr := parseChars s.toList

end Expr

end Appearance
