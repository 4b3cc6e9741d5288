import Appearance.Font.Parse
import Appearance.Value.Basic
import Appearance.Value.Error
import Appearance.Value.Expr
import Appearance.Value.Keyword

/-!
# Reading values

`Value.parse` reads an expression from a text and gives it a meaning. Words are flags or numbers,
calls are read by the form that their name selects (`Value.ofCall`). All faults name the whole
text, `source`, except those of single words.

Every form of call is read by a function of its own from the list of arguments, and `Value.ofCall`
is the table of them. Most forms take names or numbers without labels; labels are looked at by the
forms that have them and passed over by the others. A word is a flag, or else a dimension: an
integer if it has no unit and no point and fits in 64 bits, and a float otherwise. A quoted string
is no value by itself.
-/

namespace Appearance

open Appearance.Text

/-- What the reading of a value depends on: the key of its property, after which definitions in
capitals are named, and the text styles of the project. -/
structure ValueContext where
  key : Option String
  typography : List String
  deriving Repr

namespace Value

/-- A fault of the text `source`. -/
def fail {α : Type} (source : String) (fault : Fault) : Except ValueError α :=
  .error (.malformed source fault)

/-- The smallest integer and the bound of the integers that a property can hold. -/
def intRange : Int × Int := (-pow2 63, pow2 63)

/-- A signed integer within the range. -/
def readInt? (cs : List Char) : Option Int :=
  let (negative, ds) := splitSign cs
  if ds.isEmpty || !ds.all Char.isDigit then none
  else
    let n : Int := if negative then -(digitsValue ds : Int) else digitsValue ds
    if intRange.1 ≤ n ∧ n < intRange.2 then some n else none

/-- The meaning of a number text: an integer unless it has a unit, has a point or is too large. -/
def ofNumber (word : String) (x : Double) : Value :=
  if Dimension.hasUnit word || word.toList.contains '.' then .float x
  else
    match readInt? (trimChars word.toList) with
    | some n => .int n
    | none => .float x

/-- The meaning of a word: a flag or a number. -/
def ofWord (word : String) : Except ValueError Value :=
  if word = "true" then .ok (.bool true)
  else if word = "false" then .ok (.bool false)
  else
    match Dimension.parse? word with
    | some x => .ok (ofNumber word x)
    | none => fail word .notScalar

/-- A redirect that is not resolved yet. -/
def ofPath (path : String) : Value := .redirect ⟨trim path, none⟩

/-- The color of hexadecimal digits. -/
def ofHex (digits : List Char) : Except ValueError Value :=
  match Color.parseChars ('#' :: digits) with
  | .ok c => .ok (.color c)
  | .error e => .error (.color e)

/-- The text of an argument that must be a name. -/
def nameOf (source : String) (a : Argument) : Except ValueError String :=
  match a.value.text? with
  | some text => .ok text
  | none => fail source (.notName a.raw)

/-- The number of an argument. -/
def numberOf (source : String) (a : Argument) : Except ValueError Double :=
  match a.value.text?.bind Dimension.parse? with
  | some x => .ok x
  | none => fail source (.notNumber a.raw)

/-- The single argument of a form. -/
def single (source form : String) : List Argument → Except ValueError Argument
  | [a] => .ok a
  | _ => fail source (.argumentCount 1 form)

/-- The single argument of a form, which must be a name. -/
def singleName (source form : String) (arguments : List Argument) : Except ValueError String := do
  nameOf source (← single source form arguments)

/-- The numbers of a form that takes `count` of them. -/
def numbers (source form : String) (count : Nat) (arguments : List Argument) :
    Except ValueError (List Double) :=
  if arguments.length = count then arguments.mapM (numberOf source)
  else fail source (.numberCount count form)

/-- A font of the names in a call. -/
def fontOfNames (source : String) (typography names : List String) : Except ValueError Value :=
  match Font.parse typography names with
  | .ok f => .ok (.font f)
  | .error fault => .error (.font source fault)

/-- The color of a call. The digits may be quoted, and `#` may stand before them. -/
def colorOfCall (source : String) (arguments : List Argument) : Except ValueError Value :=
  match single source "color(#rrggbb)" arguments with
  | .error e => .error e
  | .ok a =>
    match a.value with
    | .color digits => ofHex (digits.toList.dropWhile (· == '#'))
    | .word digits => ofHex (digits.toList.dropWhile (· == '#'))
    | .quoted digits => ofHex (digits.toList.dropWhile (· == '#'))
    | _ => fail source .notHexDigits

/-- The redirect of a call; the path may have its `$`. -/
def redirectOfCall (source : String) (arguments : List Argument) : Except ValueError Value :=
  match single source "redirect(Style.property)" arguments with
  | .error e => .error e
  | .ok a =>
    match a.value with
    | .redirect path => .ok (ofPath path)
    | _ => do return ofPath (← nameOf source a)

/-- The labelled arguments of a change that have been read; a later one replaces an earlier one. -/
structure ChangeFields where
  property : Option String
  start : Option Double
  finish : Option Double

/-- Reads the labelled arguments of a change from left to right. -/
def changeFields (source : String) : ChangeFields → List Argument → Except ValueError ChangeFields
  | fields, [] => .ok fields
  | fields, a :: rest =>
    match a.label with
    | some "type" => do
      let name ← nameOf source a
      changeFields source ⟨some name, fields.start, fields.finish⟩ rest
    | some "from" => do
      let x ← numberOf source a
      changeFields source ⟨fields.property, some x, fields.finish⟩ rest
    | some "to" => do
      let x ← numberOf source a
      changeFields source ⟨fields.property, fields.start, some x⟩ rest
    | _ => fail source .changeArguments

/-- The change of given fields; the property must be named. -/
def changeOfFields (source : String) (fields : ChangeFields) :
    Except ValueError AnimationValue :=
  match fields.property with
  | none => fail source .noChangeType
  | some property =>
    match AnimationValue.make property fields.start fields.finish with
    | .ok v => .ok v
    | .error fault => fail source (.animation fault)

/-- The change of a call. -/
def changeOfCall (source : String) (arguments : List Argument) :
    Except ValueError AnimationValue := do
  changeOfFields source (← changeFields source ⟨none, none, none⟩ arguments)

/-- The change of an item in the list of a keyframe. -/
def changeOfItem (source : String) : Expr → Except ValueError AnimationValue
  | .call name arguments =>
    if Keyword.ofName? name = some .animationValue then changeOfCall source arguments
    else fail source .changesNotCalls
  | _ => fail source .changesNotCalls

/-- The changes of a keyframe argument, which must be a list of calls. -/
def changesOf (source : String) : Expr → Except ValueError (List AnimationValue)
  | .list items => items.mapM (changeOfItem source)
  | _ => fail source .changesNotList

/-- Reads the labelled arguments of a keyframe from left to right. Lists of changes add up. -/
def keyFrameOfCall (source : String) : KeyFrame → List Argument → Except ValueError KeyFrame
  | frame, [] => .ok frame
  | frame, a :: rest =>
    match a.label with
    | some "relativeStartTime" => do
      let x ← numberOf source a
      keyFrameOfCall source ⟨x, frame.duration, frame.values⟩ rest
    | some "relativeDuration" => do
      let x ← numberOf source a
      keyFrameOfCall source ⟨frame.startTime, some x, frame.values⟩ rest
    | some "animationValues" => do
      let values ← changesOf source a.value
      keyFrameOfCall source ⟨frame.startTime, frame.duration, frame.values ++ values⟩ rest
    | _ => fail source .frameArguments

/-- A keyframe at the start of an animation with nothing in it. -/
def emptyKeyFrame : KeyFrame := ⟨0, none, []⟩

/-- The type of a definition and the arguments after it. A capitalized form takes the type from
the key of the property. -/
def definitionType (source : String) (capitalized : Bool) (ctx : ValueContext)
    (arguments : List Argument) : Except ValueError (String × List Argument) :=
  match if capitalized then ctx.key else none with
  | some key => .ok (key, arguments)
  | none =>
    match arguments with
    | [] => fail source .noType
    | a :: rest => do return (← nameOf source a, rest)

/-- The definition of an enumeration; it has at least one case. -/
def enumDefOfCall (source : String) (capitalized : Bool) (ctx : ValueContext)
    (arguments : List Argument) : Except ValueError Value := do
  let (type, rest) ← definitionType source capitalized ctx arguments
  let cases ← rest.mapM (nameOf source)
  if cases.isEmpty then fail source .noCases else return .enumDef type cases

/-- A member name of a composite option. -/
def memberOf (source : String) (item : Expr) : Except ValueError String :=
  match item.text? with
  | some name => .ok name
  | none => fail source .memberNotName

/-- An entry of an option set: a name, or a label with the list of its members. -/
def optionEntryOf (source : String) (a : Argument) : Except ValueError OptionEntry :=
  match a.label, a.value with
  | some name, .list items => do return .composite name (← items.mapM (memberOf source))
  | none, _ => do return .flag (← nameOf source a)
  | some _, _ => fail source .compositeForm

/-- The definition of an option set; it has at least one entry. -/
def optionDefOfCall (source : String) (capitalized : Bool) (ctx : ValueContext)
    (arguments : List Argument) : Except ValueError Value := do
  let (type, rest) ← definitionType source capitalized ctx arguments
  let entries ← rest.mapM (optionEntryOf source)
  if entries.isEmpty then fail source .noOptions else return .optionDef type entries

/-- The type and the name of a qualified name, `Type.name` or `Outer.Type.name`. -/
def qualified (source text : String) : Except ValueError (String × String) :=
  match (splitAtChars (· == '.') (trimChars text.toList)).map String.ofList with
  | [type, name] => .ok (type, name)
  | [outer, type, name] => .ok (outer ++ "." ++ type, name)
  | _ => fail source (.notQualified text)

/-- The case of an enumeration. -/
def enumCaseOfCall (source : String) (arguments : List Argument) : Except ValueError Value := do
  let text ← singleName source "enum(Type.value)" arguments
  let (type, name) ← qualified source text
  return .enumCase type name

/-- The names of options that share a type; `type` is that of the options before, if any. -/
def optionNames (source : String) (type : Option String) :
    List Argument → Except ValueError (Option String × List String)
  | [] => .ok (type, [])
  | a :: rest => do
    let text ← nameOf source a
    let (own, name) ← qualified source text
    if type.getD own = own then
      let (type, names) ← optionNames source (some own) rest
      return (type, name :: names)
    else fail source .mixedOptionTypes

/-- A set of options; there is at least one. -/
def optionSetOfCall (source : String) (arguments : List Argument) : Except ValueError Value :=
  if arguments.isEmpty then fail source .emptyOptionSet
  else do
    let (type, names) ← optionNames source none arguments
    return .optionSet (type.getD "") names

/-- A raw expression with its type. -/
def expressionOfCall (source : String) : List Argument → Except ValueError Value
  | [e, t] => do return .call (trim e.raw) (← nameOf source t)
  | _ => fail source (.argumentCount 2 "call(expression, Type)")

/-- A point of two numbers. -/
def pointOfCall (source : String) (arguments : List Argument) : Except ValueError Value := do
  match ← numbers source "point(x, y)" 2 arguments with
  | [x, y] => return .point x y
  | _ => fail source (.numberCount 2 "point(x, y)")

/-- A size of two numbers. -/
def sizeOfCall (source : String) (arguments : List Argument) : Except ValueError Value := do
  match ← numbers source "size(width, height)" 2 arguments with
  | [width, height] => return .size width height
  | _ => fail source (.numberCount 2 "size(width, height)")

/-- A rectangle of four numbers. -/
def rectOfCall (source : String) (arguments : List Argument) : Except ValueError Value := do
  match ← numbers source "rect(x, y, width, height)" 4 arguments with
  | [x, y, width, height] => return .rect x y width height
  | _ => fail source (.numberCount 4 "rect(x, y, width, height)")

/-- Insets of four numbers. -/
def edgeInsetsOfCall (source : String) (arguments : List Argument) : Except ValueError Value := do
  match ← numbers source "edgeInsets(top, left, bottom, right)" 4 arguments with
  | [top, left, bottom, right] => return .edgeInsets top left bottom right
  | _ => fail source (.numberCount 4 "edgeInsets(top, left, bottom, right)")

/-- A repeat count of one name. -/
def repeatCountOfCall (source : String) (arguments : List Argument) :
    Except ValueError Value := do
  let text ← singleName source "repeatCount(N|infinite)" arguments
  match RepeatCount.parse text with
  | .ok c => return .repeatCount c
  | .error fault => fail text (.animation fault)

/-- A timing function of its names and numbers. -/
def timingOfCall (source : String) (arguments : List Argument) : Except ValueError Value := do
  let texts ← arguments.mapM (nameOf source)
  match TimingFunction.parse texts with
  | .ok f => return .timing f
  | .error fault => fail source (.animation fault)

/-- The value of a call; its keyword selects the form. -/
def ofCall (source : String) (ctx : ValueContext) (keyword : Keyword) (capitalized : Bool)
    (arguments : List Argument) : Except ValueError Value :=
  match keyword with
  | .font => do fontOfNames source ctx.typography (← arguments.mapM (nameOf source))
  | .color => colorOfCall source arguments
  | .namedColor => do return .namedColor (← singleName source "namedColor(Name)" arguments)
  | .image => do return .image (← singleName source "image(Name)" arguments)
  | .icon => do return .icon (← singleName source "icon(name)" arguments)
  | .redirect => redirectOfCall source arguments
  | .point => pointOfCall source arguments
  | .size => sizeOfCall source arguments
  | .rect => rectOfCall source arguments
  | .edgeInsets => edgeInsetsOfCall source arguments
  | .repeatCount => repeatCountOfCall source arguments
  | .timingFunction => timingOfCall source arguments
  | .animationValue => do return .animationValue (← changeOfCall source arguments)
  | .keyFrame => do return .keyFrame (← keyFrameOfCall source emptyKeyFrame arguments)
  | .enumDef => enumDefOfCall source capitalized ctx arguments
  | .enumCase => enumCaseOfCall source arguments
  | .optionDef => optionDefOfCall source capitalized ctx arguments
  | .optionSet => optionSetOfCall source arguments
  | .call => expressionOfCall source arguments

mutual

/-- The value of an expression in the text `source`. -/
def ofExpr (source : String) (ctx : ValueContext) : Expr → Except ValueError Value
  | .word word => ofWord word
  | .quoted text => fail source (.quotedString text)
  | .color digits => ofHex digits.toList
  | .redirect path => .ok (ofPath path)
  | .list items =>
    match ofItems source ctx items with
    | .ok values => .ok (.array values)
    | .error e => .error e
  | .call name arguments =>
    match Keyword.ofName? name with
    | some keyword => ofCall source ctx keyword (Keyword.isCapitalized name) arguments
    | none => fail source (.unknownForm name)

/-- The values of the items of a list. -/
def ofItems (source : String) (ctx : ValueContext) : List Expr → Except ValueError (List Value)
  | [] => .ok []
  | e :: es =>
    match ofExpr source ctx e with
    | .error e => .error e
    | .ok v =>
      match ofItems source ctx es with
      | .ok vs => .ok (v :: vs)
      | .error e => .error e

end

/-- Reads the value of a text. -/
def parse (ctx : ValueContext) (source : String) : Except ValueError Value :=
  match Expr.parse source with
  | .ok e => ofExpr source ctx e
  | .error fault => fail source (.expression fault)

end Value

end Appearance
