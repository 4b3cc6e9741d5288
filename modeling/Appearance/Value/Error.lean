import Appearance.Condition.Parse
import Appearance.Color
import Appearance.Font.Parse
import Appearance.Animation.Basic
import Appearance.Value.Expr

/-!
# Why a text is no value

`Value.Fault` lists what can be wrong with the text of a value, and `ValueError` adds the faults of
colors, fonts and conditions. `ValueError.message` gives the wording.

The faults of the parts keep their own types and are embedded: those of expressions, animations,
colors, fonts and conditions. A fault of the text of a value names the text as a whole; a fault of
a color or of a condition words itself, for the text that it names is a part of the value.
`ValueError.unsupported` is about a node and not about a text, and names it in the form of
`Yaml.Node.display`.
-/

namespace Appearance

namespace Value

/-- What is wrong with the text of a value. -/
inductive Fault where
  | expression (fault : Expr.Fault)
  | quotedString (text : String)
  | notScalar
  | unknownForm (name : String)
  | argumentCount (count : Nat) (form : String)
  | numberCount (count : Nat) (form : String)
  | notName (raw : String)
  | notNumber (raw : String)
  | notHexDigits
  | animation (fault : AnimationFault)
  | changeArguments
  | noChangeType
  | frameArguments
  | changesNotList
  | changesNotCalls
  | noType
  | noCases
  | noOptions
  | memberNotName
  | compositeForm
  | emptyOptionSet
  | mixedOptionTypes
  | notQualified (text : String)
  | notKeyFrame
  | notRepeatCount
  /-- A field of a keyframe in mapping form is no number. -/
  | fieldNotNumber (field : String)
  deriving DecidableEq, Repr

def Fault.message : Fault → String
  | expression fault => fault.message
  | quotedString text => s!"quoted string `{text}` is not a value"
  | notScalar => "not a number, boolean or value form"
  | unknownForm name => s!"unknown value form `{name}`"
  | argumentCount count form =>
    "expected " ++ natText count ++ " argument(s), format: " ++ form
  | numberCount count form => "expected " ++ natText count ++ " numbers, format: " ++ form
  | notName raw => s!"expected a name, got `{raw}`"
  | notNumber raw => s!"`{raw}` is not a number"
  | notHexDigits => "expected hex digits"
  | animation fault => fault.message
  | changeArguments => "animationValue takes type:, from: and to: arguments"
  | noChangeType => "animation value needs `type`"
  | frameArguments => "unknown keyFrame argument"
  | changesNotList => "animationValues must be a list"
  | changesNotCalls => "animationValues items must be animationValue(...)"
  | noType => "expected a type name"
  | noCases => "enumDef needs at least one case"
  | noOptions => "optionDef needs at least one option"
  | memberNotName => "option members must be names"
  | compositeForm => "composite options are written name:[a|b]"
  | emptyOptionSet => "format: option(Type.a, Type.b)"
  | mixedOptionTypes => "options must share one type"
  | notQualified text => s!"`{text}` should be written Type.value"
  | notKeyFrame => "expected keyFrame(...)"
  | notRepeatCount => "expected a repeat count"
  | fieldNotNumber field => s!"`{field}` must be a number"

end Value

/-- Why something is no value. -/
inductive ValueError where
  | malformed (value : String) (fault : Value.Fault)
  | color (error : Color.Error)
  | font (value : String) (fault : Font.Fault)
  | condition (error : Condition.Error)
  /-- A node that cannot be a value where it stands. -/
  | unsupported (node : String)
  deriving DecidableEq, Repr

def ValueError.message : ValueError → String
  | malformed value fault => "malformed rhs value `" ++ value ++ "`: " ++ fault.message
  | color error => error.message
  | font value fault => "invalid font `" ++ value ++ "`: " ++ fault.message
  | condition error => error.message
  | unsupported node => s!"unsupported YAML value {node} as right-hand side"

end Appearance
