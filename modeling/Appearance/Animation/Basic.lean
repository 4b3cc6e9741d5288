import Appearance.Dimension
import Appearance.Code.Literal

/-!
# Animations

The parts of an animation: timing curves, repeat counts, and keyframes with the changes that they
animate.

Curves and animatable properties are enumerations with their names beside them: `all` lists the
values in the order of messages and of generated declarations, and `ofName?` searches this list, so
a name that is read and a name that is printed cannot drift apart. `TimingFunction.parse` takes the
name of a curve or four control points, and `RepeatCount.parse` takes decimal digits below 2³² or
the word `infinite`. `AnimationValue.make` refuses a change without an end; a start need not be
given. The shapes in which calls and mappings write these parts are read in `Value.Read` and
`Value.OfNode`.
-/

namespace Appearance

open Appearance.Text

/-- The named timing curves. -/
inductive Curve where
  | easeIn
  | easeInOut
  | easeOut
  | linear
  deriving DecidableEq, Repr

namespace Curve

/-- All curves, in the order of messages. -/
def all : List Curve := [easeIn, easeInOut, easeOut, linear]

/-- The name of a curve, in sources as in generated code. -/
def name : Curve → String
  | easeIn => "easeIn"
  | easeInOut => "easeInOut"
  | easeOut => "easeOut"
  | linear => "linear"

/-- The curve of a name. -/
def ofName? (name : String) : Option Curve := all.find? (·.name == name)

end Curve

/-- How an animation proceeds in time: a named curve, or a cubic one with two control points. -/
inductive TimingFunction where
  | named (curve : Curve)
  | cubic (x₁ y₁ x₂ y₂ : Double)
  deriving DecidableEq, Repr

/-- How often an animation runs. -/
inductive RepeatCount where
  | count (n : Nat)
  | infinite
  deriving DecidableEq, Repr

/-- The properties that can be animated. -/
inductive Animatable where
  | opacity
  | frame
  | size
  | width
  | height
  | left
  | rotate
  deriving DecidableEq, Repr

namespace Animatable

/-- All properties that can be animated, in the order of the generated cases. -/
def all : List Animatable := [opacity, frame, size, width, height, left, rotate]

/-- The name of an animated property, in sources as in generated code. -/
def name : Animatable → String
  | opacity => "opacity"
  | frame => "frame"
  | size => "size"
  | width => "width"
  | height => "height"
  | left => "left"
  | rotate => "rotate"

/-- The property of a name. -/
def ofName? (name : String) : Option Animatable := all.find? (·.name == name)

end Animatable

/-- The change of one property. -/
structure AnimationValue where
  property : Animatable
  start : Option Double
  finish : Double
  deriving DecidableEq, Repr

/-- Changes that run together, from a relative time on and for a relative duration. -/
structure KeyFrame where
  startTime : Double
  duration : Option Double
  values : List AnimationValue
  deriving DecidableEq, Repr

/-- Why texts describe no animation. -/
inductive AnimationFault where
  | timingArguments
  | unknownCurve (name : String)
  | controlPoint (text : String)
  | repeatCount
  | notAnimatable (name : String)
  | noFinish
  deriving DecidableEq, Repr

def AnimationFault.message : AnimationFault → String
  | timingArguments => "expected a curve name or four control points"
  | unknownCurve name =>
    "unknown timing function `" ++ name ++ "`, expected one of " ++
      ", ".intercalate (Curve.all.map Curve.name)
  | controlPoint text => s!"control point `{text}` is not a number"
  | repeatCount => "repeat count must be a number or `infinite`"
  | notAnimatable name =>
    "`" ++ name ++ "` is not animatable, expected one of " ++
      ", ".intercalate (Animatable.all.map Animatable.name)
  | noFinish => "animation value needs `to`"

namespace TimingFunction

/-- A control point, given as a dimension. -/
def controlPoint (text : String) : Except AnimationFault Double :=
  match Dimension.parse? text with
  | some x => .ok x
  | none => .error (.controlPoint text)

/-- Reads a timing function: the name of a curve, or four coordinates. -/
def parse : List String → Except AnimationFault TimingFunction
  | [name] =>
    let name := trim name
    match Curve.ofName? name with
    | some curve => .ok (.named curve)
    | none => .error (.unknownCurve name)
  | [x₁, y₁, x₂, y₂] => do
    let x₁ ← controlPoint x₁
    let y₁ ← controlPoint y₁
    let x₂ ← controlPoint x₂
    let y₂ ← controlPoint y₂
    return .cubic x₁ y₁ x₂ y₂
  | _ => .error .timingArguments

/-- A timing function in generated code. -/
def toSwift : TimingFunction → String
  | named curve => ".native(UIView.AnimationCurve." ++ curve.name ++ ")"
  | cubic x₁ y₁ x₂ y₂ =>
    ".timingParameters(UICubicTimingParameters(controlPoint1: CGPoint(x: " ++ Code.number x₁ ++
      ", y: " ++ Code.number y₁ ++ "), controlPoint2: CGPoint(x: " ++ Code.number x₂ ++
      ", y: " ++ Code.number y₂ ++ ")))"

end TimingFunction

namespace RepeatCount

/-- The counts end below this number. -/
def bound : Nat := pow2 32

/-- Decimal digits after an optional plus sign. -/
def count? (cs : List Char) : Option Nat :=
  let ds :=
    match cs with
    | '+' :: ds => ds
    | ds => ds
  if ds.isEmpty || !ds.all Char.isDigit || bound ≤ digitsValue ds then none
  else some (digitsValue ds)

/-- Reads a repeat count. -/
def parse (text : String) : Except AnimationFault RepeatCount :=
  let text := trim text
  if text = "infinite" then .ok .infinite
  else
    match count? text.toList with
    | some n => .ok (.count n)
    | none => .error .repeatCount

/-- A repeat count in generated code. -/
def toSwift : RepeatCount → String
  | count n => "AnimationRepeatCount.count(" ++ natText n ++ ")"
  | infinite => "AnimationRepeatCount.infinite"

end RepeatCount

namespace AnimationValue

/-- The change of a named property; where it ends must be given. -/
def make (property : String) (start finish : Option Double) :
    Except AnimationFault AnimationValue :=
  match Animatable.ofName? property with
  | none => .error (.notAnimatable property)
  | some property =>
    match finish with
    | none => .error .noFinish
    | some finish => .ok ⟨property, start, finish⟩

/-- The change of a property in generated code; a start that is not given is `nil`. -/
def toSwift (v : AnimationValue) : String :=
  let start :=
    match v.start with
    | some x => "CGFloat(" ++ Code.number x ++ ")"
    | none => "nil"
  "." ++ v.property.name ++ "(from: " ++ start ++ ", to: CGFloat(" ++ Code.number v.finish ++ "))"

end AnimationValue

namespace KeyFrame

/-- A duration that is not positive is left open. -/
def durationSwift : Option Double → String
  | some x => if x.isPositive then Code.number x else "nil"
  | none => "nil"

/-- A keyframe in generated code, with its changes in order. -/
def toSwift (k : KeyFrame) : String :=
  "KeyFrame(relativeStartTime: " ++ Code.number k.startTime ++ ", relativeDuration: " ++
    durationSwift k.duration ++ ", values: [" ++
    ", ".intercalate (k.values.map AnimationValue.toSwift) ++ "])"

end KeyFrame

end Appearance
