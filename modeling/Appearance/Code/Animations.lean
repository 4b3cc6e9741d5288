import Appearance.Animation.Basic
import Appearance.Code.Block

/-!
# Animations in generated code

The base file declares the types of animations as soon as one stylesheet has an animator.

All of it depends on one thing only, the names of the animations: they are the cases of
`AnimationType`. The cases of `AnimatableProp` and both functions that apply a change run over
`Animatable.all`, so a further animatable property needs one line here (`Code.changeTo`) and the
generated switch statements stay complete.
-/

namespace Appearance.Code

/-- An enumeration of cases. -/
def enumBlock (head : String) (cases : List String) : List String :=
  block ("public enum " ++ head) (cases.map ("case " ++ ·))

/-- A change of a view to one value of an animation, as a statement. -/
def changeTo (value : String) : Animatable → String
  | .opacity => "view.alpha = " ++ value
  | .frame => "view.transform = CGAffineTransform(scaleX: " ++ value ++ ", y: " ++ value ++ ")"
  | .size => "view.bounds.size = CGSize(width: " ++ value ++ ", height: " ++ value ++ ")"
  | .width => "view.bounds.size.width = " ++ value
  | .height => "view.bounds.size.height = " ++ value
  | .left => "view.frame.origin.x = " ++ value
  | .rotate =>
    "view.transform = view.transform.rotated(by: " ++ value ++ " * .pi / 180.0)"

/-- The beginning of a change, which need not be given. -/
def startCase (p : Animatable) : String :=
  "case ." ++ p.name ++ "(let from, _): " ++
    inlineBlock "if let from = from" (changeTo "from" p)

/-- The end of a change. -/
def finishCase (p : Animatable) : String :=
  "case ." ++ p.name ++ "(_, let to): " ++ changeTo "to" p

/-- A function that applies one side of every change. -/
def changeLines (name : String) (cases : List String) : List String :=
  block ("func " ++ name ++ "(to view: UIView)") (opening "switch self" :: cases ++ [closing])

/-- The types of animations; `animations` are the names of those in the stylesheet. -/
def animationLines (animations : List String) : List String :=
  paragraph
      (block "public struct KeyFrame"
        ["public var relativeStartTime: CGFloat",
          "public var relativeDuration: CGFloat?",
          "public var values: [AnimatableProp]"]) ++
    paragraph (enumBlock "AnimationRepeatCount" ["infinite", "count(Int)"]) ++
    paragraph
      (enumBlock "AnimationCurveType"
        ["native(UIView.AnimationCurve)", "timingParameters(UITimingCurveProvider)"]) ++
    paragraph (enumBlock "AnimationType" animations) ++
    paragraph
      (enumBlock "AnimatableProp: Equatable"
        (Animatable.all.map fun p => p.name ++ "(from: CGFloat?, to: CGFloat)")) ++
    paragraph
      (block "public extension AnimatableProp"
        (paragraph (changeLines "applyFrom" (Animatable.all.map startCase)) ++
          changeLines "applyTo" (Animatable.all.map finishCase)))

end Appearance.Code
