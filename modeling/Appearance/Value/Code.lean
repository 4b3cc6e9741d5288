import Appearance.Condition.Code
import Appearance.Value.Basic

/-!
# Values in generated code

`Value.swiftType` is the type of a value and `Value.toSwift` its expression. A conditional value
becomes statements: `Value.returnStatements` gives the tests in order and then the fallback, and
`Value.returnLines` prints them.

Types and expressions are texts, for that is what the generated code is made of, and types are
compared as texts too: an array has the type of its items if all of them agree, and a conditional
value has that of the branch that is tested first. The statements of an accessor are kept apart
from their text as `Statement`s, a list that ends in an unconditional return. This is what makes it
possible to say what an accessor does by running its statements under a truth assignment, without
reading code.
-/

namespace Appearance.Value

/-- The namespace of generated enumerations and option sets. -/
def enums : String := "S"

/-- The type of an array, given the types of its items. -/
def arrayType : List String → String
  | [] => "[Any]"
  | t :: ts => if ts.all (· == t) then "[" ++ t ++ "]" else "[Any]"

mutual

/-- The type of a value. An unresolved redirect has none, so it is `Any`. -/
def swiftType : Value → String
  | int _ => "Int"
  | float _ => "CGFloat"
  | bool _ => "Bool"
  | point .. => "CGPoint"
  | size .. => "CGSize"
  | rect .. => "CGRect"
  | edgeInsets .. => "UIEdgeInsets"
  | font f => f.swiftType
  | color _ => "UIColor"
  | namedColor _ => "UIColor"
  | image _ => "UIImage"
  | icon _ => "IconicSymbol"
  | redirect r =>
    match r.resolved with
    | some t => t.type
    | none => "Any"
  | conditional branches => firstBranchType branches
  | enumDef type _ => type
  | enumCase type _ => enums ++ "." ++ type
  | optionDef type _ => type
  | optionSet type _ => enums ++ "." ++ type
  | timing _ => "AnimationCurveType"
  | keyFrame _ => "KeyFrame"
  | animationValue _ => "AnimatableProp"
  | repeatCount _ => "AnimationRepeatCount"
  | array items => arrayType (itemTypes items)
  | call _ type => type

/-- The types of the items of an array. -/
def itemTypes : List Value → List String
  | [] => []
  | v :: vs => swiftType v :: itemTypes vs

/-- The type of the branch that is tested first. -/
def firstBranchType : List (Condition × Value) → String
  | [] => "Any"
  | (_, v) :: _ => swiftType v

end

/-- The elements without later repetitions. -/
def distinct : List String → List String
  | [] => []
  | t :: ts => t :: (distinct ts).filter (· != t)

/-- The distinct types of the branches of a conditional value, in order; else the type of the
value. -/
def branchTypes : Value → List String
  | conditional branches => distinct (branches.map fun b => swiftType b.2)
  | v => [swiftType v]

/-- An expression of the generated language. One that begins with the namespace of enumerations is
looked up in the manager of the imported framework, if there is one. -/
def callSwift (manager : Option String) (expression : String) : String :=
  match manager, expression.toList with
  | some manager, 'S' :: _ => manager ++ "." ++ expression
  | _, _ => expression

mutual

/-- The expression of a value; of a conditional value, that of its first branch. `manager` is the
manager of an imported framework. -/
def toSwift (manager : Option String) : Value → String
  | int n => "Int(" ++ intText n ++ ")"
  | float x => "CGFloat(" ++ Code.number x ++ ")"
  | bool b => if b then "true" else "false"
  | point x y => "CGPoint(x: " ++ Code.number x ++ ", y: " ++ Code.number y ++ ")"
  | size width height =>
    "CGSize(width: " ++ Code.number width ++ ", height: " ++ Code.number height ++ ")"
  | rect x y width height =>
    "CGRect(x: " ++ Code.number x ++ ", y: " ++ Code.number y ++ ", width: " ++
      Code.number width ++ ", height: " ++ Code.number height ++ ")"
  | edgeInsets top left bottom right =>
    "UIEdgeInsets(top: " ++ Code.number top ++ ", left: " ++ Code.number left ++ ", bottom: " ++
      Code.number bottom ++ ", right: " ++ Code.number right ++ ")"
  | font f => f.toSwift enums
  | color c => c.toSwift
  | namedColor name => "UIColor(named: \"" ++ name ++ "\")!"
  | image name => "UIImage(named: \"" ++ name ++ "\")!"
  | icon name => "IconicSymbol." ++ name
  | redirect r =>
    (match r.resolved with
      | some t => t.access
      | none => r.path) ++ "Property(traitCollection)"
  | conditional branches => firstBranchSwift manager branches
  | enumDef type _ => enums ++ "." ++ type
  | optionDef type _ => enums ++ "." ++ type
  | enumCase type name => enums ++ "." ++ type ++ "." ++ Code.identifier name
  | optionSet type names =>
    "[" ++ ", ".intercalate (names.map fun n => enums ++ "." ++ type ++ "." ++ n) ++ "]"
  | timing f => f.toSwift
  | keyFrame k => k.toSwift
  | animationValue v => v.toSwift
  | repeatCount c => c.toSwift
  | array items => "[" ++ ", ".intercalate (itemsSwift manager items) ++ "]"
  | call expression _ => callSwift manager expression

/-- The expressions of the items of an array. -/
def itemsSwift (manager : Option String) : List Value → List String
  | [] => []
  | v :: vs => toSwift manager v :: itemsSwift manager vs

/-- The expression of the branch that is tested first. -/
def firstBranchSwift (manager : Option String) : List (Condition × Value) → String
  | [] => ""
  | (_, v) :: _ => toSwift manager v

end

/-- A statement of an accessor. -/
inductive Statement where
  | returnIf (condition : Condition) (value : Value)
  | returnAlways (value : Value)

/-- The branch that is taken when no condition holds: the first fallback, else the last branch. -/
def fallback? (branches : List (Condition × Value)) : Option Value :=
  ((branches.find? fun b => b.1.isDefault) <|> branches.getLast?).map (·.2)

/-- The statements of an accessor: the branches other than fallbacks are tested in order, and the
last statement returns unconditionally. -/
def returnStatements : Value → List Statement
  | conditional branches =>
    ((branches.filter fun b => !b.1.isDefault).map fun b => .returnIf b.1 b.2) ++
      ((fallback? branches).map .returnAlways).toList
  | v => [.returnAlways v]

/-- The text of a statement. -/
def Statement.toSwift (manager : Option String) : Statement → String
  | returnIf condition value =>
    "if " ++ condition.toSwift ++ " \x7b return " ++ value.toSwift manager ++ " \x7d"
  | returnAlways value => "return " ++ value.toSwift manager

/-- The statements of an accessor, one a line. -/
def returnLines (manager : Option String) (v : Value) : List String :=
  v.returnStatements.map (Statement.toSwift manager)

end Appearance.Value
