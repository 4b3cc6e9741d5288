import Appearance.Code.Block
import Appearance.Settings
import Appearance.Style.Basic

/-!
# Proxy classes

A style becomes an accessor and a class. The class has for every value a function that tests its
branches for a trait collection, and, unless it is inherited, a stored override and a variable.
The class of a nested style stands inside that of the style around it.

`Style.proxyLines` prints a top-level style and `Style.memberLines` the members of a class. A
nested style is printed where its property stands, between the values, by the same
`Style.classLines` as a top-level one; only the expression of the stylesheet in use differs. A
class that inherits another has no initializer and no storage for values that override, for these
are in the class that declared them first. Definitions are skipped, since they are printed in the
namespace of enumerations.
-/

namespace Appearance

/-- What the classes of a stylesheet need to know of the run. -/
structure ProxyContext where
  settings : Settings
  /-- The class of the base stylesheet. -/
  baseType : String

namespace Code

/-- Whether others may derive from a declaration. -/
def access (isOpen : Bool) : String := if isOpen then "open" else "public"

/-- What the name of an accessor function ends in. -/
def functionSuffix : String := "Property"

/-- The parameter of an accessor function. -/
def traitParameter : String :=
  "_ traitCollection: UITraitCollection? = UIScreen.main.traitCollection"

end Code

open Code

namespace Property

/-! ## Values -/

/-- The head of the function that gives a value. -/
def functionHead (head : PropertyHead) (type : String) : String :=
  mark head.isOverride "override" ++ access head.isOverridable ++ " func " ++ head.key ++
    functionSuffix ++ "(" ++ traitParameter ++ ") -> " ++ type

/-- The function that gives a value: the stored override, else the value for the traits. -/
def functionLines (manager : Option String) (head : PropertyHead) (value : Value) : List String :=
  block (functionHead head value.swiftType) <|
    inlineBlock ("if let override = _" ++ head.key) "return override" :: value.returnLines manager

/-- The variable that stores an override. -/
def storageLine (head : PropertyHead) (type : String) : String :=
  "public var _" ++ head.key ++ ": " ++ type ++ "?"

/-- The variable that calls the function and sets the storage. -/
def variableLines (head : PropertyHead) (type : String) : List String :=
  block ("public var " ++ identifier head.key ++ ": " ++ type)
    [inlineBlock "get" ("return self." ++ head.key ++ functionSuffix ++ "()"),
      inlineBlock "set" ("_" ++ head.key ++ " = newValue")]

/-- The members of a value. An inherited one has its storage in the class that declared it. -/
def memberLines (manager : Option String) (head : PropertyHead) (value : Value) : List String :=
  let type := value.swiftType
  ["", "//MARK: " ++ head.key] ++
    (if head.isOverride then [] else [storageLine head type]) ++
    functionLines manager head value ++
    if head.isOverride then [] else variableLines head type

end Property

namespace Style

/-! ## Application to views -/

/-- The keys of the values that a view takes. -/
def appliedKeys (properties : List Property) : List String :=
  properties.filterMap fun
    | .leaf head value => if value.isGlobal then none else some head.key
    | .nested .. => none

/-- The assignment of a value to its property of the view; an underscore leads to a part of it. -/
def assignment (key : String) : String :=
  "view." ++ Text.replaceChar '_' '.' key ++ " = self." ++ identifier key

/-- The function that applies a style to a view. One that would only call the inherited one is left
out. -/
def applyLines (head : StyleHead) (properties : List Property) : List String :=
  let keys := appliedKeys properties
  if !head.isApplicable || (head.overridesApply && keys.isEmpty) then []
  else
    "" :: block
      (mark head.overridesApply "override" ++ "public func apply(view: " ++ head.viewClass ++ ")")
      ((if head.overridesApply then ["super.apply(view: view)"] else []) ++ keys.map assignment)

/-! ## Classes -/

/-- The members by which a class that inherits none reaches the stylesheet in use. -/
def initLines (ctx : ProxyContext) : List String :=
  ("public let mainProxy: () -> " ++ ctx.baseType) ::
    block ("public init(proxy: @escaping () -> " ++ ctx.baseType ++ ")")
      ("self.mainProxy = proxy" :: if ctx.settings.objc then ["super.init()"] else [])

/-- The name of the class of a style for Objective-C. -/
def objcName (outer : String) (head : StyleHead) : String :=
  outer ++ Text.firstUpper head.classStem

/-- The declaration of the class of a style. -/
def classHead (ctx : ProxyContext) (outer : String) (head : StyleHead) : String :=
  mark ctx.settings.objc ("@objc(" ++ objcName outer head ++ ") @objcMembers") ++
    access (head.isOverridable || head.isNestedOverridable) ++ " class " ++ head.className ++
    inherits (head.inherits <|> if ctx.settings.objc then some "NSObject" else none)

/-- The accessor of a style; `proxy` is the expression of the stylesheet in use. -/
def accessorLines (proxy : String) (head : StyleHead) : List String :=
  block
    (mark head.isOverride "override" ++ access (head.isOverridable || head.isNestedOverridable) ++
      " var " ++ identifier head.name ++ ": " ++ head.accessorType.getD head.className)
    ["return " ++ head.className ++ "(proxy: " ++ proxy ++ ")"]

/-- The members of the class of a style: what it starts with, the values and nested styles in
`members`, and the application to a view. -/
def classLines (ctx : ProxyContext) (outer proxy : String) (head : StyleHead)
    (properties : List Property) (members : List String) : List String :=
  ["", "//MARK: - " ++ head.name] ++ accessorLines proxy head ++
    block (classHead ctx outer head)
      ((if head.inherits.isNone then initLines ctx else []) ++ members ++
        applyLines head properties)

/-- The members for properties. `outer` begins the names of nested classes for Objective-C. -/
def memberLines (ctx : ProxyContext) (outer : String) : List Property → List String
  | [] => []
  | .leaf head value :: ps =>
    (if value.isGlobal then []
      else Property.memberLines ctx.settings.frameworkManager? head value) ++
      memberLines ctx outer ps
  | .nested _ (.mk head properties) :: ps =>
    classLines ctx outer "mainProxy" head properties
        (memberLines ctx (objcName outer head) properties) ++ memberLines ctx outer ps

/-- The accessor and the class of a top-level style of a stylesheet. -/
def proxyLines (ctx : ProxyContext) (sheet : String) (style : Style) : List String :=
  classLines ctx sheet (braced "return self") style.head style.properties
    (memberLines ctx (objcName sheet style.head) style.properties)

end Style

end Appearance
