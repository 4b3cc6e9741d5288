import Appearance.Code.Block
import Appearance.Settings
import Appearance.Value.Code

/-!
# The manager in generated code

The manager gives out the stylesheet in use. The base file declares it; over a framework it rests
on the manager of that one. The protocol of views with a proxy stands before it.

All parts are texts around two names, that of the manager and that of the class of the base
stylesheet. A manager without themes answers with the base stylesheet: `Code.themingLines` gives it
a protocol whose default does so, and the file of the first theme extends the manager by the real
answer. Over a framework no notification and no start are declared, since those of the framework
serve.
-/

namespace Appearance.Code

/-- The protocol of views that have a proxy. -/
def protocolLines : List String :=
  "/// Your view should conform to 'AppearanceProxyComponent'." ::
    paragraph
      (block "public protocol AppearanceProxyComponent: AnyObject"
        ["associatedtype AppearanceProxyType",
          inlineBlock "var appearanceProxy: AppearanceProxyType" "get",
          inlineBlock "var themeAware: Bool" "get set",
          "func didChangeAppearanceProxy()"]) ++
    paragraph
      (block "public extension AppearanceProxyComponent"
        (block "func initAppearanceProxy(themeAware: Bool = true)"
          ["self.themeAware = themeAware", "didChangeAppearanceProxy()"]))

/-- The text size that the user chose. -/
def contentSizeLines : List String :=
  paragraph <|
    block "public class Application" <|
      block
        ("@objc dynamic public class func preferredContentSizeCategory()" ++
          " -> UIContentSizeCategory")
        ["return .large"]

/-- The notification of a change of theme. -/
def notificationLines (manager : String) : List String :=
  paragraph <|
    block "public extension Notification.Name"
      ["static let didChangeTheme = Notification.Name(\"" ++ manager ++ ".stylesheet.theme\")"]

/-- What a manager has to say of themes, and what it says without any. -/
def themingLines (manager base : String) : List String :=
  paragraph
      (block ("protocol " ++ manager ++ "Theming")
        ["static func currentTheme() -> " ++ base, "func themeInit()"]) ++
    paragraph
      (block ("extension " ++ manager ++ "Theming")
        (paragraph
            (block ("static func currentTheme() -> " ++ base)
              ["return " ++ base ++ ".shared()"]) ++
          block "func themeInit()" []))

/-- The manager class. -/
def managerClassLines (settings : Settings) (base : String) : List String :=
  let manager := settings.manager
  paragraph <|
    block
      (mark settings.objc "@objcMembers" ++ "public class " ++ manager ++ ": " ++
        mark settings.objc "NSObject," ++ manager ++ "Theming")
      (paragraph
          (block
            (mark settings.objc "@objc" ++ "dynamic public class func stylesheet(_ stylesheet: " ++
              base ++ ") -> " ++ base)
            ["return currentTheme()"]) ++
        ["public static let `default` = " ++ manager ++ "()"] ++
        block ("public static var " ++ Value.enums ++ ": " ++ base) ["return currentTheme()"] ++
        if settings.framework.isSome then []
        else
          "" :: block ("private " ++ mark settings.objc "override" ++ "init()")
            ((if settings.objc then ["super.init()"] else []) ++ ["themeInit()"]))

/-- All that the base file declares of the manager. -/
def managerLines (settings : Settings) (base : String) : List String :=
  (if settings.declaresProtocol then contentSizeLines else []) ++
    (if settings.framework.isSome then [] else notificationLines settings.manager) ++
    themingLines settings.manager base ++ managerClassLines settings base

end Appearance.Code
