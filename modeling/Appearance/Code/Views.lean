import Appearance.Code.Block
import Appearance.Code.Themes
import Appearance.Sheet.Basic

/-!
# Views in generated code

A style with a view extension gives its view the protocol of views that have a proxy. The view asks
the stylesheet in use for the proxy again when the theme changes, and by the class of the proxy it
holds it tells which style to ask for: `Stylesheet.heirs` lists the styles that extend its own, each
before those that it extends.

The search for heirs is a walk over the styles of one stylesheet that carries the names it has met
(`Stylesheet.heirsFrom`), so it ends on styles that extend each other in a circle as well, and
`Stylesheet.heirs` gives it one level more than there are styles. The heirs come most derived
first, because the view asks for them with `is`, which a class answers for its superclasses too. A
style that only overrides one of the base gets no extension of its own.
-/

namespace Appearance

namespace Stylesheet

/-- The styles that extend the one of a name in the same stylesheet, directly or through others,
the farthest first. `found` are the names met so far. -/
def heirsFrom (styles : List Style) :
    Nat → String → List String × List Style → List String × List Style
  | 0, _, state => state
  | depth + 1, name, state =>
    styles.foldl
      (fun (found, heirs) style =>
        if style.head.extendsImported || style.head.superclass != some name ||
            found.contains style.name then (found, heirs)
        else
          let (found, heirs) :=
            heirsFrom styles depth style.name (found ++ [style.name], heirs)
          (found, heirs ++ [style]))
      state

/-- The styles that extend the one of a name, each before those that it extends. -/
def heirs (s : Stylesheet) (name : String) : List Style :=
  (heirsFrom s.styles (s.styles.length + 1) name ([], [])).2

end Stylesheet

namespace Code

/-- The handle of the proxy that a view holds. -/
def proxyHandle : String := "__AppearanceProxyHandle"

/-- The handle of whether a view follows the theme. -/
def awareHandle : String := "__ThemeAwareHandle"

/-- The handle of whether a view is told of a new theme. -/
def observingHandle : String := "__ObservingDidChangeThemeHandle"

/-- The declarations of the handles. -/
def handleLines : List String :=
  [proxyHandle, awareHandle, observingHandle].map fun h => "fileprivate var " ++ h ++ ": UInt8 = 0"

/-- What a view extension needs to know of the run. -/
structure ViewContext where
  /-- The class of the base stylesheet. -/
  baseType : String
  /-- The expression of the stylesheet in use. -/
  current : String

/-- The proxy that a view holds, renewed for the stylesheet in use. -/
def proxyVariable (ctx : ViewContext) (style : Style) (heirs : List Style) : List String :=
  block "public var appearanceProxy: AppearanceProxyType" <|
    block "get"
      (paragraph
          (block
            ("if let proxy = objc_getAssociatedObject(self, &" ++ proxyHandle ++
              ") as? AppearanceProxyType")
            (paragraph [inlineBlock "if !themeAware" "return proxy"] ++
              heirs.flatMap (fun heir =>
                block ("if proxy is " ++ ctx.baseType ++ "." ++ heir.className)
                  ["return " ++ ctx.current ++ "." ++ heir.name]) ++
              ["return proxy"])) ++
        ["return " ++ ctx.current ++ "." ++ style.name]) ++
    block "set" [associate proxyHandle "newValue", "didChangeAppearanceProxy()"]

/-- Whether a view follows the theme. -/
def awareVariable : List String :=
  block "public var themeAware: Bool" <|
    block "get" [associated "themeAware" awareHandle "Bool" "true", "return themeAware"] ++
    block "set" [associate awareHandle "newValue", "isObservingDidChangeTheme = newValue"]

/-- Whether a view is told of a new theme. -/
def observingVariable : List String :=
  block "fileprivate var isObservingDidChangeTheme: Bool" <|
    block "get" [associated "observing" observingHandle "Bool" "false", "return observing"] ++
    block "set"
      [inlineBlock "if newValue == isObservingDidChangeTheme" "return",
        opening "if newValue",
        "\tNotificationCenter.default.addObserver(self, " ++
          "selector: #selector(didChangeAppearanceProxy), " ++
          "name: Notification.Name.didChangeTheme, object: nil)",
        "\x7d else \x7b",
        "\tNotificationCenter.default.removeObserver(self, " ++
          "name: Notification.Name.didChangeTheme, object: nil)",
        closing,
        associate observingHandle "newValue"]

/-- The extension of the view of a style. -/
def viewLines (ctx : ViewContext) (style : Style) (heirs : List Style) : List String :=
  "" :: block ("extension " ++ style.name ++ ": AppearanceProxyComponent")
    ("" ::
      ("public typealias AppearanceProxyType = " ++ ctx.baseType ++ "." ++ style.className) ::
      paragraph (proxyVariable ctx style heirs) ++ paragraph awareVariable ++ observingVariable)

/-- The extensions of the views of a stylesheet. A style that overrides one of the base has its
extension there. -/
def viewExtensionLines (ctx : ViewContext) (sheet : Stylesheet) : List String :=
  let styles := sheet.styles.filter fun s => s.head.isExtension && !s.head.isOverride
  if styles.isEmpty then []
  else
    "" :: handleLines ++ styles.flatMap fun s => viewLines ctx s (sheet.heirs s.name)

end Code

end Appearance
