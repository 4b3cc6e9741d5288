import Appearance.Code.Block
import Appearance.Font.Basic
import Appearance.Sheet.Load
import Appearance.Value.Code

/-!
# Fonts in generated code

The base file declares the text styles and a function that makes fonts and keeps them. Text styles
beside those of the platform are scaled as its body text.

The function keeps what it made under a text that is composed of its arguments (`Code.fontKey`),
looks there first and scales a font by its text style at the end. Text styles of the project become
constants beside those of the platform, and the base file declares the enumeration over all of
them. The names of symbol fonts are only declared if the base stylesheet has one; if any has one,
it has at least a placeholder.
-/

namespace Appearance.Code

/-- The enumeration of text styles. -/
def textStyleType : String := Value.enums ++ "." ++ Font.textStyleEnum

/-- The names of text styles with the text styles of the platform after which they are scaled. -/
def textStyles (typography : List String) : List (String × String) :=
  builtinTextStyles.map (fun name => (name, name)) ++
    typography.map fun name => (name, "body")

/-- The declaration of the text styles. -/
def textStyleLines (typography : List String) : List String :=
  paragraph
      (block ("public extension " ++ Value.enums)
        (block ("enum " ++ Font.textStyleEnum ++ ": String")
          ((textStyles typography).map fun s => "case " ++ s.1))) ++
    paragraph
      (block ("private extension " ++ textStyleType)
        (block "var style: UIFont.TextStyle"
          ("switch self \x7b" ::
            (textStyles typography).map (fun s => "case ." ++ s.1 ++ ": return ." ++ s.2) ++
            [closing])))

/-- The names of the symbol fonts, by their weight. -/
def symbolFontLines (manager : String) : List String :=
  let path := manager ++ "." ++ Value.enums ++ "." ++ Style.symbolFontName
  paragraph <|
    block ("public extension " ++ Value.enums ++ "." ++ Style.iconicFontStyle)
      (block "var name: String"
        ["switch self \x7b",
          "case .light: return " ++ path ++ ".lightFontName",
          "case .regular: return " ++ path ++ ".regularFontName",
          closing])

/-- The parameters of the function that makes fonts. -/
def fontParameters : List String :=
  ["class func font(name: String? = nil,",
    "                size: CGFloat? = nil,",
    "                textStyle: " ++ textStyleType ++ "? = nil,",
    "                weight: UIFont.Weight? = nil,",
    "                traits: UIFontDescriptor.SymbolicTraits = [],",
    "                traitCollection: UITraitCollection? = nil,"]

/-- The key of a font among those kept. -/
def fontKey : String :=
  "let key = \"\\(name ?? \"\")|\\(size ?? 0)|\\(textStyle?.rawValue ?? \"\")" ++
    "|\\(weight?.rawValue ?? 0)|\\(traits.rawValue)|\\(category)|\\(isScalable)\""

/-- A font is looked up first. -/
def fontLookup : List String :=
  ["let category = traitCollection?.preferredContentSizeCategory.rawValue ?? \"\"", fontKey] ++
    block "if let font = fontCache[key]" ["return font"]

/-- The size of a font: the given one, that of its text style, or that of the system. -/
def fontSize : List String :=
  ["let large = UITraitCollection(preferredContentSizeCategory: .large)",
    inlineBlock "let textStyleSize = textStyle.map"
      ("UIFont.preferredFont(forTextStyle: $0.style, compatibleWith: large)" ++ ".pointSize"),
    "let pointSize = size ?? textStyleSize ?? UIFont.systemFontSize"]

/-- The font of a name, or the font of the system. -/
def fontChoice : List String :=
  ["var font: UIFont",
    opening "if let name = name, let custom = UIFont(name: name, size: pointSize)",
    "\tfont = custom",
    "\x7d else if let weight = weight \x7b",
    "\tfont = UIFont.systemFont(ofSize: pointSize, weight: weight)",
    "\x7d else \x7b",
    "\tfont = UIFont.systemFont(ofSize: pointSize)",
    closing]

/-- The traits of a font. -/
def fontTraits : List String :=
  block
    ("if !traits.isEmpty, let descriptor = font.fontDescriptor.withSymbolicTraits" ++ "(traits)")
    ["font = UIFont(descriptor: descriptor, size: 0)"]

/-- A font grows with the text size that the user chose. -/
def fontScale : List String :=
  block "if isScalable"
    [inlineBlock "let metrics = textStyle.map" "UIFontMetrics(forTextStyle: $0.style)" ++
        " ?? UIFontMetrics.default",
      "font = metrics.scaledFont(for: font, compatibleWith: traitCollection)"]

/-- The function that makes a font or finds it among those kept. -/
def fontFunction : List String :=
  fontParameters ++
    block "                isScalable: Bool = true) -> UIFont"
      (paragraph fontLookup ++ paragraph fontSize ++ paragraph fontChoice ++
        paragraph fontTraits ++ paragraph fontScale ++
        ["fontCache[key] = font", "return font"])

/-- All that the base file declares of fonts. -/
def fontLines (typography : List String) (hasSymbolFont : Bool) (manager : String) :
    List String :=
  textStyleLines typography ++ (if hasSymbolFont then symbolFontLines manager else []) ++
    paragraph ["private var fontCache = [String: UIFont]()"] ++
    paragraph (block "extension UIFont" fontFunction)

end Appearance.Code
