import Appearance.Code.Block
import Appearance.Sheet.Basic
import Appearance.Text.Lines

/-!
# Enumerations and option sets in generated code

The base file declares the namespace of enumerations and option sets with the definitions of the
base stylesheet. The other files extend it by those of their own definitions whose declarations are
not among those of the base.

A definition is compared as printed text, not as a value: an extension leaves out a definition
whose declaration, in the form for an extension, is among those of the base
(`Code.themeGlobalLines`). Over a framework the base extends the namespace too, since the framework
has declared it. The namespace is printed even if it is empty; an extension is printed only if it
has something to add.
-/

namespace Appearance.Code

open Appearance.Text

/-- The declarations of the global values of a stylesheet, as texts. -/
def globalTexts (style : Value.DeclarationStyle) (sheet : Stylesheet) : List String :=
  sheet.globals.filterMap fun v => (v.declarationLines? style).map unlines

/-- The namespace with declarations in it. -/
def namespaceLines (head : String) (declarations : List String) : List String :=
  let lines := declarations.flatMap fun text => (lines text.toList).map String.ofList
  "" :: paragraph (block head lines)

/-- The head of an extension of the namespace. -/
def namespaceExtension : String := "public extension " ++ Value.enums

/-- The head of the declaration of the namespace. -/
def namespaceHead (objc : Bool) : String :=
  if objc then
    "@objc(" ++ Value.enums ++ ") public class " ++ Value.enums ++ ": NSObject"
  else "public struct " ++ Value.enums

/-- The namespace in the file of a base stylesheet. A framework has declared it already. -/
def baseGlobalLines (objc overFramework : Bool) (sheet : Stylesheet) : List String :=
  namespaceLines (if overFramework then namespaceExtension else namespaceHead objc)
    (globalTexts ⟨objc, !overFramework⟩ sheet)

/-- The extension of the namespace in the file of another stylesheet, if it has definitions that the
base lacks. -/
def themeGlobalLines (objc : Bool) (base sheet : Stylesheet) : List String :=
  let inherited := globalTexts ⟨objc, false⟩ base
  let declarations := (globalTexts ⟨objc, false⟩ sheet).filter (!inherited.contains ·)
  if declarations.isEmpty then [] else namespaceLines namespaceExtension declarations

end Appearance.Code
