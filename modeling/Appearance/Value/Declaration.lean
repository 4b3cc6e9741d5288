import Appearance.Value.Code

/-!
# Declarations of enumerations and option sets

Definitions become declarations of generated code. Cases are sorted and declared once each, the
case `none` before all others. Options are numbered in order; composites take no number.

A declaration is a head, a line for each case or entry, and a closing brace, all as lines; the
namespace around it indents them. The case `none` stands first and has the number −1 under
Objective-C, so the others keep the numbers that they would have without it. Cases are escaped
where they are reserved words. Options keep the order in which they are written, for their bits are
counted along it, and a composite is the set of its members.
-/

namespace Appearance.Value

/-- The case that comes first and stands for no choice. -/
def noneCase : String := "none"

/-- The order of texts by their code points. -/
def textLE (a b : String) : Bool := (compare a b).isLE

/-- Sorted, each text once. -/
def sortedOnce (names : List String) : List String := distinct (names.mergeSort textLE)

/-- How a declaration is marked for the other language of the platform and for visibility. -/
structure DeclarationStyle where
  /-- Enumerations are numbered and marked for use from Objective-C. -/
  objc : Bool
  /-- The declaration and its members are public. -/
  isPublic : Bool

namespace DeclarationStyle

/-- The word that makes a declaration public. -/
def visibility (s : DeclarationStyle) : String := if s.isPublic then "public " else ""

end DeclarationStyle

/-- The case `none`, if it is among the names. -/
def noneCaseLines (objc : Bool) (names : List String) : List String :=
  if names.contains noneCase then ["\tcase " ++ noneCase ++ (if objc then " = -1" else "")] else []

/-- The other cases; the first is numbered for Objective-C. -/
def caseLines (objc : Bool) : List String → List String
  | [] => []
  | name :: names =>
    ("\tcase " ++ Code.identifier name ++ (if objc then " = 0" else "")) ::
      names.map fun name => "\tcase " ++ Code.identifier name

/-- The declaration of an enumeration. -/
def enumLines (s : DeclarationStyle) (type : String) (cases : List String) : List String :=
  let names := sortedOnce cases
  [(if s.objc then "@objc " else "") ++ s.visibility ++ "enum " ++ type ++
      (if s.objc then ": Int" else "") ++ " \x7b"] ++
    noneCaseLines s.objc names ++ caseLines s.objc (names.filter (· != noneCase)) ++ ["\x7d"]

/-- The entries of an option set; `bit` is the number of the next flag. -/
def optionLines (visibility type : String) (bit : Nat) : List OptionEntry → List String
  | [] => []
  | .flag name :: rest =>
    ("\t" ++ visibility ++ "static let " ++ name ++ " = " ++ type ++ "(rawValue: 1 << " ++
      natText bit ++ ")") :: optionLines visibility type (bit + 1) rest
  | .composite name members :: rest =>
    ("\t" ++ visibility ++ "static let " ++ name ++ ": " ++ type ++ " = [" ++
      ", ".intercalate (members.map ("." ++ ·)) ++ "]") :: optionLines visibility type bit rest

/-- The declaration of an option set. -/
def optionSetLines (s : DeclarationStyle) (type : String) (entries : List OptionEntry) :
    List String :=
  [s.visibility ++ "struct " ++ type ++ ": OptionSet, Hashable \x7b",
    "\t" ++ s.visibility ++ "let rawValue: Int",
    "\t" ++ s.visibility ++ "init(rawValue: Int) \x7b self.rawValue = rawValue \x7d",
    ""] ++ optionLines s.visibility type 0 entries ++ ["\x7d"]

/-- The declaration of a global value; other values have none. -/
def declarationLines? (s : DeclarationStyle) : Value → Option (List String)
  | enumDef type cases => some (enumLines s type cases)
  | optionDef type entries => some (optionSetLines s type entries)
  | _ => none

end Appearance.Value
