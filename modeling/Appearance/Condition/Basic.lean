import Appearance.Double.Basic

/-!
# Conditions

A conditional value is keyed by conditions on the screen and on the traits of a view. A condition
is a conjunction of comparisons of a `Metric` with a `Term`; the fallback holds always. Each noun
has its token, the word that stands for it in a normalized condition.

Metrics, comparators, content sizes and terms are enumerations without parameters apart from the
number of a `Term.constant`, so equality of conditions is decidable and the tables of tokens are
matches that can be inverted by cases. An expression keeps its normalized spelling beside its
meaning: the spelling is its key, the meaning is what is printed. `Condition.raw` is the spelling
of the whole.
-/

namespace Appearance

/-- What a comparison tests. -/
inductive Metric where
  | fixedWidth
  | fixedHeight
  | width
  | height
  | horizontal
  | vertical
  | idiom
  | contentSize
  deriving DecidableEq, Repr

/-- How a comparison compares. -/
inductive Comparator where
  | equal
  | notEqual
  | lessThan
  | lessThanOrEqual
  | greaterThan
  | greaterThanOrEqual
  deriving DecidableEq, Repr

/-- The preferred content sizes, smallest first. -/
inductive ContentSize where
  | extraSmall
  | small
  | medium
  | large
  | extraLarge
  | extraExtraLarge
  | extraExtraExtraLarge
  | accessibilityMedium
  | accessibilityLarge
  | accessibilityExtraLarge
  | accessibilityExtraExtraLarge
  | accessibilityExtraExtraExtraLarge
  deriving DecidableEq, Repr

/-- What a metric is compared with. -/
inductive Term where
  | regular
  | compact
  | fixedWidth
  | fixedHeight
  | width
  | height
  | pad
  | phone
  | constant (value : Double)
  | contentSize (size : ContentSize)
  deriving DecidableEq, Repr

/-- One part of a conjunction, with its normalized spelling. -/
inductive Expression where
  /-- The fallback, which always holds. -/
  | always (raw : String)
  | comparison (raw : String) (left : Metric) (comparator : Comparator) (right : Term)
  deriving DecidableEq, Repr

namespace Expression

/-- The normalized spelling. -/
def raw : Expression → String
  | always raw => raw
  | comparison raw .. => raw

/-- The expression always holds. -/
def isTautology : Expression → Bool
  | always _ => true
  | comparison .. => false

/-- The number on the right-hand side, if there is one. -/
def constant? : Expression → Option Double
  | comparison _ _ _ (.constant value) => some value
  | _ => none

end Expression

/-- A conjunction of expressions, with its normalized spelling. -/
structure Condition where
  raw : String
  expressions : List Expression
  deriving DecidableEq, Repr

namespace Metric

/-- The metric that a token names; content size has two names. -/
def ofToken? : String → Option Metric
  | "fixedwidth" => some fixedWidth
  | "fixedheight" => some fixedHeight
  | "width" => some width
  | "height" => some height
  | "horizontal" => some horizontal
  | "vertical" => some vertical
  | "idiom" => some idiom
  | "contentsize" => some contentSize
  | "category" => some contentSize
  | _ => none

end Metric

namespace Comparator

/-- The one-character symbol of a comparator in a normalized condition. -/
def symbol : Comparator → Char
  | equal => '='
  | notEqual => '≠'
  | lessThan => '<'
  | lessThanOrEqual => '≤'
  | greaterThan => '>'
  | greaterThanOrEqual => '≥'

/-- The comparator of a symbol. -/
def ofSymbol? : Char → Option Comparator
  | '=' => some equal
  | '≠' => some notEqual
  | '<' => some lessThan
  | '≤' => some lessThanOrEqual
  | '>' => some greaterThan
  | '≥' => some greaterThanOrEqual
  | _ => none

@[simp] theorem ofSymbol?_symbol (c : Comparator) : ofSymbol? c.symbol = some c := by
  cases c <;> rfl

/-- The character is the symbol of a comparator. -/
def isSymbol (c : Char) : Bool := (ofSymbol? c).isSome

end Comparator

namespace ContentSize

/-- The content size that a token names. -/
def ofToken? : String → Option ContentSize
  | "xs" => some extraSmall
  | "s" => some small
  | "m" => some medium
  | "l" => some large
  | "xl" => some extraLarge
  | "xxl" => some extraExtraLarge
  | "xxxl" => some extraExtraExtraLarge
  | "am" => some accessibilityMedium
  | "al" => some accessibilityLarge
  | "axl" => some accessibilityExtraLarge
  | "axxl" => some accessibilityExtraExtraLarge
  | "axxxl" => some accessibilityExtraExtraExtraLarge
  | _ => none

end ContentSize

end Appearance
