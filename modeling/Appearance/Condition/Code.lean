import Appearance.Condition.Parse
import Appearance.Code.Literal

/-!
# Conditions in generated code

Each noun of a condition has its Swift expression. Expressions of a condition keep their order.

The translation is one table for each kind of noun and one line for a comparison; a conjunction
joins its comparisons by `&&`. The fallback is printed as `true` where it occurs inside a
conjunction. Four terms are metrics as well and are printed as these are, so both sides of a
comparison speak of the same expression. The horizontal and vertical size classes are those of the
traits that the accessor is given, everything else is read from the screen, the device or the
application.
-/

namespace Appearance

/-- What a metric is compared by. -/
def Metric.toSwift : Metric → String
  | fixedWidth => "UIScreen.main.fixedCoordinateSpace.bounds.size.width"
  | fixedHeight => "UIScreen.main.fixedCoordinateSpace.bounds.size.height"
  | width => "UIScreen.main.bounds.size.width"
  | height => "UIScreen.main.bounds.size.height"
  | horizontal => "(traitCollection?.horizontalSizeClass ?? UIUserInterfaceSizeClass.unspecified)"
  | vertical => "(traitCollection?.verticalSizeClass ?? UIUserInterfaceSizeClass.unspecified)"
  | idiom => "UIDevice.current.userInterfaceIdiom"
  | contentSize => "Application.preferredContentSizeCategory()"

/-- The comparator of two characters, where one symbol stood for it. -/
def Comparator.toSwift : Comparator → String
  | equal => "=="
  | notEqual => "!="
  | lessThan => "<"
  | lessThanOrEqual => "<="
  | greaterThan => ">"
  | greaterThanOrEqual => ">="

/-- The category of a content size. -/
def ContentSize.toSwift : ContentSize → String
  | extraSmall => ".extraSmall"
  | small => ".small"
  | medium => ".medium"
  | large => ".large"
  | extraLarge => ".extraLarge"
  | extraExtraLarge => ".extraExtraLarge"
  | extraExtraExtraLarge => ".extraExtraExtraLarge"
  | accessibilityMedium => ".accessibilityMedium"
  | accessibilityLarge => ".accessibilityLarge"
  | accessibilityExtraLarge => ".accessibilityExtraLarge"
  | accessibilityExtraExtraLarge => ".accessibilityExtraExtraLarge"
  | accessibilityExtraExtraExtraLarge => ".accessibilityExtraExtraExtraLarge"

/-- The right-hand side of a comparison. -/
def Term.toSwift : Term → String
  | regular => "UIUserInterfaceSizeClass.regular"
  | compact => "UIUserInterfaceSizeClass.compact"
  | fixedWidth => Metric.fixedWidth.toSwift
  | fixedHeight => Metric.fixedHeight.toSwift
  | width => Metric.width.toSwift
  | height => Metric.height.toSwift
  | pad => "UIUserInterfaceIdiom.pad"
  | phone => "UIUserInterfaceIdiom.phone"
  | constant value => Code.number value
  | contentSize size => size.toSwift

/-- A comparison in generated code. The fallback holds always. -/
def Expression.toSwift : Expression → String
  | always _ => "true"
  | comparison _ left comparator right =>
    left.toSwift ++ " " ++ comparator.toSwift ++ " " ++ right.toSwift

/-- The conjunction of the expressions. -/
def Condition.toSwift (c : Condition) : String :=
  " && ".intercalate (c.expressions.map Expression.toSwift)

end Appearance
