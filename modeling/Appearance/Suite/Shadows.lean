import Appearance.Suite.Basic

/-!
# Shadows

A stylesheet that extends the base has every style and nested style of it, so that each accessor
of the base can be overridden. `Stylesheet.shadowing` adds the missing ones as shadows, which are
empty and inherit all values.

A shadow keeps the name and the nesting of a style and no values; it is marked as injected and
otherwise as if it had been declared with nothing in it. Where a stylesheet declares a style of the
base itself, shadows are added inside that style, at every depth. A value under the name of a
nested style stands in the way, and then no shadow is added. What is in place already is left
alone.
-/

namespace Appearance

namespace Style

/-- Applies a function to the first nested style of a name. -/
def modifyNested (f : Style → Style) (name : String) : List Property → List Property
  | [] => []
  | .leaf head value :: ps => .leaf head value :: modifyNested f name ps
  | .nested head style :: ps =>
    if style.name = name then .nested head (f style) :: ps
    else .nested head style :: modifyNested f name ps

/-- The style with a nested shadow behind its properties. -/
def addShadow (style shadow : Style) : Style :=
  let head := { shadow.head with nestedIn := some style.name, belongsTo := style.head.belongsTo }
  mk style.head (style.properties ++ [.ofStyle (shadow.withHead head)])

mutual

/-- The style with shadows of all nested styles of `base` that it does not declare. A property of
the same key stands in the way of a shadow. -/
def shadowing (style : Style) : Style → Style
  | mk _ properties => shadowingEach style properties

/-- Adds shadows of the nested styles among properties of the base, from the first to the last. -/
def shadowingEach (style : Style) : List Property → Style
  | [] => style
  | .leaf .. :: ps => shadowingEach style ps
  | .nested _ base :: ps =>
    if (style.nested? base.name).isSome then
      let properties := modifyNested (fun own => shadowing own base) base.name style.properties
      shadowingEach (mk style.head properties) ps
    else if (style.property? base.name).isNone then
      shadowingEach (style.addShadow base.shadow) ps
    else shadowingEach style ps

end

end Style

namespace Stylesheet

/-- Applies a function to the first style of a name. -/
def modifyFirst (f : Style → Style) (name : String) : List Style → List Style
  | [] => []
  | style :: styles =>
    if style.name = name then f style :: styles else style :: modifyFirst f name styles

/-- The stylesheet with a shadow of a style of `base`, or with shadows in its own style. -/
def shadowingStyle (base s : Stylesheet) (style : Style) : Stylesheet :=
  if (s.style? style.name).isSome then
    { s with styles := modifyFirst (fun own => own.shadowing style) style.name s.styles }
  else
    let shadow := style.shadow
    let head := { shadow.head with belongsTo := some s.name, extendsSheet := some base.name }
    { s with styles := s.styles ++ [shadow.withHead head] }

/-- The animator with shadows of the animations of another one. One of a different name stays as it
is. -/
def shadowingAnimator (s : Stylesheet) (animator : Style) : Stylesheet :=
  match s.animator with
  | some own =>
    if own.name = animator.name then { s with animator := some (own.shadowing animator) } else s
  | none =>
    let shadow := animator.shadow
    { s with animator := some (shadow.withHead { shadow.head with belongsTo := some s.name }) }

/-- The stylesheet with shadows of all that `base` declares and it does not. -/
def shadowing (s base : Stylesheet) : Stylesheet :=
  let s := base.styles.foldl (shadowingStyle base) s
  match base.animator with
  | some animator => s.shadowingAnimator animator
  | none => s

end Stylesheet

end Appearance
