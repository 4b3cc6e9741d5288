import Appearance.Value.Basic
import Appearance.Value.Declaration

/-!
# Styles

A style is a named group of properties and becomes one proxy class. A property has a value or is
itself a style, nested in the first. What is known of a style beside its properties is its
`StyleHead`; resolution fills in the last fields of it.

Functions that reach nested styles are mutual recursions over `Style` and lists of `Property`.

Styles and properties are one mutual inductive type, so a style of any depth is a finite tree and
recursions over it are structural. A property keeps a head, with its key and how its accessor is
generated, and either a value or a nested style; the key and the name of a nested style can differ,
since keys have their points replaced. Everything else that a pass finds out is written into a
head, so passes change heads and lists of properties and leave the values alone.

`Style.sorted`, `Style.shadow` and `Style.globals` are the recursions that several modules need;
each has its own companion on lists of properties.
-/

namespace Appearance

/-- What is known of a style beside its properties. -/
structure StyleHead where
  name : String
  /-- The style that this one extends, without the prefix of the imported stylesheet. -/
  superclass : Option String
  /-- The class of the views that the style is for. -/
  viewClass : String
  /-- A view extension is generated. -/
  isExtension : Bool
  isAnimation : Bool
  /-- The members stay open for subclassing. -/
  isOverridable : Bool
  /-- The style can be applied to a view. -/
  isApplicable : Bool
  /-- Applying it overrides an inherited application. -/
  overridesApply : Bool
  /-- The superclass is a style of the imported stylesheet. -/
  extendsImported : Bool
  /-- The style stands for one of the base stylesheet and is not declared. -/
  isInjected : Bool
  /-- The style comes from an imported file. -/
  isDependency : Bool
  /-- The stylesheet that the style belongs to. -/
  belongsTo : Option String
  /-- The stylesheet that its own one extends. -/
  extendsSheet : Option String
  /-- The style around a nested one. -/
  nestedIn : Option String
  /-- The accessor overrides an inherited one. -/
  isOverride : Bool
  /-- The accessor of a nested style stays open for subclassing. -/
  isNestedOverridable : Bool
  /-- The stem of the class name, if it is not the name. -/
  overrideName : Option String
  /-- The path of the superclass of the generated class. -/
  inherits : Option String
  /-- The type that an overriding accessor declares. -/
  accessorType : Option String
  deriving DecidableEq, Repr

/-- The key of a property and how its accessor is generated. -/
structure PropertyHead where
  key : String
  /-- A property of this key is inherited. -/
  isOverride : Bool
  /-- The accessor stays open for subclassing. -/
  isOverridable : Bool
  deriving DecidableEq, Repr

mutual

/-- A style with its properties in order. -/
inductive Style where
  | mk (head : StyleHead) (properties : List Property)

/-- A property with a value, or a nested style. -/
inductive Property where
  | leaf (head : PropertyHead) (value : Value)
  | nested (head : PropertyHead) (style : Style)

end

/-- A head with a name and nothing else. -/
def StyleHead.named (name : String) : StyleHead :=
  ⟨name, none, "UIView", false, false, false, false, false, false, false, false, none, none, none,
    false, false, none, none, none⟩

/-- The stem of the class name. -/
def StyleHead.classStem (h : StyleHead) : String := h.overrideName.getD h.name

/-- The name of the generated class. An animator has a suffix of its own. -/
def StyleHead.className (h : StyleHead) : String :=
  h.classStem ++
    (if h.isAnimation && h.nestedIn.isNone then "AnimatorProxy" else "AppearanceProxy")

namespace Style

/-- What is known of a style beside its properties. -/
def head : Style → StyleHead
  | mk head _ => head

/-- The properties of a style in order. -/
def properties : Style → List Property
  | mk _ properties => properties

@[simp] theorem head_mk (h : StyleHead) (ps : List Property) : (mk h ps).head = h := rfl

@[simp] theorem properties_mk (h : StyleHead) (ps : List Property) : (mk h ps).properties = ps :=
  rfl

/-- The name of a style, by which redirects and clauses refer to it. -/
def name (s : Style) : String := s.head.name

/-- The style with another head. -/
def withHead (s : Style) (head : StyleHead) : Style := mk head s.properties

/-- A style with a name and properties and nothing else. -/
def named (name : String) (properties : List Property) : Style :=
  mk (StyleHead.named name) properties

instance : Inhabited Style := ⟨named "" []⟩

end Style

namespace Property

/-- The key of a property and how its accessor is generated. -/
def head : Property → PropertyHead
  | leaf head _ => head
  | nested head _ => head

/-- The key of a property, without points. -/
def key (p : Property) : String := p.head.key

/-- The value of a property that is no nested style. -/
def value? : Property → Option Value
  | leaf _ value => some value
  | nested .. => none

/-- The nested style. -/
def style? : Property → Option Style
  | nested _ style => some style
  | leaf .. => none

/-- The property with another head. -/
def withHead (head : PropertyHead) : Property → Property
  | leaf _ value => leaf head value
  | nested _ style => nested head style

/-- The key of a property as it is kept: points become underscores. -/
def keyOf (key : String) : String := Text.replaceChar '.' '_' key

/-- A property with a value. -/
def ofValue (key : String) (value : Value) : Property := leaf ⟨keyOf key, false, false⟩ value

/-- A nested style under a key of its own. -/
def ofNested (key : String) (style : Style) : Property := nested ⟨keyOf key, false, false⟩ style

/-- A nested style; its name is the key. -/
def ofStyle (style : Style) : Property := ofNested style.name style

/-- The property with an accessor that is open for subclassing. -/
def opened (p : Property) : Property := p.withHead ⟨p.key, p.head.isOverride, true⟩

end Property

namespace Style

/-- The stem of the class name. -/
def classStem (s : Style) : String := s.head.classStem

/-- The name of the generated class. -/
def className (s : Style) : String := s.head.className

/-- The first property of a key. -/
def property? (s : Style) (key : String) : Option Property := s.properties.find? (·.key == key)

/-- The nested styles in order. -/
def nestedStyles (s : Style) : List Style := s.properties.filterMap Property.style?

/-- The first nested style of a name. -/
def nested? (s : Style) (name : String) : Option Style := s.nestedStyles.find? (·.name == name)

/-! ## Order -/

/-- The order of properties by key. -/
def keyLE (p q : Property) : Bool := Value.textLE p.key q.key

mutual

/-- The style with its properties sorted by key, at every depth. -/
def sorted : Style → Style
  | mk head properties => mk head ((sortedEach properties).mergeSort keyLE)

/-- Sorts each nested style. -/
def sortedEach : List Property → List Property
  | [] => []
  | .leaf head value :: ps => .leaf head value :: sortedEach ps
  | .nested head style :: ps => .nested head (sorted style) :: sortedEach ps

end

/-! ## Shadows -/

/-- The head of a shadow: the name and the place of a style, marked as injected. -/
def shadowHead (h : StyleHead) : StyleHead :=
  { StyleHead.named h.name with isAnimation := h.isAnimation, isInjected := true,
                                nestedIn := h.nestedIn }

mutual

/-- An empty copy of a style that keeps the nesting only. -/
def shadow : Style → Style
  | mk head properties => mk (shadowHead head) (shadowEach properties)

/-- The shadows of the nested styles, each under its name. -/
def shadowEach : List Property → List Property
  | [] => []
  | .leaf .. :: ps => shadowEach ps
  | .nested _ style :: ps => .ofStyle (shadow style) :: shadowEach ps

end

mutual

/-- The global values of a style at every depth, each with its key, in order. -/
def globals : Style → List (String × Value)
  | mk _ properties => globalsOf properties

/-- The global values of properties, nested styles included. -/
def globalsOf : List Property → List (String × Value)
  | [] => []
  | .leaf head value :: ps =>
    if value.isGlobal then (head.key, value) :: globalsOf ps else globalsOf ps
  | .nested _ style :: ps => globals style ++ globalsOf ps

end

end Style

end Appearance
