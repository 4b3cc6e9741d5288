import Appearance.Proofs.Marking

/-!
# Heirs

A style that is marked with a list of ancestors becomes their heir (`Style.Heir`): it inherits from
the class of the first one, its values override values of any of them, and a style nested in it is
in turn an heir of what the ancestors nest under its name (`Heir.nestedStyles_eq`). What marking
makes of a top-level style is an heir of the ancestors that were found (`inheritingStyle_heir`).

The lists of ancestors are never looked into beyond three questions: what is the path of the first
one, does any of them have a value for a key, and what do they nest under a name. So the statements
hold for lists of any origin, also for those that no search finds.
-/

namespace Appearance

namespace Ancestor

/-- What the ancestors nest under a name. -/
def allNested (name : String) (ancestors : List Ancestor) : List Ancestor :=
  ancestors.filterMap (nested? name)

theorem allNested_cons (n : String) {a b : Ancestor} {rest : List Ancestor}
    (h : a.nested? n = some b) : allNested n (a :: rest) = b :: allNested n rest :=
  List.filterMap_cons_some h

theorem mem_allNested {n : String} {as : List Ancestor} {b : Ancestor} :
    b ∈ allNested n as ↔ ∃ a ∈ as, a.nested? n = some b :=
  List.mem_filterMap

theorem nested?_eq_some {n : String} {a b : Ancestor} :
    a.nested? n = some b ↔ ∃ m, a.style.nested? n = some m ∧
      b = ⟨a.path ++ "." ++ m.className, m⟩ := by
  rw [nested?, Option.map_eq_some_iff]
  exact exists_congr fun m => and_congr Iff.rfl eq_comm

end Ancestor

namespace Style

open Ancestor (allNested)

/-- The style `y` came of `x` by marking it with the ancestors. -/
structure Heir (x : Style) (ancestors : List Ancestor) (y : Style) : Prop where
  name_eq : y.name = x.name
  inherits_eq : y.head.inherits = (ancestors.head?.map Ancestor.path).or x.head.inherits
  properties_eq : y.properties = inheritingEach y.head x.properties ancestors

/-! ## Heads -/

@[simp] theorem inherits_heirHead (h : StyleHead) (as : List Ancestor) :
    (heirHead h as).inherits = h.inherits := by
  unfold heirHead
  split <;> rfl

@[simp] theorem isOverride_heirHead (h : StyleHead) (as : List Ancestor) :
    (heirHead h as).isOverride = h.isOverride := by
  unfold heirHead
  split <;> rfl

@[simp] theorem overrideName_heirHead (h : StyleHead) (as : List Ancestor) :
    (heirHead h as).overrideName = h.overrideName := by
  unfold heirHead
  split <;> rfl

@[simp] theorem accessorType_heirHead (h : StyleHead) (as : List Ancestor) :
    (heirHead h as).accessorType = h.accessorType := by
  unfold heirHead
  split <;> rfl

theorem inherits_nestedHeirHead (stem : String) (h : StyleHead) (as : List Ancestor) :
    (nestedHeirHead stem h as).inherits = (as.head?.map Ancestor.path).or h.inherits := by
  cases as <;> rfl

theorem isOverride_nestedHeirHead (stem : String) (h : StyleHead) (as : List Ancestor) :
    (nestedHeirHead stem h as).isOverride = (h.isOverride || !as.isEmpty) := by
  cases as <;> simp [nestedHeirHead]

/-! ## Nested styles -/

/-- A nested style as an heir; `style` is the head of the style around it, and `ancestors` are the
ancestors of that. -/
def nestedHeir (style : StyleHead) (ancestors : List Ancestor) (n : Style) : Style :=
  let found := allNested n.name ancestors
  let head := heirHead (nestedHeirHead style.classStem n.head found) found
  mk head (inheritingEach head n.properties found)

@[simp] theorem name_nestedHeir (style : StyleHead) (as : List Ancestor) (n : Style) :
    (nestedHeir style as n).name = n.name := by
  simp [nestedHeir, name]

theorem heir_nestedHeir (style : StyleHead) (as : List Ancestor) (n : Style) :
    Heir n (allNested n.name as) (nestedHeir style as n) where
  name_eq := name_nestedHeir style as n
  inherits_eq := by simp [nestedHeir, inherits_nestedHeirHead]
  properties_eq := rfl

theorem isOverride_nestedHeir (style : StyleHead) (as : List Ancestor) (n : Style) :
    (nestedHeir style as n).head.isOverride =
      (n.head.isOverride || !(allNested n.name as).isEmpty) := by
  simp [nestedHeir, isOverride_nestedHeirHead]

/-- A property of an heir. -/
def heirProperty (style : StyleHead) (ancestors : List Ancestor) : Property → Property
  | .leaf head value =>
    .leaf ⟨head.key, ancestors.any (Ancestor.hasValue head.key),
      head.isOverridable || style.isOverridable⟩ value
  | .nested head n =>
    .nested { head with isOverridable := head.isOverridable || style.isOverridable }
      (nestedHeir style ancestors n)

/-- Properties are marked one by one. -/
theorem inheritingEach_eq (style : StyleHead) (ps : List Property) (as : List Ancestor) :
    inheritingEach style ps as = ps.map (heirProperty style as) := by
  induction ps with
  | nil => rw [inheritingEach, List.map_nil]
  | cons p ps ih =>
    cases p with
    | leaf k v => rw [inheritingEach, ih, List.map_cons, heirProperty]
    | nested k n =>
      obtain ⟨h, qs⟩ := n
      rw [inheritingEach, ih, List.map_cons, heirProperty]
      rfl

theorem style?_heirProperty (style : StyleHead) (as : List Ancestor) (p : Property) :
    (heirProperty style as p).style? = p.style?.map (nestedHeir style as) := by
  cases p <;> rfl

theorem nestedStyles_of_inheritingEach {x y : Style} {as : List Ancestor}
    (h : y.properties = inheritingEach y.head x.properties as) :
    y.nestedStyles = x.nestedStyles.map (nestedHeir y.head as) := by
  rw [nestedStyles, nestedStyles, h, inheritingEach_eq, List.filterMap_map, List.map_filterMap]
  exact List.filterMap_congr fun p _ => style?_heirProperty y.head as p

namespace Heir

variable {x y : Style} {as : List Ancestor}

theorem nestedStyles_eq (h : Heir x as y) :
    y.nestedStyles = x.nestedStyles.map (nestedHeir y.head as) :=
  nestedStyles_of_inheritingEach h.properties_eq

/-- A value of an heir overrides one of any of its ancestors. -/
theorem isOverride_of_leaf (h : Heir x as y) {k : PropertyHead} {v : Value}
    (hk : Property.leaf k v ∈ y.properties) :
    k.isOverride = as.any (Ancestor.hasValue k.key) := by
  rw [h.properties_eq, inheritingEach_eq] at hk
  obtain ⟨p, -, hp⟩ := List.mem_map.1 hk
  cases p with
  | leaf k' v' =>
    cases hp
    rfl
  | nested => cases hp

/-- A nested style of an heir is an heir of what the ancestors nest under its name. -/
theorem nested (h : Heir x as y) {m : Style} (hm : m ∈ y.nestedStyles) :
    ∃ m' ∈ x.nestedStyles, Heir m' (allNested m.name as) m ∧
      m.head.isOverride = (m'.head.isOverride || !(allNested m.name as).isEmpty) := by
  rw [h.nestedStyles_eq] at hm
  obtain ⟨m', hm', rfl⟩ := List.mem_map.1 hm
  refine ⟨m', hm', ?_⟩
  rw [name_nestedHeir]
  exact ⟨heir_nestedHeir y.head as m', isOverride_nestedHeir y.head as m'⟩

end Heir

theorem isOverride_inheriting (x : Style) (as : List Ancestor) :
    (x.inheriting as).head.isOverride = x.head.isOverride :=
  isOverride_heirHead x.head as

theorem heir_inheriting_nil (x : Style) : Heir x [] (x.inheriting []) where
  name_eq := name_heirHead x.head []
  inherits_eq := inherits_heirHead x.head []
  properties_eq := rfl

/-- A derived style is an heir of what it derives from and of the ancestors of that. -/
theorem heir_derived {x z : Style} (hname : z.name = x.name) (hprops : z.properties = x.properties)
    (a : Ancestor) (rest : List Ancestor) :
    Heir x (a :: rest) ((z.derived a).inheriting (a :: rest)) where
  name_eq := (name_heirHead _ _).trans hname
  inherits_eq := inherits_heirHead _ _
  properties_eq := by
    rw [← hprops]
    rfl

end Style

namespace Suite

variable {s : Suite} {settings : Settings} {id : SheetId}

/-- What marking makes of a style: an heir of the ancestors from its counterpart in the base on, an
heir of none, or an heir of the ancestors from the style that it extends on. There is no other case,
unless a framework is known whose stylesheet is not at hand. -/
theorem inheritingStyle_heir {done : List Style} {x y : Style}
    (h : s.inheritingStyle settings id done x = .ok y) :
    (∃ b as, s.baseWith? id x.name = some b ∧
      s.ancestorsFrom settings id done (s.styleCount + 1) [] (.base b, x.name) = as ∧ as ≠ [] ∧
      Style.Heir x as y ∧ y.head.isOverride = true) ∨
    (s.baseWith? id x.name = none ∧ y.head.isOverride = x.head.isOverride ∧
      ((x.head.superclass = none ∧ Style.Heir x [] y) ∨
      ∃ first as, s.declaredAncestor? id done x = .ok (some first) ∧
        s.ancestorsFrom settings id done (s.styleCount + 1) [] first = as ∧ as ≠ [] ∧
        Style.Heir x as y)) ∨
    (s.baseWith? id x.name = none ∧ s.imported.isNone ∧ settings.framework.isSome) := by
  rcases inheritingStyle_ok h with ⟨b, a, rest, hb, has, rfl⟩ | ⟨hb, hsup, rfl⟩ |
    ⟨hb, first, a, rest, hfirst, has, rfl⟩ | ⟨hb, hunseen, -⟩
  · refine .inl ⟨b, _, hb, has, List.cons_ne_nil _ _,
      Style.heir_derived (x := x) (z := s.overriding id x) rfl rfl a rest, ?_⟩
    rw [Style.isOverride_inheriting]
    rfl
  · exact .inr (.inl ⟨hb, Style.isOverride_inheriting x [],
      .inl ⟨hsup, Style.heir_inheriting_nil x⟩⟩)
  · refine .inr (.inl ⟨hb, ?_, .inr ⟨first, _, hfirst, has, List.cons_ne_nil _ _,
      Style.heir_derived rfl rfl a rest⟩⟩)
    rw [Style.isOverride_inheriting]
    rfl
  · exact .inr (.inr ⟨hb, hunseen⟩)

/-- The nearest ancestor is the style that the search begins with. -/
theorem ancestorsFrom_eq_cons {done : List Style} {steps : Nat} {first : Ground × String}
    {a : Ancestor} {rest : List Ancestor}
    (h : s.ancestorsFrom settings id done steps [] first = a :: rest) :
    ∃ x, s.styleOn? done first.1 first.2 = some x ∧
      a = ⟨s.classPath settings id first.1 x, x⟩ := by
  cases steps with
  | zero => cases h
  | succ steps =>
    rw [ancestorsFrom, if_neg List.not_mem_nil] at h
    split at h
    · cases h
    · next x hx => exact ⟨x, hx, (List.cons.inj h).1.symm⟩

end Suite

end Appearance
