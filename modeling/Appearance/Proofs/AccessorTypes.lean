import Appearance.Proofs.CompleteShadows
import Appearance.Proofs.Overrides
import Appearance.Proofs.Stems

/-!
# The types of accessors

An accessor overrides that of the style of its name in the base, or the one that the class around it
inherits (`Suite.OverridesAccessor`). It has to declare the same type as that, whatever its own
class is. So all accessors of a family, which come from one that overrides none, have the class of
that one as their type (`Suite.AccessorsAgree`), and their own classes derive from it. Preparation
marks accessors so (`Prepares.accessorsAgree`).

`OverridesAccessor` has one constructor for top-level styles, whose accessors stand in the classes
of stylesheets, and one for nested ones. The type is passed down a family by
`Ancestor.accessorType`: an heir takes the type of its nearest ancestor and not the path of it. So
the induction goes along the way up, and its start is an accessor that overrides none, which
declares its own class. That marks are exactly where something is overridden is part of the result.
-/

namespace Appearance

open Ancestor (allNested)

namespace Style

theorem accessorType_nestedHeir (style : StyleHead) (as : List Ancestor) (n : Style)
    {o : Ancestor} (ho : (allNested n.name as).head? = some o) :
    (nestedHeir style as n).head.accessorType = some o.accessorType ∧
      (nestedHeir style as n).head.inherits = some o.path := by
  obtain ⟨rest, hrest⟩ := List.head?_eq_some_iff.1 ho
  simp [nestedHeir, hrest, nestedHeirHead]

end Style

namespace Suite

variable {s l r : Suite} {settings : Settings}

/-! ## Inherited accessors -/

/-- The class that is nested under a name in the nearest superclass that nests one: its accessor is
inherited under the name. -/
inductive Inherited (r : Suite) (name : String) : Ancestor → Ancestor → Prop
  | near {c a o : Ancestor} : r.Derives c a → a.nested? name = some o → Inherited r name c o
  | far {c a o : Ancestor} : r.Derives c a → a.nested? name = none → Inherited r name a o →
    Inherited r name c o

theorem Inherited.mem_classes {n : String} {c o : Ancestor} (h : r.Inherited n c o) :
    o ∈ r.classes := by
  induction h with
  | near hd ho => exact mem_classes_of_mem hd.1 (Ancestor.nested?_mem_classes ho)
  | far _ _ _ ih => exact ih

/-- In a descent the accessor of a name is inherited from the first class that nests one. -/
theorem Descent.inherited_iff (hpaths : (r.classes.map Ancestor.path).Nodup) {c : Ancestor}
    {as : List Ancestor} (h : Descent r (c :: as)) {n : String} {o : Ancestor} :
    r.Inherited n c o ↔ (Ancestor.allNested n as).head? = some o := by
  induction as generalizing c with
  | nil =>
    refine ⟨fun hi => ?_, nofun⟩
    cases hi with
    | near hd => cases (h.derives_iff hpaths).1 hd
    | far hd => cases (h.derives_iff hpaths).1 hd
  | cons a as ih =>
    have hrest : Descent r (a :: as) := by
      cases h with
      | cons _ _ _ has => exact has
    have hderives : ∀ b, r.Derives c b ↔ a = b := fun b => by
      rw [h.derives_iff hpaths, List.head?_cons, Option.some.injEq]
    cases ha : a.nested? n with
    | none =>
      rw [Ancestor.allNested, List.filterMap_cons_none ha, ← Ancestor.allNested, ← ih hrest]
      refine ⟨fun hi => ?_, .far ((hderives a).2 rfl) ha⟩
      cases hi with
      | near hd hnested =>
        obtain rfl := (hderives _).1 hd
        rw [ha] at hnested
        cases hnested
      | far hd _ hi =>
        obtain rfl := (hderives _).1 hd
        exact hi
    | some d =>
      rw [Ancestor.allNested_cons n ha, List.head?_cons, Option.some.injEq]
      refine ⟨fun hi => ?_, fun hdo => .near ((hderives a).2 rfl) (hdo ▸ ha)⟩
      cases hi with
      | near hd hnested =>
        obtain rfl := (hderives _).1 hd
        exact Option.some.inj (ha.symm.trans hnested)
      | far hd hnested =>
        obtain rfl := (hderives _).1 hd
        rw [ha] at hnested
        cases hnested

/-! ## Overridden accessors -/

/-- The accessor of the first class overrides that of the second one. -/
inductive OverridesAccessor (r : Suite) : Ancestor → Ancestor → Prop
  /-- The accessors stand in the classes of a stylesheet and of its base. -/
  | style {id b : SheetId} {x y : Style} : id ∈ r.ids → r.superclass? id = some b →
    x ∈ (r.sheet id).allStyles → y ∈ (r.sheet b).allStyles → x.name = y.name →
    OverridesAccessor r ((r.sheet id).classOf x) ((r.sheet b).classOf y)
  /-- The class around the first one inherits the accessor of the second one. -/
  | nested {c o : Ancestor} {x : Style} : c ∈ r.classes → x ∈ c.style.nestedStyles →
    r.Inherited x.name c o → OverridesAccessor r ⟨c.path ++ "." ++ x.className, x⟩ o

/-- The types of accessors agree with what they override. -/
structure AccessorsAgree (r : Suite) : Prop where
  /-- An accessor is marked exactly if it overrides another one. -/
  marked : ∀ c ∈ r.classes,
    (c.style.head.isOverride = true ↔ ∃ o, r.OverridesAccessor c o)
  /-- It then has the type of that one, and its class derives from that of that one. -/
  type : ∀ c ∈ r.classes, ∀ o, r.OverridesAccessor c o →
    c.style.head.accessorType = some o.accessorType ∧ r.Derives c o
  /-- Going from accessor to overridden accessor leads to one that overrides none. -/
  rooted : ∀ c ∈ r.classes, ∃ root ∈ r.classes,
    Relation.ReflTransGen r.OverridesAccessor c root ∧ root.style.head.isOverride = false
  /-- All accessors of the family have the class of that one as their type, and their classes derive
  from it. -/
  family : ∀ c ∈ r.classes, ∀ root, Relation.ReflTransGen r.OverridesAccessor c root →
    root.style.head.isOverride = false → c.accessorType = root.path ∧ r.OnWayUp root c

/-- What every accessor has in common with the one that it overrides, all of a family have. -/
theorem accessorsAgree_of_step
    (hmarked : ∀ c ∈ r.classes, (c.style.head.isOverride = true ↔ ∃ o, r.OverridesAccessor c o))
    (htype : ∀ c ∈ r.classes, ∀ o, r.OverridesAccessor c o →
      c.style.head.accessorType = some o.accessorType ∧ r.Derives c o)
    (hkept : ∀ c ∈ r.classes, c.style.head.isOverride = false → c.style.head.accessorType = none)
    (hwf : WellFounded fun a c => r.Derives c a) : AccessorsAgree r := by
  refine ⟨hmarked, htype, fun c => ?_, fun c hc root hfamily hroot => ?_⟩
  · induction c using hwf.induction with
    | h c ih =>
      intro hc
      cases hover : c.style.head.isOverride with
      | false => exact ⟨c, hc, .refl, hover⟩
      | true =>
        obtain ⟨o, ho⟩ := (hmarked c hc).1 hover
        have hderives := (htype c hc o ho).2
        obtain ⟨root, hrootmem, hfamily, hroot⟩ := ih o hderives hderives.1
        exact ⟨root, hrootmem, .head ho hfamily, hroot⟩
  · induction hfamily using Relation.ReflTransGen.head_induction_on with
    | refl => exact ⟨by rw [Ancestor.accessorType, hkept root hc hroot, Option.getD_none], .refl⟩
    | head ho _ ih =>
      obtain ⟨htype', hderives⟩ := htype _ hc _ ho
      obtain ⟨hpath, hup⟩ := ih hderives.1
      refine ⟨?_, .head hderives hup⟩
      rw [Ancestor.accessorType, htype', Option.getD_some, hpath]

section Prepared

variable (h : Prepares settings s l) (hw : s.WellNamed)

include h hw

/-- The accessor of a style with a counterpart in the base. -/
theorem Prepares.accessorType_of_base {id b : SheetId} (hid : id ∈ l.ids)
    (hb : l.superclass? id = some b) {x y : Style}
    (hy : y ∈ ((l.prepared settings).1.sheet id).allStyles)
    (hx : x ∈ ((l.prepared settings).1.sheet b).allStyles) (hname : y.name = x.name) :
    y.head.isOverride = true ∧
      y.head.accessorType = some (((l.prepared settings).1.sheet b).classOf x).accessorType ∧
      y.head.inherits = some (((l.prepared settings).1.sheet b).classOf x).path := by
  obtain ⟨u, done, hplace⟩ := h.place hw hid
  obtain ⟨v, done', hbase⟩ := h.place hw (mem_ids_of_superclass? h.linked hb)
  obtain ⟨z, rest, rfl⟩ :=
    hplace.eq_of_base (isLinked_of_superclass? hb) hb hbase.names hy hx hname
  simp [Style.inheriting, Style.derived, overriding]

/-- A style that overrides one has it in the base. -/
theorem Prepares.exists_counterpart (hf : s.Fresh) {id : SheetId} (hid : id ∈ l.ids) {y : Style}
    (hy : y ∈ ((l.prepared settings).1.sheet id).allStyles) (hover : y.head.isOverride = true) :
    ∃ b, l.superclass? id = some b ∧
      ∃ x ∈ ((l.prepared settings).1.sheet b).allStyles, y.name = x.name := by
  obtain ⟨u, done, hplace⟩ := h.place hw hid
  obtain ⟨earlier, z, -, hz, hinheriting⟩ :=
    hplace.marked.marked.exists_step (hplace.marked.perm.mem_iff.2 hy)
  have hzfresh := (Style.fresh_iff.1 (hplace.fresh (h.fresh_shadowedIn hf hid) hz)).1.1
  have hname := name_inheritingStyle hinheriting
  rcases inheritingStyle_ok hinheriting with ⟨b, a, rest, hb, has, -⟩ | ⟨-, -, rfl⟩ |
    ⟨-, first, a, rest, -, -, rfl⟩ | ⟨-, -, path, rfl⟩
  · obtain ⟨hsup, hfind⟩ := Option.filter_eq_some_iff.1 hb
    obtain ⟨x, hx⟩ := Option.isSome_iff_exists.1 hfind
    obtain ⟨hxmem, hxname⟩ := mem_of_find? hx
    have hlb : l.superclass? id = some b := superclass?_congr hplace.base?_eq id ▸ hsup
    rw [hplace.base_eq b hlb] at hxmem
    exact ⟨b, hlb, x, hxmem, hname.trans hxname.symm⟩
  all_goals
    rw [Style.isOverride_inheriting] at hover
    exact absurd (hover.symm.trans hzfresh) nofun

variable (hb : s.Blank) (himported : s.imported = none) (hframework : settings.framework = none)
  (hno : s.NoAnimatorExtended)
  (hpaths : ((l.prepared settings).1.classes.map Ancestor.path).Nodup)

include hb himported hframework hno hpaths

/-- The accessor of a nested style, for what the class around it inherits under its name. -/
theorem Prepares.accessorType_of_inherited {c : Ancestor}
    (hc : c ∈ (l.prepared settings).1.classes) {x : Style} (hx : x ∈ c.style.nestedStyles) :
    (x.head.isOverride = true ↔ ∃ o, (l.prepared settings).1.Inherited x.name c o) ∧
    ∀ o, (l.prepared settings).1.Inherited x.name c o →
      x.head.accessorType = some o.accessorType ∧ x.head.inherits = some o.path := by
  obtain ⟨as, has⟩ := h.exists_descent hw.styleNames hb.fresh himported hframework hno hc
  simp only [has.inherited_iff hpaths]
  cases has with
  | cons _ hz hheir _ =>
    rw [hheir.nestedStyles_eq] at hx
    obtain ⟨m, hm, rfl⟩ := List.mem_map.1 hx
    have hm' := (Style.fresh_iff.1 ((Style.fresh_iff.1 hz).2 m hm)).1.1
    rw [Style.name_nestedHeir, Style.isOverride_nestedHeir, hm', Bool.false_or]
    refine ⟨?_, fun o ho => Style.accessorType_nestedHeir _ as m ho⟩
    cases allNested m.name as <;> simp

/-- An accessor is marked exactly if it overrides one of the base or an inherited one. -/
theorem Prepares.isOverride_iff_overridesAccessor {c : Ancestor}
    (hc : c ∈ (l.prepared settings).1.classes) :
    c.style.head.isOverride = true ↔ ∃ o, (l.prepared settings).1.OverridesAccessor c o := by
  have hsup : ∀ id, (l.prepared settings).1.superclass? id = l.superclass? id :=
    superclass?_congr h.kept.base?_eq
  constructor
  · intro hover
    rcases mem_classes_cases hc with ⟨id, hid, x, hx, rfl⟩ | ⟨p, hp, n, hn, rfl⟩
    · obtain ⟨b, hb', y, hy, hname⟩ :=
        h.exists_counterpart hw hb.fresh (h.ids_eq ▸ hid) hx hover
      exact ⟨_, .style hid (hsup id ▸ hb') hx hy hname⟩
    · obtain ⟨o, ho⟩ := (h.accessorType_of_inherited hw hb himported hframework hno hpaths
        hp hn).1.1 hover
      exact ⟨o, .nested hp hn ho⟩
  · rintro ⟨o, ho⟩
    cases ho with
    | style hid hb' hx hy hname =>
      exact (h.accessorType_of_base hw (h.ids_eq ▸ hid) (hsup _ ▸ hb') hx hy hname).1
    | nested hp hn ho =>
      exact (h.accessorType_of_inherited hw hb himported hframework hno hpaths hp hn).1.2 ⟨o, ho⟩

/-- An accessor has the type of the one that it overrides, and its class derives from that of it. -/
theorem Prepares.accessorType_of_overrides {c o : Ancestor}
    (ho : (l.prepared settings).1.OverridesAccessor c o) :
    c.style.head.accessorType = some o.accessorType ∧ (l.prepared settings).1.Derives c o := by
  have hsup : ∀ id, (l.prepared settings).1.superclass? id = l.superclass? id :=
    superclass?_congr h.kept.base?_eq
  cases ho with
  | @style id b x y hid hb' hx hy hname =>
    obtain ⟨-, htype, hinherits⟩ :=
      h.accessorType_of_base hw (h.ids_eq ▸ hid) (hsup _ ▸ hb') hx hy hname
    have hbid : b ∈ (l.prepared settings).1.ids :=
      h.ids_eq ▸ mem_ids_of_superclass? h.linked (hsup _ ▸ hb')
    exact ⟨htype, mem_classes_of_classOf hbid hy (Ancestor.self_mem_classes _), hinherits⟩
  | nested hp hn ho =>
    obtain ⟨htype, hinherits⟩ :=
      (h.accessorType_of_inherited hw hb himported hframework hno hpaths hp hn).2 o ho
    exact ⟨htype, ho.mem_classes, hinherits⟩

/-- With distinct paths of classes and no animator extended, every accessor that overrides another
one has the type of that one, and so the class of the first one of its family; its own class derives
from that. Nothing is marked before preparation, as in every suite that is loaded
(`Config.blank_suite`, and `Config.accessorsAgree_prepared` for those). -/
theorem Prepares.accessorsAgree : AccessorsAgree (l.prepared settings).1 :=
  accessorsAgree_of_step
    (fun _ hc =>
      h.isOverride_iff_overridesAccessor hw hb himported hframework hno hpaths hc)
    (fun _ _ _ ho =>
      h.accessorType_of_overrides hw hb himported hframework hno hpaths ho)
    (fun _ hc hover => (h.kept_of_mem_classes hw.styleNames hb hc hover).2)
    (h.wellFounded_derives hw hb.fresh himported hframework hpaths)

end Prepared

/-- All accessors in this suite agree with those that they override. -/
theorem accessorsAgree_layeredTheme :
    AccessorsAgree ({ layeredTheme with base? := some 0 }.prepared .standard).1 :=
  Prepares.accessorsAgree prepares_layeredTheme (by decide) (by decide) rfl rfl (by decide)
    nodup_paths_layeredTheme

end Suite

end Appearance
