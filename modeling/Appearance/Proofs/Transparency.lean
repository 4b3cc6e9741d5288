import Appearance.Proofs.CompleteShadows
import Appearance.Proofs.RedirectTypes

/-!
# Redirects see through shadows

A shadow stands in the stylesheet that is searched first, and is empty but for the shadows nested in
it. So a redirect may stop at it only where the base has a nested style, and where the redirect led
to no value before. `Style.Veil` says how a style of a stylesheet with shadows came about, which
every step of a look-up keeps (`Style.Veil.nested?`, `Stylesheet.veil_find?`), and
`Property.SeesThrough` what that means for the property at the end. `Suite.leaf?_target_withShadows`
is the result for paths: with and without shadows they lead to the same value in the same
stylesheet, or to none.

A shadow stands under the key that its name makes. Were that not so in the base
(`Style.KeyedByNames`), a shadow could hide a value of the base that has this key.
-/

namespace Appearance

/-- The head and the value of a property that is no nested style. -/
def Property.leaf? : Property → Option (PropertyHead × Value)
  | .leaf head value => some (head, value)
  | .nested .. => none

/-- The value to which a path leads, with its place and its head. A nested style has none. -/
def Target.leaf? (t : Target) : Option (SheetId × PropertyHead × Value) :=
  t.property.leaf?.map fun p => (t.sheet, p)

namespace Property

@[simp] theorem leaf?_leaf (h : PropertyHead) (v : Value) : (leaf h v).leaf? = some (h, v) := rfl

@[simp] theorem leaf?_nested (h : PropertyHead) (s : Style) : (nested h s).leaf? = none := rfl

@[simp] theorem leaf?_mapStyle (f : Style → Style) (p : Property) :
    (p.mapStyle f).leaf? = p.leaf? := by
  cases p <;> rfl

/-- What a look-up finds in a stylesheet with shadows is what it finds in the stylesheet itself; or
that has nothing there, and a shadow was found for a nested style of the base. -/
def SeesThrough (own base found : Option Property) : Prop :=
  found.map leaf? = own.map leaf? ∨
    own = none ∧ base.map leaf? = some none ∧ found.map leaf? = some none

end Property

namespace Style

open Property (SeesThrough)

/-- Each nested style stands under the key that its name makes, at every depth. -/
def KeyedByNames (s : Style) : Prop :=
  s.All fun u => ∀ p ∈ u.properties, ∀ n ∈ p.style?, p.key = Property.keyOf n.name

instance (s : Style) : Decidable s.KeyedByNames := inferInstanceAs (Decidable (s.All _))

/-- How a style of a stylesheet with shadows came about, next to the one of its name in the
stylesheet itself and in the base: it is as it was, it got the shadows of that of the base, or it is
a shadow. -/
inductive Veil : Option Style → Option Style → Option Style → Prop
  | untouched (own base : Option Style) : Veil own base own
  | shadowing {own base : Style} : own.NestedDistinct → base.Distinct → base.KeyedByNames →
    Veil (some own) (some base) (some (own.shadowing base))
  | shadow {base u : Style} : base.Distinct → base.KeyedByNames →
    u.properties = base.shadow.properties → Veil none (some base) (some u)

/-! ## Nested styles -/

/-- What is found and is not the style's own is a shadow of a style nested in the base. -/
theorem exists_shadow_of_nested? {own base u : Style} (hown : own.NestedDistinct)
    (hbase : base.NestedDistinct) {n : String} (ho : own.nested? n = none)
    (hu : (own.shadowing base).nested? n = some u) :
    ∃ c, base.nested? n = some c ∧ u = shadowIn own.head c := by
  obtain ⟨hmem, rfl⟩ := nested?_mem hu
  rw [nestedStyles_shadowing hown.self hbase.self, List.mem_append] at hmem
  rcases hmem with hmem | hmem
  · obtain ⟨m, hm, rfl⟩ := List.mem_map.1 hmem
    rw [name_shadowed] at ho
    exact absurd (List.mem_map_of_mem hm) (nested?_eq_none.1 ho)
  · obtain ⟨c, hc, rfl⟩ := List.mem_map.1 hmem
    refine ⟨c, ?_, rfl⟩
    rw [name_shadowIn]
    exact nested?_eq_some_of_mem hbase.self ((missing_sublist _ _ _).subset hc)

theorem Distinct.nested {s n : Style} (h : s.Distinct) (hn : n ∈ s.nestedStyles) : n.Distinct :=
  All.nested h hn

theorem KeyedByNames.nested {s n : Style} (h : s.KeyedByNames) (hn : n ∈ s.nestedStyles) :
    n.KeyedByNames :=
  All.nested h hn

/-- A style with the shadows of that of its name among others. -/
theorem Veil.shadowed {own : Style} (hown : own.NestedDistinct) {bases : List Style}
    (hd : ∀ c ∈ bases, c.Distinct) (hk : ∀ c ∈ bases, c.KeyedByNames) :
    Veil (some own) (bases.find? (·.name == own.name)) (some (own.shadowed bases)) := by
  unfold Style.shadowed
  split
  · next c hc =>
    have hmem := List.mem_of_find?_eq_some hc
    rw [hc]
    exact .shadowing hown (hd c hmem) (hk c hmem)
  · exact .untouched _ _

/-- Going on to a nested style keeps how what is found came about. -/
theorem Veil.nested? {own base found : Option Style} (h : Veil own base found) (n : String) :
    Veil (own.bind (·.nested? n)) (base.bind (·.nested? n)) (found.bind (·.nested? n)) := by
  cases h with
  | untouched => exact .untouched _ _
  | @shadowing own base hown hd hk =>
    simp only [Option.bind_some]
    cases ho : own.nested? n with
    | some o =>
      obtain ⟨hmem, rfl⟩ := nested?_mem ho
      rw [nested?_shadowing_own hown hd.nestedDistinct ho]
      exact .shadowed (hown.nested hmem) (fun c hc => hd.nested hc) fun c hc => hk.nested hc
    | none =>
      cases hu : (own.shadowing base).nested? n with
      | none => exact .untouched _ _
      | some u =>
        obtain ⟨c, hc, rfl⟩ := exists_shadow_of_nested? hown hd.nestedDistinct ho hu
        have hmem := (nested?_mem hc).1
        rw [hc]
        exact .shadow (hd.nested hmem) (hk.nested hmem) rfl
  | @shadow base u hd hk hu =>
    have hnested : u.nested? n = (base.nested? n).map Style.shadow := by
      rw [← nested?_shadow, Style.nested?, nestedStyles, hu]
      rfl
    simp only [Option.bind_some, Option.bind_none, hnested]
    cases hc : base.nested? n with
    | none => exact .untouched _ _
    | some c =>
      have hmem := (nested?_mem hc).1
      exact .shadow (hd.nested hmem) (hk.nested hmem) rfl

/-! ## Properties -/

/-- A style finds each of its nested styles under the key that its name makes. -/
theorem exists_property?_of_nested {s n : Style} (hd : s.Distinct) (hk : s.KeyedByNames)
    (hn : n ∈ s.nestedStyles) :
    ∃ k, s.property? (Property.keyOf n.name) = some (.nested k n) := by
  obtain ⟨k, hmem⟩ := mem_nestedStyles.1 hn
  have hkey := hk.self _ hmem n rfl
  exact ⟨k, hkey ▸ find?_eq_some_of_nodup hd.self.1 hmem⟩

/-- Of some shadows of nested styles of the base, a look-up finds none where the base has a
value. -/
theorem seesThrough_shadows {base : Style} (hd : base.Distinct) (hk : base.KeyedByNames)
    {bs : List Style} (hbs : bs ⊆ base.nestedStyles) {f : Style → Style}
    (hf : ∀ b, (f b).name = b.name) (key : String) :
    SeesThrough none (base.property? key)
      ((bs.map fun b => Property.ofStyle (f b)).find? (·.key == key)) := by
  cases hp : (bs.map fun b => Property.ofStyle (f b)).find? (·.key == key) with
  | none => exact .inl rfl
  | some p =>
    obtain ⟨b, hb, rfl⟩ := List.mem_map.1 (List.mem_of_find?_eq_some hp)
    have hkey : Property.keyOf b.name = key := by
      simpa [hf] using List.find?_some hp
    obtain ⟨k, hbase⟩ := exists_property?_of_nested hd hk (hbs hb)
    exact .inr ⟨rfl, by rw [← hkey, hbase]; rfl, rfl⟩

/-- The property of a key in a style with shadows: its own first, then those of the shadows. -/
theorem property?_shadowing {own base : Style} (hown : own.NestedDistinct)
    (hbase : base.NestedDistinct) (key : String) :
    (own.shadowing base).property? key =
      ((own.property? key).map (Property.mapStyle (Style.shadowed base.nestedStyles))).or
        (((missing (own.nestedStyles.map name) (own.properties.map Property.key)
          base.nestedStyles).map fun b => Property.ofStyle (shadowIn own.head b)).find?
            (·.key == key)) := by
  rw [property?, shadowing_eq hown.self hbase.self, properties_mk, List.find?_append,
    List.find?_map, property?]
  refine congrArg (fun o => (Option.map _ o).or _) (List.find?_congr fun p _ => ?_)
  rw [Function.comp_apply, Property.key_mapStyle]

/-- At the end of a look-up a shadow stands before no value of the base. -/
theorem Veil.property? {own base found : Option Style} (h : Veil own base found) (key : String) :
    SeesThrough (own.bind (·.property? key)) (base.bind (·.property? key))
      (found.bind (·.property? key)) := by
  cases h with
  | untouched => exact .inl rfl
  | @shadowing own base hown hd hk =>
    simp only [Option.bind_some]
    rw [property?_shadowing hown hd.nestedDistinct]
    cases hp : own.property? key with
    | some p => exact .inl (congrArg some (Property.leaf?_mapStyle _ p))
    | none => exact seesThrough_shadows hd hk (missing_sublist _ _ _).subset (name_shadowIn _) key
  | @shadow base u hd hk hu =>
    have hshadows : u.properties = base.nestedStyles.map fun n => .ofStyle n.shadow := by
      rw [hu]
      obtain ⟨h, ps⟩ := base
      rw [Style.shadow, properties_mk, shadowEach_eq, nestedStyles_mk]
    simp only [Option.bind_some, Option.bind_none, Style.property?, hshadows]
    exact seesThrough_shadows hd hk (List.Subset.refl _) name_shadow key

end Style

namespace Stylesheet

variable {t b : Stylesheet}

/-! ## Top-level styles -/

/-- Each top-level style is there with the shadows of that of its name in the base. -/
theorem shadowed_mem_shadowing (ht : (t.styles.map Style.name).Nodup)
    (hb : (b.styles.map Style.name).Nodup)
    (hown : ∀ a ∈ t.animator, a.name ∉ b.styles.map Style.name)
    (hbase : ∀ a ∈ b.animator, a.name ∉ t.styles.map Style.name) {own : Style}
    (h : own ∈ t.allStyles) : own.shadowed b.allStyles ∈ (t.shadowing b).allStyles := by
  rw [shadowing_eq ht hb, allStyles, List.mem_append, Option.mem_toList]
  rw [allStyles, List.mem_append, Option.mem_toList] at h
  rcases h with h | h
  · have hanimator : b.animator.toList.find? (·.name == own.name) = none := by
      refine List.find?_eq_none.2 fun a ha hname => ?_
      rw [beq_iff_eq] at hname
      exact hbase a (Option.mem_toList.1 ha) (hname ▸ List.mem_map_of_mem h)
    have hshadowed : own.shadowed b.allStyles = own.shadowed b.styles := by
      rw [Style.shadowed, Style.shadowed, allStyles, List.find?_append, hanimator, Option.or_none]
    exact .inl (hshadowed ▸ List.mem_append_left _ (List.mem_map_of_mem h))
  · have hstyles : b.styles.find? (·.name == own.name) = none := by
      refine List.find?_eq_none.2 fun c hc hname => ?_
      rw [beq_iff_eq] at hname
      exact hown own h (hname ▸ List.mem_map_of_mem hc)
    have hshadowed : own.shadowed b.allStyles = own.shadowed b.animator.toList := by
      rw [Style.shadowed, Style.shadowed, allStyles, List.find?_append, hstyles, Option.none_or]
    rw [hshadowed, Option.mem_def.1 h]
    cases b.animator <;> exact .inr rfl

/-- How what is found in a stylesheet with shadows came about. -/
theorem veil_find? (ht : t.Distinct) (hb : b.Distinct)
    (hkeys : ∀ x ∈ b.allStyles, x.KeyedByNames)
    (hown : ∀ a ∈ t.animator, a.name ∉ b.styles.map Style.name)
    (hbase : ∀ a ∈ b.animator,
      a.name ∉ t.styles.map Style.name ∧ a.name ∉ b.styles.map Style.name) (name : String) :
    Style.Veil (t.allStyles.find? (·.name == name)) (b.allStyles.find? (·.name == name))
      ((t.shadowing b).allStyles.find? (·.name == name)) := by
  have hnames := names_shadowing_nodup ht.names hb.styleNames hown hbase
  cases ho : t.allStyles.find? (·.name == name) with
  | some own =>
    have hmem := List.mem_of_find?_eq_some ho
    obtain rfl : own.name = name := by simpa using List.find?_some ho
    have hfound := find?_eq_some_of_nodup hnames (shadowed_mem_shadowing ht.styleNames
      hb.styleNames hown (fun a ha => (hbase a ha).1) hmem)
    rw [Style.name_shadowed] at hfound
    rw [hfound]
    exact .shadowed (ht.styles own hmem).nestedDistinct hb.styles hkeys
  | none =>
    cases hf : (t.shadowing b).allStyles.find? (·.name == name) with
    | none => exact .untouched _ _
    | some u =>
      obtain rfl : u.name = name := by simpa using List.find?_some hf
      rcases mem_shadowing_cases ht.styleNames hb.styleNames (List.mem_of_find?_eq_some hf) with
        ⟨own, hmem, bases, -, rfl⟩ | ⟨c, hc, _, _, rfl⟩
      · rw [Style.name_shadowed, find?_eq_some_of_nodup ht.names hmem] at ho
        cases ho
      · change Style.Veil none (b.allStyles.find? (·.name == c.shadow.name)) _
        rw [Style.name_shadow, find?_eq_some_of_nodup hb.names hc]
        exact .shadow (hb.styles c hc) (hkeys c hc) rfl

end Stylesheet

/-! ## Paths -/

namespace Style

open Suite (propertyIn?)

/-- A path goes on in the nested style, if it has one. -/
theorem bind_propertyIn? (path : RedirectPath) (x : Option Style) :
    x.bind (propertyIn? path) =
      match path.nested with
      | some nested => (x.bind (·.nested? nested)).bind (·.property? path.key)
      | none => x.bind (·.property? path.key) := by
  unfold propertyIn?
  cases path.nested with
  | none => rfl
  | some nested => exact (Option.bind_assoc ..).symm

/-- What a path leads to in one stylesheet with shadows. -/
theorem Veil.propertyIn? {own base found : Option Style} (h : Veil own base found)
    (path : RedirectPath) :
    Property.SeesThrough (own.bind (Suite.propertyIn? path)) (base.bind (Suite.propertyIn? path))
      (found.bind (Suite.propertyIn? path)) := by
  simp only [bind_propertyIn?]
  split
  · exact (h.nested? _).property? _
  · exact h.property? _

end Style

namespace Suite

variable {s : Suite} {id b : SheetId}

theorem withShadows_eq (hb : s.superclass? id = some b) :
    s.withShadows id = s.setSheet ((s.sheet id).shadowing (s.sheet b)) id := by
  rw [withShadows, hb]

theorem searched_withShadows (hid : id ∈ s.ids) (hb : s.superclass? id = some b) :
    (s.withShadows id).searched id = s.searched id := by
  rw [withShadows_eq hb]
  exact searched_congr (base?_setSheet s _ id) (imported_setSheet _ hid) id

/-- The places behind the first one are other ones. -/
theorem ne_of_mem_searched (hid : id ∈ s.ids) (hb : s.superclass? id = some b) {c : SheetId}
    (hc : c ∈ b :: s.importedId?.toList) : c ≠ id := by
  rcases List.mem_cons.1 hc with rfl | hc
  · exact (ne_of_superclass? hb).symm
  · obtain ⟨i, -, rfl⟩ := mem_ids.1 hid
    obtain ⟨t, -, rfl⟩ := Option.map_eq_some_iff.1 (Option.mem_toList.1 hc)
    exact nofun

/-- The places behind the first one are searched as before. -/
theorem propertyAt?_withShadows_of_ne (hb : s.superclass? id = some b) {c : SheetId} (hc : c ≠ id)
    (path : RedirectPath) : (s.withShadows id).propertyAt? c path = s.propertyAt? c path := by
  have hsheet : (s.withShadows id).sheet c = s.sheet c := by
    rw [withShadows_eq hb, sheet_setSheet_of_ne _ hc]
  have hlinked : (s.withShadows id).isLinked = s.isLinked := by
    rw [withShadows_eq hb, isLinked_setSheet]
  rw [propertyAt?_eq, propertyAt?_eq, find?, find?, style?, style?, styleIndex?, styleIndex?,
    hsheet, hlinked]

/-- What a path leads to in a stylesheet with shadows, next to what it leads to in the stylesheet
and in the base. -/
theorem seesThrough_propertyAt? (hw : s.WellNamed)
    (hkeys : ∀ t ∈ s.registered, ∀ x ∈ t.allStyles, x.KeyedByNames) (hid : id ∈ s.ids)
    (hb : s.superclass? id = some b) (hbid : b ∈ s.ids) (path : RedirectPath) :
    Property.SeesThrough (s.propertyAt? id path) (s.propertyAt? b path)
      ((s.withShadows id).propertyAt? id path) := by
  have hl := isLinked_of_superclass? hb
  have ht := hw.distinct _ (sheet_mem hid)
  have hbase := hw.distinct _ (sheet_mem hbid)
  have hown : ∀ a ∈ (s.sheet id).animator, a.name ∉ (s.sheet b).styles.map Style.name :=
    fun a ha => hw.apart _ (sheet_mem hid) a ha _ (sheet_mem hbid)
  have hanimator : ∀ a ∈ (s.sheet b).animator, a.name ∉ (s.sheet id).styles.map Style.name ∧
      a.name ∉ (s.sheet b).styles.map Style.name := fun a ha =>
    ⟨hw.apart _ (sheet_mem hbid) a ha _ (sheet_mem hid),
      hw.apart _ (sheet_mem hbid) a ha _ (sheet_mem hbid)⟩
  have hsheet : (s.withShadows id).sheet id = (s.sheet id).shadowing (s.sheet b) := by
    rw [withShadows_eq hb, sheet_setSheet_self _ hid]
  have hnames := Stylesheet.names_shadowing_nodup ht.names hbase.styleNames hown hanimator
  have hlr : (s.withShadows id).isLinked = true := by rw [withShadows_eq hb, isLinked_setSheet, hl]
  rw [propertyAt?_eq, propertyAt?_eq, propertyAt?_eq, find?_eq hl ht.names,
    find?_eq hl hbase.names, find?_eq hlr (hsheet ▸ hnames), hsheet]
  have hveil := Stylesheet.veil_find? ht hbase (hkeys _ (sheet_mem hbid)) hown hanimator path.style
  exact hveil.propertyIn? path

/-- Where the first of the places that are searched sees through to the next one, no value that is
found changes. -/
theorem leaf?_findSome?_of_seesThrough {f g : SheetId → Option Property}
    (hfirst : Property.SeesThrough (f id) (f b) (g id)) {rest : List SheetId}
    (hrest : ∀ c ∈ b :: rest, g c = f c) :
    ((id :: b :: rest).findSome? fun c => (g c).map (Target.mk c)).map Target.leaf? =
      ((id :: b :: rest).findSome? fun c => (f c).map (Target.mk c)).map Target.leaf? := by
  have htail : ((b :: rest).findSome? fun c => (g c).map (Target.mk c)) =
      (b :: rest).findSome? fun c => (f c).map (Target.mk c) := by
    rw [← List.head?_filterMap, ← List.head?_filterMap]
    exact congrArg List.head? (List.filterMap_congr fun c hc => by rw [hrest c hc])
  rw [List.findSome?_cons, htail]
  rcases hfirst with heq | ⟨hown, hbase, hfound⟩
  · -- the first place gives the same, and behind it nothing has changed
    cases hf : f id with
    | none =>
      rw [hf] at heq
      simp [hf, Option.map_eq_none_iff.1 heq]
    | some p =>
      rw [hf] at heq
      obtain ⟨q, hg, hleaf⟩ := Option.map_eq_some_iff.1 heq
      simp [hf, hg, Target.leaf?, hleaf]
  · obtain ⟨p, hp, hpleaf⟩ := Option.map_eq_some_iff.1 hbase
    obtain ⟨q, hq, hqleaf⟩ := Option.map_eq_some_iff.1 hfound
    simp [hown, hp, hq, Target.leaf?, hpleaf, hqleaf]

/-- The target of a path is the first property that is found. -/
theorem map_target {α : Type} (f : Target → α) (path : String) :
    (s.target id path).map f =
      match RedirectPath.parse? path with
      | none => .error (.redirectForm path)
      | some parts =>
        match ((s.searched id).findSome? fun c =>
            (s.propertyAt? c parts).map (Target.mk c)).map f with
        | some a => .ok a
        | none => .error (.redirectTarget path (s.sheet id).name) := by
  unfold target
  cases RedirectPath.parse? path with
  | none => rfl
  | some parts =>
    dsimp only
    cases (s.searched id).findSome? fun c => (s.propertyAt? c parts).map (Target.mk c) <;> rfl

/-- A path leads to the same value in the same stylesheet with the shadows of a stylesheet and
without them, or both times to no value. -/
theorem leaf?_target_withShadows (hw : s.WellNamed)
    (hkeys : ∀ t ∈ s.registered, ∀ x ∈ t.allStyles, x.KeyedByNames) (hid : id ∈ s.ids)
    (hb : s.superclass? id = some b) (hbid : b ∈ s.ids) (path : String) :
    ((s.withShadows id).target id path).map Target.leaf? =
      (s.target id path).map Target.leaf? := by
  rw [map_target, map_target]
  cases RedirectPath.parse? path with
  | none => rfl
  | some parts =>
    have hname : ((s.withShadows id).sheet id).name = (s.sheet id).name := by
      rw [withShadows_eq hb, sheet_setSheet_self _ hid, Stylesheet.shadowing_eq_with]
    have hsearched : s.searched id = id :: b :: s.importedId?.toList := by
      rw [searched, hb]
      rfl
    have hfound := leaf?_findSome?_of_seesThrough
      (seesThrough_propertyAt? hw hkeys hid hb hbid parts) fun c hc =>
        propertyAt?_withShadows_of_ne hb (ne_of_mem_searched hid hb hc) parts
    simp only [searched_withShadows hid hb, hsearched, hname, hfound]

/-- A base with a value in a nested style, and a theme that declares the style around it only. -/
def sparseTheme : Suite :=
  ⟨[⟨"Base", [.named "A" [.ofStyle (.named "n" [.ofValue "x" (.int 1)])]], none, none, false, []⟩,
    ⟨"Dark", [.named "A" []], none, some "Base", false, []⟩],
    none, some 0⟩

/-- The theme gets a shadow of `n`, and a redirect in it finds the value in the base as before. -/
theorem leaf?_target_sparseTheme :
    (((sparseTheme.withShadows (.registered 1)).sheet (.registered 1)).allStyles.any fun x =>
        (x.nested? "n").isSome) ∧
      ((sparseTheme.withShadows (.registered 1)).target (.registered 1) "A.n.x").map Target.leaf? =
        .ok (some (.registered 0, ⟨"x", false, false⟩, .int 1)) :=
  ⟨by decide, (leaf?_target_withShadows (by decide) (by decide) (by decide) rfl (by decide)
    "A.n.x").trans (by cbv)⟩

end Suite

end Appearance
