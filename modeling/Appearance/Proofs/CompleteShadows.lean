import Appearance.Proofs.Classes
import Appearance.Proofs.Names
import Mathlib

/-!
# Every class of the base is overridden

A stylesheet that extends the base has a class at every path of names at which the base has one, and
it derives from that of the base (`Prepares.overrides_base`). A shadow is not added under a key that
is taken: by another property of the declared style, or by the shadow of another nested style, whose
name has a point in place of an underscore. `Style.Clear` says that this happens nowhere on a path.

The proof follows a path of names down both styles, the one of the base and the own one with its
shadows, and keeps three cases apart at each level: the own style nests one of the name, a shadow
is added, or a key is in the way. `Clear` excludes the last case along the path and is decidable,
so it can be computed for a given source. Why a path that is not clear has to be excluded is shown
by an instance in which two names become one key.
-/

namespace Appearance

namespace Style

/-- On a path of nested names that `base` has, the keys of the shadows that `own` lacks are free:
neither has `own` another property of that key, nor gets it a shadow of another style under it. -/
def Clear (own base : Style) : List String → Prop
  | [] => True
  | n :: names =>
    match own.nested? n with
    | some own' => ∀ base' ∈ base.nested? n, Clear own' base' names
    | none => n ∉ own.properties.map Property.key ∧
        ∀ c ∈ base.nestedStyles, c.name ≠ n → c.name ∉ own.nestedStyles.map name →
          Property.keyOf c.name ≠ n

/-- Whether a path is clear is found by going along it. -/
def decidableClear : (own base : Style) → (names : List String) → Decidable (own.Clear base names)
  | _, _, [] => .isTrue trivial
  | own, base, n :: names =>
    match ho : own.nested? n, hb : base.nested? n with
    | some own', some base' =>
      have : Decidable (own'.Clear base' names) := decidableClear own' base' names
      decidable_of_iff (own'.Clear base' names) (by simp [Clear, ho, hb])
    | some _, none => .isTrue (by simp [Clear, ho, hb])
    | none, _ => decidable_of_iff (n ∉ own.properties.map Property.key ∧
        ∀ c ∈ base.nestedStyles, c.name ≠ n → c.name ∉ own.nestedStyles.map name →
          Property.keyOf c.name ≠ n) (by simp only [Clear, ho])

instance (own base : Style) (names : List String) : Decidable (own.Clear base names) :=
  decidableClear own base names

/-! ## Shadows along a path -/

theorem nested?_shadow (s : Style) (n : String) :
    s.shadow.nested? n = (s.nested? n).map shadow := by
  rw [nested?, nested?, nestedStyles_shadow, List.find?_map]
  refine congrArg (Option.map _) (List.find?_congr fun m _ => ?_)
  rw [Function.comp_apply, name_shadow]

theorem nested?_withHead (s : Style) (h : StyleHead) (n : String) :
    (s.withHead h).nested? n = s.nested? n := rfl

theorem isSome_at?_withHead (s : Style) (h : StyleHead) (names : List String) :
    ((s.withHead h).at? names).isSome = (s.at? names).isSome := by
  cases names with
  | nil => rfl
  | cons n names => rw [at?, at?, nested?_withHead]

/-- At a path of names the shadow has the shadow of what the style has. -/
theorem at?_shadow (names : List String) (s : Style) :
    s.shadow.at? names = (s.at? names).map shadow := by
  induction names generalizing s with
  | nil => rfl
  | cons n names ih =>
    rw [at?, at?, nested?_shadow]
    cases s.nested? n with
    | none => rfl
    | some m => exact ih m

theorem nested?_eq_none {s : Style} {n : String} :
    s.nested? n = none ↔ n ∉ s.nestedStyles.map name := by
  rw [← isSome_nested?_iff, Option.not_isSome_iff_eq_none]

theorem nested?_eq_some_of_mem {s m : Style} (hs : (s.nestedStyles.map name).Nodup)
    (hm : m ∈ s.nestedStyles) : s.nested? m.name = some m :=
  find?_eq_some_of_nodup hs hm

/-- An own nested style is found with the shadows of that of its name in the base. -/
theorem nested?_shadowing_own {own base o : Style} (hown : own.NestedDistinct)
    (hbase : base.NestedDistinct) {n : String} (ho : own.nested? n = some o) :
    (own.shadowing base).nested? n = some (o.shadowed base.nestedStyles) := by
  obtain ⟨hmem, rfl⟩ := nested?_mem ho
  have hin : o.shadowed base.nestedStyles ∈ (own.shadowing base).nestedStyles := by
    rw [nestedStyles_shadowing hown.self hbase.self]
    exact List.mem_append_left _ (List.mem_map_of_mem hmem)
  rw [← name_shadowed base.nestedStyles o]
  exact nested?_eq_some_of_mem (hown.shadowing hbase).self hin

/-- A nested style that both have gets the shadows of that of the base. -/
theorem nested?_shadowing_of_some {own base o b : Style} (hown : own.NestedDistinct)
    (hbase : base.NestedDistinct) {n : String} (ho : own.nested? n = some o)
    (hb : base.nested? n = some b) : (own.shadowing base).nested? n = some (o.shadowing b) := by
  have hshadowed : o.shadowed base.nestedStyles = o.shadowing b := by
    rw [← (nested?_mem ho).2, nested?] at hb
    rw [shadowed, hb]
  rw [nested?_shadowing_own hown hbase ho, hshadowed]

/-- A nested style that is lacking is there as a shadow, if its key is free. -/
theorem nested?_shadowing_of_none {own base b : Style} (hown : own.NestedDistinct)
    (hbase : base.NestedDistinct) {n : String} (ho : own.nested? n = none)
    (hb : base.nested? n = some b) (hkey : n ∉ own.properties.map Property.key)
    (hother : ∀ c ∈ base.nestedStyles, c.name ≠ n → c.name ∉ own.nestedStyles.map name →
      Property.keyOf c.name ≠ n) :
    (own.shadowing base).nested? n = some (shadowIn own.head b) := by
  obtain ⟨hmem, rfl⟩ := nested?_mem hb
  have hin : shadowIn own.head b ∈ (own.shadowing base).nestedStyles := by
    rw [nestedStyles_shadowing hown.self hbase.self]
    exact List.mem_append_right _ (List.mem_map_of_mem
      (mem_missing hmem hbase.self (nested?_eq_none.1 ho) hkey hother))
  rw [← name_shadowIn own.head b]
  exact nested?_eq_some_of_mem (hown.shadowing hbase).self hin

/-- A style with shadows has what the base has, at every path that is clear. -/
theorem isSome_at?_shadowing {names : List String} {own base : Style}
    (hown : own.NestedDistinct) (hbase : base.NestedDistinct) (h : own.Clear base names)
    (hpath : (base.at? names).isSome) : ((own.shadowing base).at? names).isSome := by
  induction names generalizing own base with
  | nil => rfl
  | cons n names ih =>
    rw [at?] at hpath ⊢
    cases hb : base.nested? n with
    | none =>
      rw [hb] at hpath
      cases hpath
    | some b =>
      rw [hb, Option.bind_some] at hpath
      unfold Clear at h
      cases ho : own.nested? n with
      | some o =>
        simp only [ho] at h
        rw [nested?_shadowing_of_some hown hbase ho hb, Option.bind_some]
        exact ih (hown.nested (nested?_mem ho).1) (hbase.nested (nested?_mem hb).1) (h b hb) hpath
      | none =>
        simp only [ho] at h
        rw [nested?_shadowing_of_none hown hbase ho hb h.1 h.2, Option.bind_some, shadowIn,
          isSome_at?_withHead, at?_shadow, Option.isSome_map]
        exact hpath

/-- Whether a path is clear does not change while the base is resolved. -/
theorem Clear.resolved {names : List String} {own base base' : Style} (hbase : base.NestedDistinct)
    (hout : base.sorted.outline StyleHead.declared = base'.outline StyleHead.declared)
    (h : own.Clear base names) : own.Clear base' names := by
  induction names generalizing own base base' with
  | nil => trivial
  | cons n names ih =>
    unfold Clear at h ⊢
    cases ho : own.nested? n with
    | some o =>
      simp only [ho] at h ⊢
      intro b' hb'
      have hnested := congrArg (Style.nested? · n) hout
      simp only [nested?_outline, nested?_sorted hbase.self, Option.mem_def.1 hb',
        Option.map_some, Option.map_map] at hnested
      obtain ⟨b, hb, hbb'⟩ := Option.map_eq_some_iff.1 hnested
      exact ih (hbase.nested (nested?_mem hb).1) hbb' (h b hb)
    | none =>
      simp only [ho] at h ⊢
      refine ⟨h.1, fun c' hc' hne hlack => ?_⟩
      have hnames : c'.name ∈ base.nestedStyles.map name := by
        have hperm := (nestedStyles_sorted_perm base).map name
        rw [List.map_map, show name ∘ sorted = name from funext name_sorted] at hperm
        rw [← hperm.mem_iff, nestedNames_eq_of_outline hout]
        exact List.mem_map_of_mem hc'
      obtain ⟨c, hc, hname⟩ := List.mem_map.1 hnames
      rw [← hname] at hne hlack ⊢
      exact h.2 c hc hne hlack

end Style

namespace Stylesheet

variable {t b : Stylesheet}

/-- A top-level style of the base has its counterpart among the styles: the own one of its name with
shadows, or else a shadow. -/
theorem exists_at?_of_style (ht : t.Distinct) (hb : (b.styles.map Style.name).Nodup) {x : Style}
    (hx : x ∈ b.styles) {names : List String} (hpath : (x.at? names).isSome)
    (hown : ∀ own ∈ t.allStyles, own.name = x.name → ((own.shadowing x).at? names).isSome) :
    ∃ z ∈ (t.shadowing b).styles, z.name = x.name ∧ (z.at? names).isSome := by
  rw [shadowing_eq ht.styleNames hb]
  by_cases hn : x.name ∈ t.styles.map Style.name
  · obtain ⟨own, hmem, hname⟩ := List.mem_map.1 hn
    refine ⟨own.shadowed b.styles, List.mem_append_left _ (List.mem_map_of_mem hmem),
      by rw [Style.name_shadowed, hname], ?_⟩
    rw [Style.shadowed, hname, find?_eq_some_of_nodup hb hx]
    exact hown own (List.mem_append_left _ hmem) hname
  · refine ⟨shadowOf b.name t.name x, List.mem_append_right _ (List.mem_map_of_mem
      (List.mem_filter.2 ⟨hx, by simpa using hn⟩)), name_shadowOf _ _ _, ?_⟩
    rw [shadowOf, Style.isSome_at?_withHead, Style.at?_shadow, Option.isSome_map]
    exact hpath

/-- The animator of the base has its counterpart, unless there is one of another name. -/
theorem exists_at?_of_animator (ht : t.Distinct) (hb : (b.styles.map Style.name).Nodup) {x : Style}
    (hx : x ∈ b.animator) (hanimator : ∀ a ∈ t.animator, a.name = x.name) {names : List String}
    (hpath : (x.at? names).isSome)
    (hown : ∀ own ∈ t.allStyles, own.name = x.name → ((own.shadowing x).at? names).isSome) :
    ∃ z ∈ (t.shadowing b).animator, z.name = x.name ∧ (z.at? names).isSome := by
  rw [shadowing_eq ht.styleNames hb, Option.mem_def.1 hx]
  cases ha : t.animator with
  | none =>
    refine ⟨_, rfl, Style.name_shadow x, ?_⟩
    rw [Style.isSome_at?_withHead, Style.at?_shadow, Option.isSome_map]
    exact hpath
  | some own =>
    have hname := hanimator own ha
    refine ⟨_, rfl, by rw [Style.name_shadowed, hname], ?_⟩
    rw [Style.shadowed_singleton, if_pos hname]
    exact hown own (List.mem_append_right _ (by rw [ha]; exact List.mem_singleton_self own)) hname

/-- A stylesheet with shadows has a style at every path of the base that is clear. -/
theorem exists_at?_shadowing (ht : t.Distinct) (hb : (b.allStyles.map Style.name).Nodup)
    (hnested : ∀ x ∈ b.allStyles, x.NestedDistinct)
    {x : Style} (hx : x ∈ b.allStyles)
    (hanimator : x ∈ b.animator → ∀ a ∈ t.animator, a.name = x.name) {names : List String}
    (hclear : ∀ own ∈ t.allStyles, own.name = x.name → own.Clear x names)
    (hpath : (x.at? names).isSome) :
    ∃ z ∈ (t.shadowing b).allStyles, z.name = x.name ∧ (z.at? names).isSome := by
  have hown : ∀ own ∈ t.allStyles, own.name = x.name → ((own.shadowing x).at? names).isSome :=
    fun own hmem hname => Style.isSome_at?_shadowing (ht.styles own hmem).nestedDistinct
      (hnested x hx) (hclear own hmem hname) hpath
  rw [allStyles, List.mem_append, Option.mem_toList] at hx
  rcases hx with hx | hx
  · obtain ⟨z, hz, hname, hzpath⟩ := exists_at?_of_style ht (styleNames_nodup hb) hx hpath hown
    exact ⟨z, List.mem_append_left _ hz, hname, hzpath⟩
  · obtain ⟨z, hz, hname, hzpath⟩ :=
      exists_at?_of_animator ht (styleNames_nodup hb) hx (hanimator hx) hpath hown
    exact ⟨z, List.mem_append_right _ (Option.mem_toList.2 hz), hname, hzpath⟩

end Stylesheet

namespace Suite

variable {s l : Suite} {settings : Settings}

/-- A style with a counterpart in the base is marked as overriding that. -/
theorem Place.eq_of_base {r u : Suite} {id b : SheetId} {done : List Style}
    (h : Place settings l r id u done) (hl : l.isLinked = true) (hb : l.superclass? id = some b)
    (hbase : ((r.sheet b).allStyles.map Style.name).Nodup) {x y : Style}
    (hy : y ∈ (r.sheet id).allStyles) (hx : x ∈ (r.sheet b).allStyles) (hname : y.name = x.name) :
    ∃ z rest, y = ((u.overriding id z).derived ((r.sheet b).classOf x)).inheriting
      ((r.sheet b).classOf x :: rest) := by
  obtain ⟨earlier, z, -, -, hz⟩ := h.marked.marked.exists_step (h.marked.perm.mem_iff.2 hy)
  have hlu : u.isLinked = true := by rw [isLinked, h.base?_eq]; exact hl
  have hsup : u.superclass? id = some b := by rw [superclass?_congr h.base?_eq, hb]
  have hsheet : u.sheet b = r.sheet b := h.base_eq b hb
  have hfind : u.find? b z.name = some x := by
    rw [find?_eq hlu (hsheet ▸ hbase), hsheet, ← name_inheritingStyle hz, hname]
    exact find?_eq_some_of_nodup hbase hx
  have hbaseWith : u.baseWith? id z.name = some b := by
    rw [baseWith?, hsup, Option.filter_some, hfind]
    rfl
  rcases inheritingStyle_ok hz with ⟨c, a, rest, hc, has, rfl⟩ | ⟨hc, -⟩ | ⟨hc, -⟩ | ⟨hc, -⟩
  · rw [hbaseWith] at hc
    cases hc
    obtain ⟨x', hx', rfl⟩ := ancestorsFrom_eq_cons has
    obtain rfl : x = x' := by
      rw [styleOn?, hfind] at hx'
      exact Option.some.inj hx'
    rw [classPath, hsheet]
    exact ⟨z, rest, rfl⟩
  all_goals
    rw [hbaseWith] at hc
    cases hc

/-- The class of a style of the base comes first among the ancestors of its heir in another
stylesheet. -/
theorem Place.heir_of_base {r u : Suite} {id b : SheetId} {done : List Style}
    (h : Place settings l r id u done) (hl : l.isLinked = true) (hb : l.superclass? id = some b)
    (hbase : ((r.sheet b).allStyles.map Style.name).Nodup) {x y : Style}
    (hy : y ∈ (r.sheet id).allStyles) (hx : x ∈ (r.sheet b).allStyles) (hname : y.name = x.name) :
    y.head.isOverride = true ∧
      ∃ z rest, Style.Heir z ((r.sheet b).classOf x :: rest) y := by
  obtain ⟨z, rest, rfl⟩ := h.eq_of_base hl hb hbase hy hx hname
  exact ⟨Style.isOverride_inheriting _ _, z, rest,
    Style.heir_derived (x := z) (z := u.overriding id z) rfl rfl _ rest⟩

/-- What stands at a path of a style stands at the path of the style that resolution makes of it. -/
theorem Place.exists_resolved_at {r u : Suite} {id : SheetId} {done : List Style}
    (h : Place settings l r id u done) {x : Style} (hx : x ∈ (l.shadowedIn r id).allStyles)
    (hd : x.NestedDistinct) {names : List String} (hpath : (x.at? names).isSome) :
    ∃ y ∈ (r.sheet id).allStyles, y.name = x.name ∧ (y.at? names).isSome ∧
      x.sorted.outline StyleHead.declared = y.outline StyleHead.declared := by
  obtain ⟨y, hy, hout⟩ := h.exists_resolved hx
  refine ⟨y, hy, ?_, ?_, hout⟩
  · rw [← Style.name_eq_of_outline hout, Style.name_sorted]
  · rw [← Style.isSome_at?_congr hout, Style.at?_sorted names hd, Option.isSome_map]
    exact hpath

/-- The class at a path of an heir overrides the class at that path of its nearest ancestor. -/
theorem class?_of_heir {t b : Stylesheet} (ht : (t.allStyles.map Style.name).Nodup)
    (hb : (b.allStyles.map Style.name).Nodup) {x y z : Style} (hy : y ∈ t.allStyles)
    (hx : x ∈ b.allStyles) {rest : List Ancestor} (hheir : Style.Heir z (b.classOf x :: rest) y)
    (hover : y.head.isOverride = true) {names : List String} (hypath : (y.at? names).isSome)
    (hxpath : (x.at? names).isSome) :
    ∃ c a, t.class? y.name names = some c ∧ b.class? x.name names = some a ∧
      c.style.head.isOverride = true ∧ c.style.head.inherits = some a.path := by
  obtain ⟨c, hc⟩ :=
    Option.isSome_iff_exists.1 ((Ancestor.isSome_at? names (t.classOf y)).trans hypath)
  obtain ⟨a, ha⟩ :=
    Option.isSome_iff_exists.1 ((Ancestor.isSome_at? names (b.classOf x)).trans hxpath)
  refine ⟨c, a, by rw [Stylesheet.class?_eq ht hy, hc], by rw [Stylesheet.class?_eq hb hx, ha], ?_⟩
  cases names with
  | nil =>
    cases hc
    cases ha
    exact ⟨hover, hheir.inherits_eq⟩
  | cons n names =>
    have hcstyle := Ancestor.style_at? (n :: names) (t.classOf y)
    rw [hc, Option.map_some] at hcstyle
    exact hheir.at? hcstyle.symm ha

/-- A stylesheet that extends the base has a class at every path of the base that is clear. The
accessor of that class overrides the one of the base, and its superclass is the class of the base at
the path. -/
theorem Prepares.overrides_base (h : Prepares settings s l) (hw : s.WellNamed) {id b : SheetId}
    (hid : id ∈ l.ids) (hb : l.superclass? id = some b) {x : Style} {names : List String}
    (hx : x ∈ (l.sheet b).allStyles) (hpath : (x.at? names).isSome)
    (hanimator : x ∈ (l.sheet b).animator → ∀ a ∈ (l.sheet id).animator, a.name = x.name)
    (hclear : ∀ own ∈ (l.sheet id).allStyles, own.name = x.name → own.Clear x names) :
    ∃ c a, ((l.prepared settings).1.sheet id).class? x.name names = some c ∧
      ((l.prepared settings).1.sheet b).class? x.name names = some a ∧
      c.style.head.isOverride = true ∧ c.style.head.inherits = some a.path := by
  set r := (l.prepared settings).1 with hr
  have hbid := mem_ids_of_superclass? h.linked hb
  have hbsup := superclass?_superclass? hb
  have hd := hw.of_mem_ids h.linked hid
  have hbd := hw.of_mem_ids h.linked hbid
  obtain ⟨u, done, hplace⟩ := h.place hw hid
  obtain ⟨v, done', hbase⟩ := h.place hw hbid
  rw [← hr] at hplace hbase
  have hxd := (hbd.styles x hx).nestedDistinct
  have hshadowedBase : l.shadowedIn r b = l.sheet b := by rw [shadowedIn, hbsup]
  have hshadowed : l.shadowedIn r id = (l.sheet id).shadowing (r.sheet b) := by rw [shadowedIn, hb]
  -- the style of the base, resolved
  obtain ⟨x', hx', hxname, hxpath, hxout⟩ :=
    hbase.exists_resolved_at (hshadowedBase ▸ hx) hxd hpath
  have hanimator' : x' ∈ (r.sheet b).animator → ∀ a ∈ (l.sheet id).animator, a.name = x'.name := by
    intro hxa
    obtain ⟨c, hc, hcx⟩ := hbase.base_animator hbsup hxa
    have hcx' : c = x := eq_of_mem_of_nodup hbd.names
      (List.mem_append_right _ (Option.mem_toList.2 hc)) hx (hcx.trans hxname)
    rw [hxname]
    exact hanimator (hcx' ▸ hc)
  -- the style of the path in the other stylesheet, with its shadows and then resolved
  obtain ⟨z, hz, hzname, hzpath⟩ := Stylesheet.exists_at?_shadowing hd hbase.names hbase.nested hx'
    hanimator' (fun own hown hname =>
      (hclear own hown (hname.trans hxname)).resolved hxd hxout) hxpath
  have hzd := Stylesheet.nestedDistinct_shadowing hd.styleNames hd.nestedDistinct
    (Stylesheet.styleNames_nodup hbase.names) hbase.nested z hz
  obtain ⟨y, hy, hyname, hypath, -⟩ := hplace.exists_resolved_at (hshadowed ▸ hz) hzd hzpath
  have hyx : y.name = x'.name := hyname.trans hzname
  obtain ⟨hover, w, rest, hheir⟩ :=
    hplace.heir_of_base (isLinked_of_superclass? hb) hb hbase.names hy hx' hyx
  rw [← hxname]
  nth_rewrite 1 [← hyx]
  exact class?_of_heir hplace.names hbase.names hy hx' hheir hover hypath hxpath

/-! ## Instances -/

/-- A base with a style two levels deep, and a theme that declares one level of it. -/
def nestedTheme : Suite :=
  ⟨[⟨"Base",
      [.named "A" [.nested ⟨"n", false, false⟩ (.named "n" [.nested ⟨"m", false, false⟩
        (.named "m" [.leaf ⟨"x", false, false⟩ (.int 1)])])]],
      none, none, false, []⟩,
    ⟨"Dark", [.named "A" [.nested ⟨"n", false, false⟩ (.named "n" [])]], none, some "Base", false,
      []⟩],
    none, none⟩

theorem prepares_nestedTheme :
    Prepares .standard nestedTheme { nestedTheme with base? := some 0 } :=
  ⟨rfl, by cbv⟩

/-- The theme has a class two levels deep, although it declares one level only. -/
theorem overrides_nestedTheme :
    ∃ c a, (({ nestedTheme with base? := some 0 }.prepared .standard).1.sheet
        (.registered 1)).class? "A" ["n", "m"] = some c ∧
      (({ nestedTheme with base? := some 0 }.prepared .standard).1.sheet
        (.registered 0)).class? "A" ["n", "m"] = some a ∧
      c.style.head.isOverride = true ∧ c.style.head.inherits = some a.path :=
  Prepares.overrides_base prepares_nestedTheme (by decide)
    (show SheetId.registered 1 ∈ ({ nestedTheme with base? := some 0 } : Suite).ids by decide)
    (b := .registered 0) rfl (List.mem_singleton_self _) rfl (fun h => by cases h) (by decide)

/-- A base with nested styles `n.m` and `n_m`, and a theme that declares neither. -/
def pointedTheme : Suite :=
  ⟨[⟨"Base",
      [.named "A" [.nested ⟨"A", false, false⟩ (.named "n.m" []),
        .nested ⟨"n_m", false, false⟩ (.named "n_m" [])]],
      none, none, false, []⟩,
    ⟨"Dark", [.named "A" []], none, some "Base", false, []⟩],
    none, none⟩

/-- The shadow of `n.m` takes the key of `n_m`, which then has no class in the theme, although the
theme declares nothing in `A`. -/
theorem no_class_of_pointedTheme :
    Prepares .standard pointedTheme { pointedTheme with base? := some 0 } ∧
      pointedTheme.WellNamed ∧
      ((pointedTheme.sheet (.registered 0)).class? "A" ["n_m"]).isSome ∧
      (∀ own ∈ (pointedTheme.sheet (.registered 1)).allStyles, own.properties.isEmpty) ∧
      (({ pointedTheme with base? := some 0 }.prepared .standard).1.sheet
        (.registered 1)).class? "A" ["n_m"] = none :=
  ⟨⟨rfl, by cbv⟩, by decide, by decide, by decide, by cbv⟩

end Suite

end Appearance
