import Appearance.Proofs.Rearrangement
import Appearance.Proofs.Resolution

/-!
# Names in a resolved suite

In a suite whose declarations have distinct names (`Suite.WellNamed`), shadows keep them distinct,
and so does every later pass. `Prepares.place` collects what is known of a registered stylesheet
after preparation: the suite in which it was marked, its marked styles, and its distinct names.

Two sets of assumptions are in use. What shadows do to one name at a time needs distinct names of
styles only; what they do to the animator, and with it the collected facts of `Place`, needs all
the names of a stylesheet to be distinct, the animator's among them.
-/

namespace Appearance

namespace Style

/-! ## Shadows -/

/-- The shadows of properties are those of the nested styles. -/
theorem shadowEach_eq (ps : List Property) :
    shadowEach ps = (ps.filterMap Property.style?).map fun n => .ofStyle n.shadow := by
  induction ps with
  | nil => rfl
  | cons p ps ih =>
    cases p with
    | leaf => rw [shadowEach, ih]; rfl
    | nested k n => rw [shadowEach, ih]; rfl

theorem filterMap_ofStyle (l : List Style) :
    (l.map Property.ofStyle).filterMap Property.style? = l := by
  rw [List.filterMap_map]
  exact List.filterMap_some

theorem nestedStyles_shadow (s : Style) : s.shadow.nestedStyles = s.nestedStyles.map shadow := by
  obtain ⟨h, ps⟩ := s
  rw [shadow, shadowEach_eq, nestedStyles_mk, nestedStyles_mk, ← filterMap_ofStyle (List.map _ _),
    List.map_map]
  rfl

theorem nestedStyles_withHead (s : Style) (h : StyleHead) :
    (s.withHead h).nestedStyles = s.nestedStyles := rfl

theorem nestedDistinct_withHead {s : Style} {h : StyleHead} :
    (s.withHead h).NestedDistinct ↔ s.NestedDistinct := by
  rw [NestedDistinct, NestedDistinct, all_iff, all_iff, nestedStyles_withHead]

/-- What holds of the shadow of one level, holds of every depth of the shadow. -/
theorem All.shadow {p q : Style → Prop} (hpq : ∀ u, p u → q u.shadow) {s : Style} (h : s.All p) :
    s.shadow.All q := by
  induction s using nestedInduction with
  | step s ih =>
    refine all_iff.2 ⟨hpq s h.self, fun n hn => ?_⟩
    rw [nestedStyles_shadow] at hn
    obtain ⟨m, hm, rfl⟩ := List.mem_map.1 hn
    exact ih m hm (h.nested hm)

theorem NestedDistinct.shadow {s : Style} (h : s.NestedDistinct) : s.shadow.NestedDistinct := by
  refine All.shadow (fun u hu => ?_) h
  rw [nestedStyles_shadow, List.map_map, show name ∘ Style.shadow = name from funext name_shadow]
  exact hu

theorem NestedDistinct.shadowIn {b : Style} (hb : b.NestedDistinct) (h : StyleHead) :
    (shadowIn h b).NestedDistinct :=
  nestedDistinct_withHead.2 hb.shadow

/-- The nested styles of a style with shadows. -/
theorem nestedStyles_shadowing {s base : Style} (hs : (s.nestedStyles.map name).Nodup)
    (hb : (base.nestedStyles.map name).Nodup) :
    (s.shadowing base).nestedStyles = s.nestedStyles.map (shadowed base.nestedStyles) ++
      (missing (s.nestedStyles.map name) (s.properties.map Property.key)
        base.nestedStyles).map (Style.shadowIn s.head) := by
  obtain ⟨h, ps⟩ := s
  rw [shadowing_eq hs hb, nestedStyles_mk, List.filterMap_append, ← nestedStyles_mk h,
    properties_mk, head_mk, nestedStyles_map, List.filterMap_map]
  refine congrArg _ ?_
  rw [show Property.style? ∘ (fun b => Property.ofStyle (Style.shadowIn h b)) =
    some ∘ Style.shadowIn h from rfl, List.filterMap_eq_map]

section Passing

variable {p₀ p q : Style → Prop} (hkeep : ∀ u, p₀ u → p u)

include hkeep

/-- What shadowing keeps at every depth it keeps when the base is looked up by name. -/
theorem All.shadowed {bases : List Style}
    (ih : ∀ b ∈ bases, ∀ s : Style, s.NestedDistinct → s.All p₀ → (s.shadowing b).All p)
    {s : Style} (hd : s.NestedDistinct) (hs : s.All p₀) : (s.shadowed bases).All p := by
  unfold Style.shadowed
  split
  · next b hb => exact ih b (List.mem_of_find?_eq_some hb) s hd hs
  · exact hs.imp hkeep

/-- What holds of one level, also after shadowing, and of shadows of the base, shadowing makes hold
at every depth. -/
theorem All.shadowing
    (hlevel : ∀ u b : Style, (u.nestedStyles.map name).Nodup → (b.nestedStyles.map name).Nodup →
      p₀ u → p (u.shadowing b))
    (hshadow : ∀ h (b : Style), b.NestedDistinct → b.All q → (Style.shadowIn h b).All p)
    {s b : Style} (hd : s.NestedDistinct) (hs : s.All p₀) (hb : b.NestedDistinct) (hq : b.All q) :
    (s.shadowing b).All p := by
  induction b using nestedInduction generalizing s with
  | step b ih =>
    refine all_iff.2 ⟨hlevel s _ hd.self hb.self hs.self, fun n hn => ?_⟩
    rw [nestedStyles_shadowing hd.self hb.self, List.mem_append] at hn
    rcases hn with hn | hn
    · obtain ⟨m, hm, rfl⟩ := List.mem_map.1 hn
      refine All.shadowed hkeep (fun c hc s hsd hs => ?_) (hd.nested hm) (hs.nested hm)
      exact ih c hc hsd hs (hb.nested hc) (hq.nested hc)
    · obtain ⟨c, hc, rfl⟩ := List.mem_map.1 hn
      have hmem := (missing_sublist _ _ _).subset hc
      exact hshadow s.head c (hb.nested hmem) (hq.nested hmem)

end Passing

/-- Shadowing one level keeps names distinct, as only missing names are added. -/
theorem nestedNames_shadowing_nodup {u b : Style} (hu : (u.nestedStyles.map name).Nodup)
    (hb : (b.nestedStyles.map name).Nodup) : ((u.shadowing b).nestedStyles.map name).Nodup := by
  rw [nestedStyles_shadowing hu hb, List.map_append, List.map_map, List.map_map,
    show name ∘ Style.shadowed b.nestedStyles = name from funext (name_shadowed _),
    show name ∘ Style.shadowIn u.head = name from funext (name_shadowIn _)]
  refine List.nodup_append.2 ⟨hu, hb.sublist ((missing_sublist _ _ _).map _), ?_⟩
  rintro n hn m hm rfl
  obtain ⟨c, hc, rfl⟩ := List.mem_map.1 hm
  exact name_not_mem_of_mem_missing hc hn

/-- Shadows keep the names of nested styles distinct. -/
theorem NestedDistinct.shadowing {s b : Style} (hs : s.NestedDistinct) (hb : b.NestedDistinct) :
    (s.shadowing b).NestedDistinct :=
  All.shadowing (fun _ hu => hu) (fun _ _ hu hb _ => nestedNames_shadowing_nodup hu hb)
    (fun h _ hb _ => hb.shadowIn h) hs hs hb hb

/-- Names have no part in what the passes change of an outline. -/
theorem allNames_congr {p : String → Prop} {s t : Style}
    (h : s.outline StyleHead.declared = t.outline StyleHead.declared) :
    (s.All fun u => p u.name) ↔ t.All fun u => p u.name :=
  all_congr_outline StyleHead.declared (fun u => by rw [name_outline_declared]) h

end Style

namespace Stylesheet

variable {t b : Stylesheet}

/-- The names of a stylesheet come first, then those that only the base has. -/
theorem styleNames_shadowing (ht : (t.styles.map Style.name).Nodup)
    (hb : (b.styles.map Style.name).Nodup) :
    (t.shadowing b).styles.map Style.name = t.styles.map Style.name ++
      (b.styles.filter fun c => c.name ∉ t.styles.map Style.name).map Style.name := by
  rw [shadowing_eq ht hb, List.map_append, List.map_map, List.map_map,
    show Style.name ∘ Style.shadowed b.styles = Style.name from funext (Style.name_shadowed _),
    show Style.name ∘ shadowOf b.name t.name = Style.name from funext (name_shadowOf _ _)]

/-- After shadowing a stylesheet has its own names and those of the base. -/
theorem mem_styleNames_shadowing (ht : (t.styles.map Style.name).Nodup)
    (hb : (b.styles.map Style.name).Nodup) {n : String} :
    n ∈ (t.shadowing b).styles.map Style.name ↔
      n ∈ t.styles.map Style.name ∨ n ∈ b.styles.map Style.name := by
  rw [styleNames_shadowing ht hb, List.mem_append]
  constructor
  · rintro (hn | hn)
    · exact Or.inl hn
    · exact Or.inr ((List.filter_sublist.map _).subset hn)
  · intro hn
    by_cases h : n ∈ t.styles.map Style.name
    · exact Or.inl h
    · obtain ⟨c, hc, rfl⟩ := List.mem_map.1 (hn.resolve_left h)
      exact Or.inr (List.mem_map.2 ⟨c, List.mem_filter.2 ⟨hc, by simpa using h⟩, rfl⟩)

/-- A stylesheet with shadows keeps the name of its animator; without one it takes that of the
base. -/
theorem animatorName?_shadowing (ht : (t.styles.map Style.name).Nodup)
    (hb : (b.styles.map Style.name).Nodup) :
    (t.shadowing b).animatorName? = t.animatorName?.or b.animatorName? := by
  rw [animatorName?, shadowing_eq ht hb, animatorName?, animatorName?]
  cases t.animator with
  | none =>
    cases b.animator with
    | none => rfl
    | some base => exact congrArg some (Style.name_shadow base)
  | some own =>
    cases b.animator with
    | none => rfl
    | some base => exact congrArg some (Style.name_shadowed [base] own)

theorem styleNames_shadowing_nodup (ht : (t.styles.map Style.name).Nodup)
    (hb : (b.styles.map Style.name).Nodup) : ((t.shadowing b).styles.map Style.name).Nodup := by
  rw [styleNames_shadowing ht hb]
  refine List.nodup_append.2 ⟨ht, hb.sublist (List.filter_sublist.map _), ?_⟩
  rintro n hn m hm rfl
  obtain ⟨c, hc, rfl⟩ := List.mem_map.1 hm
  exact absurd hn (by simpa using (List.mem_filter.1 hc).2)

/-- Shadows keep the names of top-level styles distinct, if no animator is named like a style of the
other stylesheet. -/
theorem names_shadowing_nodup (ht : (t.allStyles.map Style.name).Nodup)
    (hb : (b.styles.map Style.name).Nodup)
    (hown : ∀ a ∈ t.animator, a.name ∉ b.styles.map Style.name)
    (hbase : ∀ a ∈ b.animator,
      a.name ∉ t.styles.map Style.name ∧ a.name ∉ b.styles.map Style.name) :
    ((t.shadowing b).allStyles.map Style.name).Nodup := by
  rw [allStyles, List.map_append, List.nodup_append] at ht
  rw [allStyles, List.map_append]
  refine List.nodup_append.2 ⟨styleNames_shadowing_nodup ht.1 hb, ?_, ?_⟩
  · cases (t.shadowing b).animator <;> simp
  · rintro n hn m hm rfl
    obtain ⟨a, ha, rfl⟩ := List.mem_map.1 hm
    have hname : (t.shadowing b).animatorName? = some a.name :=
      Option.map_eq_some_iff.2 ⟨a, Option.mem_toList.1 ha, rfl⟩
    rw [animatorName?_shadowing ht.1 hb, Option.or_eq_some_iff, animatorName?, animatorName?,
      Option.map_eq_some_iff, Option.map_eq_some_iff] at hname
    rw [mem_styleNames_shadowing ht.1 hb] at hn
    rcases hname with ⟨c, hc, hca⟩ | ⟨-, c, hc, hca⟩
    · rcases hn with hn | hn
      · exact ht.2.2 _ hn c.name (List.mem_map_of_mem (Option.mem_toList.2 hc)) hca.symm
      · exact hown c hc (hca ▸ hn)
    · rcases hn with hn | hn
      · exact (hbase c hc).1 (hca ▸ hn)
      · exact (hbase c hc).2 (hca ▸ hn)

/-- A style of a stylesheet with shadows is a declared one with shadows in it, or the shadow of one
of the base. -/
theorem mem_shadowing_cases (ht : (t.styles.map Style.name).Nodup)
    (hb : (b.styles.map Style.name).Nodup) {x : Style} (hx : x ∈ (t.shadowing b).allStyles) :
    (∃ own ∈ t.allStyles, ∃ bases, (∀ c ∈ bases, c ∈ b.allStyles) ∧ x = own.shadowed bases) ∨
      ∃ c ∈ b.allStyles, ∃ own base, x = c.shadow.withHead
        { c.shadow.head with belongsTo := own, extendsSheet := base } := by
  have hmem : ∀ {o : Option Style} {c : Style} {l : List Style}, o = some c →
      c ∈ l ++ o.toList := fun h => by rw [h]; simp
  rw [allStyles, List.mem_append, Option.mem_toList, shadowing_eq ht hb, List.mem_append] at hx
  rcases hx with (hx | hx) | hx
  · obtain ⟨own, hown, rfl⟩ := List.mem_map.1 hx
    exact Or.inl ⟨own, List.mem_append_left _ hown, _, fun c hc => List.mem_append_left _ hc, rfl⟩
  · obtain ⟨c, hc, rfl⟩ := List.mem_map.1 hx
    exact Or.inr ⟨c, List.mem_append_left _ (List.mem_filter.1 hc).1, _, _, rfl⟩
  · cases hown : t.animator with
    | none =>
      cases hbase : b.animator with
      | none => simp [hown, hbase, shadowedAnimator] at hx
      | some c =>
        rw [hown, hbase] at hx
        cases hx
        exact Or.inr ⟨c, hmem hbase, _, _, rfl⟩
    | some own =>
      cases hbase : b.animator with
      | none =>
        rw [hown, hbase] at hx
        cases hx
        exact Or.inl ⟨_, hmem hown, [], by simp, rfl⟩
      | some c =>
        rw [hown, hbase] at hx
        cases hx
        exact Or.inl ⟨own, hmem hown, [c], fun d hd => List.mem_singleton.1 hd ▸ hmem hbase, rfl⟩

/-- What holds of a style, also after shadowing, and of shadows of the base, holds of every style of
a stylesheet with its shadows. -/
theorem all_shadowing {p₀ p : Style → Prop} (hkeep : ∀ u, p₀ u → p u)
    (ht : (t.styles.map Style.name).Nodup) (htn : ∀ x ∈ t.allStyles, x.NestedDistinct)
    (hb : (b.styles.map Style.name).Nodup) (hown : ∀ x ∈ t.allStyles, x.All p₀)
    (hshadowing : ∀ c ∈ b.allStyles, ∀ s : Style, s.NestedDistinct → s.All p₀ →
      (s.shadowing c).All p)
    (hshadow : ∀ c ∈ b.allStyles, ∀ own base, (c.shadow.withHead
      { c.shadow.head with belongsTo := own, extendsSheet := base }).All p) :
    ∀ x ∈ (t.shadowing b).allStyles, x.All p := by
  intro x hx
  rcases mem_shadowing_cases ht hb hx with
    ⟨own, hmem, bases, hbases, rfl⟩ | ⟨c, hc, own, base, rfl⟩
  · exact Style.All.shadowed hkeep (fun c hc => hshadowing c (hbases c hc)) (htn own hmem)
      (hown own hmem)
  · exact hshadow c hc own base

theorem nestedDistinct_shadowing (ht : (t.styles.map Style.name).Nodup)
    (htn : ∀ x ∈ t.allStyles, x.NestedDistinct) (hb : (b.styles.map Style.name).Nodup)
    (hnested : ∀ x ∈ b.allStyles, x.NestedDistinct) :
    ∀ x ∈ (t.shadowing b).allStyles, x.NestedDistinct :=
  all_shadowing (fun _ hu => hu) ht htn hb htn (fun c hc _ hs _ => hs.shadowing (hnested c hc))
    fun c hc _ _ => Style.nestedDistinct_withHead.2 (hnested c hc).shadow

end Stylesheet

namespace Suite

/-- The declarations have distinct names, and no animator is named like a style of any registered
stylesheet. -/
structure WellNamed (s : Suite) : Prop where
  distinct : ∀ t ∈ s.registered, t.Distinct
  apart : ∀ t ∈ s.registered, ∀ a ∈ t.animator, ∀ u ∈ s.registered,
    a.name ∉ u.styles.map Style.name

instance (s : Suite) : Decidable s.WellNamed :=
  decidable_of_iff ((∀ t ∈ s.registered, t.Distinct) ∧ ∀ t ∈ s.registered,
      ∀ a ∈ t.animator.toList, ∀ u ∈ s.registered, a.name ∉ u.styles.map Style.name)
    ⟨fun h => ⟨h.1, fun t ht a ha => h.2 t ht a (Option.mem_toList.2 ha)⟩,
      fun h => ⟨h.distinct, fun t ht a ha => h.apart t ht a (Option.mem_toList.1 ha)⟩⟩

theorem WellNamed.styleNames {s : Suite} (hw : s.WellNamed) :
    ∀ t ∈ s.registered, (t.styles.map Style.name).Nodup :=
  fun t ht => (hw.distinct t ht).styleNames

variable {s l : Suite} {settings : Settings}

/-- The stylesheet at a place with the shadows of the base, once that is resolved in `r`. -/
def shadowedIn (l r : Suite) (id : SheetId) : Stylesheet :=
  match l.superclass? id with
  | some b => (l.sheet id).shadowing (r.sheet b)
  | none => l.sheet id

/-- What is known of the stylesheet at a place of a prepared suite `r`: it was marked in the suite
`u`, which has the base as it is in `r`, and its marked styles are `done`. -/
structure Place (settings : Settings) (l r : Suite) (id : SheetId) (u : Suite)
    (done : List Style) : Prop where
  base?_eq : u.base? = l.base?
  imported_eq : u.imported = l.imported
  ids_eq : u.ids = l.ids
  base_eq : ∀ b, l.superclass? id = some b → u.sheet b = r.sheet b
  redirected : SameOutlines (l.shadowedIn r id).sorted (u.sheet id)
  marked : MarkedSheet u settings id done (r.sheet id)
  name_eq : (r.sheet id).name = (l.sheet id).name
  names : ((r.sheet id).allStyles.map Style.name).Nodup
  nested : ∀ x ∈ (r.sheet id).allStyles, x.NestedDistinct

theorem superclass?_congr {u : Suite} (h : u.base? = l.base?) (id : SheetId) :
    u.superclass? id = l.superclass? id := by
  cases id <;> simp [superclass?, h]

theorem Stage.superclass?_eq {r t : Suite} {id : SheetId} (h : Stage settings l r t id)
    (id' : SheetId) : t.superclass? id' = l.superclass? id' :=
  superclass?_congr h.base?_eq id'

theorem Stage.completed_eq {r t : Suite} {id : SheetId} (h : Stage settings l r t id) :
    t.completed id = (l.shadowedIn r id).sorted := by
  rw [completed, shadowedIn, h.superclass?_eq, h.sheet_eq]
  cases hb : l.superclass? id with
  | none => rfl
  | some b => simp only [h.base_eq b (h.superclass?_eq id ▸ hb)]

/-- From distinct names with the shadows follows all that is known of a place. -/
theorem Stage.place {r t : Suite} {id : SheetId} (h : Stage settings l r t id) (hid : id ∈ l.ids)
    (hnames : ((l.shadowedIn r id).allStyles.map Style.name).Nodup)
    (hnested : ∀ x ∈ (l.shadowedIn r id).allStyles, x.NestedDistinct) :
    ∃ u done, Place settings l r id u done := by
  have hids : t.ids = l.ids := by rw [ids, ids, h.length_eq]
  have hid' : id ∈ t.ids := hids ▸ hid
  have hsorted : (((l.shadowedIn r id).sorted.allStyles).map Style.name).Nodup :=
    (l.shadowedIn r id).names_sorted_perm.nodup_iff.2 hnames
  have hstyles : ((t.completed id).styles.map Style.name).Nodup := by
    rw [h.completed_eq]
    exact Stylesheet.styleNames_nodup hsorted
  obtain ⟨u, done, hu⟩ := resolved_outcome hid' h.resolved_eq hstyles
  have hset := hu.suite_eq
  refine ⟨u, done, ?_, ?_, ?_, fun b hb => ?_, h.completed_eq ▸ hu.redirected, hu.marked, ?_, ?_,
    fun x hx => ?_⟩
  · rw [hset, base?_setSheet, h.base?_eq]
  · rw [hset, imported_setSheet _ hid', h.imported_eq]
  · rw [hset, ids_setSheet, hids]
  · rw [hset, sheet_setSheet_of_ne _ (ne_of_superclass? hb).symm,
      h.base_eq b (by rw [h.superclass?_eq, hb])]
  · rw [hu.name_eq, h.sheet_eq]
  · rw [← map_name_outline, hu.outlines, h.completed_eq, map_name_outline]
    exact hsorted
  · obtain ⟨z, hz, hzx⟩ := hu.exists_outline hx
    rw [h.completed_eq] at hz
    obtain ⟨y, hy, rfl⟩ :=
      List.mem_map.1 ((l.shadowedIn r id).allStyles_sorted_perm.mem_iff.1 hz)
    exact (Style.nestedDistinct_congr_outline hzx).1 (hnested y hy).sorted

theorem linked_registered (h : s.linked = .ok l) : l.registered = s.registered := by
  obtain ⟨b, -, rfl, -⟩ := linked_ok h
  rfl

theorem WellNamed.of_mem_ids (hw : s.WellNamed) (h : s.linked = .ok l) {id : SheetId}
    (hid : id ∈ l.ids) : (l.sheet id).Distinct :=
  hw.distinct _ (linked_registered h ▸ sheet_mem hid)

/-- The base, after preparation. -/
theorem Prepares.place_of_base (h : Prepares settings s l) (hw : s.WellNamed) {id : SheetId}
    (hid : id ∈ l.ids) (hsup : l.superclass? id = none) :
    ∃ u done, Place settings l (l.prepared settings).1 id u done := by
  obtain ⟨t, ht⟩ := h.exists_stage hid
  have hd := hw.of_mem_ids h.linked hid
  have hshadowed : l.shadowedIn (l.prepared settings).1 id = l.sheet id := by
    rw [shadowedIn, hsup]
  exact ht.place hid (hshadowed ▸ hd.names)
    (hshadowed ▸ fun x hx => (hd.styles x hx).nestedDistinct)

/-- The names of the base stay as they are. -/
theorem Place.base_names {r u : Suite} {id : SheetId} {done : List Style}
    (h : Place settings l r id u done) (hsup : l.superclass? id = none) :
    ((r.sheet id).styles.map Style.name).Perm ((l.sheet id).styles.map Style.name) := by
  have hshadowed : l.shadowedIn r id = l.sheet id := by rw [shadowedIn, hsup]
  rw [← map_name_outline, h.marked.styles_outline, h.redirected.styles, map_name_outline, hshadowed]
  exact (l.sheet id).styleNames_sorted_perm

/-- A stylesheet without a superclass has the animator that it was declared with. -/
theorem Place.base_animator {r u : Suite} {id : SheetId} {done : List Style}
    (h : Place settings l r id u done) (hsup : l.superclass? id = none) {a : Style}
    (ha : a ∈ (r.sheet id).animator) : ∃ c ∈ (l.sheet id).animator, c.name = a.name := by
  have hshadowed : l.shadowedIn r id = l.sheet id := by rw [shadowedIn, hsup]
  have hout := h.marked.animator_outline
  rw [h.redirected.animator, hshadowed, Option.mem_def.1 ha, Option.map_some] at hout
  obtain ⟨z, hz, hza⟩ := Option.map_eq_some_iff.1 hout.symm
  obtain ⟨c, hc, rfl⟩ := Option.map_eq_some_iff.1 hz
  exact ⟨c, hc, by rw [← Style.name_sorted, Style.name_eq_of_outline hza]⟩

theorem mem_ids_of_superclass? (h : s.linked = .ok l) {id b : SheetId}
    (hb : l.superclass? id = some b) : b ∈ l.ids := by
  obtain ⟨k, hk, rfl, -⟩ := linked_ok h
  obtain ⟨i, j, -, hj, rfl, -⟩ := superclass?_eq_some.1 hb
  cases hj
  exact mem_ids.2 ⟨k, hk, rfl⟩

/-! ## Distinct style names

What follows needs the names of styles to be distinct only, and lets an animator have the name of a
style. -/

section StyleNames

variable (h : Prepares settings s l) (hd : ∀ t ∈ s.registered, (t.styles.map Style.name).Nodup)
  {id : SheetId}

include h hd

/-- The names of the styles of a stylesheet with its shadows are distinct, if they are in the
declarations. -/
theorem Prepares.styleNames_completed (hid : id ∈ l.ids) {t : Suite}
    (ht : Stage settings l (l.prepared settings).1 t id) :
    ((t.completed id).styles.map Style.name).Nodup := by
  have hsheet : ∀ {c}, c ∈ l.ids → ((l.sheet c).styles.map Style.name).Nodup := fun hc =>
    hd _ (linked_registered h.linked ▸ sheet_mem hc)
  rw [ht.completed_eq, (Stylesheet.styleNames_sorted_perm _).nodup_iff]
  cases hb : l.superclass? id with
  | none =>
    rw [shadowedIn, hb]
    exact hsheet hid
  | some b =>
    have hbid := mem_ids_of_superclass? h.linked hb
    obtain ⟨u, hu⟩ := h.exists_stage hbid
    have hcompleted : ((u.completed b).styles.map Style.name).Nodup := by
      rw [hu.completed_eq, (Stylesheet.styleNames_sorted_perm _).nodup_iff, shadowedIn,
        superclass?_superclass? hb]
      exact hsheet hbid
    have hbase : (((l.prepared settings).1.sheet b).styles.map Style.name).Nodup := by
      obtain ⟨w, done, hw⟩ := resolved_outcome (by rw [ids, hu.length_eq]; exact hbid)
        hu.resolved_eq hcompleted
      rwa [hw.styleNames]
    rw [shadowedIn, hb]
    exact Stylesheet.styleNames_shadowing_nodup (hsheet hid) hbase

/-- Every registered stylesheet comes out of the passes. -/
theorem Prepares.exists_outcome (hid : id ∈ l.ids) :
    ∃ t u done, t.completed id = (l.shadowedIn (l.prepared settings).1 id).sorted ∧
      Outcome t settings id u done ((l.prepared settings).1.sheet id) := by
  obtain ⟨t, ht⟩ := h.exists_stage hid
  have hid' : id ∈ t.ids := by
    rw [ids, ht.length_eq]
    exact hid
  obtain ⟨u, done, hu⟩ := resolved_outcome hid' ht.resolved_eq (h.styleNames_completed hd hid ht)
  exact ⟨t, u, done, ht.completed_eq, hu⟩

/-- After preparation the styles of a stylesheet have distinct names. -/
theorem Prepares.styleNames_nodup (hid : id ∈ l.ids) :
    (((l.prepared settings).1.sheet id).styles.map Style.name).Nodup := by
  obtain ⟨t, ht⟩ := h.exists_stage hid
  obtain ⟨u, done, hu⟩ := resolved_outcome (by rw [ids, ht.length_eq]; exact hid) ht.resolved_eq
    (h.styleNames_completed hd hid ht)
  rw [hu.styleNames]
  exact h.styleNames_completed hd hid ht

/-- Every style that is there after preparation comes of one with its shadows. -/
theorem Prepares.exists_shadowed (hid : id ∈ l.ids) {y : Style}
    (hy : y ∈ ((l.prepared settings).1.sheet id).allStyles) :
    ∃ z ∈ (l.shadowedIn (l.prepared settings).1 id).allStyles,
      z.sorted.outline StyleHead.declared = y.outline StyleHead.declared := by
  obtain ⟨t, u, done, hcompleted, hu⟩ := h.exists_outcome hd hid
  obtain ⟨w, hw, hwy⟩ := hu.exists_outline hy
  rw [hcompleted] at hw
  obtain ⟨z, hz, rfl⟩ := List.mem_map.1 ((Stylesheet.allStyles_sorted_perm _).mem_iff.1 hw)
  exact ⟨z, hz, hwy⟩

/-- The nested names of a stylesheet are distinct after preparation if they are with its shadows. -/
theorem Prepares.nestedDistinct_of_shadowedIn (hid : id ∈ l.ids)
    (hs : ∀ x ∈ (l.shadowedIn (l.prepared settings).1 id).allStyles, x.NestedDistinct) :
    ∀ x ∈ ((l.prepared settings).1.sheet id).allStyles, x.NestedDistinct := by
  intro x hx
  obtain ⟨z, hz, hzx⟩ := h.exists_shadowed hd hid hx
  exact (Style.nestedDistinct_congr_outline hzx).1 (hs z hz).sorted

variable (hn : ∀ t ∈ s.registered, ∀ x ∈ t.allStyles, x.NestedDistinct)

include hn

/-- What holds of one level, also after shadowing, and of shadows of the base, holds of every style
of a stylesheet with its shadows. -/
theorem Prepares.all_shadowedIn {p₀ p q : Style → Prop} (hkeep : ∀ u, p₀ u → p u)
    (hlevel : ∀ u b : Style, (u.nestedStyles.map Style.name).Nodup →
      (b.nestedStyles.map Style.name).Nodup → p₀ u → p (u.shadowing b))
    (hshadow : ∀ c : Style, c.NestedDistinct → c.All q → ∀ nestedIn own base, (c.shadow.withHead
      { c.shadow.head with nestedIn := nestedIn, belongsTo := own, extendsSheet := base }).All p)
    (hall : ∀ t ∈ s.registered, ∀ x ∈ t.allStyles, x.All p₀) (hid : id ∈ l.ids)
    (hbaseAll : ∀ b, l.superclass? id = some b →
      ∀ x ∈ ((l.prepared settings).1.sheet b).allStyles, x.NestedDistinct → x.All q) :
    ∀ x ∈ (l.shadowedIn (l.prepared settings).1 id).allStyles, x.All p := by
  have hmem : ∀ {c}, c ∈ l.ids → l.sheet c ∈ s.registered := fun hc =>
    linked_registered h.linked ▸ sheet_mem hc
  unfold shadowedIn
  cases hsup : l.superclass? id with
  | none => exact fun x hx => (hall _ (hmem hid) x hx).imp hkeep
  | some b =>
    have hb := mem_ids_of_superclass? h.linked hsup
    have hbase : ∀ x ∈ ((l.prepared settings).1.sheet b).allStyles, x.NestedDistinct := by
      refine h.nestedDistinct_of_shadowedIn hd hb ?_
      rw [shadowedIn, superclass?_superclass? hsup]
      exact hn _ (hmem hb)
    refine Stylesheet.all_shadowing hkeep (hd _ (hmem hid)) (hn _ (hmem hid))
      (h.styleNames_nodup hd hb) (hall _ (hmem hid)) (fun c hc x hx hxp => ?_)
      fun c hc own base =>
        hshadow c (hbase c hc) (hbaseAll b hsup c hc (hbase c hc)) _ own base
    exact Style.All.shadowing hkeep hlevel
      (fun head c hc hq => hshadow c hc hq (some head.name) head.belongsTo _) hx hxp (hbase c hc)
      (hbaseAll b hsup c hc (hbase c hc))

theorem Prepares.nestedDistinct (hid : id ∈ l.ids) :
    ∀ x ∈ ((l.prepared settings).1.sheet id).allStyles, x.NestedDistinct :=
  h.nestedDistinct_of_shadowedIn hd hid <| h.all_shadowedIn hd hn (fun _ hu => hu)
    (fun _ _ hu hb _ => Style.nestedNames_shadowing_nodup hu hb)
    (fun _ hc _ _ _ _ => Style.nestedDistinct_withHead.2 hc.shadow) hn hid
    fun _ _ _ _ hx => hx

/-- Preparation makes up no names: what holds of all declared ones holds of all that are there
then. -/
theorem Prepares.allNames {p : String → Prop}
    (hp : ∀ t ∈ s.registered, ∀ x ∈ t.allStyles, x.All fun u => p u.name) (hid : id ∈ l.ids) :
    ∀ y ∈ ((l.prepared settings).1.sheet id).allStyles, y.All fun u => p u.name := by
  have hplace : ∀ {c}, c ∈ l.ids →
      (∀ b, l.superclass? c = some b → ∀ x ∈ ((l.prepared settings).1.sheet b).allStyles,
        x.All fun u => p u.name) →
      ∀ y ∈ ((l.prepared settings).1.sheet c).allStyles, y.All fun u => p u.name := by
    intro c hc hbase y hy
    obtain ⟨z, hz, hzy⟩ := h.exists_shadowed hd hc hy
    refine (Style.allNames_congr hzy).1
      (Style.All.sorted (fun u hu => by rwa [Style.name_sorted]) ?_)
    refine h.all_shadowedIn hd hn (fun _ hu => hu)
      (fun u b _ _ hu => by rwa [Style.name_shadowing])
      (fun x _ hx nestedIn own base => ?_) hp hc (fun b hb x hx _ => hbase b hb x hx) z hz
    have hshadow : x.shadow.All fun u => p u.name :=
      Style.All.shadow (fun u hu => by rwa [Style.name_shadow]) hx
    exact Style.all_iff.2 ⟨hshadow.self, fun n hn => hshadow.nested hn⟩
  refine hplace hid fun b hb => hplace (mem_ids_of_superclass? h.linked hb) fun c hc => ?_
  rw [superclass?_superclass? hb] at hc
  cases hc

end StyleNames

/-- What is known of a registered stylesheet after preparation. -/
theorem Prepares.place (h : Prepares settings s l) (hw : s.WellNamed) {id : SheetId}
    (hid : id ∈ l.ids) : ∃ u done, Place settings l (l.prepared settings).1 id u done := by
  cases hsup : l.superclass? id with
  | none => exact h.place_of_base hw hid hsup
  | some b =>
    have hb := mem_ids_of_superclass? h.linked hsup
    have hbsup := superclass?_superclass? hsup
    obtain ⟨u, done, hbase⟩ := h.place_of_base hw hb hbsup
    obtain ⟨t, ht⟩ := h.exists_stage hid
    have hd := hw.of_mem_ids h.linked hid
    have hmem : ∀ {c}, c ∈ l.ids → l.sheet c ∈ s.registered := fun hc =>
      linked_registered h.linked ▸ sheet_mem hc
    have hbaseNames := Stylesheet.styleNames_nodup hbase.names
    have hshadowed : l.shadowedIn (l.prepared settings).1 id =
        (l.sheet id).shadowing ((l.prepared settings).1.sheet b) := by rw [shadowedIn, hsup]
    refine ht.place hid ?_ ?_
    · rw [hshadowed]
      refine Stylesheet.names_shadowing_nodup hd.names hbaseNames (fun a ha => ?_) fun a ha => ?_
      · rw [(hbase.base_names hbsup).mem_iff]
        exact hw.apart _ (hmem hid) a ha _ (hmem hb)
      · obtain ⟨c, hc, hca⟩ := hbase.base_animator hbsup ha
        rw [(hbase.base_names hbsup).mem_iff, ← hca]
        exact ⟨hw.apart _ (hmem hb) c hc _ (hmem hid), hw.apart _ (hmem hb) c hc _ (hmem hb)⟩
    · rw [hshadowed]
      exact Stylesheet.nestedDistinct_shadowing hd.styleNames hd.nestedDistinct hbaseNames
        hbase.nested

/-! ## Outlines -/

section Outlines

variable {r u : Suite} {id : SheetId} {done : List Style}

theorem Place.outlines (h : Place settings l r id u done) :
    (r.sheet id).allStyles.map (Style.outline StyleHead.declared) =
      (l.shadowedIn r id).sorted.allStyles.map (Style.outline StyleHead.declared) := by
  rw [h.marked.outlines, h.redirected.outlines]

/-- Every style with its shadows is there after preparation. -/
theorem Place.exists_resolved (h : Place settings l r id u done) {z : Style}
    (hz : z ∈ (l.shadowedIn r id).allStyles) :
    ∃ y ∈ (r.sheet id).allStyles,
      z.sorted.outline StyleHead.declared = y.outline StyleHead.declared := by
  have hmem := (l.shadowedIn r id).allStyles_sorted_perm.mem_iff.2 (List.mem_map_of_mem hz)
  have hout := List.mem_map_of_mem (f := Style.outline StyleHead.declared) hmem
  rw [← h.outlines] at hout
  obtain ⟨y, hy, hyz⟩ := List.mem_map.1 hout
  exact ⟨y, hy, hyz.symm⟩

end Outlines

end Suite

end Appearance
