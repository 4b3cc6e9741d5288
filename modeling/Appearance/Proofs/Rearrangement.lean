import Appearance.Proofs.Shadows

/-!
# The order of keys in a source

`Style.Rearranged` relates styles that differ by the order of their properties at any depth, and
`Stylesheet.Rearranged` stylesheets that also differ by the order of their styles. With distinct
names sorting removes the difference (`Style.sorted_eq_of_rearranged`), and it does so too after
shadows of one base were added to both (`Stylesheet.Rearranged.sorted_shadowing_eq`).

The relation is inductive on styles, with a permutation of properties at each level and the same
relation inside nested ones; it has no depth bound. Sorting is compared through `sorted_eq_iff`,
which says when two styles have one sorted form, level by level, so no proof here speaks of how
sorting is done. Shadowing is the one pass that runs before everything is sorted, and it depends on
names and keys only, which related styles share up to order. From here on preparation sees equal
stylesheets, and nothing about order is left to prove.
-/

namespace Appearance

mutual

/-- The styles differ by the order of properties only, at any depth. -/
inductive Style.Rearranged : Style → Style → Prop
  | mk {h : StyleHead} {ps qs rs : List Property} :
    List.Forall₂ Property.Rearranged ps qs → qs.Perm rs → Style.Rearranged (.mk h ps) (.mk h rs)

/-- The properties differ by the order inside a nested style only. -/
inductive Property.Rearranged : Property → Property → Prop
  | leaf (h : PropertyHead) (v : Value) : Property.Rearranged (.leaf h v) (.leaf h v)
  | nested (h : PropertyHead) {s t : Style} :
    Style.Rearranged s t → Property.Rearranged (.nested h s) (.nested h t)

end

/-- The stylesheets differ by the order of styles and of properties only. -/
structure Stylesheet.Rearranged (s t : Stylesheet) : Prop where
  name_eq : s.name = t.name
  superclass_eq : s.superclass = t.superclass
  hasSymbolFont_eq : s.hasSymbolFont = t.hasSymbolFont
  dependencies_eq : s.dependencies = t.dependencies
  styles : ∃ us, List.Forall₂ Style.Rearranged s.styles us ∧ us.Perm t.styles
  animator : Option.Rel Style.Rearranged s.animator t.animator

/-- The names of the top-level styles are distinct, that of the animator included, and so are keys
and nested names in each style. -/
structure Stylesheet.Distinct (s : Stylesheet) : Prop where
  names : (s.allStyles.map Style.name).Nodup
  styles : ∀ u ∈ s.allStyles, u.Distinct

instance (s : Stylesheet) : Decidable s.Distinct :=
  decidable_of_iff ((s.allStyles.map Style.name).Nodup ∧ ∀ u ∈ s.allStyles, u.Distinct)
    ⟨fun h => ⟨h.1, h.2⟩, fun h => ⟨h.names, h.styles⟩⟩

theorem Property.Rearranged.key_eq {p q : Property} (h : p.Rearranged q) : p.key = q.key := by
  cases h <;> rfl

namespace Style

theorem Rearranged.head_eq {s t : Style} (h : s.Rearranged t) : s.head = t.head := by
  cases h
  rfl

theorem Rearranged.name_eq {s t : Style} (h : s.Rearranged t) : s.name = t.name := by
  rw [name, h.head_eq, name]

theorem forall₂_rearranged_refl {ps : List Property}
    (h : ∀ k n, Property.nested k n ∈ ps → n.Rearranged n) :
    List.Forall₂ Property.Rearranged ps ps := by
  refine List.forall₂_same.2 fun p hp => ?_
  cases p with
  | leaf k v => exact .leaf k v
  | nested k n => exact .nested k (h k n hp)

theorem Rearranged.refl (s : Style) : s.Rearranged s := by
  induction s using Style.induction with
  | mk h ps ih => exact .mk (forall₂_rearranged_refl ih) (List.Perm.refl ps)

/-- Nested styles of related properties are related. -/
theorem forall₂_style? {ps qs : List Property} (h : List.Forall₂ Property.Rearranged ps qs) :
    List.Forall₂ Rearranged (ps.filterMap Property.style?) (qs.filterMap Property.style?) := by
  induction h with
  | nil => exact .nil
  | cons hpq _ ih =>
    cases hpq with
    | leaf => exact ih
    | nested _ hst => exact .cons hst ih

theorem rearranged_mk {h h' : StyleHead} {ps rs : List Property} :
    (mk h ps).Rearranged (mk h' rs) ↔
      h = h' ∧ ∃ qs, List.Forall₂ Property.Rearranged ps qs ∧ qs.Perm rs := by
  constructor
  · rintro ⟨hpq, hqr⟩
    exact ⟨rfl, _, hpq, hqr⟩
  · rintro ⟨rfl, qs, hpq, hqr⟩
    exact .mk hpq hqr

/-- The names of nested styles differ by their order only. -/
theorem Rearranged.nestedNames_perm {s t : Style} (h : s.Rearranged t) :
    (s.nestedStyles.map name).Perm (t.nestedStyles.map name) := by
  cases h with
  | mk hpq hqr =>
    rw [nestedStyles_mk, nestedStyles_mk,
      map_eq_of_forall₂ (forall₂_style? hpq) fun _ _ => Rearranged.name_eq]
    exact (hqr.filterMap _).map _

theorem Rearranged.keys_perm {s t : Style} (h : s.Rearranged t) :
    (s.properties.map Property.key).Perm (t.properties.map Property.key) := by
  cases h with
  | mk hpq hqr =>
    rw [properties_mk, properties_mk,
      map_eq_of_forall₂ hpq fun _ _ => Property.Rearranged.key_eq]
    exact hqr.map _

/-- Distinct names stay distinct in another order. -/
theorem Rearranged.distinct {s t : Style} (h : s.Rearranged t) (hd : s.Distinct) :
    t.Distinct := by
  induction s using Style.induction generalizing t with
  | mk head ps ih =>
    obtain ⟨head', rs⟩ := t
    refine all_mk.2 ⟨⟨h.keys_perm.nodup_iff.1 hd.self.1, h.nestedNames_perm.nodup_iff.1 hd.self.2⟩,
      fun k n hn => ?_⟩
    obtain ⟨-, qs, hpq, hqr⟩ := rearranged_mk.1 h
    obtain ⟨p, hp, hpn⟩ := exists_mem_of_forall₂ hpq (hqr.mem_iff.2 hn)
    cases hpn with
    | nested k hst => exact ih k _ hp hst ((all_mk.1 hd).2 k _ hp)

/-! ## Sorting -/

/-- Sorting removes the difference. -/
theorem sorted_eq_of_rearranged {s t : Style} (h : s.Rearranged t) (hd : s.Distinct) :
    s.sorted = t.sorted := by
  induction s using Style.induction generalizing t with
  | mk head ps ih =>
    obtain ⟨head', rs⟩ := t
    obtain ⟨rfl, qs, hpq, hqr⟩ := rearranged_mk.1 h
    rw [Distinct, all_mk] at hd
    have hmap : ps.map (Property.mapStyle sorted) = qs.map (Property.mapStyle sorted) := by
      have hmem : List.Forall₂ (fun p q => p ∈ ps ∧ p.Rearranged q) ps qs :=
        List.forall₂_and_left ps qs |>.2 ⟨fun _ hp => hp, hpq⟩
      refine map_eq_of_forall₂ hmem ?_
      rintro p q ⟨hp, hpq⟩
      cases hpq with
      | leaf => rfl
      | nested k hst => exact congrArg (Property.nested k) (ih k _ hp hst (hd.2 k _ hp))
    have hkeys : ((qs.map (Property.mapStyle sorted)).map Property.key).Nodup := by
      rw [← hmap, List.map_map]
      simpa [Function.comp_def] using hd.1.1
    rw [sorted_mk, sorted_mk, hmap, keyLE_eq_byText,
      sort_eq_of_perm hkeys (hqr.map (Property.mapStyle sorted))]

/-- What styles with the same sorted form have in common. -/
theorem eq_of_sorted_eq {s t : Style} (h : s.sorted = t.sorted) :
    s.head = t.head ∧ ∀ k,
      (s.properties.filter (·.key == k)).map (Property.mapStyle sorted) =
        (t.properties.filter (·.key == k)).map (Property.mapStyle sorted) := by
  obtain ⟨hs, ps⟩ := s
  obtain ⟨ht, qs⟩ := t
  rw [sorted_mk, sorted_mk, Style.mk.injEq, keyLE_eq_byText, mergeSort_eq_iff_filter] at h
  refine ⟨h.1, fun k => ?_⟩
  have := h.2 k
  rw [List.filter_map, List.filter_map] at this
  simpa [Function.comp_def] using this

/-- Two styles are sorted to one style if their heads agree, and their properties key by key. -/
theorem sorted_eq_iff {s t : Style} :
    s.sorted = t.sorted ↔ s.head = t.head ∧ ∀ k,
      (s.properties.filter (·.key == k)).map (Property.mapStyle sorted) =
        (t.properties.filter (·.key == k)).map (Property.mapStyle sorted) := by
  refine ⟨eq_of_sorted_eq, fun h => ?_⟩
  obtain ⟨hs, ps⟩ := s
  obtain ⟨ht, qs⟩ := t
  rw [sorted_mk, sorted_mk, Style.mk.injEq, keyLE_eq_byText, mergeSort_eq_iff_filter]
  refine ⟨h.1, fun k => ?_⟩
  rw [List.filter_map, List.filter_map]
  simpa [Function.comp_def] using h.2 k

theorem nestedStyles_perm_of_sorted_eq {s t : Style} (h : s.sorted = t.sorted) :
    (s.nestedStyles.map sorted).Perm (t.nestedStyles.map sorted) :=
  s.nestedStyles_sorted_perm.symm.trans (h ▸ t.nestedStyles_sorted_perm)

theorem mem_names_of_sorted_eq {s t : Style} (h : s.sorted = t.sorted) (n : String) :
    n ∈ s.nestedStyles.map name ↔ n ∈ t.nestedStyles.map name := by
  have := ((nestedStyles_perm_of_sorted_eq h).map name).mem_iff (a := n)
  simpa [List.map_map, Function.comp_def] using this

theorem mem_keys_of_sorted_eq {s t : Style} (h : s.sorted = t.sorted) (k : String) :
    k ∈ s.properties.map Property.key ↔ k ∈ t.properties.map Property.key := by
  have hperm : ∀ u : Style, (u.sorted.properties.map Property.key).Perm
      (u.properties.map Property.key) := fun u => by
    rw [properties_sorted]
    simpa [List.map_map, Function.comp_def] using
      (List.mergeSort_perm (u.properties.map (Property.mapStyle sorted)) keyLE).map Property.key
  rw [← (hperm s).mem_iff, h, (hperm t).mem_iff]

/-! ## Shadows -/

/-- Nested styles that are sorted to one style are so after shadowing. -/
theorem sorted_shadowed_congr {bases : List Style}
    (ih : ∀ b ∈ bases, ∀ s t : Style, s.sorted = t.sorted → s.NestedDistinct → t.NestedDistinct →
      (s.shadowing b).sorted = (t.shadowing b).sorted)
    {s t : Style} (h : s.sorted = t.sorted) (hs : s.NestedDistinct) (ht : t.NestedDistinct) :
    (s.shadowed bases).sorted = (t.shadowed bases).sorted := by
  have hname : s.name = t.name := by rw [name, (eq_of_sorted_eq h).1, name]
  unfold shadowed
  rw [hname]
  split
  · next b hb => exact ih b (List.mem_of_find?_eq_some hb) s t h hs ht
  · exact h

/-- Shadows of one base keep the sorted forms of two styles equal. -/
theorem sorted_shadowing_congr {b : Style} (hb : b.NestedDistinct) {s t : Style}
    (h : s.sorted = t.sorted) (hs : s.NestedDistinct) (ht : t.NestedDistinct) :
    (s.shadowing b).sorted = (t.shadowing b).sorted := by
  induction b using Style.induction generalizing s t with
  | mk head bs ih =>
    rw [shadowing_eq hs.self hb.self, shadowing_eq ht.self hb.self]
    obtain ⟨hhead, hprops⟩ := eq_of_sorted_eq h
    rw [sorted_eq_iff, head_mk, head_mk, hhead,
      missing_congr _ (mem_names_of_sorted_eq h) (mem_keys_of_sorted_eq h)]
    refine ⟨rfl, fun k => ?_⟩
    rw [properties_mk, properties_mk, List.filter_append, List.filter_append, List.map_append,
      List.map_append]
    refine congrArg (· ++ _) ?_
    simp only [List.filter_map, Function.comp_def, Property.key_mapStyle, List.map_map,
      Property.mapStyle_mapStyle]
    -- a property with shadows in it, sorted, is known from the property sorted
    refine map_eq_of_map_eq (hprops k) fun p hp q hq hpq => ?_
    cases p with
    | leaf k v =>
      cases q with
      | leaf => exact hpq
      | nested => cases hpq
    | nested k n =>
      cases q with
      | leaf => cases hpq
      | nested k' n' =>
        simp only [Property.mapStyle_nested, Property.nested.injEq] at hpq ⊢
        refine ⟨hpq.1, sorted_shadowed_congr (fun b hb' => ?_) hpq.2
          (hs.nested (mem_nestedStyles.2 ⟨k, (List.mem_filter.1 hp).1⟩))
          (ht.nested (mem_nestedStyles.2 ⟨k', (List.mem_filter.1 hq).1⟩))⟩
        obtain ⟨k, hk⟩ := mem_nestedStyles.1 hb'
        exact fun s t => ih k b hk (All.nested hb hb')

/-- Styles that differ by the order of properties become one style when they get the same shadows
and are sorted. -/
theorem sorted_shadowed_of_rearranged {bases : List Style} (hb : ∀ b ∈ bases, b.NestedDistinct)
    {s t : Style} (h : s.Rearranged t) (hd : s.Distinct) :
    (s.shadowed bases).sorted = (t.shadowed bases).sorted :=
  sorted_shadowed_congr (fun b hmem _ _ => sorted_shadowing_congr (hb b hmem))
    (sorted_eq_of_rearranged h hd) hd.nestedDistinct (h.distinct hd).nestedDistinct

end Style

namespace Stylesheet

/-! ## Stylesheets -/

theorem styleNames_nodup {s : Stylesheet} (h : (s.allStyles.map Style.name).Nodup) :
    (s.styles.map Style.name).Nodup := by
  rw [allStyles, List.map_append] at h
  exact (List.nodup_append.1 h).1

theorem Distinct.styleNames {s : Stylesheet} (h : s.Distinct) :
    (s.styles.map Style.name).Nodup :=
  styleNames_nodup h.names

theorem Distinct.nestedDistinct {s : Stylesheet} (h : s.Distinct) :
    ∀ x ∈ s.allStyles, x.NestedDistinct := fun x hx => (h.styles x hx).nestedDistinct

theorem Distinct.of_mem_styles {s : Stylesheet} (h : s.Distinct) {u : Style} (hu : u ∈ s.styles) :
    u.Distinct :=
  h.styles u (List.mem_append_left _ hu)

theorem Distinct.of_mem_animator {s : Stylesheet} (h : s.Distinct) {u : Style}
    (hu : u ∈ s.animator) : u.Distinct :=
  h.styles u (List.mem_append_right _ (Option.mem_toList.2 hu))

/-- Sorting, with the styles sorted first. -/
theorem sorted_eq (s : Stylesheet) :
    s.sorted = { s with styles := (s.styles.map Style.sorted).mergeSort nameLE
                        animator := s.animator.map Style.sorted } := by
  rw [sorted, nameLE_eq_byText, map_sort Style.name Style.name Style.name_sorted]

variable {s t : Stylesheet}

theorem Rearranged.allStyles (h : s.Rearranged t) :
    ∃ us, List.Forall₂ Style.Rearranged s.allStyles us ∧ us.Perm t.allStyles := by
  obtain ⟨us, hsu, hut⟩ := h.styles
  exact ⟨us ++ t.animator.toList, List.rel_append hsu (forall₂_toList h.animator),
    hut.append_right _⟩

theorem Rearranged.names_perm (h : s.Rearranged t) :
    (s.allStyles.map Style.name).Perm (t.allStyles.map Style.name) := by
  obtain ⟨us, hsu, hut⟩ := h.allStyles
  rw [map_eq_of_forall₂ hsu fun _ _ => Style.Rearranged.name_eq]
  exact hut.map _

theorem Rearranged.styleNames_perm (h : s.Rearranged t) :
    (s.styles.map Style.name).Perm (t.styles.map Style.name) := by
  obtain ⟨us, hsu, hut⟩ := h.styles
  rw [map_eq_of_forall₂ hsu fun _ _ => Style.Rearranged.name_eq]
  exact hut.map _

theorem Rearranged.distinct (h : s.Rearranged t) (hd : s.Distinct) : t.Distinct where
  names := h.names_perm.nodup_iff.1 hd.names
  styles u hu := by
    obtain ⟨us, hsu, hut⟩ := h.allStyles
    obtain ⟨v, hv, hvu⟩ := exists_mem_of_forall₂ hsu (hut.mem_iff.2 hu)
    exact hvu.distinct (hd.styles v hv)

/-- Sorting removes the difference, also behind a function on styles whose result does not tell
them apart when sorted. -/
theorem Rearranged.sort_styles_eq (h : s.Rearranged t) (hd : s.Distinct) (f : Style → Style)
    (hf : ∀ u v, u.Rearranged v → u.Distinct → (f u).sorted = (f v).sorted)
    (hname : ∀ u, (f u).name = u.name) (extra : List Style)
    (hextra : ((s.styles ++ extra).map Style.name).Nodup) :
    ((s.styles.map f ++ extra).map Style.sorted).mergeSort nameLE =
      ((t.styles.map f ++ extra).map Style.sorted).mergeSort nameLE := by
  obtain ⟨us, hsu, hut⟩ := h.styles
  have hmem : List.Forall₂ (fun u v => u ∈ s.styles ∧ u.Rearranged v) s.styles us :=
    (List.forall₂_and_left s.styles us).2 ⟨fun _ hu => hu, hsu⟩
  have hmap : (s.styles.map f ++ extra).map Style.sorted =
      (us.map f ++ extra).map Style.sorted := by
    rw [List.map_append, List.map_append, List.map_map, List.map_map]
    refine congrArg (· ++ _) (map_eq_of_forall₂ hmem ?_)
    rintro u v ⟨hu, huv⟩
    exact hf u v huv (hd.of_mem_styles hu)
  have hnodup : (((s.styles.map f ++ extra).map Style.sorted).map Style.name).Nodup := by
    simpa [List.map_map, Function.comp_def, hname] using hextra
  rw [nameLE_eq_byText, sort_eq_of_perm hnodup]
  rw [hmap]
  exact ((hut.map f).append_right extra).map Style.sorted

/-- Sorting removes the difference. -/
theorem Rearranged.sorted_eq (h : s.Rearranged t) (hd : s.Distinct) : s.sorted = t.sorted := by
  have hstyles := h.sort_styles_eq hd id (fun u v huv hu => Style.sorted_eq_of_rearranged huv hu)
    (fun _ => rfl) [] (by simpa using hd.styleNames)
  have hanimator : s.animator.map Style.sorted = t.animator.map Style.sorted :=
    map_eq_of_rel h.animator fun u hu v huv =>
      Style.sorted_eq_of_rearranged huv (hd.of_mem_animator hu)
  rw [Stylesheet.sorted_eq, Stylesheet.sorted_eq]
  simp only [List.map_id, List.append_nil] at hstyles
  rw [hstyles, hanimator, h.name_eq, h.superclass_eq, h.hasSymbolFont_eq, h.dependencies_eq]

/-- Animators that are related are sorted to one after shadowing. -/
theorem sorted_shadowedAnimator {own own' base : Option Style}
    (h : Option.Rel Style.Rearranged own own') (hd : ∀ u ∈ own, u.Distinct)
    (hb : ∀ b ∈ base, b.NestedDistinct) (sheet : String) :
    (shadowedAnimator own base sheet).map Style.sorted =
      (shadowedAnimator own' base sheet).map Style.sorted := by
  cases h with
  | none => rfl
  | some huv =>
    cases base with
    | none => exact congrArg some (Style.sorted_eq_of_rearranged huv (hd _ rfl))
    | some b =>
      refine congrArg some (Style.sorted_shadowed_of_rearranged (fun c hc => ?_) huv (hd _ rfl))
      rw [List.mem_singleton.1 hc]
      exact hb b rfl

/-- Shadows of one base and sorting remove the difference. -/
theorem Rearranged.sorted_shadowing_eq (h : s.Rearranged t) (hd : s.Distinct) {b : Stylesheet}
    (hb : (b.styles.map Style.name).Nodup) (hnested : ∀ u ∈ b.allStyles, u.NestedDistinct) :
    (s.shadowing b).sorted = (t.shadowing b).sorted := by
  have hnames : ∀ n, n ∉ s.styles.map Style.name ↔ n ∉ t.styles.map Style.name := fun n =>
    not_congr h.styleNames_perm.mem_iff
  have hstyles := h.sort_styles_eq hd (Style.shadowed b.styles)
    (fun u v => Style.sorted_shadowed_of_rearranged fun c hc =>
      hnested c (List.mem_append_left _ hc))
    (fun _ => Style.name_shadowed _ _)
    ((b.styles.filter fun c => c.name ∉ s.styles.map Style.name).map (shadowOf b.name s.name)) (by
      rw [List.map_append, List.map_map]
      refine List.nodup_append.2 ⟨hd.styleNames, ?_, ?_⟩
      · simpa [Function.comp_def] using (hb.sublist (List.filter_sublist.map _))
      · rintro n hn m hm rfl
        obtain ⟨c, hc, rfl⟩ := List.mem_map.1 hm
        have hnot := (List.mem_filter.1 hc).2
        rw [Function.comp_apply, name_shadowOf] at hn
        exact absurd hn (by simpa using hnot))
  have hanimator := sorted_shadowedAnimator h.animator (fun u => hd.of_mem_animator)
    (fun c hc => hnested c (List.mem_append_right _ (Option.mem_toList.2 hc))) s.name
  rw [shadowing_eq hd.styleNames hb, shadowing_eq (h.distinct hd).styleNames hb,
    Stylesheet.sorted_eq, Stylesheet.sorted_eq]
  simp only [h.name_eq, hnames] at hstyles hanimator ⊢
  rw [hstyles, hanimator, h.superclass_eq, h.hasSymbolFont_eq, h.dependencies_eq]

end Stylesheet

end Appearance
