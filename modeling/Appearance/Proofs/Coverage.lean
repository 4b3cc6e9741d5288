import Appearance.Proofs.Names

/-!
# Stylesheets that lack no shadow

A style covers another one if every style nested in that has a counterpart in it, or if the name of
such a style is a key of it and no shadow can be added; and so on in the counterparts. This is what
shadowing achieves (`Style.covers_shadowing`), and all that it is for: a style that covers the base
stays as it is (`Style.shadowing_eq_self`). It is told by names and keys, so sorting, resolving and
marking keep it (`Style.Covers.of_outline`). The same holds of stylesheets.

Covering is an inductive relation on two styles that is closed level by level, so it has no depth
and needs no path. Both exceptions of shadowing are part of it: a key that is in the way, and an
animator of another name. With it two statements that look different become one, that shadows are
complete after preparation and that preparing again adds none.
-/

namespace Appearance

namespace Style

/-- Every style nested in `base` has a counterpart in `own`, or its name is a key there, at every
depth. -/
inductive Covers : Style → Style → Prop
  | mk {own base : Style} :
    (∀ c ∈ base.nestedStyles, c.name ∈ own.nestedStyles.map name ∨
      c.name ∈ own.properties.map Property.key) →
    (∀ c ∈ base.nestedStyles, ∀ n ∈ own.nestedStyles, n.name = c.name → Covers n c) →
    Covers own base

/-- Covering is told level by level. -/
theorem covers_iff {own base : Style} :
    own.Covers base ↔
      (∀ c ∈ base.nestedStyles, c.name ∈ own.nestedStyles.map name ∨
        c.name ∈ own.properties.map Property.key) ∧
      ∀ c ∈ base.nestedStyles, ∀ n ∈ own.nestedStyles, n.name = c.name → n.Covers c := by
  constructor
  · rintro ⟨hpresent, hinner⟩
    exact ⟨hpresent, hinner⟩
  · exact fun h => .mk h.1 h.2

/-! ## Nothing to add -/

theorem missing_eq_nil {names keys : List String} {bases : List Style}
    (h : ∀ b ∈ bases, b.name ∈ names ∨ b.name ∈ keys) : missing names keys bases = [] := by
  induction bases with
  | nil => rfl
  | cons b bases ih =>
    rw [missing, if_pos (h b List.mem_cons_self)]
    exact ih fun c hc => h c (List.mem_cons_of_mem b hc)

/-- A style that covers the one of its name needs no shadows of it. -/
theorem shadowed_eq_self {bases : List Style} {s : Style}
    (h : ∀ b ∈ bases, s.name = b.name → s.shadowing b = s) : s.shadowed bases = s := by
  unfold shadowed
  split
  · next b hb =>
    have hname : b.name = s.name := by simpa using List.find?_some hb
    exact h b (List.mem_of_find?_eq_some hb) hname.symm
  · rfl

/-- A style that covers another one gets no shadows of it. -/
theorem shadowing_eq_self {own base : Style} (h : own.Covers base) (hown : own.NestedDistinct)
    (hbase : base.NestedDistinct) : own.shadowing base = own := by
  induction h with
  | @mk own base hpresent _ ih =>
    have hmap : own.properties.map (Property.mapStyle (shadowed base.nestedStyles)) =
        own.properties := by
      refine (List.map_congr_left fun p hp => ?_).trans (List.map_id _)
      cases p with
      | leaf => rfl
      | nested k n =>
        have hn : n ∈ own.nestedStyles := mem_nestedStyles.2 ⟨k, hp⟩
        exact congrArg (Property.nested k) <| shadowed_eq_self fun c hc hname =>
          ih c hc n hn hname (hown.nested hn) (hbase.nested hc)
    rw [shadowing_eq hown.self hbase.self, missing_eq_nil hpresent, hmap, List.map_nil,
      List.append_nil]
    cases own
    rfl

/-! ## What shadowing achieves -/

theorem Covers.withHead {own base : Style} (h : own.Covers base) (head : StyleHead) :
    (own.withHead head).Covers base := by
  rw [covers_iff] at h ⊢
  exact h

/-- A shadow covers what it is a shadow of. -/
theorem covers_shadow {s : Style} (hs : s.NestedDistinct) : s.shadow.Covers s := by
  induction s using nestedInduction with
  | step s ih =>
    rw [covers_iff, nestedStyles_shadow]
    refine ⟨fun c hc => .inl ?_, fun c hc n hn hname => ?_⟩
    · rw [List.map_map, List.mem_map]
      exact ⟨c, hc, name_shadow c⟩
    · obtain ⟨m, hm, rfl⟩ := List.mem_map.1 hn
      rw [name_shadow] at hname
      obtain rfl : m = c := eq_of_mem_of_nodup hs.self hm hc hname
      exact ih m hm (hs.nested hm)

/-- After the walk over a base each of its styles has a counterpart or a key in its way. -/
theorem mem_names_or_keys_of_mem (names keys : List String) {bases : List Style} {b : Style}
    (hb : b ∈ bases) :
    b.name ∈ names ++ (missing names keys bases).map name ∨
      b.name ∈ keys ++ (missing names keys bases).map fun c => Property.keyOf c.name := by
  induction bases generalizing names keys with
  | nil => cases hb
  | cons base bases ih =>
    rw [missing]
    split
    · next htaken =>
      rcases List.mem_cons.1 hb with rfl | hb
      · exact htaken.imp (List.mem_append_left _) (List.mem_append_left _)
      · exact ih names keys hb
    · rcases List.mem_cons.1 hb with rfl | hb
      · exact .inl (List.mem_append_right _ List.mem_cons_self)
      · have := ih (names ++ [base.name]) (keys ++ [Property.keyOf base.name]) hb
        rwa [List.append_assoc, List.append_assoc, List.singleton_append,
          List.singleton_append] at this

/-- The nested styles of a style with shadows: its own, then the ones it misses. -/
theorem nestedNames_shadowing {own base : Style} (hown : own.NestedDistinct)
    (hbase : base.NestedDistinct) :
    (own.shadowing base).nestedStyles.map name = own.nestedStyles.map name ++
      (missing (own.nestedStyles.map name) (own.properties.map Property.key)
        base.nestedStyles).map name := by
  rw [nestedStyles_shadowing hown.self hbase.self, List.map_append, List.map_map, List.map_map]
  exact congrArg₂ (· ++ ·) (List.map_congr_left fun n _ => name_shadowed _ n)
    (List.map_congr_left fun b _ => name_shadowIn _ b)

/-- The keys of a style with shadows: its own, then those of the styles it misses. -/
theorem keys_shadowing {own base : Style} (hown : own.NestedDistinct)
    (hbase : base.NestedDistinct) :
    (own.shadowing base).properties.map Property.key = own.properties.map Property.key ++
      (missing (own.nestedStyles.map name) (own.properties.map Property.key)
        base.nestedStyles).map fun b => Property.keyOf b.name := by
  rw [shadowing_eq hown.self hbase.self, properties_mk, List.map_append, keys_map_shadowed,
    List.map_map]
  refine congrArg _ (List.map_congr_left fun b _ => ?_)
  rw [Function.comp_apply, key_ofStyle, name_shadowIn]

/-- A style with shadows of another one covers it. -/
theorem covers_shadowing {own base : Style} (hown : own.NestedDistinct)
    (hbase : base.NestedDistinct) : (own.shadowing base).Covers base := by
  induction base using nestedInduction generalizing own with
  | step base ih =>
    refine .mk (fun c hc => ?_) fun c hc n hn hname => ?_
    · rw [nestedNames_shadowing hown hbase, keys_shadowing hown hbase]
      exact mem_names_or_keys_of_mem _ _ hc
    · rw [nestedStyles_shadowing hown.self hbase.self, List.mem_append] at hn
      rcases hn with hn | hn
      · -- an own nested style, with the shadows of its counterpart
        obtain ⟨m, hm, rfl⟩ := List.mem_map.1 hn
        rw [name_shadowed] at hname
        have hfind : base.nestedStyles.find? (·.name == m.name) = some c := by
          rw [hname]
          exact find?_eq_some_of_nodup hbase.self hc
        rw [shadowed, hfind]
        exact ih c hc (hown.nested hm) (hbase.nested hc)
      · -- a shadow
        obtain ⟨b, hb, rfl⟩ := List.mem_map.1 hn
        rw [name_shadowIn] at hname
        obtain rfl : b = c :=
          eq_of_mem_of_nodup hbase.self ((missing_sublist _ _ _).subset hb) hc hname
        exact (covers_shadow (hbase.nested hc)).withHead _

/-! ## Later passes -/

/-- A style that is sorted, resolved and marked covers what it covered before. -/
theorem Covers.of_outline {own own' base : Style} (h : own.Covers base)
    (hout : own.sorted.outline StyleHead.declared = own'.outline StyleHead.declared) :
    own'.Covers base := by
  induction h generalizing own' with
  | @mk own base hpresent _ ih =>
    have hnested : ∀ n' ∈ own'.nestedStyles, ∃ n ∈ own.nestedStyles,
        n.sorted.outline StyleHead.declared = n'.outline StyleHead.declared := by
      intro n' hn'
      have hmem := List.mem_map_of_mem (f := outline StyleHead.declared) hn'
      rw [← nestedStyles_outline, ← hout, nestedStyles_outline] at hmem
      obtain ⟨m, hm, hmn⟩ := List.mem_map.1 hmem
      obtain ⟨n, hn, rfl⟩ := List.mem_map.1 ((nestedStyles_sorted_perm own).mem_iff.1 hm)
      exact ⟨n, hn, hmn⟩
    refine .mk (fun c hc => (hpresent c hc).imp (fun hmem => ?_) fun hmem => ?_)
      fun c hc n' hn' hname => ?_
    · rw [← nestedNames_eq_of_outline hout, ((nestedStyles_sorted_perm own).map name).mem_iff,
        List.map_map, show name ∘ sorted = name from funext name_sorted]
      exact hmem
    · have hkeys : own'.properties.map Property.key = own.sorted.properties.map Property.key := by
        have hprops := congrArg (fun u : Style => u.properties.map Property.key) hout
        simpa [properties_outline, Function.comp_def] using hprops.symm
      rw [hkeys, properties_sorted, ((List.mergeSort_perm _ keyLE).map Property.key).mem_iff,
        List.map_map]
      simpa [Function.comp_def] using hmem
    · obtain ⟨n, hn, hnn'⟩ := hnested n' hn'
      refine ih c hc n hn ?_ hnn'
      rw [← name_sorted, name_eq_of_outline hnn', hname]

end Style

namespace Stylesheet

open Style (shadowed)

/-- A stylesheet has all that another one declares, at every depth. An animator of a different name
is left alone. -/
structure Covers (own base : Stylesheet) : Prop where
  present : base.styles.map Style.name ⊆ own.styles.map Style.name
  styles : ∀ b ∈ base.styles, ∀ x ∈ own.styles, x.name = b.name → x.Covers b
  hasAnimator : own.animator = none → base.animator = none
  animator : ∀ b ∈ base.animator, ∀ x ∈ own.animator, x.name = b.name → x.Covers b

variable {own base : Stylesheet}

/-- A stylesheet that covers another one gets no shadows of it. -/
theorem Covers.shadowing_eq_self (h : own.Covers base) (hown : (own.styles.map Style.name).Nodup)
    (hownNested : ∀ x ∈ own.allStyles, x.NestedDistinct)
    (hbase : (base.styles.map Style.name).Nodup)
    (hbaseNested : ∀ x ∈ base.allStyles, x.NestedDistinct) : own.shadowing base = own := by
  have hstyles : own.styles.map (shadowed base.styles) = own.styles := by
    refine (List.map_congr_left fun x hx => ?_).trans (List.map_id _)
    exact Style.shadowed_eq_self fun b hb hname =>
      Style.shadowing_eq_self (h.styles b hb x hx hname)
        (hownNested x (List.mem_append_left _ hx)) (hbaseNested b (List.mem_append_left _ hb))
  have hfilter : (base.styles.filter fun b => b.name ∉ own.styles.map Style.name) = [] := by
    refine List.filter_eq_nil_iff.2 fun b hb => ?_
    simpa using h.present (List.mem_map_of_mem hb)
  have hanimator : shadowedAnimator own.animator base.animator own.name = own.animator := by
    cases hb : base.animator with
    | none => cases own.animator <;> rfl
    | some b =>
      cases hx : own.animator with
      | none =>
        rw [h.hasAnimator hx] at hb
        cases hb
      | some x =>
        refine congrArg some (Style.shadowed_eq_self fun c hc hname => ?_)
        rw [List.mem_singleton.1 hc] at hname ⊢
        exact Style.shadowing_eq_self (h.animator b hb x hx hname)
          (hownNested x (List.mem_append_right _ (Option.mem_toList.2 hx)))
          (hbaseNested b (List.mem_append_right _ (Option.mem_toList.2 hb)))
  rw [shadowing_eq hown hbase, hstyles, hfilter, hanimator, List.map_nil, List.append_nil]

/-- Only a stylesheet without an animator and a base without one leave none. -/
theorem eq_none_of_shadowedAnimator {own base : Option Style} {sheet : String}
    (h : shadowedAnimator own base sheet = none) : base = none := by
  cases base with
  | none => rfl
  | some b => cases own <;> cases h

/-- The animator that shadowing leaves covers the one of the base, if it has its name. -/
theorem covers_of_mem_shadowedAnimator {own base : Option Style} {sheet : String} {b x : Style}
    (hown : ∀ y ∈ own, y.NestedDistinct) (hbase : b.NestedDistinct) (hb : b ∈ base)
    (hx : x ∈ shadowedAnimator own base sheet) (hname : x.name = b.name) : x.Covers b := by
  cases hb
  cases own with
  | none =>
    cases hx
    exact (Style.covers_shadow hbase).withHead _
  | some y =>
    cases hx
    rw [Style.name_shadowed] at hname
    rw [Style.shadowed_singleton, if_pos hname]
    exact Style.covers_shadowing (hown y rfl) hbase

/-- A stylesheet with shadows of another one covers it. -/
theorem covers_shadowing (hown : (own.styles.map Style.name).Nodup)
    (hownNested : ∀ x ∈ own.allStyles, x.NestedDistinct)
    (hbase : (base.styles.map Style.name).Nodup)
    (hbaseNested : ∀ x ∈ base.allStyles, x.NestedDistinct) :
    (own.shadowing base).Covers base := by
  rw [shadowing_eq hown hbase]
  constructor
  · intro n hn
    rw [List.map_append, List.mem_append]
    by_cases hmem : n ∈ own.styles.map Style.name
    · left
      rw [List.map_map]
      simpa [Function.comp_def] using hmem
    · obtain ⟨b, hb, rfl⟩ := List.mem_map.1 hn
      right
      refine List.mem_map.2 ⟨_, List.mem_map_of_mem (List.mem_filter.2 ⟨hb, ?_⟩),
        name_shadowOf base.name own.name b⟩
      simpa using hmem
  · intro b hb x hx hname
    have hbn := hbaseNested b (List.mem_append_left _ hb)
    rcases List.mem_append.1 hx with hx | hx
    · obtain ⟨y, hy, rfl⟩ := List.mem_map.1 hx
      rw [Style.name_shadowed] at hname
      have hfind : base.styles.find? (·.name == y.name) = some b := by
        rw [hname]
        exact find?_eq_some_of_nodup hbase hb
      rw [shadowed, hfind]
      exact Style.covers_shadowing (hownNested y (List.mem_append_left _ hy)) hbn
    · obtain ⟨c, hc, rfl⟩ := List.mem_map.1 hx
      rw [name_shadowOf] at hname
      obtain rfl : c = b := eq_of_mem_of_nodup hbase (List.mem_filter.1 hc).1 hb hname
      exact (Style.covers_shadow hbn).withHead _
  · exact eq_none_of_shadowedAnimator
  · intro b hb x hx hname
    exact covers_of_mem_shadowedAnimator
      (fun y hy => hownNested y (List.mem_append_right _ (Option.mem_toList.2 hy)))
      (hbaseNested b (List.mem_append_right _ (Option.mem_toList.2 hb))) hb hx hname

/-- What covers another stylesheet covers it when it is sorted, resolved and marked. -/
theorem Covers.of_outlines {own' : Stylesheet} (h : own.Covers base)
    (hstyles : own'.styles.map (Style.outline StyleHead.declared) =
      own.sorted.styles.map (Style.outline StyleHead.declared))
    (hanimator : own'.animator.map (Style.outline StyleHead.declared) =
      own.sorted.animator.map (Style.outline StyleHead.declared)) : own'.Covers base := by
  have hnames : (own'.styles.map Style.name).Perm (own.styles.map Style.name) := by
    rw [← Suite.map_name_outline, hstyles, Suite.map_name_outline]
    exact own.styleNames_sorted_perm
  have hanimators : own'.animator.map (Style.outline StyleHead.declared) =
      own.animator.map fun x => x.sorted.outline StyleHead.declared := by
    rw [hanimator, sorted, Option.map_map]
    rfl
  constructor
  · exact fun n hn => hnames.mem_iff.2 (h.present hn)
  · intro b hb x hx hname
    have hmem := List.mem_map_of_mem (f := Style.outline StyleHead.declared) hx
    rw [hstyles, sorted, List.map_map] at hmem
    obtain ⟨y, hy, hyx⟩ := List.mem_map.1 hmem
    refine (h.styles b hb y ((List.mergeSort_perm _ _).mem_iff.1 hy) ?_).of_outline hyx
    rw [← Style.name_sorted, Style.name_eq_of_outline hyx, hname]
  · intro hnone
    rw [hnone, Option.map_none] at hanimators
    exact h.hasAnimator (Option.map_eq_none_iff.1 hanimators.symm)
  · intro b hb x hx hname
    rw [Option.mem_def.1 hx, Option.map_some] at hanimators
    obtain ⟨y, hy, hyx⟩ := Option.map_eq_some_iff.1 hanimators.symm
    refine (h.animator b hb y hy ?_).of_outline hyx
    rw [← Style.name_sorted, Style.name_eq_of_outline hyx, hname]

end Stylesheet

end Appearance
