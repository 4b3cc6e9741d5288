import Appearance.Proofs.Nesting
import Appearance.Suite.Shadows

/-!
# What shadowing adds

`Style.shadowing` walks over the base and changes the style step by step. With distinct names the
result has a closed form (`shadowing_eq`): each nested style that the base has too is shadowed in
its place, and the shadows of the missing ones follow behind all properties (`Style.missing`). The
same holds of the styles of a stylesheet (`Stylesheet.shadowing_eq`).

Whatever the names are, what holds of the heads of the style and of those of shadows holds of the
heads of the result (`Heads.shadowing`, `Stylesheet.forall_shadowing`).

The walk looks styles up by their names, and the shadows that it adds are found by later steps.
With distinct names a later step never comes to a style that an earlier one has changed, so all of
them can be taken at once (`map_shadowed_shadowed`).
-/

namespace Appearance

namespace Style

/-- A style with shadows of what the style of its name in `bases` has. -/
def shadowed (bases : List Style) (own : Style) : Style :=
  match bases.find? (·.name == own.name) with
  | some base => own.shadowing base
  | none => own

/-- The styles of a list that get a shadow in a style with the given nested names and keys. Each
shadow takes its name and its key. -/
def missing (names keys : List String) : List Style → List Style
  | [] => []
  | base :: bases =>
    if base.name ∈ names ∨ base.name ∈ keys then missing names keys bases
    else base :: missing (names ++ [base.name]) (keys ++ [Property.keyOf base.name]) bases

/-- The shadow of a style, nested in one with the head `h`. -/
def shadowIn (h : StyleHead) (base : Style) : Style :=
  base.shadow.withHead { base.shadow.head with nestedIn := some h.name, belongsTo := h.belongsTo }

theorem addShadow_eq (s base : Style) :
    s.addShadow base.shadow = mk s.head (s.properties ++ [.ofStyle (shadowIn s.head base)]) := rfl

@[simp] theorem head_shadow (s : Style) : s.shadow.head = shadowHead s.head := by
  obtain ⟨h, ps⟩ := s
  rw [shadow]
  rfl

@[simp] theorem name_shadow (s : Style) : s.shadow.name = s.name := by
  rw [name, head_shadow]
  rfl

@[simp] theorem name_shadowIn (h : StyleHead) (base : Style) : (shadowIn h base).name = base.name :=
  name_shadow base

@[simp] theorem key_ofStyle (s : Style) :
    (Property.ofStyle s).key = Property.keyOf s.name := rfl

/-! ## One level -/

/-- Shadowing leaves the head of a style. -/
theorem head_shadowingEach (bs : List Property) (s : Style) :
    (shadowingEach s bs).head = s.head := by
  induction bs generalizing s with
  | nil => rw [shadowingEach]
  | cons p bs ih =>
    cases p with
    | leaf => rw [shadowingEach, ih]
    | nested k base =>
      rw [shadowingEach]
      split
      · rw [ih, head_mk]
      · split
        · rw [ih, addShadow_eq, head_mk]
        · rw [ih]

@[simp] theorem head_shadowing (s base : Style) : (s.shadowing base).head = s.head := by
  obtain ⟨h, ps⟩ := base
  rw [shadowing, head_shadowingEach]

@[simp] theorem name_shadowing (s base : Style) : (s.shadowing base).name = s.name := by
  rw [name, head_shadowing, name]

@[simp] theorem head_shadowed (bases : List Style) (s : Style) :
    (s.shadowed bases).head = s.head := by
  unfold shadowed
  split
  · rw [head_shadowing]
  · rfl

@[simp] theorem name_shadowed (bases : List Style) (s : Style) :
    (s.shadowed bases).name = s.name := by
  rw [name, head_shadowed, name]

/-- A style that no base is named like is not shadowed. -/
theorem shadowed_of_not_mem {bases : List Style} {s : Style} (h : s.name ∉ bases.map name) :
    s.shadowed bases = s := by
  have : bases.find? (·.name == s.name) = none := by
    rw [List.find?_eq_none]
    intro b hb hbs
    exact h (List.mem_map.2 ⟨b, hb, by simpa using hbs⟩)
  rw [shadowed, this]

/-- With distinct names only one nested style is changed. -/
theorem modifyNested_eq (f : Style → Style) (n : String) {ps : List Property}
    (h : ((ps.filterMap Property.style?).map name).Nodup) :
    modifyNested f n ps =
      ps.map (Property.mapStyle fun u => if u.name = n then f u else u) := by
  induction ps with
  | nil => rfl
  | cons p ps ih =>
    cases p with
    | leaf k v => simpa [modifyNested] using ih h
    | nested k u =>
      replace h : u.name ∉ (ps.filterMap Property.style?).map name ∧
          ((ps.filterMap Property.style?).map name).Nodup := List.nodup_cons.1 h
      rw [modifyNested, List.map_cons, Property.mapStyle_nested]
      split
      · refine congrArg _ ((List.map_congr_left fun p hp => ?_).trans (List.map_id ps)).symm
        cases p with
        | leaf => rfl
        | nested k' w =>
          have hw : w.name ≠ n := fun hn => h.1 <| List.mem_map.2
            ⟨w, List.mem_filterMap.2 ⟨_, hp, rfl⟩,
              by rw [hn]; exact (by assumption : u.name = n).symm⟩
          simp [hw]
      · rw [ih h.2]

/-- A nested style is found if and only if one has the name. -/
theorem isSome_nested?_iff {s : Style} {n : String} :
    (s.nested? n).isSome ↔ n ∈ s.nestedStyles.map name := by
  rw [nested?, List.find?_isSome, List.mem_map]
  simp only [beq_iff_eq]

/-- No property is found if and only if none has the key. -/
theorem isNone_property?_iff {s : Style} {k : String} :
    (s.property? k).isNone ↔ k ∉ s.properties.map Property.key := by
  rw [property?, Option.isNone_iff_eq_none, List.find?_eq_none, List.mem_map]
  simp only [beq_iff_eq, not_exists, not_and]

theorem shadowed_cons (base : Style) (bases : List Style) (u : Style) :
    u.shadowed (base :: bases) = if u.name = base.name then u.shadowing base
      else u.shadowed bases := by
  by_cases h : u.name = base.name
  · simp [shadowed, h]
  · simp [shadowed, h, Ne.symm h]

theorem shadowed_singleton (base u : Style) :
    u.shadowed [base] = if u.name = base.name then u.shadowing base else u :=
  shadowed_cons base [] u

/-- With distinct names the styles of a base can be taken one after the other. -/
theorem shadowed_shadowed {base : Style} {bases : List Style} (h : base.name ∉ bases.map name)
    (u : Style) : (u.shadowed [base]).shadowed bases = u.shadowed (base :: bases) := by
  rw [shadowed_singleton, shadowed_cons]
  split
  · next hu => exact shadowed_of_not_mem (by rw [name_shadowing, hu]; exact h)
  · rfl

theorem modifyNested_shadowing (base : Style) {ps : List Property}
    (h : ((ps.filterMap Property.style?).map name).Nodup) :
    modifyNested (fun u => u.shadowing base) base.name ps =
      ps.map (Property.mapStyle (shadowed [base])) := by
  rw [modifyNested_eq _ _ h, funext (shadowed_singleton base)]

/-- Bases of different names are shadowed in one go. -/
theorem map_shadowed_shadowed {base : Style} {bases : List Style} (h : base.name ∉ bases.map name)
    (ps : List Property) :
    (ps.map (Property.mapStyle (shadowed [base]))).map (Property.mapStyle (shadowed bases)) =
      ps.map (Property.mapStyle (shadowed (base :: bases))) := by
  rw [List.map_map]
  refine List.map_congr_left fun p _ => ?_
  rw [Function.comp_apply, Property.mapStyle_mapStyle]
  exact congrArg (Property.mapStyle · p) (funext (shadowed_shadowed h))

/-- A base without a nested style of its name shadows nothing. -/
theorem map_shadowed_cons {ps : List Property} {base : Style} {bases : List Style}
    (h : base.name ∉ (ps.filterMap Property.style?).map name) :
    ps.map (Property.mapStyle (shadowed (base :: bases))) =
      ps.map (Property.mapStyle (shadowed bases)) := by
  refine List.map_congr_left fun p hp => ?_
  cases p with
  | leaf => rfl
  | nested k u =>
    have hu : u.name ≠ base.name := fun hn =>
      h (List.mem_map.2 ⟨u, List.mem_filterMap.2 ⟨_, hp, rfl⟩, hn⟩)
    rw [Property.mapStyle_nested, Property.mapStyle_nested, shadowed_cons, if_neg hu]

/-- A shadowed style is replaced in its place: the nested names stay. -/
theorem nestedNames_map_shadowed (h : StyleHead) (bases : List Style) (ps : List Property) :
    (mk h (ps.map (Property.mapStyle (shadowed bases)))).nestedStyles.map name =
      (mk h ps).nestedStyles.map name := by
  rw [nestedStyles_map, List.map_map]
  exact List.map_congr_left fun u _ => name_shadowed bases u

/-- A shadowed style is replaced in its place: the keys stay. -/
theorem keys_map_shadowed (bases : List Style) (ps : List Property) :
    (ps.map (Property.mapStyle (shadowed bases))).map Property.key = ps.map Property.key := by
  rw [List.map_map]
  exact List.map_congr_left fun p _ => Property.key_mapStyle _ p

/-- A shadow has its style as the last nested one. -/
theorem nestedNames_append_shadowIn (h : StyleHead) (ps : List Property) (base : Style) :
    (mk h (ps ++ [.ofStyle (shadowIn h base)])).nestedStyles.map name =
      (mk h ps).nestedStyles.map name ++ [base.name] := by
  simp [nestedStyles, Property.ofStyle, Property.ofNested, Property.style?]

/-- The shadow of one base is not shadowed by the bases of other names. -/
theorem mapStyle_shadowed_shadowIn {base : Style} {bases : List Style}
    (h : base.name ∉ bases.map name) (head : StyleHead) :
    (Property.ofStyle (shadowIn head base)).mapStyle (shadowed bases) =
      .ofStyle (shadowIn head base) := by
  rw [Property.ofStyle, Property.ofNested, Property.mapStyle_nested,
    shadowed_of_not_mem (by rw [name_shadowIn]; exact h)]

/-- The walk over the properties of a base, in closed form. -/
theorem shadowingEach_eq {bs : List Property}
    (hb : ((bs.filterMap Property.style?).map name).Nodup) {s : Style}
    (hs : (s.nestedStyles.map name).Nodup) :
    shadowingEach s bs = mk s.head
      (s.properties.map (Property.mapStyle (shadowed (bs.filterMap Property.style?))) ++
        (missing (s.nestedStyles.map name) (s.properties.map Property.key)
          (bs.filterMap Property.style?)).map fun b => .ofStyle (shadowIn s.head b)) := by
  induction bs generalizing s with
  | nil =>
    obtain ⟨h, ps⟩ := s
    have hmap : ps.map (Property.mapStyle (shadowed [])) = ps := by
      refine (List.map_congr_left fun p _ => ?_).trans (List.map_id ps)
      cases p <;> rfl
    simp [shadowingEach, missing, hmap]
  | cons p bs ih =>
    cases p with
    | leaf => rw [shadowingEach, ih hb hs]; rfl
    | nested k base =>
      replace hb : base.name ∉ (bs.filterMap Property.style?).map name ∧
          ((bs.filterMap Property.style?).map name).Nodup := List.nodup_cons.1 hb
      have hcons : (Property.nested k base :: bs).filterMap Property.style? =
          base :: bs.filterMap Property.style? := rfl
      rw [shadowingEach, hcons, missing]
      by_cases hn : base.name ∈ s.nestedStyles.map name
      · -- the style has its own: it is changed in its place, and the names stay
        have hnames : (mk s.head (s.properties.map
            (Property.mapStyle (shadowed [base])))).nestedStyles.map name =
              s.nestedStyles.map name := nestedNames_map_shadowed s.head [base] s.properties
        rw [if_pos (isSome_nested?_iff.2 hn), if_pos (Or.inl hn), modifyNested_shadowing base hs,
          ih hb.2 (by rw [hnames]; exact hs), hnames, head_mk, properties_mk, keys_map_shadowed,
          map_shadowed_shadowed hb.1]
      · rw [if_neg (fun h => hn (isSome_nested?_iff.1 h))]
        have hmap : s.properties.map
            (Property.mapStyle (shadowed (base :: bs.filterMap Property.style?))) =
            s.properties.map (Property.mapStyle (shadowed (bs.filterMap Property.style?))) :=
          map_shadowed_cons hn
        by_cases hk : base.name ∈ s.properties.map Property.key
        · rw [if_neg (fun h => isNone_property?_iff.1 h hk), if_pos (Or.inr hk), ih hb.2 hs, hmap]
        · -- the shadow goes behind the properties and is not shadowed again
          rw [if_pos (isNone_property?_iff.2 hk), if_neg (not_or.2 ⟨hn, hk⟩), addShadow_eq]
          have hnames : (mk s.head (s.properties ++
              [.ofStyle (shadowIn s.head base)])).nestedStyles.map name =
                s.nestedStyles.map name ++ [base.name] :=
            nestedNames_append_shadowIn s.head s.properties base
          rw [ih hb.2 (by rw [hnames]; exact nodup_snoc hs hn),
            hnames, hmap, head_mk, properties_mk, List.map_append, List.append_assoc]
          simp [mapStyle_shadowed_shadowIn hb.1]

/-- A style with shadows, in closed form. -/
theorem shadowing_eq {s base : Style} (hs : (s.nestedStyles.map name).Nodup)
    (hb : (base.nestedStyles.map name).Nodup) :
    s.shadowing base = mk s.head
      (s.properties.map (Property.mapStyle (shadowed base.nestedStyles)) ++
        (missing (s.nestedStyles.map name) (s.properties.map Property.key)
          base.nestedStyles).map fun b => .ofStyle (shadowIn s.head b)) := by
  obtain ⟨h, bs⟩ := base
  rw [shadowing]
  exact shadowingEach_eq hb hs

/-! ## The missing styles -/

/-- The missing styles are styles of the base, in its order. -/
theorem missing_sublist (names keys : List String) (bases : List Style) :
    (missing names keys bases).Sublist bases := by
  induction bases generalizing names keys with
  | nil => exact List.Sublist.refl _
  | cons base bases ih =>
    rw [missing]
    split
    · exact (ih names keys).cons base
    · exact (ih _ _).cons_cons base

/-- No nested style has the name of a missing one. -/
theorem name_not_mem_of_mem_missing {names keys : List String} {bases : List Style} {b : Style}
    (hb : b ∈ missing names keys bases) : b.name ∉ names := by
  induction bases generalizing names keys with
  | nil => cases hb
  | cons base bases ih =>
    rw [missing] at hb
    split at hb
    · exact ih hb
    · next h =>
      rcases List.mem_cons.1 hb with rfl | hb
      · exact fun hn => h (Or.inl hn)
      · exact fun hn => ih hb (List.mem_append_left _ hn)

/-- Only the sets of names and keys matter. -/
theorem missing_congr {names names' keys keys' : List String} (bases : List Style)
    (hn : ∀ n, n ∈ names ↔ n ∈ names') (hk : ∀ k, k ∈ keys ↔ k ∈ keys') :
    missing names keys bases = missing names' keys' bases := by
  induction bases generalizing names names' keys keys' with
  | nil => rfl
  | cons base bases ih =>
    simp only [missing, hn base.name, hk base.name]
    split
    · exact ih hn hk
    · refine congrArg (base :: ·) (ih (fun n => ?_) fun k => ?_)
      · rw [List.mem_append, List.mem_append, hn n]
      · rw [List.mem_append, List.mem_append, hk k]

/-- A style is missing if its name is free and is no key, neither one that is there nor one that
the shadow of another missing style takes. -/
theorem mem_missing {names keys : List String} {bases : List Style} {b : Style} (hb : b ∈ bases)
    (hbases : (bases.map name).Nodup) (hn : b.name ∉ names) (hk : b.name ∉ keys)
    (hother : ∀ c ∈ bases, c.name ≠ b.name → c.name ∉ names → Property.keyOf c.name ≠ b.name) :
    b ∈ missing names keys bases := by
  induction bases generalizing names keys with
  | nil => cases hb
  | cons base bases ih =>
    rw [List.map_cons, List.nodup_cons] at hbases
    rw [missing]
    rcases List.mem_cons.1 hb with rfl | hb
    · rw [if_neg (not_or.2 ⟨hn, hk⟩)]
      exact List.mem_cons_self
    · have hne : base.name ≠ b.name := fun h => hbases.1 (h ▸ List.mem_map_of_mem hb)
      have hrest : ∀ c ∈ bases, c.name ≠ b.name → c.name ∉ names →
          Property.keyOf c.name ≠ b.name := fun c hc => hother c (List.mem_cons_of_mem _ hc)
      split
      · exact ih hb hbases.2 hn hk hrest
      · next h =>
        refine List.mem_cons_of_mem _ (ih hb hbases.2 ?_ ?_ fun c hc hcb hcn => ?_)
        · simpa [hn] using Ne.symm hne
        · have := hother base List.mem_cons_self hne fun hn' => h (Or.inl hn')
          simpa [hk] using Ne.symm this
        · exact hrest c hc hcb fun hn' => hcn (List.mem_append_left _ hn')

/-! ## Whatever the names are -/

/-- After the change each nested style is an old one or a changed one. -/
theorem mem_modifyNested {f : Style → Style} {name : String} {ps : List Property}
    {k : PropertyHead} {n : Style} (h : Property.nested k n ∈ modifyNested f name ps) :
    ∃ m, Property.nested k m ∈ ps ∧ (n = m ∨ n = f m) := by
  induction ps with
  | nil => cases h
  | cons q ps ih =>
    have hrest : Property.nested k n ∈ modifyNested f name ps →
        ∃ m, Property.nested k m ∈ q :: ps ∧ (n = m ∨ n = f m) := fun hmem => by
      obtain ⟨m, hm, hnm⟩ := ih hmem
      exact ⟨m, List.mem_cons_of_mem q hm, hnm⟩
    cases q with
    | leaf k' v =>
      rw [modifyNested, List.mem_cons] at h
      exact hrest (h.resolve_left fun heq => by cases heq)
    | nested k' m =>
      rw [modifyNested] at h
      split at h
      · rcases List.mem_cons.1 h with h | h
        · cases h
          exact ⟨m, List.mem_cons_self, .inr rfl⟩
        · exact ⟨n, List.mem_cons_of_mem _ h, .inl rfl⟩
      · rcases List.mem_cons.1 h with h | h
        · cases h
          exact ⟨n, List.mem_cons_self, .inl rfl⟩
        · exact hrest h

section Heads

variable {p p₀ : StyleHead → Prop} {r r₀ : StyleHead → StyleHead → Prop}
  (hshadow : ∀ h b, p h → b.Heads p₀ r₀ → r h (shadowIn h b).head ∧ (shadowIn h b).Heads p r)

include hshadow

/-- What holds of the heads of a style and of all shadows holds after each step. -/
theorem heads_shadowingEach {bs : List Property} (hbs : ∀ k b, Property.nested k b ∈ bs →
      b.Heads p₀ r₀ ∧ ∀ s : Style, s.Heads p r → (s.shadowing b).Heads p r) {s : Style}
    (hs : s.Heads p r) : (shadowingEach s bs).Heads p r := by
  induction bs generalizing s with
  | nil => rwa [shadowingEach]
  | cons b bs ih =>
    have hrest := fun {s : Style} => @ih (fun k n hn => hbs k n (List.mem_cons_of_mem b hn)) s
    obtain ⟨h, ps⟩ := s
    rw [heads_mk] at hs
    cases b with
    | leaf k v =>
      rw [shadowingEach]
      exact hrest (heads_mk.2 hs)
    | nested k base =>
      obtain ⟨hbase, hshadowing⟩ := hbs k base List.mem_cons_self
      rw [shadowingEach]
      split
      · refine hrest (heads_mk.2 ⟨hs.1, fun k' n hn => ?_⟩)
        obtain ⟨m, hm, rfl | rfl⟩ := mem_modifyNested hn
        · exact hs.2 k' _ hm
        · rw [head_shadowing]
          exact ⟨(hs.2 k' m hm).1, hshadowing m (hs.2 k' m hm).2⟩
      · split
        · rw [addShadow_eq]
          refine hrest (heads_mk.2 ⟨hs.1, fun k' n hn => ?_⟩)
          rcases List.mem_append.1 hn with hn | hn
          · exact hs.2 k' n hn
          · cases List.mem_singleton.1 hn
            exact hshadow h base hs.1 hbase
        · exact hrest (heads_mk.2 hs)

/-- What holds of a style and of all shadows in it, holds of the style with its shadows, whatever
the names are. -/
theorem Heads.shadowing {base s : Style} (hs : s.Heads p r) (hb : base.Heads p₀ r₀) :
    (s.shadowing base).Heads p r := by
  induction base using Style.induction generalizing s with
  | mk head bs ih =>
    rw [Style.shadowing]
    refine heads_shadowingEach hshadow (fun k b hmem => ?_) hs
    have hbase := ((heads_mk.1 hb).2 k b hmem).2
    exact ⟨hbase, fun s hs => ih k b hmem hs hbase⟩

end Heads

end Style

/-! ## Stylesheets -/

namespace Stylesheet

open Style (shadowed)

/-- The shadow of a style of the stylesheet `base` in the stylesheet `own`. -/
def shadowOf (base own : String) (style : Style) : Style :=
  style.shadow.withHead
    { style.shadow.head with belongsTo := some own, extendsSheet := some base }

@[simp] theorem name_shadowOf (base own : String) (style : Style) :
    (shadowOf base own style).name = style.name :=
  Style.name_shadow style

/-- With distinct names the first style of a name is the only one. -/
theorem modifyFirst_eq (f : Style → Style) (n : String) {l : List Style}
    (h : (l.map Style.name).Nodup) :
    modifyFirst f n l = l.map fun u => if u.name = n then f u else u := by
  induction l with
  | nil => rfl
  | cons u l ih =>
    rw [List.map_cons, List.nodup_cons] at h
    rw [modifyFirst, List.map_cons]
    split
    · next hu =>
      refine congrArg _ ((List.map_congr_left fun w hw => ?_).trans (List.map_id l)).symm
      have hw' : w.name ≠ n := fun hn => h.1 (List.mem_map.2 ⟨w, hw, hn.trans hu.symm⟩)
      simp [hw']
    · rw [ih h.2]

/-- A style is found if and only if one has the name. -/
theorem isSome_style?_iff {s : Stylesheet} {n : String} :
    (s.style? n).isSome ↔ n ∈ s.styles.map Style.name := by
  rw [style?, List.find?_isSome, List.mem_map]
  simp only [beq_iff_eq]

/-- Going over the base shadows each style in its place and adds the missing ones behind. -/
theorem foldl_shadowingStyle (base : Stylesheet) {bs : List Style}
    (hb : (bs.map Style.name).Nodup) {s : Stylesheet} (hs : (s.styles.map Style.name).Nodup) :
    bs.foldl (shadowingStyle base) s =
      { s with
        styles := s.styles.map (shadowed bs) ++
          (bs.filter fun b => b.name ∉ s.styles.map Style.name).map
            (shadowOf base.name s.name) } := by
  induction bs generalizing s with
  | nil =>
    have hmap : s.styles.map (shadowed []) = s.styles := List.map_id s.styles
    simp [hmap]
  | cons b bs ih =>
    rw [List.map_cons, List.nodup_cons] at hb
    rw [List.foldl_cons, shadowingStyle]
    by_cases hn : b.name ∈ s.styles.map Style.name
    · -- the style is there: it is changed in its place, and the names stay
      rw [if_pos (isSome_style?_iff.2 hn), modifyFirst_eq _ _ hs]
      have hnames : (s.styles.map (shadowed [b])).map Style.name = s.styles.map Style.name := by
        rw [List.map_map]
        exact List.map_congr_left fun u _ => Style.name_shadowed [b] u
      have hmap : (s.styles.map (shadowed [b])).map (shadowed bs) =
          s.styles.map (shadowed (b :: bs)) := by
        rw [List.map_map]
        exact List.map_congr_left fun u _ => Style.shadowed_shadowed hb.1 u
      rw [← funext (Style.shadowed_singleton b), ih hb.2 (by rw [hnames]; exact hs), hnames,
        List.filter_cons_of_neg (by simpa using hn), hmap]
    · rw [if_neg fun h => hn (isSome_style?_iff.1 h), List.filter_cons_of_pos (by simpa using hn)]
      change bs.foldl (shadowingStyle base)
        { s with styles := s.styles ++ [shadowOf base.name s.name b] } = _
      have hnames : (s.styles ++ [shadowOf base.name s.name b]).map Style.name =
          s.styles.map Style.name ++ [b.name] := by simp
      have hfilter : (bs.filter fun c => c.name ∉ s.styles.map Style.name ++ [b.name]) =
          bs.filter fun c => c.name ∉ s.styles.map Style.name := by
        refine List.filter_congr fun c hc => ?_
        have hcb : c.name ≠ b.name := fun h => hb.1 (h ▸ List.mem_map_of_mem hc)
        simp [hcb]
      have hmap : s.styles.map (shadowed (b :: bs)) = s.styles.map (shadowed bs) := by
        refine List.map_congr_left fun u hu => ?_
        rw [Style.shadowed_cons, if_neg fun h : u.name = b.name => hn (h ▸ List.mem_map_of_mem hu)]
      have hlast : shadowed bs (shadowOf base.name s.name b) = shadowOf base.name s.name b :=
        Style.shadowed_of_not_mem (by rw [name_shadowOf]; exact hb.1)
      rw [ih hb.2 (by rw [hnames]; exact nodup_snoc hs hn),
        hnames, hfilter, hmap, List.map_append, List.append_assoc]
      simp [hlast]

/-- Only styles and the animator are changed. -/
theorem shadowing_eq_with (s base : Stylesheet) :
    s.shadowing base = { s with styles := (s.shadowing base).styles
                                animator := (s.shadowing base).animator } := by
  have hstyle : ∀ s b, shadowingStyle base s b =
      { s with styles := (shadowingStyle base s b).styles } := fun s b => by
    unfold shadowingStyle
    split <;> rfl
  have hfold : ∀ (bs : List Style) (s : Stylesheet), bs.foldl (shadowingStyle base) s =
      { s with styles := (bs.foldl (shadowingStyle base) s).styles } := fun bs => by
    induction bs with
    | nil => exact fun s => rfl
    | cons b bs ih =>
      intro s
      rw [List.foldl_cons, ih (shadowingStyle base s b), hstyle]
  rw [shadowing]
  generalize hs : base.styles.foldl (shadowingStyle base) s = t
  have ht := hfold base.styles s
  rw [hs] at ht
  cases base.animator with
  | none =>
    dsimp only
    rw [ht]
  | some a =>
    simp only [shadowingAnimator]
    split
    · split <;> rw [ht]
    · rw [ht]

/-- The animator that shadowing leaves: that of the stylesheet, with shadows if the base has one of
the same name, or else a shadow of that of the base. -/
def shadowedAnimator (own base : Option Style) (sheet : String) : Option Style :=
  match own, base with
  | own, none => own
  | some own, some base => some (own.shadowed [base])
  | none, some base =>
    some (base.shadow.withHead { base.shadow.head with belongsTo := some sheet })

/-- A stylesheet with shadows, in closed form. -/
theorem shadowing_eq {s base : Stylesheet} (hs : (s.styles.map Style.name).Nodup)
    (hb : (base.styles.map Style.name).Nodup) :
    s.shadowing base =
      { s with
        styles := s.styles.map (shadowed base.styles) ++
          (base.styles.filter fun b => b.name ∉ s.styles.map Style.name).map
            (shadowOf base.name s.name)
        animator := shadowedAnimator s.animator base.animator s.name } := by
  rw [shadowing, foldl_shadowingStyle base hb hs]
  cases hba : base.animator with
  | none => cases s.animator <;> rfl
  | some b =>
    simp only [shadowingAnimator]
    cases s.animator with
    | none => rfl
    | some own =>
      simp only [shadowedAnimator, Style.shadowed_cons]
      split <;> rfl

/-- What holds of the styles of a stylesheet, also with the shadows of one of the base, and of the
shadows of those of the base, holds of the styles of the stylesheet with its shadows. -/
theorem forall_shadowing {t b : Stylesheet} {P : Style → Prop}
    (hshadowing : ∀ c ∈ b.allStyles, ∀ x, P x → P (x.shadowing c))
    (hshadow : ∀ c ∈ b.allStyles, ∀ base, P (c.shadow.withHead
      { c.shadow.head with belongsTo := some t.name, extendsSheet := base }))
    (ht : ∀ x ∈ t.allStyles, P x) : ∀ x ∈ (t.shadowing b).allStyles, P x := by
  rw [allStyles, List.forall_mem_append] at ht
  have hfirst : ∀ c ∈ b.allStyles, ∀ l : List Style, (∀ x ∈ l, P x) →
      ∀ x ∈ modifyFirst (fun own => own.shadowing c) c.name l, P x := fun c hc l => by
    induction l with
    | nil => exact fun _ x hx => by cases hx
    | cons y l ih =>
      intro hl
      rw [List.forall_mem_cons] at hl
      rw [modifyFirst]
      split
      · exact List.forall_mem_cons.2 ⟨hshadowing c hc y hl.1, hl.2⟩
      · exact List.forall_mem_cons.2 ⟨hl.1, ih hl.2⟩
  have hfold : ∀ bs ⊆ b.styles, ∀ u : Stylesheet, u.name = t.name → (∀ x ∈ u.styles, P x) →
      (∀ x ∈ (bs.foldl (shadowingStyle b) u).styles, P x) ∧
        (bs.foldl (shadowingStyle b) u).name = t.name ∧
        (bs.foldl (shadowingStyle b) u).animator = u.animator := fun bs => by
    induction bs with
    | nil => exact fun _ u hname hu => ⟨hu, hname, rfl⟩
    | cons c bs ih =>
      intro hbs u hname hu
      obtain ⟨hc, hbs⟩ := List.cons_subset.1 hbs
      have hmem : c ∈ b.allStyles := List.mem_append_left _ hc
      rw [List.foldl_cons, shadowingStyle]
      split
      · exact ih hbs _ hname (hfirst c hmem _ hu)
      · refine ih hbs _ hname (List.forall_mem_append.2 ⟨hu, List.forall_mem_singleton.2 ?_⟩)
        rw [hname]
        exact hshadow c hmem _
  obtain ⟨hstyles, hname, hanimator⟩ := hfold b.styles (List.Subset.refl _) t rfl ht.1
  rw [allStyles, List.forall_mem_append, shadowing]
  cases ha : b.animator with
  | none => exact ⟨hstyles, by rw [hanimator]; exact ht.2⟩
  | some a =>
    have hmem : a ∈ b.allStyles := List.mem_append_right _ (Option.mem_toList.2 ha)
    simp only [shadowingAnimator]
    split
    · next own hown =>
      rw [hanimator] at hown
      have hall := ht.2 own (Option.mem_toList.2 hown)
      split
      · exact ⟨hstyles, List.forall_mem_singleton.2 (hshadowing a hmem own hall)⟩
      · exact ⟨hstyles, by rw [hanimator]; exact ht.2⟩
    · refine ⟨hstyles, List.forall_mem_singleton.2 ?_⟩
      rw [hname]
      exact hshadow a hmem _

end Stylesheet

end Appearance
