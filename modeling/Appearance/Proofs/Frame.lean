import Appearance.Proofs.CompleteShadows
import Appearance.Proofs.Redirects

/-!
# What resolution adds

Resolution rebuilds the stylesheets: styles get shadows, are sorted, have their redirects resolved
and are marked, and each pass puts the lists of styles and properties together anew. `Grown` says
of such a list that it has every old element once, changed as allowed, and what the others are.
`Style.GrowsBy` says this at every depth of a style, and `Stylesheet.GrowsBy` of a stylesheet.

Every pass lets styles grow, and growth is transitive as long as what was added stays what it is.
So a prepared suite has all that was declared (`Prepares.keeps_declarations`): the base has nothing
else, and the other stylesheets have shadows besides, which are without values.
-/

namespace Appearance

/-! ## Lists -/

section Grown

variable {α : Type}

/-- The second list has the elements of the first, changed as `r` allows, and others of which `p`
holds, in any order. -/
inductive Grown (r : α → α → Prop) (p : α → Prop) : List α → List α → Prop
  | mk {l m : List α} (own added : List α) : List.Forall₂ r l own → (∀ x ∈ added, p x) →
    m.Perm (own ++ added) → Grown r p l m

variable {r : α → α → Prop} {p : α → Prop} {l m n : List α}

theorem Grown.of_forall₂ (h : List.Forall₂ r l m) : Grown r p l m :=
  .mk m [] h (by simp) (by simp)

theorem Grown.of_forall₂_perm {own : List α} (h : List.Forall₂ r l own) (hm : m.Perm own) :
    Grown r p l m :=
  .mk own [] h (by simp) (by simpa using hm)

theorem Grown.refl (h : ∀ a ∈ l, r a a) : Grown r p l l :=
  .of_forall₂ (List.forall₂_same.2 h)

/-- A new element at the end. -/
theorem Grown.append (h : ∀ a ∈ l, r a a) {a : α} (ha : p a) : Grown r p l (l ++ [a]) :=
  .mk l [a] (List.forall₂_same.2 h) (by simpa using ha) (.refl _)

/-- Growth in two steps, if added elements may grow as well. -/
theorem Grown.trans (h : Grown r p l m) (h' : Grown r p m n)
    (hr : ∀ a ∈ l, ∀ b c, r a b → r b c → r a c) (hp : ∀ a b, p a → r a b → p b) :
    Grown r p l n := by
  obtain ⟨_, _, hown, hadded, hperm⟩ := h
  obtain ⟨own', added', hown', hadded', hperm'⟩ := h'
  -- the elements of the middle list, first the old ones and then what was added, in the last one
  obtain ⟨w, hw, hwperm⟩ := List.perm_comp_forall₂ hperm.symm hown'
  obtain ⟨own, added, rfl, hfirst, hsecond⟩ := exists_of_forall₂_append hw
  have hall : ∀ b ∈ added ++ added', p b := by
    intro b hb
    rcases List.mem_append.1 hb with hb | hb
    · obtain ⟨a, ha, hab⟩ := exists_mem_of_forall₂ hsecond hb
      exact hp a b (hadded a ha) hab
    · exact hadded' b hb
  have hn : n.Perm (own ++ (added ++ added')) := by
    rw [← List.append_assoc]
    exact hperm'.trans (hwperm.symm.append_right added')
  exact .mk own (added ++ added') (forall₂_trans hown hfirst hr) hall hn

/-- Elements that are listed differently by their order only are so together. -/
theorem flatMap_perm_of_forall₂ {β : Type} {f : α → List β} (h : List.Forall₂ r l m)
    (hf : ∀ a ∈ l, ∀ b, r a b → (f b).Perm (f a)) : (m.flatMap f).Perm (l.flatMap f) := by
  induction h with
  | nil => exact .refl _
  | @cons a b l m hab _ ih =>
    rw [List.flatMap_cons, List.flatMap_cons]
    exact (hf a List.mem_cons_self b hab).append
      (ih fun a ha => hf a (List.mem_cons_of_mem _ ha))

/-- What is listed of each element stays, up to order, if nothing is listed of what was added. -/
theorem Grown.flatMap_perm {β : Type} {f : α → List β} (h : Grown r p l m)
    (hr : ∀ a ∈ l, ∀ b, r a b → (f b).Perm (f a)) (hp : ∀ a, p a → f a = []) :
    (m.flatMap f).Perm (l.flatMap f) := by
  obtain ⟨own, added, hown, hadded, hperm⟩ := h
  have hnil : added.flatMap f = [] := List.flatMap_eq_nil_iff.2 fun a ha => hp a (hadded a ha)
  have hflat := hperm.flatMap_right f
  rw [List.flatMap_append, hnil, List.append_nil] at hflat
  exact hflat.trans (flatMap_perm_of_forall₂ hown hr)

end Grown

/-! ## Styles -/

/-- The key and the value of a property stay, up to resolved redirects; `r` tells what may become of
a nested style. -/
inductive Property.Keeps (r : Style → Style → Prop) : Property → Property → Prop
  | leaf {h k : PropertyHead} {v u : Value} : k.key = h.key → u.plain = v.plain →
    Keeps r (.leaf h v) (.leaf k u)
  | nested {h k : PropertyHead} {x y : Style} : k.key = h.key → r x y →
    Keeps r (.nested h x) (.nested k y)

/-- The property is a nested style of which `p` holds. -/
def Property.IsNested (p : Style → Prop) (q : Property) : Prop := ∃ x ∈ q.style?, p x

/-- The second style has all that the first one declares, and nested styles besides, of which `p`
holds. -/
inductive Style.GrowsBy (p : Style → Prop) : Style → Style → Prop
  | mk {h k : StyleHead} {ps qs : List Property} (own added : List Property) :
    k.declared = h.declared →
    List.Forall₂ (Property.Keeps (GrowsBy p)) ps own → (∀ q ∈ added, q.IsNested p) →
    qs.Perm (own ++ added) → GrowsBy p (mk h ps) (mk k qs)

theorem Property.Keeps.refl {r : Style → Style → Prop} {q : Property}
    (h : ∀ k n, q = .nested k n → r n n) : q.Keeps r q := by
  cases q with
  | leaf k v => exact .leaf rfl rfl
  | nested k n => exact .nested rfl (h k n rfl)

namespace Style

variable {p : Style → Prop}

theorem growsBy_mk {h k : StyleHead} {ps qs : List Property} :
    (mk h ps).GrowsBy p (mk k qs) ↔ k.declared = h.declared ∧
      Grown (Property.Keeps (GrowsBy p)) (Property.IsNested p) ps qs :=
  ⟨fun | .mk own added hhead hown hadded hperm => ⟨hhead, own, added, hown, hadded, hperm⟩,
    fun ⟨hhead, own, added, hown, hadded, hperm⟩ => .mk own added hhead hown hadded hperm⟩

theorem GrowsBy.refl (s : Style) : s.GrowsBy p s := by
  induction s using Style.induction with
  | mk h ps ih =>
    refine growsBy_mk.2 ⟨rfl, .refl fun q hq => .refl fun k n hkn => ?_⟩
    subst hkn
    exact ih k n hq

/-- Growth goes on, if what was added stays what it is. -/
theorem GrowsBy.trans (hp : ∀ x y, p x → x.GrowsBy p y → p y) {s t u : Style}
    (h : s.GrowsBy p t) (h' : t.GrowsBy p u) : s.GrowsBy p u := by
  induction s using Style.induction generalizing t u with
  | mk head ps ih =>
    obtain ⟨k, qs⟩ := t
    obtain ⟨l, rs⟩ := u
    rw [growsBy_mk] at h h' ⊢
    refine ⟨h'.1.trans h.1, h.2.trans h'.2 (fun a ha b c hab hbc => ?_) ?_⟩
    · cases hab with
      | leaf hkey hvalue =>
        cases hbc with
        | leaf hkey' hvalue' => exact .leaf (hkey'.trans hkey) (hvalue'.trans hvalue)
      | nested hkey hstyle =>
        cases hbc with
        | nested hkey' hstyle' => exact .nested (hkey'.trans hkey) (ih _ _ ha hstyle hstyle')
    · rintro a b ⟨x, hx, hpx⟩ hab
      cases hab with
      | leaf => cases hx
      | nested _ hstyle =>
        cases hx
        exact ⟨_, rfl, hp _ _ hpx hstyle⟩

/-! ## What the passes let grow -/

/-- Sorting adds nothing. -/
theorem growsBy_sorted (s : Style) : s.GrowsBy p s.sorted := by
  induction s using Style.induction with
  | mk h ps ih =>
    rw [sorted_mk]
    refine growsBy_mk.2 ⟨rfl, .of_forall₂_perm ?_ (List.mergeSort_perm _ _)⟩
    rw [List.forall₂_map_right_iff, List.forall₂_same]
    intro q hq
    cases q with
    | leaf k v => exact .leaf rfl rfl
    | nested k n => exact .nested rfl (ih k n hq)

/-- A style of the same outline and the same values, up to resolved redirects. -/
theorem growsBy_of_same {s t : Style}
    (houtline : t.outline StyleHead.declared = s.outline StyleHead.declared)
    (hcontents : t.contents Value.plain = s.contents Value.plain) : s.GrowsBy p t := by
  induction s using Style.induction generalizing t with
  | mk h ps ih =>
    obtain ⟨k, qs⟩ := t
    rw [outline_mk, outline_mk, mk.injEq] at houtline
    simp only [contents, contentsEach_eq, mk.injEq] at hcontents
    refine growsBy_mk.2 ⟨houtline.1, .of_forall₂ ?_⟩
    refine forall₂_imp_of_mem (forall₂_of_map_eq houtline.2 hcontents.2) fun a ha b _ hab => ?_
    obtain ⟨hout, hcont⟩ := hab
    cases a <;> cases b <;>
      simp only [Property.outlineBy, Property.contentsBy, Property.leaf.injEq,
        Property.nested.injEq, PropertyHead.mk.injEq, reduceCtorEq] at hout hcont
    case leaf.leaf => exact .leaf hout.1.1 hcont.2
    case nested.nested => exact .nested hout.1.1 (ih _ _ ha hout.2 hcont.2)

/-! ## Shadows -/

/-- The style is not declared and without values, as is all that is nested in it. -/
def IsShadow (s : Style) : Prop :=
  s.All fun u => u.head.isInjected = true ∧ ∀ q ∈ u.properties, q.value? = none

theorem isShadow_mk {h : StyleHead} {ps : List Property} :
    (mk h ps).IsShadow ↔ h.isInjected = true ∧ ∀ q ∈ ps, q.IsNested IsShadow := by
  rw [IsShadow, all_mk]
  constructor
  · rintro ⟨⟨hinjected, hvalue⟩, hnested⟩
    refine ⟨hinjected, fun q hq => ?_⟩
    cases q with
    | leaf k v => cases hvalue _ hq
    | nested k n => exact ⟨n, rfl, hnested k n hq⟩
  · rintro ⟨hinjected, hps⟩
    refine ⟨⟨hinjected, fun q hq => ?_⟩, fun k n hn => ?_⟩
    · obtain ⟨n, hn, -⟩ := hps q hq
      obtain ⟨k, rfl⟩ := Property.style?_eq_some.1 hn
      rfl
    · obtain ⟨n', hn', hshadow⟩ := hps _ hn
      cases hn'
      exact hshadow

theorem IsShadow.withHead {s : Style} (hs : s.IsShadow) {h : StyleHead}
    (hh : h.isInjected = true) : (s.withHead h).IsShadow := by
  obtain ⟨sh, ps⟩ := s
  exact isShadow_mk.2 ⟨hh, (isShadow_mk.1 hs).2⟩

/-- The shadow of a style is one at every depth. -/
theorem isShadow_shadow (s : Style) : s.shadow.IsShadow := by
  induction s using Style.induction with
  | mk h ps ih =>
    rw [shadow, shadowEach_eq, isShadow_mk]
    refine ⟨rfl, fun q hq => ?_⟩
    obtain ⟨n, hn, rfl⟩ := List.mem_map.1 hq
    obtain ⟨a, ha, hstyle⟩ := List.mem_filterMap.1 hn
    obtain ⟨k, rfl⟩ := Property.style?_eq_some.1 hstyle
    exact ⟨n.shadow, rfl, ih k n ha⟩

/-- A shadow that grows by shadows is one. -/
theorem IsShadow.growsBy {s t : Style} (hs : s.IsShadow) (h : s.GrowsBy IsShadow t) :
    t.IsShadow := by
  induction s using Style.induction generalizing t with
  | mk head ps ih =>
    obtain ⟨own, added, hhead, hown, hadded, hperm⟩ := h
    rw [isShadow_mk] at hs ⊢
    refine ⟨(congrArg StyleHead.isInjected hhead).trans hs.1, fun q hq => ?_⟩
    rcases List.mem_append.1 (hperm.mem_iff.1 hq) with hq | hq
    · obtain ⟨a, ha, haq⟩ := exists_mem_of_forall₂ hown hq
      obtain ⟨n, hn, hshadow⟩ := hs.2 a ha
      cases haq with
      | leaf => cases hn
      | nested _ hstyle =>
        cases hn
        exact ⟨_, rfl, ih _ _ ha hshadow hstyle⟩
    · exact hadded q hq

/-- A nested style may grow, and all others stay. -/
theorem growsBy_modifyNested {f : Style → Style} (hf : ∀ x : Style, x.GrowsBy p (f x)) (n : String)
    (ps : List Property) :
    List.Forall₂ (Property.Keeps (GrowsBy p)) ps (modifyNested f n ps) := by
  have hsame : ∀ qs : List Property, List.Forall₂ (Property.Keeps (GrowsBy p)) qs qs := fun qs =>
    List.forall₂_same.2 fun q _ => .refl fun _ m _ => .refl m
  induction ps with
  | nil => exact .nil
  | cons a ps ih =>
    cases a with
    | leaf k v => exact .cons (.leaf rfl rfl) ih
    | nested k m =>
      rw [modifyNested]
      split
      · exact .cons (.nested rfl (hf m)) (hsame ps)
      · exact .cons (.nested rfl (.refl m)) ih

theorem growsBy_addShadow (s base : Style) : s.GrowsBy IsShadow (s.addShadow base.shadow) := by
  obtain ⟨h, ps⟩ := s
  refine growsBy_mk.2 ⟨rfl, .append (fun q _ => .refl fun _ n _ => .refl n) ⟨_, rfl, ?_⟩⟩
  exact base.isShadow_shadow.withHead (by rw [head_shadow]; rfl)

/-- Shadowing property by property lets a style grow by shadows. -/
theorem growsBy_shadowingEach {bs : List Property}
    (ih : ∀ k n, Property.nested k n ∈ bs → ∀ s : Style, s.GrowsBy IsShadow (s.shadowing n))
    (s : Style) : s.GrowsBy IsShadow (shadowingEach s bs) := by
  induction bs generalizing s with
  | nil =>
    rw [shadowingEach]
    exact .refl s
  | cons b bs ihbs =>
    have hrest := ihbs fun k n hn => ih k n (List.mem_cons_of_mem b hn)
    have htrans := @GrowsBy.trans IsShadow fun _ _ => IsShadow.growsBy
    cases b with
    | leaf k v =>
      rw [shadowingEach]
      exact hrest s
    | nested k base =>
      rw [shadowingEach]
      split
      · obtain ⟨h, ps⟩ := s
        refine htrans (growsBy_mk.2 ⟨rfl, .of_forall₂ ?_⟩) (hrest _)
        exact growsBy_modifyNested (ih k base List.mem_cons_self) base.name ps
      · split
        · exact htrans (growsBy_addShadow s base) (hrest _)
        · exact hrest s

/-- Shadowing adds shadows, whatever the base is. -/
theorem growsBy_shadowing (s base : Style) : s.GrowsBy IsShadow (s.shadowing base) := by
  induction base using Style.induction generalizing s with
  | mk h bs ih =>
    rw [shadowing]
    exact growsBy_shadowingEach ih s

end Style

/-! ## Stylesheets -/

namespace Stylesheet

/-- The second stylesheet has all that the first one declares, and styles besides, of which `p`
holds. -/
structure GrowsBy (p : Style → Prop) (t u : Stylesheet) : Prop where
  eq : u = { t with styles := u.styles, animator := u.animator }
  styles : Grown (Style.GrowsBy p) p t.styles u.styles
  animator : Grown (Style.GrowsBy p) p t.animator.toList u.animator.toList

variable {p : Style → Prop} {t u w : Stylesheet}

theorem GrowsBy.refl (t : Stylesheet) : t.GrowsBy p t :=
  ⟨rfl, .refl fun x _ => .refl x, .refl fun x _ => .refl x⟩

theorem GrowsBy.trans (hp : ∀ x y : Style, p x → x.GrowsBy p y → p y) (h : t.GrowsBy p u)
    (h' : u.GrowsBy p w) : t.GrowsBy p w where
  eq := by rw [h'.eq, h.eq]
  styles := h.styles.trans h'.styles (fun _ _ _ _ => Style.GrowsBy.trans hp) hp
  animator := h.animator.trans h'.animator (fun _ _ _ _ => Style.GrowsBy.trans hp) hp

/-- Sorting a stylesheet adds nothing. -/
theorem growsBy_sorted (t : Stylesheet) : t.GrowsBy p t.sorted where
  eq := rfl
  styles := by
    refine .of_forall₂_perm ?_ ((List.mergeSort_perm _ _).map Style.sorted)
    exact List.forall₂_map_right_iff.2 (List.forall₂_same.2 fun x _ => x.growsBy_sorted)
  animator := by
    rw [sorted]
    cases t.animator with
    | none => exact .of_forall₂ .nil
    | some a => exact .of_forall₂ (.cons a.growsBy_sorted .nil)

/-! ### Shadows -/

/-- One style may grow, and all others stay. -/
theorem growsBy_modifyFirst {f : Style → Style} (hf : ∀ x : Style, x.GrowsBy p (f x)) (n : String)
    (l : List Style) : List.Forall₂ (Style.GrowsBy p) l (modifyFirst f n l) := by
  induction l with
  | nil => exact .nil
  | cons x l ih =>
    rw [modifyFirst]
    split
    · exact .cons (hf x) (List.forall₂_same.2 fun y _ => .refl y)
    · exact .cons (.refl x) ih

/-- A stylesheet grows by shadows for each style of the base. -/
theorem growsBy_shadowingStyle (base t : Stylesheet) (x : Style) :
    t.GrowsBy Style.IsShadow (shadowingStyle base t x) := by
  rw [shadowingStyle]
  split
  · exact ⟨rfl, .of_forall₂ (growsBy_modifyFirst (fun own => own.growsBy_shadowing x) _ _),
      .refl fun y _ => .refl y⟩
  · refine ⟨rfl, .append (fun y _ => .refl y) ?_, .refl fun y _ => .refl y⟩
    exact x.isShadow_shadow.withHead (by rw [Style.head_shadow]; rfl)

/-- A stylesheet grows by shadows when its animator is shadowed. -/
theorem growsBy_shadowingAnimator (t : Stylesheet) (x : Style) :
    t.GrowsBy Style.IsShadow (t.shadowingAnimator x) := by
  rw [shadowingAnimator]
  cases ha : t.animator with
  | none =>
    refine ⟨rfl, .refl fun y _ => .refl y, ?_⟩
    rw [ha]
    exact Grown.append (by simp)
      (x.isShadow_shadow.withHead (by rw [Style.head_shadow]; rfl))
  | some own =>
    dsimp only
    split
    · refine ⟨rfl, .refl fun y _ => .refl y, ?_⟩
      rw [ha]
      exact .of_forall₂ (.cons (own.growsBy_shadowing x) .nil)
    · exact .refl t

/-- Shadowing adds shadows, whatever the base is. -/
theorem growsBy_shadowing (t base : Stylesheet) : t.GrowsBy Style.IsShadow (t.shadowing base) := by
  have htrans := @GrowsBy.trans Style.IsShadow
  have hfold : ∀ (bs : List Style) (t : Stylesheet),
      t.GrowsBy Style.IsShadow (bs.foldl (shadowingStyle base) t) := fun bs => by
    induction bs with
    | nil => exact .refl
    | cons b bs ih =>
      intro t
      exact htrans (fun _ _ => Style.IsShadow.growsBy) (growsBy_shadowingStyle base t b) (ih _)
  rw [shadowing]
  cases base.animator with
  | none => exact hfold base.styles t
  | some a =>
    exact htrans (fun _ _ => Style.IsShadow.growsBy) (hfold base.styles t)
      (growsBy_shadowingAnimator _ a)

end Stylesheet

/-! ## Resolution -/

namespace Suite

variable {settings : Settings} {s l : Suite} {id : SheetId} {p : Style → Prop}

/-- A stylesheet of the same outlines and the same values, up to resolved redirects. -/
theorem growsBy_of_same {t u : Stylesheet}
    (heq : u = { t with styles := u.styles, animator := u.animator })
    (hstyles : u.styles.map (Style.outline StyleHead.declared) =
      t.styles.map (Style.outline StyleHead.declared))
    (hanimator : u.animator.map (Style.outline StyleHead.declared) =
      t.animator.map (Style.outline StyleHead.declared))
    (hcontents : SameContents Value.plain u t) : t.GrowsBy p u where
  eq := heq
  styles := .of_forall₂ <| (forall₂_of_map_eq hstyles hcontents.styles).imp fun _ _ h =>
    Style.growsBy_of_same h.1 h.2
  animator := by
    have hcontents := hcontents.animator
    cases ht : t.animator <;> cases hu : u.animator <;>
      simp only [ht, hu, Option.map_some, Option.map_none, Option.some.injEq, reduceCtorEq]
        at hanimator hcontents
    · exact .of_forall₂ .nil
    · exact .of_forall₂ (.cons (Style.growsBy_of_same hanimator hcontents) .nil)

/-- Redirects and marking add nothing. -/
theorem growsBy_resolved (hid : id ∈ s.ids) {r : Stylesheet} (h : s.resolved settings id = .ok r)
    (hd : ((s.completed id).styles.map Style.name).Nodup) : (s.completed id).GrowsBy p r := by
  obtain ⟨redirected, hr, hsame, hdistinct, hm⟩ := resolved_eq_marked hid h hd
  have hu : (s.setSheet redirected id).sheet id = redirected := sheet_setSheet_self _ hid
  have hnames : (((s.setSheet redirected id).sheet id).styles.map Style.name).Nodup := by rwa [hu]
  obtain ⟨done, hmarked⟩ := withInheritance_ok hm hnames
  have hcontents := SameContents.withInheritance (g := Value.plain) hm hnames
  have hplain := SameContents.withRedirects hr
  have heq := hmarked.eq
  have hstyles := hmarked.styles_outline
  have hanimator := hmarked.animator_outline
  rw [hu] at hcontents heq hstyles hanimator
  rw [sheet_setSheet_self _ hid] at hplain
  rw [hsame.styles] at hstyles
  rw [hsame.animator] at hanimator
  exact growsBy_of_same (by rw [heq, hsame.eq]) hstyles hanimator (hcontents.trans hplain)

/-- What shadowing lets grow has grown as much after resolution. -/
theorem Prepares.growsBy_of_shadowedIn (h : Prepares settings s l)
    (hd : ∀ t ∈ s.registered, (t.styles.map Style.name).Nodup) (hid : id ∈ l.ids)
    (hp : ∀ x y : Style, p x → x.GrowsBy p y → p y)
    (hshadowed : (l.sheet id).GrowsBy p (l.shadowedIn (l.prepared settings).1 id)) :
    (l.sheet id).GrowsBy p ((l.prepared settings).1.sheet id) := by
  obtain ⟨t, ht⟩ := h.exists_stage hid
  have hid' : id ∈ t.ids := by
    rw [ids, ht.length_eq]
    exact hid
  have hresolved := growsBy_resolved (p := p) hid' ht.resolved_eq (h.styleNames_completed hd hid ht)
  rw [ht.completed_eq] at hresolved
  exact (hshadowed.trans hp (Stylesheet.growsBy_sorted _)).trans hp hresolved

/-- Preparation adds nothing to the base and shadows to the other stylesheets, and all that was
declared is there as it was; the imported stylesheet stays as it is. -/
theorem Prepares.keeps_declarations (h : Prepares settings s l)
    (hd : ∀ t ∈ s.registered, (t.styles.map Style.name).Nodup) :
    (l.prepared settings).1.imported = l.imported ∧
      (l.prepared settings).1.registered.length = l.registered.length ∧
      ∀ id ∈ l.ids,
        (l.superclass? id = none →
          (l.sheet id).GrowsBy (fun _ => False) ((l.prepared settings).1.sheet id)) ∧
        ∀ b, l.superclass? id = some b →
          (l.sheet id).GrowsBy Style.IsShadow ((l.prepared settings).1.sheet id) := by
  refine ⟨h.kept.imported_eq, h.kept.length_eq, fun id hid => ⟨fun hb => ?_, fun b hb => ?_⟩⟩
  · refine h.growsBy_of_shadowedIn hd hid (fun _ _ hx _ => hx.elim) ?_
    rw [shadowedIn, hb]
    exact .refl _
  · refine h.growsBy_of_shadowedIn hd hid (fun _ _ => Style.IsShadow.growsBy) ?_
    rw [shadowedIn, hb]
    exact Stylesheet.growsBy_shadowing _ _

/-- A theme grows by shadows where the base has more than it. -/
theorem keeps_declarations_nestedTheme :
    (nestedTheme.sheet (.registered 0)).GrowsBy (fun _ => False)
        (({ nestedTheme with base? := some 0 }.prepared .standard).1.sheet (.registered 0)) ∧
      (nestedTheme.sheet (.registered 1)).GrowsBy Style.IsShadow
        (({ nestedTheme with base? := some 0 }.prepared .standard).1.sheet (.registered 1)) := by
  obtain ⟨-, -, h⟩ := Prepares.keeps_declarations prepares_nestedTheme (by decide)
  have hids : ({ nestedTheme with base? := some 0 } : Suite).ids =
      [.registered 0, .registered 1] := rfl
  rw [hids] at h
  exact ⟨(h (.registered 0) (by simp)).1 rfl, (h (.registered 1) (by simp)).2 _ rfl⟩

end Suite

end Appearance
