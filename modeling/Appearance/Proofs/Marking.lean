import Appearance.Proofs.ExtensionOrder
import Appearance.Proofs.Outline
import Mathlib.Data.List.Induction

/-!
# Marking, one style at a time

`Suite.withInheritance` marks the styles of a stylesheet in an order in which an extended style
comes first, and the animator at the end. `Suite.Marked` says of a list of marked styles that it
came about in this way; every later result is an induction over it. What marking one style can do
is `inheritingStyle_ok`, and what comes of a stylesheet is `withInheritance_ok`.

`Marked` has one constructor for each style that is done, and it records what marking looked at:
the styles behind it, the style as it was, and the ancestors that were found. The list is kept with
the latest first, since that is how `Suite.inheritingStyles` finds a style of a name. At the end
styles are collected in their old places, so `collected` has to say that each name occurs once
among those that are done. What a stylesheet declares is not touched, which is expressed by
outlines.
-/

namespace Appearance

namespace Style

/-- The style as one that derives from an ancestor. -/
def derived (style : Style) (a : Ancestor) : Style :=
  style.withHead { style.head with
    inherits := some a.path
    accessorType := if style.head.isOverride then some a.accessorType
      else style.head.accessorType }

@[simp] theorem head_withHead (s : Style) (h : StyleHead) : (s.withHead h).head = h := rfl

/-- A change of what marking fills in is none of the outline. -/
theorem outline_withHead {s : Style} {h : StyleHead} (hh : h.declared = s.head.declared) :
    (s.withHead h).outline StyleHead.declared = s.outline StyleHead.declared := by
  obtain ⟨sh, ps⟩ := s
  rw [withHead, outline, outline, hh]
  rfl

theorem outline_derived (s : Style) (a : Ancestor) :
    (s.derived a).outline StyleHead.declared = s.outline StyleHead.declared :=
  outline_withHead rfl

end Style

namespace Suite

variable {s : Suite} {settings : Settings} {id : SheetId}

theorem outline_overriding (x : Style) :
    (s.overriding id x).outline StyleHead.declared = x.outline StyleHead.declared :=
  Style.outline_withHead rfl

/-! ## One style -/

/-- An heir derives from the first ancestor that is found and is marked with all of them. -/
theorem heir_ok {done : List Style} {x y : Style} {first : Ground × String}
    (h : s.heir settings id done x first = .ok y) :
    ∃ a rest, s.ancestorsFrom settings id done (s.styleCount + 1) [] first = a :: rest ∧
      y = (x.derived a).inheriting (a :: rest) := by
  unfold heir at h
  split at h
  · cases h
  · next a rest hrest =>
    cases h
    exact ⟨a, rest, hrest, rfl⟩

/-- Only a style without a superclass has no declared ancestor. -/
theorem superclass_eq_none {done : List Style} {x : Style}
    (h : s.declaredAncestor? id done x = .ok none) : x.head.superclass = none := by
  unfold declaredAncestor? at h
  split at h
  · assumption
  · split at h
    · cases h
    · split at h
      · cases h
      · split at h <;> cases h

/-- A style is marked as an heir of one of the base, as one that extends none, as an heir of the one
that it extends, or as one that extends an unseen style. -/
theorem inheritingStyle_ok {done : List Style} {x y : Style}
    (h : s.inheritingStyle settings id done x = .ok y) :
    (∃ base a rest, s.baseWith? id x.name = some base ∧
      s.ancestorsFrom settings id done (s.styleCount + 1) [] (.base base, x.name) = a :: rest ∧
      y = ((s.overriding id x).derived a).inheriting (a :: rest)) ∨
    (s.baseWith? id x.name = none ∧ x.head.superclass = none ∧ y = x.inheriting []) ∨
    (s.baseWith? id x.name = none ∧ ∃ first a rest,
      s.declaredAncestor? id done x = .ok (some first) ∧
      s.ancestorsFrom settings id done (s.styleCount + 1) [] first = a :: rest ∧
      y = (x.derived a).inheriting (a :: rest)) ∨
    (s.baseWith? id x.name = none ∧ (s.imported.isNone ∧ settings.framework.isSome) ∧ ∃ path,
      y = (x.withHead { x.head with inherits := some path }).inheriting []) := by
  unfold inheritingStyle at h
  split at h
  · next base hbase =>
    obtain ⟨a, rest, hrest, rfl⟩ := heir_ok h
    exact .inl ⟨base, a, rest, hbase, hrest, rfl⟩
  · next hbase =>
    split at h
    · cases h
    · next hdeclared =>
      cases h
      exact .inr (.inl ⟨hbase, superclass_eq_none hdeclared, rfl⟩)
    · next ground superclass hdeclared =>
      split at h
      · next himported =>
        unfold derivingUnseen at h
        split at h
        · cases h
        · next f hf =>
          cases h
          refine .inr (.inr (.inr ⟨hbase, ⟨?_, by rw [hf]; rfl⟩, _, rfl⟩))
          simp only [Bool.and_eq_true, decide_eq_true_eq] at himported
          exact himported.2
      · obtain ⟨a, rest, hrest, rfl⟩ := heir_ok h
        exact .inr (.inr (.inl ⟨hbase, _, a, rest, hdeclared, hrest, rfl⟩))

/-- Marking keeps the outline. -/
theorem outline_inheritingStyle {done : List Style} {x y : Style}
    (h : s.inheritingStyle settings id done x = .ok y) :
    y.outline StyleHead.declared = x.outline StyleHead.declared := by
  rcases inheritingStyle_ok h with ⟨base, a, rest, -, -, rfl⟩ | ⟨-, -, rfl⟩ |
    ⟨-, first, a, rest, -, -, rfl⟩ | ⟨-, -, path, rfl⟩
  · rw [Style.outline_inheriting, Style.outline_derived, outline_overriding]
  · exact Style.outline_inheriting x []
  · rw [Style.outline_inheriting, Style.outline_derived]
  · rw [Style.outline_inheriting]
    exact Style.outline_withHead rfl

theorem name_inheritingStyle {done : List Style} {x y : Style}
    (h : s.inheritingStyle settings id done x = .ok y) : y.name = x.name :=
  Style.name_eq_of_outline (outline_inheritingStyle h)

/-! ## The styles of a stylesheet -/

/-- Marked styles of the stylesheet at a place, the latest first. Each was one of the stylesheet,
perhaps opened, and was marked behind the style of its stylesheet that it extends. -/
inductive Marked (s : Suite) (settings : Settings) (id : SheetId) : List Style → Prop
  | nil : Marked s settings id []
  | cons {done : List Style} {x y : Style} : Marked s settings id done →
    (∃ z ∈ (s.sheet id).allStyles, x.outline StyleHead.closed = z.outline StyleHead.closed) →
    (∀ n, x.localSuperclass? = some n → n ∈ (s.sheet id).styles.map Style.name →
      n ∈ done.map Style.name) →
    s.inheritingStyle settings id done x = .ok y → Marked s settings id (y :: done)

/-- How a marked style came about, behind the styles that were done before it. -/
theorem Marked.exists_step {done : List Style} (h : Marked s settings id done) {y : Style}
    (hy : y ∈ done) :
    ∃ earlier x, earlier ⊆ done ∧
      (∃ z ∈ (s.sheet id).allStyles, x.outline StyleHead.closed = z.outline StyleHead.closed) ∧
      s.inheritingStyle settings id earlier x = .ok y := by
  induction h with
  | nil => cases hy
  | @cons done x y' _ hz _ hx ih =>
    rcases List.mem_cons.1 hy with rfl | hy
    · exact ⟨done, x, List.subset_cons_self _ _, hz, hx⟩
    · obtain ⟨earlier, x, hsub, hz, hx⟩ := ih hy
      exact ⟨earlier, x, fun z hz => List.mem_cons_of_mem _ (hsub hz), hz, hx⟩

/-- Styles are marked one after the other, in the order of their indices. -/
theorem inheritingStyles_append (styles : List Style) (l m : List Nat) (done : List Style) :
    s.inheritingStyles settings id styles (l ++ m) done =
      match s.inheritingStyles settings id styles l done with
      | .ok done => s.inheritingStyles settings id styles m done
      | .error e => .error e := by
  induction l generalizing done with
  | nil => rfl
  | cons i l ih =>
    rw [List.cons_append, inheritingStyles, inheritingStyles]
    split
    · exact ih done
    · next x _ =>
      cases s.inheritingStyle settings id done x with
      | error => rfl
      | ok y => exact ih (y :: done)

/-- What is done stays behind what is marked later. -/
theorem suffix_of_inheritingStyles {styles : List Style} {order : List Nat}
    {done marked : List Style}
    (h : s.inheritingStyles settings id styles order done = .ok marked) : done <:+ marked := by
  induction order generalizing done with
  | nil =>
    cases h
    exact List.suffix_rfl
  | cons i order ih =>
    rw [inheritingStyles] at h
    split at h
    · exact ih h
    · split at h
      · cases h
      · next y _ => exact (List.suffix_cons y done).trans (ih h)

/-- Each style of a run was done before it, or it was marked in the run. -/
theorem exists_of_mem_inheritingStyles {styles : List Style} {order : List Nat}
    {done marked : List Style}
    (h : s.inheritingStyles settings id styles order done = .ok marked) {y : Style}
    (hy : y ∈ marked) :
    y ∈ done ∨ ∃ x ∈ styles, ∃ earlier, s.inheritingStyle settings id earlier x = .ok y := by
  induction order generalizing done with
  | nil =>
    cases h
    exact .inl hy
  | cons i order ih =>
    rw [inheritingStyles] at h
    split at h
    · exact ih h
    · next x hx =>
      split at h
      · cases h
      · next z hz =>
        rcases ih h with hmem | hexists
        · rcases List.mem_cons.1 hmem with rfl | hmem
          · exact .inr ⟨x, List.mem_of_getElem? hx, done, hz⟩
          · exact .inl hmem
        · exact .inr hexists

/-- A name of the stylesheet has a last index. -/
theorem exists_lastIndex? {styles : List Style} {n : String} (h : n ∈ styles.map Style.name) :
    ∃ j, lastIndex? styles n = some j ∧ n ∈ Style.namesAt styles [j] := by
  obtain ⟨x, hx, rfl⟩ := List.mem_map.1 h
  have hsome : (styles.reverse.find? (·.name == x.name)).isSome := by
    rw [List.find?_isSome]
    exact ⟨x, List.mem_reverse.2 hx, beq_self_eq_true _⟩
  obtain ⟨y, hy⟩ := Option.isSome_iff_exists.1 hsome
  have hname : y.name = x.name := by simpa using List.find?_some hy
  rw [← lastIndex?_bind] at hy
  obtain ⟨j, hj, hjy⟩ := Option.bind_eq_some_iff.1 hy
  exact ⟨j, hj, by simp [Style.namesAt, hjy, hname]⟩

/-- The outlines of the styles at indices. -/
def outlinesAt (styles : List Style) (indices : List Nat) : List Style :=
  indices.filterMap fun i => styles[i]?.map (Style.outline StyleHead.declared)

theorem map_name_outlinesAt (styles : List Style) (indices : List Nat) :
    (outlinesAt styles indices).map Style.name = Style.namesAt styles indices := by
  rw [outlinesAt, List.map_filterMap]
  refine List.filterMap_congr fun i _ => ?_
  rw [Option.map_map]
  exact Option.map_congr fun x _ => Style.name_outline_declared x

theorem map_name_outline (l : List Style) :
    (l.map (Style.outline StyleHead.declared)).map Style.name = l.map Style.name := by
  rw [List.map_map]
  exact List.map_congr_left fun x _ => Style.name_outline_declared x

/-- The outlines at all indices are those of the styles. -/
theorem outlinesAt_range (styles : List Style) :
    outlinesAt styles (List.range styles.length) =
      styles.map (Style.outline StyleHead.declared) := by
  induction styles using List.reverseRecOn with
  | nil => rfl
  | append_singleton l x ih =>
    rw [List.length_append, List.length_singleton, List.range_succ, List.map_append, ← ih,
      outlinesAt, outlinesAt, List.filterMap_append]
    refine congrArg₂ (· ++ ·) (List.filterMap_congr fun i hi => ?_) (by simp)
    rw [List.getElem?_append_left (List.mem_range.1 hi)]

/-- A run over a grounded order marks the styles at its indices. -/
theorem marked_of_grounded {styles : List Style}
    (houtline : ∀ x ∈ styles, ∃ z ∈ (s.sheet id).allStyles,
      x.outline StyleHead.closed = z.outline StyleHead.closed)
    (hnames : styles.map Style.name = (s.sheet id).styles.map Style.name) {order : List Nat}
    (horder : Style.Grounded styles order) {done : List Style}
    (h : s.inheritingStyles settings id styles order [] = .ok done) :
    Marked s settings id done ∧
      done.map (Style.outline StyleHead.declared) = outlinesAt styles order.reverse := by
  induction horder generalizing done with
  | nil =>
    cases h
    exact ⟨.nil, rfl⟩
  | @snoc l i _ hlt _ hextended ih =>
    rw [inheritingStyles_append] at h
    split at h
    · next before hbefore =>
      obtain ⟨hmarked, hdone⟩ := ih hbefore
      rw [inheritingStyles, List.getElem?_eq_getElem hlt] at h
      cases hy : s.inheritingStyle settings id before styles[i] with
      | error => simp [hy] at h
      | ok y =>
        simp only [hy, inheritingStyles, Except.ok.injEq] at h
        subst h
        refine ⟨.cons hmarked (houtline _ (List.getElem_mem hlt)) (fun n hn hmem => ?_) hy, ?_⟩
        · rw [← hnames] at hmem
          obtain ⟨j, hj, hnj⟩ := exists_lastIndex? hmem
          rw [← map_name_outline, hdone, map_name_outlinesAt]
          have hjl : j ∈ l := hextended j (by
            simp [Style.extendedIndex?, List.getElem?_eq_getElem hlt, hn, hj])
          obtain ⟨k, hk, hkn⟩ := List.mem_filterMap.1 hnj
          rw [List.mem_singleton.1 hk] at hkn
          exact List.mem_filterMap.2 ⟨j, List.mem_reverse.2 hjl, hkn⟩
        · rw [List.map_cons, hdone, outline_inheritingStyle hy]
          simp [outlinesAt, List.getElem?_eq_getElem hlt]
    · cases h

/-! ## A stylesheet -/

theorem outline_openedIf (c : Prop) [Decidable c] (x : Style) :
    (if c then x.opened else x).outline StyleHead.closed = x.outline StyleHead.closed := by
  split
  · exact Style.outline_opened x
  · rfl

/-- The styles of a stylesheet are opened one by one, and nothing but what is open changes. -/
theorem openStyles_eq (t : Stylesheet) :
    ∃ g : Style → Style, openStyles t = t.styles.map g ∧
      ∀ x, (g x).outline StyleHead.closed = x.outline StyleHead.closed := by
  unfold openStyles
  split
  · exact ⟨_, rfl, fun x => outline_openedIf _ x⟩
  · rw [List.map_map]
    exact ⟨_, rfl, fun x => (Style.outline_openNested _ _).trans (outline_openedIf _ x)⟩

theorem outline_openStyles (t : Stylesheet) :
    (openStyles t).map (Style.outline StyleHead.declared) =
      t.styles.map (Style.outline StyleHead.declared) := by
  obtain ⟨g, hg, houtline⟩ := openStyles_eq t
  rw [hg, List.map_map]
  exact List.map_congr_left fun x _ => Style.outline_declared_of_closed (houtline x)

theorem names_openStyles (t : Stylesheet) :
    (openStyles t).map Style.name = t.styles.map Style.name := by
  rw [← map_name_outline, outline_openStyles, map_name_outline]

/-- A list without duplicates has none to drop. -/
theorem distinct_eq_self {l : List String} (h : l.Nodup) : Value.distinct l = l := by
  induction l with
  | nil => rfl
  | cons n l ih =>
    rw [List.nodup_cons] at h
    rw [Value.distinct, ih h.2, List.filter_eq_self.2]
    intro m hm
    have : m ≠ n := fun hmn => h.1 (hmn ▸ hm)
    simpa using this

/-- The steps of marking a stylesheet: the styles in the order of extension, then the animator. -/
theorem withInheritance_eq_ok {m : Stylesheet} (h : s.withInheritance settings id = .ok m) :
    ∃ order done animator,
      Style.extensionOrder (openStyles (s.sheet id)) = .ok order ∧
      s.inheritingStyles settings id (openStyles (s.sheet id)) order [] = .ok done ∧
      (s.sheet id).animator.mapM (fun a => s.inheritingStyle settings id done
        (if (s.sheet id).isBase then a.opened else a)) = .ok animator ∧
      m = { s.sheet id with
        styles := (Value.distinct ((openStyles (s.sheet id)).map Style.name)).filterMap fun name =>
          done.find? (·.name == name)
        animator := animator } := by
  unfold withInheritance at h
  obtain ⟨order, horder, h⟩ := bind_eq_ok.1 h
  obtain ⟨done, hdone, h⟩ := bind_eq_ok.1 h
  obtain ⟨animator, hanimator, h⟩ := bind_eq_ok.1 h
  cases h
  exact ⟨order, done, animator, horder, hdone, hanimator, rfl⟩

/-- Each style of a marked stylesheet was marked after some others. -/
theorem exists_step_of_withInheritance {m : Stylesheet}
    (h : s.withInheritance settings id = .ok m) {y : Style} (hy : y ∈ m.styles) :
    ∃ x ∈ openStyles (s.sheet id), ∃ earlier,
      s.inheritingStyle settings id earlier x = .ok y := by
  obtain ⟨order, done, animator, -, hdone, -, rfl⟩ := withInheritance_eq_ok h
  obtain ⟨name, -, hfind⟩ := List.mem_filterMap.1 hy
  exact (exists_of_mem_inheritingStyles hdone (List.mem_of_find?_eq_some hfind)).resolve_left
    List.not_mem_nil

/-- A stylesheet is marked by ordering its styles, marking them in this order, and the animator
last. -/
theorem withInheritance_of_steps {order : List Nat} {done : List Style} {animator : Option Style}
    (horder : Style.extensionOrder (openStyles (s.sheet id)) = .ok order)
    (hdone : s.inheritingStyles settings id (openStyles (s.sheet id)) order [] = .ok done)
    (hanimator : (s.sheet id).animator.mapM (fun a => s.inheritingStyle settings id done
      (if (s.sheet id).isBase then a.opened else a)) = .ok animator) :
    s.withInheritance settings id = .ok { s.sheet id with
      styles := (Value.distinct ((openStyles (s.sheet id)).map Style.name)).filterMap fun name =>
        done.find? (·.name == name)
      animator := animator } :=
  bind_eq_ok.2 ⟨order, horder, bind_eq_ok.2 ⟨done, hdone,
    bind_eq_ok.2 ⟨animator, hanimator, rfl⟩⟩⟩

/-- What marking a stylesheet gives: the marked styles in their old places. -/
structure MarkedSheet (s : Suite) (settings : Settings) (id : SheetId) (done : List Style)
    (m : Stylesheet) : Prop where
  eq : m = { s.sheet id with styles := m.styles, animator := m.animator }
  marked : Marked s settings id done
  perm : done.Perm m.allStyles
  styles_outline : m.styles.map (Style.outline StyleHead.declared) =
    (s.sheet id).styles.map (Style.outline StyleHead.declared)
  animator_outline : m.animator.map (Style.outline StyleHead.declared) =
    (s.sheet id).animator.map (Style.outline StyleHead.declared)

/-- Collected by their names, marked styles stand where the styles stood. -/
theorem collected {done styles : List Style} (hd : (styles.map Style.name).Nodup)
    (hperm : (done.map (Style.outline StyleHead.declared)).Perm
      (styles.map (Style.outline StyleHead.declared))) :
    ((styles.map Style.name).filterMap fun name => done.find? (·.name == name)).Perm done ∧
      ((styles.map Style.name).filterMap fun name => done.find? (·.name == name)).map
        (Style.outline StyleHead.declared) = styles.map (Style.outline StyleHead.declared) := by
  have hnames : (styles.map Style.name).Perm (done.map Style.name) := by
    rw [← map_name_outline, ← map_name_outline done]
    exact (hperm.map Style.name).symm
  constructor
  · refine (hnames.filterMap _).trans ?_
    rw [filterMap_find?_of_perm (hnames.nodup_iff.1 hd) (List.Perm.refl done)]
  · have hfind : ∀ name : String, (done.find? (·.name == name)).map
        (Style.outline StyleHead.declared) =
          (done.map (Style.outline StyleHead.declared)).find? (·.name == name) := fun name => by
      simp [List.find?_map, Style.name_outline_declared]
    rw [List.map_filterMap, ← map_name_outline]
    simp only [hfind]
    exact filterMap_find?_of_perm (by rw [map_name_outline]; exact hd) hperm

/-- A run in the order of extension marks all styles of the stylesheet. -/
theorem marked_openStyles {order : List Nat} {done : List Style}
    (horder : Style.extensionOrder (openStyles (s.sheet id)) = .ok order)
    (hdone : s.inheritingStyles settings id (openStyles (s.sheet id)) order [] = .ok done) :
    Marked s settings id done ∧ (done.map (Style.outline StyleHead.declared)).Perm
      ((s.sheet id).styles.map (Style.outline StyleHead.declared)) := by
  obtain ⟨g, hg, houtline⟩ := openStyles_eq (s.sheet id)
  obtain ⟨hgrounded, hperm⟩ := Style.extensionOrder_grounded horder
  obtain ⟨hmarked, hout⟩ := marked_of_grounded (fun x hx => by
    rw [hg] at hx
    obtain ⟨z, hz, rfl⟩ := List.mem_map.1 hx
    exact ⟨z, List.mem_append_left _ hz, houtline z⟩) (names_openStyles _) hgrounded hdone
  refine ⟨hmarked, ?_⟩
  rw [hout, ← outline_openStyles, ← outlinesAt_range]
  exact ((List.reverse_perm order).trans hperm).filterMap _

/-- The styles of a stylesheet are marked first, and its animator behind them. -/
theorem withInheritance_parts {m : Stylesheet} (h : s.withInheritance settings id = .ok m)
    (hd : ((s.sheet id).styles.map Style.name).Nodup) :
    ∃ done, Marked s settings id done ∧ done.Perm m.styles ∧
      m.styles.map (Style.outline StyleHead.declared) =
        (s.sheet id).styles.map (Style.outline StyleHead.declared) ∧
      Option.Rel (fun a y => s.inheritingStyle settings id done
        (if (s.sheet id).isBase then a.opened else a) = .ok y) (s.sheet id).animator m.animator ∧
      m = { s.sheet id with styles := m.styles, animator := m.animator } := by
  obtain ⟨order, done, animator, horder, hdone, hanimator, rfl⟩ := withInheritance_eq_ok h
  obtain ⟨hmarked, hperm⟩ := marked_openStyles horder hdone
  obtain ⟨hcollected, hplaces⟩ := collected hd hperm
  rw [names_openStyles, distinct_eq_self hd]
  exact ⟨done, hmarked, hcollected.symm, hplaces, rel_of_mapM hanimator, rfl⟩

/-- A marked stylesheet has the marked styles of a list that came about by marking. -/
theorem withInheritance_ok {m : Stylesheet} (h : s.withInheritance settings id = .ok m)
    (hd : ((s.sheet id).styles.map Style.name).Nodup) :
    ∃ done, MarkedSheet s settings id done m := by
  obtain ⟨done, hmarked, hperm, hplaces, hanimator, heq⟩ := withInheritance_parts h hd
  have hnames : (s.sheet id).styles.map Style.name ⊆ done.map Style.name := by
    rw [← map_name_outline, ← hplaces, map_name_outline]
    exact (hperm.map Style.name).symm.subset
  cases ha : m.animator with
  | none =>
    rw [ha] at hanimator
    refine ⟨done, heq, hmarked, ?_, hplaces, ?_⟩
    · rwa [Stylesheet.allStyles, ha, Option.toList_none, List.append_nil]
    · generalize (s.sheet id).animator = o at hanimator
      cases hanimator
      rw [ha]
  | some y =>
    rw [ha] at hanimator
    generalize ho : (s.sheet id).animator = o at hanimator
    cases hanimator with
    | @some a _ hy =>
      have hopened := outline_openedIf ((s.sheet id).isBase = true) a
      refine ⟨y :: done, heq, .cons hmarked ⟨a, ?_, hopened⟩ (fun n _ hn => hnames hn) hy, ?_,
        hplaces, ?_⟩
      · rw [Stylesheet.allStyles, ho]
        exact List.mem_append_right _ (Option.mem_toList.2 rfl)
      · rw [Stylesheet.allStyles, ha]
        exact (List.Perm.cons y hperm).trans (List.perm_append_singleton y _).symm
      · rw [ha, ho, Option.map_some, outline_inheritingStyle hy, Option.map_some,
          Style.outline_declared_of_closed hopened]

end Suite

end Appearance
