import Appearance.Proofs.Resolution
import Appearance.Proofs.ValueNesting

/-!
# What a style says

Look-ups of properties read names, keys and values. `Style.contents` keeps these: it forgets the
heads but for the names, and a function tells what is kept of a value. Opening and marking change
no contents (`SameContents.withInheritance`), and resolving redirects none of the contents with
plain values (`SameContents.withRedirects`).

`Style.leaves` are the values of a style at every depth.

What is kept of a value is a parameter, so that one notion serves all passes. Opening and marking
keep values whole; redirects change them, and only what is kept of both the written and the
resolved value, such as the paths of redirects, is compared.
-/

namespace Appearance

/-- The property without what is known of its accessor; `g` is applied to a value and `f` to a
nested style. -/
def Property.contentsBy (g : Value → Value) (f : Style → Style) : Property → Property
  | .leaf head value => .leaf ⟨head.key, false, false⟩ (g value)
  | .nested head style => .nested ⟨head.key, false, false⟩ (f style)

@[simp] theorem Property.key_contentsBy (g : Value → Value) (f : Style → Style) (p : Property) :
    (p.contentsBy g f).key = p.key := by
  cases p <;> rfl

@[simp] theorem Property.style?_contentsBy (g : Value → Value) (f : Style → Style)
    (p : Property) : (p.contentsBy g f).style? = p.style?.map f := by
  cases p <;> rfl

namespace Style

mutual

/-- The style without accessors and heads; `g` tells what is kept of the values. -/
def contents (g : Value → Value) : Style → Style
  | mk head properties => mk (StyleHead.named head.name) (contentsEach g properties)

/-- The contents of properties, each under its key. -/
def contentsEach (g : Value → Value) : List Property → List Property
  | [] => []
  | .leaf head value :: ps => .leaf ⟨head.key, false, false⟩ (g value) :: contentsEach g ps
  | .nested head style :: ps =>
    .nested ⟨head.key, false, false⟩ (contents g style) :: contentsEach g ps

end

mutual

/-- The values of a style at every depth, in order. -/
def leaves : Style → List Value
  | mk _ properties => leavesOfEach properties

/-- The values of properties at every depth. -/
def leavesOfEach : List Property → List Value
  | [] => []
  | .leaf _ value :: ps => value :: leavesOfEach ps
  | .nested _ style :: ps => leaves style ++ leavesOfEach ps

end

section Contents

variable (g : Value → Value)

theorem contentsEach_eq (ps : List Property) :
    contentsEach g ps = ps.map (Property.contentsBy g (contents g)) := by
  induction ps with
  | nil => rw [contentsEach, List.map_nil]
  | cons p ps ih => cases p <;> simp [contentsEach, ih, Property.contentsBy]

@[simp] theorem name_contents (s : Style) : (s.contents g).name = s.name := by
  obtain ⟨h, ps⟩ := s
  rw [contents]
  rfl

theorem properties_contents (s : Style) :
    (s.contents g).properties = s.properties.map (Property.contentsBy g (contents g)) := by
  obtain ⟨h, ps⟩ := s
  rw [contents, contentsEach_eq]
  rfl

theorem property?_contents (s : Style) (key : String) :
    (s.contents g).property? key = (s.property? key).map (Property.contentsBy g (contents g)) := by
  rw [property?, property?, properties_contents, List.find?_map]
  refine congrArg (Option.map _) (List.find?_congr fun p _ => ?_)
  rw [Function.comp_apply, Property.key_contentsBy]

theorem nested?_contents (s : Style) (name : String) :
    (s.contents g).nested? name = (s.nested? name).map (contents g) := by
  have hnested : (s.contents g).nestedStyles = s.nestedStyles.map (contents g) := by
    rw [nestedStyles, nestedStyles, properties_contents, List.filterMap_map, List.map_filterMap]
    exact List.filterMap_congr fun p _ => Property.style?_contentsBy g _ p
  rw [nested?, nested?, hnested, List.find?_map]
  refine congrArg (Option.map _) (List.find?_congr fun n _ => ?_)
  rw [Function.comp_apply, name_contents]

/-- The values of the contents are what is kept of the values. -/
theorem leaves_contents (s : Style) : (s.contents g).leaves = s.leaves.map g := by
  induction s using Style.induction with
  | mk h ps ih =>
    rw [contents, leaves, leaves]
    induction ps with
    | nil => rfl
    | cons p ps ihps =>
      have hps := ihps fun k n hn => ih k n (List.mem_cons_of_mem p hn)
      cases p with
      | leaf k v => rw [contentsEach, leavesOfEach, leavesOfEach, hps, List.map_cons]
      | nested k n =>
        rw [contentsEach, leavesOfEach, leavesOfEach, hps, ih k n List.mem_cons_self,
          List.map_append]

end Contents

theorem leaves_eq_of_contents {s t : Style} (h : s.contents id = t.contents id) :
    s.leaves = t.leaves := by
  rw [← List.map_id s.leaves, ← leaves_contents, h, leaves_contents, List.map_id]

/-! ## Values at every depth -/

/-- A value stands in a property itself or in a style nested there. -/
theorem mem_leavesOfEach {ps : List Property} {v : Value} :
    v ∈ leavesOfEach ps ↔
      (∃ k, Property.leaf k v ∈ ps) ∨ ∃ k n, Property.nested k n ∈ ps ∧ v ∈ n.leaves := by
  induction ps with
  | nil => simp [leavesOfEach]
  | cons p ps ih =>
    cases p with
    | leaf k u =>
      simp only [leavesOfEach, List.mem_cons, ih, Property.leaf.injEq, reduceCtorEq, false_or,
        exists_or, exists_eq_left, or_assoc]
    | nested k n =>
      simp only [leavesOfEach, List.mem_append, List.mem_cons, ih, Property.nested.injEq,
        reduceCtorEq, false_or]
      constructor
      · rintro (hv | h | ⟨k', m, hm, hv⟩)
        · exact .inr ⟨k, n, .inl ⟨rfl, rfl⟩, hv⟩
        · exact .inl h
        · exact .inr ⟨k', m, .inr hm, hv⟩
      · rintro (h | ⟨k', m, ⟨rfl, rfl⟩ | hm, hv⟩)
        · exact .inr (.inl h)
        · exact .inl hv
        · exact .inr (.inr ⟨k', m, hm, hv⟩)

theorem mem_leaves_of_property? {s : Style} {key : String} {k : PropertyHead} {v : Value}
    (h : s.property? key = some (.leaf k v)) : v ∈ s.leaves := by
  obtain ⟨head, ps⟩ := s
  exact mem_leavesOfEach.2 (.inl ⟨k, List.mem_of_find?_eq_some h⟩)

theorem leaves_subset_of_nested? {s n : Style} {name : String} (h : s.nested? name = some n) :
    n.leaves ⊆ s.leaves := by
  obtain ⟨k, hk⟩ := mem_nestedStyles.1 (nested?_mem h).1
  obtain ⟨head, ps⟩ := s
  exact fun v hv => mem_leavesOfEach.2 (.inr ⟨k, n, hk, hv⟩)

/-! ## Opening and marking -/

variable (g : Value → Value)

theorem contents_withHead {s : Style} {h : StyleHead} (hn : h.name = s.name) :
    (s.withHead h).contents g = s.contents g := by
  obtain ⟨sh, ps⟩ := s
  rw [withHead, contents, contents, hn]
  rfl

/-- Opening does not change what a style says. -/
theorem contents_opened (s : Style) : s.opened.contents g = s.contents g := by
  induction s using Style.induction with
  | mk h ps ih =>
    rw [opened, contents, contents]
    refine congrArg _ ?_
    induction ps with
    | nil => rw [openedEach]
    | cons p ps ihps =>
      have hps := ihps fun k n hn => ih k n (List.mem_cons_of_mem p hn)
      cases p with
      | leaf => rw [openedEach, contentsEach, contentsEach, hps]
      | nested k n =>
        rw [openedEach, contentsEach, contentsEach, hps, contents_withHead g (by rfl),
          ih k n List.mem_cons_self]

/-- Opening what is nested does not change what a style says. -/
theorem contents_openNested (names : List String) (s : Style) :
    (s.openNested names).contents g = s.contents g := by
  obtain ⟨h, ps⟩ := s
  rw [openNested, contents, contents, contentsEach_eq, contentsEach_eq, properties_mk,
    List.map_map]
  refine congrArg _ (List.map_congr_left fun p _ => ?_)
  cases p with
  | leaf => rfl
  | nested k n =>
    dsimp only [Function.comp_apply]
    split
    · rw [Property.contentsBy, Property.contentsBy, contents_withHead g (by rfl)]
    · rfl

/-- Marking does not change what a style says. -/
theorem contents_inheriting (s : Style) (ancestors : List Ancestor) :
    (s.inheriting ancestors).contents g = s.contents g := by
  have key : ∀ (s : Style) (style : StyleHead) (ancestors : List Ancestor),
      contentsEach g (inheritingEach style s.properties ancestors) =
        contentsEach g s.properties := fun s => by
    induction s using Style.induction with
    | mk h ps ih =>
      intro style ancestors
      rw [properties_mk]
      induction ps with
      | nil => rw [inheritingEach]
      | cons p ps ihps =>
        have hps := ihps fun k n hn => ih k n (List.mem_cons_of_mem p hn)
        cases p with
        | leaf => rw [inheritingEach, contentsEach, contentsEach, hps]
        | nested k n =>
          have hn := ih k n List.mem_cons_self
          obtain ⟨nh, nps⟩ := n
          rw [inheritingEach, contentsEach, contentsEach, hps, contents, contents,
            ← properties_mk nh nps, hn, name_heirHead, name_nestedHeirHead]
  obtain ⟨h, ps⟩ := s
  rw [inheriting, contents, contents, key (mk h ps), head_mk, name_heirHead]
  rfl

end Style

namespace Suite

variable {s : Suite} {settings : Settings} {id : SheetId} (g : Value → Value)

/-- A style that is marked says what it said before. -/
theorem contents_inheritingStyle {done : List Style} {x y : Style}
    (h : s.inheritingStyle settings id done x = .ok y) : y.contents g = x.contents g := by
  rcases inheritingStyle_ok h with ⟨base, a, rest, -, -, rfl⟩ | ⟨-, -, rfl⟩ |
    ⟨-, first, a, rest, -, -, rfl⟩ | ⟨-, -, path, rfl⟩
  · rw [Style.contents_inheriting, Style.derived, Style.contents_withHead g (by rfl), overriding,
      Style.contents_withHead g (by rfl)]
  · exact Style.contents_inheriting g x []
  · rw [Style.contents_inheriting, Style.derived, Style.contents_withHead g (by rfl)]
  · rw [Style.contents_inheriting, Style.contents_withHead g (by rfl)]

theorem contents_openedIf (c : Prop) [Decidable c] (x : Style) :
    (if c then x.opened else x).contents g = x.contents g := by
  split
  · exact Style.contents_opened g x
  · rfl

/-- An open style of a stylesheet says what some declared style says. -/
theorem exists_contents_of_mem_openStyles {t : Stylesheet} {x : Style} (hx : x ∈ openStyles t) :
    ∃ z ∈ t.styles, x.contents g = z.contents g := by
  unfold openStyles at hx
  split at hx
  · obtain ⟨z, hz, rfl⟩ := List.mem_map.1 hx
    exact ⟨z, hz, contents_openedIf g _ z⟩
  · obtain ⟨w, hw, rfl⟩ := List.mem_map.1 hx
    obtain ⟨z, hz, rfl⟩ := List.mem_map.1 hw
    exact ⟨z, hz, (Style.contents_openNested g _ _).trans (contents_openedIf g _ z)⟩

/-- Two stylesheets say the same, with what `g` keeps of the values. -/
structure SameContents (g : Value → Value) (t u : Stylesheet) : Prop where
  styles : t.styles.map (Style.contents g) = u.styles.map (Style.contents g)
  animator : t.animator.map (Style.contents g) = u.animator.map (Style.contents g)

variable {g}

theorem SameContents.trans {t u w : Stylesheet} (h : SameContents g t u)
    (h' : SameContents g u w) : SameContents g t w where
  styles := h.styles.trans h'.styles
  animator := h.animator.trans h'.animator

theorem SameContents.allStyles {t u : Stylesheet} (h : SameContents g t u) :
    t.allStyles.map (Style.contents g) = u.allStyles.map (Style.contents g) := by
  have htoList : ∀ o : Option Style, o.toList.map (Style.contents g) =
      (o.map (Style.contents g)).toList := fun o => by cases o <;> rfl
  rw [Stylesheet.allStyles, Stylesheet.allStyles, List.map_append, List.map_append, htoList,
    htoList, h.styles, h.animator]

/-- Marking changes no contents. -/
theorem SameContents.withInheritance {m : Stylesheet}
    (h : s.withInheritance settings id = .ok m) (hd : ((s.sheet id).styles.map Style.name).Nodup) :
    SameContents g m (s.sheet id) := by
  obtain ⟨done, hm⟩ := withInheritance_ok h hd
  have hnames : m.styles.map Style.name = (s.sheet id).styles.map Style.name := by
    rw [← map_name_outline, hm.styles_outline, map_name_outline]
  constructor
  · refine map_eq_of_map_eq hnames fun y hy z hz hyz => ?_
    obtain ⟨x, hx, earlier, hy⟩ := exists_step_of_withInheritance h hy
    have hyx := contents_inheritingStyle g hy
    obtain ⟨w, hw, hxw⟩ := exists_contents_of_mem_openStyles g hx
    have hname : w.name = z.name := by
      rw [← Style.name_contents g w, ← hxw, ← hyx, Style.name_contents, hyz]
    rw [hyx, hxw, eq_of_mem_of_nodup hd hw hz hname]
  · obtain ⟨order, done, animator, -, -, hanimator, rfl⟩ := withInheritance_eq_ok h
    refine (map_eq_of_rel (rel_of_mapM hanimator) fun a _ y hy => ?_).symm
    exact ((contents_inheritingStyle g hy).trans (contents_openedIf g _ a)).symm

/-! ## Resolved values -/

/-- A redirect is resolved where its target is found and has a type. -/
theorem resolveRedirect_ok {r q : Redirect} (h : s.resolveRedirect settings id r = .ok q) :
    ∃ t type trail, s.target id r.path = .ok t ∧
      s.pathType (s.redirects.length + 1) id r.path [] = .ok (type, trail) ∧
      q = { r with resolved := some ⟨access settings t.sheet r.path, type⟩ } := by
  unfold resolveRedirect at h
  split at h
  · cases h
  · next t ht =>
    split at h
    · cases h
    · next type trail htype =>
      cases h
      exact ⟨t, type, trail, ht, htype, rfl⟩

theorem path_resolveRedirect {r q : Redirect} (h : s.resolveRedirect settings id r = .ok q) :
    q.path = r.path := by
  obtain ⟨t, type, trail, -, -, rfl⟩ := resolveRedirect_ok h
  rfl

/-- A value is resolved if its redirects are, and if its branches have one type then. -/
theorem resolveValue_eq_ok {property : String} {v u : Value} :
    s.resolveValue settings id property v = .ok u ↔
      v.mapRedirects (s.resolveRedirect settings id) = .ok u ∧
        (u.isConditional && 1 < u.branchTypes.length) = false := by
  unfold resolveValue
  split
  · next e he => simp [he]
  · next w hw =>
    rw [hw, Except.ok.injEq]
    split
    · next hbranches =>
      refine ⟨nofun, ?_⟩
      rintro ⟨rfl, hone⟩
      rw [hbranches] at hone
      cases hone
    · next hbranches =>
      refine ⟨fun h => ?_, fun h => congrArg Except.ok h.1⟩
      cases h
      exact ⟨rfl, by simpa using hbranches⟩

/-- A resolved redirect leads where it led before. -/
theorem redirectPath?_resolveValue {property : String} {v u : Value}
    (h : s.resolveValue settings id property v = .ok u) : u.redirectPath? = v.redirectPath? :=
  Value.redirectPath?_mapRedirects (fun _ _ => path_resolveRedirect) (resolveValue_eq_ok.1 h).1

/-- The values of a resolved style are the resolved values of the style. -/
theorem leaves_resolveStyle {x y : Style} (h : s.resolveStyle settings id x = .ok y) :
    y.contents Value.plain = x.contents Value.plain ∧
      List.Forall₂ (fun v u => ∃ property, s.resolveValue settings id property v = .ok u)
        x.leaves y.leaves := by
  induction x using Style.induction generalizing y with
  | mk head ps ih =>
    rw [resolveStyle] at h
    split at h
    · next qs hqs =>
      cases h
      simp only [Style.contents, Style.leaves, Style.mk.injEq, true_and]
      generalize head.name = name at hqs
      induction ps generalizing qs with
      | nil =>
        cases hqs
        exact ⟨rfl, .nil⟩
      | cons p ps ihps =>
        have hps := fun rs => @ihps (fun k n hn => ih k n (List.mem_cons_of_mem p hn)) rs
        rw [resolveEach.eq_def] at hqs
        cases p with
        | leaf k v =>
          dsimp only at hqs
          split at hqs
          · cases hqs
          · next u hu =>
            split at hqs
            · cases hqs
            · next rs hrs =>
              cases hqs
              have hv := (resolveValue_eq_ok.1 hu).1
              obtain ⟨hcontents, hleaves⟩ := hps rs hrs
              simp only [Style.contentsEach, Style.leavesOfEach]
              rw [hcontents, Value.plain_mapRedirects (fun _ _ => path_resolveRedirect) hv]
              exact ⟨rfl, .cons ⟨_, hu⟩ hleaves⟩
        | nested k n =>
          dsimp only at hqs
          split at hqs
          · cases hqs
          · next m hm =>
            split at hqs
            · cases hqs
            · next rs hrs =>
              cases hqs
              obtain ⟨hn, hnleaves⟩ := ih k n List.mem_cons_self hm
              obtain ⟨hcontents, hleaves⟩ := hps rs hrs
              simp only [Style.contentsEach, Style.leavesOfEach]
              rw [hcontents, hn]
              exact ⟨rfl, List.rel_append hnleaves hleaves⟩
    · cases h

/-- Resolving redirects changes no contents with plain values. -/
theorem SameContents.withRedirects {u : Stylesheet} (h : s.withRedirects settings id = .ok u) :
    SameContents Value.plain u (s.sheet id) := by
  obtain ⟨-, hstyles, hanimator⟩ := withRedirects_eq_ok h
  constructor
  · exact (map_eq_of_forall₂ hstyles fun _ _ hxy => (leaves_resolveStyle hxy).1.symm).symm
  · exact (map_eq_of_rel hanimator fun _ _ _ hxy => (leaves_resolveStyle hxy).1.symm).symm

end Suite

namespace Stylesheet

/-- The values of a stylesheet at every depth. -/
def leaves (t : Stylesheet) : List Value := t.allStyles.flatMap Style.leaves

theorem mem_leaves {t : Stylesheet} {v : Value} :
    v ∈ t.leaves ↔ ∃ x ∈ t.allStyles, v ∈ x.leaves :=
  List.mem_flatMap

end Stylesheet

namespace Suite

theorem SameContents.leaves {t u : Stylesheet} (h : SameContents id t u) : t.leaves = u.leaves := by
  have hmap := map_eq_of_map_eq h.allStyles fun _ _ _ _ => Style.leaves_eq_of_contents
  rw [Stylesheet.leaves, Stylesheet.leaves, List.flatMap, List.flatMap, hmap]

variable {s : Suite} {settings : Settings} {id : SheetId}

/-- Every value of a resolved stylesheet is a resolved value of the stylesheet. -/
theorem exists_of_mem_leaves {t : Stylesheet} (h : s.withRedirects settings id = .ok t) {u : Value}
    (hu : u ∈ t.leaves) :
    ∃ v ∈ (s.sheet id).leaves, ∃ property, s.resolveValue settings id property v = .ok u := by
  obtain ⟨-, hstyles, hanimator⟩ := withRedirects_eq_ok h
  obtain ⟨y, hy, huy⟩ := Stylesheet.mem_leaves.1 hu
  have hall := List.rel_append hstyles (forall₂_toList hanimator)
  obtain ⟨x, hx, hxy⟩ := exists_mem_of_forall₂ hall hy
  obtain ⟨v, hv, hvu⟩ := exists_mem_of_forall₂ (leaves_resolveStyle hxy).2 huy
  exact ⟨v, Stylesheet.mem_leaves.2 ⟨x, hx, hv⟩, hvu⟩

/-! ## Look-ups -/

/-- The property at the end of a path in a style. -/
def propertyIn? (path : RedirectPath) (x : Style) : Option Property :=
  match path.nested with
  | some nested => (x.nested? nested).bind (·.property? path.key)
  | none => x.property? path.key

theorem propertyAt?_eq (id : SheetId) (path : RedirectPath) :
    s.propertyAt? id path = (s.find? id path.style).bind (propertyIn? path) := by
  unfold propertyAt? propertyIn?
  cases s.find? id path.style with
  | none => rfl
  | some x => cases path.nested <;> rfl

variable (g : Value → Value)

/-- Looking into a style finds the same among its contents. -/
theorem propertyIn?_contents (path : RedirectPath) (x : Style) :
    propertyIn? path (x.contents g) =
      (propertyIn? path x).map (Property.contentsBy g (Style.contents g)) := by
  unfold propertyIn?
  split
  · next nested hnested =>
    rw [Style.nested?_contents, Option.bind_map, Option.map_bind]
    exact Option.bind_congr fun n _ => Style.property?_contents g n path.key
  · exact Style.property?_contents g x path.key

theorem map_find?_contents (l : List Style) (name : String) :
    (l.find? (·.name == name)).map (Style.contents g) =
      (l.map (Style.contents g)).find? (·.name == name) := by
  rw [List.find?_map]
  refine congrArg (Option.map _) (List.find?_congr fun x _ => ?_)
  rw [Function.comp_apply, Style.name_contents]

theorem map_filter_contents (o : Option Style) (name : String) :
    (o.filter (·.name == name)).map (Style.contents g) =
      (o.map (Style.contents g)).filter (·.name == name) := by
  cases o with
  | none => rfl
  | some x =>
    rw [Option.map_some, Option.filter_some, Option.filter_some, Style.name_contents]
    split <;> rfl

variable {g} {r : Suite}

/-- A style that is found says the same in both suites. -/
theorem find?_contents (hb : r.base? = s.base?) (h : SameContents g (r.sheet id) (s.sheet id))
    (name : String) :
    (r.find? id name).map (Style.contents g) = (s.find? id name).map (Style.contents g) := by
  have hstyle : (r.style? id name).map (Style.contents g) =
      (s.style? id name).map (Style.contents g) := by
    by_cases hl : s.isLinked = true
    · have hl' : r.isLinked = true := by rwa [isLinked, hb]
      rw [style?_eq hl, style?_eq hl', map_find?_contents, map_find?_contents, List.map_reverse,
        List.map_reverse, h.styles]
    · have hl' : ¬ r.isLinked = true := by rwa [isLinked, hb]
      rw [style?, style?, styleIndex?, styleIndex?, if_neg hl, if_neg hl']
      rfl
  have hanimator : ((r.sheet id).animator.filter (·.name == name)).map (Style.contents g) =
      ((s.sheet id).animator.filter (·.name == name)).map (Style.contents g) := by
    rw [map_filter_contents, map_filter_contents, h.animator]
  have hfind : ∀ u : Suite, u.find? id name =
      (u.style? id name).or ((u.sheet id).animator.filter (·.name == name)) := fun u => by
    unfold find?
    cases u.style? id name <;> rfl
  rw [hfind, hfind, Option.map_or, Option.map_or, hstyle, hanimator]

/-- A property that is found says the same in both suites. -/
theorem propertyAt?_contents (hb : r.base? = s.base?)
    (h : SameContents g (r.sheet id) (s.sheet id)) (path : RedirectPath) :
    (r.propertyAt? id path).map (Property.contentsBy g (Style.contents g)) =
      (s.propertyAt? id path).map (Property.contentsBy g (Style.contents g)) := by
  have hmap : ∀ o : Option Style,
      (o.bind (propertyIn? path)).map (Property.contentsBy g (Style.contents g)) =
        (o.map (Style.contents g)).bind (propertyIn? path) := fun o => by
    rw [Option.map_bind, Option.bind_map]
    exact Option.bind_congr fun x _ => (propertyIn?_contents g path x).symm
  rw [propertyAt?_eq, propertyAt?_eq, hmap, hmap, find?_contents hb h]

/-- A redirect leads to the first stylesheet searched that has its path. -/
theorem target_ok {path : String} {c : SheetId} {p : Property} :
    s.target id path = .ok ⟨c, p⟩ ↔ ∃ parts, RedirectPath.parse? path = some parts ∧
      (s.searched id).findSome? (fun c => (s.propertyAt? c parts).map (Target.mk c)) =
        some ⟨c, p⟩ := by
  unfold target
  cases RedirectPath.parse? path with
  | none => simp
  | some parts =>
    cases h : (s.searched id).findSome? fun c => (s.propertyAt? c parts).map (Target.mk c) with
    | none => simp [h]
    | some t => simp [h]

/-- A path leads to properties of the same contents in suites of the same contents. -/
theorem target_contents (hb : r.base? = s.base?) (hsearched : r.searched id = s.searched id)
    (h : ∀ c ∈ s.searched id, SameContents g (r.sheet c) (s.sheet c)) {path : String}
    {c : SheetId} {p : Property} (ht : s.target id path = .ok ⟨c, p⟩) :
    ∃ q, r.target id path = .ok ⟨c, q⟩ ∧
      q.contentsBy g (Style.contents g) = p.contentsBy g (Style.contents g) := by
  obtain ⟨parts, hparts, hfind⟩ := target_ok.1 ht
  have hmap : ∀ l : List SheetId, (∀ c ∈ l, SameContents g (r.sheet c) (s.sheet c)) →
      (l.findSome? fun c => (r.propertyAt? c parts).map (Target.mk c)).map
          (fun t => (t.sheet, t.property.contentsBy g (Style.contents g))) =
        (l.findSome? fun c => (s.propertyAt? c parts).map (Target.mk c)).map
          (fun t => (t.sheet, t.property.contentsBy g (Style.contents g))) := fun l hl => by
    induction l with
    | nil => rfl
    | cons c l ih =>
      have hc := propertyAt?_contents hb (hl c List.mem_cons_self) parts
      have hrest := ih fun d hd => hl d (List.mem_cons_of_mem c hd)
      cases hr : r.propertyAt? c parts <;> cases hs : s.propertyAt? c parts <;>
        simp_all
  have heq := hmap _ h
  rw [hfind, ← hsearched, Option.map_some, Option.map_eq_some_iff] at heq
  obtain ⟨⟨d, q⟩, hq, hpair⟩ := heq
  obtain ⟨rfl, hcontents⟩ := Prod.mk.inj hpair
  exact ⟨q, target_ok.2 ⟨parts, hparts, hq⟩, hcontents⟩

/-- What a path leads to stands in one of the stylesheets that are searched. -/
theorem mem_leaves_of_target {path : String} {c : SheetId} {k : PropertyHead} {v : Value}
    (h : s.target id path = .ok ⟨c, .leaf k v⟩) :
    c ∈ s.searched id ∧ v ∈ (s.sheet c).leaves := by
  obtain ⟨parts, -, hfind⟩ := target_ok.1 h
  obtain ⟨d, hd, hproperty⟩ := List.exists_of_findSome?_eq_some hfind
  obtain ⟨p, hp, hpt⟩ := Option.map_eq_some_iff.1 hproperty
  cases hpt
  rw [propertyAt?_eq] at hp
  obtain ⟨x, hx, hpx⟩ := Option.bind_eq_some_iff.1 hp
  refine ⟨hd, Stylesheet.mem_leaves.2 ⟨x, (mem_of_find? hx).1, ?_⟩⟩
  unfold propertyIn? at hpx
  split at hpx
  · obtain ⟨n, hn, hpn⟩ := Option.bind_eq_some_iff.1 hpx
    exact Style.leaves_subset_of_nested? hn (Style.mem_leaves_of_property? hpn)
  · exact Style.mem_leaves_of_property? hpx

end Suite

end Appearance
