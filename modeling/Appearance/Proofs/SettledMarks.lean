import Appearance.Proofs.Alike
import Appearance.Proofs.Ascent
import Appearance.Proofs.RedirectTypes

/-!
# Styles that are marked already

To mark a style again with the same ancestors changes nothing (`Style.inheriting_inheriting`), and
to open it again neither (`Style.opened_opened`). A marked style has what it was marked for: so in
every suite in which the same ancestors are found it is marked to itself (`inheritingStyle_again`).
Marking depends on the stylesheets from which a style can derive and on no other; these are the
`Suite.SameGrounds` of two suites.

The search for ancestors is bounded by the number of styles of the suite. That is enough for every
search, as it comes to different places only (`ancestorsFrom_of_lt`), so it does no harm that a
suite grows while it is prepared.

A second run differs from the first in three ways: the suite has changed, the styles are marked
already, and more of them are open. Each is dealt with on its own. The ancestors that are found
depend on grounds within reach only (`SameGrounds`), whatever the number of steps; marking the same
style with the same ancestors is idempotent, head by head; and opening is compatible with marking
in either order. `withInheritance_again` puts the three together.
-/

namespace Appearance

namespace Style

open Ancestor (allNested)

/-! ## Marking again -/

@[simp] theorem heirHead_heirHead (h : StyleHead) (as : List Ancestor) :
    heirHead (heirHead h as) as = heirHead h as := by
  unfold heirHead
  split <;> rfl

/-- The head of a nested style that was marked is marked to itself. -/
theorem nestedHeirHead_heirHead (stem : String) (h : StyleHead) (as : List Ancestor) :
    nestedHeirHead stem (heirHead (nestedHeirHead stem h as) as) as =
      heirHead (nestedHeirHead stem h as) as := by
  cases as with
  | nil => rfl
  | cons a as =>
    unfold heirHead
    split <;> rfl

/-- A nested style that is marked twice is marked once, if its properties are. -/
theorem nestedHeir_nestedHeir (style : StyleHead) (as : List Ancestor) {n : Style}
    (ih : ∀ (style : StyleHead) (as : List Ancestor), inheritingEach style
      (inheritingEach style n.properties as) as = inheritingEach style n.properties as) :
    nestedHeir style as (nestedHeir style as n) = nestedHeir style as n := by
  have hname := name_nestedHeir style as n
  rw [nestedHeir, hname]
  simp only [nestedHeir, head_mk, properties_mk, nestedHeirHead_heirHead, heirHead_heirHead, ih]

/-- Properties that are marked twice are marked once. -/
theorem inheritingEach_inheritingEach (s : Style) (style : StyleHead) (as : List Ancestor) :
    inheritingEach style (inheritingEach style s.properties as) as =
      inheritingEach style s.properties as := by
  induction s using Style.induction generalizing style as with
  | mk h ps ih =>
    simp only [inheritingEach_eq, properties_mk, List.map_map]
    refine List.map_congr_left fun p hp => ?_
    cases p with
    | leaf k v => simp only [Function.comp_apply, heirProperty, Bool.or_assoc, Bool.or_self]
    | nested k n =>
      simp only [Function.comp_apply, heirProperty, Bool.or_assoc, Bool.or_self,
        nestedHeir_nestedHeir style as (ih k n hp)]

/-- To mark a style with the same ancestors again changes nothing. -/
theorem inheriting_inheriting (s : Style) (as : List Ancestor) :
    (s.inheriting as).inheriting as = s.inheriting as := by
  simp only [inheriting, head_mk, properties_mk, heirHead_heirHead, inheritingEach_inheritingEach]

theorem inherits_inheriting (s : Style) (as : List Ancestor) :
    (s.inheriting as).head.inherits = s.head.inherits :=
  inherits_heirHead s.head as

/-- A style that derives from an ancestor already. -/
theorem derived_eq_self {y : Style} {a : Ancestor} (hinherits : y.head.inherits = some a.path)
    (htype : y.head.isOverride = true → y.head.accessorType = some a.accessorType) :
    y.derived a = y := by
  obtain ⟨h, ps⟩ := y
  rw [head_mk] at hinherits htype
  rw [derived, head_mk, ← hinherits]
  split
  · next hover =>
    rw [← htype hover]
    rfl
  · rfl

theorem withHead_inherits_eq_self {y : Style} {path : String}
    (h : y.head.inherits = some path) :
    y.withHead { y.head with inherits := some path } = y := by
  obtain ⟨h, ps⟩ := y
  rw [← h]
  rfl

/-! ## Opening again -/

/-- A nested style that is open, with an accessor that is open. -/
def openedNested (s : Style) : Style :=
  s.opened.withHead { s.opened.head with isNestedOverridable := true }

/-- A property that is open, with all that is in it. -/
def openProperty : Property → Property
  | .leaf head value => .leaf { head with isOverridable := true } value
  | .nested head n => .nested { head with isOverridable := true } n.openedNested

/-- Properties are opened one by one. -/
theorem openedEach_eq (ps : List Property) : openedEach ps = ps.map openProperty := by
  induction ps with
  | nil => rw [openedEach, List.map_nil]
  | cons p ps ih =>
    rw [List.map_cons, ← ih]
    cases p <;> rw [openedEach, openProperty]
    rfl

theorem opened_mk (h : StyleHead) (ps : List Property) :
    (mk h ps).opened = mk { h with isOverridable := true } (ps.map openProperty) := by
  rw [opened, openedEach_eq]

theorem openedNested_mk (h : StyleHead) (ps : List Property) :
    (mk h ps).openedNested =
      mk { h with isOverridable := true, isNestedOverridable := true } (ps.map openProperty) := by
  rw [openedNested, opened_mk]
  rfl

theorem map_eq_self_iff {α : Type} {f : α → α} {l : List α} :
    l.map f = l ↔ ∀ a ∈ l, f a = a := by
  conv_lhs => rhs; rw [← List.map_id l]
  exact List.map_inj_left

/-- A style is open if its head and all of its properties are. -/
theorem opened_eq_self_iff {s : Style} :
    s.opened = s ↔ s.head.isOverridable = true ∧ ∀ p ∈ s.properties, openProperty p = p := by
  obtain ⟨h, ps⟩ := s
  rw [opened_mk, mk.injEq, map_eq_self_iff]
  refine and_congr ⟨fun hh => ?_, fun hh => ?_⟩ Iff.rfl
  · rw [head_mk, ← hh]
  · cases h
    obtain rfl := hh
    rfl

/-- A nested style is open if it can be overridden in both ways and all its properties are open. -/
theorem openedNested_eq_self_iff {s : Style} :
    s.openedNested = s ↔ (s.head.isOverridable = true ∧ s.head.isNestedOverridable = true) ∧
      ∀ p ∈ s.properties, openProperty p = p := by
  obtain ⟨h, ps⟩ := s
  rw [openedNested_mk, mk.injEq, map_eq_self_iff]
  refine and_congr ⟨fun hh => ?_, fun hh => ?_⟩ Iff.rfl
  · rw [head_mk, ← hh]
    exact ⟨rfl, rfl⟩
  · cases h
    obtain ⟨rfl, rfl⟩ := hh
    rfl

/-- An open property stays what it is. -/
theorem openProperty_openProperty (s : Style) {p : Property} (hp : p ∈ s.properties) :
    openProperty (openProperty p) = openProperty p := by
  induction s using Style.induction generalizing p with
  | mk h ps ih =>
    cases p with
    | leaf => rfl
    | nested k n =>
      have hn : ∀ q ∈ n.properties, openProperty (openProperty q) = openProperty q :=
        fun _ => ih k n hp
      obtain ⟨nh, nps⟩ := n
      simp only [openProperty, openedNested_mk, List.map_map]
      exact congrArg _ (congrArg _ (List.map_congr_left hn))

theorem opened_opened (s : Style) : s.opened.opened = s.opened := by
  obtain ⟨h, ps⟩ := s
  rw [opened_mk, opened_mk, List.map_map]
  exact congrArg _ (List.map_congr_left fun p hp => openProperty_openProperty (mk h ps) hp)

/-- The accessors with one of the names are open if the nested styles say so. -/
theorem openNested_eq_self_iff {names : List String} {s : Style} :
    s.openNested names = s ↔
      ∀ n ∈ s.nestedStyles, names.contains n.name = true → n.head.isNestedOverridable = true := by
  obtain ⟨h, ps⟩ := s
  rw [openNested, head_mk, mk.injEq, properties_mk, map_eq_self_iff]
  refine (and_iff_right rfl).trans ⟨fun hps n hn hname => ?_, fun hs p hp => ?_⟩
  · obtain ⟨k, hk⟩ := mem_nestedStyles.1 hn
    have hself := hps _ hk
    simp only [hname, if_true, Property.nested.injEq, true_and] at hself
    rw [← hself]
    rfl
  · cases p with
    | leaf => rfl
    | nested k n =>
      dsimp only
      split
      · next hname =>
        have hopen := hs n (mem_nestedStyles.2 ⟨k, hp⟩) hname
        obtain ⟨nh, nps⟩ := n
        rw [head_mk] at hopen
        rw [withHead, head_mk, ← hopen]
        rfl
      · rfl

/-- To open nested styles of the same names twice is to open them once. -/
theorem openNested_openNested (names : List String) (s : Style) :
    (s.openNested names).openNested names = s.openNested names := by
  refine openNested_eq_self_iff.2 fun n hn hname => ?_
  obtain ⟨k, hk⟩ := mem_nestedStyles.1 hn
  obtain ⟨h, ps⟩ := s
  rw [openNested, properties_mk] at hk
  obtain ⟨p, -, hp⟩ := List.mem_map.1 hk
  cases p with
  | leaf => cases hp
  | nested k' m =>
    dsimp only at hp
    split at hp
    · cases hp
      rfl
    · next hnot =>
      cases hp
      exact absurd hname hnot

/-- All accessors of an open style are open. -/
theorem openNested_opened (names : List String) (s : Style) :
    s.opened.openNested names = s.opened := by
  refine openNested_eq_self_iff.2 fun n hn _ => ?_
  obtain ⟨k, hk⟩ := mem_nestedStyles.1 hn
  have hopen := (opened_eq_self_iff.1 s.opened_opened).2 _ hk
  rw [openProperty, Property.nested.injEq] at hopen
  exact (openedNested_eq_self_iff.1 hopen.2).1.2

/-! ## Marking leaves open what is open -/

/-- Marking a head leaves what is open as it is. -/
theorem isOpen_heirHead (stem : String) (h : StyleHead) (as : List Ancestor) :
    (heirHead (nestedHeirHead stem h as) as).isOverridable = h.isOverridable ∧
      (heirHead (nestedHeirHead stem h as) as).isNestedOverridable = h.isNestedOverridable := by
  cases as with
  | nil => exact ⟨rfl, rfl⟩
  | cons a as =>
    unfold heirHead
    split <;> exact ⟨rfl, rfl⟩

/-- An open property stays open when it is marked. -/
theorem openProperty_heirProperty (s : Style) {style : StyleHead}
    (hstyle : style.isOverridable = true) (as : List Ancestor) {p : Property}
    (hp : p ∈ s.properties) (hopen : openProperty p = p) :
    openProperty (heirProperty style as p) = heirProperty style as p := by
  induction s using Style.induction generalizing style as p with
  | mk h ps ih =>
    cases p with
    | leaf k v => simp only [heirProperty, openProperty, hstyle, Bool.or_true]
    | nested k n =>
      rw [openProperty, Property.nested.injEq, openedNested_eq_self_iff] at hopen
      obtain ⟨-, hhead, hproperties⟩ := hopen
      simp only [heirProperty, openProperty, hstyle, Bool.or_true, Property.nested.injEq, true_and]
      obtain ⟨hover, hnested⟩ := isOpen_heirHead style.classStem n.head (allNested n.name as)
      refine openedNested_eq_self_iff.2 ⟨⟨hover.trans hhead.1, hnested.trans hhead.2⟩, ?_⟩
      intro q hq
      rw [nestedHeir, properties_mk, inheritingEach_eq] at hq
      obtain ⟨q', hq', rfl⟩ := List.mem_map.1 hq
      exact ih k n hp (hover.trans hhead.1) _ hq' (hproperties q' hq')

/-- An open style stays open when it is marked. -/
theorem opened_inheriting {s : Style} (h : s.opened = s) (as : List Ancestor) :
    (s.inheriting as).opened = s.inheriting as := by
  obtain ⟨hhead, hproperties⟩ := opened_eq_self_iff.1 h
  have hover : (heirHead s.head as).isOverridable = true := by
    rw [← hhead]
    unfold heirHead
    split <;> rfl
  refine opened_eq_self_iff.2 ⟨hover, fun q hq => ?_⟩
  rw [inheriting, properties_mk, inheritingEach_eq] at hq
  obtain ⟨p, hp, rfl⟩ := List.mem_map.1 hq
  exact openProperty_heirProperty s hover as hp (hproperties p hp)

/-- Open nested styles stay open when the style is marked. -/
theorem openNested_inheriting {names : List String} {s : Style} (h : s.openNested names = s)
    (as : List Ancestor) : (s.inheriting as).openNested names = s.inheriting as := by
  rw [openNested_eq_self_iff] at h ⊢
  intro n hn hname
  rw [nestedStyles_of_inheritingEach (x := s) (y := s.inheriting as) rfl] at hn
  obtain ⟨m, hm, rfl⟩ := List.mem_map.1 hn
  rw [name_nestedHeir] at hname
  exact (isOpen_heirHead _ m.head _).2.trans (h m hm hname)

end Style

namespace Suite

variable {s u r : Suite} {settings : Settings} {id : SheetId} {done : List Style}

/-! ## The search for ancestors -/

/-- A ground on which a style of the stylesheet can have ancestors. -/
def Reachable (s : Suite) (id : SheetId) (ground : Ground) : Prop :=
  ∀ b, ground = .base b → s.superclass? id = some b

/-- Where the search goes on is within reach. -/
theorem Reachable.next {ground : Ground} {x : Style} {next : Ground × String}
    (h : s.Reachable id ground) (hnext : s.nextAncestor? id ground x = some next) :
    s.Reachable id next.1 := by
  unfold nextAncestor? at hnext
  split at hnext
  · obtain ⟨b, hb, rfl⟩ := Option.map_eq_some_iff.1 hnext
    intro c hc
    cases hc
    exact hb
  · obtain ⟨n, -, rfl⟩ := Option.map_eq_some_iff.1 hnext
    dsimp only
    split
    · nofun
    · exact h

/-- Where the styles of a stylesheet that is searched are looked up. -/
def groundOf (id : SheetId) : SheetId → Ground
  | .imported => .imported
  | c => if c = id then .own else .base c

/-- The places at which a style of the stylesheet can have ancestors. -/
def places (s : Suite) (id : SheetId) : List (Ground × String) :=
  (s.searched id).flatMap fun c => (s.sheet c).allStyles.map fun x => (groundOf id c, x.name)

/-- There are not more places than styles. -/
theorem length_places_le (hid : id ∈ s.ids) (hbase : ∀ b, s.superclass? id = some b → b ∈ s.ids) :
    (s.places id).length ≤ s.styleCount := by
  have himported : (s.importedId?.toList.flatMap fun c => (s.sheet c).allStyles) =
      s.imported.toList.flatMap Stylesheet.allStyles := by
    rw [importedId?]
    cases hi : s.imported with
    | none => rfl
    | some t => simp [sheet, sheet?, hi]
  have hlength : (s.places id).length =
      ((id :: (s.superclass? id).toList).flatMap fun c => (s.sheet c).allStyles).length +
        (s.imported.toList.flatMap Stylesheet.allStyles).length := by
    simp only [places, searched, List.length_flatMap, List.length_map, List.map_append,
      List.sum_append, ← himported]
  rw [hlength]
  refine length_flatMap_le_styleCount s ?_ ?_
  · rw [List.nodup_cons, Option.mem_toList]
    refine ⟨fun hsup => ne_of_superclass? hsup rfl, ?_⟩
    cases s.superclass? id <;> simp
  · refine List.cons_subset.2 ⟨hid, fun b hb => hbase b (Option.mem_toList.1 hb)⟩

/-- What is found is found at one of the places. -/
theorem mem_places (hid : id ∈ s.ids)
    (hdone : ∀ x ∈ done, x.name ∈ (s.sheet id).allStyles.map Style.name)
    {p : Ground × String} {x : Style} (hp : s.Reachable id p.1)
    (hx : s.styleOn? done p.1 p.2 = some x) : p ∈ s.places id := by
  obtain ⟨i, -, rfl⟩ := mem_ids.1 hid
  obtain ⟨ground, n⟩ := p
  have hmem : ∀ c ∈ s.searched (.registered i), n ∈ (s.sheet c).allStyles.map Style.name →
      groundOf (.registered i) c = ground → (ground, n) ∈ s.places (.registered i) := by
    rintro c hc hn rfl
    obtain ⟨y, hy, rfl⟩ := List.mem_map.1 hn
    exact List.mem_flatMap.2 ⟨c, hc, List.mem_map_of_mem hy⟩
  cases ground with
  | own =>
    obtain rfl : x.name = n := by simpa using List.find?_some hx
    exact hmem _ (mem_searched.2 (.inl rfl)) (hdone x (List.mem_of_find?_eq_some hx))
      (by simp [groundOf])
  | base b =>
    have hb := hp b rfl
    obtain ⟨hxb, rfl⟩ := mem_of_find? hx
    obtain ⟨_, k, hi, -, rfl, hne⟩ := superclass?_eq_some.1 hb
    cases hi
    exact hmem _ (mem_searched.2 (.inr (.inl hb))) (List.mem_map_of_mem hxb)
      (by simp [groundOf, Ne.symm hne])
  | imported =>
    obtain ⟨c, hc, hxc⟩ := Option.bind_eq_some_iff.1 hx
    obtain ⟨hxmem, rfl⟩ := mem_of_find? hxc
    have hsearched : c ∈ s.searched (.registered i) := mem_searched.2 (.inr (.inr hc))
    obtain ⟨t, -, rfl⟩ := Option.map_eq_some_iff.1 hc
    exact hmem _ hsearched (List.mem_map_of_mem hxmem) rfl

/-- Two searches find the same if neither runs out of steps before it was at every place. -/
theorem ancestorsFrom_steps {places : List (Ground × String)}
    (hplaces : ∀ p x, s.Reachable id p.1 → s.styleOn? done p.1 p.2 = some x → p ∈ places)
    {steps steps' : Nat} {met : List (Ground × String)} {next : Ground × String}
    (hnext : s.Reachable id next.1) (hnodup : met.Nodup) (hmet : met ⊆ places)
    (h : places.length < steps + met.length) (h' : places.length < steps' + met.length) :
    s.ancestorsFrom settings id done steps met next =
      s.ancestorsFrom settings id done steps' met next := by
  have hlength := (List.subperm_of_subset hnodup hmet).length_le
  induction steps generalizing steps' met next with
  | zero => omega
  | succ steps ih =>
    obtain ⟨steps', rfl⟩ := Nat.exists_eq_add_one.2 (show 0 < steps' by omega)
    rw [ancestorsFrom, ancestorsFrom]
    split
    · rfl
    · next hnew =>
      split
      · rfl
      · next x hx =>
        refine congrArg _ ?_
        split
        · next after hafter =>
          have hnodup' := nodup_snoc hnodup hnew
          have hmet' : met ++ [next] ⊆ places := List.append_subset.2
            ⟨hmet, List.cons_subset.2 ⟨hplaces next x hnext hx, List.nil_subset _⟩⟩
          exact ih (hnext.next hafter) hnodup' hmet' (by simp; omega) (by simp; omega)
            (List.subperm_of_subset hnodup' hmet').length_le
        · rfl

/-- The number of styles is a bound that no search needs. -/
theorem ancestorsFrom_of_lt (hid : id ∈ s.ids) (hbase : ∀ b, s.superclass? id = some b → b ∈ s.ids)
    (hdone : ∀ x ∈ done, x.name ∈ (s.sheet id).allStyles.map Style.name)
    {first : Ground × String} (hfirst : s.Reachable id first.1) {steps : Nat}
    (hsteps : s.styleCount < steps) :
    s.ancestorsFrom settings id done steps [] first =
      s.ancestorsFrom settings id done (s.styleCount + 1) [] first := by
  have hle := length_places_le hid hbase
  exact ancestorsFrom_steps (fun p x => mem_places hid hdone) hfirst List.nodup_nil
    (List.nil_subset _) (by simp; omega) (by simp; omega)

/-! ## Two suites -/

/-- The styles of a stylesheet derive from the same styles in both suites. -/
structure SameGrounds (u r : Suite) (id : SheetId) : Prop where
  base?_eq : r.base? = u.base?
  imported_eq : r.imported = u.imported
  ids_eq : r.ids = u.ids
  name_eq : (r.sheet id).name = (u.sheet id).name
  base_eq : ∀ b, u.superclass? id = some b → r.sheet b = u.sheet b

namespace SameGrounds

variable (h : SameGrounds u r id)

include h

theorem isLinked_eq : r.isLinked = u.isLinked := by
  rw [isLinked, isLinked, h.base?_eq]

/-- On a ground within reach both suites have the same styles. -/
theorem styleOn?_eq {ground : Ground} (hground : u.Reachable id ground) (n : String) :
    r.styleOn? done ground n = u.styleOn? done ground n := by
  cases ground with
  | own => rfl
  | base b => exact find?_congr h.isLinked_eq (h.base_eq b (hground b rfl)) n
  | imported =>
    rw [styleOn?, styleOn?, importedId?, importedId?, h.imported_eq]
    cases hi : u.imported with
    | none => rfl
    | some t =>
      refine find?_congr h.isLinked_eq ?_ n
      rw [sheet, sheet?, h.imported_eq]
      rfl

theorem classPath_eq {ground : Ground} (hground : u.Reachable id ground) (x : Style) :
    r.classPath settings id ground x = u.classPath settings id ground x := by
  cases ground with
  | own => rw [classPath, classPath, h.name_eq]
  | base b => rw [classPath, classPath, h.base_eq b (hground b rfl)]
  | imported => rw [classPath, classPath, sheet, sheet, sheet?, sheet?, h.imported_eq]

theorem nextAncestor?_eq (ground : Ground) (x : Style) :
    r.nextAncestor? id ground x = u.nextAncestor? id ground x := by
  rw [nextAncestor?, nextAncestor?, superclass?_congr h.base?_eq]

/-- From a ground within reach the same ancestors are found in both suites. -/
theorem ancestorsFrom_eq {steps : Nat} {met : List (Ground × String)} {next : Ground × String}
    (hnext : u.Reachable id next.1) :
    r.ancestorsFrom settings id done steps met next =
      u.ancestorsFrom settings id done steps met next := by
  induction steps generalizing met next with
  | zero => rfl
  | succ steps ih =>
    rw [ancestorsFrom, ancestorsFrom, h.styleOn?_eq hnext]
    split
    · rfl
    · split
      · rfl
      · next x hx =>
        rw [h.classPath_eq hnext, h.nextAncestor?_eq]
        refine congrArg _ ?_
        split
        · next after hafter => exact ih (hnext.next hafter)
        · rfl

theorem baseWith?_eq (n : String) : r.baseWith? id n = u.baseWith? id n := by
  rw [baseWith?, baseWith?, superclass?_congr h.base?_eq]
  cases hb : u.superclass? id with
  | none => rfl
  | some b =>
    rw [Option.filter_some, Option.filter_some, find?_congr h.isLinked_eq (h.base_eq b hb)]

theorem declaredAncestor?_eq (x : Style) :
    r.declaredAncestor? id done x = u.declaredAncestor? id done x := by
  simp only [declaredAncestor?, h.baseWith?_eq, unknownStyle, h.name_eq]

end SameGrounds

/-! ## One style -/

theorem overriding_eq_self {y : Style} (hover : y.head.isOverride = true)
    (hname : y.head.overrideName = some ((s.sheet id).name ++ y.name)) :
    s.overriding id y = y := by
  obtain ⟨h, ps⟩ := y
  rw [overriding, ← hover, ← hname]
  rfl

variable {x y : Style}

/-- The ancestors from a superclass on. -/
theorem reachable_of_declaredAncestor? {first : Ground × String}
    (h : s.declaredAncestor? id done x = .ok (some first)) : s.Reachable id first.1 := by
  rcases declaredAncestor?_cases h with ⟨n, rfl, -⟩ | ⟨n, -, ⟨rfl, -⟩ | ⟨b, rfl, hb, -⟩⟩
  · nofun
  · nofun
  · intro c hc
    cases hc
    exact (Option.filter_eq_some_iff.1 hb).1

theorem declaredAncestor?_congr_style
    (h : y.outline StyleHead.declared = x.outline StyleHead.declared) :
    s.declaredAncestor? id done y = s.declaredAncestor? id done x := by
  obtain ⟨-, hsuper, himported⟩ := localSuperclass?_congr h
  rw [declaredAncestor?, declaredAncestor?, hsuper, himported]
  simp only [unknownStyle, Style.name_eq_of_outline h]

/-- A style that derives from one that was not met before is marked to itself again. -/
theorem derivingUnseen_again {n : String} (hy : u.derivingUnseen settings id x n = .ok y) :
    r.derivingUnseen settings id y n = .ok y := by
  have hself : ∀ path, y = (x.withHead { x.head with inherits := some path }).inheriting [] →
      (y.withHead { y.head with inherits := some path }).inheriting [] = y := by
    intro path hpath
    have hinherits : y.head.inherits = some path := by
      rw [hpath]
      exact Style.inherits_inheriting _ _
    rw [Style.withHead_inherits_eq_self hinherits, hpath, Style.inheriting_inheriting]
  unfold derivingUnseen at hy ⊢
  split at hy
  · cases hy
  · exact congrArg Except.ok (hself _ (Except.ok.inj hy).symm)

section Again

variable (h : SameGrounds u r id) (hid : id ∈ u.ids)
  (hbase : ∀ b, u.superclass? id = some b → b ∈ u.ids)
  (hdone : ∀ x ∈ done, x.name ∈ (u.sheet id).allStyles.map Style.name)
  (hdone' : ∀ x ∈ done, x.name ∈ (r.sheet id).allStyles.map Style.name)

include h hid hbase hdone hdone'

/-- Both suites find the same ancestors, however many styles they have. -/
theorem SameGrounds.ancestors_eq {first : Ground × String} (hfirst : u.Reachable id first.1) :
    r.ancestorsFrom settings id done (r.styleCount + 1) [] first =
      u.ancestorsFrom settings id done (u.styleCount + 1) [] first := by
  have hfirst' : r.Reachable id first.1 := fun b hb => by
    rw [superclass?_congr h.base?_eq]
    exact hfirst b hb
  have hbase' : ∀ b, r.superclass? id = some b → b ∈ r.ids := fun b hb => by
    rw [superclass?_congr h.base?_eq] at hb
    exact h.ids_eq ▸ hbase b hb
  rw [← ancestorsFrom_of_lt (h.ids_eq ▸ hid) hbase' hdone' hfirst'
      (show r.styleCount < r.styleCount + u.styleCount + 1 by omega),
    h.ancestorsFrom_eq hfirst, ancestorsFrom_of_lt hid hbase hdone hfirst (by omega)]

/-- An heir is marked to itself in every suite in which the same ancestors are found. -/
theorem heir_again {first : Ground × String} (hfirst : u.Reachable id first.1)
    (hy : u.heir settings id done x first = .ok y) : r.heir settings id done y first = .ok y := by
  obtain ⟨a, rest, hancestors, rfl⟩ := heir_ok hy
  have hself : ((x.derived a).inheriting (a :: rest)).derived a =
      (x.derived a).inheriting (a :: rest) := by
    refine Style.derived_eq_self (Style.inherits_inheriting _ _) fun hover => ?_
    rw [Style.isOverride_inheriting] at hover
    exact (Style.accessorType_heirHead _ _).trans (if_pos hover)
  unfold heir
  rw [h.ancestors_eq hid hbase hdone hdone' hfirst, hancestors]
  change Except.ok ((((x.derived a).inheriting (a :: rest)).derived a).inheriting (a :: rest)) = _
  rw [hself, Style.inheriting_inheriting]

/-- A marked style is marked to itself, in every suite in which it has the same ancestors. -/
theorem inheritingStyle_again (hy : u.inheritingStyle settings id done x = .ok y) :
    r.inheritingStyle settings id done y = .ok y := by
  have hname := name_inheritingStyle hy
  have hout := outline_inheritingStyle hy
  unfold inheritingStyle at hy ⊢
  rw [hname, h.baseWith?_eq, h.declaredAncestor?_eq, declaredAncestor?_congr_style hout,
    h.imported_eq]
  split at hy
  · next b hb =>
    have hfirst : u.Reachable id (.base b) := fun c hc => by
      cases hc
      exact (Option.filter_eq_some_iff.1 hb).1
    have hself : r.overriding id y = y := by
      obtain ⟨a, rest, -, rfl⟩ := heir_ok hy
      refine overriding_eq_self (Style.isOverride_inheriting _ _) ?_
      rw [h.name_eq, hname]
      exact Style.overrideName_heirHead _ _
    simp only [hself]
    exact heir_again h hid hbase hdone hdone' hfirst hy
  · split at hy
    · cases hy
    · cases hy
      rw [Style.inheriting_inheriting]
    · next ground superclass hdeclared =>
      split at hy
      · next hunseen =>
        simp only [hunseen, if_true]
        exact derivingUnseen_again hy
      · next hseen =>
        simp only [hseen]
        exact heir_again h hid hbase hdone hdone' (reachable_of_declaredAncestor? hdeclared) hy

end Again

/-! ## What is open in a stylesheet -/

theorem localSuperclass?_outline (x : Style) :
    (x.outline StyleHead.declared).localSuperclass? = x.localSuperclass? := by
  rw [Style.localSuperclass?, Style.head_outline]
  rfl

/-- The style is as open as it gets in a stylesheet: it is open if others extend it, and its
accessors are where several styles have one of the name. -/
structure IsOpenIn (t : Stylesheet) (x : Style) : Prop where
  opened : t.isBase = true ∨ x.name ∈ t.styles.filterMap Style.localSuperclass? → x.opened = x
  shared : t.isBase = false → x.openNested (Style.sharedNames t.styles) = x

theorem sharedNames_map {f : Style → Style}
    (hf : ∀ x, (f x).nestedStyles.map Style.name = x.nestedStyles.map Style.name)
    (l : List Style) : Style.sharedNames (l.map f) = Style.sharedNames l := by
  simp only [Style.sharedNames, List.flatMap_map, hf]

/-- The style, open if others of the stylesheet derive from it. -/
def openedIn (t : Stylesheet) (x : Style) : Style :=
  if t.isBase || (t.styles.filterMap Style.localSuperclass?).contains x.name then x.opened else x

theorem openedIn_of_open {t : Stylesheet}
    (h : t.isBase = true ∨ x.name ∈ t.styles.filterMap Style.localSuperclass?) :
    openedIn t x = x.opened := by
  refine if_pos ?_
  rw [Bool.or_eq_true, List.contains_iff_mem]
  exact h

theorem openedIn_of_not_open {t : Stylesheet}
    (h : ¬(t.isBase = true ∨ x.name ∈ t.styles.filterMap Style.localSuperclass?)) :
    openedIn t x = x := by
  refine if_neg ?_
  rw [Bool.or_eq_true, List.contains_iff_mem]
  exact h

/-- The styles of a stylesheet are opened one by one. -/
theorem openStyles_eq_map (t : Stylesheet) :
    openStyles t = if t.isBase then t.styles.map (openedIn t)
      else t.styles.map fun x => (openedIn t x).openNested (Style.sharedNames t.styles) := by
  have hnames : Style.sharedNames (t.styles.map (openedIn t)) = Style.sharedNames t.styles :=
    sharedNames_map (fun x => Style.nestedNames_eq_of_outline
      (Style.outline_declared_of_closed (outline_openedIf _ x))) t.styles
  change (if t.isBase then t.styles.map (openedIn t) else
    (t.styles.map (openedIn t)).map
      (Style.openNested (Style.sharedNames (t.styles.map (openedIn t))))) = _
  rw [hnames, List.map_map]
  rfl

/-- Where all styles are open nothing is opened. -/
theorem openStyles_eq_self {t : Stylesheet} (h : ∀ x ∈ t.styles, IsOpenIn t x) :
    openStyles t = t.styles := by
  have hopened : ∀ x ∈ t.styles, openedIn t x = x := fun x hx => by
    by_cases hopen : t.isBase = true ∨ x.name ∈ t.styles.filterMap Style.localSuperclass?
    · rw [openedIn_of_open hopen, (h x hx).opened hopen]
    · exact openedIn_of_not_open hopen
  rw [openStyles_eq_map]
  split
  · exact Style.map_eq_self_iff.2 hopened
  · next hbase =>
    refine Style.map_eq_self_iff.2 fun x hx => ?_
    rw [hopened x hx, (h x hx).shared (by simpa using hbase)]

/-- All styles are open once they have been opened. -/
theorem isOpenIn_of_mem_openStyles {t : Stylesheet} (hx : x ∈ openStyles t) : IsOpenIn t x := by
  have hname : ∀ z, (openedIn t z).name = z.name := fun z =>
    Style.name_eq_of_outline (Style.outline_declared_of_closed (outline_openedIf _ z))
  have hopened : ∀ z, t.isBase = true ∨ z.name ∈ t.styles.filterMap Style.localSuperclass? →
      (openedIn t z).opened = openedIn t z := fun z hopen => by
    rw [openedIn_of_open hopen, Style.opened_opened]
  rw [openStyles_eq_map] at hx
  split at hx
  · next hbase =>
    obtain ⟨z, -, rfl⟩ := List.mem_map.1 hx
    exact ⟨fun _ => hopened z (.inl hbase), fun hnot => by rw [hbase] at hnot; cases hnot⟩
  · next hbase =>
    obtain ⟨z, -, rfl⟩ := List.mem_map.1 hx
    refine ⟨fun hopen => ?_, fun _ => Style.openNested_openNested _ _⟩
    have hopen' : t.isBase = true ∨ z.name ∈ t.styles.filterMap Style.localSuperclass? := by
      rwa [← hname z, ← Style.name_eq_of_outline (Style.outline_declared_of_closed
        (Style.outline_openNested (Style.sharedNames t.styles) (openedIn t z)))]
    rw [openedIn_of_open hopen', Style.openNested_opened, Style.opened_opened]

/-- Which styles are to be open depends on names and on what the styles extend. -/
theorem IsOpenIn.congr {t m : Stylesheet} (h : IsOpenIn t x) (hbase : m.isBase = t.isBase)
    (hout : m.styles.map (Style.outline StyleHead.declared) =
      t.styles.map (Style.outline StyleHead.declared)) : IsOpenIn m x := by
  have hextended : m.styles.filterMap Style.localSuperclass? =
      t.styles.filterMap Style.localSuperclass? := by
    have hlist : ∀ l : List Style, l.filterMap Style.localSuperclass? =
        (l.map (Style.outline StyleHead.declared)).filterMap Style.localSuperclass? := fun l => by
      rw [List.filterMap_map]
      exact List.filterMap_congr fun z _ => (localSuperclass?_outline z).symm
    rw [hlist, hout, ← hlist]
  have hshared : Style.sharedNames m.styles = Style.sharedNames t.styles := by
    rw [← sharedNames_map Style.nestedNames_outline, hout,
      sharedNames_map Style.nestedNames_outline]
  constructor
  · rw [hbase, hextended]
    exact h.opened
  · rw [hbase, hshared]
    exact h.shared

/-! ## Marking what is open -/

/-- Marking fills in the head and goes through the properties. It does not close what is open. -/
theorem exists_inheriting_of_inheritingStyle (hy : u.inheritingStyle settings id done x = .ok y) :
    ∃ head as, y = (x.withHead head).inheriting as ∧ head.isOverridable = x.head.isOverridable := by
  rcases inheritingStyle_ok hy with ⟨b, a, rest, -, -, rfl⟩ | ⟨-, -, rfl⟩ |
    ⟨-, first, a, rest, -, -, rfl⟩ | ⟨-, -, path, rfl⟩
  · exact ⟨_, _, rfl, rfl⟩
  · exact ⟨x.head, _, rfl, rfl⟩
  · exact ⟨_, _, rfl, rfl⟩
  · exact ⟨_, _, rfl, rfl⟩

/-- An open style is marked to an open style. -/
theorem opened_inheritingStyle (hx : x.opened = x)
    (hy : u.inheritingStyle settings id done x = .ok y) : y.opened = y := by
  obtain ⟨head, as, rfl, hhead⟩ := exists_inheriting_of_inheritingStyle hy
  obtain ⟨hover, hproperties⟩ := Style.opened_eq_self_iff.1 hx
  have hopen : (x.withHead head).opened = x.withHead head :=
    Style.opened_eq_self_iff.2 ⟨hhead.trans hover, hproperties⟩
  exact Style.opened_inheriting hopen as

/-- What has to be open in a stylesheet is open after marking. -/
theorem IsOpenIn.inheritingStyle {t : Stylesheet} (hx : IsOpenIn t x)
    (hy : u.inheritingStyle settings id done x = .ok y) : IsOpenIn t y := by
  refine ⟨fun hopen => ?_, fun hbase => ?_⟩
  · rw [name_inheritingStyle hy] at hopen
    exact opened_inheritingStyle (hx.opened hopen) hy
  · have hnested := Style.openNested_eq_self_iff.1 (hx.shared hbase)
    obtain ⟨head, as, rfl, -⟩ := exists_inheriting_of_inheritingStyle hy
    have hshared : (x.withHead head).openNested (Style.sharedNames t.styles) = x.withHead head :=
      Style.openNested_eq_self_iff.2 hnested
    exact Style.openNested_inheriting hshared as

/-! ## One stylesheet -/

/-- A run over styles that were marked in such a run marks each of them to itself. -/
theorem inheritingStyles_again {styles styles' : List Style} {order : List Nat}
    {before : List Style} (hlength : styles'.length = styles.length)
    (hplace : ∀ (i : Nat) (x : Style), styles[i]? = some x → ∀ y ∈ done, y.name = x.name →
      styles'[i]? = some y)
    (hstep : ∀ earlier x y, earlier <:+ done → u.inheritingStyle settings id earlier x = .ok y →
      r.inheritingStyle settings id earlier y = .ok y)
    (h : u.inheritingStyles settings id styles order before = .ok done) :
    r.inheritingStyles settings id styles' order before = .ok done := by
  induction order generalizing before with
  | nil => exact h
  | cons i order ih =>
    have hsuffix := suffix_of_inheritingStyles h
    rw [inheritingStyles] at h ⊢
    split at h
    · next hnone =>
      have hnone' : styles'[i]? = none := by
        rw [List.getElem?_eq_none_iff] at hnone ⊢
        rwa [hlength]
      rw [hnone']
      exact ih h
    · next x hx =>
      split at h
      · cases h
      · next y hy =>
        have hmem := (suffix_of_inheritingStyles h).subset List.mem_cons_self
        rw [hplace i x hx y hmem (name_inheritingStyle hy)]
        simp only [hstep before x y hsuffix hy]
        exact ih h

/-- Styles of distinct names stand at the places of their names. -/
theorem getElem?_of_name_eq {styles styles' : List Style} (hd : (styles'.map Style.name).Nodup)
    (hnames : styles'.map Style.name = styles.map Style.name) {i : Nat}
    (hx : styles[i]? = some x) (hy : y ∈ styles') (hname : y.name = x.name) :
    styles'[i]? = some y := by
  obtain ⟨z, hz, hzx⟩ : ∃ z, styles'[i]? = some z ∧ z.name = x.name := by
    have hmap := congrArg (·[i]?) hnames
    simp only [List.getElem?_map, hx, Option.map_some] at hmap
    exact Option.map_eq_some_iff.1 hmap
  rw [hz, eq_of_mem_of_nodup hd (List.mem_of_getElem? hz) hy (hzx.trans hname.symm)]

/-- Of the styles that were marked in their places nothing is left to be opened. -/
theorem openStyles_of_marked {t m : Stylesheet} {order : List Nat}
    (hdone : u.inheritingStyles settings id (openStyles t) order [] = .ok done)
    (hmem : ∀ y ∈ m.styles, y ∈ done) (hbase : m.isBase = t.isBase)
    (hplaces : m.styles.map (Style.outline StyleHead.declared) =
      t.styles.map (Style.outline StyleHead.declared)) : openStyles m = m.styles := by
  refine openStyles_eq_self fun y hy => ?_
  rcases exists_of_mem_inheritingStyles hdone (hmem y hy) with hnil | ⟨x, hx, earlier, hxy⟩
  · cases hnil
  · exact ((isOpenIn_of_mem_openStyles hx).inheritingStyle hxy).congr hbase hplaces

/-- An animator that was marked is open where it has to be, and is marked to itself. -/
theorem animator_again {isBase : Bool} {before after : Option Style}
    (hstep : ∀ x y, u.inheritingStyle settings id done x = .ok y →
      r.inheritingStyle settings id done y = .ok y)
    (h : before.mapM (fun a => u.inheritingStyle settings id done
      (if isBase then a.opened else a)) = .ok after) :
    after.mapM (fun a => r.inheritingStyle settings id done
      (if isBase then a.opened else a)) = .ok after := by
  refine option_mapM_eq_self fun y hy => ?_
  have hrel := rel_of_mapM h
  rw [Option.mem_def.1 hy] at hrel
  cases hrel with
  | @some a _ hay =>
    have hself : (if isBase then y.opened else y) = y := by
      split
      · next hb =>
        rw [if_pos hb] at hay
        exact opened_inheritingStyle a.opened_opened hay
      · rfl
    rw [hself]
    exact hstep _ y hay

/-- A stylesheet that was marked is marked to itself, in every suite in which it stands and its
styles derive from the same styles. -/
theorem withInheritance_again (h : SameGrounds u r id) (hid : id ∈ u.ids)
    (hbase : ∀ b, u.superclass? id = some b → b ∈ u.ids)
    (hd : ((u.sheet id).styles.map Style.name).Nodup)
    (hm : u.withInheritance settings id = .ok (r.sheet id)) :
    r.withInheritance settings id = .ok (r.sheet id) := by
  obtain ⟨order, done, animator, horder, hdone, hanimator, heq⟩ := withInheritance_eq_ok hm
  obtain ⟨-, hperm⟩ := marked_openStyles horder hdone
  obtain ⟨hcollected, hplaces⟩ := collected hd hperm
  rw [names_openStyles, distinct_eq_self hd] at heq
  have hstyles : (r.sheet id).styles = ((u.sheet id).styles.map Style.name).filterMap
      fun name => done.find? (·.name == name) := by rw [heq]
  rw [← hstyles] at hcollected hplaces
  have hisBase : (r.sheet id).isBase = (u.sheet id).isBase := by rw [heq]; rfl
  have hanimator' : (r.sheet id).animator = animator := by rw [heq]
  have hnames : (r.sheet id).styles.map Style.name = (u.sheet id).styles.map Style.name := by
    rw [← map_name_outline, hplaces, map_name_outline]
  have hopen : openStyles (r.sheet id) = (r.sheet id).styles :=
    openStyles_of_marked hdone (fun _ hy => hcollected.mem_iff.1 hy) hisBase hplaces
  -- the order is the same, and each style is marked to itself
  have horder' : Style.extensionOrder (r.sheet id).styles = .ok order := by
    rw [← Style.extensionOrder_map Style.name_outline_declared localSuperclass?_outline, hplaces,
      ← outline_openStyles, Style.extensionOrder_map Style.name_outline_declared
        localSuperclass?_outline, horder]
  have hknown : ∀ earlier, earlier <:+ done →
      (∀ x ∈ earlier, x.name ∈ (u.sheet id).allStyles.map Style.name) ∧
        ∀ x ∈ earlier, x.name ∈ (r.sheet id).allStyles.map Style.name := by
    intro earlier hsuffix
    have hmem : ∀ x ∈ earlier, x.name ∈ (r.sheet id).styles.map Style.name := fun x hx =>
      List.mem_map_of_mem (hcollected.mem_iff.2 (hsuffix.subset hx))
    rw [Stylesheet.allStyles, Stylesheet.allStyles, List.map_append, List.map_append, ← hnames]
    exact ⟨fun x hx => List.mem_append_left _ (hmem x hx),
      fun x hx => List.mem_append_left _ (hmem x hx)⟩
  have hstep : ∀ earlier x y, earlier <:+ done →
      u.inheritingStyle settings id earlier x = .ok y →
        r.inheritingStyle settings id earlier y = .ok y := fun earlier x y hsuffix hy =>
    inheritingStyle_again h hid hbase (hknown earlier hsuffix).1 (hknown earlier hsuffix).2 hy
  have hdone' : r.inheritingStyles settings id (r.sheet id).styles order [] = .ok done := by
    refine inheritingStyles_again ?_ (fun i x hx y hy hname => ?_) hstep hdone
    · rw [← List.length_map (f := Style.name), hnames, ← names_openStyles, List.length_map]
    · refine getElem?_of_name_eq ?_ ?_ hx (hcollected.mem_iff.2 hy) hname
      · rw [hnames]
        exact hd
      · rw [hnames, names_openStyles]
  have hagain := animator_again (fun x y => hstep done x y List.suffix_rfl) hanimator
  rw [← hanimator', ← hisBase] at hagain
  rw [← hopen] at horder'
  rw [withInheritance_of_steps horder' (by rw [hopen, hdone']) hagain, hopen, hnames,
    distinct_eq_self hd, ← hstyles]

end Suite

end Appearance
