import Appearance.Proofs.Superclasses
import Mathlib.Data.List.Flatten

/-!
# The whole way up

`Suite.ancestorsFrom` stops at a place that it met before and after a number of steps.
`Suite.Ascent` is the search without either bound. It is determined, so an ascent that ends never
comes back to a place, and the bounded search finds the same (`ancestorsFrom_eq`).

So each style's list of ancestors goes on with the list of its first ancestor, or with the beginning
of that. The end is missing where the first ancestor extends an animator of the base: the search
that marks the ancestor looks in the base, a later one that comes from an heir of it does not. A
`Suite.Climb` is a list of classes with this property, and with every class of a prepared suite
begins one (`Prepares.exists_climb`). If no animator is extended it is a `Suite.Descent`, in which
each class is an heir of all that follow (`Prepares.exists_descent`).
-/

namespace Appearance.Suite

variable {s l r u v : Suite} {settings : Settings} {id : SheetId} {done : List Style}

/-! ## Ascents -/

/-- The ancestors from a ground and a name on, up to one that extends none or an unknown one. -/
inductive Ascent (s : Suite) (settings : Settings) (id : SheetId) (done : List Style) :
    Ground × String → List Ancestor → Prop
  | unknown {next : Ground × String} : s.styleOn? done next.1 next.2 = none →
    Ascent s settings id done next []
  | last {next : Ground × String} {x : Style} : s.styleOn? done next.1 next.2 = some x →
    s.nextAncestor? id next.1 x = none →
    Ascent s settings id done next [⟨s.classPath settings id next.1 x, x⟩]
  | step {next after : Ground × String} {x : Style} {as : List Ancestor} :
    s.styleOn? done next.1 next.2 = some x → s.nextAncestor? id next.1 x = some after →
    Ascent s settings id done after as →
    Ascent s settings id done next (⟨s.classPath settings id next.1 x, x⟩ :: as)

/-- An ascent from one place has one list of ancestors. -/
theorem Ascent.unique {next : Ground × String} {as bs : List Ancestor}
    (h : Ascent s settings id done next as) (h' : Ascent s settings id done next bs) : as = bs := by
  induction h generalizing bs with
  | unknown hx =>
    cases h' with
    | unknown => rfl
    | last hx' => rw [hx] at hx'; cases hx'
    | step hx' => rw [hx] at hx'; cases hx'
  | last hx hnext =>
    cases h' with
    | unknown hx' => rw [hx] at hx'; cases hx'
    | last hx' =>
      rw [hx] at hx'
      cases hx'
      rfl
    | step hx' hnext' =>
      rw [hx] at hx'
      cases hx'
      rw [hnext] at hnext'
      cases hnext'
  | step hx hnext _ ih =>
    cases h' with
    | unknown hx' => rw [hx] at hx'; cases hx'
    | last hx' hnext' =>
      rw [hx] at hx'
      cases hx'
      rw [hnext] at hnext'
      cases hnext'
    | step hx' hnext' hafter =>
      rw [hx] at hx'
      cases hx'
      rw [hnext] at hnext'
      cases hnext'
      rw [ih hafter]

/-- With enough steps the bounded search finds the whole ascent. A place that was met has a longer
ascent than the one that is left, so it is not met again. -/
theorem ancestorsFrom_eq {next : Ground × String} {as : List Ancestor}
    (h : Ascent s settings id done next as) {steps : Nat} {met : List (Ground × String)}
    (hsteps : as.length < steps)
    (hmet : ∀ p ∈ met, ∀ bs, Ascent s settings id done p bs → as.length < bs.length) :
    s.ancestorsFrom settings id done steps met next = as := by
  induction h generalizing steps met with
  | unknown hx =>
    obtain ⟨steps, rfl⟩ := Nat.exists_eq_add_one.2 (Nat.zero_lt_of_lt hsteps)
    rw [ancestorsFrom, hx]
    split <;> rfl
  | @last next x hx hnext =>
    obtain ⟨steps, rfl⟩ := Nat.exists_eq_add_one.2 (Nat.zero_lt_of_lt hsteps)
    have hnot : next ∉ met := fun hmem => lt_irrefl _ (hmet next hmem _ (.last hx hnext))
    rw [ancestorsFrom, if_neg hnot, hx]
    simp only [hnext]
  | @step next after x as hx hnext hafter ih =>
    obtain ⟨steps, rfl⟩ := Nat.exists_eq_add_one.2 (Nat.zero_lt_of_lt hsteps)
    have hself := Ascent.step hx hnext hafter
    have hnot : next ∉ met := fun hmem => lt_irrefl _ (hmet next hmem _ hself)
    rw [List.length_cons] at hsteps hmet
    rw [ancestorsFrom, if_neg hnot, hx]
    simp only [hnext]
    rw [ih (by omega) fun p hp bs hbs => ?_]
    rcases List.mem_append.1 hp with hp | hp
    · have := hmet p hp bs hbs
      omega
    · rw [List.mem_singleton.1 hp] at hbs
      rw [hbs.unique hself, List.length_cons]
      omega

/-! ## Ascents in the base -/

/-- A ground from which the base is searched, as it is seen from another stylesheet. -/
def groundFrom (b : SheetId) : Ground → Ground
  | .own => .base b
  | ground => ground

/-- A style that overrides none has the next ancestor that it has in its own stylesheet. -/
theorem nextAncestor?_base {b : SheetId} {x : Style} (hx : x.head.isOverride = false) :
    u.nextAncestor? id (.base b) x =
      (v.nextAncestor? b .own x).map fun next => (groundFrom b next.1, next.2) := by
  rw [nextAncestor?, nextAncestor?, hx]
  cases x.head.superclass with
  | none => rfl
  | some n =>
    simp only [Bool.false_and, Bool.false_eq_true, if_false, Option.map_some]
    split <;> rfl

/-- From a style that overrides nothing the search stays in the stylesheet or goes to the imported
one. -/
theorem ground_of_nextAncestor? {x : Style} (hx : x.head.isOverride = false)
    {next : Ground × String} (h : s.nextAncestor? id .own x = some next) :
    next.1 = .own ∨ next.1 = .imported := by
  rw [nextAncestor?, hx] at h
  obtain ⟨n, -, rfl⟩ := Option.map_eq_some_iff.1 h
  dsimp only
  split
  · exact Or.inr rfl
  · exact Or.inl rfl

theorem styleOn?_imported (hs : s.imported = none) (done : List Style) (n : String) :
    s.styleOn? done .imported n = none := by
  rw [styleOn?, importedId?, hs]
  rfl

/-- The styles of the base are found alike in the suite `v` in which it was marked, where `done` are
its marked styles, and from another stylesheet, in the suite `u`. -/
structure SeenAlike (v u : Suite) (b : SheetId) (done : List Style) : Prop where
  find : ∀ n ∈ done.map Style.name, done.find? (·.name == n) = u.find? b n
  closed : ∀ z ∈ (u.sheet b).allStyles, ∀ n, v.nextAncestor? b .own z = some (.own, n) →
    n ∈ done.map Style.name
  isOverride : ∀ z ∈ (u.sheet b).allStyles, z.head.isOverride = false
  name : (v.sheet b).name = (u.sheet b).name
  imported : v.imported = none ∧ u.imported = none

/-- An ascent among the styles of the base is one from every other stylesheet too. -/
theorem Ascent.of_base {b : SheetId} {later : List Style} {next : Ground × String}
    {as : List Ancestor} (h : Ascent v settings b done next as) (hbase : SeenAlike v u b done)
    (hnext : next.1 = .own) (hmem : next.2 ∈ done.map Style.name) :
    Ascent u settings id later (.base b, next.2) as := by
  have hpath : ∀ x, v.classPath settings b .own x = u.classPath settings id (.base b) x :=
    fun x => by rw [classPath, classPath, hbase.name]
  induction h with
  | unknown hx =>
    rw [hnext] at hx
    exact .unknown ((hbase.find _ hmem).symm.trans hx)
  | @last next x hx hlast =>
    rw [hnext] at hx hlast ⊢
    have hfind : u.find? b next.2 = some x := (hbase.find _ hmem).symm.trans hx
    rw [hpath]
    refine .last hfind ?_
    rw [nextAncestor?_base (hbase.isOverride x (mem_of_find? hfind).1), hlast]
    rfl
  | @step next after x as hx hstep hafter ih =>
    rw [hnext] at hx hstep ⊢
    have hfind : u.find? b next.2 = some x := (hbase.find _ hmem).symm.trans hx
    have hxmem := (mem_of_find? hfind).1
    have hover := hbase.isOverride x hxmem
    have hnext' : u.nextAncestor? id (.base b) x = some (groundFrom b after.1, after.2) := by
      rw [nextAncestor?_base hover, hstep]
      rfl
    rw [hpath]
    refine .step hfind hnext' ?_
    obtain ⟨ground, n⟩ := after
    rcases ground_of_nextAncestor? hover hstep with rfl | rfl
    · exact ih rfl (hbase.closed x hxmem n hstep)
    · -- nothing is found in an imported stylesheet
      rw [hafter.unique (.unknown (styleOn?_imported hbase.imported.1 done n))]
      exact .unknown (styleOn?_imported hbase.imported.2 later n)

/-! ## The way up from a style -/

/-- The search finds the ancestors when it goes on behind a style that stands on a ground. -/
def Follows (s : Suite) (settings : Settings) (id : SheetId) (done : List Style) (ground : Ground)
    (x : Style) (as : List Ancestor) : Prop :=
  match s.nextAncestor? id ground x with
  | some next => Ascent s settings id done next as
  | none => as = []

/-- The ascent to a style begins with its class. -/
theorem Follows.ascent {ground : Ground} {n : String} {x : Style} {as : List Ancestor}
    (h : Follows s settings id done ground x as) (hx : s.styleOn? done ground n = some x) :
    Ascent s settings id done (ground, n) (⟨s.classPath settings id ground x, x⟩ :: as) := by
  unfold Follows at h
  split at h
  · next after hafter => exact .step hx hafter h
  · next hlast =>
    rw [h]
    exact .last hx hlast

/-- What follows a style of the base where that is marked follows it from another stylesheet too. -/
theorem Follows.of_base {b : SheetId} {later : List Style} {x : Style} {as : List Ancestor}
    (h : Follows v settings b done .own x as) (hbase : SeenAlike v u b done)
    (hx : x ∈ (u.sheet b).allStyles) : Follows u settings id later (.base b) x as := by
  have hover := hbase.isOverride x hx
  unfold Follows at h ⊢
  rw [nextAncestor?_base hover]
  split at h
  · next after hafter =>
    obtain ⟨ground, n⟩ := after
    rw [hafter]
    rcases ground_of_nextAncestor? hover hafter with rfl | rfl
    · exact h.of_base hbase rfl (hbase.closed x hx n hafter)
    · rw [h.unique (.unknown (styleOn?_imported hbase.imported.1 done n))]
      exact .unknown (styleOn?_imported hbase.imported.2 later n)
  · next hlast =>
    rw [hlast]
    exact h

/-! ## Climbs and descents -/

/-- A list is what is left of another one if its end may be cut off, unless it has to be whole. -/
structure LeftOf {α : Type} (whole : Prop) (rest as : List α) : Prop where
  begins : rest <+: as
  eq : whole → rest = as

theorem LeftOf.refl {α : Type} (whole : Prop) (as : List α) : LeftOf whole as as :=
  ⟨List.prefix_rfl, fun _ => rfl⟩

theorem LeftOf.filterMap {α β : Type} {whole : Prop} {rest as : List α} (h : LeftOf whole rest as)
    (f : α → Option β) : LeftOf whole (rest.filterMap f) (as.filterMap f) :=
  ⟨h.begins.filterMap f, fun hwhole => by rw [h.eq hwhole]⟩

/-- A list of generated classes. Those that follow one are its ancestors, or what is left of them
where the search did not come as far as when the class was marked. -/
inductive Climb (r : Suite) (whole : Prop) : List Ancestor → Prop
  | nil : Climb r whole []
  | cons {c : Ancestor} {x : Style} {as rest : List Ancestor} : c ∈ r.classes → x.Fresh →
    Style.Heir x as c.style → Climb r whole as → LeftOf whole rest as → Climb r whole (c :: rest)

/-- A list of generated classes, each an heir of all that follow. -/
inductive Descent (r : Suite) : List Ancestor → Prop
  | nil : Descent r []
  | cons {c : Ancestor} {x : Style} {as : List Ancestor} : c ∈ r.classes → x.Fresh →
    Style.Heir x as c.style → Descent r as → Descent r (c :: as)

variable {whole : Prop}

/-- A climb that is never cut short is a descent. -/
theorem Climb.descent {as : List Ancestor} (h : Climb r whole as) (hwhole : whole) :
    Descent r as := by
  induction h with
  | nil => exact .nil
  | cons hc hx hheir _ hrest ih =>
    rw [hrest.eq hwhole]
    exact .cons hc hx hheir ih

theorem Climb.subset_classes {as : List Ancestor} (h : Climb r whole as) : as ⊆ r.classes := by
  induction h with
  | nil => exact List.nil_subset _
  | cons hc _ _ _ hrest ih =>
    exact List.cons_subset.2 ⟨hc, fun _ ha => ih (hrest.begins.subset ha)⟩

theorem Descent.subset_classes {as : List Ancestor} (h : Descent r as) : as ⊆ r.classes := by
  induction h with
  | nil => exact List.nil_subset _
  | cons hc _ _ _ ih => exact List.cons_subset.2 ⟨hc, ih⟩

/-- What is left of a climb is one. -/
theorem Climb.of_leftOf {as rest : List Ancestor} (h : Climb r whole as)
    (hrest : LeftOf whole rest as) : Climb r whole rest := by
  cases h with
  | nil =>
    rw [List.prefix_nil.1 hrest.begins]
    exact .nil
  | cons hc hx hheir has hleft =>
    cases rest with
    | nil => exact .nil
    | cons d ds =>
      obtain ⟨rfl, hbegins⟩ := List.cons_prefix_cons.1 hrest.begins
      exact .cons hc hx hheir has ⟨hbegins.trans hleft.begins, fun hwhole =>
        (List.cons.inj (hrest.eq hwhole)).2.trans (hleft.eq hwhole)⟩

open Ancestor (allNested)

theorem mem_classes_of_mem {a c : Ancestor} (ha : a ∈ r.classes) (hc : c ∈ a.classes) :
    c ∈ r.classes := by
  obtain ⟨id, hid, ha⟩ := mem_classes.1 ha
  obtain ⟨x, hx, ha⟩ := Stylesheet.mem_classes.1 ha
  exact mem_classes_of_classOf hid hx (Ancestor.classes_subset ha hc)

/-- What the classes of a climb nest under a name is a climb. -/
theorem Climb.allNested {as : List Ancestor} (h : Climb r whole as) (n : String) :
    Climb r whole (allNested n as) := by
  induction h with
  | nil => exact .nil
  | @cons c x as rest hc hx hheir _ hrest ih =>
    have hleft : LeftOf whole (Ancestor.allNested n rest) (Ancestor.allNested n as) :=
      hrest.filterMap _
    cases hd : c.nested? n with
    | none =>
      rw [Ancestor.allNested, List.filterMap_cons_none hd]
      exact ih.of_leftOf hleft
    | some d =>
      rw [Ancestor.allNested_cons n hd]
      have hmem := mem_classes_of_mem hc (Ancestor.nested?_mem_classes hd)
      obtain ⟨m, hm, rfl⟩ := Ancestor.nested?_eq_some.1 hd
      obtain ⟨hmem', rfl⟩ := Style.nested?_mem hm
      obtain ⟨x', hx', hheir', -⟩ := hheir.nested hmem'
      exact .cons hmem ((Style.fresh_iff.1 hx).2 x' hx') hheir' ih hleft

/-- With the classes inside a class that begins a climb begin climbs. -/
theorem Climb.of_mem_classes {c d : Ancestor} {as : List Ancestor} (h : Climb r whole (c :: as))
    (hd : d ∈ c.classes) : ∃ bs, Climb r whole (d :: bs) := by
  obtain ⟨path, y⟩ := c
  induction y using Style.nestedInduction generalizing path as with
  | step y ih =>
    rcases Ancestor.mem_classes.1 hd with rfl | ⟨n, hn, hd⟩
    · exact ⟨as, h⟩
    · cases h with
      | cons hc hx hheir has _ =>
        obtain ⟨m, hm, hheir', -⟩ := hheir.nested hn
        refine ih n hn _ (.cons (mem_classes_of_mem hc ?_) ((Style.fresh_iff.1 hx).2 m hm) hheir'
          (has.allNested n.name) (.refl _ _)) hd
        exact Ancestor.mem_classes.2 (Or.inr ⟨n, hn, Ancestor.self_mem_classes _⟩)

/-! ## Sites -/

/-- What is known of how the stylesheet at a place of a prepared suite `r` was marked, if the names
of its styles are distinct: in the suite `u`, which has the base as it is in `r`, its styles became
`done`, and its animator was marked behind these. -/
structure Site (settings : Settings) (l r : Suite) (id : SheetId) (u : Suite) (done : List Style) :
    Prop where
  base?_eq : u.base? = l.base?
  imported_eq : u.imported = l.imported
  ids_eq : u.ids = l.ids
  base_eq : ∀ b, l.superclass? id = some b → u.sheet b = r.sheet b
  redirected : SameOutlines (l.shadowedIn r id).sorted (u.sheet id)
  name_eq : (u.sheet id).name = (r.sheet id).name
  marked : Marked u settings id done
  perm : done.Perm (r.sheet id).styles
  names_eq : (r.sheet id).styles.map Style.name = (u.sheet id).styles.map Style.name
  nodup : ((u.sheet id).styles.map Style.name).Nodup
  animator : Option.Rel (fun a y => u.inheritingStyle settings id done
    (if (u.sheet id).isBase then a.opened else a) = .ok y) (u.sheet id).animator
      (r.sheet id).animator

/-- Styles that are done later. They take no names but those of the styles of their stylesheet. -/
structure Later (u : Suite) (id : SheetId) (done later : List Style) : Prop where
  subset : done ⊆ later
  nodup : (later.map Style.name).Nodup
  names : later.map Style.name ⊆ (u.sheet id).styles.map Style.name

theorem Later.mono {earlier later : List Style} (h : Later u id done later)
    (hsub : earlier ⊆ done) : Later u id earlier later :=
  ⟨fun _ hx => h.subset (hsub hx), h.nodup, h.names⟩

namespace Site

theorem names_perm (h : Site settings l r id u done) :
    (done.map Style.name).Perm ((u.sheet id).styles.map Style.name) :=
  h.names_eq ▸ h.perm.map Style.name

/-- At every step of marking the styles that are done are some of all. -/
theorem later (h : Site settings l r id u done) {earlier : List Style}
    (hsuffix : earlier <:+ done) :
    Later u id earlier earlier where
  subset := List.Subset.refl _
  nodup := (h.names_perm.nodup_iff.2 h.nodup).sublist (hsuffix.sublist.map _)
  names _ hn := h.names_perm.subset (List.map_subset _ hsuffix.subset hn)

/-- Nothing is marked on what has the outline of a style of the stylesheet that is to be marked. -/
theorem fresh (h : Site settings l r id u done)
    (hfresh : ∀ x ∈ (l.shadowedIn r id).allStyles, x.Fresh) {x : Style}
    (hx : ∃ z ∈ (u.sheet id).allStyles, x.outline StyleHead.closed = z.outline StyleHead.closed) :
    x.Fresh :=
  h.redirected.heads StyleHead.initial_unmarked hfresh hx

/-- How a style or the animator was marked, behind the styles that were done before it. -/
theorem exists_step (h : Site settings l r id u done) {y : Style}
    (hy : y ∈ (r.sheet id).allStyles) :
    ∃ earlier x, earlier ⊆ done ∧
      (∃ z ∈ (u.sheet id).allStyles, x.outline StyleHead.closed = z.outline StyleHead.closed) ∧
      u.inheritingStyle settings id earlier x = .ok y := by
  rw [Stylesheet.allStyles, List.mem_append, Option.mem_toList] at hy
  rcases hy with hy | hy
  · exact h.marked.exists_step (h.perm.mem_iff.2 hy)
  · have hrel := h.animator
    rw [Option.mem_def.1 hy] at hrel
    generalize ho : (u.sheet id).animator = o at hrel
    cases hrel with
    | @some a _ ha =>
      refine ⟨done, _, List.Subset.refl _, ⟨a, ?_, outline_openedIf _ a⟩, ha⟩
      rw [Stylesheet.allStyles, ho]
      exact List.mem_append_right _ (Option.mem_toList.2 rfl)

end Site

/-! ## What is done has its way up -/

/-- The number of styles of the base of a stylesheet. -/
def baseCount (l r : Suite) (id : SheetId) : Nat :=
  match l.superclass? id with
  | some b => (r.sheet b).allStyles.length
  | none => 0

/-- A marked style begins a climb, and the search behind it goes along that, now and when more
styles are done. -/
def Traced (whole : Prop) (settings : Settings) (r u : Suite) (id : SheetId) (done : List Style)
    (bound : Nat) (z : Style) : Prop :=
  ∃ as, Climb r whole ((r.sheet id).classOf z :: as) ∧ as.length < bound ∧
    ∀ later, Later u id done later → Follows u settings id later .own z as

theorem Traced.mono {earlier : List Style} {bound bound' : Nat} {z : Style}
    (h : Traced whole settings r u id earlier bound z) (hsub : earlier ⊆ done)
    (hle : bound ≤ bound') : Traced whole settings r u id done bound' z := by
  obtain ⟨as, hclimb, hlt, hfollows⟩ := h
  exact ⟨as, hclimb, hlt.trans_le hle, fun later hlater => hfollows later (hlater.mono hsub)⟩

/-- What is found in the base begins a climb, and the search for it from another stylesheet goes
along that. -/
def BaseTraced (whole : Prop) (settings : Settings) (r u : Suite) (id b : SheetId) : Prop :=
  ∀ n z, u.find? b n = some z → ∃ as, Climb r whole ((r.sheet b).classOf z :: as) ∧
    as.length < (r.sheet b).allStyles.length ∧
      ∀ later, Ascent u settings id later (.base b, n) ((r.sheet b).classOf z :: as)

/-- The superclass of a declaration is never looked up in the base: what is declared there stands in
the own stylesheet too. -/
def ExtendsOwn (u : Suite) (id : SheetId) : Prop :=
  ∀ z ∈ (u.sheet id).allStyles, ∀ n, z.localSuperclass? = some n → (u.baseWith? id n).isSome →
    n ∈ (u.sheet id).styles.map Style.name

/-- Styles that declare the same extend the same. -/
theorem localSuperclass?_congr {x z : Style}
    (h : x.outline StyleHead.declared = z.outline StyleHead.declared) :
    x.localSuperclass? = z.localSuperclass? ∧ x.head.superclass = z.head.superclass ∧
      x.head.extendsImported = z.head.extendsImported := by
  have hhead := Style.declared_head_eq h
  have hsup : x.head.declared.superclass = z.head.declared.superclass := by rw [hhead]
  have hext : x.head.declared.extendsImported = z.head.declared.extendsImported := by rw [hhead]
  change x.head.superclass = z.head.superclass at hsup
  change x.head.extendsImported = z.head.extendsImported at hext
  exact ⟨by rw [Style.localSuperclass?, Style.localSuperclass?, hsup, hext], hsup, hext⟩

/-- The declared ancestor of a style is one of the imported stylesheet, one that is done, or else
one of the base. -/
theorem declaredAncestor?_cases {x : Style} {first : Ground × String}
    (h : u.declaredAncestor? id done x = .ok (some first)) :
    (∃ n, first = (.imported, n) ∧ x.head.extendsImported = true) ∨
      ∃ n, x.localSuperclass? = some n ∧ ((first = (.own, n) ∧ n ∈ done.map Style.name) ∨
        ∃ b, first = (.base b, n) ∧ u.baseWith? id n = some b ∧ n ∉ done.map Style.name) := by
  unfold declaredAncestor? at h
  split at h
  · cases h
  · next n hn =>
    split at h
    · next hext =>
      cases h
      exact .inl ⟨n, rfl, hext⟩
    · next hext =>
      have hlocal : x.localSuperclass? = some n := by
        rw [Style.localSuperclass?, if_neg hext, hn]
      have hany : done.any (·.name == n) = true ↔ n ∈ done.map Style.name := by
        simp [List.any_eq_true]
      refine .inr ⟨n, hlocal, ?_⟩
      split at h
      · next hdone =>
        cases h
        exact .inl ⟨rfl, hany.1 hdone⟩
      · next hdone =>
        split at h
        · next b hb =>
          cases h
          exact .inr ⟨b, rfl, hb, fun hmem => hdone (hany.2 hmem)⟩
        · cases h

/-- Behind a style that overrides none the search goes on with the one that it extends. -/
theorem nextAncestor?_own {y : Style} (hy : y.head.isOverride = false) {n : String}
    (hn : y.localSuperclass? = some n) : u.nextAncestor? id .own y = some (.own, n) := by
  unfold Style.localSuperclass? at hn
  split at hn
  · cases hn
  · next hext =>
    rw [nextAncestor?, hy, hn]
    simp [hext]

namespace Site

variable (h : Site settings l r id u done)

include h

section Step

variable (hbase : ∀ b, l.superclass? id = some b → BaseTraced whole settings r u id b)
  {earlier : List Style} (hcount : earlier.length + baseCount l r id ≤ u.styleCount)

include hbase hcount

/-- The ancestors of a style from the base on are a climb. -/
theorem next_of_base {n : String} {b : SheetId} (hb : u.baseWith? id n = some b)
    {as : List Ancestor}
    (has : u.ancestorsFrom settings id earlier (u.styleCount + 1) [] (.base b, n) = as) :
    Climb r whole as ∧ as.length ≤ earlier.length + baseCount l r id ∧
      ∀ later, Ascent u settings id later (.base b, n) as := by
  obtain ⟨hsup, hfind⟩ := Option.filter_eq_some_iff.1 hb
  obtain ⟨z, hz⟩ := Option.isSome_iff_exists.1 hfind
  have hlb : l.superclass? id = some b := superclass?_congr h.base?_eq id ▸ hsup
  have hbaseCount : baseCount l r id = (r.sheet b).allStyles.length := by rw [baseCount, hlb]
  obtain ⟨bs, hclimb, hlt, hascent⟩ := hbase b hlb n z hz
  have hlen : ((r.sheet b).classOf z :: bs).length = bs.length + 1 := List.length_cons
  obtain rfl : _ = as :=
    (ancestorsFrom_eq (hascent earlier) (by omega) (by simp)).symm.trans has
  exact ⟨hclimb, by omega, hascent⟩

variable (himported : l.imported = none) (hwhole : whole → ExtendsOwn u id)
  (hearlier : Later u id earlier earlier)
  (ih : ∀ z ∈ earlier, Traced whole settings r u id earlier (earlier.length + baseCount l r id) z)
  {x : Style}
  (hx : ∃ z ∈ (u.sheet id).allStyles, x.outline StyleHead.closed = z.outline StyleHead.closed)
  (hclosed : ∀ n, x.localSuperclass? = some n → n ∈ (u.sheet id).styles.map Style.name →
    n ∈ earlier.map Style.name)

include himported hwhole hearlier ih hx hclosed

/-- The ancestors of a style that extends another one are a climb. Later searches go along it, but
for one case: an animator of the base is an ancestor and is not found later. -/
theorem next_of_declared {first : Ground × String} {as : List Ancestor}
    (hfirst : u.declaredAncestor? id earlier x = .ok (some first))
    (has : u.ancestorsFrom settings id earlier (u.styleCount + 1) [] first = as) (hne : as ≠ []) :
    ∃ n rest, x.localSuperclass? = some n ∧ Climb r whole as ∧ LeftOf whole rest as ∧
      rest.length ≤ earlier.length + baseCount l r id ∧
        ∀ later, Later u id earlier later → Ascent u settings id later (.own, n) rest := by
  rcases declaredAncestor?_cases hfirst with ⟨n, rfl, -⟩ | ⟨n, hn, ⟨rfl, hmem⟩ | ⟨b, rfl, hb, hnot⟩⟩
  · obtain ⟨a, rest, rfl⟩ := List.exists_cons_of_ne_nil hne
    obtain ⟨w, hw, -⟩ := ancestorsFrom_eq_cons has
    rw [styleOn?_imported (h.imported_eq.trans himported)] at hw
    cases hw
  · obtain ⟨z, hz, rfl⟩ := List.mem_map.1 hmem
    obtain ⟨bs, hclimb, hlt, hfollows⟩ := ih z hz
    have hascent : ∀ later, Later u id earlier later →
        Ascent u settings id later (.own, z.name) ((r.sheet id).classOf z :: bs) := by
      intro later hlater
      have := (hfollows later hlater).ascent
        (find?_eq_some_of_nodup hlater.nodup (hlater.subset hz))
      rwa [classPath, h.name_eq] at this
    have hlen : ((r.sheet id).classOf z :: bs).length = bs.length + 1 := List.length_cons
    obtain rfl : _ = as :=
      (ancestorsFrom_eq (hascent earlier hearlier) (by omega) (by simp)).symm.trans has
    exact ⟨z.name, _, hn, hclimb, .refl _ _, by omega, hascent⟩
  · have hother : n ∉ (u.sheet id).styles.map Style.name := fun hmem => hnot (hclosed n hn hmem)
    obtain ⟨hclimb, -⟩ := h.next_of_base hbase hcount hb has
    refine ⟨n, [], hn, hclimb, ⟨List.nil_prefix, fun hw => absurd ?_ hother⟩, Nat.zero_le _,
      fun later hlater => .unknown ?_⟩
    · obtain ⟨w, hw', hxw⟩ := hx
      refine hwhole hw w hw' n ?_ (by rw [hb]; rfl)
      rw [← hn, (localSuperclass?_congr (Style.outline_declared_of_closed hxw)).1]
    · refine List.find?_eq_none.2 fun w hw hname => hother ?_
      obtain rfl : w.name = n := by simpa using hname
      exact hlater.names (List.mem_map_of_mem hw)

/-- What is marked next is traced, if all that is done is. -/
theorem traced_next (hframework : settings.framework = none)
    (hfresh : ∀ x ∈ (l.shadowedIn r id).allStyles, x.Fresh) {y : Style}
    (hclass : (r.sheet id).classOf y ∈ r.classes)
    (hy : u.inheritingStyle settings id earlier x = .ok y) :
    Traced whole settings r u id earlier (earlier.length + 1 + baseCount l r id) y := by
  have hxfresh := h.fresh hfresh hx
  have hxover := (Style.fresh_iff.1 hxfresh).1.1
  obtain ⟨hylocal, hysup, -⟩ := localSuperclass?_congr (outline_inheritingStyle hy)
  rcases inheritingStyle_heir hy with ⟨b, as, hb, has, -, hheir, hover⟩ |
    ⟨-, hover, ⟨hnone, hheir⟩ | ⟨first, as, hfirst, has, hne, hheir⟩⟩ | ⟨-, -, hunseen⟩
  · -- an heir of its counterpart in the base
    obtain ⟨hclimb, hle, hascent⟩ := h.next_of_base hbase hcount hb has
    refine ⟨as, .cons hclass hxfresh hheir hclimb (.refl _ _), by omega, fun later _ => ?_⟩
    rw [Follows, nextAncestor?, hover, (Option.filter_eq_some_iff.1 hb).1,
      name_inheritingStyle hy]
    exact hascent later
  · -- an heir of none
    refine ⟨[], .cons hclass hxfresh hheir .nil (.refl _ _), by rw [List.length_nil]; omega,
      fun later _ => ?_⟩
    rw [Follows, nextAncestor?, hover, hxover, hysup, hnone]
    rfl
  · -- an heir of the style that it extends
    obtain ⟨n, rest, hn, hclimb, hrest, hle, hascent⟩ := h.next_of_declared hbase hcount himported
      hwhole hearlier ih hx hclosed hfirst has hne
    refine ⟨rest, .cons hclass hxfresh hheir hclimb hrest, by omega, fun later hlater => ?_⟩
    rw [Follows, nextAncestor?_own (hover.trans hxover) (hylocal.trans hn)]
    exact hascent later hlater
  · rw [hframework] at hunseen
    cases hunseen

end Step

variable (himported : l.imported = none) (hframework : settings.framework = none)
  (hfresh : ∀ x ∈ (l.shadowedIn r id).allStyles, x.Fresh) (hid : id ∈ r.ids)
  (hwhole : whole → ExtendsOwn u id)
  (hbase : ∀ b, l.superclass? id = some b → BaseTraced whole settings r u id b)
  (hcount : done.length + baseCount l r id ≤ u.styleCount)

include himported hframework hfresh hid hwhole hbase hcount

/-- All styles that are done are traced. -/
theorem traced {marked : List Style} (hmarked : Marked u settings id marked)
    (hsuffix : marked <:+ done) :
    ∀ z ∈ marked, Traced whole settings r u id marked (marked.length + baseCount l r id) z := by
  induction hmarked with
  | nil => exact fun z hz => by cases hz
  | @cons earlier x y _ hx hclosed hy ih =>
    have hearlier := (List.suffix_cons y earlier).trans hsuffix
    have hlen := hearlier.length_le
    have hclass := mem_classes_of_classOf hid (List.mem_append_left _
      (h.perm.mem_iff.1 (hsuffix.subset List.mem_cons_self))) (Ancestor.self_mem_classes _)
    have hnext := h.traced_next hbase (by omega) himported hwhole (h.later hearlier) (ih hearlier)
      hx hclosed hframework hfresh hclass hy
    intro z hz
    rw [List.length_cons]
    rcases List.mem_cons.1 hz with rfl | hz
    · exact hnext.mono (List.subset_cons_self _ earlier) le_rfl
    · exact (ih hearlier z hz).mono (List.subset_cons_self y earlier) (by omega)

/-- All styles are traced, and so is the animator. -/
theorem traced_of_mem {z : Style} (hz : z ∈ (r.sheet id).allStyles) :
    Traced whole settings r u id done ((r.sheet id).allStyles.length + baseCount l r id) z := by
  have htraced := h.traced himported hframework hfresh hid hwhole hbase hcount h.marked
    List.suffix_rfl
  have hlen : (r.sheet id).allStyles.length =
      done.length + (r.sheet id).animator.toList.length := by
    rw [Stylesheet.allStyles, List.length_append, h.perm.length_eq]
  have hclass := mem_classes_of_classOf hid hz (Ancestor.self_mem_classes _)
  rw [Stylesheet.allStyles, List.mem_append, Option.mem_toList] at hz
  rcases hz with hz | hz
  · exact (htraced z (h.perm.mem_iff.2 hz)).mono (List.Subset.refl _) (by omega)
  · have hrel := h.animator
    rw [Option.mem_def.1 hz] at hrel hlen
    generalize ho : (u.sheet id).animator = o at hrel
    cases hrel with
    | @some a _ ha =>
      have hmem : a ∈ (u.sheet id).allStyles := by
        rw [Stylesheet.allStyles, ho]
        exact List.mem_append_right _ (Option.mem_toList.2 rfl)
      have hnext := h.traced_next hbase hcount himported hwhole (h.later List.suffix_rfl) htraced
        ⟨a, hmem, outline_openedIf _ a⟩ (fun n _ hn => h.names_perm.mem_iff.2 hn) hframework
        hfresh hclass ha
      rw [Option.toList_some, List.length_singleton] at hlen
      exact hnext.mono (List.Subset.refl _) (by omega)

end Site

/-! ## The conditions -/

theorem registered_eq_map (s : Suite) : s.registered = s.ids.map s.sheet := by
  refine List.ext_getElem (by simp [ids]) fun i hi _ => ?_
  simp [ids, sheet_registered hi]

/-- Different registered stylesheets and the imported one do not have more styles than the suite. -/
theorem length_flatMap_le_styleCount (s : Suite) {places : List SheetId} (hnodup : places.Nodup)
    (hsub : places ⊆ s.ids) :
    (places.flatMap fun id => (s.sheet id).allStyles).length +
      (s.imported.toList.flatMap Stylesheet.allStyles).length ≤ s.styleCount := by
  obtain ⟨l, hperm, hsublist⟩ := List.subperm_of_subset hnodup hsub
  have hids : s.styleCount = (s.ids.flatMap fun id => (s.sheet id).allStyles).length +
      (s.imported.toList.flatMap Stylesheet.allStyles).length := by
    rw [styleCount, sheets, List.flatMap_append, List.length_append, registered_eq_map,
      List.flatMap_map]
  rw [← (hperm.flatMap_right _).length_eq, hids]
  exact Nat.add_le_add_right (hsublist.flatMap _).length_le _

/-- The suite has as many styles as the marked stylesheet and its base together. -/
theorem Site.count_le (h : Site settings l r id u done) (hid : id ∈ l.ids)
    (hbase : ∀ b, l.superclass? id = some b → b ∈ l.ids) :
    done.length + baseCount l r id ≤ u.styleCount := by
  have hdone : done.length ≤ (u.sheet id).allStyles.length := by
    rw [Stylesheet.allStyles, List.length_append, ← List.length_map (f := Style.name),
      h.names_perm.length_eq, List.length_map]
    exact Nat.le_add_right _ _
  rw [baseCount]
  cases hsup : l.superclass? id with
  | none =>
    have := length_flatMap_le_styleCount u (List.nodup_singleton id)
      (by simpa [h.ids_eq] using hid)
    simp only [List.flatMap_singleton] at this
    simp only
    omega
  | some b =>
    have hne := ne_of_superclass? hsup
    have hnodup : [id, b].Nodup := by simpa using hne
    have := length_flatMap_le_styleCount u hnodup (by simpa [h.ids_eq] using ⟨hid, hbase b hsup⟩)
    simp only [List.flatMap_cons, List.flatMap_nil, List.append_nil, List.length_append,
      h.base_eq b hsup] at this
    simp only
    omega

/-- The name of the animator of the base is as it was declared. -/
theorem Site.base_animator (h : Site settings l r id u done) (hsup : l.superclass? id = none)
    {a : Style} (ha : a ∈ (r.sheet id).animator) :
    ∃ c ∈ (l.sheet id).animator, c.name = a.name := by
  have hshadowed : l.shadowedIn r id = l.sheet id := by rw [shadowedIn, hsup]
  have hrel := h.animator
  rw [Option.mem_def.1 ha] at hrel
  generalize ho : (u.sheet id).animator = o at hrel
  cases hrel with
  | @some b _ hb =>
    have hout := h.redirected.animator StyleHead.declared
    rw [ho, hshadowed, Option.map_some] at hout
    obtain ⟨z, hz, hzb⟩ := Option.map_eq_some_iff.1 hout.symm
    obtain ⟨c, hc, rfl⟩ := Option.map_eq_some_iff.1 hz
    have hopened := Style.name_eq_of_outline
      (Style.outline_declared_of_closed (outline_openedIf ((u.sheet id).isBase = true) b))
    exact ⟨c, hc, by
      rw [name_inheritingStyle hb, hopened, ← Style.name_eq_of_outline hzb, Style.name_sorted]⟩

/-- In the base a style keeps its mark, and extends one that is done. -/
theorem inheritingStyle_base {x y : Style} (hsup : u.superclass? id = none)
    (hframework : settings.framework = none) (hx : x.head.isOverride = false)
    (hy : u.inheritingStyle settings id done x = .ok y) :
    y.head.isOverride = false ∧
      ∀ n, u.nextAncestor? id .own y = some (.own, n) → n ∈ done.map Style.name := by
  obtain ⟨hylocal, hysup, hyext⟩ := localSuperclass?_congr (outline_inheritingStyle hy)
  rcases inheritingStyle_heir hy with ⟨b, as, hb, -⟩ |
    ⟨-, hover, ⟨hnone, -⟩ | ⟨first, as, hfirst, -, -, -⟩⟩ | ⟨-, -, hunseen⟩
  · rw [baseWith?, hsup] at hb
    cases hb
  · refine ⟨hover.trans hx, fun n hn => ?_⟩
    rw [nextAncestor?, hover, hx, hysup, hnone] at hn
    cases hn
  · refine ⟨hover.trans hx, fun n hn => ?_⟩
    rcases declaredAncestor?_cases hfirst with
      ⟨m, -, hext⟩ | ⟨m, hm, ⟨-, hmem⟩ | ⟨b, -, hb, -⟩⟩
    · rw [nextAncestor?, hover, hx, hyext, hext] at hn
      obtain ⟨m, -, hm⟩ := Option.map_eq_some_iff.1 hn
      cases hm
    · rw [nextAncestor?_own (hover.trans hx) (hylocal.trans hm)] at hn
      cases hn
      exact hmem
    · rw [baseWith?, hsup] at hb
      cases hb
  · rw [hframework] at hunseen
    cases hunseen

/-- No superclass of a declaration is the name of an animator. -/
def NoAnimatorExtended (s : Suite) : Prop :=
  ∀ t ∈ s.registered, ∀ x ∈ t.allStyles, ∀ u ∈ s.registered, ∀ a ∈ u.animator,
    x.localSuperclass? ≠ some a.name

instance (s : Suite) : Decidable s.NoAnimatorExtended :=
  decidable_of_iff (∀ t ∈ s.registered, ∀ x ∈ t.allStyles, ∀ u ∈ s.registered,
      ∀ a ∈ u.animator.toList, x.localSuperclass? ≠ some a.name)
    ⟨fun h t ht x hx u hu a ha => h t ht x hx u hu a (Option.mem_toList.2 ha),
      fun h t ht x hx u hu a ha => h t ht x hx u hu a (Option.mem_toList.1 ha)⟩

section Prepared

variable (h : Prepares settings s l) (hd : ∀ t ∈ s.registered, (t.styles.map Style.name).Nodup)

include h hd

/-- Every registered stylesheet has its site. -/
theorem Prepares.exists_site (hid : id ∈ l.ids) :
    ∃ u done, Site settings l (l.prepared settings).1 id u done := by
  obtain ⟨t, ht⟩ := h.exists_stage hid
  have hid' : id ∈ t.ids := by
    rw [ids, ht.length_eq]
    exact hid
  obtain ⟨redirected, -, hsame, hdistinct, hm⟩ :=
    resolved_eq_marked hid' ht.resolved_eq (h.styleNames_completed hd hid ht)
  have hu : (t.setSheet redirected id).sheet id = redirected := sheet_setSheet_self _ hid'
  obtain ⟨done, hmarked, hperm, hplaces, hanimator, heq⟩ :=
    withInheritance_parts hm (by rwa [hu])
  refine ⟨t.setSheet redirected id, done, ?_, ?_, ?_, fun b hb => ?_, ?_, by rw [heq], hmarked,
    hperm, ?_, by rwa [hu], hanimator⟩
  · rw [base?_setSheet, ht.base?_eq]
  · rw [imported_setSheet _ hid', ht.imported_eq]
  · rw [ids_setSheet, ids, ht.length_eq]
    rfl
  · rw [sheet_setSheet_of_ne _ (ne_of_superclass? hb).symm,
      ht.base_eq b (by rw [ht.superclass?_eq, hb])]
  · rwa [hu, ← ht.completed_eq]
  · rw [← map_name_outline, hplaces, map_name_outline]

/-- Every style of the base has a counterpart, so a superclass that the base declares is declared or
shadowed in the own stylesheet, unless it is an animator. -/
theorem Prepares.extendsOwn (hno : s.NoAnimatorExtended) (hid : id ∈ l.ids)
    (hsite : Site settings l (l.prepared settings).1 id u done) : ExtendsOwn u id := by
  have hmem : ∀ {c}, c ∈ l.ids → l.sheet c ∈ s.registered := fun hc =>
    linked_registered h.linked ▸ sheet_mem hc
  intro z hz n hn hbaseWith
  obtain ⟨b, hb⟩ := Option.isSome_iff_exists.1 hbaseWith
  obtain ⟨hsup, hfind⟩ := Option.filter_eq_some_iff.1 hb
  have hlb : l.superclass? id = some b := superclass?_congr hsite.base?_eq id ▸ hsup
  have hbid := mem_ids_of_superclass? h.linked hlb
  obtain ⟨w, hw'⟩ := Option.isSome_iff_exists.1 hfind
  obtain ⟨hwmem, rfl⟩ := mem_of_find? hw'
  rw [hsite.base_eq b hlb] at hwmem
  have hnames := hd _ (hmem hid)
  have hbnames := h.styleNames_nodup hd hbid
  have hshadowed : l.shadowedIn (l.prepared settings).1 id =
      (l.sheet id).shadowing ((l.prepared settings).1.sheet b) := by rw [shadowedIn, hlb]
  rw [Stylesheet.allStyles, List.mem_append, Option.mem_toList] at hwmem
  rcases hwmem with hwmem | hwmem
  · rw [← map_name_outline, hsite.redirected.styles, map_name_outline,
      (Stylesheet.styleNames_sorted_perm _).mem_iff, hshadowed,
      Stylesheet.mem_styleNames_shadowing hnames hbnames]
    exact Or.inr (List.mem_map_of_mem hwmem)
  · obtain ⟨v, done', hbase⟩ := h.exists_site hd hbid
    obtain ⟨c, hc, hcw⟩ := hbase.base_animator (superclass?_superclass? hlb) hwmem
    have hout := List.mem_map_of_mem (f := Style.outline StyleHead.declared) hz
    rw [hsite.redirected.outlines] at hout
    obtain ⟨y, hy, hyz⟩ := List.mem_map.1 hout
    obtain ⟨x, hx, rfl⟩ := List.mem_map.1
      ((Stylesheet.allStyles_sorted_perm _).mem_iff.1 hy)
    have hlocal : x.localSuperclass? = some w.name := by
      rw [← hn, ← (localSuperclass?_congr hyz).1, Style.localSuperclass?, Style.localSuperclass?,
        Style.head_sorted]
    rw [hshadowed] at hx
    rcases Stylesheet.mem_shadowing_cases hnames hbnames hx with
      ⟨own, hown, bases, -, rfl⟩ | ⟨d, -, own, base, rfl⟩
    · rw [Style.localSuperclass?, Style.head_shadowed, ← Style.localSuperclass?, ← hcw] at hlocal
      exact absurd hlocal (hno _ (hmem hid) own hown _ (hmem hbid) c hc)
    · simp [Style.localSuperclass?, Style.shadowHead, StyleHead.named] at hlocal

variable (hf : s.Fresh) (himported : s.imported = none) (hframework : settings.framework = none)

include hf himported hframework

/-- The base is searched from another stylesheet as it was when it was marked. -/
theorem Prepares.seenAlike {b : SheetId} {done' : List Style} (hb : l.superclass? id = some b)
    (hsite : Site settings l (l.prepared settings).1 id u done)
    (hbase : Site settings l (l.prepared settings).1 b v done') : SeenAlike v u b done' := by
  have hbid := mem_ids_of_superclass? h.linked hb
  have hbsup : v.superclass? b = none := by
    rw [superclass?_congr hbase.base?_eq, superclass?_superclass? hb]
  have hlu : u.isLinked = true := by
    rw [isLinked, hsite.base?_eq]
    exact isLinked_of_superclass? hb
  have hsheet := hsite.base_eq b hb
  have hnames := h.styleNames_nodup hd hbid
  have hperm := hbase.perm.map Style.name
  have hmarked : ∀ z ∈ (u.sheet b).allStyles, z.head.isOverride = false ∧
      ∀ n, v.nextAncestor? b .own z = some (.own, n) → n ∈ done'.map Style.name := by
    intro z hz
    rw [hsheet] at hz
    obtain ⟨earlier, x, hsub, hx, hinheriting⟩ := hbase.exists_step hz
    have hxfresh := hbase.fresh (h.fresh_shadowedIn hf hbid) hx
    obtain ⟨hover, hnext⟩ := inheritingStyle_base hbsup hframework
      (Style.fresh_iff.1 hxfresh).1.1 hinheriting
    exact ⟨hover, fun n hn => List.map_subset _ hsub (hnext n hn)⟩
  refine ⟨fun n hn => ?_, fun z hz => (hmarked z hz).2, fun z hz => (hmarked z hz).1, ?_,
    hbase.imported_eq.trans (h.imported_eq.trans himported),
    hsite.imported_eq.trans (h.imported_eq.trans himported)⟩
  · rw [find?_eq_of_mem hlu (hsheet ▸ hnames) (hsheet ▸ hperm.mem_iff.1 hn), hsheet]
    exact find?_perm_of_nodup (hperm.nodup_iff.2 hnames) hbase.perm n
  · rw [hsheet, hbase.name_eq]

variable (hwhole : whole → s.NoAnimatorExtended)

include hwhole

/-- Every style of a prepared stylesheet was traced where it was marked. -/
theorem Prepares.traced {z : Style} (hid : id ∈ l.ids)
    (hsite : Site settings l (l.prepared settings).1 id u done)
    (hbase : ∀ b, l.superclass? id = some b →
      BaseTraced whole settings (l.prepared settings).1 u id b)
    (hz : z ∈ ((l.prepared settings).1.sheet id).allStyles) :
    Traced whole settings (l.prepared settings).1 u id done
      (((l.prepared settings).1.sheet id).allStyles.length +
        baseCount l (l.prepared settings).1 id) z :=
  hsite.traced_of_mem (h.imported_eq.trans himported) hframework (h.fresh_shadowedIn hf hid)
    (h.ids_eq ▸ hid) (fun hw => h.extendsOwn hd (hwhole hw) hid hsite) hbase
    (hsite.count_le hid fun _ hb => mem_ids_of_superclass? h.linked hb) hz

/-- Every style of the base of a prepared stylesheet was traced where it was marked. -/
theorem Prepares.baseTraced {b : SheetId} (hb : l.superclass? id = some b)
    (hsite : Site settings l (l.prepared settings).1 id u done) :
    BaseTraced whole settings (l.prepared settings).1 u id b := by
  have hbid := mem_ids_of_superclass? h.linked hb
  have hbsup := superclass?_superclass? hb
  obtain ⟨v, done', hbase⟩ := h.exists_site hd hbid
  have halike := h.seenAlike hd hf himported hframework hb hsite hbase
  have hsheet := hsite.base_eq b hb
  intro n z hz
  have hmem := (mem_of_find? hz).1
  obtain ⟨as, hclimb, hlt, hfollows⟩ := h.traced hd hf himported hframework hwhole hbid hbase
    (fun c hc => by rw [hbsup] at hc; cases hc) (hsheet ▸ hmem)
  rw [baseCount, hbsup] at hlt
  refine ⟨as, hclimb, hlt, fun later => ?_⟩
  have hfollows' : Follows u settings id later (.base b) z as :=
    (hfollows done' (hbase.later List.suffix_rfl)).of_base halike hmem
  have hascent := hfollows'.ascent hz
  rwa [classPath, hsheet] at hascent

/-- With every class begins a climb. -/
theorem Prepares.exists_climb {c : Ancestor} (hc : c ∈ (l.prepared settings).1.classes) :
    ∃ as, Climb (l.prepared settings).1 whole (c :: as) := by
  obtain ⟨id, hid, hc⟩ := mem_classes.1 hc
  obtain ⟨y, hy, hc⟩ := Stylesheet.mem_classes.1 hc
  have hid' : id ∈ l.ids := h.ids_eq ▸ hid
  obtain ⟨u, done, hsite⟩ := h.exists_site hd hid'
  obtain ⟨as, hclimb, -, -⟩ := h.traced hd hf himported hframework hwhole hid' hsite
    (fun b hb => h.baseTraced hd hf himported hframework hwhole hb hsite) hy
  exact hclimb.of_mem_classes hc

omit hwhole

/-- With every class begins a descent. -/
theorem Prepares.exists_descent (hno : s.NoAnimatorExtended) {c : Ancestor}
    (hc : c ∈ (l.prepared settings).1.classes) :
    ∃ as, Descent (l.prepared settings).1 (c :: as) :=
  (h.exists_climb hd hf himported hframework (fun _ => hno) hc).imp fun _ hclimb =>
    hclimb.descent trivial

end Prepared

end Appearance.Suite
