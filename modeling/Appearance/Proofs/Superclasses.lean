import Appearance.Proofs.Classes
import Appearance.Proofs.Fresh
import Mathlib

/-!
# Superclasses

Every superclass that marking gives to a class is itself a generated class
(`Prepares.exists_superclass`), and the way from superclass to superclass ends
(`Prepares.wellFounded_derives`). Both hold since a style derives from styles that are done before
it: styles of its own stylesheet earlier in the order of marking, or styles of the base, which is
resolved first (`Place.exists_superclass`).

A search for ancestors can leave the own stylesheet only for the base and for the imported
stylesheet (`Searched`, `Begins`), so where nothing is imported each ancestor is a class of the
suite. The induction goes over the marked styles in the order in which they were done.
Well-foundedness is shown for the classes of the base first and then for those of any other
stylesheet, whose way up ends in the base; paths of classes have to be distinct, since a superclass
is named by its path.
-/

namespace Appearance

/-- Every class inside that of an heir comes of a fresh style, as an heir of classes inside those of
the ancestors. -/
theorem Style.Heir.of_mem_classesAt {x y : Style} {as : List Ancestor} {path : String}
    {c : Ancestor} (h : Heir x as y) (hx : x.Fresh) (hc : c ∈ y.classesAt path) :
    ∃ z bs, z.Fresh ∧ Heir z bs c.style ∧ ∀ b ∈ bs, ∃ a ∈ as, b ∈ a.classes := by
  induction y using nestedInduction generalizing x as path with
  | step y ih =>
    rcases mem_classesAt.1 hc with rfl | ⟨n, hn, hc⟩
    · exact ⟨x, as, hx, h, fun b hb => ⟨b, hb, Ancestor.self_mem_classes b⟩⟩
    · obtain ⟨m, hm, hheir, -⟩ := h.nested hn
      obtain ⟨z, bs, hz, hzheir, hbs⟩ := ih n hn hheir ((fresh_iff.1 hx).2 m hm) hc
      refine ⟨z, bs, hz, hzheir, fun b hb => ?_⟩
      obtain ⟨a', ha', hba'⟩ := hbs b hb
      obtain ⟨a, ha, hnested⟩ := Ancestor.mem_allNested.1 ha'
      exact ⟨a, ha, Ancestor.classes_subset (Ancestor.nested?_mem_classes hnested) hba'⟩

/-- An heir that comes of a fresh style inherits from its nearest ancestor only. -/
theorem Style.Heir.inherits_of_fresh {x y : Style} {as : List Ancestor} (h : Heir x as y)
    (hx : x.Fresh) : y.head.inherits = as.head?.map Ancestor.path := by
  rw [h.inherits_eq, (fresh_iff.1 hx).1.2, Option.or_none]

theorem Stylesheet.classOf_congr {t u : Stylesheet} (h : t.name = u.name) (x : Style) :
    t.classOf x = u.classOf x := by
  rw [classOf, classOf, h]

namespace Suite

variable {s l r u : Suite} {settings : Settings} {id : SheetId} {done : List Style}

/-! ## Where ancestors come from -/

/-- The grounds that are searched for the ancestors of a style in the stylesheet at a place. -/
inductive Searched (s : Suite) (id : SheetId) : Ground → Prop
  | own : Searched s id .own
  | base {b : SheetId} : s.superclass? id = some b → Searched s id (.base b)
  | imported : Searched s id .imported

/-- The search goes on in a stylesheet that is searched. -/
theorem Searched.next {ground : Ground} {x : Style} {next : Ground × String}
    (h : Searched s id ground) (hnext : s.nextAncestor? id ground x = some next) :
    Searched s id next.1 := by
  unfold nextAncestor? at hnext
  split at hnext
  · obtain ⟨b, hb, rfl⟩ := Option.map_eq_some_iff.1 hnext
    exact .base hb
  · obtain ⟨n, -, rfl⟩ := Option.map_eq_some_iff.1 hnext
    dsimp only
    split
    · exact .imported
    · exact h

/-- Without an imported stylesheet, every ancestor is the class of a style that is done or of a
style of the base. -/
theorem mem_ancestorsFrom (himported : s.imported = none) {steps : Nat}
    {met : List (Ground × String)} {next : Ground × String} (hnext : Searched s id next.1)
    {a : Ancestor} (ha : a ∈ s.ancestorsFrom settings id done steps met next) :
    (∃ x ∈ done, a = (s.sheet id).classOf x) ∨
      ∃ b, s.superclass? id = some b ∧ ∃ x ∈ (s.sheet b).allStyles, a = (s.sheet b).classOf x := by
  induction steps generalizing met next with
  | zero => cases ha
  | succ steps ih =>
    rw [ancestorsFrom] at ha
    split at ha
    · cases ha
    · split at ha
      · cases ha
      · next x hx =>
        rcases List.mem_cons.1 ha with rfl | ha
        · obtain ⟨ground, n⟩ := next
          cases hnext with
          | own => exact .inl ⟨x, List.mem_of_find?_eq_some hx, rfl⟩
          | base hb => exact .inr ⟨_, hb, x, (mem_of_find? hx).1, rfl⟩
          | imported => simp [styleOn?, importedId?, himported] at hx
        · split at ha
          · next after hafter => exact ih (hnext.next hafter) ha
          · cases ha

/-- The ancestor that a style names stands in a stylesheet that is searched. -/
theorem searched_of_declaredAncestor? {x : Style} {first : Ground × String}
    (h : s.declaredAncestor? id done x = .ok (some first)) : Searched s id first.1 := by
  unfold declaredAncestor? at h
  split at h
  · cases h
  · split at h
    · cases h
      exact .imported
    · split at h
      · cases h
        exact .own
      · split at h
        · next b hb =>
          cases h
          exact .base (Option.filter_eq_some_iff.1 hb).1
        · cases h

/-- Where the search for the ancestors of a style begins: at its counterpart in the base, or at what
its declaration extends. -/
inductive Begins (s : Suite) (id : SheetId) (done : List Style) (x : Style) :
    Ground × String → Prop
  | counterpart {b : SheetId} : s.superclass? id = some b → Begins s id done x (.base b, x.name)
  | declared {first : Ground × String} : s.declaredAncestor? id done x = .ok (some first) →
    Begins s id done x first

theorem Begins.searched {x : Style} {first : Ground × String} (h : Begins s id done x first) :
    Searched s id first.1 := by
  cases h with
  | counterpart hb => exact .base hb
  | declared hfirst => exact searched_of_declaredAncestor? hfirst

/-! ## Superclasses -/

/-- What is marked next derives from what the search finds. -/
theorem exists_heir_of_search (hframework : settings.framework = none) {x y : Style}
    (h : s.inheritingStyle settings id done x = .ok y) :
    ∃ as, Style.Heir x as y ∧ ∀ a ∈ as, ∃ first, Begins s id done x first ∧
      a ∈ s.ancestorsFrom settings id done (s.styleCount + 1) [] first := by
  rcases inheritingStyle_heir h with ⟨b, as, hb, has, -, hheir, -⟩ |
    ⟨-, -, ⟨-, hheir⟩ | ⟨first, as, hfirst, has, -, hheir⟩⟩ | ⟨-, -, hunseen⟩
  · exact ⟨as, hheir, fun a ha =>
      ⟨_, .counterpart (Option.filter_eq_some_iff.1 hb).1, has ▸ ha⟩⟩
  · exact ⟨[], hheir, fun a ha => by cases ha⟩
  · exact ⟨as, hheir, fun a ha => ⟨first, .declared hfirst, has ▸ ha⟩⟩
  · rw [hframework] at hunseen
    cases hunseen

/-- What is marked next derives from styles that are done or from styles of the base. -/
theorem exists_heir (himported : s.imported = none) (hframework : settings.framework = none)
    {x y : Style} (h : s.inheritingStyle settings id done x = .ok y) :
    ∃ as, Style.Heir x as y ∧ ∀ a ∈ as, (∃ z ∈ done, a = (s.sheet id).classOf z) ∨
      ∃ b, s.superclass? id = some b ∧ ∃ z ∈ (s.sheet b).allStyles, a = (s.sheet b).classOf z := by
  obtain ⟨as, hheir, has⟩ := exists_heir_of_search hframework h
  refine ⟨as, hheir, fun a ha => ?_⟩
  obtain ⟨first, hfirst, ha⟩ := has a ha
  exact mem_ancestorsFrom himported hfirst.searched ha

/-- Each class of a stylesheet that has a superclass is an heir of it. -/
theorem Place.exists_superclass (h : Place settings l r id u done) (himported : l.imported = none)
    (hframework : settings.framework = none)
    (hfresh : ∀ x ∈ (l.shadowedIn r id).allStyles, x.Fresh) {earlier : List Style} {x y : Style}
    (hx : ∃ z ∈ (u.sheet id).allStyles, x.outline StyleHead.closed = z.outline StyleHead.closed)
    (hy : u.inheritingStyle settings id earlier x = .ok y) {c : Ancestor}
    (hc : c ∈ ((r.sheet id).classOf y).classes) {p : String}
    (hp : c.style.head.inherits = some p) :
    ∃ a : Ancestor, a.path = p ∧ ((∃ z ∈ earlier, a ∈ ((r.sheet id).classOf z).classes) ∨
      ∃ b, l.superclass? id = some b ∧
        ∃ z ∈ (r.sheet b).allStyles, a ∈ ((r.sheet b).classOf z).classes) := by
  obtain ⟨as, hheir, has⟩ := exists_heir (h.imported_eq.trans himported) hframework hy
  obtain ⟨z, bs, hz, hzheir, hbs⟩ := hheir.of_mem_classesAt (h.fresh hfresh hx) hc
  rw [hzheir.inherits_of_fresh hz, Option.map_eq_some_iff] at hp
  obtain ⟨a, ha, rfl⟩ := hp
  obtain ⟨d, hd, had⟩ := hbs a (List.mem_of_head? ha)
  have hname : (u.sheet id).name = (r.sheet id).name := by rw [h.marked.eq]
  refine ⟨a, rfl, ?_⟩
  rcases has d hd with ⟨w, hw, rfl⟩ | ⟨b, hb, w, hw, rfl⟩
  · exact .inl ⟨w, hw, Stylesheet.classOf_congr hname w ▸ had⟩
  · rw [superclass?_congr h.base?_eq] at hb
    rw [h.base_eq b hb] at hw had
    exact .inr ⟨b, hb, w, hw, had⟩

/-! ## The way up -/

/-- With distinct paths, the way up from a class of a style that is done ends, if it does from every
class of the base. -/
theorem Place.acc (h : Place settings l r id u done) (himported : l.imported = none)
    (hframework : settings.framework = none)
    (hfresh : ∀ x ∈ (l.shadowedIn r id).allStyles, x.Fresh)
    (hpaths : (r.classes.map Ancestor.path).Nodup) (hid : id ∈ r.ids)
    (hbase : ∀ b, l.superclass? id = some b → b ∈ r.ids ∧ ∀ z ∈ (r.sheet b).allStyles,
      ∀ a ∈ ((r.sheet b).classOf z).classes, Acc (fun a c => r.Derives c a) a)
    {marked : List Style} (hmarked : Marked u settings id marked) (hsub : marked ⊆ done) :
    ∀ y ∈ marked, ∀ c ∈ ((r.sheet id).classOf y).classes, Acc (fun a c => r.Derives c a) c := by
  have hdone : ∀ z ∈ done, z ∈ (r.sheet id).allStyles := fun z => h.marked.perm.mem_iff.1
  induction hmarked with
  | nil => exact fun y hy => by cases hy
  | @cons earlier x y _ hx _ hy ih =>
    rw [List.cons_subset] at hsub
    intro y' hy' c hc
    rcases List.mem_cons.1 hy' with rfl | hy'
    · refine ⟨_, fun a' ⟨ha', hinherits⟩ => ?_⟩
      obtain ⟨a, hpath, ha⟩ := h.exists_superclass himported hframework hfresh hx hy hc hinherits
      -- the class of that path is the one of which the induction speaks
      rcases ha with ⟨z, hz, ha⟩ | ⟨b, hb, z, hz, ha⟩
      · have hmem := mem_classes_of_classOf hid (hdone z (hsub.2 hz)) ha
        rw [← eq_of_mem_of_nodup hpaths hmem ha' hpath]
        exact ih hsub.2 z hz a ha
      · have hmem := mem_classes_of_classOf (hbase b hb).1 hz ha
        rw [← eq_of_mem_of_nodup hpaths hmem ha' hpath]
        exact (hbase b hb).2 z hz a ha
    · exact ih hsub.2 y' hy' c hc

section Prepared

variable (h : Prepares settings s l) (hw : s.WellNamed) (hf : s.Fresh)
  (himported : s.imported = none) (hframework : settings.framework = none)

include h

include hw hf himported hframework

/-- Every superclass is a generated class. -/
theorem Prepares.exists_superclass {c : Ancestor} (hc : c ∈ (l.prepared settings).1.classes)
    {p : String} (hp : c.style.head.inherits = some p) :
    ∃ a ∈ (l.prepared settings).1.classes, a.path = p := by
  obtain ⟨id, hid, hc⟩ := mem_classes.1 hc
  obtain ⟨y, hy, hc⟩ := Stylesheet.mem_classes.1 hc
  have hid' : id ∈ l.ids := h.ids_eq ▸ hid
  obtain ⟨u, done, hplace⟩ := h.place hw hid'
  obtain ⟨earlier, x, hsub, hx, hinheriting⟩ :=
    hplace.marked.marked.exists_step (hplace.marked.perm.mem_iff.2 hy)
  obtain ⟨a, hpath, ha⟩ := hplace.exists_superclass (h.imported_eq.trans himported) hframework
    (h.fresh_shadowedIn hf hid') hx hinheriting hc hp
  refine ⟨a, ?_, hpath⟩
  rcases ha with ⟨z, hz, ha⟩ | ⟨b, hb, z, hz, ha⟩
  · exact mem_classes_of_classOf hid (hplace.marked.perm.mem_iff.1 (hsub hz)) ha
  · exact mem_classes_of_classOf (h.ids_eq ▸ mem_ids_of_superclass? h.linked hb) hz ha

variable (hpaths : ((l.prepared settings).1.classes.map Ancestor.path).Nodup)

include hpaths

/-- From the classes of a stylesheet the way up ends if it does from those of the base. -/
theorem Prepares.acc_of_place {id : SheetId} (hid : id ∈ l.ids)
    (hbase : ∀ b, l.superclass? id = some b → ∀ z ∈ ((l.prepared settings).1.sheet b).allStyles,
      ∀ a ∈ (((l.prepared settings).1.sheet b).classOf z).classes,
        Acc (fun a c => (l.prepared settings).1.Derives c a) a) :
    ∀ y ∈ ((l.prepared settings).1.sheet id).allStyles,
      ∀ c ∈ (((l.prepared settings).1.sheet id).classOf y).classes,
        Acc (fun a c => (l.prepared settings).1.Derives c a) c := by
  obtain ⟨u, done, hplace⟩ := h.place hw hid
  intro y hy
  refine hplace.acc (h.imported_eq.trans himported) hframework (h.fresh_shadowedIn hf hid)
    hpaths (h.ids_eq ▸ hid) (fun b hb => ⟨?_, hbase b hb⟩) hplace.marked.marked
    (List.Subset.refl _) y (hplace.marked.perm.mem_iff.2 hy)
  rw [h.ids_eq]
  exact mem_ids_of_superclass? h.linked hb

/-- From superclass to superclass the way ends, whatever class it begins at. -/
theorem Prepares.wellFounded_derives :
    WellFounded fun a c => (l.prepared settings).1.Derives c a := by
  have hbase : ∀ id ∈ l.ids, l.superclass? id = none →
      ∀ y ∈ ((l.prepared settings).1.sheet id).allStyles,
        ∀ c ∈ (((l.prepared settings).1.sheet id).classOf y).classes,
          Acc (fun a c => (l.prepared settings).1.Derives c a) c := fun id hid hsup =>
    h.acc_of_place hw hf himported hframework hpaths hid fun b hb => by rw [hsup] at hb; cases hb
  refine ⟨fun c => ⟨_, fun a ⟨ha, _⟩ => ?_⟩⟩
  obtain ⟨id, hid, ha⟩ := mem_classes.1 ha
  obtain ⟨y, hy, ha⟩ := Stylesheet.mem_classes.1 ha
  refine h.acc_of_place hw hf himported hframework hpaths (h.ids_eq ▸ hid) (fun b hb => ?_) y hy
    a ha
  exact hbase b (mem_ids_of_superclass? h.linked hb) (superclass?_superclass? hb)

/-- No superclass is missing and none is met again on the way up: with distinct paths of classes,
every superclass is the path of a generated class, and from every class the way ends. Nothing is
marked before preparation, as in every suite that is loaded (`Config.fresh_suite`). -/
theorem Prepares.superclasses :
    (∀ c ∈ (l.prepared settings).1.classes, ∀ p, c.style.head.inherits = some p →
      ∃ a ∈ (l.prepared settings).1.classes, a.path = p) ∧
    WellFounded fun a c => (l.prepared settings).1.Derives c a :=
  ⟨fun _ hc _ hp => h.exists_superclass hw hf himported hframework hc hp,
    h.wellFounded_derives hw hf himported hframework hpaths⟩

end Prepared

/-! ## An instance -/

/-- A base with a style that extends another one, and a theme with one that extends the shadow of
that. -/
def layeredTheme : Suite :=
  ⟨[⟨"Base",
      [.named "A" [.leaf ⟨"x", false, false⟩ (.int 1),
        .nested ⟨"n", false, false⟩ (.named "n" [.leaf ⟨"y", false, false⟩ (.int 2)])],
        .mk { StyleHead.named "B" with superclass := some "A" }
          [.leaf ⟨"x", false, false⟩ (.int 3)]],
      none, none, false, []⟩,
    ⟨"Dark",
      [.mk { StyleHead.named "C" with superclass := some "B" }
        [.nested ⟨"n", false, false⟩ (.named "n" [.leaf ⟨"y", false, false⟩ (.int 4),
          .leaf ⟨"z", false, false⟩ (.int 5)])]],
      none, some "Base", false, []⟩],
    none, none⟩

theorem prepares_layeredTheme :
    Prepares .standard layeredTheme { layeredTheme with base? := some 0 } :=
  ⟨rfl, by cbv⟩

/-- All their classes have different paths. -/
theorem nodup_paths_layeredTheme :
    (({ layeredTheme with base? := some 0 }.prepared .standard).1.classes.map
      Ancestor.path).Nodup := by
  have hpaths : ({ layeredTheme with base? := some 0 }.prepared .standard).1.classes.map
      Ancestor.path =
      ["Base.AAppearanceProxy", "Base.AAppearanceProxy.nAppearanceProxy", "Base.BAppearanceProxy",
        "Dark.DarkAAppearanceProxy", "Dark.DarkAAppearanceProxy.DarkANAppearanceProxy",
        "Dark.DarkBAppearanceProxy", "Dark.CAppearanceProxy",
        "Dark.CAppearanceProxy.CNAppearanceProxy"] := by
    cbv
  rw [hpaths]
  decide

/-- Their superclasses are classes, and the way up ends. -/
theorem superclasses_layeredTheme :
    (∀ c ∈ ({ layeredTheme with base? := some 0 }.prepared .standard).1.classes, ∀ p,
      c.style.head.inherits = some p →
        ∃ a ∈ ({ layeredTheme with base? := some 0 }.prepared .standard).1.classes, a.path = p) ∧
    WellFounded fun a c =>
      ({ layeredTheme with base? := some 0 }.prepared .standard).1.Derives c a :=
  Prepares.superclasses prepares_layeredTheme (by decide) (by decide) rfl rfl
    nodup_paths_layeredTheme

end Suite

end Appearance
