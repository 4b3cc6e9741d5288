import Appearance.Proofs.Declarations
import Appearance.Proofs.GlobalTypes
import Appearance.Proofs.Loading
import Appearance.Proofs.Settled

/-!
# Classes that others derive from are open

A class may only derive from one that is open. Styles are opened before their ancestors are known:
those of the base, and those that another style of their stylesheet extends, each with everything in
it. That is enough. The search for ancestors stands in the base, or in the own stylesheet at a name
that a style of it extends (`Suite.Sought`), so all that it finds was opened, and so are the classes
nested in that (`Ancestor.isOpen_of_mem_classes`). Marking and sorting close nothing.

So whatever derives from a class, that one is open (`Suite.Prepares.superclasses_open`). An animator
extends nothing, as its declaration has no place for it (`Config.plainAnimators_suite`).

The invariant is about the search and not about single classes: wherever it stands, the style that
it is going to find was opened before. It begins at a name that some style extends or at a
counterpart in the base, and it goes on either within the base, all of which is open, or to a name
that a style of the own stylesheet extends. Whether a class is open is read off the head that is
printed, so the result is about the generated declaration.
-/

namespace Appearance

/-! ## Open classes -/

namespace Style

/-- The class of the style is written as an open one. -/
def IsOpen (x : Style) : Prop := (x.head.isOverridable || x.head.isNestedOverridable) = true

instance : DecidablePred IsOpen := fun _ => inferInstanceAs (Decidable (_ = true))

/-- A style that was opened is open at every depth. -/
theorem all_isOpen_opened (s : Style) : s.opened.All IsOpen := by
  induction s using Style.induction with
  | mk h ps ih =>
    rw [opened_mk, all_mk]
    refine ⟨rfl, fun k n hn => ?_⟩
    obtain ⟨p, hp, hpn⟩ := List.mem_map.1 hn
    cases p with
    | leaf => cases hpn
    | nested k' m =>
      cases hpn
      exact all_iff.2 ⟨Bool.or_true _, (all_iff.1 (ih k' m hp)).2⟩

end Style

/-- The classes inside that of an opened style are open. -/
theorem Ancestor.isOpen_of_mem_classes {a c : Ancestor} (ha : a.style.opened = a.style)
    (hc : c ∈ a.classes) : c.style.IsOpen := by
  have hall : a.style.All Style.IsOpen := ha ▸ a.style.all_isOpen_opened
  exact (Style.all_iff.1 (hall.of_mem_classesAt hc)).1

namespace Suite

variable {s l r u : Suite} {settings : Settings} {id : SheetId} {done : List Style}
  {names : List String}

/-! ## What the search for ancestors finds -/

/-- A place at which the search for ancestors may stand: in the own stylesheet it is one of the
names. -/
structure Sought (s : Suite) (id : SheetId) (names : List String) (next : Ground × String) :
    Prop where
  searched : Searched s id next.1
  extended : next.1 = .own → next.2 ∈ names

/-- The search goes on in the own stylesheet at a name that the style extends. -/
theorem Sought.next {next after : Ground × String} {x : Style} (h : Sought s id names next)
    (hx : next.1 = .own → ∀ n, x.localSuperclass? = some n → n ∈ names)
    (hafter : s.nextAncestor? id next.1 x = some after) : Sought s id names after where
  searched := h.searched.next hafter
  extended hown := by
    unfold nextAncestor? at hafter
    split at hafter
    · obtain ⟨b, -, rfl⟩ := Option.map_eq_some_iff.1 hafter
      cases hown
    · obtain ⟨n, hn, rfl⟩ := Option.map_eq_some_iff.1 hafter
      dsimp only at hown ⊢
      split at hown
      · cases hown
      · next himported =>
        exact hx hown n (by rw [Style.localSuperclass?, if_neg himported, hn])

/-- The search begins at a name that some style extends, or in the base. -/
theorem Begins.sought {x : Style} {first : Ground × String} (h : Begins s id done x first)
    (hx : ∀ n, x.localSuperclass? = some n → n ∈ names) : Sought s id names first where
  searched := h.searched
  extended hown := by
    cases h with
    | counterpart => cases hown
    | declared hfirst =>
      rcases declaredAncestor?_cases hfirst with ⟨n, rfl, -⟩ | ⟨n, hn, ⟨rfl, -⟩ | ⟨b, rfl, -⟩⟩
      · cases hown
      · exact hx n hn
      · cases hown

/-- Of the styles that are done, those with one of the names are opened, and they extend those
only. -/
structure Opens (names : List String) (done : List Style) : Prop where
  extended : ∀ z ∈ done, ∀ n, z.localSuperclass? = some n → n ∈ names
  opened : ∀ z ∈ done, z.name ∈ names → z.opened = z

section Search

variable (himported : s.imported = none) (hdone : Opens names done)
  (hbase : ∀ b, s.superclass? id = some b → ∀ z ∈ (s.sheet b).allStyles, z.opened = z)

include himported hdone hbase

/-- Every ancestor was opened. -/
theorem opened_of_mem_ancestorsFrom {steps : Nat} {met : List (Ground × String)}
    {next : Ground × String} (hnext : Sought s id names next) {a : Ancestor}
    (ha : a ∈ s.ancestorsFrom settings id done steps met next) : a.style.opened = a.style := by
  induction steps generalizing met next with
  | zero => cases ha
  | succ steps ih =>
    rw [ancestorsFrom] at ha
    split at ha
    · cases ha
    split at ha
    · cases ha
    · next x hx =>
      obtain ⟨ground, n⟩ := next
      rcases List.mem_cons.1 ha with rfl | ha
      · cases hnext.searched with
        | own =>
          have hname : x.name = n := by simpa using List.find?_some hx
          exact hdone.opened x (List.mem_of_find?_eq_some hx) (hname ▸ hnext.extended rfl)
        | base hb => exact hbase _ hb x (mem_of_find? hx).1
        | imported => simp [styleOn?, importedId?, himported] at hx
      · split at ha
        · next after hafter =>
          refine ih (hnext.next (fun hown m hm => ?_) hafter) ha
          obtain rfl : ground = .own := hown
          exact hdone.extended x (List.mem_of_find?_eq_some hx) m hm
        · cases ha

/-- What is marked next derives from opened styles, which are done or of the base. -/
theorem exists_heir_of_opened (hframework : settings.framework = none) {x y : Style}
    (hx : ∀ n, x.localSuperclass? = some n → n ∈ names)
    (h : s.inheritingStyle settings id done x = .ok y) :
    ∃ as, Style.Heir x as y ∧ ∀ a ∈ as, a.style.opened = a.style ∧
      ((∃ z ∈ done, a = (s.sheet id).classOf z) ∨ ∃ b, s.superclass? id = some b ∧
        ∃ z ∈ (s.sheet b).allStyles, a = (s.sheet b).classOf z) := by
  obtain ⟨as, hheir, has⟩ := exists_heir_of_search hframework h
  refine ⟨as, hheir, fun a ha => ?_⟩
  obtain ⟨first, hfirst, ha⟩ := has a ha
  exact ⟨opened_of_mem_ancestorsFrom himported hdone hbase (hfirst.sought hx) ha,
    mem_ancestorsFrom himported hfirst.searched ha⟩

end Search

/-! ## What marking leaves open -/

theorem isOpenIn_of_withInheritance {m : Stylesheet} (h : s.withInheritance settings id = .ok m)
    {y : Style} (hy : y ∈ m.styles) : IsOpenIn (s.sheet id) y := by
  obtain ⟨x, hx, earlier, hxy⟩ := exists_step_of_withInheritance h hy
  exact (isOpenIn_of_mem_openStyles hx).inheritingStyle hxy

/-- The animator of the base stays open. -/
theorem opened_of_mem_animator {m : Stylesheet} (h : s.withInheritance settings id = .ok m)
    (hbase : (s.sheet id).isBase = true) {a : Style} (ha : a ∈ m.animator) : a.opened = a := by
  obtain ⟨order, done, animator, -, -, hanimator, rfl⟩ := withInheritance_eq_ok h
  have hrel := rel_of_mapM hanimator
  obtain rfl : animator = some a := ha
  generalize (s.sheet id).animator = o at hrel
  cases hrel with
  | some hy =>
    rw [if_pos hbase] at hy
    exact opened_inheritingStyle (Style.opened_opened _) hy

/-! ## One stylesheet -/

/-- No animator of a suite extends a style. -/
def PlainAnimators (s : Suite) : Prop :=
  ∀ t ∈ s.registered, ∀ a ∈ t.animator, a.head.superclass = none

instance (s : Suite) : Decidable s.PlainAnimators :=
  decidable_of_iff (∀ t ∈ s.registered, ∀ a ∈ t.animator.toList, a.head.superclass = none)
    ⟨fun h t ht a ha => h t ht a (Option.mem_toList.2 ha),
      fun h t ht a ha => h t ht a (Option.mem_toList.1 ha)⟩

/-- A shadowed animator extends nothing. -/
theorem superclass_of_shadowedAnimator {own base : Option Style} {sheet : String}
    (hown : ∀ a ∈ own, a.head.superclass = none) {a : Style}
    (ha : a ∈ Stylesheet.shadowedAnimator own base sheet) : a.head.superclass = none := by
  cases base with
  | none => cases own <;> exact hown a ha
  | some b =>
    cases own with
    | none =>
      cases ha
      rw [Style.withHead, Style.head_mk, Style.head_shadow]
      rfl
    | some own =>
      cases ha
      rw [Style.head_shadowed]
      exact hown own rfl

/-- The superclass in the declaration of an animator is kept. -/
theorem Site.animator_superclass (h : Site settings l r id u done)
    (hplain : ∀ a ∈ (l.shadowedIn r id).animator, a.head.superclass = none) {y : Style}
    (hy : y ∈ (r.sheet id).animator) : y.head.superclass = none := by
  have hrel := h.animator
  rw [Option.mem_def.1 hy] at hrel
  generalize ho : (u.sheet id).animator = o at hrel
  cases hrel with
  | @some a _ ha =>
    have hout := h.redirected.animator StyleHead.declared
    rw [ho, Option.map_some] at hout
    obtain ⟨z, hz, hza⟩ := Option.map_eq_some_iff.1 hout.symm
    obtain ⟨c, hc, rfl⟩ := Option.map_eq_some_iff.1 hz
    have hopened := Style.outline_declared_of_closed
      (outline_openedIf ((u.sheet id).isBase = true) a)
    obtain ⟨-, hsuper, -⟩ := localSuperclass?_congr
      ((outline_inheritingStyle ha).trans (hopened.trans hza.symm))
    rw [hsuper, Style.head_sorted]
    exact hplain c hc

/-- What is marked in a stylesheet derives from opened styles of it or of the base. -/
theorem Site.exists_heir_of_opened (h : Site settings l r id u done) (himported : l.imported = none)
    (hframework : settings.framework = none)
    (hopen : ∀ z ∈ (r.sheet id).styles, IsOpenIn (r.sheet id) z)
    (hbase : ∀ b, l.superclass? id = some b → ∀ z ∈ (r.sheet b).allStyles, z.opened = z)
    (hanimator : ∀ a ∈ (r.sheet id).animator, a.head.superclass = none)
    (hfresh : ∀ x ∈ (l.shadowedIn r id).allStyles, x.Fresh) {y : Style}
    (hy : y ∈ (r.sheet id).allStyles) :
    ∃ x as, x.Fresh ∧ Style.Heir x as y ∧ ∀ a ∈ as, a.style.opened = a.style ∧
      ((∃ z ∈ (r.sheet id).styles, a = (r.sheet id).classOf z) ∨ ∃ b, l.superclass? id = some b ∧
        ∃ z ∈ (r.sheet b).allStyles, a = (r.sheet b).classOf z) := by
  obtain ⟨earlier, x, hsub, hx, hinheriting⟩ := h.exists_step hy
  have hstyle : ∀ {z}, z ∈ earlier → z ∈ (r.sheet id).styles := fun hz =>
    h.perm.mem_iff.1 (hsub hz)
  have hextended : ∀ {z}, z ∈ (r.sheet id).styles → ∀ n, z.localSuperclass? = some n →
      n ∈ (r.sheet id).styles.filterMap Style.localSuperclass? := fun hz n hn =>
    List.mem_filterMap.2 ⟨_, hz, hn⟩
  have hdone : Opens ((r.sheet id).styles.filterMap Style.localSuperclass?) earlier :=
    ⟨fun z hz => hextended (hstyle hz), fun z hz hname => (hopen z (hstyle hz)).opened (.inr hname)⟩
  have hsuper : ∀ n, x.localSuperclass? = some n →
      n ∈ (r.sheet id).styles.filterMap Style.localSuperclass? := by
    intro n hn
    obtain ⟨hlocal, hsuperclass, -⟩ := localSuperclass?_congr (outline_inheritingStyle hinheriting)
    rcases List.mem_append.1 hy with hy | hy
    · exact hextended hy n (hlocal.trans hn)
    · -- an animator extends none
      rw [Style.localSuperclass?, ← hsuperclass, hanimator y (Option.mem_toList.1 hy), ite_self]
        at hn
      cases hn
  obtain ⟨as, hheir, has⟩ := Suite.exists_heir_of_opened (h.imported_eq.trans himported) hdone
    (fun b hb => by
      rw [superclass?_congr h.base?_eq] at hb
      rw [h.base_eq b hb]
      exact hbase b hb) hframework hsuper hinheriting
  refine ⟨x, as, h.fresh hfresh hx, hheir, fun a ha => ⟨(has a ha).1, ?_⟩⟩
  rcases (has a ha).2 with ⟨z, hz, rfl⟩ | ⟨b, hb, z, hz, rfl⟩
  · exact .inl ⟨z, hstyle hz, Stylesheet.classOf_congr h.name_eq z⟩
  · rw [superclass?_congr h.base?_eq] at hb
    rw [h.base_eq b hb] at hz ⊢
    exact .inr ⟨b, hb, z, hz, rfl⟩

/-! ## All stylesheets -/

section Prepared

variable (h : Prepares settings s l) (hd : ∀ t ∈ s.registered, (t.styles.map Style.name).Nodup)

include h hd

/-- What others extend is the base. -/
theorem Prepares.isBase_of_superclass? {b : SheetId} (hb : l.superclass? id = some b) :
    ((l.prepared settings).1.sheet b).isBase = true := by
  have hbid := mem_ids_of_superclass? h.linked hb
  obtain ⟨base, hbased⟩ := basedOn_of_linked h.linked
  have hnone := superclass?_superclass? hb
  rw [hbased.superclass? b hbid] at hnone
  rw [h.isBase_eq hd hbid, hbased.isBase_iff b hbid]
  by_contra hne
  rw [if_neg hne] at hnone
  cases hnone

/-- All styles of the base are opened. -/
theorem Prepares.opened_of_base {b : SheetId} (hb : l.superclass? id = some b) :
    ∀ z ∈ ((l.prepared settings).1.sheet b).allStyles, z.opened = z := by
  have hmarked := h.withInheritance_again hd (mem_ids_of_superclass? h.linked hb)
  have hisBase := h.isBase_of_superclass? hd hb
  intro z hz
  rcases List.mem_append.1 hz with hz | hz
  · exact (isOpenIn_of_withInheritance hmarked hz).opened (.inl hisBase)
  · exact opened_of_mem_animator hmarked hisBase (Option.mem_toList.1 hz)

variable (hf : s.Fresh) (hplain : s.PlainAnimators) (himported : s.imported = none)
  (hframework : settings.framework = none)

include hf hplain himported hframework

/-- Every superclass is a generated class that is open. -/
theorem Prepares.exists_open_superclass {c : Ancestor}
    (hc : c ∈ (l.prepared settings).1.classes) {p : String}
    (hp : c.style.head.inherits = some p) :
    ∃ a ∈ (l.prepared settings).1.classes, a.path = p ∧ a.style.IsOpen := by
  obtain ⟨id, hid, hc⟩ := mem_classes.1 hc
  obtain ⟨y, hy, hc⟩ := Stylesheet.mem_classes.1 hc
  have hid' : id ∈ l.ids := h.ids_eq ▸ hid
  obtain ⟨u, done, hsite⟩ := h.exists_site hd hid'
  have hanimator : ∀ a ∈ (l.shadowedIn (l.prepared settings).1 id).animator,
      a.head.superclass = none := by
    have hown := hplain _ (linked_registered h.linked ▸ sheet_mem hid')
    unfold shadowedIn
    split
    · next b hb =>
      rw [Stylesheet.shadowing_eq (hd _ (linked_registered h.linked ▸ sheet_mem hid'))
        (h.styleNames_nodup hd (mem_ids_of_superclass? h.linked hb))]
      exact fun a => superclass_of_shadowedAnimator hown
    · exact hown
  obtain ⟨x, as, hx, hheir, has⟩ := hsite.exists_heir_of_opened (h.imported_eq.trans himported)
    hframework (fun z => isOpenIn_of_withInheritance (h.withInheritance_again hd hid'))
    (fun b hb => h.opened_of_base hd hb) (fun a => hsite.animator_superclass hanimator)
    (h.fresh_shadowedIn hf hid') hy
  obtain ⟨z, bs, hz, hzheir, hbs⟩ := hheir.of_mem_classesAt hx hc
  rw [hzheir.inherits_of_fresh hz, Option.map_eq_some_iff] at hp
  obtain ⟨a, ha, rfl⟩ := hp
  obtain ⟨d, hd', had⟩ := hbs a (List.mem_of_head? ha)
  obtain ⟨hopened, hmem⟩ := has d hd'
  refine ⟨a, ?_, rfl, Ancestor.isOpen_of_mem_classes hopened had⟩
  rcases hmem with ⟨w, hw, rfl⟩ | ⟨b, hb, w, hw, rfl⟩
  · exact mem_classes_of_classOf hid (List.mem_append_left _ hw) had
  · exact mem_classes_of_classOf (h.ids_eq ▸ mem_ids_of_superclass? h.linked hb) hw had

/-- Whatever derives from a class, open or not, derives from an open one: with distinct paths of
classes, every superclass is the path of a generated class, and that class is written as an open
one. Nothing is marked before preparation and no animator extends a style, as in every suite that is
loaded (`Config.fresh_suite`, `Config.plainAnimators_suite`). -/
theorem Prepares.superclasses_open
    (hpaths : ((l.prepared settings).1.classes.map Ancestor.path).Nodup) :
    ∀ c ∈ (l.prepared settings).1.classes, ∀ p, c.style.head.inherits = some p →
      (∃ a ∈ (l.prepared settings).1.classes, a.path = p) ∧
        ∀ a ∈ (l.prepared settings).1.classes, a.path = p → a.style.IsOpen := by
  intro c hc p hp
  obtain ⟨a, ha, hpath, hopen⟩ :=
    h.exists_open_superclass hd hf hplain himported hframework hc hp
  refine ⟨⟨a, ha, hpath⟩, fun a' ha' hpath' => ?_⟩
  rwa [eq_of_mem_of_nodup hpaths ha' ha (hpath'.trans hpath.symm)]

end Prepared

/-- All superclasses in this suite are open. -/
theorem superclasses_open_layeredTheme :
    (({ layeredTheme with base? := some 0 }.prepared .standard).1.classes.map
        Ancestor.path).Nodup ∧
      ∀ c ∈ ({ layeredTheme with base? := some 0 }.prepared .standard).1.classes, ∀ p,
        c.style.head.inherits = some p →
          (∃ a ∈ ({ layeredTheme with base? := some 0 }.prepared .standard).1.classes,
            a.path = p) ∧
            ∀ a ∈ ({ layeredTheme with base? := some 0 }.prepared .standard).1.classes,
              a.path = p → a.style.IsOpen :=
  ⟨nodup_paths_layeredTheme, Prepares.superclasses_open prepares_layeredTheme (by decide)
    (by decide) (by decide) rfl rfl nodup_paths_layeredTheme⟩

end Suite

/-! ## Suites that are loaded -/

/-- The declaration of an animator gives no superclass. -/
theorem Load.animator_superclass [Yaml.Parser] {read : Reader} {depth : Nat} {options : LoadOptions}
    {path declaration : String} {t : Stylesheet}
    (h : Load.file read depth options path declaration = .ok t) :
    ∀ a ∈ t.animator, a.head.superclass = none := by
  obtain ⟨rest, text, -, -, hsource⟩ := exists_of_file_ok h
  have hrel := (loaded_of_sourceIn hsource).animator
  intro a ha
  rw [Option.mem_def.1 ha] at hrel
  generalize animatorOf (itemsOf text) = last at hrel
  cases hrel with
  | some hread =>
    unfold Style.animatorOfNode at hread
    split at hread
    · obtain ⟨ps, -, rfl⟩ := map_eq_ok.1 hread
      rfl
    · cases hread

theorem Config.plainAnimators_suite [Yaml.Parser] {c : Config} {tree : FileTree} {s : Suite}
    (h : c.suite tree = .ok s) : s.PlainAnimators :=
  forall_mem_suite (fun _ _ hload => Load.animator_superclass (file_of_loadSource hload)) h

end Appearance
