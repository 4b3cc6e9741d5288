import Appearance.Proofs.Names

/-!
# Styles on which nothing is marked

A declared style has no superclass path and overrides nothing, and neither has a shadow. Both are
first known when the inheritance of a stylesheet is marked; up to that no pass fills them in
(`Place.fresh`). Neither does one fill in a name of the class or a type of the accessor
(`SameOutlines.heads`). The suite of a configuration begins so (`Config.fresh_suite`,
`Config.blank_suite`).

There are two conditions because later theorems ask for different amounts: `Fresh` excludes marks,
and `Blank` also a name of the class and a type of the accessor. Both are `Initial`, which is all
that the lemmas on shadowing, sorting and resolving use, so each of these is proved once for both.
Declarations cannot write any of the fields in question; this is what turns the conditions from
hypotheses into facts for every suite of a configuration (`Proofs.LoadedSuites`).
-/

namespace Appearance

namespace StyleHead

/-- Nothing is marked on the head. -/
def Unmarked (h : StyleHead) : Prop := h.isOverride = false ∧ h.inherits = none

/-- Nothing that marking fills in is known: no mark, no name of the class and no type of the
accessor. -/
def Blank (h : StyleHead) : Prop :=
  h.Unmarked ∧ h.overrideName = none ∧ h.accessorType = none

instance : DecidablePred Unmarked := fun _ => inferInstanceAs (Decidable (_ ∧ _))

instance : DecidablePred Blank := fun _ => inferInstanceAs (Decidable (_ ∧ _))

/-- A condition that blank heads meet and that opening does not change. -/
structure Initial (p : StyleHead → Prop) : Prop where
  of_blank : ∀ h, h.Blank → p h
  closed_iff : ∀ h, p h.closed ↔ p h

theorem initial_unmarked : Initial Unmarked := ⟨fun _ hh => hh.1, fun _ => Iff.rfl⟩

theorem initial_blank : Initial Blank := ⟨fun _ hh => hh, fun _ => Iff.rfl⟩

end StyleHead

namespace Style

/-- Nothing is marked on a style, at any depth. -/
def Fresh (s : Style) : Prop := s.All fun u => u.head.Unmarked

/-- Nothing that marking fills in is known of a style, at any depth. -/
def Blank (s : Style) : Prop := s.All fun u => u.head.Blank

instance (s : Style) : Decidable s.Fresh := inferInstanceAs (Decidable (s.All _))

instance (s : Style) : Decidable s.Blank := inferInstanceAs (Decidable (s.All _))

/-- A style is fresh if its head is not marked and its nested styles are fresh. -/
theorem fresh_iff {s : Style} :
    s.Fresh ↔ s.head.Unmarked ∧ ∀ n ∈ s.nestedStyles, n.Fresh :=
  all_iff

theorem blank_iff {s : Style} : s.Blank ↔ s.head.Blank ∧ ∀ n ∈ s.nestedStyles, n.Blank :=
  all_iff

theorem Blank.fresh {s : Style} (h : s.Blank) : s.Fresh := All.imp h fun _ hu => hu.1

theorem blank_withHead {s : Style} {h : StyleHead} (hs : s.Blank) (hh : h.Blank) :
    (s.withHead h).Blank :=
  blank_iff.2 ⟨hh, (blank_iff.1 hs).2⟩

theorem blank_shadow (s : Style) : s.shadow.Blank := by
  refine All.shadow (fun u _ => ?_) (All.of_forall (fun _ => trivial) s)
  rw [head_shadow]
  exact ⟨⟨rfl, rfl⟩, rfl, rfl⟩

section Heads

variable {p : StyleHead → Prop}

theorem heads_sorted {s : Style} (hs : s.All fun u => p u.head) :
    s.sorted.All fun u => p u.head :=
  All.sorted (fun u hu => by rwa [head_sorted]) hs

variable (hp : StyleHead.Initial p)

include hp

theorem heads_congr_outline {s t : Style}
    (h : s.outline StyleHead.closed = t.outline StyleHead.closed) :
    (s.All fun u => p u.head) ↔ t.All fun u => p u.head :=
  all_congr_outline StyleHead.closed (fun u => by rw [head_outline]; exact hp.closed_iff u.head) h

/-- A shadow has blank heads, also once it has its place. -/
theorem heads_shadow (s : Style) (nestedIn own base : Option String) :
    (s.shadow.withHead { s.shadow.head with
      nestedIn := nestedIn, belongsTo := own, extendsSheet := base }).All fun u => p u.head := by
  have hblank := blank_shadow s
  exact All.imp (blank_withHead hblank (show StyleHead.Blank _ from (blank_iff.1 hblank).1))
    fun u => hp.of_blank u.head

/-- Shadowing keeps the heads and adds blank ones, whatever the base is. -/
theorem heads_shadowing (base : Style) {s : Style} (hs : s.All fun u => p u.head) :
    (s.shadowing base).All fun u => p u.head := by
  have hbase : base.Heads (fun _ => True) fun _ _ => True :=
    heads_true_iff.2 (All.of_forall (fun _ => trivial) base)
  rw [← heads_true_iff] at hs ⊢
  refine hs.shadowing (fun h b _ _ => ⟨trivial, ?_⟩) hbase
  exact heads_true_iff.2 (heads_shadow hp b (some h.name) h.belongsTo _)

end Heads

end Style

/-! ## Stylesheets -/

namespace Stylesheet

variable {p : StyleHead → Prop} (hp : StyleHead.Initial p) {t : Stylesheet}

include hp

/-- Shadows keep the heads of a stylesheet and add blank ones, whatever the base is. -/
theorem heads_shadowing (base : Stylesheet) (ht : ∀ x ∈ t.allStyles, x.All fun u => p u.head) :
    ∀ x ∈ (t.shadowing base).allStyles, x.All fun u => p u.head :=
  forall_shadowing (fun c _ _ hx => Style.heads_shadowing hp c hx)
    (fun c _ own => Style.heads_shadow hp c _ _ own) ht

end Stylesheet

namespace Suite

variable {s l r u : Suite} {settings : Settings} {id : SheetId} {done : List Style}

/-- Nothing is marked on the styles of the registered stylesheets. -/
def Fresh (s : Suite) : Prop := ∀ t ∈ s.registered, ∀ x ∈ t.allStyles, x.Fresh

/-- Nothing that marking fills in is known of the styles of the registered stylesheets. -/
def Blank (s : Suite) : Prop := ∀ t ∈ s.registered, ∀ x ∈ t.allStyles, x.Blank

instance (s : Suite) : Decidable s.Fresh :=
  inferInstanceAs (Decidable (∀ t ∈ s.registered, ∀ x ∈ t.allStyles, x.Fresh))

instance (s : Suite) : Decidable s.Blank :=
  inferInstanceAs (Decidable (∀ t ∈ s.registered, ∀ x ∈ t.allStyles, x.Blank))

theorem Blank.fresh (h : s.Blank) : s.Fresh := fun t ht x hx => (h t ht x hx).fresh

section Heads

variable {p : StyleHead → Prop} (hp : StyleHead.Initial p)

include hp

/-- Sorting and resolving redirects change no heads, so what has the outline of a style after that
has heads as before. -/
theorem SameOutlines.heads {t v : Stylesheet} (h : SameOutlines t.sorted v)
    (ht : ∀ x ∈ t.allStyles, x.All fun u => p u.head) {x : Style}
    (hx : ∃ z ∈ v.allStyles, x.outline StyleHead.closed = z.outline StyleHead.closed) :
    x.All fun u => p u.head := by
  obtain ⟨z, hz, hxz⟩ := hx
  have hout := List.mem_map_of_mem (f := Style.outline StyleHead.closed) hz
  rw [h.outlines] at hout
  obtain ⟨w, hw, hwz⟩ := List.mem_map.1 hout
  obtain ⟨y, hy, rfl⟩ := List.mem_map.1 (t.allStyles_sorted_perm.mem_iff.1 hw)
  rw [Style.heads_congr_outline hp hxz, ← Style.heads_congr_outline hp hwz]
  exact Style.heads_sorted (ht y hy)

/-- The heads of a stylesheet that only has its shadows are those of the declarations, or blank. -/
theorem heads_shadowedIn (hlinked : s.linked = .ok l)
    (hs : ∀ t ∈ s.registered, ∀ x ∈ t.allStyles, x.All fun u => p u.head) (hid : id ∈ l.ids) :
    ∀ x ∈ (l.shadowedIn r id).allStyles, x.All fun u => p u.head := by
  have hall := hs _ (linked_registered hlinked ▸ sheet_mem hid)
  unfold shadowedIn
  split
  · exact Stylesheet.heads_shadowing hp _ hall
  · exact hall

end Heads

/-- Nothing is marked on what has the outline of a style of a stylesheet that is to be marked. -/
theorem Place.fresh (h : Place settings l r id u done)
    (hfresh : ∀ x ∈ (l.shadowedIn r id).allStyles, x.Fresh) {x : Style}
    (hx : ∃ z ∈ (u.sheet id).allStyles, x.outline StyleHead.closed = z.outline StyleHead.closed) :
    x.Fresh :=
  h.redirected.heads StyleHead.initial_unmarked hfresh hx

/-- Nothing is marked on a stylesheet that only has its shadows. -/
theorem Prepares.fresh_shadowedIn (h : Prepares settings s l) (hf : s.Fresh)
    (hid : id ∈ l.ids) :
    ∀ x ∈ (l.shadowedIn (l.prepared settings).1 id).allStyles, x.Fresh :=
  heads_shadowedIn StyleHead.initial_unmarked h.linked hf hid

end Suite

end Appearance
