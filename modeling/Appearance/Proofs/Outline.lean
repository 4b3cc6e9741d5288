import Appearance.Proofs.Nesting
import Appearance.Suite.Inheritance
import Appearance.Suite.Redirects

/-!
# What the passes leave as it is

Redirects change values, opening and marking change heads. `Style.outline` forgets both: it keeps
the keys, the nesting and a part of each head. No pass over the styles of a stylesheet changes the
outline (`outline_resolveStyle`, `outline_opened`, `outline_openNested`, `outline_inheriting`), so
whatever holds of outlines carries over from what was declared to what is generated.

Two parts of a head are used: `StyleHead.declared` keeps what a source can declare, and
`StyleHead.closed` keeps all but whether the style is open. A pass is known by the larger part that
it leaves alone, and what is declared is left alone by all of them.
-/

namespace Appearance

/-- The head without what opening fills in. -/
def StyleHead.closed (h : StyleHead) : StyleHead :=
  { h with isOverridable := false, isNestedOverridable := false }

/-- The head without what opening and marking fill in. -/
def StyleHead.declared (h : StyleHead) : StyleHead :=
  { h.closed with viewClass := "", isApplicable := false, overridesApply := false,
                  isOverride := false, overrideName := none, inherits := none,
                  accessorType := none }

/-- The property without its value and without what is known of its accessor; `f` is applied to a
nested style. -/
def Property.outlineBy (f : Style → Style) : Property → Property
  | .leaf head _ => .leaf ⟨head.key, false, false⟩ (.int 0)
  | .nested head style => .nested ⟨head.key, false, false⟩ (f style)

@[simp] theorem Property.key_outlineBy (f : Style → Style) (p : Property) :
    (p.outlineBy f).key = p.key := by
  cases p <;> rfl

@[simp] theorem Property.style?_outlineBy (f : Style → Style) (p : Property) :
    (p.outlineBy f).style? = p.style?.map f := by
  cases p <;> rfl

namespace Style

mutual

/-- The style without values and accessors; `f` tells what is kept of the heads. -/
def outline (f : StyleHead → StyleHead) : Style → Style
  | mk head properties => mk (f head) (outlineEach f properties)

def outlineEach (f : StyleHead → StyleHead) : List Property → List Property
  | [] => []
  | .leaf head _ :: ps => .leaf ⟨head.key, false, false⟩ (.int 0) :: outlineEach f ps
  | .nested head style :: ps =>
    .nested ⟨head.key, false, false⟩ (outline f style) :: outlineEach f ps

end

variable (f : StyleHead → StyleHead)

theorem outlineEach_eq (ps : List Property) :
    outlineEach f ps = ps.map (Property.outlineBy (outline f)) := by
  induction ps with
  | nil => rw [outlineEach, List.map_nil]
  | cons p ps ih => cases p <;> simp [outlineEach, ih, Property.outlineBy]

theorem outline_mk (h : StyleHead) (ps : List Property) :
    (mk h ps).outline f = mk (f h) (ps.map (Property.outlineBy (outline f))) := by
  rw [outline, outlineEach_eq]

@[simp] theorem head_outline (s : Style) : (s.outline f).head = f s.head := by
  obtain ⟨h, ps⟩ := s
  rw [outline_mk]
  rfl

theorem properties_outline (s : Style) :
    (s.outline f).properties = s.properties.map (Property.outlineBy (outline f)) := by
  obtain ⟨h, ps⟩ := s
  rw [outline_mk]
  rfl

theorem nestedStyles_outline (s : Style) :
    (s.outline f).nestedStyles = s.nestedStyles.map (outline f) := by
  rw [nestedStyles, nestedStyles, properties_outline, List.filterMap_map, List.map_filterMap]
  exact List.filterMap_congr fun p _ => Property.style?_outlineBy _ p

/-- An outline of an outline keeps what both keep. -/
theorem outline_outline (g : StyleHead → StyleHead) (s : Style) :
    (s.outline f).outline g = s.outline (g ∘ f) := by
  induction s using Style.induction with
  | mk h ps ih =>
    rw [outline_mk, outline_mk, outline_mk, List.map_map]
    refine congrArg _ (List.map_congr_left fun p hp => ?_)
    cases p with
    | leaf => rfl
    | nested k n => exact congrArg _ (ih k n hp)

/-- What holds at every depth of an outline holds of the outlines at every depth. -/
theorem all_outline {p : Style → Prop} {s : Style} :
    (s.outline f).All p ↔ s.All fun u => p (u.outline f) := by
  induction s using Style.induction with
  | mk h ps ih =>
    rw [all_iff, all_iff, nestedStyles_outline]
    refine and_congr Iff.rfl ⟨fun hs n hn => ?_, fun hs n hn => ?_⟩
    · obtain ⟨k, hk⟩ := mem_nestedStyles.1 hn
      exact (ih k n hk).1 (hs _ (List.mem_map_of_mem hn))
    · obtain ⟨m, hm, rfl⟩ := List.mem_map.1 hn
      obtain ⟨k, hk⟩ := mem_nestedStyles.1 hm
      exact (ih k m hk).2 (hs m hm)

/-- What depends on outlines only holds at every depth of both or of none of two styles with one
outline. -/
theorem all_congr_outline {p : Style → Prop} (hp : ∀ u, p (u.outline f) ↔ p u) {s t : Style}
    (h : s.outline f = t.outline f) : s.All p ↔ t.All p := by
  have hall : ∀ u : Style, (u.outline f).All p ↔ u.All p := fun u => by
    rw [all_outline]
    exact ⟨fun hu => hu.imp fun v => (hp v).1, fun hu => hu.imp fun v => (hp v).2⟩
  rw [← hall s, h, hall t]

/-- What does not depend on what an outline forgets holds of both or of none of two styles with one
outline. -/
theorem heads_congr {p : StyleHead → Prop} {r : StyleHead → StyleHead → Prop}
    (hp : ∀ u, p (f u) ↔ p u) (hr : ∀ u n, r (f u) (f n) ↔ r u n) {s t : Style}
    (h : s.outline f = t.outline f) :
    s.Heads p r ↔ t.Heads p r := by
  refine all_congr_outline f (fun u => ?_) h
  rw [head_outline, hp, nestedStyles_outline, List.forall_mem_map]
  simp only [head_outline, hr]

/-! ## Declared outlines -/

@[simp] theorem name_declared (h : StyleHead) : h.declared.name = h.name := rfl

theorem declared_comp_closed : StyleHead.declared ∘ StyleHead.closed = StyleHead.declared := rfl

theorem outline_declared_of_closed {s t : Style}
    (h : s.outline StyleHead.closed = t.outline StyleHead.closed) :
    s.outline StyleHead.declared = t.outline StyleHead.declared := by
  rw [← declared_comp_closed, ← outline_outline, h, outline_outline]

variable {s t : Style}

theorem declared_head_eq (h : s.outline StyleHead.declared = t.outline StyleHead.declared) :
    s.head.declared = t.head.declared := by
  rw [← head_outline StyleHead.declared, h, head_outline]

theorem name_eq_of_outline (h : s.outline StyleHead.declared = t.outline StyleHead.declared) :
    s.name = t.name := by
  rw [name, ← name_declared, declared_head_eq h, name_declared, name]

theorem name_outline_declared (s : Style) : (s.outline StyleHead.declared).name = s.name := by
  rw [name, head_outline, name_declared, name]

theorem nestedNames_outline (s : Style) :
    (s.outline StyleHead.declared).nestedStyles.map name = s.nestedStyles.map name := by
  rw [nestedStyles_outline, List.map_map]
  exact List.map_congr_left fun n _ => name_outline_declared n

theorem nestedNames_eq_of_outline
    (h : s.outline StyleHead.declared = t.outline StyleHead.declared) :
    s.nestedStyles.map name = t.nestedStyles.map name := by
  rw [← nestedNames_outline, h, nestedNames_outline]

theorem nestedDistinct_congr_outline
    (h : s.outline StyleHead.declared = t.outline StyleHead.declared) :
    s.NestedDistinct ↔ t.NestedDistinct :=
  all_congr_outline _ (fun u => by rw [nestedNames_outline]) h

theorem inOrder_congr_outline (h : s.outline StyleHead.declared = t.outline StyleHead.declared) :
    s.InOrder ↔ t.InOrder := by
  refine all_congr_outline _ (fun u => ?_) h
  rw [properties_outline, List.pairwise_map]
  simp only [keyLE, Property.key_outlineBy]

/-! ## The passes -/

/-- Opening properties changes nothing but what is open. -/
theorem outline_openedEach {ps : List Property}
    (ih : ∀ k n, Property.nested k n ∈ ps →
      n.opened.outline StyleHead.closed = n.outline StyleHead.closed) :
    outlineEach StyleHead.closed (openedEach ps) = outlineEach StyleHead.closed ps := by
  induction ps with
  | nil => rw [openedEach]
  | cons p ps ihps =>
    have hps := ihps fun k n hn => ih k n (List.mem_cons_of_mem p hn)
    cases p with
    | leaf => rw [openedEach, outlineEach, outlineEach, hps]
    | nested k n =>
      have hn := ih k n List.mem_cons_self
      generalize ho : n.opened = o at hn
      obtain ⟨oh, ops⟩ := o
      obtain ⟨nh, nps⟩ := n
      rw [outline, outline, Style.mk.injEq] at hn
      rw [openedEach, outlineEach, outlineEach, hps, ho]
      refine congrArg (· :: _) (congrArg _ ?_)
      rw [withHead, outline, outline, head_mk, properties_mk, hn.2, ← hn.1]
      rfl

theorem outline_opened (s : Style) :
    s.opened.outline StyleHead.closed = s.outline StyleHead.closed := by
  induction s using Style.induction with
  | mk h ps ih =>
    rw [opened, outline, outline, outline_openedEach ih]
    rfl

/-- Opening what is nested changes nothing but what is open. -/
theorem outline_openNested (names : List String) (s : Style) :
    (s.openNested names).outline StyleHead.closed = s.outline StyleHead.closed := by
  obtain ⟨h, ps⟩ := s
  rw [openNested, outline_mk, outline_mk, properties_mk, List.map_map]
  refine congrArg _ (List.map_congr_left fun p _ => ?_)
  cases p with
  | leaf => rfl
  | nested k n =>
    obtain ⟨nh, nps⟩ := n
    dsimp only [Function.comp_apply]
    split
    · rw [Property.outlineBy, Property.outlineBy, withHead, outline, outline]
      rfl
    · rfl

@[simp] theorem declared_heirHead (h : StyleHead) (ancestors : List Ancestor) :
    (heirHead h ancestors).declared = h.declared := by
  unfold heirHead
  split <;> rfl

@[simp] theorem name_heirHead (h : StyleHead) (ancestors : List Ancestor) :
    (heirHead h ancestors).name = h.name := by
  unfold heirHead
  split <;> rfl

@[simp] theorem declared_nestedHeirHead (stem : String) (h : StyleHead)
    (ancestors : List Ancestor) : (nestedHeirHead stem h ancestors).declared = h.declared := by
  cases ancestors <;> rfl

@[simp] theorem name_nestedHeirHead (stem : String) (h : StyleHead) (ancestors : List Ancestor) :
    (nestedHeirHead stem h ancestors).name = h.name := by
  cases ancestors <;> rfl

/-- Marking properties changes nothing that is declared. -/
theorem outline_inheritingEach (style : StyleHead) {ps : List Property} (ancestors : List Ancestor)
    (ih : ∀ h qs k, Property.nested k (mk h qs) ∈ ps → ∀ style ancestors,
      outlineEach StyleHead.declared (inheritingEach style qs ancestors) =
        outlineEach StyleHead.declared qs) :
    outlineEach StyleHead.declared (inheritingEach style ps ancestors) =
      outlineEach StyleHead.declared ps := by
  induction ps with
  | nil => rw [inheritingEach]
  | cons p ps ihps =>
    have hps := ihps fun h qs k hn => ih h qs k (List.mem_cons_of_mem p hn)
    cases p with
    | leaf => rw [inheritingEach, outlineEach, outlineEach, hps]
    | nested k n =>
      obtain ⟨nh, nps⟩ := n
      rw [inheritingEach, outlineEach, outlineEach, hps, outline, outline,
        ih nh nps k List.mem_cons_self, declared_heirHead, declared_nestedHeirHead]

/-- Marking keeps the outline, whatever the ancestors are. -/
theorem outline_inheriting (s : Style) (ancestors : List Ancestor) :
    (s.inheriting ancestors).outline StyleHead.declared = s.outline StyleHead.declared := by
  have key : ∀ (s : Style) (style : StyleHead) (ancestors : List Ancestor),
      outlineEach StyleHead.declared (inheritingEach style s.properties ancestors) =
        outlineEach StyleHead.declared s.properties := fun s => by
    induction s using Style.induction with
    | mk h ps ih =>
      exact fun style ancestors => outline_inheritingEach style ancestors
        fun h qs k hn => ih k (mk h qs) hn
  obtain ⟨h, ps⟩ := s
  rw [inheriting, outline, outline, key (mk h ps), head_mk, declared_heirHead]
  rfl

end Style

namespace Suite

variable {s : Suite} {settings : Settings} {id : SheetId} (f : StyleHead → StyleHead)

/-- Resolving the redirects of properties changes values only. -/
theorem outlineEach_resolveEach {style : String} {ps qs : List Property}
    (ih : ∀ k n, Property.nested k n ∈ ps → ∀ m, s.resolveStyle settings id n = .ok m →
      m.outline f = n.outline f)
    (h : s.resolveEach settings id style ps = .ok qs) :
    Style.outlineEach f qs = Style.outlineEach f ps := by
  induction ps generalizing qs with
  | nil =>
    cases h
    rfl
  | cons p ps ihps =>
    have hps := fun rs => @ihps rs fun k n hn => ih k n (List.mem_cons_of_mem p hn)
    cases p with
    | leaf k v =>
      rw [resolveEach] at h
      split at h
      · cases h
      · split at h
        · cases h
        · next rs hrs =>
          cases h
          rw [Style.outlineEach, Style.outlineEach, hps rs hrs]
    | nested k n =>
      rw [resolveEach] at h
      split at h
      · cases h
      · next m hm =>
        split at h
        · cases h
        · next rs hrs =>
          cases h
          rw [Style.outlineEach, Style.outlineEach, hps rs hrs, ih k n List.mem_cons_self m hm]

/-- Redirects change values only. -/
theorem outline_resolveStyle {x y : Style} (h : s.resolveStyle settings id x = .ok y) :
    y.outline f = x.outline f := by
  induction x using Style.induction generalizing y with
  | mk head ps ih =>
    rw [resolveStyle] at h
    split at h
    · next qs hqs =>
      cases h
      rw [Style.outline, Style.outline,
        outlineEach_resolveEach f (fun k n hn m => ih k n hn) hqs]
    · cases h

end Suite

end Appearance
