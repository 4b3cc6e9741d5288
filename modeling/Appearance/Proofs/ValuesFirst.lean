import Appearance.Proofs.Classes
import Appearance.Proofs.Names

/-!
# Values come first

An ancestor is asked for the first property of a key. A shadow may have the key of a value, but it
stands behind it (`Style.LeavesFirst`), so a value is found if there is one
(`Prepares.findsLeaves`).

The point is that two properties of one key can stand in a style after shadowing, a value that was
declared and a nested style that was added, while the search for a key takes the first. Shadows are
added behind (`findsLeaves_shadowing`), sorting by key is stable and keeps them there
(`LeavesFirst.sorted`), and whether values are found depends on the outline of a style alone, so
the later passes change nothing about it. Marking asks an ancestor for its value under a key;
`Ancestor.hasValue_iff` lets proofs about it speak of all properties of the key instead of the
first.
-/

namespace Appearance

namespace Style

/-- A search for the key of a value finds a value. -/
def FindsLeaves (s : Style) : Prop :=
  ∀ k v, Property.leaf k v ∈ s.properties → ∃ k' v', s.property? k.key = some (.leaf k' v')

/-- At every depth a search for the key of a value finds a value. -/
def LeavesFirst (s : Style) : Prop := s.All FindsLeaves

theorem Distinct.leavesFirst {s : Style} (h : s.Distinct) : s.LeavesFirst :=
  All.imp h fun _ hu k v hk => ⟨k, v, find?_eq_some_of_nodup hu.1 hk⟩

theorem property?_mapStyle (h : StyleHead) (f : Style → Style) (ps : List Property) (k : String) :
    (mk h (ps.map (Property.mapStyle f))).property? k =
      ((mk h ps).property? k).map (Property.mapStyle f) := by
  rw [property?, property?, properties_mk, properties_mk, List.find?_map]
  refine congrArg (Option.map _) (List.find?_congr fun p _ => ?_)
  simp only [Function.comp_apply, Property.key_mapStyle]

theorem leaf_mem_mapStyle {f : Style → Style} {ps : List Property} {k : PropertyHead} {v : Value} :
    Property.leaf k v ∈ ps.map (Property.mapStyle f) ↔ Property.leaf k v ∈ ps := by
  rw [List.mem_map]
  constructor
  · rintro ⟨p, hp, hpk⟩
    cases p with
    | leaf =>
      cases hpk
      exact hp
    | nested => cases hpk
  · exact fun h => ⟨_, h, rfl⟩

/-- Shadowing hides no value, as shadows stand behind. -/
theorem findsLeaves_shadowing {u b : Style} (hu : (u.nestedStyles.map name).Nodup)
    (hb : (b.nestedStyles.map name).Nodup) (h : u.FindsLeaves) : (u.shadowing b).FindsLeaves := by
  rw [shadowing_eq hu hb]
  intro k v hk
  rw [properties_mk, List.mem_append, leaf_mem_mapStyle] at hk
  rcases hk with hk | hk
  · obtain ⟨k', v', hfound⟩ := h k v hk
    refine ⟨k', v', ?_⟩
    have hmapped := property?_mapStyle u.head (shadowed b.nestedStyles) u.properties k.key
    rw [property?, properties_mk, List.find?_append]
    rw [property?, properties_mk] at hmapped
    rw [hmapped, show (mk u.head u.properties).property? k.key = u.property? k.key from rfl, hfound]
    rfl
  · obtain ⟨c, -, hc⟩ := List.mem_map.1 hk
    cases hc

theorem leavesFirst_shadow (s : Style) : s.shadow.LeavesFirst := by
  refine All.shadow (fun u _ k v hk => ?_) (All.of_forall (fun _ => trivial) s)
  obtain ⟨h, ps⟩ := u
  rw [shadow, shadowEach_eq, properties_mk] at hk
  obtain ⟨c, -, hc⟩ := List.mem_map.1 hk
  cases hc

theorem leavesFirst_withHead {s : Style} {h : StyleHead} :
    (s.withHead h).LeavesFirst ↔ s.LeavesFirst := by
  rw [LeavesFirst, LeavesFirst, all_iff, all_iff]
  rfl

theorem LeavesFirst.sorted {s : Style} (h : s.LeavesFirst) : s.sorted.LeavesFirst := by
  refine All.sorted (fun u hu k v hk => ?_) h
  rw [properties_sorted, (List.mergeSort_perm _ _).mem_iff, leaf_mem_mapStyle] at hk
  obtain ⟨k', v', hfound⟩ := hu k v hk
  exact ⟨k', v', by rw [property?_sorted, hfound]; rfl⟩

theorem property?_outline (f : StyleHead → StyleHead) (s : Style) (k : String) :
    (s.outline f).property? k = (s.property? k).map (Property.outlineBy (outline f)) := by
  rw [property?, property?, properties_outline, List.find?_map]
  refine congrArg (Option.map _) (List.find?_congr fun p _ => ?_)
  simp only [Function.comp_apply, Property.key_outlineBy]

/-- Whether values are found depends on the outline alone. -/
theorem findsLeaves_outline (f : StyleHead → StyleHead) (s : Style) :
    (s.outline f).FindsLeaves ↔ s.FindsLeaves := by
  constructor
  · intro h k v hk
    have hmem := List.mem_map_of_mem (f := Property.outlineBy (outline f)) hk
    rw [← properties_outline] at hmem
    obtain ⟨k', v', hfound⟩ := h _ _ hmem
    rw [property?_outline] at hfound
    obtain ⟨p, hp, hpk⟩ := Option.map_eq_some_iff.1 hfound
    cases p with
    | leaf k'' v'' => exact ⟨k'', v'', hp⟩
    | nested => cases hpk
  · intro h k v hk
    rw [properties_outline] at hk
    obtain ⟨p, hp, hpk⟩ := List.mem_map.1 hk
    cases p with
    | leaf k'' v'' =>
      cases hpk
      obtain ⟨k', v', hfound⟩ := h _ _ hp
      exact ⟨_, _, by rw [property?_outline, hfound]; rfl⟩
    | nested => cases hpk

end Style

/-- The class has a value under a key. -/
def Ancestor.HasLeaf (key : String) (a : Ancestor) : Prop :=
  ∃ k v, Property.leaf k v ∈ a.style.properties ∧ k.key = key

/-- A class of which marking sees a value has one. -/
theorem Ancestor.hasLeaf_of_hasValue {key : String} {a : Ancestor} (h : a.hasValue key = true) :
    a.HasLeaf key := by
  unfold hasValue at h
  split at h
  · next k v hfound =>
    have hkey : (Property.leaf k v).key == key := List.find?_some (a := Property.leaf k v) hfound
    exact ⟨k, v, List.mem_of_find?_eq_some hfound, eq_of_beq hkey⟩
  · cases h

/-- If values are found, an ancestor has a value for a key if there is one at all. -/
theorem Ancestor.hasValue_iff {key : String} {a : Ancestor} (h : a.style.FindsLeaves) :
    a.hasValue key = true ↔ a.HasLeaf key := by
  refine ⟨hasLeaf_of_hasValue, ?_⟩
  rintro ⟨k, v, hk, rfl⟩
  obtain ⟨k', v', hfound⟩ := h k v hk
  rw [hasValue, hfound]

namespace Suite

variable {s l r : Suite} {settings : Settings} {id : SheetId}

/-- In a prepared stylesheet values come first. -/
theorem Prepares.leavesFirst (h : Prepares settings s l) (hw : s.WellNamed) (hid : id ∈ l.ids) :
    ∀ y ∈ ((l.prepared settings).1.sheet id).allStyles, y.LeavesFirst := by
  have hshadowed : ∀ x ∈ (l.shadowedIn (l.prepared settings).1 id).allStyles, x.LeavesFirst :=
    h.all_shadowedIn hw.styleNames
      (fun t ht => (hw.distinct t ht).nestedDistinct)
      (fun _ hu => hu) (fun _ _ hu hb => Style.findsLeaves_shadowing hu hb)
      (fun c _ _ _ _ _ => Style.leavesFirst_withHead.2 (Style.leavesFirst_shadow c))
      (fun t ht x hx => ((hw.distinct t ht).styles x hx).leavesFirst) hid fun _ _ _ _ hx => hx
  intro y hy
  obtain ⟨z, hz, hzy⟩ := h.exists_shadowed hw.styleNames hid hy
  exact (Style.all_congr_outline StyleHead.declared (Style.findsLeaves_outline _) hzy).1
    (hshadowed z hz).sorted

theorem Prepares.findsLeaves (h : Prepares settings s l) (hw : s.WellNamed) {c : Ancestor}
    (hc : c ∈ (l.prepared settings).1.classes) : c.style.FindsLeaves := by
  obtain ⟨id, hid, hc⟩ := mem_classes.1 hc
  obtain ⟨y, hy, hc⟩ := Stylesheet.mem_classes.1 hc
  have hfirst := h.leavesFirst hw (h.ids_eq ▸ hid) y hy
  exact (Style.All.of_mem_classesAt hfirst hc).self

end Suite

end Appearance
