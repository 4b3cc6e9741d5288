import Appearance.Proofs.Coverage
import Appearance.Proofs.SettledMarks
import Appearance.Proofs.SettledRedirects

/-!
# Preparation comes to rest

A prepared suite is prepared to itself (`Prepares.prepared_again`). Each pass leaves the stylesheets
of such a suite as they are: they lack no shadow (`Prepares.completed_again`), all redirects are
resolved, and all styles are open and marked as they are to be. So nothing is added up when a suite
is prepared several times.

The passes are taken one by one, each on a stylesheet of the finished suite: the shadows are there,
since a stylesheet that was prepared covers its base; sorting a sorted stylesheet changes nothing;
redirects have their targets; and marks agree with what marking would write, which is what the
marked outlines say. The names have to be distinct, for otherwise a pass that keeps the last style
of a name has already dropped one the first time.
-/

namespace Appearance

theorem Stylesheet.sorted_sorted (t : Stylesheet) : t.sorted.sorted = t.sorted :=
  sorted_eq_self t.names_sorted_pairwise fun _ hx => inOrder_of_mem_sorted hx

namespace Suite

variable {settings : Settings} {s l : Suite} {id : SheetId}
  (h : Prepares settings s l) (hd : ∀ t ∈ s.registered, (t.styles.map Style.name).Nodup)

include h

theorem Prepares.sorted_again (hid : id ∈ l.ids) :
    ((l.prepared settings).1.sheet id).sorted = (l.prepared settings).1.sheet id := by
  obtain ⟨t, ht⟩ := h.exists_stage hid
  obtain ⟨-, marked, -, -, hsheet⟩ := resolved_ok ht.resolved_eq
  rw [hsheet, Stylesheet.sorted_sorted]

include hd

/-- All styles of a prepared suite are marked. -/
theorem Prepares.withInheritance_again (hid : id ∈ l.ids) :
    (l.prepared settings).1.withInheritance settings id =
      .ok ((l.prepared settings).1.sheet id) := by
  obtain ⟨t, ht⟩ := h.exists_stage hid
  have hids : t.ids = l.ids := by rw [ids, ht.length_eq, ids]
  have hid' : id ∈ t.ids := hids ▸ hid
  obtain ⟨redirected, -, -, hdistinct, hm⟩ :=
    resolved_eq_marked hid' ht.resolved_eq (h.styleNames_completed hd hid ht)
  have hu : (t.setSheet redirected id).sheet id = redirected := sheet_setSheet_self _ hid'
  have hsuper : ∀ b, (t.setSheet redirected id).superclass? id = some b →
      l.superclass? id = some b := fun b hb => by
    rwa [superclass?_setSheet, ht.superclass?_eq] at hb
  refine Suite.withInheritance_again ⟨?_, ?_, ?_, ?_, fun b hb => ?_⟩ (by rwa [ids_setSheet])
    (fun b hb => ?_) (by rwa [hu]) hm
  · rw [base?_setSheet, ht.base?_eq, h.kept.base?_eq]
  · rw [imported_setSheet _ hid', ht.imported_eq, h.kept.imported_eq]
  · rw [ids_setSheet, hids, h.ids_eq]
  · obtain ⟨-, -, -, -, -, heq⟩ := withInheritance_parts hm (by rwa [hu])
    rw [heq]
  · rw [sheet_setSheet_of_ne _ (ne_of_superclass? hb).symm,
      ht.base_eq b (by rwa [superclass?_setSheet] at hb)]
  · rw [ids_setSheet, hids]
    exact mem_ids_of_superclass? h.linked (hsuper b hb)

variable (hn : ∀ t ∈ s.registered, ∀ x ∈ t.allStyles, x.NestedDistinct)

include hn

/-- The stylesheets of a prepared suite have all that the base declares. -/
theorem Prepares.covers {b : SheetId} (hb : l.superclass? id = some b) (hid : id ∈ l.ids) :
    ((l.prepared settings).1.sheet id).Covers ((l.prepared settings).1.sheet b) := by
  have hbid := mem_ids_of_superclass? h.linked hb
  have hmem : l.sheet id ∈ s.registered := linked_registered h.linked ▸ sheet_mem hid
  obtain ⟨t, u, done, hcompleted, hu⟩ := h.exists_outcome hd hid
  have hshadowed : l.shadowedIn (l.prepared settings).1 id =
      (l.sheet id).shadowing ((l.prepared settings).1.sheet b) := by rw [shadowedIn, hb]
  have hcovers : (l.shadowedIn (l.prepared settings).1 id).Covers
      ((l.prepared settings).1.sheet b) := by
    rw [hshadowed]
    exact Stylesheet.covers_shadowing (hd _ hmem) (hn _ hmem) (h.styleNames_nodup hd hbid)
      (h.nestedDistinct hd hn hbid)
  refine hcovers.of_outlines ?_ ?_
  · rw [hu.marked.styles_outline, hu.redirected.styles, hcompleted]
  · rw [hu.marked.animator_outline, hu.redirected.animator, hcompleted]

/-- The stylesheets of a prepared suite have all their shadows and are sorted. -/
theorem Prepares.completed_again (hid : id ∈ l.ids) :
    (l.prepared settings).1.completed id = (l.prepared settings).1.sheet id := by
  rw [completed, superclass?_congr h.kept.base?_eq]
  cases hb : l.superclass? id with
  | none => exact h.sorted_again hid
  | some b =>
    have hbid := mem_ids_of_superclass? h.linked hb
    dsimp only
    rw [(h.covers hd hn hb hid).shadowing_eq_self (h.styleNames_nodup hd hid)
      (h.nestedDistinct hd hn hid) (h.styleNames_nodup hd hbid) (h.nestedDistinct hd hn hbid),
      h.sorted_again hid]

/-- A stylesheet of a prepared suite is resolved to itself. -/
theorem Prepares.resolved_again (hid : id ∈ l.ids) :
    (l.prepared settings).1.resolved settings id = .ok ((l.prepared settings).1.sheet id) := by
  have hself := setSheet_sheet (s := (l.prepared settings).1) (h.ids_eq ▸ hid)
  unfold resolved
  rw [h.completed_again hd hn hid, hself, h.withRedirects_again hd hid]
  dsimp only
  rw [hself, h.withInheritance_again hd hid]
  dsimp only
  rw [h.sorted_again hid]

/-- Preparing any of its stylesheets again leaves a prepared suite. -/
theorem Prepares.prepareEach_again {ids : List SheetId} (hids : ∀ id ∈ ids, id ∈ l.ids) :
    prepareEach settings ids (l.prepared settings).1 = ((l.prepared settings).1, .ok ()) := by
  induction ids with
  | nil => rfl
  | cons id ids ih =>
    have hid := hids id List.mem_cons_self
    have hid' : id ∈ (l.prepared settings).1.ids := h.ids_eq ▸ hid
    rw [prepareEach_of_ok hid' (h.resolved_again hd hn hid), setSheet_sheet hid']
    exact ih fun id' hid' => hids id' (List.mem_cons_of_mem id hid')

/-- A prepared suite can be prepared again, and that changes nothing. The names of the styles of a
stylesheet have to be distinct, and so have the names of those nested in a style. -/
theorem Prepares.prepared_again :
    (l.prepared settings).1.prepared settings = ((l.prepared settings).1, .ok ()) := by
  obtain ⟨b, hb, hl, -⟩ := linked_ok h.linked
  have hlb : l.base? = some b := by rw [hl]
  have hids : l.ids = s.ids := by rw [hl]; rfl
  rw [prepared_eq (h.kept.base?_eq.trans hlb), h.ids_eq]
  refine h.prepareEach_again hd hn fun id hid => ?_
  rcases List.mem_cons.1 hid with rfl | hid
  · exact hids ▸ mem_ids.2 ⟨b, hb, rfl⟩
  · exact (List.mem_filter.1 hid).1

omit h hd hn

/-- The suite is prepared to itself. -/
theorem prepared_again_layeredTheme :
    (∀ t ∈ layeredTheme.registered, (t.styles.map Style.name).Nodup) ∧
      (∀ t ∈ layeredTheme.registered, ∀ x ∈ t.allStyles, x.NestedDistinct) ∧
      ({ layeredTheme with base? := some 0 }.prepared .standard).1.prepared .standard =
        (({ layeredTheme with base? := some 0 }.prepared .standard).1, .ok ()) :=
  ⟨by decide, by decide, Prepares.prepared_again prepares_layeredTheme (by decide) (by decide)⟩

end Suite

end Appearance
