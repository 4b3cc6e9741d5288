import Appearance.Proofs.RegistryTables
import Appearance.Proofs.Resolution
import Appearance.Registry.Prepared

/-!
# What passes see of a registry

A registry and its view as a suite agree in all that is asked of them, each slot standing for a
place: the stylesheets (`Registry.sheet?_place`), the names (`Registry.place_find?`), the order, the
base and what a stylesheet extends (`Registry.place_order`, `Registry.place_superclass?`), and the
styles by their names (`Registry.index_findStyle?`, `Registry.lookup?_eq`). Each call does to the
view what the call of the same name does to a suite (`Registry.suite_register`,
`Registry.suite_setImported`, `Registry.suite_link`).

So do the passes of preparation, and wherever one of them looks a style up, the tables are those of
the stylesheets as they are then: preparing a registry is preparing the suite that it is seen as
(`Registry.suite_prepared`).

The tables of styles are laid down again at the points where styles have changed their order or
their number. Between two such points they may be behind, but then nothing is looked up by a name:
this is what the four lemmas on passes (`Registry.Follows.withShadows` to
`Registry.Follows.withInheritance`) come to.
-/

namespace Appearance.Registry

variable {r : Registry} {slot : Slot}

/-! ## Places -/

theorem place_of_mem (h : slot ∈ r.slots) : r.place slot = .registered (r.slots.idxOf slot) :=
  if_neg (mem_slots.1 h).2

theorem place_inj {other : Slot} (h : slot ∈ r.slots) (hother : other ∈ r.slots) :
    r.place slot = r.place other ↔ slot = other := by
  rw [place_of_mem h, place_of_mem hother, SheetId.registered.injEq, List.idxOf_inj h]

theorem map_idxOf_slots (r : Registry) :
    r.slots.map r.slots.idxOf = List.range r.slots.length := by
  refine List.ext_getElem (by simp) fun i hi _ => ?_
  rw [List.length_map] at hi
  rw [List.getElem_map, List.getElem_range, (nodup_slots r).idxOf_getElem i hi]

theorem place_getElem {i : Nat} (h : i < r.slots.length) : r.place r.slots[i] = .registered i := by
  rw [place_of_mem (List.getElem_mem h), (nodup_slots r).idxOf_getElem i h]

/-- The places of the registered stylesheets are those of the suite, in the same order. -/
theorem map_place_slots (r : Registry) : r.slots.map r.place = r.suite.ids := by
  refine List.ext_getElem (by simp [Suite.ids, suite]) fun i hi _ => ?_
  rw [List.length_map] at hi
  rw [List.getElem_map, place_getElem hi]
  simp [Suite.ids]

theorem place_mem_ids (h : slot ∈ r.slots) : r.place slot ∈ r.suite.ids := by
  rw [← map_place_slots]
  exact List.mem_map_of_mem h

/-- A slot and its place hold the same stylesheet. -/
theorem sheet?_place (h : slot.index < r.sheets.length) :
    r.suite.sheet? (r.place slot) = some (r.sheet slot) := by
  by_cases himported : r.imported? = some slot
  · rw [place, if_pos himported, Suite.sheet?, suite, himported, Option.map_some]
  · have hslot : slot ∈ r.slots := mem_slots.2 ⟨h, himported⟩
    rw [place_of_mem hslot, Suite.sheet?, suite, List.getElem?_map,
      List.getElem?_eq_getElem (List.idxOf_lt_length_iff.2 hslot), List.getElem_idxOf,
      Option.map_some]

theorem sheet_place (h : slot.index < r.sheets.length) :
    r.suite.sheet (r.place slot) = r.sheet slot := by
  rw [Suite.sheet, sheet?_place h, Option.getD_some]

theorem place_imported? (r : Registry) : r.imported?.map r.place = r.suite.importedId? := by
  rw [Suite.importedId?, suite, Option.map_map]
  exact Option.map_congr fun slot hslot => if_pos hslot

theorem isLinked_suite (r : Registry) : r.suite.isLinked = r.isLinked := by
  rw [Suite.isLinked, suite, Option.isSome_map, isLinked]

/-- A name is searched for among the registered stylesheets only. -/
theorem place_find? (r : Registry) (name : String) :
    (r.find? name).map r.place = r.suite.idOf? name := by
  rw [Suite.idOf?, suite, List.findIdx?_map, find?, List.find?_eq_bind_findIdx?_getElem?,
    Option.map_bind, Option.map_eq_bind]
  refine Option.bind_congr fun i hi => ?_
  obtain ⟨hlt, -⟩ := List.findIdx?_eq_some_iff_getElem.1 hi
  rw [Function.comp_apply, List.getElem?_eq_getElem hlt, Option.map_some, place_getElem hlt,
    Function.comp_apply]

/-! ## Calls -/

/-- Registering adds a stylesheet behind the others. -/
theorem suite_register (h : r.Coherent) (t : Stylesheet) :
    r.suite.register t = (r.register t).2.map fun _ => (r.register t).1.suite := by
  unfold Suite.register register
  rw [← place_find?, Option.isSome_map]
  split
  · rfl
  · have hslots : ∀ slot ∈ r.slots, (⟨r.sheets ++ [t], r.imported?, none⟩ : Registry).sheet slot =
        r.sheet slot := fun slot hslot => sheet_append (mem_slots.1 hslot).1
    refine congrArg Except.ok ?_
    simp only [suite, slots_append h, List.map_append, List.map_congr_left hslots,
      List.map_singleton, sheet_append_self, Option.map_none]
    congr 1
    exact Option.map_congr fun slot himported => (sheet_append (h.imported_lt slot himported)).symm

/-- Importing a stylesheet is seen as importing it into the suite. -/
theorem suite_setImported (h : r.Coherent) (t : Stylesheet) :
    r.suite.setImported t = (r.setImported t).1.suite := by
  obtain ⟨himported, -, hsheet⟩ := setImported_spec h t
  have hregistered : (r.setImported t).1.slots.map (r.setImported t).1.sheet =
      r.slots.map r.sheet := by
    rw [slots_setImported]
    exact List.map_congr_left fun slot hslot => sheet_setImported hslot t
  rw [Suite.setImported, suite, suite, hregistered, himported, link?_setImported, Option.map_some,
    hsheet, Option.map_none]

/-- The bases stand at the places of the slots. -/
theorem baseIndices_suite (r : Registry) : r.suite.baseIndices = r.bases.map r.slots.idxOf := by
  have hlength : r.suite.registered.length = r.slots.length := List.length_map _
  rw [Suite.baseIndices, hlength, ← map_idxOf_slots, List.filter_map, bases]
  refine congrArg _ (List.filter_congr fun slot hslot => ?_)
  rw [Function.comp_apply, ← place_of_mem hslot, sheet_place (mem_slots.1 hslot).1]

/-- A suite checks its stylesheets as the registry enters them, with the same faults. -/
theorem forM_checkSuperclass {base : Slot} (hbase : base ∈ r.slots) (slots : List Slot)
    (table : List (Option Slot)) :
    (slots.map r.sheet).forM (r.suite.checkSuperclass (r.slots.idxOf base)) =
      (r.enterSuperclasses base slots table).map fun _ => () := by
  induction slots generalizing table with
  | nil => rfl
  | cons slot slots ih =>
    change (r.suite.checkSuperclass (r.slots.idxOf base) (r.sheet slot) >>= fun _ =>
      (slots.map r.sheet).forM (r.suite.checkSuperclass (r.slots.idxOf base))) = _
    rw [Suite.checkSuperclass, enterSuperclasses]
    cases (r.sheet slot).superclass with
    | none => exact ih table
    | some superclass =>
      dsimp only
      rw [← place_find?]
      cases hparent : r.find? superclass with
      | none => rfl
      | some parent =>
        have hplace : r.place parent = .registered (r.slots.idxOf base) ↔ parent = base := by
          rw [← place_of_mem hbase, place_inj (find?_eq_some hparent).1 hbase]
        rw [Option.map_some]
        dsimp only
        by_cases heq : parent = base
        · rw [if_pos heq, if_pos (hplace.2 heq)]
          exact ih _
        · rw [if_neg heq, if_neg fun h => heq (hplace.1 h)]
          rfl

/-- Linking lays tables down where a suite can be linked, with the same base. -/
theorem suite_link (r : Registry) : r.suite.linked = r.link.2.map fun _ => r.link.1.suite := by
  rw [Suite.linked, baseIndices_suite, link, tables]
  cases hbases : r.bases with
  | nil => rfl
  | cons base rest =>
    have hmem : ∀ slot ∈ base :: rest, slot ∈ r.slots := fun slot hslot =>
      (mem_bases.1 (hbases ▸ hslot)).1
    cases rest with
    | nil =>
      have hcheck := forM_checkSuperclass (hmem base List.mem_cons_self) r.slots
        (List.replicate r.sheets.length none)
      rw [List.map_singleton]
      dsimp only
      rw [show r.suite.registered = r.slots.map r.sheet from rfl, hcheck]
      cases r.enterSuperclasses base r.slots (List.replicate r.sheets.length none) <;> rfl
    | cons second rest =>
      have hnames : ((base :: second :: rest).map r.slots.idxOf).map
          (fun i => (r.suite.sheet (.registered i)).name) =
            (base :: second :: rest).map fun slot => (r.sheet slot).name := by
        rw [List.map_map]
        refine List.map_congr_left fun slot hslot => ?_
        rw [Function.comp_apply, ← place_of_mem (hmem slot hslot),
          sheet_place (mem_slots.1 (hmem slot hslot)).1]
      exact congrArg (fun names => Except.error (SuiteError.severalBases names)) hnames

/-! ## What is known of a linked registry -/

theorem place_base (h : r.Coherent) : r.base.map r.place = r.suite.baseId := by
  rw [base, linked, Suite.baseId, suite]
  cases hlink : r.link? with
  | none => rfl
  | some link => exact congrArg Except.ok (place_of_mem (h.tabled hlink).base_mem)

/-- The order of a registry is that of the suite, place by place. -/
theorem place_order (h : r.Coherent) : r.order.map (List.map r.place) = r.suite.order := by
  rw [Suite.order, ← place_base h, base, order, linked]
  cases hlink : r.link? with
  | none => rfl
  | some link =>
    have htabled := h.tabled hlink
    have hothers : (r.slots.filter (· != link.base)).map r.place =
        r.suite.ids.filter (· != r.place link.base) := by
      rw [← map_place_slots, List.filter_map]
      refine congrArg _ (List.filter_congr fun slot hslot => ?_)
      rw [Function.comp_apply, Bool.eq_iff_iff, bne_iff_ne, bne_iff_ne, ne_eq, ne_eq,
        place_inj hslot htabled.base_mem]
    change Except.ok (link.order.map r.place) =
      .ok (r.place link.base :: r.suite.ids.filter (· != r.place link.base))
    rw [htabled.order_eq, List.map_cons, hothers]

/-- What a stylesheet extends is read off the table, and the suite says the same. -/
theorem place_superclass? (h : r.Coherent) (hslot : slot.index < r.sheets.length) :
    (r.superclass? slot).map r.place = r.suite.superclass? (r.place slot) := by
  cases hlink : r.link? with
  | none =>
    have hbase : r.suite.base? = none := by rw [suite, hlink, Option.map_none]
    rw [superclass?, hlink, Option.bind_none, Option.map_none]
    cases r.place slot with
    | imported => rfl
    | registered i => rw [Suite.superclass?, hbase]
  | some link =>
    have hbase : r.suite.base? = some (r.slots.idxOf link.base) := by
      rw [suite, hlink, Option.map_some]
    have hmem := (h.tabled hlink).base_mem
    rw [h.superclass? hlink hslot]
    by_cases himported : r.imported? = some slot
    · rw [if_neg fun hand => (mem_slots.1 hand.1).2 himported, place, if_pos himported]
      rfl
    · have hin : slot ∈ r.slots := mem_slots.2 ⟨hslot, himported⟩
      rw [place_of_mem hin, Suite.superclass?, hbase]
      by_cases heq : slot = link.base
      · rw [if_neg fun hand => hand.2 heq, heq]
        exact (if_pos rfl).symm
      · have hindex : r.slots.idxOf slot ≠ r.slots.idxOf link.base := fun hindex =>
          heq ((List.idxOf_inj hin).1 hindex)
        rw [if_pos ⟨hin, heq⟩, Option.map_some, place_of_mem hmem]
        exact (if_neg hindex).symm

/-- A handle is the index at which the suite finds the style. -/
theorem index_findStyle? (h : r.Coherent) (hslot : slot.index < r.sheets.length) (name : String) :
    (r.findStyle? slot name).map StyleHandle.index = r.suite.styleIndex? (r.place slot) name := by
  rw [Suite.styleIndex?, isLinked_suite, isLinked, sheet_place hslot]
  cases hlink : r.link? with
  | none => rw [findStyle?, hlink]; rfl
  | some link =>
    rw [h.findStyle? hlink hslot, Option.map_map, Option.isSome_some, if_pos rfl]
    exact Option.map_id'

/-- What is found under a name is the style or the animator that the suite finds. -/
theorem lookup?_eq (h : r.Coherent) (hslot : slot.index < r.sheets.length) (name : String) :
    r.lookup? slot name = r.suite.find? (r.place slot) name := by
  rw [lookup?, Suite.find?, Suite.style?, ← index_findStyle? h hslot, sheet_place hslot]
  cases hfound : r.findStyle? slot name with
  | none => rfl
  | some handle =>
    cases hlink : r.link? with
    | none =>
      rw [findStyle?, hlink] at hfound
      cases hfound
    | some link =>
      rw [h.findStyle? hlink hslot] at hfound
      obtain ⟨i, hi, rfl⟩ := Option.map_eq_some_iff.1 hfound
      obtain ⟨style, hstyle, -⟩ := Suite.lastIndex?_eq_some hi
      simp only [style?, hstyle, Option.map_some, Option.bind_some]

/-! ## Preparation -/

/-- A stylesheet put into a slot stands at its place. -/
theorem suite_setSheet (h : slot ∈ r.slots) (t : Stylesheet) :
    (r.setSheet slot t).suite = r.suite.setSheet t (r.place slot) := by
  obtain ⟨hlt, himported⟩ := mem_slots.1 h
  have hupdate : (r.setSheet slot t).sheet = Function.update r.sheet slot t := by
    funext other
    by_cases heq : other = slot
    · rw [heq, sheet_setSheet_self hlt, Function.update_self]
    · rw [sheet_setSheet_of_ne heq, Function.update_of_ne heq]
  have hregistered : (r.setSheet slot t).slots.map (r.setSheet slot t).sheet =
      (r.slots.map r.sheet).set (r.slots.idxOf slot) t := by
    rw [slots_setSheet, hupdate, (nodup_slots r).map_update, if_pos h]
  have hframework : r.imported?.map (r.setSheet slot t).sheet = r.imported?.map r.sheet :=
    Option.map_congr fun other hother => sheet_setSheet_of_ne fun heq => himported (heq ▸ hother)
  rw [place_of_mem h]
  exact congr (congrArg₂ Suite.mk hregistered hframework)
    (congrArg (fun slots => r.link?.map fun link => slots.idxOf link.base)
      (slots_setSheet r slot t))

/-- New tables of styles are not seen. -/
@[simp] theorem suite_reindexed (r : Registry) (slot : Slot) :
    (r.reindexed slot).suite = r.suite := by
  have hbase : (r.reindexed slot).link?.map (fun link => r.slots.idxOf link.base) =
      r.link?.map fun link => r.slots.idxOf link.base := by
    rw [reindexed, Option.map_map]
    rfl
  exact congrArg (Suite.mk _ _) hbase

@[simp] theorem place_setSheet (r : Registry) (slot : Slot) (t : Stylesheet) :
    (r.setSheet slot t).place = r.place := by
  funext other
  rw [place, slots_setSheet]
  rfl

@[simp] theorem place_reindexed (r : Registry) (slot : Slot) : (r.reindexed slot).place = r.place :=
  rfl

@[simp] theorem slots_reindexed (r : Registry) (slot : Slot) : (r.reindexed slot).slots = r.slots :=
  rfl

/-- A registry after a pass: coherent, with the same slots at the same places, and seen as the suite
after the pass. -/
structure Follows (r r' : Registry) (s : Suite) : Prop where
  coherent : r'.Coherent
  slots_eq : r'.slots = r.slots
  place_eq : r'.place = r.place
  suite_eq : r'.suite = s

theorem Follows.trans {r' r'' : Registry} {s s' : Suite} (h : Follows r r' s)
    (h' : Follows r' r'' s') : Follows r r'' s' :=
  ⟨h'.coherent, h'.slots_eq.trans h.slots_eq, h'.place_eq.trans h.place_eq, h'.suite_eq⟩

/-- Where a stylesheet keeps its name and superclass, its styles only have to be entered anew. -/
theorem Follows.reindexed (h : r.Coherent) (hslot : slot ∈ r.slots) {t : Stylesheet}
    (hname : t.name = (r.sheet slot).name)
    (hsuperclass : t.superclass = (r.sheet slot).superclass) :
    Follows r ((r.setSheet slot t).reindexed slot) (r.suite.setSheet t (r.place slot)) where
  coherent := h.reindexed_setSheet (mem_slots.1 hslot).1 hname hsuperclass
  slots_eq := by rw [slots_reindexed, slots_setSheet]
  place_eq := by rw [place_reindexed, place_setSheet]
  suite_eq := by rw [suite_reindexed, suite_setSheet hslot]

/-- Adding shadows in a slot is seen as adding them in its place. -/
theorem Follows.withShadows (h : r.Coherent) (hslot : slot ∈ r.slots) :
    Follows r (r.withShadows slot) (r.suite.withShadows (r.place slot)) := by
  obtain ⟨hlt, -⟩ := mem_slots.1 hslot
  unfold Registry.withShadows Suite.withShadows
  rw [← place_superclass? h hlt]
  cases hsuperclass : r.superclass? slot with
  | none => exact ⟨h, rfl, rfl, rfl⟩
  | some base =>
    have hbase : base.index < r.sheets.length := by
      cases hlink : r.link? with
      | none =>
        rw [superclass?, hlink] at hsuperclass
        cases hsuperclass
      | some link =>
        rw [h.superclass? hlink hlt] at hsuperclass
        split at hsuperclass
        · exact Option.some.inj hsuperclass ▸ (mem_slots.1 (h.tabled hlink).base_mem).1
        · cases hsuperclass
    have heq := Stylesheet.shadowing_eq_with (r.sheet slot) (r.sheet base)
    rw [Option.map_some]
    dsimp only
    rw [sheet_place hlt, sheet_place hbase]
    exact .reindexed h hslot (by rw [heq]) (by rw [heq])

theorem Follows.withSorted (h : r.Coherent) (hslot : slot ∈ r.slots) :
    Follows r (r.withSorted slot) (r.suite.withSorted (r.place slot)) := by
  unfold Registry.withSorted Suite.withSorted
  rw [sheet_place (mem_slots.1 hslot).1]
  exact .reindexed h hslot rfl rfl

/-- Resolving redirects keeps the names of the styles in their order, so the tables stay right. -/
theorem Follows.withRedirects (h : r.Coherent) (hslot : slot ∈ r.slots) {settings : Settings}
    {t : Stylesheet} (ht : r.suite.withRedirects settings (r.place slot) = .ok t) :
    Follows r (r.setSheet slot t) (r.suite.setSheet t (r.place slot)) := by
  obtain ⟨hlt, -⟩ := mem_slots.1 hslot
  have hsame := Suite.withRedirects_ok ht
  rw [sheet_place hlt] at hsame
  have hstyles : t.styles.map Style.name = (r.sheet slot).styles.map Style.name := by
    rw [← Suite.map_name_outline, hsame.styles, Suite.map_name_outline]
  exact ⟨h.setSheet hlt (by rw [hsame.eq]) (by rw [hsame.eq]) hstyles, slots_setSheet r slot t,
    place_setSheet r slot t, suite_setSheet hslot t⟩

/-- Marking may drop styles. The table is right again once the stylesheet is sorted. -/
theorem Follows.withInheritance (h : r.Coherent) (hslot : slot ∈ r.slots) {settings : Settings}
    {t : Stylesheet} (ht : r.suite.withInheritance settings (r.place slot) = .ok t) :
    Follows r ((r.setSheet slot t).withSorted slot)
      ((r.suite.setSheet t (r.place slot)).withSorted (r.place slot)) := by
  obtain ⟨hlt, -⟩ := mem_slots.1 hslot
  obtain ⟨order, done, animator, -, -, -, heq⟩ := Suite.withInheritance_eq_ok ht
  rw [sheet_place hlt] at heq
  have hsorted :
      (r.setSheet slot t).withSorted slot = (r.setSheet slot t.sorted).reindexed slot := by
    rw [Registry.withSorted, sheet_setSheet_self hlt, setSheet_setSheet]
  rw [hsorted, Suite.withSorted, Suite.sheet_setSheet_self _ (place_mem_ids hslot),
    Suite.setSheet_setSheet]
  exact .reindexed h hslot (by rw [heq]; rfl) (by rw [heq]; rfl)

/-- The results of passes: the registry follows the suite, also to where it stops at a failure. -/
def FollowsTo (r : Registry) (result : Registry × Except SuiteError Unit)
    (expected : Suite × Except SuiteError Unit) : Prop :=
  Follows r result.1 expected.1 ∧ result.2 = expected.2

theorem Follows.followsTo {r' : Registry} {s : Suite} (h : Follows r r' s)
    {result : Registry × Except SuiteError Unit} {expected : Suite × Except SuiteError Unit}
    (h' : FollowsTo r' result expected) : FollowsTo r result expected :=
  ⟨h.trans h'.1, h'.2⟩

/-- A step that may fail is followed if what comes after it is. -/
theorem followsTo_continueWith (h : r.Coherent) {sheet : Except SuiteError Stylesheet}
    {next : Registry → Registry × Except SuiteError Unit}
    {next' : Suite → Suite × Except SuiteError Unit}
    (hnext : ∀ t, sheet = .ok t →
      FollowsTo r (next (r.setSheet slot t)) (next' (r.suite.setSheet t (r.place slot)))) :
    FollowsTo r (r.continueWith slot sheet next)
      (r.suite.continueWith (r.place slot) sheet next') := by
  cases sheet with
  | error e => exact ⟨⟨h, rfl, rfl, rfl⟩, rfl⟩
  | ok t => exact hnext t rfl

/-- The passes behind the first sort, with what is done after them. -/
theorem followsTo_resolved (h : r.Coherent) (hslot : slot ∈ r.slots) {settings : Settings}
    {next : Registry → Registry × Except SuiteError Unit}
    {next' : Suite → Suite × Except SuiteError Unit}
    (hnext : ∀ r' s, Follows r r' s → FollowsTo r' (next r') (next' s)) :
    FollowsTo r
      (r.continueWith slot (r.suite.withRedirects settings (r.place slot)) fun r =>
        r.continueWith slot (r.suite.withInheritance settings (r.place slot)) fun r =>
          next (r.withSorted slot))
      (r.suite.continueWith (r.place slot) (r.suite.withRedirects settings (r.place slot)) fun s =>
        s.continueWith (r.place slot) (s.withInheritance settings (r.place slot)) fun s =>
          next' (s.withSorted (r.place slot))) := by
  refine followsTo_continueWith h fun t ht => ?_
  have hredirected := Follows.withRedirects h hslot ht
  rw [← hredirected.suite_eq, ← hredirected.place_eq]
  refine hredirected.followsTo (followsTo_continueWith hredirected.coherent fun u hu => ?_)
  have hmarked := Follows.withInheritance hredirected.coherent (hredirected.slots_eq ▸ hslot) hu
  exact hmarked.followsTo (hnext _ _ (hredirected.trans hmarked))

/-- Preparing slots one after the other is seen as preparing their places. -/
theorem followsTo_prepareEach {settings : Settings} {slots : List Slot} (h : r.Coherent)
    (hslots : ∀ slot ∈ slots, slot ∈ r.slots) :
    FollowsTo r (prepareEach settings slots r)
      (Suite.prepareEach settings (slots.map r.place) r.suite) := by
  induction slots generalizing r with
  | nil => exact ⟨⟨h, rfl, rfl, rfl⟩, rfl⟩
  | cons slot slots ih =>
    obtain ⟨hslot, hrest⟩ := List.forall_mem_cons.1 hslots
    have hshadows := Follows.withShadows h hslot
    have hsorted := Follows.withSorted hshadows.coherent (hshadows.slots_eq ▸ hslot)
    rw [hshadows.suite_eq, hshadows.place_eq] at hsorted
    have hfirst := hshadows.trans hsorted
    rw [List.map_cons, prepareEach, Suite.prepareEach, ← hfirst.suite_eq, ← hfirst.place_eq]
    refine hfirst.followsTo (followsTo_resolved hfirst.coherent (hfirst.slots_eq ▸ hslot) ?_)
    intro r' s hr'
    rw [← hr'.suite_eq, ← hr'.place_eq]
    refine ih hr'.coherent fun other hother => ?_
    rw [hr'.slots_eq, hfirst.slots_eq]
    exact hrest other hother

/-- Preparing a registry is preparing the suite that it is seen as, and a look-up finds the styles
of a prepared registry as it finds those of one that was just linked. -/
theorem suite_prepared (h : r.Coherent) (settings : Settings) :
    (r.prepared settings).1.Coherent ∧
      ((r.prepared settings).1.suite, (r.prepared settings).2) = r.suite.prepared settings := by
  have horder := place_order h
  rw [prepared, Suite.prepared, ← horder]
  cases hslots : r.order with
  | error e => exact ⟨h, rfl⟩
  | ok slots =>
    have hmem : ∀ slot ∈ slots, slot ∈ r.slots := fun slot => (h.mem_order hslots).1
    obtain ⟨hfollows, hanswer⟩ : FollowsTo r (prepareEach settings slots r)
      (Suite.prepareEach settings (slots.map r.place) r.suite) := followsTo_prepareEach h hmem
    exact ⟨hfollows.coherent, Prod.ext hfollows.suite_eq hanswer⟩

end Appearance.Registry
