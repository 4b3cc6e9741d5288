import Appearance.Proofs.Lookup
import Appearance.Suite.Prepared

/-!
# Resolution, one stylesheet at a time

`Suite.prepared` resolves the stylesheets of a suite one after the other. What it does to one of
them is `Suite.resolved`, and a run is a sequence of those (`prepareEach_of_ok`). After a run that
succeeds, every stylesheet was resolved in a suite that had it as it was given and the base as it
is in the end: that is a `Suite.Stage`, and `exists_stage` finds it.

The suite changes while a run goes on, so a statement about one stylesheet has to say in which
suite. `Kept` lists what no step changes: the base as soon as it is resolved, the imported
stylesheet, the names and the number of places. A `Stage` holds the suite just before a stylesheet
is resolved together with `Kept` to both ends of the run, and everything later argues at a stage
and is carried to the end by `Kept`.
-/

namespace Appearance.Suite

/-- The stylesheet at a place with its shadows, sorted. -/
def completed (s : Suite) (id : SheetId) : Stylesheet :=
  match s.superclass? id with
  | some base => ((s.sheet id).shadowing (s.sheet base)).sorted
  | none => (s.sheet id).sorted

/-- The stylesheet at a place, resolved. -/
def resolved (s : Suite) (settings : Settings) (id : SheetId) : Except SuiteError Stylesheet :=
  match (s.setSheet (s.completed id) id).withRedirects settings id with
  | .error e => .error e
  | .ok redirected =>
    match (s.setSheet redirected id).withInheritance settings id with
    | .error e => .error e
    | .ok marked => .ok marked.sorted

/-- A stylesheet that is resolved went through all passes, one after the other. -/
theorem resolved_ok {s : Suite} {settings : Settings} {id : SheetId} {t : Stylesheet}
    (h : s.resolved settings id = .ok t) :
    ∃ redirected marked,
      (s.setSheet (s.completed id) id).withRedirects settings id = .ok redirected ∧
        (s.setSheet redirected id).withInheritance settings id = .ok marked ∧
          t = marked.sorted := by
  unfold resolved at h
  split at h
  · cases h
  · next redirected hr =>
    split at h
    · cases h
    · next marked hm =>
      cases h
      exact ⟨redirected, marked, hr, hm, rfl⟩

/-! ## A run -/

theorem withSorted_withShadows {s : Suite} {id : SheetId} (h : id ∈ s.ids) :
    (s.withShadows id).withSorted id = s.setSheet (s.completed id) id := by
  unfold withShadows completed withSorted
  cases s.superclass? id with
  | none => rfl
  | some base => simp [sheet_setSheet_self _ h]

theorem prepareEach_of_ok {s : Suite} {settings : Settings} {id : SheetId} {ids : List SheetId}
    {t : Stylesheet} (hid : id ∈ s.ids) (h : s.resolved settings id = .ok t) :
    prepareEach settings (id :: ids) s = prepareEach settings ids (s.setSheet t id) := by
  obtain ⟨redirected, marked, hr, hm, rfl⟩ := resolved_ok h
  simp only [prepareEach, withSorted_withShadows hid, continueWith, hr, setSheet_setSheet, hm]
  rw [withSorted, sheet_setSheet_self _ hid, setSheet_setSheet]

/-- A stylesheet that cannot be resolved ends the run. -/
theorem prepareEach_of_error {s : Suite} {settings : Settings} {id : SheetId} {ids : List SheetId}
    {e : SuiteError} (hid : id ∈ s.ids) (h : s.resolved settings id = .error e) :
    (prepareEach settings (id :: ids) s).2 = .error e := by
  unfold resolved at h
  simp only [prepareEach, withSorted_withShadows hid, continueWith]
  split at h
  · next hr =>
    cases h
    rw [hr]
  · next redirected hr =>
    simp only [hr, setSheet_setSheet]
    split at h
    · next hm =>
      cases h
      rw [hm]
    · cases h

/-- The first stylesheet of a run that succeeds is resolved. -/
theorem resolved_of_prepareEach {s : Suite} {settings : Settings} {id : SheetId}
    {ids : List SheetId} (hid : id ∈ s.ids)
    (h : (prepareEach settings (id :: ids) s).2 = .ok ()) :
    ∃ t, s.resolved settings id = .ok t := by
  cases hr : s.resolved settings id with
  | ok t => exact ⟨t, rfl⟩
  | error e =>
    rw [prepareEach_of_error hid hr] at h
    cases h

/-- What a run keeps: the base and the imported stylesheet, and all places but its own. -/
structure Kept (s r : Suite) (ids : List SheetId) : Prop where
  base?_eq : r.base? = s.base?
  imported_eq : r.imported = s.imported
  length_eq : r.registered.length = s.registered.length
  sheet_eq : ∀ id, id ∉ ids → r.sheet id = s.sheet id

theorem Kept.ids_eq {s r : Suite} {ids : List SheetId} (h : Kept s r ids) : r.ids = s.ids := by
  rw [Suite.ids, Suite.ids, h.length_eq]

/-- What two parts of a run keep is kept by both together. -/
theorem Kept.trans {s r t : Suite} {ids ids' : List SheetId} (h : Kept s r ids)
    (h' : Kept r t ids') : Kept s t (ids ++ ids') where
  base?_eq := h'.base?_eq.trans h.base?_eq
  imported_eq := h'.imported_eq.trans h.imported_eq
  length_eq := h'.length_eq.trans h.length_eq
  sheet_eq id hid := by
    rw [List.mem_append, not_or] at hid
    rw [h'.sheet_eq id hid.2, h.sheet_eq id hid.1]

theorem kept_setSheet {s : Suite} {id : SheetId} (h : id ∈ s.ids) (t : Stylesheet) :
    Kept s (s.setSheet t id) [id] where
  base?_eq := base?_setSheet s t id
  imported_eq := imported_setSheet t h
  length_eq := length_setSheet s t id
  sheet_eq _ hid := sheet_setSheet_of_ne t (by simpa using hid)

/-- A run keeps the stylesheets that it does not resolve. -/
theorem kept_prepareEach {settings : Settings} {ids : List SheetId} {s : Suite}
    (hids : ∀ id ∈ ids, id ∈ s.ids) (h : (prepareEach settings ids s).2 = .ok ()) :
    Kept s (prepareEach settings ids s).1 ids := by
  induction ids generalizing s with
  | nil => exact ⟨rfl, rfl, rfl, fun _ _ => rfl⟩
  | cons id ids ih =>
    have hid := hids id List.mem_cons_self
    obtain ⟨t, ht⟩ := resolved_of_prepareEach hid h
    rw [prepareEach_of_ok hid ht] at h ⊢
    refine (kept_setSheet hid t).trans (ih (fun id' hid' => ?_) h)
    rw [ids_setSheet]
    exact hids id' (List.mem_cons_of_mem _ hid')

/-! ## Stages -/

/-- The suite in which the stylesheet at a place was resolved, on the way from `s` to `r`. -/
structure Stage (settings : Settings) (s r t : Suite) (id : SheetId) : Prop where
  base?_eq : t.base? = s.base?
  imported_eq : t.imported = s.imported
  length_eq : t.registered.length = s.registered.length
  sheet_eq : t.sheet id = s.sheet id
  base_eq : ∀ b, t.superclass? id = some b → t.sheet b = r.sheet b
  resolved_eq : t.resolved settings id = .ok (r.sheet id)

/-- Every stylesheet of a run has its stage, if the base is not resolved after it. -/
theorem exists_stage_of_prepareEach {settings : Settings} {ids : List SheetId} {s : Suite}
    (hids : ∀ id ∈ ids, id ∈ s.ids) (hnodup : ids.Nodup)
    (hbase : ∀ b, b ∈ ids.tail → ∀ id, s.superclass? id ≠ some b)
    (h : (prepareEach settings ids s).2 = .ok ()) {id : SheetId} (hid : id ∈ ids) :
    ∃ t, Stage settings s (prepareEach settings ids s).1 t id := by
  induction ids generalizing s with
  | nil => cases hid
  | cons first ids ih =>
    have hfirst := hids first List.mem_cons_self
    obtain ⟨t, ht⟩ := resolved_of_prepareEach hfirst h
    rw [List.nodup_cons] at hnodup
    rw [prepareEach_of_ok hfirst ht] at h ⊢
    have hids' : ∀ id ∈ ids, id ∈ (s.setSheet t first).ids := fun id' hid' => by
      rw [ids_setSheet]
      exact hids id' (List.mem_cons_of_mem _ hid')
    have hkept := kept_prepareEach hids' h
    have hsheet := hkept.sheet_eq first hnodup.1
    rw [sheet_setSheet_self t hfirst] at hsheet
    rcases List.mem_cons.1 hid with rfl | hid
    · refine ⟨s, rfl, rfl, rfl, rfl, fun b hb => ?_, by rw [hsheet, ht]⟩
      have hne : b ≠ id := (ne_of_superclass? hb).symm
      have hnot : b ∉ ids := fun hmem => hbase b hmem id hb
      rw [hkept.sheet_eq b hnot, sheet_setSheet_of_ne t hne]
    · have hne : id ≠ first := fun heq => hnodup.1 (heq ▸ hid)
      obtain ⟨u, hu⟩ := ih hids' hnodup.2
        (fun b hb id' => by
          rw [superclass?_setSheet]
          exact hbase b (List.mem_of_mem_tail hb) id') h hid
      refine ⟨u, ?_, ?_, ?_, ?_, hu.base_eq, hu.resolved_eq⟩
      · rw [hu.base?_eq, base?_setSheet]
      · rw [hu.imported_eq, imported_setSheet t hfirst]
      · rw [hu.length_eq, length_setSheet]
      · rw [hu.sheet_eq, sheet_setSheet_of_ne t hne]

/-- The places of a linked suite in the order of resolution. -/
theorem order_eq {s : Suite} {b : Nat} (hb : s.base? = some b) :
    s.order = .ok (.registered b :: s.ids.filter (· != .registered b)) := by
  simp [order, baseId, hb]

theorem prepared_eq {s : Suite} {b : Nat} (hb : s.base? = some b) (settings : Settings) :
    s.prepared settings =
      prepareEach settings (.registered b :: s.ids.filter (· != .registered b)) s := by
  rw [prepared, order_eq hb]

theorem nodup_ids (s : Suite) : s.ids.Nodup :=
  List.Nodup.map (fun _ _ h => SheetId.registered.inj h) List.nodup_range

theorem nodup_order (s : Suite) (id : SheetId) : (id :: s.ids.filter (· != id)).Nodup :=
  List.nodup_cons.2 ⟨by simp, s.nodup_ids.filter _⟩

/-- A suite that links and is prepared. -/
structure Prepares (settings : Settings) (s l : Suite) : Prop where
  linked : s.linked = .ok l
  prepared : (l.prepared settings).2 = .ok ()

variable {settings : Settings} {s l : Suite}

/-- Preparation keeps the base and the imported stylesheet. -/
theorem Prepares.kept (h : Prepares settings s l) : Kept l (l.prepared settings).1 l.ids := by
  obtain ⟨b, hb, rfl, -⟩ := linked_ok h.linked
  have hp := h.prepared
  rw [prepared_eq rfl] at hp ⊢
  have hids : ∀ id ∈ SheetId.registered b :: ({ s with base? := some b } : Suite).ids.filter
      (· != .registered b), id ∈ ({ s with base? := some b } : Suite).ids := by
    intro id hid
    rcases List.mem_cons.1 hid with rfl | hid
    · exact mem_ids.2 ⟨b, hb, rfl⟩
    · exact (List.mem_filter.1 hid).1
  have hkept := kept_prepareEach hids hp
  exact ⟨hkept.base?_eq, hkept.imported_eq, hkept.length_eq,
    fun id hid => hkept.sheet_eq id fun hmem => hid (hids id hmem)⟩

theorem Prepares.ids_eq (h : Prepares settings s l) : (l.prepared settings).1.ids = l.ids :=
  h.kept.ids_eq

theorem Prepares.imported_eq (h : Prepares settings s l) : l.imported = s.imported := by
  obtain ⟨b, -, rfl, -⟩ := linked_ok h.linked
  rfl

/-- Every registered stylesheet of a prepared suite was resolved at a stage of its own. -/
theorem Prepares.exists_stage (h : Prepares settings s l) {id : SheetId} (hid : id ∈ l.ids) :
    ∃ t, Stage settings l (l.prepared settings).1 t id := by
  obtain ⟨b, hb, rfl, -⟩ := linked_ok h.linked
  have hp := h.prepared
  rw [prepared_eq rfl] at hp ⊢
  refine exists_stage_of_prepareEach (fun id' hid' => ?_) (nodup_order _ _)
    (fun c hc id' hsup => ?_) hp ?_
  · rcases List.mem_cons.1 hid' with rfl | hid'
    · exact mem_ids.2 ⟨b, hb, rfl⟩
    · exact (List.mem_filter.1 hid').1
  · -- only the base is extended, and it comes first
    obtain ⟨i, k, -, hk, rfl, -⟩ := superclass?_eq_some.1 hsup
    cases hk
    simp at hc
  · by_cases hne : id = .registered b
    · exact hne ▸ List.mem_cons_self
    · exact List.mem_cons_of_mem _ (List.mem_filter.2 ⟨hid, by simpa using hne⟩)

end Appearance.Suite
