import Appearance.Code.File
import Appearance.Proofs.Alike
import Appearance.Proofs.Resolution
import Mathlib

/-!
# The order of keys in the sources does not matter

Two suites that differ by the order of styles and of properties only are prepared alike, and the
same files are generated from them (`prepared_rearranged`). The base is equal in both as soon as it
is resolved. From then on the shadows of a stylesheet are taken from one base, so sorting makes the
stylesheet equal too, and what is equal is resolved in the same way in suites that are alike.

Two suites are compared stylesheet by stylesheet, and the proof never looks into a pass: it needs
that a pass is a function of what it reads. The first stylesheet to be resolved is the base, which
becomes equal by sorting alone. The imported stylesheet is only searched by name and can stay
rearranged. Generated files depend on the stylesheets at their places and on the order of these,
which the registration fixes and which the keys in a source do not touch.
-/

namespace Appearance.Suite

/-- The suites register the same stylesheets, in one order, up to the order of keys. -/
structure Rearranged (s t : Suite) : Prop where
  registered : List.Forall₂ Stylesheet.Rearranged s.registered t.registered
  imported : Option.Rel Stylesheet.Rearranged s.imported t.imported

/-- The names in each stylesheet are distinct. -/
def Distinct (s : Suite) : Prop := ∀ u ∈ s.sheets, u.Distinct

instance (s : Suite) : Decidable s.Distinct :=
  inferInstanceAs (Decidable (∀ u ∈ s.sheets, u.Distinct))

variable {s t : Suite} {settings : Settings}

/-! ## Linking -/

/-- The same stylesheets are bases in both suites. -/
theorem Rearranged.baseIndices_eq (h : s.Rearranged t) : s.baseIndices = t.baseIndices := by
  rw [baseIndices, baseIndices, h.registered.length_eq]
  refine List.filter_congr fun i _ => ?_
  have := rel_getElem?_of_forall₂ h.registered i
  rw [sheet, sheet, sheet?, sheet?]
  generalize s.registered[i]? = a, t.registered[i]? = b at this
  cases this with
  | none => rfl
  | some hab =>
    simp only [Option.getD_some, Stylesheet.isBase, hab.superclass_eq]

/-- Linked, the suites have one base and are alike. -/
theorem Rearranged.alike (h : s.Rearranged t) (hd : s.Distinct) {l m : Suite}
    (hs : s.linked = .ok l) (ht : t.linked = .ok m) : l.Alike m := by
  obtain ⟨b, -, rfl, hb⟩ := linked_ok hs
  obtain ⟨c, -, rfl, hc⟩ := linked_ok ht
  obtain rfl : b = c := by
    have := h.baseIndices_eq
    rw [hb, hc] at this
    exact (List.cons.inj this).1
  refine ⟨rfl, ?_, ?_⟩
  · refine ((List.forall₂_and_left s.registered t.registered).2
      ⟨fun u hu => hu, h.registered⟩).imp fun u v huv => Or.inr ⟨huv.2, ?_⟩
    exact hd u (List.mem_append_left _ huv.1)
  · refine option_rel_imp h.imported fun u hu v huv => Or.inr ⟨huv, hd u ?_⟩
    exact List.mem_append_right _ (Option.mem_toList.2 hu)

/-! ## One stylesheet -/

/-- What the base is once it is resolved: one in both suites, with distinct names. -/
structure BaseReady (s t : Suite) (b : SheetId) : Prop where
  sheet_eq : s.sheet b = t.sheet b
  names : ((s.sheet b).styles.map Style.name).Nodup
  nested : ∀ u ∈ (s.sheet b).allStyles, u.NestedDistinct

/-- The shadows of one base make stylesheets that are alike equal. -/
theorem completed_congr (h : s.Alike t) {id : SheetId}
    (hready : ∀ b, s.superclass? id = some b → BaseReady s t b) :
    s.completed id = t.completed id := by
  rw [completed, completed, ← h.superclass?_eq]
  cases hb : s.superclass? id with
  | none =>
    rcases h.sheet id with heq | ⟨hst, hd⟩
    · simp only [heq]
    · exact hst.sorted_eq hd
  | some b =>
    have hbase := hready b hb
    dsimp only
    rw [← hbase.sheet_eq]
    rcases h.sheet id with heq | ⟨hst, hd⟩
    · rw [heq]
    · exact hst.sorted_shadowing_eq hd hbase.names hbase.nested

/-- A stylesheet is resolved in the same way in both, if the base is equal already. -/
theorem resolved_congr (h : s.Alike t) (hl : s.isLinked = true) {id : SheetId} (hid : id ∈ s.ids)
    (hready : ∀ b, s.superclass? id = some b → BaseReady s t b) :
    s.resolved settings id = t.resolved settings id := by
  have hid' : id ∈ t.ids := h.ids_eq ▸ hid
  have hset : ∀ u, (s.setSheet u id).sheet id = (t.setSheet u id).sheet id := fun u => by
    rw [sheet_setSheet_self u hid, sheet_setSheet_self u hid']
  have hlinked : ∀ u, (s.setSheet u id).isLinked = true := fun u => by rw [isLinked_setSheet, hl]
  unfold resolved
  rw [completed_congr h hready,
    withRedirects_congr (h.setSheet id _) (hlinked _) settings (hset _)]
  split
  · rfl
  · rw [withInheritance_congr (h.setSheet id _) (hlinked _) settings (hset _)]

/-! ## All stylesheets -/

theorem BaseReady.setSheet {b id : SheetId} (h : BaseReady s t b) (hne : b ≠ id)
    (u : Stylesheet) : BaseReady (s.setSheet u id) (t.setSheet u id) b := by
  have hs : (s.setSheet u id).sheet b = s.sheet b := sheet_setSheet_of_ne u hne
  exact ⟨by rw [hs, sheet_setSheet_of_ne u hne, h.sheet_eq], by rw [hs]; exact h.names,
    by rw [hs]; exact h.nested⟩

/-- Preparation succeeds in both or in none of two suites that are alike, and makes the stylesheets
at the places it goes over equal. -/
theorem prepareEach_congr (settings : Settings) (ids : List SheetId) (h : s.Alike t)
    (hl : s.isLinked = true) (hids : ∀ id ∈ ids, id ∈ s.ids)
    (hready : ∀ id ∈ ids, ∀ b, s.superclass? id = some b → b ∉ ids ∧ BaseReady s t b) :
    (prepareEach settings ids s).2 = (prepareEach settings ids t).2 ∧
      ((prepareEach settings ids s).2 = .ok () →
        ∀ id, id ∈ ids ∨ s.sheet id = t.sheet id →
          (prepareEach settings ids s).1.sheet id = (prepareEach settings ids t).1.sheet id) := by
  induction ids generalizing s t with
  | nil => exact ⟨rfl, fun _ id hid => hid.resolve_left List.not_mem_nil⟩
  | cons first ids ih =>
    have hfirst := hids first List.mem_cons_self
    have hfirst' : first ∈ t.ids := h.ids_eq ▸ hfirst
    have hresolved : s.resolved settings first = t.resolved settings first :=
      resolved_congr h hl hfirst fun b hb => (hready first List.mem_cons_self b hb).2
    cases hr : s.resolved settings first with
    | error e =>
      rw [prepareEach_of_error hfirst hr, prepareEach_of_error hfirst' (hresolved ▸ hr)]
      exact ⟨rfl, fun h => by cases h⟩
    | ok u =>
      rw [prepareEach_of_ok hfirst hr, prepareEach_of_ok hfirst' (hresolved ▸ hr)]
      obtain ⟨hres, hsheets⟩ := ih (h.setSheet first u) (by rw [isLinked_setSheet, hl])
        (fun id hid => by rw [ids_setSheet]; exact hids id (List.mem_cons_of_mem _ hid))
        (fun id hid b hb => by
          rw [superclass?_setSheet] at hb
          obtain ⟨hnot, hbase⟩ := hready id (List.mem_cons_of_mem _ hid) b hb
          rw [List.mem_cons, not_or] at hnot
          exact ⟨hnot.2, hbase.setSheet hnot.1 u⟩)
      refine ⟨hres, fun hok id hid => hsheets hok id ?_⟩
      by_cases hne : id = first
      · rw [hne, sheet_setSheet_self u hfirst, sheet_setSheet_self u hfirst']
        exact Or.inr rfl
      · rw [sheet_setSheet_of_ne u hne, sheet_setSheet_of_ne u hne]
        exact hid.imp_left fun hmem => (List.mem_cons.1 hmem).resolve_left hne

/-- A resolved base has distinct names. -/
theorem baseReady_of_resolved {b : SheetId} (hb : b ∈ s.ids) (hb' : b ∈ t.ids)
    (hsup : s.superclass? b = none) (hd : (s.sheet b).Distinct) {u : Stylesheet}
    (h : s.resolved settings b = .ok u) : BaseReady (s.setSheet u b) (t.setSheet u b) b := by
  have hcompleted : s.completed b = (s.sheet b).sorted := by rw [completed, hsup]
  have hnames : ((s.completed b).styles.map Style.name).Nodup := by
    rw [hcompleted]
    exact (s.sheet b).styleNames_sorted_perm.nodup_iff.2 hd.styleNames
  obtain ⟨v, done, hdone⟩ := resolved_outcome hb h hnames
  refine ⟨by rw [sheet_setSheet_self u hb, sheet_setSheet_self u hb'], ?_, fun x hx => ?_⟩
  · rw [sheet_setSheet_self u hb, hdone.styleNames]
    exact hnames
  · rw [sheet_setSheet_self u hb] at hx
    obtain ⟨z, hz, hzx⟩ := hdone.exists_outline hx
    rw [hcompleted] at hz
    obtain ⟨y, hy, rfl⟩ := List.mem_map.1 ((s.sheet b).allStyles_sorted_perm.mem_iff.1 hz)
    exact (Style.nestedDistinct_congr_outline hzx).1 (hd.styles y hy).nestedDistinct.sorted

/-! ## Generated files -/

theorem generate_eq {b : Nat} (hb : s.base? = some b) (settings : Settings) (id : SheetId) :
    s.generate settings id = .ok (s.filesOf settings (.registered b) id) := by
  rw [generate, baseId, hb]

/-- All files, those of the base first. -/
theorem generateAll_eq {b : Nat} (hb : s.base? = some b) (settings : Settings) :
    s.generateAll settings = .ok ((SheetId.registered b :: s.ids.filter (· != .registered b)).map
      (s.filesOf settings (.registered b))).flatten := by
  have hmap : ∀ ids : List SheetId, ids.mapM (s.generate settings) =
      .ok (ids.map (s.filesOf settings (.registered b))) := fun ids => by
    induction ids with
    | nil => rfl
    | cons id ids ih =>
      rw [List.mapM_cons, ih, generate_eq hb]
      rfl
  rw [generateAll, order_eq hb]
  simp only [bind, Except.bind, pure, Except.pure, hmap]

theorem sheet_registered_congr (h : s.registered = t.registered) (i : Nat) :
    s.sheet (.registered i) = t.sheet (.registered i) := by
  rw [sheet, sheet, sheet?, sheet?, h]

/-- The places in the order of generation are those of registered stylesheets. -/
theorem exists_eq_registered {b : Nat} {id : SheetId}
    (h : id ∈ SheetId.registered b :: s.ids.filter (· != .registered b)) :
    ∃ i, id = .registered i := by
  rcases List.mem_cons.1 h with rfl | h
  · exact ⟨b, rfl⟩
  · obtain ⟨i, -, rfl⟩ := List.mem_map.1 (List.mem_filter.1 h).1
    exact ⟨i, rfl⟩

/-- Suites with the same stylesheets have the same themes. -/
theorem themeIds_congr (h : s.registered = t.registered) (b : Nat) :
    s.themeIds (.registered b) = t.themeIds (.registered b) := by
  have hids : t.ids = s.ids := by rw [ids, ids, h]
  rw [themeIds, themeIds, hids]
  refine List.filter_congr fun id hid => ?_
  obtain ⟨i, rfl⟩ := exists_eq_registered hid
  rw [sheet_registered_congr h]

/-- The imported stylesheet is not seen in the files. -/
theorem filesOf_congr (h : s.registered = t.registered) (settings : Settings) (b i : Nat) :
    s.filesOf settings (.registered b) (.registered i) =
      t.filesOf settings (.registered b) (.registered i) := by
  have hsheet := sheet_registered_congr h
  have hstyles : s.styleLines settings (.registered b) (.registered i) =
      t.styleLines settings (.registered b) (.registered i) := by
    funext styles
    simp only [styleLines, baseType, hsheet]
  have hfile : s.styleFile settings (.registered b) (.registered i) =
      t.styleFile settings (.registered b) (.registered i) := by
    funext style
    simp only [styleFile, hstyles, hsheet]
  have hthemes : s.themes settings (.registered b) = t.themes settings (.registered b) := by
    rw [themes, themes, themeIds_congr h]
    refine List.map_congr_left fun id hid => ?_
    obtain ⟨j, rfl⟩ := exists_eq_registered (List.mem_filter.1 hid).1
    rw [hsheet]
  have hdeclarations : s.declarationLines settings (.registered b) (.registered i) =
      t.declarationLines settings (.registered b) (.registered i) := by
    simp only [declarationLines, sharedLines, baseType, hsheet, h, themeIds_congr h, hthemes]
  simp only [filesOf, mainLines, baseType, hsheet, hstyles, hfile, hdeclarations]

/-- Suites with the same stylesheets have the same files. -/
theorem generateAll_congr {b : Nat} (hs : s.base? = some b) (ht : t.base? = some b)
    (h : s.registered = t.registered) (settings : Settings) :
    s.generateAll settings = t.generateAll settings := by
  have hids : s.ids = t.ids := by rw [ids, ids, h]
  rw [generateAll_eq hs, generateAll_eq ht, hids]
  refine congrArg (fun files => Except.ok (List.flatten files))
    (List.map_congr_left fun id hid => ?_)
  obtain ⟨i, rfl⟩ := exists_eq_registered hid
  exact filesOf_congr h settings b i

/-! ## The order of keys -/

/-- Preparation of suites that are alike, with the base at one place. -/
theorem prepared_congr (settings : Settings) (h : s.Alike t) {b : Nat} (hb : s.base? = some b)
    (hlt : b < s.registered.length) (hd : (s.sheet (.registered b)).Distinct) :
    (s.prepared settings).2 = (t.prepared settings).2 ∧
      ((s.prepared settings).2 = .ok () → ∀ id ∈ s.ids,
        (s.prepared settings).1.sheet id = (t.prepared settings).1.sheet id) := by
  have hl : s.isLinked = true := by rw [isLinked, hb]; rfl
  have hmem : SheetId.registered b ∈ s.ids := mem_ids.2 ⟨b, hlt, rfl⟩
  have hmem' : SheetId.registered b ∈ t.ids := h.ids_eq ▸ hmem
  have hsup : s.superclass? (.registered b) = none := by simp [superclass?, hb]
  have hresolved : s.resolved settings (.registered b) = t.resolved settings (.registered b) :=
    resolved_congr h hl hmem fun c hc => by rw [hsup] at hc; cases hc
  rw [prepared_eq hb, prepared_eq (h.base?_eq ▸ hb), ← h.ids_eq]
  cases hr : s.resolved settings (.registered b) with
  | error e =>
    rw [prepareEach_of_error hmem hr, prepareEach_of_error hmem' (hresolved ▸ hr)]
    exact ⟨rfl, fun h => by cases h⟩
  | ok u =>
    rw [prepareEach_of_ok hmem hr, prepareEach_of_ok hmem' (hresolved ▸ hr)]
    obtain ⟨hres, hsheets⟩ := prepareEach_congr settings
      (s.ids.filter (· != .registered b)) (h.setSheet (.registered b) u)
      (by rw [isLinked_setSheet, hl])
      (fun id hid => by rw [ids_setSheet]; exact (List.mem_filter.1 hid).1)
      (fun id _ c hc => by
        obtain ⟨i, k, -, hk, rfl, -⟩ := superclass?_eq_some.1 hc
        rw [base?_setSheet, hb] at hk
        cases hk
        exact ⟨by simp, baseReady_of_resolved hmem hmem' hsup hd hr⟩)
    refine ⟨hres, fun hok id hid => hsheets hok id ?_⟩
    by_cases hne : id = .registered b
    · rw [hne, sheet_setSheet_self u hmem, sheet_setSheet_self u hmem']
      exact Or.inr rfl
    · exact Or.inl (List.mem_filter.2 ⟨hid, by simpa using hne⟩)

/-- The order of keys in the sources changes neither whether a suite is prepared, nor the
stylesheets that come of it, nor the files that are generated from them. -/
theorem prepared_rearranged (h : s.Rearranged t) (hd : s.Distinct) {l m : Suite}
    (hs : s.linked = .ok l) (ht : t.linked = .ok m) (settings : Settings) :
    ((l.prepared settings).2 = .ok () ↔ (m.prepared settings).2 = .ok ()) ∧
      ((l.prepared settings).2 = .ok () →
        (l.prepared settings).1.registered = (m.prepared settings).1.registered ∧
          ∃ files, (l.prepared settings).1.generateAll settings = .ok files ∧
            (m.prepared settings).1.generateAll settings = .ok files) := by
  have halike := h.alike hd hs ht
  obtain ⟨b, hlt, hl, -⟩ := linked_ok hs
  have hb : l.base? = some b := by rw [hl]
  have hreg : l.registered = s.registered := by rw [hl]
  obtain ⟨hres, hsheets⟩ := prepared_congr settings halike hb (by rw [hreg]; exact hlt)
    (hd _ (List.mem_append_left _ (hreg ▸ sheet_mem (mem_ids.2 ⟨b, hreg ▸ hlt, rfl⟩))))
  refine ⟨by rw [hres], fun hok => ?_⟩
  have hkept := Prepares.kept ⟨hs, hok⟩
  have hkept' := Prepares.kept ⟨ht, hres ▸ hok⟩
  have hregistered : (l.prepared settings).1.registered = (m.prepared settings).1.registered := by
    have hlen := hkept.length_eq.trans (halike.registered.length_eq.trans hkept'.length_eq.symm)
    refine List.ext_getElem hlen fun i hi hi' => ?_
    have := hsheets hok (.registered i) (mem_ids.2 ⟨i, hkept.length_eq ▸ hi, rfl⟩)
    rwa [sheet_registered hi, sheet_registered hi'] at this
  have hbase := hkept.base?_eq.trans hb
  have hbase' := hkept'.base?_eq.trans (halike.base?_eq ▸ hb)
  exact ⟨hregistered, _, generateAll_eq hbase settings,
    (generateAll_congr hbase hbase' hregistered settings) ▸ generateAll_eq hbase settings⟩

/-! ## An instance -/

/-- A base in which `B` extends `A`, and a theme, with the keys in order. -/
def keysInOrder : Suite :=
  ⟨[⟨"Base",
      [.named "A"
        [.leaf ⟨"x", false, false⟩ (.int 1),
          .nested ⟨"n", false, false⟩ (.named "n"
            [.leaf ⟨"y", false, false⟩ (.int 2), .leaf ⟨"z", false, false⟩ (.int 3)])],
        .mk { StyleHead.named "B" with superclass := some "A" }
          [.leaf ⟨"x", false, false⟩ (.int 4)]],
      none, none, false, []⟩,
    ⟨"Dark", [.named "A" [.leaf ⟨"x", false, false⟩ (.int 5)]], none, some "Base", false, []⟩],
    none, none⟩

/-- The same suite with keys in another order, the one inside the nested style included. -/
def keysShuffled : Suite :=
  ⟨[⟨"Base",
      [.mk { StyleHead.named "B" with superclass := some "A" } [.leaf ⟨"x", false, false⟩ (.int 4)],
        .named "A"
          [.nested ⟨"n", false, false⟩ (.named "n"
            [.leaf ⟨"z", false, false⟩ (.int 3), .leaf ⟨"y", false, false⟩ (.int 2)]),
            .leaf ⟨"x", false, false⟩ (.int 1)]],
      none, none, false, []⟩,
    ⟨"Dark", [.named "A" [.leaf ⟨"x", false, false⟩ (.int 5)]], none, some "Base", false, []⟩],
    none, none⟩

/-- The two suites differ by the order of keys only. -/
theorem rearranged_keysShuffled : keysInOrder.Rearranged keysShuffled where
  registered := by
    refine .cons ⟨rfl, rfl, rfl, rfl, ⟨_, .cons (.mk ?_ (.swap _ _ _)) (.cons (.refl _) .nil),
      .swap _ _ _⟩, .none⟩ (.cons ⟨rfl, rfl, rfl, rfl, ⟨_, .cons (.refl _) .nil, .refl _⟩, .none⟩
        .nil)
    exact .cons (.leaf _ _) (.cons (.nested _ (.mk (.cons (.leaf _ _) (.cons (.leaf _ _) .nil))
      (.swap _ _ _))) .nil)
  imported := .none

/-- Both suites are prepared, to the same stylesheets and files. -/
theorem prepared_keysShuffled :
    ∃ l m, keysInOrder.linked = .ok l ∧ keysShuffled.linked = .ok m ∧
      (l.prepared .standard).1.registered = (m.prepared .standard).1.registered ∧
        ∃ files, (l.prepared .standard).1.generateAll .standard = .ok files ∧
          (m.prepared .standard).1.generateAll .standard = .ok files := by
  obtain ⟨-, h⟩ := prepared_rearranged rearranged_keysShuffled (by decide)
    (l := { keysInOrder with base? := some 0 }) (m := { keysShuffled with base? := some 0 })
    rfl rfl .standard
  exact ⟨_, _, rfl, rfl, h (by cbv)⟩

end Appearance.Suite
