import Appearance.Proofs.Order
import Appearance.Suite.Basic

/-!
# Looking styles up in a suite

`Suite.find?` looks a style up by its name, in the way it is done after linking. With distinct
names it is the search among all top-level styles (`find?_eq`), and what it finds stands in the
stylesheet (`mem_of_find?`). A stylesheet that is put into its place changes no other place.

The first half says that a suite is an array of stylesheets as far as `Suite.sheet` and
`Suite.setSheet` are concerned. The second half relates the search for the last index of a name to
a search from the front: `lastIndex?_eq_some_iff` says which index is found without any assumption,
and under distinct names both searches agree. An animator is found last, so a style of its name
hides it, which `find?_eq_of_mem` makes explicit.
-/

namespace Appearance.Suite

/-! ## Places -/

theorem mem_ids {s : Suite} {id : SheetId} :
    id ∈ s.ids ↔ ∃ i < s.registered.length, id = .registered i := by
  simp only [ids, List.mem_map, List.mem_range, eq_comm]

theorem sheet_registered {s : Suite} {i : Nat} (h : i < s.registered.length) :
    s.sheet (.registered i) = s.registered[i] := by
  simp [sheet, sheet?, List.getElem?_eq_getElem h]

theorem sheet_mem {s : Suite} {id : SheetId} (h : id ∈ s.ids) : s.sheet id ∈ s.registered := by
  obtain ⟨i, hi, rfl⟩ := mem_ids.1 h
  rw [sheet_registered hi]
  exact List.getElem_mem hi

theorem exists_id_of_mem {s : Suite} {t : Stylesheet} (h : t ∈ s.registered) :
    ∃ id ∈ s.ids, s.sheet id = t := by
  obtain ⟨i, hi, rfl⟩ := List.mem_iff_getElem.1 h
  exact ⟨_, mem_ids.2 ⟨i, hi, rfl⟩, sheet_registered hi⟩

variable (s : Suite) (t u : Stylesheet)

@[simp] theorem base?_setSheet (id : SheetId) : (s.setSheet t id).base? = s.base? := by
  cases id <;> rfl

@[simp] theorem isLinked_setSheet (id : SheetId) :
    (s.setSheet t id).isLinked = s.isLinked := by
  rw [isLinked, base?_setSheet, isLinked]

@[simp] theorem superclass?_setSheet (id id' : SheetId) :
    (s.setSheet t id).superclass? id' = s.superclass? id' := by
  cases id' <;> simp [superclass?]

@[simp] theorem length_setSheet (id : SheetId) :
    (s.setSheet t id).registered.length = s.registered.length := by
  cases id <;> simp [setSheet]

@[simp] theorem ids_setSheet (id : SheetId) : (s.setSheet t id).ids = s.ids := by
  simp [ids]

@[simp] theorem setSheet_setSheet (id : SheetId) :
    (s.setSheet t id).setSheet u id = s.setSheet u id := by
  cases id <;> simp [setSheet]

variable {s}

@[simp] theorem imported_setSheet {id : SheetId} (h : id ∈ s.ids) :
    (s.setSheet t id).imported = s.imported := by
  obtain ⟨i, -, rfl⟩ := mem_ids.1 h
  rfl

theorem sheet_setSheet_self {id : SheetId} (h : id ∈ s.ids) : (s.setSheet t id).sheet id = t := by
  obtain ⟨i, hi, rfl⟩ := mem_ids.1 h
  simp [sheet, sheet?, setSheet, hi]

theorem setSheet_sheet {id : SheetId} (h : id ∈ s.ids) : s.setSheet (s.sheet id) id = s := by
  obtain ⟨i, hi, rfl⟩ := mem_ids.1 h
  rw [sheet_registered hi, setSheet, List.set_getElem_self]

theorem sheet_setSheet_of_ne {id id' : SheetId} (h : id' ≠ id) :
    (s.setSheet t id).sheet id' = s.sheet id' := by
  cases id <;> cases id' <;> simp_all [sheet, sheet?, setSheet, eq_comm]

/-! ## The base -/

/-- The superclass is the base, of every stylesheet but the base itself. -/
theorem superclass?_eq_some {id b : SheetId} :
    s.superclass? id = some b ↔
      ∃ i k, id = .registered i ∧ s.base? = some k ∧ b = .registered k ∧ i ≠ k := by
  cases id with
  | imported => simp [superclass?]
  | registered i =>
    unfold superclass?
    cases hb : s.base? with
    | none => simp
    | some k =>
      by_cases hik : i = k
      · simp [hik]
      · simp [hik, eq_comm]

theorem ne_of_superclass? {id b : SheetId} (h : s.superclass? id = some b) : id ≠ b := by
  obtain ⟨i, k, rfl, -, rfl, hik⟩ := superclass?_eq_some.1 h
  simpa using hik

/-- The base extends none. -/
theorem superclass?_superclass? {id b : SheetId} (h : s.superclass? id = some b) :
    s.superclass? b = none := by
  obtain ⟨i, k, rfl, hk, rfl, -⟩ := superclass?_eq_some.1 h
  simp [superclass?, hk]

theorem isLinked_of_superclass? {id b : SheetId} (h : s.superclass? id = some b) :
    s.isLinked = true := by
  obtain ⟨i, k, -, hk, -, -⟩ := superclass?_eq_some.1 h
  simp [isLinked, hk]

/-! ## Linking -/

/-- Linking enters the base and nothing else. -/
theorem linked_ok {l : Suite} (h : s.linked = .ok l) :
    ∃ b < s.registered.length, l = { s with base? := some b } ∧ s.baseIndices = [b] := by
  unfold linked at h
  split at h
  · cases h
  · next b hb =>
    split at h
    · cases h
      have : b ∈ s.baseIndices := by rw [hb]; exact List.mem_singleton_self b
      exact ⟨b, by simpa using (List.mem_filter.1 this).1, rfl, hb⟩
    · cases h
  · cases h

/-! ## Styles by name -/

theorem lastIndex?_isSome {styles : List Style} {name : String} :
    (lastIndex? styles name).isSome = true ↔ ∃ style ∈ styles, style.name = name := by
  rw [lastIndex?, Option.isSome_map, List.findIdx?_isSome, List.any_eq_true]
  simp only [List.mem_reverse, beq_iff_eq]

/-- The style at the last index of a name has this name. -/
theorem lastIndex?_eq_some {styles : List Style} {name : String} {i : Nat}
    (h : lastIndex? styles name = some i) :
    ∃ style, styles[i]? = some style ∧ style.name = name := by
  obtain ⟨j, hj, rfl⟩ := Option.map_eq_some_iff.1 h
  obtain ⟨hlt, hmatch, -⟩ := List.findIdx?_eq_some_iff_getElem.1 hj
  rw [List.getElem_reverse] at hmatch
  exact ⟨_, List.getElem?_eq_getElem _, beq_iff_eq.1 hmatch⟩

/-- No later style has the name. -/
theorem le_of_lastIndex? {styles : List Style} {name : String} {i k : Nat} {style : Style}
    (h : lastIndex? styles name = some i) (hk : styles[k]? = some style)
    (hname : style.name = name) : k ≤ i := by
  obtain ⟨j, hj, rfl⟩ := Option.map_eq_some_iff.1 h
  obtain ⟨_, -, hbefore⟩ := List.findIdx?_eq_some_iff_getElem.1 hj
  obtain ⟨hlt, rfl⟩ := List.getElem?_eq_some_iff.1 hk
  -- an index behind comes before in the reversed list
  by_contra hbehind
  refine hbefore (styles.length - 1 - k) (by omega) ?_
  rw [List.getElem_reverse, beq_iff_eq, ← hname]
  congr 2
  omega

/-- The index of a name is that of a style of the name, and of no later one there is another. -/
theorem lastIndex?_eq_some_iff {styles : List Style} {name : String} {i : Nat} :
    lastIndex? styles name = some i ↔ (∃ style, styles[i]? = some style ∧ style.name = name) ∧
      ∀ k style, styles[k]? = some style → style.name = name → k ≤ i := by
  refine ⟨fun h => ⟨lastIndex?_eq_some h, fun k _ => le_of_lastIndex? h⟩, ?_⟩
  rintro ⟨⟨style, hi, hname⟩, hlast⟩
  obtain ⟨j, hj⟩ := Option.isSome_iff_exists.1 <|
    lastIndex?_isSome.2 ⟨style, List.mem_of_getElem? hi, hname⟩
  obtain ⟨other, hother, hothername⟩ := lastIndex?_eq_some hj
  rw [hj, Nat.le_antisymm (hlast j other hother hothername) (le_of_lastIndex? hj hi hname)]

/-- Of several styles of a name the last one counts. -/
theorem lastIndex?_bind (l : List Style) (name : String) :
    (lastIndex? l name).bind (l[·]?) = l.reverse.find? (·.name == name) := by
  rw [lastIndex?, List.find?_eq_bind_findIdx?_getElem?, Option.bind_map]
  refine Option.bind_congr fun i hi => ?_
  obtain ⟨hlt, -⟩ := List.findIdx?_eq_some_iff_getElem.1 hi
  rw [List.length_reverse] at hlt
  rw [Function.comp_apply, List.getElem?_reverse hlt]

theorem style?_eq (hl : s.isLinked = true) (id : SheetId) (name : String) :
    s.style? id name = (s.sheet id).styles.reverse.find? (·.name == name) := by
  rw [style?, styleIndex?, if_pos hl, lastIndex?_bind]

/-- A look-up finds a style of every name that there is. -/
theorem isSome_find?_of_mem (hl : s.isLinked = true) {id : SheetId} {x : Style}
    (hx : x ∈ (s.sheet id).styles) : (s.find? id x.name).isSome = true := by
  have hsome : (s.style? id x.name).isSome = true := by
    rw [style?_eq hl, List.find?_isSome]
    exact ⟨x, List.mem_reverse.2 hx, beq_self_eq_true _⟩
  obtain ⟨y, hy⟩ := Option.isSome_iff_exists.1 hsome
  rw [find?, hy]
  rfl

/-- What is found stands in the stylesheet and has the name. -/
theorem mem_of_find? {id : SheetId} {name : String} {u : Style} (h : s.find? id name = some u) :
    u ∈ (s.sheet id).allStyles ∧ u.name = name := by
  rw [Stylesheet.allStyles, List.mem_append, Option.mem_toList]
  unfold find? at h
  split at h
  · next v hv =>
    cases h
    unfold style? styleIndex? at hv
    split at hv
    · rw [lastIndex?_bind] at hv
      exact ⟨Or.inl (List.mem_reverse.1 (List.mem_of_find?_eq_some hv)),
        by simpa using List.find?_some hv⟩
    · cases hv
  · obtain ⟨ha, hn⟩ := Option.filter_eq_some_iff.1 h
    exact ⟨Or.inr ha, by simpa using hn⟩

/-- With distinct names of styles it does not matter which one counts. -/
theorem style?_eq_find? (hl : s.isLinked = true) {id : SheetId}
    (hd : ((s.sheet id).styles.map Style.name).Nodup) (name : String) :
    s.style? id name = (s.sheet id).styles.find? (·.name == name) := by
  rw [style?_eq hl]
  exact (find?_perm_of_nodup hd (List.reverse_perm _).symm name).symm

/-- A look-up of the name of a style finds a style and no animator. -/
theorem find?_eq_of_mem (hl : s.isLinked = true) {id : SheetId}
    (hd : ((s.sheet id).styles.map Style.name).Nodup) {name : String}
    (hname : name ∈ (s.sheet id).styles.map Style.name) :
    s.find? id name = (s.sheet id).styles.find? (·.name == name) := by
  obtain ⟨x, hx, rfl⟩ := List.mem_map.1 hname
  rw [find?, style?_eq_find? hl hd, find?_eq_some_of_nodup hd hx]

/-- With distinct names a look-up is a search among the top-level styles. -/
theorem find?_eq (hl : s.isLinked = true) {id : SheetId}
    (hd : ((s.sheet id).allStyles.map Style.name).Nodup) (name : String) :
    s.find? id name = (s.sheet id).allStyles.find? (·.name == name) := by
  have hstyles : ((s.sheet id).styles.map Style.name).Nodup := by
    rw [Stylesheet.allStyles, List.map_append] at hd
    exact (List.nodup_append.1 hd).1
  rw [find?, style?_eq_find? hl hstyles, Stylesheet.allStyles, List.find?_append]
  cases (s.sheet id).styles.find? (·.name == name) with
  | some u => rfl
  | none => cases (s.sheet id).animator <;> simp [Option.filter]

end Appearance.Suite
