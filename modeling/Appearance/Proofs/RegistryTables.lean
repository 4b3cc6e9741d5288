import Appearance.Proofs.Lookup
import Appearance.Registry.Basic
import Mathlib.Data.List.Induction
import Mathlib.Order.Basic

/-!
# The tables of a registry

The slots of a registry are the indices of its list of stylesheets, without that of the imported
stylesheet (`Registry.mem_slots`). What `Registry.tables` makes of them is said once, by
`Registry.Tabled`: one base, the order, what each stylesheet extends, and the styles of each one by
their names. `Registry.tabled_of_tables` proves it of all tables, and all that is asked of a linked
registry is read off it.

A registry is *coherent* if it could have come about by calls: the imported stylesheet is there,
names are distinct, and the tables are those that linking would lay down now. A look-up in a
coherent registry is never out of range (`Registry.Coherent.superclass?`,
`Registry.Coherent.findStyle?`).

A call may leave the tables in two states: dropped, after a stylesheet was added, or laid down
anew. A stylesheet that is changed in its place leaves them as they are, which is right only as its
name and what it extends stay (`Registry.tables_setSheet`); the styles may change, so their table
is laid down again.
-/

namespace Appearance

/-! ## Styles by name -/

/-- The table of a stylesheet numbers its names, the last one first. -/
theorem Stylesheet.styleTable_eq (s : Stylesheet) :
    s.styleTable = (s.styles.map Style.name).zipIdx.reverse := by
  rw [styleTable, List.zipIdx_map]
  rfl

/-- An entry of a table of styles is the index of the last style of the name. -/
theorem Stylesheet.lookup_styleTable (s : Stylesheet) (name : String) :
    s.styleTable.lookup name = Suite.lastIndex? s.styles name := by
  rw [styleTable_eq]
  induction s.styles using List.reverseRecOn with
  | nil => rfl
  | append_singleton styles style ih =>
    have htable : ((styles ++ [style]).map Style.name).zipIdx.reverse =
        (style.name, styles.length) :: (styles.map Style.name).zipIdx.reverse := by
      rw [List.map_append, List.zipIdx_append, List.reverse_append]
      simp
    have hlast : Suite.lastIndex? (styles ++ [style]) name =
        if style.name = name then some styles.length else Suite.lastIndex? styles name := by
      rw [Suite.lastIndex?, List.reverse_append, List.reverse_singleton, List.singleton_append,
        List.findIdx?_cons]
      by_cases hname : style.name = name
      · simp [hname]
      · rw [if_neg hname, if_neg (by simpa using hname), Option.map_map, Suite.lastIndex?]
        refine Option.map_congr fun i hi => ?_
        simp only [Function.comp_apply, List.length_append, List.length_singleton]
        omega
    rw [htable, hlast, List.lookup_cons, ih]
    by_cases hname : style.name = name
    · rw [if_pos hname, hname, beq_self_eq_true]
    · rw [if_neg hname, beq_eq_false_iff_ne.2 (Ne.symm hname)]

/-- A table depends on the names alone. -/
theorem Stylesheet.styleTable_eq_of_names {s t : Stylesheet}
    (h : s.styles.map Style.name = t.styles.map Style.name) : s.styleTable = t.styleTable := by
  rw [styleTable_eq, styleTable_eq, h]

namespace Registry

variable {r : Registry} {slot : Slot}

/-! ## Slots -/

/-- The slots are all indices in range but that of the imported stylesheet. -/
theorem mem_slots : slot ∈ r.slots ↔ slot.index < r.sheets.length ∧ r.imported? ≠ some slot := by
  have hrange : slot ∈ (List.range r.sheets.length).map Slot.mk ↔ slot.index < r.sheets.length := by
    simp only [List.mem_map, List.mem_range]
    constructor
    · rintro ⟨i, hi, rfl⟩
      exact hi
    · exact fun hi => ⟨slot.index, hi, rfl⟩
  rw [slots, List.mem_filter, hrange, bne_iff_ne, ne_comm]

theorem nodup_slots (r : Registry) : r.slots.Nodup :=
  (List.nodup_range.map fun _ _ => Slot.mk.inj).filter _

theorem getElem?_sheets (h : slot.index < r.sheets.length) :
    r.sheets[slot.index]? = some (r.sheet slot) := by
  rw [sheet, List.getElem?_eq_getElem h, Option.getD_some]

theorem find?_eq_some {name : String} (h : r.find? name = some slot) :
    slot ∈ r.slots ∧ (r.sheet slot).name = name := by
  unfold find? at h
  have hname := List.find?_some h
  exact ⟨List.mem_of_find?_eq_some h, beq_iff_eq.1 hname⟩

theorem find?_eq_none {name : String} :
    r.find? name = none ↔ ∀ slot ∈ r.slots, (r.sheet slot).name ≠ name := by
  simp only [find?, List.find?_eq_none, beq_iff_eq, ne_eq]

theorem mem_bases : slot ∈ r.bases ↔ slot ∈ r.slots ∧ (r.sheet slot).isBase = true := by
  rw [bases, List.mem_filter]

/-! ## Linking -/

/-- What a stylesheet extends once it is checked: the base by its name, or nothing. -/
def Extends (r : Registry) (base slot : Slot) : Prop :=
  (r.sheet slot).superclass = none ∨ (r.sheet slot).superclass = some (r.sheet base).name

/-- A stylesheet that passes the check extends the base or nothing, and gets an entry in the first
case. -/
theorem enterSuperclasses_cons_ok {base first : Slot} {slots : List Slot}
    {table result : List (Option Slot)}
    (h : r.enterSuperclasses base (first :: slots) table = .ok result) :
    r.Extends base first ∧ r.enterSuperclasses base slots
      (if (r.sheet first).isBase then table else table.set first.index (some base)) =
        .ok result := by
  unfold enterSuperclasses at h
  split at h
  · next hnone =>
    have hbase : (r.sheet first).isBase = true := by rw [Stylesheet.isBase, hnone]; rfl
    exact ⟨.inl hnone, by rwa [if_pos hbase]⟩
  · next superclass hsuperclass =>
    have hbase : (r.sheet first).isBase ≠ true := by rw [Stylesheet.isBase, hsuperclass]; nofun
    split at h
    · cases h
    · next parent hparent =>
      split at h
      · next heq =>
        subst heq
        exact ⟨.inr (by rw [hsuperclass, (find?_eq_some hparent).2]), by rwa [if_neg hbase]⟩
      · cases h

/-- The entries that are made, one for each stylesheet that extends another one. The table keeps its
length, and no other entry changes. -/
theorem enterSuperclasses_ok {base : Slot} {slots : List Slot} {table result : List (Option Slot)}
    (h : r.enterSuperclasses base slots table = .ok result) :
    result.length = table.length ∧ (∀ slot ∈ slots, r.Extends base slot) ∧
      ∀ slot : Slot, slot.index < table.length →
        result[slot.index]? = if slot ∈ slots ∧ ¬ (r.sheet slot).isBase then some (some base)
          else table[slot.index]? := by
  induction slots generalizing table with
  | nil =>
    cases h
    exact ⟨rfl, nofun, fun slot _ => by simp⟩
  | cons first slots ih =>
    obtain ⟨hfirst, h⟩ := enterSuperclasses_cons_ok h
    obtain ⟨hlength, hextends, hentries⟩ := ih h
    have hsame : (if (r.sheet first).isBase then table
        else table.set first.index (some base)).length = table.length := by
      split
      · rfl
      · exact List.length_set
    rw [hsame] at hlength hentries
    refine ⟨hlength, List.forall_mem_cons.2 ⟨hfirst, hextends⟩, fun slot hslot => ?_⟩
    rw [hentries slot hslot]
    by_cases heq : slot = first
    · subst heq
      by_cases hbase : (r.sheet slot).isBase = true <;> simp [hbase, hslot]
    · have hindex : first.index ≠ slot.index := fun hindex =>
        heq (by cases first; cases slot; exact congrArg Slot.mk hindex.symm)
      by_cases hbase : (r.sheet first).isBase = true <;> simp [hbase, heq, hindex]

/-- What the tables of a registry say. -/
structure Tabled (r : Registry) (link : Link) : Prop where
  isBase_iff : ∀ slot ∈ r.slots, (r.sheet slot).isBase = true ↔ slot = link.base
  base_mem : link.base ∈ r.slots
  order_eq : link.order = link.base :: r.slots.filter (· != link.base)
  extends_base : ∀ slot ∈ r.slots, slot ≠ link.base →
    (r.sheet slot).superclass = some (r.sheet link.base).name
  length_superclasses : link.superclasses.length = r.sheets.length
  superclasses : ∀ slot : Slot, slot.index < r.sheets.length → link.superclasses[slot.index]? =
    some (if slot ∈ r.slots ∧ slot ≠ link.base then some link.base else none)
  styles_eq : link.styles = r.sheets.map Stylesheet.styleTable

/-- If there are tables, there is one base, and the tables are made from it. -/
theorem tables_ok {link : Link} (h : r.tables = .ok link) :
    r.bases = [link.base] ∧ link.order = link.base :: r.slots.filter (· != link.base) ∧
      r.enterSuperclasses link.base r.slots (List.replicate r.sheets.length none) =
        .ok link.superclasses ∧ link.styles = r.sheets.map Stylesheet.styleTable := by
  unfold tables at h
  split at h
  · cases h
  · next hbases =>
    split at h
    · next superclasses hsuperclasses =>
      cases h
      exact ⟨hbases, rfl, hsuperclasses, rfl⟩
    · cases h
  · cases h

/-- Tables are as `Tabled` tells. -/
theorem tabled_of_tables {link : Link} (h : r.tables = .ok link) : Tabled r link := by
  obtain ⟨hbases, horder, hsuperclasses, hstyles⟩ := tables_ok h
  obtain ⟨hlength, hextends, hentries⟩ := enterSuperclasses_ok hsuperclasses
  rw [List.length_replicate] at hlength hentries
  have hiff : ∀ slot ∈ r.slots, (r.sheet slot).isBase = true ↔ slot = link.base := by
    intro slot hslot
    rw [← and_iff_right (b := (r.sheet slot).isBase = true) hslot, ← mem_bases, hbases,
      List.mem_singleton]
  have hbase : link.base ∈ r.slots :=
    (mem_bases.1 (hbases ▸ List.mem_singleton_self link.base)).1
  refine ⟨hiff, hbase, horder, fun slot hslot hne => ?_, hlength, fun slot hslot => ?_, hstyles⟩
  · refine (hextends slot hslot).resolve_left fun hnone => hne ((hiff slot hslot).1 ?_)
    rw [Stylesheet.isBase, hnone]
    rfl
  · rw [hentries slot hslot, List.getElem?_replicate, if_pos hslot]
    by_cases hmem : slot ∈ r.slots
    · simp only [hmem, true_and, hiff slot hmem, ne_eq, apply_ite some]
    · simp only [hmem, false_and, if_false]

/-! ## Coherent registries -/

/-- The imported stylesheet is there, names are distinct, and the tables are those that linking
would lay down. -/
structure Coherent (r : Registry) : Prop where
  imported_lt : ∀ slot, r.imported? = some slot → slot.index < r.sheets.length
  names : (r.slots.map fun slot => (r.sheet slot).name).Nodup
  relinks : ∀ link, r.link? = some link → r.tables = .ok link

theorem coherent_empty : Coherent empty := ⟨nofun, List.nodup_nil, nofun⟩

theorem Coherent.tabled (h : r.Coherent) {link : Link} (hlink : r.link? = some link) :
    Tabled r link :=
  tabled_of_tables (h.relinks link hlink)

/-- In a linked registry every registered stylesheet but the base extends the base, and the imported
one extends nothing. -/
theorem Coherent.superclass? (h : r.Coherent) {link : Link} (hlink : r.link? = some link)
    (hslot : slot.index < r.sheets.length) :
    r.superclass? slot = if slot ∈ r.slots ∧ slot ≠ link.base then some link.base else none := by
  rw [Registry.superclass?, hlink, Option.bind_some, (h.tabled hlink).superclasses slot hslot,
    Option.join_some]

/-- The order lists the registered stylesheets. -/
theorem Coherent.mem_order (h : r.Coherent) {slots : List Slot} (hslots : r.order = .ok slots) :
    slot ∈ slots ↔ slot ∈ r.slots := by
  rw [order, linked] at hslots
  cases hlink : r.link? with
  | none =>
    rw [hlink] at hslots
    cases hslots
  | some link =>
    have htabled := h.tabled hlink
    rw [hlink] at hslots
    rw [← Except.ok.inj hslots, htabled.order_eq, List.mem_cons, List.mem_filter, bne_iff_ne]
    constructor
    · rintro (rfl | ⟨hslot, -⟩)
      · exact htabled.base_mem
      · exact hslot
    · intro hslot
      by_cases heq : slot = link.base
      · exact .inl heq
      · exact .inr ⟨hslot, heq⟩

/-- The handle of a name is that of the last style of the name. -/
theorem Coherent.findStyle? (h : r.Coherent) {link : Link} (hlink : r.link? = some link)
    (hslot : slot.index < r.sheets.length) (name : String) :
    r.findStyle? slot name =
      (Suite.lastIndex? (r.sheet slot).styles name).map (StyleHandle.mk slot) := by
  rw [Registry.findStyle?, hlink, Option.bind_some, (h.tabled hlink).styles_eq, List.getElem?_map,
    getElem?_sheets hslot, Option.map_some, Option.bind_some, Stylesheet.lookup_styleTable]

/-! ## Adding stylesheets -/

section Adding

variable {t : Stylesheet} {imported? : Option Slot} {link? : Option Link}

theorem sheet_append (h : slot.index < r.sheets.length) :
    (⟨r.sheets ++ [t], imported?, link?⟩ : Registry).sheet slot = r.sheet slot := by
  rw [sheet, List.getElem?_append_left h, sheet]

theorem sheet_append_self :
    (⟨r.sheets ++ [t], imported?, link?⟩ : Registry).sheet ⟨r.sheets.length⟩ = t := by
  rw [sheet, List.getElem?_concat_length, Option.getD_some]

/-- A stylesheet that is registered gets the last slot. -/
theorem slots_append (h : r.Coherent) : (⟨r.sheets ++ [t], r.imported?, link?⟩ : Registry).slots =
    r.slots ++ [⟨r.sheets.length⟩] := by
  have hnew : (some (Slot.mk r.sheets.length) != r.imported?) = true :=
    bne_iff_ne.2 fun heq => Nat.lt_irrefl _ (h.imported_lt _ heq.symm)
  simp [slots, List.range_succ, List.filter_append, hnew]

/-- One that is imported gets a slot among no others. -/
theorem slots_append_imported (h : r.imported? = none) :
    (⟨r.sheets ++ [t], some ⟨r.sheets.length⟩, link?⟩ : Registry).slots = r.slots := by
  have hold : ∀ slot ∈ (List.range r.sheets.length).map Slot.mk,
      (some slot != some (Slot.mk r.sheets.length)) = (some slot != none) := fun slot hslot => by
    obtain ⟨i, hi, rfl⟩ := List.mem_map.1 hslot
    have hne : Slot.mk i ≠ ⟨r.sheets.length⟩ := fun heq =>
      (Nat.ne_of_lt (List.mem_range.1 hi)) (Slot.mk.inj heq)
    rw [bne_iff_ne.2 fun heq => hne (Option.some.inj heq), bne_iff_ne.2 (Option.some_ne_none _)]
  rw [slots, slots, h, List.length_append, List.length_singleton, List.range_succ, List.map_append,
    List.filter_append, List.filter_congr hold]
  simp

end Adding

/-! ## Changing stylesheets -/

section SetSheet

variable {t : Stylesheet}

@[simp] theorem length_setSheet (r : Registry) (slot : Slot) (t : Stylesheet) :
    (r.setSheet slot t).sheets.length = r.sheets.length := List.length_set

@[simp] theorem slots_setSheet (r : Registry) (slot : Slot) (t : Stylesheet) :
    (r.setSheet slot t).slots = r.slots := by
  rw [slots, slots, length_setSheet]
  rfl

theorem sheet_setSheet_self (h : slot.index < r.sheets.length) :
    (r.setSheet slot t).sheet slot = t := by
  rw [sheet, setSheet, List.getElem?_set_self h, Option.getD_some]

theorem sheet_setSheet_of_ne {other : Slot} (h : other ≠ slot) :
    (r.setSheet slot t).sheet other = r.sheet other := by
  have hindex : slot.index ≠ other.index := fun hindex =>
    h (by cases other; cases slot; exact congrArg Slot.mk hindex.symm)
  rw [sheet, setSheet, List.getElem?_set_ne hindex, sheet]

theorem setSheet_setSheet (r : Registry) (slot : Slot) (t u : Stylesheet) :
    (r.setSheet slot t).setSheet slot u = r.setSheet slot u := by
  rw [setSheet, setSheet, setSheet, List.set_set]

/-- What two stylesheets have in common, all stylesheets keep if the one takes the place of the
other. -/
theorem map_sheet_setSheet {α : Type} (f : Stylesheet → α) (h : slot.index < r.sheets.length)
    (hf : f t = f (r.sheet slot)) (other : Slot) :
    f ((r.setSheet slot t).sheet other) = f (r.sheet other) := by
  by_cases heq : other = slot
  · rw [heq, sheet_setSheet_self h, hf]
  · rw [sheet_setSheet_of_ne heq]

/-- The superclasses that are entered depend on the names and the superclasses of the stylesheets.
-/
theorem enterSuperclasses_congr {r r' : Registry} (hslots : r'.slots = r.slots)
    (hname : ∀ slot, (r'.sheet slot).name = (r.sheet slot).name)
    (hsuperclass : ∀ slot, (r'.sheet slot).superclass = (r.sheet slot).superclass) (base : Slot)
    (slots : List Slot) (table : List (Option Slot)) :
    r'.enterSuperclasses base slots table = r.enterSuperclasses base slots table := by
  have hfind : r'.find? = r.find? := funext fun name => by simp only [find?, hslots, hname]
  induction slots generalizing table with
  | nil => rfl
  | cons slot slots ih => simp only [enterSuperclasses, hsuperclass, hname, hfind, ih]

/-- A stylesheet with the name and the superclass of the one before leaves all tables as they are,
but that of its styles. -/
theorem tables_setSheet (h : slot.index < r.sheets.length) (hname : t.name = (r.sheet slot).name)
    (hsuperclass : t.superclass = (r.sheet slot).superclass) {link : Link}
    (hlink : r.tables = .ok link) :
    (r.setSheet slot t).tables =
      .ok { link with styles := (r.setSheet slot t).sheets.map Stylesheet.styleTable } := by
  obtain ⟨hbases, horder, hentries, -⟩ := tables_ok hlink
  have hbases' : (r.setSheet slot t).bases = r.bases := by
    simp only [bases, slots_setSheet, Stylesheet.isBase,
      map_sheet_setSheet Stylesheet.superclass h hsuperclass]
  have hentries' := enterSuperclasses_congr (slots_setSheet r slot t)
    (map_sheet_setSheet Stylesheet.name h hname)
    (map_sheet_setSheet Stylesheet.superclass h hsuperclass) link.base r.slots
    (List.replicate r.sheets.length none)
  unfold tables
  rw [hbases', hbases]
  dsimp only
  rw [slots_setSheet, length_setSheet, hentries', hentries, ← horder]

/-- The tables do not depend on those that are laid down. -/
theorem tables_withLink (r : Registry) (link? : Option Link) :
    ({ r with link? := link? } : Registry).tables = r.tables := by
  have hentries : ∀ base slots table,
      ({ r with link? := link? } : Registry).enterSuperclasses base slots table =
        r.enterSuperclasses base slots table :=
    enterSuperclasses_congr rfl (fun _ => rfl) (fun _ => rfl)
  have hbases : ({ r with link? := link? } : Registry).bases = r.bases := rfl
  unfold tables
  rw [hbases]
  split
  · rfl
  · rw [hentries]
    rfl
  · rfl

/-- A registry stays coherent with another stylesheet of the same name and superclass in a slot, if
the tables of styles follow. -/
theorem Coherent.withSheet (h : r.Coherent) (hslot : slot.index < r.sheets.length)
    (hname : t.name = (r.sheet slot).name) (hsuperclass : t.superclass = (r.sheet slot).superclass)
    {link? : Option Link} (hlink? : link? = r.link?.map fun link =>
      { link with styles := (r.setSheet slot t).sheets.map Stylesheet.styleTable }) :
    Coherent { r.setSheet slot t with link? := link? } where
  imported_lt other hother := by
    change other.index < (r.setSheet slot t).sheets.length
    rw [length_setSheet]
    exact h.imported_lt other hother
  names := by
    change ((r.setSheet slot t).slots.map fun other =>
      ((r.setSheet slot t).sheet other).name).Nodup
    rw [slots_setSheet, funext (map_sheet_setSheet Stylesheet.name hslot hname)]
    exact h.names
  relinks link hlink := by
    rw [tables_withLink]
    obtain ⟨link', hlink', rfl⟩ := Option.map_eq_some_iff.1 (hlink?.symm.trans hlink)
    exact tables_setSheet hslot hname hsuperclass (h.relinks link' hlink')

/-- Once its styles are entered anew, any stylesheet of the same name and superclass may take the
place of another one. -/
theorem Coherent.reindexed_setSheet (h : r.Coherent) (hslot : slot.index < r.sheets.length)
    (hname : t.name = (r.sheet slot).name)
    (hsuperclass : t.superclass = (r.sheet slot).superclass) :
    ((r.setSheet slot t).reindexed slot).Coherent := by
  refine h.withSheet hslot hname hsuperclass (Option.map_congr fun link hlink => ?_)
  rw [sheet_setSheet_self hslot, (h.tabled hlink).styles_eq, setSheet, List.map_set]

/-- One with the same names of styles may do so at once. -/
theorem Coherent.setSheet (h : r.Coherent) (hslot : slot.index < r.sheets.length)
    (hname : t.name = (r.sheet slot).name) (hsuperclass : t.superclass = (r.sheet slot).superclass)
    (hstyles : t.styles.map Style.name = (r.sheet slot).styles.map Style.name) :
    (r.setSheet slot t).Coherent := by
  refine h.withSheet hslot hname hsuperclass (?_ : r.link? = _)
  cases hlink : r.link? with
  | none => rfl
  | some link =>
    have htables : (r.setSheet slot t).sheets.map Stylesheet.styleTable =
        r.sheets.map Stylesheet.styleTable := by
      rw [Registry.setSheet, List.map_set, Stylesheet.styleTable_eq_of_names hstyles]
      refine List.ext_getElem? fun i => ?_
      by_cases hi : i = slot.index
      · subst hi
        rw [List.getElem?_set_self (by rwa [List.length_map]), List.getElem?_map,
          getElem?_sheets hslot, Option.map_some]
      · rw [List.getElem?_set_ne (Ne.symm hi)]
    rw [Option.map_some, htables, ← (h.tabled hlink).styles_eq]

end SetSheet

/-! ## Calls -/

theorem slots_setImported (r : Registry) (t : Stylesheet) :
    (r.setImported t).1.slots = r.slots := by
  unfold setImported
  split
  · next slot _ => exact slots_setSheet r slot t
  · next himported => exact slots_append_imported himported

/-- Setting the imported stylesheet leaves the registered ones as they are. -/
theorem sheet_setImported (hslot : slot ∈ r.slots) (t : Stylesheet) :
    (r.setImported t).1.sheet slot = r.sheet slot := by
  obtain ⟨hlt, hne⟩ := mem_slots.1 hslot
  unfold setImported
  split
  · next imported himported =>
    exact sheet_setSheet_of_ne fun heq => hne (by rw [heq, himported])
  · exact sheet_append hlt

/-- The imported stylesheet is found in its slot. -/
theorem setImported_spec (h : r.Coherent) (t : Stylesheet) :
    (r.setImported t).1.imported? = some (r.setImported t).2 ∧
      (r.setImported t).2.index < (r.setImported t).1.sheets.length ∧
        (r.setImported t).1.sheet (r.setImported t).2 = t := by
  unfold setImported
  split
  · next slot himported =>
    have hlt := h.imported_lt slot himported
    exact ⟨himported, hlt.trans_eq (length_setSheet r slot t).symm, sheet_setSheet_self hlt⟩
  · refine ⟨rfl, ?_, sheet_append_self⟩
    rw [List.length_append]
    exact Nat.lt_add_one _

theorem link?_setImported (r : Registry) (t : Stylesheet) : (r.setImported t).1.link? = none := by
  unfold setImported
  split <;> rfl

/-- A registry stays coherent when a stylesheet is registered. -/
theorem Coherent.register (h : r.Coherent) (t : Stylesheet) : (r.register t).1.Coherent := by
  unfold Registry.register
  split
  · exact h
  · next hfree =>
    refine ⟨fun slot hslot => ?_, ?_, nofun⟩
    · have hlt := h.imported_lt slot hslot
      rw [List.length_append]
      exact Nat.lt_add_right _ hlt
    · have hnames : ∀ slot ∈ r.slots, ((⟨r.sheets ++ [t], r.imported?, none⟩ : Registry).sheet
          slot).name = (r.sheet slot).name := fun slot hslot => by
        rw [sheet_append (mem_slots.1 hslot).1]
      rw [slots_append h, List.map_append, List.map_congr_left hnames, List.map_singleton,
        sheet_append_self]
      refine nodup_snoc h.names fun hmem => ?_
      obtain ⟨slot, hslot, hname⟩ := List.mem_map.1 hmem
      exact find?_eq_none.1 (Option.not_isSome_iff_eq_none.1 hfree) slot hslot hname

/-- A registry stays coherent when a stylesheet is imported. -/
theorem Coherent.setImported (h : r.Coherent) (t : Stylesheet) : (r.setImported t).1.Coherent where
  imported_lt slot hslot := by
    obtain ⟨himported, hlt, -⟩ := setImported_spec h t
    rwa [Option.some.inj (hslot.symm.trans himported)]
  names := by
    have hnames : ∀ slot ∈ r.slots, ((r.setImported t).1.sheet slot).name = (r.sheet slot).name :=
      fun slot hslot => by rw [sheet_setImported hslot]
    rw [slots_setImported, List.map_congr_left hnames]
    exact h.names
  relinks link hlink := by
    rw [link?_setImported] at hlink
    cases hlink

/-- A registry stays coherent when it is linked, whether linking fails or not. -/
theorem Coherent.link (h : r.Coherent) : r.link.1.Coherent := by
  unfold Registry.link
  split
  · next link hlink =>
    refine ⟨h.imported_lt, h.names, fun link' hlink' => ?_⟩
    rw [tables_withLink, ← Option.some.inj hlink', hlink]
  · exact h

end Registry

end Appearance
