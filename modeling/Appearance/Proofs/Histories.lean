import Appearance.Proofs.RegistryTables

/-!
# What a registry goes through

A registry comes about by calls: stylesheets are registered, the stylesheet of a framework is set,
the registry is linked. `Registry.step` is one call with its answer and `Registry.run` is any number
of calls. All calls leave a registry coherent (`Registry.Coherent.step`, `Registry.Coherent.run`).

A slot that was handed out is the slot of its stylesheet ever after. One that was registered stays
in it (`Registry.keeps_run`), and the imported one stays until the next one is set, in the same slot
(`Registry.imported_run`). The registered stylesheets are those whose slots were handed out for
them, in the order of the calls (`Registry.slots_run`).

What a linked registry knows of its stylesheets is so (`Registry.Knows`), after whatever calls it
came about (`Registry.after_calls`).
-/

namespace Appearance.Registry

variable {r : Registry} {slot : Slot}

/-! ## Calls -/

/-- A call that changes a registry. -/
inductive Call where
  | register (sheet : Stylesheet)
  | setImported (sheet : Stylesheet)
  | link

/-- The imported stylesheet after a call, if `t` was it before. -/
def Call.imported (t : Stylesheet) : Call → Stylesheet
  | setImported sheet => sheet
  | _ => t

/-- A call: the registry after it, and the slot that it hands out, if it hands one out, or why it
was refused. -/
def step (r : Registry) : Call → Registry × Except SuiteError (Option Slot)
  | .register sheet => ((r.register sheet).1, (r.register sheet).2.map some)
  | .setImported sheet => ((r.setImported sheet).1, .ok (some (r.setImported sheet).2))
  | .link => (r.link.1, r.link.2.map fun _ => none)

/-- Calls one after the other. -/
def run (r : Registry) (calls : List Call) : Registry :=
  calls.foldl (fun r call => (r.step call).1) r

/-- The slots that a call hands out for registered stylesheets. -/
def registeredBy (r : Registry) : Call → List Slot
  | .register sheet => (r.register sheet).2.toOption.toList
  | _ => []

/-- The slots that calls hand out for registered stylesheets, in order. -/
def registeredIn (r : Registry) : List Call → List Slot
  | [] => []
  | call :: calls => r.registeredBy call ++ registeredIn (r.step call).1 calls

/-! ## What every call keeps -/

theorem Coherent.step (h : r.Coherent) (call : Call) : (r.step call).1.Coherent := by
  cases call with
  | register sheet => exact h.register sheet
  | setImported sheet => exact h.setImported sheet
  | link => exact h.link

theorem Coherent.run (h : r.Coherent) (calls : List Call) : (r.run calls).Coherent := by
  induction calls generalizing r with
  | nil => exact h
  | cons call calls ih => exact ih (h.step call)

/-- Registering a stylesheet either finds its name taken, and then nothing changes, or gives it the
slot behind all others and drops the tables. -/
theorem register_cases (r : Registry) (t : Stylesheet) :
    (r.register t = (r, .error (.registeredTwice t.name)) ∧ (r.find? t.name).isSome = true) ∨
      (r.register t = (⟨r.sheets ++ [t], r.imported?, none⟩, .ok ⟨r.sheets.length⟩) ∧
        r.find? t.name = none) := by
  cases htaken : (r.find? t.name).isSome with
  | true => exact .inl ⟨if_pos htaken, rfl⟩
  | false =>
    refine .inr ⟨if_neg (by rw [htaken]; exact Bool.false_ne_true), ?_⟩
    exact Option.isNone_iff_eq_none.1 (Option.isSome_eq_false_iff.1 htaken)

/-- Linking changes no stylesheet. It either lays the tables down or leaves the registry as it
is. -/
theorem link_cases (r : Registry) :
    (∃ link, r.link = ({ r with link? := some link }, .ok ()) ∧ r.tables = .ok link) ∨
      ∃ e, r.link = (r, .error e) ∧ r.tables = .error e := by
  unfold link
  cases htables : r.tables with
  | ok link => exact .inl ⟨link, rfl, rfl⟩
  | error e => exact .inr ⟨e, rfl, rfl⟩

/-- A call that is refused changes nothing. -/
theorem step_eq_self_of_error {call : Call} {e : SuiteError} (h : (r.step call).2 = .error e) :
    (r.step call).1 = r := by
  cases call with
  | setImported sheet => cases h
  | register sheet =>
    rcases r.register_cases sheet with ⟨heq, -⟩ | ⟨heq, -⟩
    · rw [step, heq]
    · rw [step, heq] at h
      cases h
  | link =>
    rcases r.link_cases with ⟨link, heq, -⟩ | ⟨e, heq, -⟩
    · rw [step, heq] at h
      cases h
    · rw [step, heq]

/-! ## Slots -/

/-- A call hands out at most one slot, behind all others. -/
theorem slots_step (h : r.Coherent) (call : Call) :
    (r.step call).1.slots = r.slots ++ r.registeredBy call := by
  cases call with
  | setImported sheet => exact (slots_setImported r sheet).trans (List.append_nil _).symm
  | register sheet =>
    rcases r.register_cases sheet with ⟨heq, -⟩ | ⟨heq, -⟩
    · rw [step, registeredBy, heq]
      exact (List.append_nil _).symm
    · rw [step, registeredBy, heq]
      exact slots_append h
  | link =>
    rcases r.link_cases with ⟨link, heq, -⟩ | ⟨e, heq, -⟩ <;>
      · rw [step, heq]
        exact (List.append_nil _).symm

/-- The registered stylesheets are those that were registered, in the order of the calls. -/
theorem slots_run (h : r.Coherent) (calls : List Call) :
    (r.run calls).slots = r.slots ++ r.registeredIn calls := by
  induction calls generalizing r with
  | nil => exact (List.append_nil _).symm
  | cons call calls ih =>
    change ((r.step call).1.run calls).slots = _
    rw [ih (h.step call), slots_step h, registeredIn, List.append_assoc]

/-- A call leaves the registered stylesheets in the slots that were handed out. -/
theorem sheet_step (hslot : slot ∈ r.slots) (call : Call) :
    (r.step call).1.sheet slot = r.sheet slot := by
  cases call with
  | setImported sheet => exact sheet_setImported hslot sheet
  | register sheet =>
    rcases r.register_cases sheet with ⟨heq, -⟩ | ⟨heq, -⟩
    · rw [step, heq]
    · rw [step, heq]
      exact sheet_append (mem_slots.1 hslot).1
  | link =>
    rcases r.link_cases with ⟨link, heq, -⟩ | ⟨e, heq, -⟩
    · rw [step, heq]
      rfl
    · rw [step, heq]

/-- A registered stylesheet stays in its slot. -/
theorem keeps_run (h : r.Coherent) (hslot : slot ∈ r.slots) (calls : List Call) :
    slot ∈ (r.run calls).slots ∧ (r.run calls).sheet slot = r.sheet slot := by
  induction calls generalizing r with
  | nil => exact ⟨hslot, rfl⟩
  | cons call calls ih =>
    have hstep : slot ∈ (r.step call).1.slots := by
      rw [slots_step h]
      exact List.mem_append_left _ hslot
    obtain ⟨hmem, hsheet⟩ := ih (h.step call) hstep
    exact ⟨hmem, hsheet.trans (sheet_step hslot call)⟩

/-- A call leaves the slot of the imported stylesheet, and what is in it unless the call sets it.
-/
theorem imported_step (h : r.Coherent) (hslot : r.imported? = some slot) (call : Call) :
    (r.step call).1.imported? = some slot ∧
      (r.step call).1.sheet slot = call.imported (r.sheet slot) := by
  cases call with
  | setImported sheet =>
    have hkept : (r.setImported sheet).2 = slot := by rw [setImported, hslot]
    obtain ⟨himported, -, hsheet⟩ := setImported_spec h sheet
    rw [hkept] at himported hsheet
    exact ⟨himported, hsheet⟩
  | register sheet =>
    rcases r.register_cases sheet with ⟨heq, -⟩ | ⟨heq, -⟩
    · rw [step, heq]
      exact ⟨hslot, rfl⟩
    · rw [step, heq]
      exact ⟨hslot, sheet_append (h.imported_lt slot hslot)⟩
  | link =>
    rcases r.link_cases with ⟨link, heq, -⟩ | ⟨e, heq, -⟩ <;>
      · rw [step, heq]
        exact ⟨hslot, rfl⟩

/-- The slot of the imported stylesheet holds the one that was set last. -/
theorem imported_run (h : r.Coherent) (hslot : r.imported? = some slot) (calls : List Call) :
    (r.run calls).imported? = some slot ∧
      (r.run calls).sheet slot = calls.foldl Call.imported (r.sheet slot) := by
  induction calls generalizing r with
  | nil => exact ⟨hslot, rfl⟩
  | cons call calls ih =>
    obtain ⟨himported, hsheet⟩ := imported_step h hslot call
    rw [List.foldl_cons, ← hsheet]
    exact ih (h.step call) himported

/-! ## Linked registries -/

/-- What a linked registry knows. It has one base, first in the order, behind which the other
registered stylesheets come as they were registered; these extend the base. The tables have an entry
for each slot, and the handle of a name is that of a style of this name, if there is one. -/
structure Knows (r : Registry) (base : Slot) : Prop where
  base_eq : r.base = .ok base
  isBase_iff : ∀ slot ∈ r.slots, (r.sheet slot).isBase = true ↔ slot = base
  order_eq : r.order = .ok (base :: r.slots.filter (· != base))
  once : (base :: r.slots.filter (· != base)).Nodup
  mem_order : ∀ slot, slot ∈ base :: r.slots.filter (· != base) ↔ slot ∈ r.slots
  imported_not_mem : ∀ slot, r.imported? = some slot → slot ∉ base :: r.slots.filter (· != base)
  superclass?_eq : ∀ slot ∈ r.slots, r.superclass? slot = if slot = base then none else some base
  superclass_eq : ∀ slot ∈ r.slots, slot ≠ base →
    (r.sheet slot).superclass = some (r.sheet base).name
  entries : ∀ link, r.link? = some link →
    link.superclasses.length = r.sheets.length ∧ link.styles.length = r.sheets.length
  isSome_findStyle? : ∀ slot : Slot, slot.index < r.sheets.length → ∀ name,
    (r.findStyle? slot name).isSome = true ↔ ∃ style ∈ (r.sheet slot).styles, style.name = name
  style?_findStyle? : ∀ slot : Slot, slot.index < r.sheets.length → ∀ name handle,
    r.findStyle? slot name = some handle →
      handle.sheet = slot ∧ handle.index < (r.sheet slot).styles.length ∧
        ∃ style, r.style? handle = some style ∧ style.name = name

/-- A linked registry knows the relations between its stylesheets. -/
theorem Coherent.knows (h : r.Coherent) (hlinked : r.isLinked = true) : ∃ base, r.Knows base := by
  obtain ⟨link, hlink⟩ := Option.isSome_iff_exists.1 hlinked
  have htabled := h.tabled hlink
  have horder : r.order = .ok (link.base :: r.slots.filter (· != link.base)) := by
    rw [order, linked, hlink, ← htabled.order_eq]
    rfl
  have hmem : ∀ slot, slot ∈ link.base :: r.slots.filter (· != link.base) ↔ slot ∈ r.slots :=
    fun slot => h.mem_order horder
  refine ⟨link.base, ?base, htabled.isBase_iff, horder, ?once, hmem, ?imported, ?superclass?,
    htabled.extends_base, ?entries, ?isSome, ?style⟩
  case base => rw [base, linked, hlink]; rfl
  case once =>
    refine List.nodup_cons.2 ⟨fun hin => ?_, (nodup_slots r).filter _⟩
    exact bne_iff_ne.1 (List.mem_filter.1 hin).2 rfl
  case imported => exact fun slot himported hin => (mem_slots.1 ((hmem slot).1 hin)).2 himported
  case superclass? =>
    intro slot hslot
    rw [h.superclass? hlink (mem_slots.1 hslot).1]
    by_cases heq : slot = link.base
    · rw [if_neg fun hand => hand.2 heq, if_pos heq]
    · rw [if_pos ⟨hslot, heq⟩, if_neg heq]
  case entries =>
    intro link' hlink'
    have htabled' := h.tabled hlink'
    exact ⟨htabled'.length_superclasses, by rw [htabled'.styles_eq, List.length_map]⟩
  case isSome =>
    intro slot hslot name
    rw [h.findStyle? hlink hslot, Option.isSome_map, Suite.lastIndex?_isSome]
  case style =>
    intro slot hslot name handle hhandle
    rw [h.findStyle? hlink hslot] at hhandle
    obtain ⟨i, hi, rfl⟩ := Option.map_eq_some_iff.1 hhandle
    obtain ⟨style, hstyle, hname⟩ := Suite.lastIndex?_eq_some hi
    exact ⟨rfl, (List.getElem?_eq_some_iff.1 hstyle).1, style, hstyle, hname⟩

/-! ## Every history -/

/-- What holds of a registry, and of whatever it is called with next. -/
structure Sound (r : Registry) : Prop where
  /-- The names of the registered stylesheets are distinct. -/
  names : (r.slots.map fun slot => (r.sheet slot).name).Nodup
  /-- A call that is refused changes nothing. -/
  refused : ∀ call e, (r.step call).2 = .error e → (r.step call).1 = r
  /-- A stylesheet that is registered drops the tables. It gets a new slot and stays in it. -/
  registered : ∀ t newSlot, (r.register t).2 = .ok newSlot →
    (r.register t).1.isLinked = false ∧ r.sheets[newSlot.index]? = none ∧
      ∀ later, newSlot ∈ ((r.register t).1.run later).slots ∧
        ((r.register t).1.run later).sheet newSlot = t
  /-- So does the imported stylesheet. It gets the slot of the one before it, or a new one, which
  stays that of the imported stylesheet and holds the one that was set last. -/
  imported : ∀ t, (r.setImported t).1.isLinked = false ∧
    (∀ old, r.imported? = some old → (r.setImported t).2 = old) ∧
    (r.imported? = none → r.sheets[(r.setImported t).2.index]? = none) ∧
    ∀ later, ((r.setImported t).1.run later).imported? = some (r.setImported t).2 ∧
      ((r.setImported t).1.run later).sheet (r.setImported t).2 = later.foldl Call.imported t
  /-- Linking changes no stylesheet. The registry is linked after it only if it succeeded. -/
  linking : r.link.1.sheets = r.sheets ∧ r.link.1.imported? = r.imported? ∧
    (r.link.1.isLinked = true ↔ r.link.2 = .ok ())
  linked : r.isLinked = true → ∃ base, r.Knows base

/-- A coherent registry is sound. -/
theorem Coherent.sound (h : r.Coherent) : r.Sound where
  names := h.names
  refused _ _ := step_eq_self_of_error
  registered t newSlot hnew := by
    have hcoherent := h.register t
    rcases r.register_cases t with ⟨heq, -⟩ | ⟨heq, -⟩
    · rw [heq] at hnew
      cases hnew
    · rw [heq] at hnew hcoherent ⊢
      obtain rfl := Except.ok.inj hnew
      have hmem : (⟨r.sheets.length⟩ : Slot) ∈
          (⟨r.sheets ++ [t], r.imported?, none⟩ : Registry).slots := by
        rw [slots_append h]
        exact List.mem_append_right _ (List.mem_singleton_self _)
      refine ⟨rfl, List.getElem?_eq_none (Nat.le_refl _), fun later => ?_⟩
      obtain ⟨hkept, hsheet⟩ := keeps_run hcoherent hmem later
      exact ⟨hkept, hsheet.trans sheet_append_self⟩
  imported t := by
    obtain ⟨himported, -, hsheet⟩ := setImported_spec h t
    refine ⟨by rw [isLinked, link?_setImported]; rfl, fun old hold => ?_,
      fun hnone => ?_, fun later => ?_⟩
    · rw [Registry.setImported, hold]
    · rw [Registry.setImported, hnone]
      exact List.getElem?_eq_none (Nat.le_refl _)
    · obtain ⟨hkept, hlast⟩ := imported_run (h.setImported t) himported later
      exact ⟨hkept, hlast.trans (by rw [hsheet])⟩
  linking := by
    rcases r.link_cases with ⟨link, heq, -⟩ | ⟨e, heq, htables⟩
    · rw [heq]
      exact ⟨rfl, rfl, iff_of_true rfl rfl⟩
    · rw [heq]
      refine ⟨rfl, rfl, iff_of_false (fun hlinked => ?_) nofun⟩
      obtain ⟨link, hlink⟩ := Option.isSome_iff_exists.1 hlinked
      rw [h.relinks link hlink] at htables
      cases htables
  linked := h.knows

/-- After any calls on a new registry the registered stylesheets are those whose slots were handed
out for them, in this order. Names are distinct, slots stay what they are, and a change unlinks the
registry. A call that is refused changes nothing; so where linking fails, the registry is not linked
and has the stylesheets that it had. While it is linked, what it knows is so. -/
theorem after_calls (calls : List Call) :
    (empty.run calls).slots = empty.registeredIn calls ∧ (empty.run calls).Sound :=
  ⟨slots_run coherent_empty calls, (coherent_empty.run calls).sound⟩

/-- The imported stylesheet comes between the base and a theme, a second theme of the name is
refused, and after linking the imported stylesheet is set again. -/
def themedCalls : List Call :=
  [.register ⟨"Base", [.named "A" [], .named "B" [], .named "A" []], none, none, false, []⟩,
    .setImported (.named "Framework"), .register (.ofDeclaration "Dark:Base"),
    .register (.named "Dark"), .link, .setImported (.named "Toolbox"), .link]

/-- After these calls a style is found in each of the two registered stylesheets. -/
theorem after_themedCalls : empty.registeredIn themedCalls = [⟨0⟩, ⟨2⟩] ∧
    (empty.run themedCalls).slots = [⟨0⟩, ⟨2⟩] ∧
    (empty.run themedCalls).findStyle? ⟨0⟩ "A" = some ⟨⟨0⟩, 2⟩ ∧
    ((empty.run themedCalls).sheet ⟨1⟩).name = "Toolbox" ∧
    ∃ base, (empty.run themedCalls).Knows base :=
  ⟨by decide +kernel, by decide +kernel, by decide +kernel, by decide +kernel,
    (after_calls themedCalls).2.linked (by decide +kernel)⟩

/-- With a second base the registry is not linked again. -/
example : ((empty.run (themedCalls ++ [.register (.named "Other")])).step .link).1.isLinked =
    false := by decide +kernel

end Appearance.Registry
