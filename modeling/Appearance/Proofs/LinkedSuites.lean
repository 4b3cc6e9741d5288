import Appearance.Proofs.Preparation
import Appearance.Proofs.Runs

/-!
# Linked suites

A suite that was linked has one base, which all others extend (`Suite.basedOn_of_linked`). The base
comes first in the order of its stylesheets, and `Suite.baseId` knows it (`Suite.basedOn_baseId`).
So whatever a pass asks of a linked suite about the relations between its stylesheets is answered by
the choice of the base alone.

`BasedOn` gathers what linking checks and what the order of the suite is into one structure, in
which the base is a place. Proofs take it as a hypothesis and never mention the function that
linked, so they hold for a suite however it came to be linked. The relation is kept by the passes,
since these change neither names nor superclasses of stylesheets.
-/

namespace Appearance.Suite

/-- The base is the one registered stylesheet that extends none, and all others extend it; the base
comes first in the order, then the others as they were registered. -/
structure BasedOn (s : Suite) (base : SheetId) : Prop where
  isBase_iff : ∀ id ∈ s.ids, (s.sheet id).isBase = true ↔ id = base
  order : s.order = .ok (base :: s.ids.filter (· != base))
  once : (base :: s.ids.filter (· != base)).Nodup
  mem_order : ∀ id, id ∈ base :: s.ids.filter (· != base) ↔
    ∃ i < s.registered.length, id = .registered i
  superclass? : ∀ id ∈ s.ids, s.superclass? id = if id = base then none else some base
  superclass : ∀ id ∈ s.ids, id ≠ base → (s.sheet id).superclass = some (s.sheet base).name

/-- A stylesheet that passes the check extends none, or the base by its name. -/
theorem name_eq_of_checkSuperclass {s : Suite} {b : Nat} {u : Stylesheet} {name : String}
    (h : s.checkSuperclass b u = .ok ()) (hname : u.superclass = some name) :
    (s.sheet (.registered b)).name = name := by
  rw [checkSuperclass, hname] at h
  dsimp only at h
  split at h
  · cases h
  · next id hid =>
    split at h
    · next heq =>
      obtain ⟨i, hi, hplace⟩ := Option.map_eq_some_iff.1 hid
      obtain ⟨hlt, hmatch, -⟩ := List.findIdx?_eq_some_iff_getElem.1 hi
      obtain rfl : i = b := SheetId.registered.inj (hplace.trans heq)
      rw [sheet_registered hlt]
      exact beq_iff_eq.1 hmatch
    · cases h

/-- All stylesheets of a linked suite but one extend this one. -/
theorem basedOn_of_linked {s l : Suite} (h : s.linked = .ok l) : ∃ base, BasedOn l base := by
  obtain ⟨b, hb, rfl, hbase⟩ := linked_ok h
  have hmem : SheetId.registered b ∈ s.ids := mem_ids.2 ⟨b, hb, rfl⟩
  have hcheck : ∀ u ∈ s.registered, s.checkSuperclass b u = .ok () := by
    unfold linked at h
    rw [hbase] at h
    dsimp only at h
    split at h
    · next hall => exact forall_mem_of_forM hall
    · cases h
  have hiff : ∀ id ∈ s.ids, (s.sheet id).isBase = true ↔ id = .registered b := by
    intro id hid
    obtain ⟨i, hi, rfl⟩ := mem_ids.1 hid
    have hindices : i ∈ s.baseIndices ↔ (s.sheet (.registered i)).isBase = true := by
      rw [baseIndices, List.mem_filter, List.mem_range, and_iff_right hi]
    rw [← hindices, hbase, List.mem_singleton, SheetId.registered.injEq]
  refine ⟨.registered b, hiff, rfl, nodup_order _ _, fun id => ?_, fun id hid => ?_,
    fun id hid hne => ?_⟩
  · rw [← mem_ids, List.mem_cons, List.mem_filter, bne_iff_ne]
    constructor
    · rintro (rfl | ⟨hid, -⟩)
      · exact hmem
      · exact hid
    · intro hid
      by_cases hne : id = .registered b
      · exact .inl hne
      · exact .inr ⟨hid, hne⟩
  · obtain ⟨i, -, rfl⟩ := mem_ids.1 hid
    simp only [Suite.superclass?, SheetId.registered.injEq]
  · have hnone : (s.sheet id).isBase ≠ true := fun hbase => hne ((hiff id hid).1 hbase)
    cases hsup : (s.sheet id).superclass with
    | none => exact absurd (by rw [Stylesheet.isBase, hsup]; rfl) hnone
    | some name =>
      have hname := name_eq_of_checkSuperclass (hcheck _ (sheet_mem hid)) hsup
      rw [show ({ s with base? := some b } : Suite).sheet id = s.sheet id from rfl, hsup, ← hname]
      rfl

/-- All stylesheets but the one that a linked suite knows as its base extend this. -/
theorem basedOn_baseId {s l : Suite} {base : SheetId} (hlinked : s.linked = .ok l)
    (hb : l.baseId = .ok base) : BasedOn l base ∧ base ∈ l.ids := by
  obtain ⟨base', hbased⟩ := basedOn_of_linked hlinked
  have horder := hbased.order
  rw [order, hb] at horder
  obtain rfl := (List.cons.inj (Except.ok.inj horder)).1
  exact ⟨hbased, mem_ids.2 ((hbased.mem_order base).1 List.mem_cons_self)⟩

end Appearance.Suite
