import Appearance.Proofs.Lookup
import Appearance.Proofs.Runs
import Appearance.Suite.Extension
import Mathlib.Data.List.Nodup
import Mathlib.Data.List.Perm.Subperm

/-!
# The order of extension is an order

`Style.extensionOrder` climbs from style to extended style. What it finds is `Grounded`: each index
stands in it once, and behind the index of the style that it extends (`extensionOrder_grounded`).
The climb never runs out of steps, as it goes over different indices (`climb_ok`).

`Grounded` is an inductive predicate on the list, read from its end: an index may be added if it is
that of a style, is not in the list yet, and what its style extends is. A single climb adds a
stretch of indices at once, so `Climbs` describes such a stretch, and `Climbs.grounded` is the step
that the induction over all styles repeats. The bound on steps is the usual one, different indices
below a length are not more than the length. Nothing is said here about failures; those are in
`Proofs.ExtensionCycles`.
-/

namespace Appearance.Style

variable {styles : List Style}

/-- Each index of the list is one of a style, stands once, and stands behind the index of the style
that it extends. -/
inductive Grounded (styles : List Style) : List Nat → Prop
  | nil : Grounded styles []
  | snoc {l : List Nat} {i : Nat} : Grounded styles l → i < styles.length → i ∉ l →
    (∀ j, extendedIndex? styles i = some j → j ∈ l) → Grounded styles (l ++ [i])

theorem Grounded.nodup {l : List Nat} (h : Grounded styles l) : l.Nodup := by
  induction h with
  | nil => exact List.nodup_nil
  | snoc _ _ hi _ ih => exact nodup_snoc ih hi

/-- The order has indices of styles only. -/
theorem Grounded.lt_length {l : List Nat} (h : Grounded styles l) : ∀ i ∈ l, i < styles.length := by
  induction h with
  | nil => simp
  | snoc _ hlt _ _ ih =>
    intro j hj
    rcases List.mem_append.1 hj with hj | hj
    · exact ih j hj
    · rw [List.mem_singleton.1 hj]
      exact hlt

/-! ## Climbing -/

/-- The indices that a climb from an index on adds to those that are done. -/
inductive Climbs (styles : List Style) (done : List Nat) : Option Nat → List Nat → Prop
  | stop : Climbs styles done none []
  | known {i : Nat} : i ∈ done → Climbs styles done (some i) []
  | step {i : Nat} {rest : List Nat} : i ∉ done → i < styles.length →
    Climbs styles done (extendedIndex? styles i) rest → Climbs styles done (some i) (i :: rest)

/-- The last index of a name is the index of a style. -/
theorem lt_length_of_lastIndex? {name : String} {i : Nat}
    (h : Suite.lastIndex? styles name = some i) : i < styles.length := by
  rw [Suite.lastIndex?, Option.map_eq_some_iff] at h
  obtain ⟨j, hj, rfl⟩ := h
  obtain ⟨hlt, -⟩ := List.findIdx?_eq_some_iff_getElem.1 hj
  rw [List.length_reverse] at hlt
  omega

theorem lt_length_of_extendedIndex? {i j : Nat} (h : extendedIndex? styles i = some j) :
    j < styles.length := by
  obtain ⟨name, -, hj⟩ := Option.bind_eq_some_iff.1 h
  exact lt_length_of_lastIndex? hj

theorem length_le_of_nodup {l : List Nat} {n : Nat} (hl : l.Nodup) (h : ∀ i ∈ l, i < n) :
    l.length ≤ n := by
  have := (List.subperm_of_subset hl fun i hi => List.mem_range.2 (h i hi)).length_le
  rwa [List.length_range] at this

/-- A climb that finds no cycle goes on to its end. -/
theorem climb_ok {done path found : List Nat} {steps : Nat} {next : Option Nat}
    (h : climb styles done steps path next = .ok found) (hpath : path.Nodup)
    (hlt : ∀ i ∈ path, i < styles.length) (hnext : ∀ i ∈ next, i < styles.length)
    (hsteps : path.length + steps = styles.length + 1) :
    ∃ rest, found = path ++ rest ∧ found.Nodup ∧ Climbs styles done next rest := by
  induction steps generalizing path next with
  | zero =>
    -- more different indices than styles
    have := length_le_of_nodup hpath hlt
    omega
  | succ steps ih =>
    cases next with
    | none =>
      cases h
      exact ⟨[], (List.append_nil _).symm, hpath, .stop⟩
    | some i =>
      rw [climb] at h
      split at h
      · next hi =>
        cases h
        exact ⟨[], (List.append_nil _).symm, hpath, .known hi⟩
      · next hi =>
        split at h
        · cases h
        · next hnot =>
          have hpath' : (path ++ [i]).Nodup := nodup_snoc hpath hnot
          have hlt' : ∀ j ∈ path ++ [i], j < styles.length := by
            intro j hj
            rcases List.mem_append.1 hj with hj | hj
            · exact hlt j hj
            · rw [List.mem_singleton.1 hj]
              exact hnext i rfl
          obtain ⟨rest, rfl, hnodup, hrest⟩ := ih h hpath' hlt'
            (fun j hj => lt_length_of_extendedIndex? hj) (by simp; omega)
          exact ⟨i :: rest, List.append_assoc path [i] rest, hnodup,
            .step hi (hnext i rfl) hrest⟩

theorem Climbs.mem {done rest : List Nat} {i : Nat} (h : Climbs styles done (some i) rest) :
    i ∈ done ++ rest.reverse := by
  cases h with
  | known hi => exact List.mem_append_left _ hi
  | step => exact List.mem_append_right _ (by simp)

/-- What a climb adds, the farthest first, keeps an order grounded. -/
theorem Climbs.grounded {done rest : List Nat} {next : Option Nat}
    (h : Climbs styles done next rest) (hrest : rest.Nodup) (hdone : Grounded styles done) :
    Grounded styles (done ++ rest.reverse) := by
  induction h with
  | stop => simpa using hdone
  | known => simpa using hdone
  | @step i rest hi hlt hclimb ih =>
    rw [List.nodup_cons] at hrest
    rw [List.reverse_cons, ← List.append_assoc]
    refine .snoc (ih hrest.2) hlt ?_ fun j hj => ?_
    · rw [List.mem_append, List.mem_reverse, not_or]
      exact ⟨hi, hrest.1⟩
    · rw [hj] at hclimb
      exact hclimb.mem

/-! ## The order -/

/-- Adding a style adds those that it extends in front of it. -/
theorem addToOrder_ok {order order' : List Nat} {i : Nat}
    (h : addToOrder styles order i = .ok order') (hi : i < styles.length)
    (horder : Grounded styles order) :
    Grounded styles order' ∧ order ⊆ order' ∧ i ∈ order' := by
  unfold addToOrder at h
  split at h
  · next found hfound =>
    cases h
    obtain ⟨rest, rfl, hnodup, hrest⟩ := climb_ok hfound List.nodup_nil (by simp)
      (by simpa using hi) (by simp)
    exact ⟨hrest.grounded hnodup horder, List.subset_append_left _ _, hrest.mem⟩
  · cases h

/-- Adding all styles gives an order that has all of them. -/
theorem foldlM_addToOrder_ok {order order' indices : List Nat}
    (h : indices.foldlM (addToOrder styles) order = .ok order')
    (hindices : ∀ i ∈ indices, i < styles.length) (horder : Grounded styles order) :
    Grounded styles order' ∧ order ⊆ order' ∧ indices ⊆ order' := by
  induction indices generalizing order with
  | nil =>
    cases h
    exact ⟨horder, List.Subset.refl _, List.nil_subset _⟩
  | cons i indices ih =>
    rw [List.foldlM_cons] at h
    obtain ⟨next, hadd, h⟩ := bind_eq_ok.1 h
    obtain ⟨hnext, hsub, hi⟩ := addToOrder_ok hadd (hindices i List.mem_cons_self) horder
    obtain ⟨hlast, hsub', hrest⟩ :=
      ih h (fun j hj => hindices j (List.mem_cons_of_mem i hj)) hnext
    exact ⟨hlast, fun j hj => hsub' (hsub hj), List.cons_subset.2 ⟨hsub' hi, hrest⟩⟩

/-- The order of extension has the index of every style once, behind that of the style it
extends. -/
theorem extensionOrder_grounded {order : List Nat} (h : extensionOrder styles = .ok order) :
    Grounded styles order ∧ order.Perm (List.range styles.length) := by
  obtain ⟨hg, -, hall⟩ := foldlM_addToOrder_ok h (fun i => List.mem_range.1) .nil
  refine ⟨hg, (List.perm_ext_iff_of_nodup hg.nodup List.nodup_range).2 fun i => ?_⟩
  exact ⟨fun hi => List.mem_range.2 (hg.lt_length i hi), fun hi => hall hi⟩

/-! ## What the order depends on -/

section Map

variable {f : Style → Style} (hname : ∀ x, (f x).name = x.name)
  (hsuper : ∀ x, (f x).localSuperclass? = x.localSuperclass?)

include hname

theorem lastIndex?_map (styles : List Style) (name : String) :
    Suite.lastIndex? (styles.map f) name = Suite.lastIndex? styles name := by
  rw [Suite.lastIndex?, Suite.lastIndex?, ← List.map_reverse, List.findIdx?_map, List.length_map]
  simp only [Function.comp_def, hname]

include hsuper

theorem extendedIndex?_map (styles : List Style) (i : Nat) :
    extendedIndex? (styles.map f) i = extendedIndex? styles i := by
  rw [extendedIndex?, extendedIndex?, List.getElem?_map, Option.bind_map,
    funext (lastIndex?_map hname styles)]
  simp only [Function.comp_def, hsuper]

/-- A climb depends on what the styles extend and on nothing else of them. -/
theorem climb_map (styles : List Style) (done : List Nat) (steps : Nat) (path : List Nat)
    (next : Option Nat) :
    climb (styles.map f) done steps path next = climb styles done steps path next := by
  have hnames : ∀ l, namesAt (styles.map f) l = namesAt styles l := fun l => by
    simp only [namesAt, List.getElem?_map, Option.map_map, Function.comp_def, hname]
  induction steps generalizing path next with
  | zero => rfl
  | succ steps ih =>
    cases next with
    | none => rfl
    | some i => simp only [climb, hnames, extendedIndex?_map hname hsuper, ih]

/-- The order of extension depends on the names of styles and on what they extend. -/
theorem extensionOrder_map (styles : List Style) :
    extensionOrder (styles.map f) = extensionOrder styles := by
  have hadd : addToOrder (styles.map f) = addToOrder styles := by
    funext order i
    simp only [addToOrder, climb_map hname hsuper, List.length_map]
  rw [extensionOrder, extensionOrder, hadd, List.length_map]

end Map

end Appearance.Style
