import Appearance.Proofs.ExtensionOrder
import Appearance.Style.Declaration
import Mathlib.Data.List.Chain
import Mathlib.Logic.Relation
import Mathlib.Order.Basic

/-!
# Cycles of extension

In a list of styles one style `Extends` another if it gives the name of the other for a style of
its own stylesheet, and the other is the last one of that name. `Style.extensionOrder` fails if and
only if these links have a cycle: the order it gives has each style behind the one that it extends
(`Grounded.idxOf_lt_idxOf`), so links cannot lead back, and the names that it reports are those
along a cycle, cut from a climb that may have begun outside
(`exists_cycle_of_extensionOrder_error`).

A cycle is stated as a list of indices that are linked one by one and come back to the first, and
the reported names are those at its indices. That there is no order when there is a cycle needs no
look at the search: an order gives each style an index larger than that of the style it extends,
and such indices cannot go down forever. The other direction follows the climb up to its second
visit and cuts the way off in front of the first one.
-/

namespace Appearance.Style

open Relation (TransGen)

variable {styles : List Style} {i j : Nat} {e : SuiteError}

/-! ## Links -/

/-- The style at one index extends, within its stylesheet, the style at the other: the last one of
the name that it gives. -/
def Extends (styles : List Style) (i j : Nat) : Prop :=
  ∃ x name, styles[i]? = some x ∧ x.head.extendsImported = false ∧ x.head.superclass = some name ∧
    (∃ y, styles[j]? = some y ∧ y.name = name) ∧
    ∀ k z, styles[k]? = some z → z.name = name → k ≤ j

theorem localSuperclass?_eq_some {x : Style} {name : String} :
    x.localSuperclass? = some name ↔
      x.head.extendsImported = false ∧ x.head.superclass = some name := by
  unfold localSuperclass?
  cases x.head.extendsImported <;> simp

/-- A link leads to the last style of the name. -/
theorem extends_iff : Extends styles i j ↔ extendedIndex? styles i = some j := by
  rw [extendedIndex?, Option.bind_eq_some_iff]
  constructor
  · rintro ⟨x, name, hx, himported, hsuper, hj⟩
    refine ⟨name, Option.bind_eq_some_iff.2 ⟨x, hx, ?_⟩, Suite.lastIndex?_eq_some_iff.2 hj⟩
    exact localSuperclass?_eq_some.2 ⟨himported, hsuper⟩
  · rintro ⟨name, hname, hj⟩
    obtain ⟨x, hx, hlocal⟩ := Option.bind_eq_some_iff.1 hname
    obtain ⟨himported, hsuper⟩ := localSuperclass?_eq_some.1 hlocal
    exact ⟨x, name, hx, himported, hsuper, Suite.lastIndex?_eq_some_iff.1 hj⟩

theorem Extends.lt_length (h : Extends styles i j) : i < styles.length := by
  obtain ⟨x, -, hx, -⟩ := h
  exact (List.getElem?_eq_some_iff.1 hx).1

/-! ## Orders have no cycle -/

/-- In an order each style stands behind the one that it extends. -/
theorem Grounded.idxOf_lt_idxOf {l : List Nat} (h : Grounded styles l) (hi : i ∈ l)
    (hext : Extends styles i j) : l.idxOf j < l.idxOf i := by
  induction h with
  | nil => cases hi
  | @snoc l k _ _ hk hext' ih =>
    by_cases hil : i ∈ l
    · have hlt := ih hil
      have hj : j ∈ l := List.idxOf_lt_length_iff.1 (hlt.trans (List.idxOf_lt_length_iff.2 hil))
      rwa [List.idxOf_append_of_mem hj, List.idxOf_append_of_mem hil]
    · have hik : i = k := List.mem_singleton.1 ((List.mem_append.1 hi).resolve_left hil)
      subst hik
      have hj : j ∈ l := hext' j (extends_iff.1 hext)
      rw [List.idxOf_append_of_mem hj, List.idxOf_append_of_notMem hil]
      exact Nat.lt_add_right _ (List.idxOf_lt_length_iff.2 hj)

/-- The order of extension has each style behind the one that it extends. -/
theorem idxOf_lt_idxOf_of_extensionOrder {order : List Nat} (h : extensionOrder styles = .ok order)
    (hext : Extends styles i j) : order.idxOf j < order.idxOf i := by
  obtain ⟨hgrounded, hperm⟩ := extensionOrder_grounded h
  exact hgrounded.idxOf_lt_idxOf (hperm.mem_iff.2 (List.mem_range.2 hext.lt_length)) hext

/-- If there is an order, no links lead back. -/
theorem not_transGen_of_extensionOrder {order : List Nat} (h : extensionOrder styles = .ok order)
    (i : Nat) : ¬ TransGen (Extends styles) i i := by
  intro hcycle
  have hlt : ∀ j, TransGen (Extends styles) i j → order.idxOf j < order.idxOf i := by
    intro j hj
    induction hj with
    | single hext => exact idxOf_lt_idxOf_of_extensionOrder h hext
    | tail _ hext ih => exact (idxOf_lt_idxOf_of_extensionOrder h hext).trans ih
  exact Nat.lt_irrefl _ (hlt i hcycle)

/-! ## Cycles that are reported -/

/-- Indices of styles, each of one that extends that at the next index, and the last index is the
first one again. -/
structure ExtensionCycle (styles : List Style) (cycle : List Nat) : Prop where
  chain : cycle.IsChain (Extends styles)
  closed : cycle.head? = cycle.getLast?
  two_le_length : 2 ≤ cycle.length

/-- The names of the styles at indices, one for each. -/
def Named (styles : List Style) (indices : List Nat) (names : List String) : Prop :=
  List.Forall₂ (fun i name => ∃ x, styles[i]? = some x ∧ x.name = name) indices names

/-- The names at indices are those of their styles. -/
theorem named_namesAt {indices : List Nat} (h : ∀ i ∈ indices, i < styles.length) :
    Named styles indices (namesAt styles indices) := by
  induction indices with
  | nil => exact .nil
  | cons i indices ih =>
    rw [List.forall_mem_cons] at h
    have hi : styles[i]? = some styles[i] := List.getElem?_eq_getElem h.1
    have hnames : namesAt styles (i :: indices) = styles[i].name :: namesAt styles indices := by
      simp [namesAt, hi]
    rw [hnames]
    exact .cons ⟨_, hi, rfl⟩ (ih h.2)

/-- A chain of links is a way. -/
theorem transGen_of_isChain {i j : Nat} {l : List Nat}
    (h : (i :: (l ++ [j])).IsChain (Extends styles)) : TransGen (Extends styles) i j := by
  induction l generalizing i with
  | nil => exact .single (List.isChain_cons_cons.1 h).1
  | cons k l ih =>
    rw [List.cons_append, List.isChain_cons_cons] at h
    exact .head h.1 (ih h.2)

/-- A cycle leads from some style back to it. -/
theorem ExtensionCycle.exists_transGen {cycle : List Nat} (h : ExtensionCycle styles cycle) :
    ∃ i, TransGen (Extends styles) i i := by
  obtain ⟨hchain, hclosed, hlength⟩ := h
  match cycle with
  | i :: j :: l =>
    -- the last index, split off, is the first one
    have hne : j :: l ≠ [] := List.cons_ne_nil j l
    have hlast : (j :: l).getLast hne = i := by
      rw [List.head?_cons, List.getLast?_cons_cons, List.getLast?_eq_some_getLast hne] at hclosed
      exact (Option.some.inj hclosed).symm
    rw [← List.dropLast_append_getLast hne, hlast] at hchain
    exact ⟨i, transGen_of_isChain hchain⟩

/-- A chain that comes back to an index that it has met is a cycle from there on. -/
theorem extensionCycle_dropWhile {path : List Nat} (hi : i ∈ path)
    (hchain : (path ++ [i]).IsChain (Extends styles)) :
    ExtensionCycle styles (path.dropWhile (· != i) ++ [i]) := by
  obtain ⟨rest, hrest⟩ : ∃ rest, path.dropWhile (· != i) = i :: rest := by
    induction path with
    | nil => cases hi
    | cons k path ih =>
      rw [List.dropWhile_cons]
      split
      · next hk =>
        have hne : i ≠ k := fun hik => by simp [hik] at hk
        exact ih ((List.mem_cons.1 hi).resolve_left hne)
          (List.isChain_cons.1 hchain).2
      · next hk =>
        have hik : k = i := by simpa using hk
        exact ⟨path, by rw [hik]⟩
  have hsuffix : path.dropWhile (· != i) ++ [i] <:+ path ++ [i] :=
    (List.suffix_append_inj_of_length_eq rfl).2 ⟨List.dropWhile_suffix _, rfl⟩
  refine ⟨hchain.suffix hsuffix, ?_, ?_⟩
  · rw [hrest, List.getLast?_concat]
    rfl
  · rw [hrest]
    simp

/-- A climb fails on a cycle, if the way up to where it stands is a chain. -/
theorem exists_cycle_of_climb_error {done path : List Nat} {steps : Nat} {next : Option Nat}
    (h : climb styles done steps path next = .error e)
    (hchain : (path ++ next.toList).IsChain (Extends styles))
    (hlt : ∀ i ∈ path ++ next.toList, i < styles.length) :
    ∃ cycle names, e = .extensionCycle names ∧ Named styles cycle names ∧
      ExtensionCycle styles cycle := by
  induction steps generalizing path next with
  | zero => cases h
  | succ steps ih =>
    cases next with
    | none => cases h
    | some i =>
      rw [climb] at h
      split at h
      · cases h
      split at h
      · next hi =>
        cases h
        refine ⟨_, _, rfl, named_namesAt fun k hk => hlt k ?_, extensionCycle_dropWhile hi hchain⟩
        rcases List.mem_append.1 hk with hk | hk
        · exact List.mem_append_left _ ((List.dropWhile_suffix _).subset hk)
        · exact List.mem_append_right _ hk
      · refine ih h ?_ ?_
        · -- the link to the next index, if there is one, makes the chain longer
          cases hnext : extendedIndex? styles i with
          | none => simpa using hchain
          | some j =>
            refine List.isChain_append.2 ⟨hchain, List.isChain_singleton j, fun k hk l hl => ?_⟩
            obtain rfl : i = k := by simpa using hk
            obtain rfl : j = l := by simpa using hl
            exact extends_iff.2 hnext
        · intro k hk
          rcases List.mem_append.1 hk with hk | hk
          · exact hlt k hk
          · exact lt_length_of_extendedIndex? (Option.mem_toList.1 hk)

/-- The names that are reported are those along a cycle. -/
theorem exists_cycle_of_extensionOrder_error (h : extensionOrder styles = .error e) :
    ∃ cycle names, e = .extensionCycle names ∧ Named styles cycle names ∧
      ExtensionCycle styles cycle := by
  obtain ⟨i, hi, order, -, hadd⟩ :=
    exists_of_foldlM_eq_error (p := fun _ => True) (fun _ _ _ _ _ _ => trivial) trivial h
  unfold addToOrder at hadd
  split at hadd
  · cases hadd
  · next e' hclimb =>
    cases hadd
    refine exists_cycle_of_climb_error hclimb (List.isChain_singleton i) fun k hk => ?_
    rw [List.mem_singleton.1 hk]
    exact List.mem_range.1 hi

/-- The order of extension exists if and only if no style leads back to itself. It lists the index
of every style once, behind that of the style it extends; without an order there is a cycle, and its
names are reported. -/
theorem extensionOrder_sorts (styles : List Style) :
    ((∃ order, extensionOrder styles = .ok order) ↔ ∀ i, ¬ TransGen (Extends styles) i i) ∧
      (∀ order, extensionOrder styles = .ok order →
        order.Perm (List.range styles.length) ∧
          ∀ i j, Extends styles i j → order.idxOf j < order.idxOf i) ∧
      ∀ e, extensionOrder styles = .error e →
        ∃ cycle names, e = .extensionCycle names ∧ Named styles cycle names ∧
          ExtensionCycle styles cycle := by
  refine ⟨⟨fun ⟨order, h⟩ => not_transGen_of_extensionOrder h, fun hacyclic => ?_⟩,
    fun order h => ⟨(extensionOrder_grounded h).2, fun i j =>
      idxOf_lt_idxOf_of_extensionOrder h⟩,
    fun e => exists_cycle_of_extensionOrder_error⟩
  cases h : extensionOrder styles with
  | ok order => exact ⟨order, rfl⟩
  | error e =>
    obtain ⟨cycle, -, -, -, hcycle⟩ := exists_cycle_of_extensionOrder_error h
    obtain ⟨i, hi⟩ := hcycle.exists_transGen
    exact absurd hi (hacyclic i)

/-- The first style extends the second one of a name, and this one of the imported stylesheet. -/
def straightStyles : List Style :=
  ["A extends B", "B", "C extends A", "B extends S.A"].map (ofDeclaration · [])

/-- The climb from the first style meets the cycle in its second step. -/
def twistedStyles : List Style :=
  ["A extends B", "B extends C", "C extends B"].map (ofDeclaration · [])

/-- Four styles in order, and as many with a cycle. -/
theorem extensionOrder_sorts_straight_twisted :
    (extensionOrder straightStyles = .ok [3, 0, 1, 2] ∧
      [3, 0, 1, 2].Perm (List.range straightStyles.length)) ∧
    extensionOrder twistedStyles = .error (.extensionCycle ["B", "C", "B"]) ∧
      ∃ cycle names, SuiteError.extensionCycle ["B", "C", "B"] = .extensionCycle names ∧
        Named twistedStyles cycle names ∧ ExtensionCycle twistedStyles cycle :=
  have hstraight : extensionOrder straightStyles = .ok [3, 0, 1, 2] := by rfl
  have htwisted : extensionOrder twistedStyles = .error (.extensionCycle ["B", "C", "B"]) := by rfl
  ⟨⟨hstraight, ((extensionOrder_sorts straightStyles).2.1 _ hstraight).1⟩, htwisted,
    (extensionOrder_sorts twistedStyles).2.2 _ htwisted⟩

end Appearance.Style
