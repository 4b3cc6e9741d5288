import Appearance.Sheet.Basic
import Mathlib.Data.List.Forall2
import Mathlib.Data.List.Nodup

/-!
# Sorting by a text

Styles are sorted by name and properties by key. Both sorts are stable, so a sorted list is fixed
by its sublists of equal keys (`mergeSort_eq_iff_filter`), and the first element of a key is the
same before and after (`find?_mergeSort`).

The second half is about lists that are related one by one. Stylesheets that differ by the order of
keys, and those before and after a pass, are related in this way, and what is looked up in them is
then related, too.

All of this is independent of styles and values, and it is the only place where `List.mergeSort` is
taken apart. The characterization by sublists of equal keys replaces arguments about sorting by
arguments about filters: to show that two lists are sorted alike one shows that they agree key by
key, in the order within a key. Where keys are distinct that is a statement about membership, and a
permutation is enough.
-/

namespace Appearance

/-! ## The order of texts -/

theorem textLE_trans {a b c : String} (hab : Value.textLE a b = true)
    (hbc : Value.textLE b c = true) : Value.textLE a c = true :=
  Std.TransCmp.isLE_trans hab hbc

theorem textLE_total (a b : String) : (Value.textLE a b || Value.textLE b a) = true := by
  have h : compare b a = (compare a b).swap := Std.OrientedCmp.eq_swap
  unfold Value.textLE
  rw [h]
  cases compare a b <;> rfl

theorem textLE_antisymm {a b : String} (hab : Value.textLE a b = true)
    (hba : Value.textLE b a = true) : a = b :=
  Std.LawfulEqCmp.eq_of_compare (Std.OrientedCmp.isLE_antisymm hab hba)

/-- The order of elements by a text. -/
def byText {α : Type} (key : α → String) (a b : α) : Bool := Value.textLE (key a) (key b)

theorem keyLE_eq_byText : Style.keyLE = byText Property.key := rfl

theorem nameLE_eq_byText : Stylesheet.nameLE = byText Style.name := rfl

/-! ## Stable sorts -/

section Sorting

variable {α β : Type} (key : α → String)

theorem byText_trans (a b c : α) (hab : byText key a b = true) (hbc : byText key b c = true) :
    byText key a c = true :=
  textLE_trans hab hbc

theorem byText_total (a b : α) : (byText key a b || byText key b a) = true :=
  textLE_total (key a) (key b)

theorem pairwise_sort (l : List α) :
    (l.mergeSort (byText key)).Pairwise fun a b => byText key a b = true :=
  List.pairwise_mergeSort (byText_trans key) (byText_total key) l

/-- A stable sort keeps the order of elements that may stand in either order. -/
theorem filter_mergeSort_of_le {le : α → α → Bool}
    (htrans : ∀ a b c, le a b = true → le b c = true → le a c = true)
    (htotal : ∀ a b, (le a b || le b a) = true) {p : α → Bool}
    (hp : ∀ a b, p a = true → p b = true → le a b = true) (l : List α) :
    (l.mergeSort le).filter p = l.filter p := by
  have hsorted : (l.filter p).Pairwise fun a b => le a b = true :=
    List.pairwise_of_forall_mem_list fun a ha b hb =>
      hp a b (List.mem_filter.1 ha).2 (List.mem_filter.1 hb).2
  have hsub := (List.sublist_mergeSort htrans htotal hsorted List.filter_sublist).filter p
  simp only [List.filter_filter, Bool.and_self] at hsub
  have hlen := ((List.mergeSort_perm l le).filter p).length_eq
  exact (hsub.eq_of_length hlen.symm).symm

/-- Elements of one key keep their order. -/
theorem filter_mergeSort (l : List α) (k : String) :
    (l.mergeSort (byText key)).filter (key · == k) = l.filter (key · == k) := by
  refine filter_mergeSort_of_le (byText_trans key) (byText_total key) (fun a b ha hb => ?_) l
  have hab : key a = key b := by simp_all
  simpa [byText, hab] using textLE_total (key b) (key b)

theorem find?_mergeSort (l : List α) (k : String) :
    (l.mergeSort (byText key)).find? (key · == k) = l.find? (key · == k) := by
  rw [← List.head?_filter, ← List.head?_filter, filter_mergeSort]

/-- Sorted lists with the same elements of each key are equal. -/
theorem eq_of_pairwise_of_filter {l m : List α}
    (hl : l.Pairwise fun a b => byText key a b = true)
    (hm : m.Pairwise fun a b => byText key a b = true)
    (h : ∀ k, l.filter (key · == k) = m.filter (key · == k)) : l = m := by
  induction l generalizing m with
  | nil =>
    cases m with
    | nil => rfl
    | cons b m => simpa using h (key b)
  | cons a l ih =>
    cases m with
    | nil => simpa using h (key a)
    | cons b m =>
      rw [List.pairwise_cons] at hl hm
      -- each head is a least element of the common elements, so the keys agree
      have hb : b ∈ a :: l := by
        have : b ∈ (a :: l).filter (key · == key b) := by rw [h (key b)]; simp
        exact (List.mem_filter.1 this).1
      have ha : a ∈ b :: m := by
        have : a ∈ (b :: m).filter (key · == key a) := by rw [← h (key a)]; simp
        exact (List.mem_filter.1 this).1
      have hkey : key a = key b := by
        rcases List.mem_cons.1 ha with rfl | ham
        · rfl
        · rcases List.mem_cons.1 hb with rfl | hbl
          · rfl
          · exact textLE_antisymm (hl.1 b hbl) (hm.1 a ham)
      have hab : a = b := by
        have := h (key a)
        simp only [List.filter_cons, beq_self_eq_true, if_true, ← hkey] at this
        exact (List.cons.inj this).1
      subst hab
      refine congrArg (a :: ·) (ih hl.2 hm.2 fun k => ?_)
      have := h k
      simp only [List.filter_cons] at this
      split at this
      · exact (List.cons.inj this).2
      · exact this

/-- Two lists are sorted to one list if and only if they agree key by key. -/
theorem mergeSort_eq_iff_filter {l m : List α} :
    l.mergeSort (byText key) = m.mergeSort (byText key) ↔
      ∀ k, l.filter (key · == k) = m.filter (key · == k) := by
  constructor
  · intro h k
    rw [← filter_mergeSort key l, h, filter_mergeSort]
  · intro h
    refine eq_of_pairwise_of_filter key (pairwise_sort key l) (pairwise_sort key m) fun k => ?_
    rw [filter_mergeSort, filter_mergeSort, h]

/-- Sorting commutes with a function that keeps keys. -/
theorem map_sort (key' : β → String) {f : α → β} (hf : ∀ a, key' (f a) = key a) (l : List α) :
    (l.mergeSort (byText key)).map f = (l.map f).mergeSort (byText key') :=
  List.map_mergeSort fun a _ b _ => by simp only [byText, hf]

theorem sort_eq_self {l : List α} (h : l.Pairwise fun a b => byText key a b = true) :
    l.mergeSort (byText key) = l :=
  List.mergeSort_of_pairwise h

end Sorting

/-! ## Lists with distinct keys -/

section Distinct

variable {α : Type} {key : α → String}

theorem nodup_snoc {l : List α} {a : α} (hl : l.Nodup) (ha : a ∉ l) : (l ++ [a]).Nodup := by
  rw [← List.concat_eq_append]
  exact hl.concat ha

/-- With distinct keys an element is found under its own key. -/
theorem find?_eq_some_of_nodup {l : List α} (hl : (l.map key).Nodup) {a : α} (ha : a ∈ l) :
    l.find? (key · == key a) = some a := by
  induction l with
  | nil => simp at ha
  | cons b l ih =>
    rw [List.map_cons, List.nodup_cons] at hl
    rcases List.mem_cons.1 ha with rfl | hal
    · simp
    · have hne : key b ≠ key a := fun h => hl.1 (h ▸ List.mem_map_of_mem hal)
      rw [List.find?_cons_of_neg (by simpa using hne)]
      exact ih hl.2 hal

/-- With distinct keys the order does not matter to a search for a key. -/
theorem find?_perm_of_nodup {l m : List α} (hl : (l.map key).Nodup) (h : l.Perm m) (k : String) :
    l.find? (key · == k) = m.find? (key · == k) := by
  have hm : (m.map key).Nodup := (h.map key).nodup_iff.1 hl
  cases hf : m.find? (key · == k) with
  | none =>
    rw [List.find?_eq_none] at hf ⊢
    exact fun a ha => hf a (h.mem_iff.1 ha)
  | some a =>
    obtain rfl : key a = k := by simpa using List.find?_some hf
    exact find?_eq_some_of_nodup hl (h.mem_iff.2 (List.mem_of_find?_eq_some hf))

theorem eq_of_mem_of_nodup {l : List α} (hl : (l.map key).Nodup) {a b : α} (ha : a ∈ l)
    (hb : b ∈ l) (h : key a = key b) : a = b := by
  have := find?_eq_some_of_nodup hl ha
  rw [h, find?_eq_some_of_nodup hl hb] at this
  exact (Option.some.inj this).symm

/-- Collecting the elements of a list by their keys, from another order of it. -/
theorem filterMap_find?_of_perm {l m : List α} (hm : (m.map key).Nodup) (h : l.Perm m) :
    (m.map key).filterMap (fun k => l.find? (key · == k)) = m := by
  rw [List.filterMap_map]
  refine (List.filterMap_congr fun a ha => ?_).trans List.filterMap_some
  rw [Function.comp_apply, ← find?_perm_of_nodup hm h.symm, find?_eq_some_of_nodup hm ha]

/-- At most one element has a key. -/
theorem length_filter_le_one {l : List α} (hl : (l.map key).Nodup) (k : String) :
    (l.filter (key · == k)).length ≤ 1 := by
  have hcount : (l.filter (key · == k)).length = (l.map key).count k := by
    rw [List.count, List.countP_map, ← List.countP_eq_length_filter]
    rfl
  rw [hcount]
  exact List.nodup_iff_count_le_one.1 hl k

/-- Lists with distinct keys and the same elements are sorted into the same list. -/
theorem sort_eq_of_perm {l m : List α} (hl : (l.map key).Nodup) (h : l.Perm m) :
    l.mergeSort (byText key) = m.mergeSort (byText key) := by
  rw [mergeSort_eq_iff_filter]
  intro k
  have hperm := h.filter (key · == k)
  have hle := length_filter_le_one hl k
  match hf : l.filter (key · == k) with
  | [] => rw [hf] at hperm; exact hperm.symm.eq_nil.symm
  | [a] => rw [hf] at hperm; exact (List.perm_singleton.1 hperm.symm).symm
  | _ :: _ :: _ => simp [hf] at hle

end Distinct

/-! ## Related lists -/

section Related

variable {α β : Type} {R : α → β → Prop}

/-- In lists that are related element by element, the searches for a key have related results. -/
theorem rel_find?_of_forall₂ (key : α → String) (key' : β → String) {l : List α} {m : List β}
    (h : List.Forall₂ R l m) (hkey : ∀ a b, R a b → key a = key' b) (k : String) :
    Option.Rel R (l.find? (key · == k)) (m.find? (key' · == k)) := by
  induction h with
  | nil => exact .none
  | @cons a b l m hab _ ih =>
    by_cases hk : key a = k
    · have hk' : key' b = k := (hkey a b hab).symm.trans hk
      simpa [List.find?_cons, hk, hk'] using Option.Rel.some hab
    · have hk' : key' b ≠ k := fun h => hk ((hkey a b hab).trans h)
      simpa [List.find?_cons, hk, hk'] using ih

theorem option_rel_refl {R : α → α → Prop} (h : ∀ a, R a a) (o : Option α) : Option.Rel R o o := by
  cases o with
  | none => exact .none
  | some a => exact .some (h a)

theorem option_rel_imp {S : α → β → Prop} {a : Option α} {b : Option β} (h : Option.Rel R a b)
    (hRS : ∀ x ∈ a, ∀ y, R x y → S x y) : Option.Rel S a b := by
  cases h with
  | none => exact .none
  | some hxy => exact .some (hRS _ rfl _ hxy)

/-- Every element on the right is related to one on the left. -/
theorem exists_mem_of_forall₂ {l : List α} {m : List β} (h : List.Forall₂ R l m) {b : β}
    (hb : b ∈ m) : ∃ a ∈ l, R a b := by
  induction h with
  | nil => cases hb
  | @cons a _ _ _ hab _ ih =>
    rcases List.mem_cons.1 hb with rfl | hb
    · exact ⟨a, List.mem_cons_self, hab⟩
    · obtain ⟨c, hc, hcb⟩ := ih hb
      exact ⟨c, List.mem_cons_of_mem _ hc, hcb⟩

/-- A list that is related to two parts has two parts. -/
theorem exists_of_forall₂_append {l l' : List α} {m : List β} (h : List.Forall₂ R (l ++ l') m) :
    ∃ n n', m = n ++ n' ∧ List.Forall₂ R l n ∧ List.Forall₂ R l' n' := by
  induction l generalizing m with
  | nil => exact ⟨[], m, rfl, .nil, h⟩
  | cons a l ih =>
    cases h with
    | cons hab hrest =>
      obtain ⟨n, n', rfl, hn, hn'⟩ := ih hrest
      exact ⟨_ :: n, n', rfl, .cons hab hn, hn'⟩

/-- Related lists are related through a third one. -/
theorem forall₂_trans {γ : Type} {S : β → γ → Prop} {T : α → γ → Prop} {l : List α} {m : List β}
    {n : List γ} (h : List.Forall₂ R l m) (h' : List.Forall₂ S m n)
    (hT : ∀ a ∈ l, ∀ b c, R a b → S b c → T a c) : List.Forall₂ T l n := by
  induction h generalizing n with
  | nil =>
    cases h'
    exact .nil
  | @cons a b l m hab _ ih =>
    cases h' with
    | cons hbc hrest =>
      exact .cons (hT a List.mem_cons_self b _ hab hbc)
        (ih hrest fun c hc => hT c (List.mem_cons_of_mem a hc))

/-- A relation need only be replaced for the elements at hand. -/
theorem forall₂_imp_of_mem {S : α → β → Prop} {l : List α} {m : List β}
    (h : List.Forall₂ R l m) (hS : ∀ a ∈ l, ∀ b ∈ m, R a b → S a b) : List.Forall₂ S l m := by
  induction h with
  | nil => exact .nil
  | @cons a b l m hab _ ih =>
    exact .cons (hS a List.mem_cons_self b List.mem_cons_self hab) (ih fun c hc d hd =>
      hS c (List.mem_cons_of_mem a hc) d (List.mem_cons_of_mem b hd))

/-- Lists with equal images under two functions agree under both element by element. -/
theorem forall₂_of_map_eq {γ δ : Type} {f : α → γ} {g : α → δ} {l m : List α}
    (hf : m.map f = l.map f) (hg : m.map g = l.map g) :
    List.Forall₂ (fun a b => f b = f a ∧ g b = g a) l m := by
  have h : m.map (fun a => (f a, g a)) = l.map fun a => (f a, g a) := by
    rw [← List.zip_map', ← List.zip_map', hf, hg]
  rw [← List.forall₂_eq_eq_eq, List.forall₂_map_left_iff, List.forall₂_map_right_iff] at h
  exact h.flip.imp fun a b hab => ⟨(Prod.mk.inj hab).1, (Prod.mk.inj hab).2⟩

theorem forall₂_toList {a : Option α} {b : Option β} (h : Option.Rel R a b) :
    List.Forall₂ R a.toList b.toList := by
  cases h with
  | some hab => exact .cons hab .nil
  | none => exact .nil

/-- Related lists stay so when related elements are put at one place. -/
theorem forall₂_set {l : List α} {m : List β} (h : List.Forall₂ R l m) {a : α} {b : β}
    (hab : R a b) (i : Nat) : List.Forall₂ R (l.set i a) (m.set i b) := by
  induction h generalizing i with
  | nil => exact .nil
  | cons hcd hrest ih =>
    cases i with
    | zero => exact .cons hab hrest
    | succ i => exact .cons hcd (ih i)

/-- Related lists have related elements at each place. -/
theorem rel_getElem?_of_forall₂ {l : List α} {m : List β} (h : List.Forall₂ R l m) (i : Nat) :
    Option.Rel R l[i]? m[i]? := by
  induction h generalizing i with
  | nil => exact .none
  | cons hab _ ih =>
    cases i with
    | zero => exact .some hab
    | succ i => simpa using ih i

theorem map_eq_of_forall₂ {γ : Type} {f : α → γ} {g : β → γ} {l : List α} {m : List β}
    (h : List.Forall₂ R l m) (hfg : ∀ a b, R a b → f a = g b) : l.map f = m.map g := by
  induction h with
  | nil => rfl
  | cons hab _ ih => rw [List.map_cons, List.map_cons, hfg _ _ hab, ih]

theorem map_eq_of_rel {γ : Type} {f : α → γ} {g : β → γ} {a : Option α} {b : Option β}
    (h : Option.Rel R a b) (hfg : ∀ x ∈ a, ∀ y, R x y → f x = g y) : a.map f = b.map g := by
  cases h with
  | some hxy => exact congrArg some (hfg _ rfl _ hxy)
  | none => rfl

end Related

/-- Where one function tells as much as another, equal images under the first are equal under the
second. -/
theorem map_eq_of_map_eq {α β γ : Type} {f : α → β} {g : α → γ} {l m : List α}
    (h : l.map f = m.map f) (hfg : ∀ a ∈ l, ∀ b ∈ m, f a = f b → g a = g b) :
    l.map g = m.map g := by
  induction l generalizing m with
  | nil =>
    cases m with
    | nil => rfl
    | cons b m => cases h
  | cons a l ih =>
    cases m with
    | nil => cases h
    | cons b m =>
      rw [List.map_cons, List.map_cons, List.cons.injEq] at h
      rw [List.map_cons, List.map_cons, hfg a List.mem_cons_self b List.mem_cons_self h.1,
        ih h.2 fun c hc d hd => hfg c (List.mem_cons_of_mem _ hc) d (List.mem_cons_of_mem _ hd)]

end Appearance
