import Appearance.Proofs.Order
import Mathlib.Data.List.Find

/-!
# Nested styles

A style holds styles at any depth. `Style.induction` is the induction over that nesting and
`Style.All` says that something holds of a style and of everything nested in it; `Style.Heads` says
it of the heads, and of each head and the one around it. What the passes of resolution do to the
properties of one level is written with `List.map` and `Property.mapStyle`, so that lemmas on lists
apply.

`Style.Distinct` is what is promised of the names in a style, `Style.InOrder` what sorting
achieves.

The induction has one case: a style whose nested styles all have what is to be shown. The lemmas on
`Style.All` and `Style.Heads` unfold one level of it (`Style.all_iff`, `Style.heads_iff`), so a
proof that follows the nesting states what one level does and nothing else.
-/

namespace Appearance

/-- A function on styles, applied to a nested style; a value stays as it is. -/
def Property.mapStyle (f : Style → Style) : Property → Property
  | .leaf head value => .leaf head value
  | .nested head style => .nested head (f style)

namespace Property

@[simp] theorem mapStyle_leaf (f : Style → Style) (h : PropertyHead) (v : Value) :
    (leaf h v).mapStyle f = leaf h v := rfl

@[simp] theorem mapStyle_nested (f : Style → Style) (h : PropertyHead) (s : Style) :
    (nested h s).mapStyle f = nested h (f s) := rfl

@[simp] theorem key_mapStyle (f : Style → Style) (p : Property) : (p.mapStyle f).key = p.key := by
  cases p <;> rfl

@[simp] theorem style?_mapStyle (f : Style → Style) (p : Property) :
    (p.mapStyle f).style? = p.style?.map f := by
  cases p <;> rfl

theorem mapStyle_mapStyle (f g : Style → Style) (p : Property) :
    (p.mapStyle f).mapStyle g = p.mapStyle (g ∘ f) := by
  cases p <;> rfl

theorem style?_eq_some {p : Property} {s : Style} : p.style? = some s ↔ ∃ k, p = nested k s := by
  cases p <;> simp [style?]

end Property

namespace Style

/-! ## Induction over the nesting -/

/-- What holds of a style as soon as it holds of the styles nested in it holds of every style. -/
@[elab_as_elim]
theorem induction {motive : Style → Prop}
    (mk : ∀ h ps, (∀ k n, Property.nested k n ∈ ps → motive n) → motive (mk h ps)) (s : Style) :
    motive s := by
  refine @Style.rec motive (fun p => ∀ k n, p = .nested k n → motive n)
    (fun ps => ∀ k n, Property.nested k n ∈ ps → motive n) mk ?_ ?_ ?_ ?_ s
  · intro h v k n hp
    cases hp
  · intro h s ih k n hp
    cases hp
    exact ih
  · intro k n hn
    cases hn
  · intro p ps hp hps k n hn
    rcases List.mem_cons.1 hn with hn | hn
    · exact hp k n hn.symm
    · exact hps k n hn

/-- The nested styles are those of the properties that are styles. -/
theorem mem_nestedStyles {s n : Style} :
    n ∈ s.nestedStyles ↔ ∃ k, Property.nested k n ∈ s.properties := by
  simp only [nestedStyles, List.mem_filterMap, Property.style?_eq_some]
  constructor
  · rintro ⟨p, hp, k, rfl⟩
    exact ⟨k, hp⟩
  · rintro ⟨k, hk⟩
    exact ⟨_, hk, k, rfl⟩

/-- The same induction over the nested styles as a list. -/
@[elab_as_elim]
theorem nestedInduction {motive : Style → Prop}
    (step : ∀ s, (∀ n ∈ s.nestedStyles, motive n) → motive s) (s : Style) : motive s := by
  induction s using induction with
  | mk h ps ih =>
    refine step _ fun n hn => ?_
    obtain ⟨k, hk⟩ := mem_nestedStyles.1 hn
    exact ih k n hk

theorem nestedStyles_mk (h : StyleHead) (ps : List Property) :
    (mk h ps).nestedStyles = ps.filterMap Property.style? := rfl

theorem nestedStyles_map (h : StyleHead) (f : Style → Style) (ps : List Property) :
    (mk h (ps.map (Property.mapStyle f))).nestedStyles = (mk h ps).nestedStyles.map f := by
  rw [nestedStyles_mk, nestedStyles_mk, List.filterMap_map, List.map_filterMap]
  exact List.filterMap_congr fun p _ => Property.style?_mapStyle f p

theorem nested?_mem {s n : Style} {name : String} (h : s.nested? name = some n) :
    n ∈ s.nestedStyles ∧ n.name = name :=
  ⟨List.mem_of_find?_eq_some h, by simpa using List.find?_some h⟩

/-! ## What holds at every depth -/

mutual

/-- Something holds of a style and of everything nested in it. -/
def All (p : Style → Prop) : Style → Prop
  | mk head properties => p (mk head properties) ∧ AllIn p properties

/-- A predicate on the styles nested in properties, at every depth. -/
def AllIn (p : Style → Prop) : List Property → Prop
  | [] => True
  | .leaf .. :: ps => AllIn p ps
  | .nested _ style :: ps => All p style ∧ AllIn p ps

end

mutual

/-- What is decided of a style can be decided of all that is nested in it. -/
def decidableAll (p : Style → Prop) [DecidablePred p] : ∀ s, Decidable (All p s)
  | mk head properties =>
    have : Decidable (AllIn p properties) := decidableAllIn p properties
    decidable_of_iff (p (mk head properties) ∧ AllIn p properties) (by rw [All])

def decidableAllIn (p : Style → Prop) [DecidablePred p] : ∀ ps, Decidable (AllIn p ps)
  | [] => .isTrue trivial
  | .leaf _ _ :: ps =>
    have : Decidable (AllIn p ps) := decidableAllIn p ps
    decidable_of_iff (AllIn p ps) (by rw [AllIn])
  | .nested _ style :: ps =>
    have : Decidable (All p style) := decidableAll p style
    have : Decidable (AllIn p ps) := decidableAllIn p ps
    decidable_of_iff (All p style ∧ AllIn p ps) (by rw [AllIn])

end

instance (p : Style → Prop) [DecidablePred p] (s : Style) : Decidable (s.All p) := decidableAll p s

variable {p q : Style → Prop}

/-- What holds in all properties holds of the nested styles among them. -/
theorem allIn_iff {ps : List Property} :
    AllIn p ps ↔ ∀ k n, Property.nested k n ∈ ps → n.All p := by
  induction ps with
  | nil => simp [AllIn]
  | cons head ps ih =>
    cases head with
    | leaf => simp [AllIn, ih]
    | nested k s =>
      simp only [AllIn, ih, List.mem_cons]
      constructor
      · rintro ⟨hs, hps⟩ k' n (h | h)
        · cases h
          exact hs
        · exact hps k' n h
      · exact fun h => ⟨h k s (Or.inl rfl), fun k' n hn => h k' n (Or.inr hn)⟩

theorem all_mk {h : StyleHead} {ps : List Property} :
    (mk h ps).All p ↔ p (mk h ps) ∧ ∀ k n, Property.nested k n ∈ ps → n.All p := by
  rw [All, allIn_iff]

/-- What holds at every depth holds of the style and at every depth of what is nested in it. -/
theorem all_iff {s : Style} : s.All p ↔ p s ∧ ∀ n ∈ s.nestedStyles, n.All p := by
  obtain ⟨h, ps⟩ := s
  rw [all_mk]
  refine and_congr Iff.rfl ⟨fun hs n hn => ?_, fun hs k n hn => ?_⟩
  · obtain ⟨k, hk⟩ := mem_nestedStyles.1 hn
    exact hs k n hk
  · exact hs n (mem_nestedStyles.2 ⟨k, hn⟩)

theorem All.self {s : Style} (h : s.All p) : p s := (all_iff.1 h).1

theorem All.nested {s n : Style} (h : s.All p) (hn : n ∈ s.nestedStyles) : n.All p :=
  (all_iff.1 h).2 n hn

theorem All.imp {s : Style} (h : s.All p) (hpq : ∀ u, p u → q u) : s.All q := by
  induction s using Style.induction with
  | mk head ps ih =>
    rw [all_mk] at h ⊢
    exact ⟨hpq _ h.1, fun k n hn => ih k n hn (h.2 k n hn)⟩

theorem All.and {s : Style} (hp : s.All p) (hq : s.All q) : s.All fun u => p u ∧ q u := by
  induction s using nestedInduction with
  | step s ih =>
    exact all_iff.2 ⟨⟨hp.self, hq.self⟩, fun n hn => ih n hn (hp.nested hn) (hq.nested hn)⟩

theorem All.of_forall (hp : ∀ u, p u) (s : Style) : s.All p := by
  induction s using nestedInduction with
  | step s ih => exact all_iff.2 ⟨hp s, ih⟩

/-! ## Distinct names -/

/-- The keys of the properties and the names of the nested styles are distinct at every depth. -/
def Distinct (s : Style) : Prop :=
  s.All fun u => (u.properties.map Property.key).Nodup ∧ (u.nestedStyles.map Style.name).Nodup

instance (s : Style) : Decidable s.Distinct := inferInstanceAs (Decidable (s.All _))

/-- The names of the nested styles are distinct at every depth. -/
def NestedDistinct (s : Style) : Prop := s.All fun u => (u.nestedStyles.map Style.name).Nodup

instance (s : Style) : Decidable s.NestedDistinct := inferInstanceAs (Decidable (s.All _))

theorem Distinct.nestedDistinct {s : Style} (h : s.Distinct) : s.NestedDistinct :=
  All.imp h fun _ hu => hu.2

/-! ### Heads -/

section Heads

/-- The heads at every depth meet `p`, and that of a nested style stands in the relation `r` to that
of the style around it. -/
def Heads (p : StyleHead → Prop) (r : StyleHead → StyleHead → Prop) (s : Style) : Prop :=
  s.All fun u => p u.head ∧ ∀ n ∈ u.nestedStyles, r u.head n.head

variable {p p' : StyleHead → Prop} {r r' : StyleHead → StyleHead → Prop} {s : Style}

/-- The heads of a style are its own, those nested in it, and each is related to the one around. -/
theorem heads_iff :
    s.Heads p r ↔ p s.head ∧ ∀ n ∈ s.nestedStyles, r s.head n.head ∧ n.Heads p r := by
  rw [Heads, all_iff, and_assoc]
  refine and_congr Iff.rfl ⟨fun h n hn => ⟨h.1 n hn, h.2 n hn⟩, fun h => ⟨fun n hn => (h n hn).1,
    fun n hn => (h n hn).2⟩⟩

theorem heads_mk {h : StyleHead} {ps : List Property} :
    (mk h ps).Heads p r ↔
      p h ∧ ∀ k n, Property.nested k n ∈ ps → r h n.head ∧ n.Heads p r := by
  rw [heads_iff]
  refine and_congr Iff.rfl ⟨fun hs k n hn => ?_, fun hs n hn => ?_⟩
  · exact hs n (mem_nestedStyles.2 ⟨k, hn⟩)
  · obtain ⟨k, hk⟩ := mem_nestedStyles.1 hn
    exact hs k n hk

/-- The heads alone. -/
theorem heads_true_iff : (s.Heads p fun _ _ => True) ↔ s.All fun u => p u.head :=
  ⟨fun h => All.imp h fun _ hu => hu.1, fun h => All.imp h fun _ hu => ⟨hu, fun _ _ => trivial⟩⟩

/-- Statements on heads may be replaced by what follows from them. -/
theorem Heads.imp (h : s.Heads p r) (hp : ∀ u, p u → p' u)
    (hr : ∀ u n, p u → p n → r u n → r' u n) : s.Heads p' r' := by
  induction s using nestedInduction with
  | step s ih =>
    rw [heads_iff] at h ⊢
    refine ⟨hp _ h.1, fun n hn => ⟨?_, ih n hn (h.2 n hn).2⟩⟩
    exact hr _ _ h.1 (heads_iff.1 (h.2 n hn).2).1 (h.2 n hn).1

theorem Heads.and (h : s.Heads p r) (h' : s.Heads p' r') :
    s.Heads (fun u => p u ∧ p' u) fun u n => r u n ∧ r' u n :=
  All.imp (All.and h h') fun _ hu =>
    ⟨⟨hu.1.1, hu.2.1⟩, fun n hn => ⟨hu.1.2 n hn, hu.2.2 n hn⟩⟩

/-- Of the outermost head only matters what the relation says of it. -/
theorem Heads.withHead (h : s.Heads p r) {head : StyleHead} (hp : p head)
    (hr : ∀ n, r s.head n → r head n) : (s.withHead head).Heads p r :=
  heads_iff.2 ⟨hp, fun n hn => ⟨hr n.head ((heads_iff.1 h).2 n hn).1, ((heads_iff.1 h).2 n hn).2⟩⟩

end Heads

/-! ## Sorted styles -/

theorem sortedEach_eq (ps : List Property) :
    sortedEach ps = ps.map (Property.mapStyle sorted) := by
  induction ps with
  | nil => simp [sortedEach]
  | cons p ps ih => cases p <;> simp [sortedEach, ih]

theorem sorted_mk (h : StyleHead) (ps : List Property) :
    (mk h ps).sorted = mk h ((ps.map (Property.mapStyle sorted)).mergeSort keyLE) := by
  rw [sorted, sortedEach_eq]

@[simp] theorem head_sorted (s : Style) : s.sorted.head = s.head := by
  obtain ⟨h, ps⟩ := s
  rw [sorted_mk]
  rfl

@[simp] theorem name_sorted (s : Style) : s.sorted.name = s.name := by
  rw [name, head_sorted, name]

theorem properties_sorted (s : Style) :
    s.sorted.properties = (s.properties.map (Property.mapStyle sorted)).mergeSort keyLE := by
  obtain ⟨h, ps⟩ := s
  rw [sorted_mk]
  rfl

theorem nestedStyles_sorted_perm (s : Style) :
    s.sorted.nestedStyles.Perm (s.nestedStyles.map sorted) := by
  obtain ⟨h, ps⟩ := s
  rw [sorted_mk, ← nestedStyles_map]
  exact (List.mergeSort_perm _ _).filterMap _

/-- Sorting by key does not move the first property of a key. -/
theorem property?_sorted (s : Style) (key : String) :
    s.sorted.property? key = (s.property? key).map (Property.mapStyle sorted) := by
  rw [property?, property?, properties_sorted, keyLE_eq_byText, find?_mergeSort, List.find?_map]
  refine congrArg (Option.map _) (List.find?_congr fun p _ => ?_)
  simp only [Function.comp_apply, Property.key_mapStyle]

/-- The nested style of a name is found after sorting, too. -/
theorem nested?_sorted {s : Style} (h : (s.nestedStyles.map Style.name).Nodup) (name : String) :
    s.sorted.nested? name = (s.nested? name).map sorted := by
  have hperm := s.nestedStyles_sorted_perm
  have hnodup : (s.sorted.nestedStyles.map Style.name).Nodup := by
    rw [(hperm.map Style.name).nodup_iff, List.map_map]
    simpa [Function.comp_def] using h
  rw [nested?, find?_perm_of_nodup hnodup hperm, List.find?_map, nested?]
  simp

/-- What sorting makes of one level, it makes of every depth. -/
theorem All.sorted (hpq : ∀ u, p u → q u.sorted) {s : Style} (h : s.All p) : s.sorted.All q := by
  induction s using nestedInduction with
  | step s ih =>
    refine all_iff.2 ⟨hpq s h.self, fun n hn => ?_⟩
    obtain ⟨m, hm, rfl⟩ := List.mem_map.1 ((nestedStyles_sorted_perm s).mem_iff.1 hn)
    exact ih m hm (h.nested hm)

theorem Heads.sorted {p : StyleHead → Prop} {r : StyleHead → StyleHead → Prop} {s : Style}
    (h : s.Heads p r) : s.sorted.Heads p r := by
  refine All.sorted (fun u hu => ⟨by rw [head_sorted]; exact hu.1, fun n hn => ?_⟩) h
  obtain ⟨m, hm, rfl⟩ := List.mem_map.1 ((nestedStyles_sorted_perm u).mem_iff.1 hn)
  rw [head_sorted, head_sorted]
  exact hu.2 m hm

theorem NestedDistinct.sorted {s : Style} (h : s.NestedDistinct) : s.sorted.NestedDistinct := by
  refine All.sorted (fun u hu => ?_) h
  have hperm := (nestedStyles_sorted_perm u).map name
  rw [List.map_map, show name ∘ Style.sorted = name from funext name_sorted] at hperm
  exact hperm.nodup_iff.2 hu

/-- The properties are sorted by key at every depth. -/
def InOrder (s : Style) : Prop :=
  s.All fun u => u.properties.Pairwise fun p q => keyLE p q = true

theorem inOrder_sorted (s : Style) : s.sorted.InOrder := by
  refine All.sorted (fun u _ => ?_) (All.of_forall (fun _ => trivial) s)
  rw [properties_sorted]
  exact pairwise_sort Property.key _

/-- Sorting leaves a sorted style as it is. -/
theorem sorted_eq_self {s : Style} (h : s.InOrder) : s.sorted = s := by
  induction s using Style.induction with
  | mk head ps ih =>
    rw [InOrder, all_mk] at h
    have hmap : ps.map (Property.mapStyle sorted) = ps := by
      refine (List.map_congr_left fun p hp => ?_).trans (List.map_id ps)
      cases p with
      | leaf => rfl
      | nested k n => exact congrArg (Property.nested k) (ih k n hp (h.2 k n hp))
    rw [sorted_mk, hmap, keyLE_eq_byText, sort_eq_self Property.key (l := ps) h.1]

end Style

end Appearance
