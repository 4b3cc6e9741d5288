import Appearance.Code.File
import Appearance.Proofs.Ascent
import Appearance.Proofs.ValuesFirst
import Mathlib.Logic.Relation

/-!
# What is marked as an override

The marks on values and nested styles agree with the classes that are generated
(`Prepares.marksAgree`): a value overrides one of a superclass, however far up, exactly if it is
marked, and so does a nested style. On the way up from a class a key is therefore declared anew in
one class only, the farthest one that has it (`Descent.exists_unique_declaration`), and the storage
of the key stands there (`Property.storageLine_mem_memberLines`).

Marks are compared with the classes themselves, not with the search that set them: the relation is
that of following superclasses by path any number of times. A `Descent` is the way up from one
class as a list, and on it both sides become statements about the members of a list. What a mark
promises is that there is a storage and an accessor to override, and the last theorem finds the one
class that has the storage of a key.
-/

namespace Appearance

/-! ## Storage -/

open Code in
/-- A value has its storage in a class exactly if it overrides no value of a superclass. -/
theorem Property.storageLine_mem_memberLines (manager : Option String) (k : PropertyHead)
    (v : Value) :
    storageLine k v.swiftType ∈ memberLines manager k v ↔ k.isOverride = false := by
  obtain ⟨key, isOverride, isOpen⟩ := k
  cases isOverride with
  | false => simp [memberLines]
  | true =>
    -- no other line begins with the letter of the storage
    have hfirst : ∀ line, line.toList.head? ≠ some 'p' →
        storageLine ⟨key, true, isOpen⟩ v.swiftType ≠ line := fun line hline h =>
      hline (by rw [← h]; simp [storageLine])
    have hindent : ∀ line : String,
        (if line.isEmpty then line else "\t" ++ line).toList.head? ≠ some 'p' := fun line => by
      split
      · next hempty => simp [String.isEmpty_iff.1 hempty]
      · simp
    simp only [memberLines, Bool.true_eq_false, iff_false, if_true, List.append_nil,
      List.mem_append, List.mem_cons, List.not_mem_nil, or_false, not_or, functionLines, block,
      indent, List.mem_map, not_exists, not_and]
    refine ⟨⟨hfirst _ (by simp), hfirst _ (by simp)⟩, ⟨hfirst _ ?_, fun line _ h =>
      hfirst _ (hindent line) h.symm⟩, hfirst _ (by decide)⟩
    simp [opening, functionHead, mark]

/-- The class declares a value under a key, and overrides none by that. -/
def Ancestor.Declares (key : String) (a : Ancestor) : Prop :=
  ∃ k v, Property.leaf k v ∈ a.style.properties ∧ k.key = key ∧ k.isOverride = false

theorem Ancestor.Declares.hasLeaf {key : String} {a : Ancestor} (h : a.Declares key) :
    a.HasLeaf key := by
  obtain ⟨k, v, hk, hkey, -⟩ := h
  exact ⟨k, v, hk, hkey⟩

/-- The class nests a style under a name. -/
def Ancestor.Nests (name : String) (a : Ancestor) : Prop :=
  ∃ n ∈ a.style.nestedStyles, n.name = name

/-- A class nests a style of a name if it has a class there. -/
theorem Ancestor.nests_iff {n : String} {a : Ancestor} :
    a.Nests n ↔ ∃ b, a.nested? n = some b := by
  rw [← Option.isSome_iff_exists, nested?, Option.isSome_map, Style.isSome_nested?_iff,
    List.mem_map]
  rfl

theorem Ancestor.allNested_ne_nil {n : String} {as : List Ancestor} :
    (allNested n as).isEmpty = false ↔ ∃ a ∈ as, a.Nests n := by
  simp only [List.isEmpty_eq_false_iff_exists_mem, mem_allNested, nests_iff]
  exact ⟨fun ⟨b, a, ha, hb⟩ => ⟨a, ha, b, hb⟩, fun ⟨a, ha, b, hb⟩ => ⟨b, a, ha, hb⟩⟩

namespace Suite

variable {s l r : Suite} {settings : Settings}

/-! ## Ancestors -/

/-- A class is reached from another one by following superclasses, at least one. -/
def IsAncestor (r : Suite) (a c : Ancestor) : Prop := Relation.TransGen r.Derives c a

/-- A class stands on the way up from another one, which begins with that. -/
def OnWayUp (r : Suite) (a c : Ancestor) : Prop := Relation.ReflTransGen r.Derives c a

section Paths

variable (hpaths : (r.classes.map Ancestor.path).Nodup)

include hpaths

/-- A class derives from the next one of its descent. -/
theorem Descent.derives_iff {c : Ancestor} {as : List Ancestor} (h : Descent r (c :: as))
    {a : Ancestor} : r.Derives c a ↔ as.head? = some a := by
  cases h with
  | cons hc hx hheir has =>
    rw [Derives, hheir.inherits_of_fresh hx]
    cases has with
    | nil => simp
    | @cons b _ as hb =>
      simp only [List.head?_cons, Option.map_some, Option.some.injEq]
      constructor
      · exact fun ⟨ha, hpath⟩ => eq_of_mem_of_nodup hpaths hb ha hpath
      · rintro rfl
        exact ⟨hb, rfl⟩

/-- The ancestors of a class are those that follow it in a descent. -/
theorem Descent.isAncestor_iff {c : Ancestor} {as : List Ancestor} (h : Descent r (c :: as))
    {a : Ancestor} : r.IsAncestor a c ↔ a ∈ as := by
  induction as generalizing c with
  | nil =>
    rw [IsAncestor, Relation.TransGen.head'_iff]
    simp [h.derives_iff hpaths]
  | cons b as ih =>
    have hrest : Descent r (b :: as) := by
      cases h with
      | cons _ _ _ has => exact has
    rw [IsAncestor, Relation.TransGen.head'_iff]
    simp only [h.derives_iff hpaths, List.head?_cons, Option.some.injEq, exists_eq_left',
      Relation.reflTransGen_iff_eq_or_transGen, List.mem_cons]
    exact or_congr Iff.rfl (ih hrest)

/-- On the way up from a class are those of its descent. -/
theorem Descent.onWayUp_iff {c : Ancestor} {as : List Ancestor} (h : Descent r (c :: as))
    {a : Ancestor} : r.OnWayUp a c ↔ a ∈ c :: as := by
  rw [OnWayUp, Relation.reflTransGen_iff_eq_or_transGen, List.mem_cons]
  exact or_congr Iff.rfl (h.isAncestor_iff hpaths)

/-! ## Marks -/

/-- A nested style is marked exactly if an ancestor nests one of its name. -/
theorem Descent.isOverride_nested_iff {c : Ancestor} {as : List Ancestor} (h : Descent r (c :: as))
    {m : Style} (hm : m ∈ c.style.nestedStyles) :
    m.head.isOverride = true ↔ ∃ a, r.IsAncestor a c ∧ a.Nests m.name := by
  simp only [h.isAncestor_iff hpaths]
  cases h with
  | cons _ hx hheir _ =>
    obtain ⟨m', hm', -, hover⟩ := hheir.nested hm
    rw [hover, (Style.fresh_iff.1 ((Style.fresh_iff.1 hx).2 m' hm')).1.1, Bool.false_or,
      Bool.not_eq_true', Ancestor.allNested_ne_nil]

variable (hfinds : ∀ a ∈ r.classes, a.style.FindsLeaves)

include hfinds

/-- A value is marked exactly if an ancestor has a value for its key. -/
theorem Descent.isOverride_leaf_iff {c : Ancestor} {as : List Ancestor} (h : Descent r (c :: as))
    {k : PropertyHead} {v : Value} (hk : Property.leaf k v ∈ c.style.properties) :
    k.isOverride = true ↔ ∃ a, r.IsAncestor a c ∧ a.HasLeaf k.key := by
  simp only [h.isAncestor_iff hpaths]
  cases h with
  | cons _ _ hheir has =>
    rw [hheir.isOverride_of_leaf hk, List.any_eq_true]
    refine exists_congr fun a => and_congr_right fun ha => ?_
    exact Ancestor.hasValue_iff (hfinds a (has.subset_classes ha))

/-- A class declares a key if it has a value under it and no superclass has. -/
theorem Descent.declares_iff {c : Ancestor} {as : List Ancestor} (h : Descent r (c :: as))
    {key : String} :
    c.Declares key ↔ c.HasLeaf key ∧ ∀ a, r.IsAncestor a c → ¬a.HasLeaf key := by
  constructor
  · rintro ⟨k, v, hk, rfl, hover⟩
    refine ⟨⟨k, v, hk, rfl⟩, fun a ha hleaf => ?_⟩
    rw [(h.isOverride_leaf_iff hpaths hfinds hk).2 ⟨a, ha, hleaf⟩] at hover
    cases hover
  · rintro ⟨⟨k, v, hk, rfl⟩, hnone⟩
    refine ⟨k, v, hk, rfl, Bool.eq_false_iff.2 fun hover => ?_⟩
    obtain ⟨a, ha, hleaf⟩ := (h.isOverride_leaf_iff hpaths hfinds hk).1 hover
    exact hnone a ha hleaf

/-- On a descent that has a key one class declares it: the farthest one that has it. -/
theorem Descent.exists_unique_declaration {c : Ancestor} {as : List Ancestor}
    (h : Descent r (c :: as)) {key : String} (hkey : ∃ a ∈ c :: as, a.HasLeaf key) :
    ∃ a ∈ c :: as, (∀ b, r.IsAncestor b a → ¬b.HasLeaf key) ∧
      ∀ b ∈ c :: as, b.Declares key ↔ b = a := by
  induction as generalizing c with
  | nil =>
    obtain ⟨a, ha, hleaf⟩ := hkey
    rw [List.mem_singleton.1 ha] at hleaf
    have hnone : ∀ b, r.IsAncestor b c → ¬b.HasLeaf key := fun b hb => by
      cases (h.isAncestor_iff hpaths).1 hb
    refine ⟨c, List.mem_cons_self, hnone, fun b hb => ?_⟩
    rw [List.mem_singleton.1 hb]
    exact iff_of_true ((h.declares_iff hpaths hfinds).2 ⟨hleaf, hnone⟩) rfl
  | cons a as ih =>
    have hrest : Descent r (a :: as) := by
      cases h with
      | cons _ _ _ has => exact has
    by_cases habove : ∃ b ∈ a :: as, b.HasLeaf key
    · -- the class overrides what is declared above
      obtain ⟨b, hb, hfar, hunique⟩ := ih hrest habove
      refine ⟨b, List.mem_cons_of_mem c hb, hfar, fun d hd => ?_⟩
      rcases List.mem_cons.1 hd with rfl | hd
      · have hdeclared := (hunique b hb).2 rfl
        refine ⟨fun hdeclares => absurd hdeclared.hasLeaf ?_, fun hdb => hdb ▸ hdeclared⟩
        exact ((h.declares_iff hpaths hfinds).1 hdeclares).2 b ((h.isAncestor_iff hpaths).2 hb)
      · exact hunique d hd
    · -- the class has the key alone
      have hnone : ∀ b, r.IsAncestor b c → ¬b.HasLeaf key := fun b hb hleaf =>
        habove ⟨b, (h.isAncestor_iff hpaths).1 hb, hleaf⟩
      obtain ⟨b, hb, hleaf⟩ := hkey
      obtain rfl : b = c := (List.mem_cons.1 hb).resolve_right fun hb => habove ⟨b, hb, hleaf⟩
      refine ⟨b, List.mem_cons_self, hnone, fun d hd => ?_⟩
      rcases List.mem_cons.1 hd with rfl | hd
      · exact iff_of_true ((h.declares_iff hpaths hfinds).2 ⟨hleaf, hnone⟩) rfl
      · exact iff_of_false (fun hdeclares => habove ⟨d, hd, hdeclares.hasLeaf⟩) fun hdb =>
          habove ⟨d, hd, hdb ▸ hleaf⟩

end Paths

/-- The marks of a suite agree with its classes. -/
structure MarksAgree (r : Suite) : Prop where
  /-- A value is marked exactly if a superclass, however far up, has one of its key. -/
  value : ∀ c ∈ r.classes, ∀ k v, Property.leaf k v ∈ c.style.properties →
    (k.isOverride = true ↔ ∃ a, r.IsAncestor a c ∧ a.HasLeaf k.key)
  /-- A nested style is marked exactly if a superclass nests one of its name. -/
  nested : ∀ c ∈ r.classes, ∀ m ∈ c.style.nestedStyles,
    (m.head.isOverride = true ↔ ∃ a, r.IsAncestor a c ∧ a.Nests m.name)
  /-- Of the classes on a way up that have a key only the farthest declares it. -/
  declared : ∀ c ∈ r.classes, ∀ key, (∃ a, r.OnWayUp a c ∧ a.HasLeaf key) →
    ∃ a, r.OnWayUp a c ∧ a.HasLeaf key ∧ (∀ b, r.IsAncestor b a → ¬b.HasLeaf key) ∧
      ∀ b, r.OnWayUp b c → (b.Declares key ↔ b = a)
  /-- A value has its storage in a class exactly if it is declared there. -/
  storage : ∀ c ∈ r.classes, ∀ k v, Property.leaf k v ∈ c.style.properties → ∀ manager,
    (Property.storageLine k v.swiftType ∈ Property.memberLines manager k v ↔ k.isOverride = false)

/-- If every class heads a descent and a look-up finds the values that a class has, the marks agree:
in a descent the marks of the first class are those of the search in the classes after it. -/
theorem marksAgree_of_descent (hdescent : ∀ c ∈ r.classes, ∃ as, Descent r (c :: as))
    (hfinds : ∀ a ∈ r.classes, a.style.FindsLeaves)
    (hpaths : (r.classes.map Ancestor.path).Nodup) : MarksAgree r := by
  constructor
  case value =>
    intro c hc k v hk
    obtain ⟨as, has⟩ := hdescent c hc
    exact has.isOverride_leaf_iff hpaths hfinds hk
  case nested =>
    intro c hc m hm
    obtain ⟨as, has⟩ := hdescent c hc
    exact has.isOverride_nested_iff hpaths hm
  case declared =>
    intro c hc key hkey
    obtain ⟨as, has⟩ := hdescent c hc
    simp only [has.onWayUp_iff hpaths] at hkey ⊢
    obtain ⟨a, ha, hfar, hunique⟩ := has.exists_unique_declaration hpaths hfinds hkey
    exact ⟨a, ha, ((hunique a ha).2 rfl).hasLeaf, hfar, hunique⟩
  case storage => exact fun c _ k v _ manager => Property.storageLine_mem_memberLines manager k v

/-- With distinct paths of classes and no animator extended, the marks of a prepared suite agree
with its classes. Nothing is marked before preparation, as in every suite that is loaded
(`Config.fresh_suite`, and `Config.marksAgree_prepared` for those). -/
theorem Prepares.marksAgree (h : Prepares settings s l) (hw : s.WellNamed) (hf : s.Fresh)
    (himported : s.imported = none) (hframework : settings.framework = none)
    (hno : s.NoAnimatorExtended)
    (hpaths : ((l.prepared settings).1.classes.map Ancestor.path).Nodup) :
    MarksAgree (l.prepared settings).1 :=
  marksAgree_of_descent
    (fun _ hc => h.exists_descent hw.styleNames hf himported hframework hno hc)
    (fun _ ha => h.findsLeaves hw ha) hpaths

/-- All marks in this suite agree with the classes. -/
theorem marksAgree_layeredTheme :
    MarksAgree ({ layeredTheme with base? := some 0 }.prepared .standard).1 :=
  Prepares.marksAgree prepares_layeredTheme (by decide) (by decide) rfl rfl (by decide)
    nodup_paths_layeredTheme

end Suite

end Appearance
