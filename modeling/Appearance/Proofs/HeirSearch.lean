import Appearance.Code.Views
import Appearance.Proofs.ExtensionCycles
import Mathlib.Data.List.Nodup
import Mathlib.Data.List.Pairwise
import Mathlib.Logic.Relation

/-!
# The search for heirs

`Stylesheet.heirs` goes from a style to those that extend it, from these to those that extend them,
and so on. `Searches` describes this search without a bound on its depth: it ends for every list of
styles, also where styles extend each other in a cycle, as it goes into no name twice
(`heirsFrom_searches`).

Where names are distinct and no style leads back to itself, the styles below different heirs of one
style are apart (`eq_of_below`). So the search finds each style that extends the first one,
directly or through others, exactly once, and in front of all that this one extends itself
(`heirs_most_derived_first`).

The search is first turned into a relation without depth, which is a function of its arguments
(`Searches.unique`) and is reached by every sufficient depth (`heirsFrom_searches`); the measure is
the number of names that were not found yet. The order of the result is then an induction on the
relation. The names that were met matter only where styles extend each other in a circle or in
several ways, and distinct names exclude the latter.
-/

namespace Appearance.Stylesheet

open Relation (ReflTransGen TransGen)

variable {styles rest : List Style} {name a b : String} {x y : Style}
  {state result : List String × List Style}

/-! ## Links -/

/-- A style of the first name gives the second name for a style that it extends, one of the same
stylesheet. -/
def Link (styles : List Style) (a b : String) : Prop :=
  ∃ x ∈ styles, x.name = a ∧ x.head.extendsImported = false ∧ x.head.superclass = some b

theorem link_of_mem (hx : x ∈ styles) (h : x.localSuperclass? = some b) : Link styles x.name b :=
  ⟨x, hx, rfl, Style.localSuperclass?_eq_some.1 h⟩

theorem exists_of_transGen (h : TransGen (Link styles) a b) :
    ∃ x ∈ styles, x.localSuperclass? = some b ∧ ReflTransGen (Link styles) a x.name := by
  obtain ⟨c, hac, x, hx, rfl, hlink⟩ := TransGen.tail'_iff.1 h
  exact ⟨x, hx, Style.localSuperclass?_eq_some.2 hlink, hac⟩

/-- Styles whose links all lead from a higher rank to a lower one have no cycle. -/
theorem not_transGen_of_rank {rank : String → Nat}
    (h : ∀ x ∈ styles, ∀ b ∈ x.localSuperclass?, rank b < rank x.name) (a : String) :
    ¬ TransGen (Link styles) a a := by
  have hlink : ∀ a b, Link styles a b → rank b < rank a := by
    rintro - b ⟨x, hx, rfl, hb⟩
    exact h x hx b (Style.localSuperclass?_eq_some.2 hb)
  have hlt : ∀ a b, TransGen (Link styles) a b → rank b < rank a := by
    intro a b hab
    induction hab with
    | single hab => exact hlink _ _ hab
    | tail _ hbc ih => exact (hlink _ _ hbc).trans ih
  exact fun ha => Nat.lt_irrefl _ (hlt a a ha)

section Forest

variable (hnodup : (styles.map Style.name).Nodup)
  (hacyclic : ∀ a, ¬ TransGen (Link styles) a a)

include hnodup in
theorem link_rightUnique : Relator.RightUnique (Link styles) := by
  rintro a b c ⟨x, hx, rfl, -, hb⟩ ⟨y, hy, hname, -, hc⟩
  obtain rfl : y = x := List.inj_on_of_nodup_map hnodup hy hx hname
  exact Option.some.inj (hb.symm.trans hc)

include hnodup hacyclic in
/-- No style is below two different heirs of one style. -/
theorem eq_of_below (hx : x ∈ styles) (hy : y ∈ styles) (hxname : x.localSuperclass? = some name)
    (hyname : y.localSuperclass? = some name) (hax : ReflTransGen (Link styles) a x.name)
    (hay : ReflTransGen (Link styles) a y.name) : x = y := by
  have hunique := link_rightUnique hnodup
  -- one of the two would be on the way up from the other one, and above this there is only the
  -- style that both extend
  have habove : ∀ u ∈ styles, ∀ v ∈ styles, u.localSuperclass? = some name →
      v.localSuperclass? = some name → ReflTransGen (Link styles) u.name v.name →
      u.name = v.name := by
    intro u hu v hv huname hvname huv
    rcases ReflTransGen.cases_head huv with heq | ⟨c, huc, hcv⟩
    · exact heq
    · obtain rfl : c = name := hunique huc (link_of_mem hu huname)
      exact absurd (TransGen.tail' hcv (link_of_mem hv hvname)) (hacyclic c)
  refine List.inj_on_of_nodup_map hnodup hx hy ?_
  rcases ReflTransGen.total_of_right_unique hunique hax hay with hxy | hyx
  · exact habove x hx y hy hxname hyname hxy
  · exact (habove y hy x hx hyname hxname hyx).symm

end Forest

/-! ## The search -/

/-- A search through the styles `rest` for those that extend the style of a name. It goes into each
one whose name has not been found, through all styles again, and lists it afterwards. -/
inductive Searches (styles : List Style) : String → List Style → List String × List Style →
    List String × List Style → Prop
  | done {name : String} {state : List String × List Style} : Searches styles name [] state state
  | pass {name : String} {x : Style} {rest : List Style} {state result : List String × List Style} :
    (x.localSuperclass? = some name → x.name ∈ state.1) → Searches styles name rest state result →
    Searches styles name (x :: rest) state result
  | enter {name : String} {x : Style} {rest : List Style} {found found' : List String}
    {heirs heirs' : List Style} {result : List String × List Style} :
    x.localSuperclass? = some name → x.name ∉ found →
    Searches styles x.name styles (found ++ [x.name], heirs) (found', heirs') →
    Searches styles name rest (found', heirs' ++ [x]) result →
    Searches styles name (x :: rest) (found, heirs) result

/-- A search has one result. -/
theorem Searches.unique {result' : List String × List Style}
    (h : Searches styles name rest state result) (h' : Searches styles name rest state result') :
    result = result' := by
  induction h generalizing result' with
  | done =>
    cases h'
    rfl
  | pass hpass _ ih =>
    cases h' with
    | pass _ h' => exact ih h'
    | enter hext hnew => exact absurd (hpass hext) hnew
  | enter hext hnew _ _ ihbelow ihrest =>
    cases h' with
    | pass hpass => exact absurd (hpass hext) hnew
    | enter _ _ hbelow h' =>
      obtain ⟨rfl, rfl⟩ := Prod.mk.inj (ihbelow hbelow)
      exact ihrest h'

theorem Searches.found_subset (h : Searches styles name rest state result) :
    state.1 ⊆ result.1 := by
  induction h with
  | done => exact List.Subset.refl _
  | pass _ _ ih => exact ih
  | enter _ _ _ _ ihbelow ihrest =>
    exact fun a ha => ihrest (ihbelow (List.mem_append_left _ ha))

/-- The styles whose names have not been found. -/
def unfound (styles : List Style) (found : List String) : List Style :=
  styles.filter fun x => x.name ∉ found

theorem length_unfound_le {found found' : List String} (h : found ⊆ found') :
    (unfound styles found').length ≤ (unfound styles found).length := by
  refine (List.monotone_filter_right styles fun x hx => ?_).length_le
  rw [decide_eq_true_eq] at hx ⊢
  exact fun hfound => hx (h hfound)

/-- A new name leaves fewer. -/
theorem length_unfound_lt {found : List String} (hx : x ∈ styles) (hnew : x.name ∉ found) :
    (unfound styles (found ++ [x.name])).length < (unfound styles found).length := by
  have hfilter : unfound styles (found ++ [x.name]) =
      (unfound styles found).filter fun y => y.name ≠ x.name := by
    rw [unfound, unfound, List.filter_filter]
    refine List.filter_congr fun y _ => ?_
    simp [and_comm]
  rw [hfilter]
  refine List.length_filter_lt_length_iff_exists.2 ⟨x, ?_, by simp⟩
  exact List.mem_filter.2 ⟨hx, by simpa using hnew⟩

/-- What `heirsFrom` does with one style; `below` is the search below it. -/
theorem heirsFrom_succ (styles : List Style) (depth : Nat) (name : String)
    (state : List String × List Style) :
    heirsFrom styles (depth + 1) name state =
      styles.foldl (fun state x =>
        if x.localSuperclass? = some name ∧ x.name ∉ state.1 then
          let below := heirsFrom styles depth x.name (state.1 ++ [x.name], state.2)
          (below.1, below.2 ++ [x])
        else state) state := by
  rw [heirsFrom]
  congr 1
  funext state x
  by_cases hext : x.localSuperclass? = some name
  · obtain ⟨himported, hsuper⟩ := Style.localSuperclass?_eq_some.1 hext
    by_cases hfound : x.name ∈ state.1 <;> simp [himported, hsuper, hext, hfound]
  · have hskip : (x.head.extendsImported || x.head.superclass != some name) = true := by
      rw [Style.localSuperclass?_eq_some, not_and_or] at hext
      simpa using hext
    simp only [hskip, Bool.true_or, if_true, hext, false_and, if_false]

/-- With more depth than there are names to be found, the search ends by itself. -/
theorem heirsFrom_searches {depth : Nat} (hdepth : (unfound styles state.1).length < depth)
    (name : String) : Searches styles name styles state (heirsFrom styles depth name state) := by
  induction depth generalizing state name with
  | zero => exact absurd hdepth (Nat.not_lt_zero _)
  | succ depth ih =>
    rw [heirsFrom_succ]
    have hrest : ∀ rest, rest ⊆ styles → ∀ state : List String × List Style,
        (unfound styles state.1).length < depth + 1 →
        Searches styles name rest state (rest.foldl (fun state x =>
          if x.localSuperclass? = some name ∧ x.name ∉ state.1 then
            let below := heirsFrom styles depth x.name (state.1 ++ [x.name], state.2)
            (below.1, below.2 ++ [x])
          else state) state) := by
      intro rest hsub
      induction rest with
      | nil => exact fun _ _ => .done
      | cons x rest ihrest =>
        intro state hstate
        obtain ⟨hx, hsub⟩ := List.cons_subset.1 hsub
        rw [List.foldl_cons]
        split
        · next h =>
          have hlt := length_unfound_lt hx h.2
          have hbelow : Searches styles x.name styles (state.1 ++ [x.name], state.2)
              (heirsFrom styles depth x.name (state.1 ++ [x.name], state.2)) :=
            ih (by dsimp only; omega) x.name
          have hle : (unfound styles _).length ≤ (unfound styles _).length :=
            length_unfound_le hbelow.found_subset
          exact .enter h.1 h.2 hbelow (ihrest hsub _ (by dsimp only at hle ⊢; omega))
        · next h =>
          refine .pass (fun hext => ?_) (ihrest hsub state hstate)
          by_contra hnew
          exact h ⟨hext, hnew⟩
    exact hrest styles (List.Subset.refl _) state hdepth

/-! ## What is found -/

/-- The style extends the one of the name as one of `rest` does, or through one of `rest`. -/
def Below (styles : List Style) (name : String) (rest : List Style) (x : Style) : Prop :=
  x ∈ styles ∧ ∃ y ∈ rest, y.localSuperclass? = some name ∧
    ReflTransGen (Link styles) x.name y.name

theorem below_cons {name : String} {y : Style} :
    Below styles name (y :: rest) x ↔
      (x ∈ styles ∧ y.localSuperclass? = some name ∧ ReflTransGen (Link styles) x.name y.name) ∨
        Below styles name rest x := by
  simp only [Below, List.mem_cons, exists_eq_or_imp, and_or_left]

theorem below_self : Below styles name styles x ↔
    x ∈ styles ∧ TransGen (Link styles) x.name name := by
  refine and_congr_right fun _ => ⟨fun ⟨y, hy, hext, hxy⟩ => ?_, exists_of_transGen⟩
  exact TransGen.tail' hxy (link_of_mem hy hext)

/-- A search has added the styles `new`: those of a property, each once and in front of what it
extends, and it has found their names. -/
structure Adds (styles : List Style) (p : Style → Prop) (state : List String × List Style)
    (new : List Style) (result : List String × List Style) : Prop where
  heirs_eq : result.2 = state.2 ++ new
  mem_iff : ∀ x, x ∈ new ↔ p x
  found_iff : ∀ a, a ∈ result.1 ↔ a ∈ state.1 ∨ a ∈ new.map Style.name
  nodup : (new.map Style.name).Nodup
  ordered : new.Pairwise fun x y => ¬ TransGen (Link styles) y.name x.name

variable {p : Style → Prop} {new : List Style}

/-- What a search below an heir adds is below it, as the heir itself is. -/
theorem Adds.reflTransGen_of_mem
    (hbelow : Adds styles (Below styles x.name styles) state new result) (hy : y ∈ new ++ [x]) :
    ReflTransGen (Link styles) y.name x.name := by
  rcases List.mem_append.1 hy with hy | hy
  · exact (below_self.1 ((hbelow.mem_iff y).1 hy)).2.to_reflTransGen
  · rw [List.mem_singleton.1 hy]

/-- A search that starts with the name of an heir has found it and what is below it. -/
theorem Adds.name_mem_of_mem {found : List String} {heirs : List Style}
    (hbelow : Adds styles p (found ++ [x.name], heirs) new result) (hy : y ∈ new ++ [x]) :
    y.name ∈ result.1 := by
  rw [hbelow.found_iff]
  rcases List.mem_append.1 hy with hy | hy
  · exact .inr (List.mem_map_of_mem hy)
  · rw [List.mem_singleton.1 hy]
    exact .inl (List.mem_append_right _ (List.mem_singleton_self _))

/-- No style of the name of an heir is below the heir. -/
theorem Adds.name_not_mem (hacyclic : ∀ a, ¬ TransGen (Link styles) a a)
    (hbelow : Adds styles (Below styles x.name styles) state new result) :
    x.name ∉ new.map Style.name := by
  intro hmem
  obtain ⟨y, hy, hname⟩ := List.mem_map.1 hmem
  have hyx := (below_self.1 ((hbelow.mem_iff y).1 hy)).2
  rw [hname] at hyx
  exact hacyclic _ hyx

/-- A search below an heir and the heir itself give what extends it, directly or not. -/
theorem Adds.mem_append_iff (hnodup : (styles.map Style.name).Nodup)
    (hbelow : Adds styles (Below styles x.name styles) state new result) (hx : x ∈ styles) :
    y ∈ new ++ [x] ↔ y ∈ styles ∧ ReflTransGen (Link styles) y.name x.name := by
  refine ⟨fun hy => ⟨?_, hbelow.reflTransGen_of_mem hy⟩, fun ⟨hy, hyx⟩ => ?_⟩
  · rcases List.mem_append.1 hy with hy | hy
    · exact ((hbelow.mem_iff y).1 hy).1
    · rw [List.mem_singleton.1 hy]
      exact hx
  · rcases Relation.reflTransGen_iff_eq_or_transGen.1 hyx with heq | hyx
    · rw [List.inj_on_of_nodup_map hnodup hy hx heq.symm]
      exact List.mem_append_right _ (List.mem_singleton_self _)
    · exact List.mem_append_left _ ((hbelow.mem_iff y).2 (below_self.2 ⟨hy, hyx⟩))

section Forest

variable (hnodup : (styles.map Style.name).Nodup)
  (hacyclic : ∀ a, ¬ TransGen (Link styles) a a)

include hnodup hacyclic

/-- What is below one heir is not below the others. -/
theorem not_below_of_reflTransGen (hrest : x :: rest ⊆ styles) (hxrest : x ∉ rest)
    (hext : x.localSuperclass? = some name) (hyx : ReflTransGen (Link styles) y.name x.name) :
    ¬ Below styles name rest y := by
  rintro ⟨-, z, hz, hzext, hyz⟩
  have hxz : x = z := eq_of_below hnodup hacyclic (hrest List.mem_cons_self)
    (hrest (List.mem_cons_of_mem _ hz)) hext hzext hyx hyz
  exact hxrest (hxz ▸ hz)

/-- The styles below one heir and the heir itself, and then those of the other heirs. -/
theorem Adds.enter {found found' : List String} {heirs heirs' new new' : List Style}
    (hrest : x :: rest ⊆ styles) (hxrest : x ∉ rest) (hext : x.localSuperclass? = some name)
    (hbelow : Adds styles (Below styles x.name styles) (found ++ [x.name], heirs) new
      (found', heirs'))
    (hothers : Adds styles (Below styles name rest) (found', heirs' ++ [x]) new' result)
    (hfresh : ∀ y ∈ new', y.name ∉ found') :
    Adds styles (Below styles name (x :: rest)) (found, heirs) (new ++ x :: new') result := by
  have hx : x ∈ styles := hrest List.mem_cons_self
  -- what is below the heir comes with the heir itself
  have hsplit : new ++ x :: new' = (new ++ [x]) ++ new' := by simp
  refine ⟨?_, fun y => ?_, fun a => ?_, ?_, ?_⟩
  · rw [hothers.heirs_eq, show heirs' = heirs ++ new from hbelow.heirs_eq]
    simp
  · rw [below_cons, hsplit, List.mem_append, hothers.mem_iff, hbelow.mem_append_iff hnodup hx]
    exact or_congr_left (and_congr_right fun _ => (and_iff_right hext).symm)
  · rw [hothers.found_iff, hbelow.found_iff, hsplit, List.map_append, List.map_append]
    simp only [List.mem_append, List.map_cons, List.map_nil, List.mem_singleton]
    tauto
  · rw [hsplit, List.map_append, List.nodup_append']
    refine ⟨?_, hothers.nodup, fun a ha ha' => ?_⟩
    · rw [List.map_append, List.map_cons, List.map_nil]
      exact nodup_snoc hbelow.nodup (hbelow.name_not_mem hacyclic)
    · obtain ⟨y, hy, rfl⟩ := List.mem_map.1 ha
      obtain ⟨z, hz, hname⟩ := List.mem_map.1 ha'
      exact hfresh z hz (hname ▸ hbelow.name_mem_of_mem hy)
  · rw [hsplit, List.pairwise_append, List.pairwise_append]
    refine ⟨⟨hbelow.ordered, List.pairwise_singleton _ _, fun y hy z hz hzy => ?_⟩,
      hothers.ordered, fun y hy z hz hzy => ?_⟩
    · rw [List.mem_singleton.1 hz] at hzy
      exact hacyclic _ (hzy.trans (below_self.1 ((hbelow.mem_iff y).1 hy)).2)
    · exact not_below_of_reflTransGen hnodup hacyclic hrest hxrest hext
        (hzy.to_reflTransGen.trans (hbelow.reflTransGen_of_mem hy)) ((hothers.mem_iff z).1 hz)

/-- A search that has not found anything yet of what it looks for adds all of it. -/
theorem Searches.exists_adds (h : Searches styles name rest state result) (hrest : rest ⊆ styles)
    (hrestNodup : rest.Nodup) (hfresh : ∀ y, Below styles name rest y → y.name ∉ state.1) :
    ∃ new, Adds styles (Below styles name rest) state new result := by
  induction h with
  | done =>
    exact ⟨[], (List.append_nil _).symm, by simp [Below], by simp, List.nodup_nil,
      List.Pairwise.nil⟩
  | @pass name x rest state result hpass _ ih =>
    have hx : x.localSuperclass? ≠ some name := fun hext =>
      hfresh x ⟨hrest List.mem_cons_self, x, List.mem_cons_self, hext, .refl⟩ (hpass hext)
    have hbelow : Below styles name (x :: rest) = Below styles name rest := by
      funext y
      rw [below_cons]
      simp [hx]
    rw [hbelow] at hfresh ⊢
    exact ih (List.cons_subset.1 hrest).2 (List.nodup_cons.1 hrestNodup).2 hfresh
  | @enter name x rest found found' heirs heirs' result hext _ _ _ ihbelow ihrest =>
    obtain ⟨-, hsub⟩ := List.cons_subset.1 hrest
    obtain ⟨hxrest, hrestNodup⟩ := List.nodup_cons.1 hrestNodup
    obtain ⟨new, hbelow⟩ := ihbelow (List.Subset.refl _) hnodup.of_map fun y hy => by
      obtain ⟨hy, hyx⟩ := below_self.1 hy
      rw [List.mem_append, List.mem_singleton, not_or]
      refine ⟨hfresh y (below_cons.2 (.inl ⟨hy, hext, hyx.to_reflTransGen⟩)), fun heq => ?_⟩
      rw [heq] at hyx
      exact hacyclic _ hyx
    -- the names that were found below the heir are none of the other heirs
    have hothersFresh : ∀ y, Below styles name rest y → y.name ∉ found' := by
      intro y hy hfound
      refine not_below_of_reflTransGen hnodup hacyclic hrest hxrest hext ?_ hy
      rcases (hbelow.found_iff _).1 hfound with hfound | hfound
      · rcases List.mem_append.1 hfound with hfound | hfound
        · exact absurd hfound (hfresh y (below_cons.2 (.inr hy)))
        · rw [List.mem_singleton.1 hfound]
      · obtain ⟨z, hz, hname⟩ := List.mem_map.1 hfound
        rw [← hname]
        exact (below_self.1 ((hbelow.mem_iff z).1 hz)).2.to_reflTransGen
    obtain ⟨new', hothers⟩ := ihrest hsub hrestNodup hothersFresh
    exact ⟨_, Adds.enter hnodup hacyclic hrest hxrest hext hbelow hothers fun y hy =>
      hothersFresh y ((hothers.mem_iff y).1 hy)⟩

end Forest

/-! ## The heirs of a style -/

theorem searches_heirs (t : Stylesheet) (name : String) :
    ∃ found, Searches t.styles name t.styles ([], []) (found, t.heirs name) :=
  ⟨_, heirsFrom_searches (Nat.lt_succ_of_le (List.length_filter_le _ _)) name⟩

/-- The search for the styles that extend the one of a name ends in every stylesheet, with the
heirs. Where names are distinct and no style leads back to itself, the heirs are the styles that
extend the one of the name, directly or through other styles of the stylesheet. Each is listed once,
in front of all heirs that it extends itself. -/
theorem heirs_most_derived_first (t : Stylesheet) (name : String) :
    (∃ found, ∀ result, Searches t.styles name t.styles ([], []) result ↔
      result = (found, t.heirs name)) ∧
    ((t.styles.map Style.name).Nodup → (∀ a, ¬ TransGen (Link t.styles) a a) →
      (∀ x, x ∈ t.heirs name ↔ x ∈ t.styles ∧ TransGen (Link t.styles) x.name name) ∧
      ((t.heirs name).map Style.name).Nodup ∧
      ∀ (i j : Nat) (hi : i < (t.heirs name).length) (hj : j < (t.heirs name).length),
        TransGen (Link t.styles) (t.heirs name)[i].name (t.heirs name)[j].name → i < j) := by
  obtain ⟨found, hsearch⟩ := searches_heirs t name
  refine ⟨⟨found, fun result => ⟨fun h => h.unique hsearch, fun h => h ▸ hsearch⟩⟩, ?_⟩
  intro hnodup hacyclic
  obtain ⟨new, hadds⟩ := hsearch.exists_adds hnodup hacyclic (List.Subset.refl _) hnodup.of_map
    fun _ _ => List.not_mem_nil
  obtain rfl : t.heirs name = new := hadds.heirs_eq
  refine ⟨fun x => (hadds.mem_iff x).trans below_self, hadds.nodup, fun i j hi hj hij => ?_⟩
  rcases Nat.lt_trichotomy i j with hlt | heq | hgt
  · exact hlt
  · subst heq
    exact absurd hij (hacyclic _)
  · exact absurd hij (List.pairwise_iff_getElem.1 hadds.ordered j i hj hi hgt)

/-- Styles that extend a button through others, in mixed order, and one that extends a button of the
imported stylesheet. -/
def buttonStyles : Stylesheet :=
  ⟨"Default", ["Hero extends Primary", "Ghost extends Button", "Tile extends S.Button",
    "__appearance_proxy Button", "Primary extends Button", "Giant extends Hero"].map
      (Style.ofDeclaration · []), none, none, false, []⟩

/-- How far the styles of `buttonStyles` are from the button. -/
def buttonRank (name : String) : Nat := ["Button", "Primary", "Hero", "Giant"].idxOf name

/-- Heirs on several levels, each in front of what it extends. -/
theorem heirs_buttonStyles :
    (buttonStyles.styles.map Style.name).Nodup ∧
      (∀ a, ¬ TransGen (Link buttonStyles.styles) a a) ∧
      (buttonStyles.heirs "Button").map Style.name = ["Ghost", "Giant", "Hero", "Primary"] ∧
      ∀ x, x ∈ buttonStyles.heirs "Button" ↔
        x ∈ buttonStyles.styles ∧ TransGen (Link buttonStyles.styles) x.name "Button" := by
  have hnodup : (buttonStyles.styles.map Style.name).Nodup := by decide +kernel
  have hrank : ∀ x ∈ buttonStyles.styles, ∀ b ∈ x.localSuperclass?,
      buttonRank b < buttonRank x.name := by
    decide +kernel
  have hacyclic := not_transGen_of_rank hrank
  exact ⟨hnodup, hacyclic, by decide +kernel,
    ((heirs_most_derived_first buttonStyles "Button").2 hnodup hacyclic).1⟩

/-- Two styles that extend each other are heirs of each other and of themselves. -/
example :
    ((⟨"Default", ["A extends B", "B extends A"].map (Style.ofDeclaration · []), none, none, false,
      []⟩ : Stylesheet).heirs "A").map Style.name = ["A", "B"] := by
  decide +kernel

end Appearance.Stylesheet
