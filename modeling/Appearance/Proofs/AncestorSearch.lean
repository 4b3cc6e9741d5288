import Mathlib.Computability.StateTransition
import Mathlib.Data.Finset.Card
import Mathlib.Data.List.Chain
import Appearance.Proofs.SettledMarks

/-!
# The search for ancestors

`Suite.ancestorsFrom` follows superclasses for a number of steps at most. `Suite.advance?` is one
step of the same search without a bound: it comes to a style, which names the place to look at next.

A place is visited once, and there are finitely many places at which a style is found
(`Suite.mem_lookups`), so the search ends, wherever it begins and whatever extends what
(`Suite.wellFounded_advance?`). What holds of the visits so far is a `Suite.Itinerary`: each one but
the first is where the one before it says. With at least as many steps as there are visits, the
bounded search has the same result (`Suite.ancestorsFrom_eq_of_eval`).
-/

namespace Appearance

open StateTransition (Reaches eval mem_eval)

/-- A style to which the search for ancestors came, and the place where it was found. -/
structure Visit where
  place : Ground × String
  style : Style

/-- A search for ancestors: the visits so far, in order, and the place to look at next. -/
structure AncestorSearch where
  visits : List Visit
  next? : Option (Ground × String)

namespace AncestorSearch

/-- A search that begins at a place. -/
def start (first : Ground × String) : AncestorSearch := ⟨[], some first⟩

def places (t : AncestorSearch) : List (Ground × String) := t.visits.map Visit.place

/-- The search behind one more visit. -/
def visit (t : AncestorSearch) (v : Visit) (next? : Option (Ground × String)) : AncestorSearch :=
  ⟨t.visits ++ [v], next?⟩

@[simp] theorem places_visit (t : AncestorSearch) (v : Visit) (next? : Option (Ground × String)) :
    (t.visit v next?).places = t.places ++ [v.place] :=
  List.map_append

@[simp] theorem visits_visit (t : AncestorSearch) (v : Visit) (next? : Option (Ground × String)) :
    (t.visit v next?).visits = t.visits ++ [v] := rfl

end AncestorSearch

namespace Suite

variable {s : Suite} {settings : Settings} {id : SheetId} {done : List Style}
  {first : Ground × String} {t t' : AncestorSearch}

/-! ## One step -/

/-- One step of a search. It is over if there is nothing to look for, or if the place was visited or
has no style. -/
def advance? (s : Suite) (id : SheetId) (done : List Style) (t : AncestorSearch) :
    Option AncestorSearch :=
  t.next?.bind fun place =>
    if t.places.contains place then none
    else (s.styleOn? done place.1 place.2).map fun x =>
      t.visit ⟨place, x⟩ (s.nextAncestor? id place.1 x)

/-- All that a step can do. -/
theorem advance?_eq_some_iff : s.advance? id done t = some t' ↔
    ∃ v, t.next? = some v.place ∧ v.place ∉ t.places ∧
      s.styleOn? done v.place.1 v.place.2 = some v.style ∧
      t' = t.visit v (s.nextAncestor? id v.place.1 v.style) := by
  unfold advance?
  constructor
  · intro h
    obtain ⟨place, hplace, h⟩ := Option.bind_eq_some_iff.1 h
    split at h
    · cases h
    · next hnew =>
      rw [List.contains_iff_mem] at hnew
      obtain ⟨x, hx, rfl⟩ := Option.map_eq_some_iff.1 h
      exact ⟨⟨place, x⟩, hplace, hnew, hx, rfl⟩
  · rintro ⟨v, hplace, hnew, hx, rfl⟩
    rw [← List.contains_iff_mem] at hnew
    rw [hplace, Option.bind_some, if_neg hnew, hx]
    rfl

/-! ## The search ends -/

/-- The places at which a style can be found. -/
def lookups (s : Suite) (done : List Style) : List (Ground × String) :=
  done.map (fun x => (.own, x.name)) ++
    (SheetId.imported :: s.ids).flatMap (fun b =>
      (s.sheet b).allStyles.map fun x => (.base b, x.name)) ++
    (s.sheet .imported).allStyles.map fun x => (.imported, x.name)

/-- A stylesheet with a style is the imported one or a registered one. -/
theorem mem_ids_of_mem_allStyles {b : SheetId} {x : Style} (hx : x ∈ (s.sheet b).allStyles) :
    b ∈ SheetId.imported :: s.ids := by
  cases b with
  | imported => exact List.mem_cons_self
  | registered i =>
    refine List.mem_cons_of_mem _ (mem_ids.2 ⟨i, ?_, rfl⟩)
    by_contra hlt
    rw [sheet, sheet?, List.getElem?_eq_none (Nat.not_lt.1 hlt)] at hx
    cases hx

/-- A place at which a style is found is one of the look-ups. -/
theorem mem_lookups {place : Ground × String} {x : Style}
    (h : s.styleOn? done place.1 place.2 = some x) : place ∈ s.lookups done := by
  obtain ⟨ground, n⟩ := place
  unfold lookups
  cases ground with
  | own =>
    obtain rfl : x.name = n := by simpa using List.find?_some h
    exact List.mem_append_left _ (List.mem_append_left _
      (List.mem_map_of_mem (List.mem_of_find?_eq_some h)))
  | base b =>
    obtain ⟨hx, rfl⟩ := mem_of_find? h
    exact List.mem_append_left _ (List.mem_append_right _ (List.mem_flatMap.2
      ⟨b, mem_ids_of_mem_allStyles hx, List.mem_map_of_mem hx⟩))
  | imported =>
    obtain ⟨c, hc, hxc⟩ := Option.bind_eq_some_iff.1 h
    obtain ⟨hx, rfl⟩ := mem_of_find? hxc
    obtain ⟨_, -, rfl⟩ := Option.map_eq_some_iff.1 hc
    exact List.mem_append_right _ (List.mem_map_of_mem hx)

/-- The places at which a search can still find a style. -/
def unvisited (s : Suite) (done : List Style) (t : AncestorSearch) : Finset (Ground × String) :=
  (s.lookups done).toFinset \ t.places.toFinset

/-- Each step leaves fewer look-ups that were not visited. -/
theorem unvisited_ssubset (h : s.advance? id done t = some t') :
    s.unvisited done t' ⊂ s.unvisited done t := by
  obtain ⟨v, -, hnew, hx, rfl⟩ := advance?_eq_some_iff.1 h
  -- what is missing behind the step is the place of the visit
  rw [Finset.ssubset_iff_of_subset]
  · refine ⟨v.place, ?_, ?_⟩
    · simp [unvisited, mem_lookups hx, hnew]
    · simp [unvisited]
  · intro p
    simp only [unvisited, AncestorSearch.places_visit, Finset.mem_sdiff, List.mem_toFinset,
      List.mem_append, not_or]
    exact fun ⟨hp, hnot, _⟩ => ⟨hp, hnot⟩

/-- Searches do not go on for ever, whatever the styles extend: each step visits one more of
finitely many places. -/
theorem wellFounded_advance? (s : Suite) (id : SheetId) (done : List Style) :
    WellFounded fun t' t => s.advance? id done t = some t' :=
  Subrelation.wf (fun h => Finset.card_lt_card (unvisited_ssubset h))
    (measure fun t => (s.unvisited done t).card).wf

/-- The search without a bound ends. -/
theorem exists_mem_eval (s : Suite) (id : SheetId) (done : List Style) (t : AncestorSearch) :
    ∃ t', t' ∈ eval (s.advance? id done) t := by
  induction t using (s.wellFounded_advance? id done).induction with
  | h t ih =>
    cases h : s.advance? id done t with
    | none => exact ⟨t, mem_eval.2 ⟨.refl, h⟩⟩
    | some t₁ =>
      obtain ⟨t', ht'⟩ := ih t₁ h
      exact ⟨t', StateTransition.reaches_eval (.single h) ▸ ht'⟩

/-! ## What was visited -/

/-- A visited style names the next one: an overriding style of the own stylesheet its counterpart in
the base, every other style the one that it extends, on the same ground or among the imported
ones. -/
inductive NamesNext (s : Suite) (id : SheetId) (a b : Visit) : Prop
  | counterpart {base : SheetId} : a.place.1 = .own → a.style.head.isOverride = true →
    s.superclass? id = some base → b.place = (.base base, a.style.name) → NamesNext s id a b
  | extended {name : String} : ¬(a.place.1 = .own ∧ a.style.head.isOverride = true) →
    a.style.head.superclass = some name →
    b.place = (if a.style.head.extendsImported then .imported else a.place.1, name) →
    NamesNext s id a b

/-- A step goes where the style that it leaves says. -/
theorem namesNext_of_nextAncestor? {a b : Visit}
    (h : s.nextAncestor? id a.place.1 a.style = some b.place) : s.NamesNext id a b := by
  unfold nextAncestor? at h
  split at h
  · next hover =>
    obtain ⟨hoverride, hown⟩ := Bool.and_eq_true_iff.1 hover
    obtain ⟨base, hbase, hplace⟩ := Option.map_eq_some_iff.1 h
    exact .counterpart (of_decide_eq_true hown) hoverride hbase hplace.symm
  · next hover =>
    obtain ⟨name, hname, hplace⟩ := Option.map_eq_some_iff.1 h
    refine .extended (fun ⟨hown, hoverride⟩ => hover ?_) hname hplace.symm
    rw [hoverride, decide_eq_true hown]
    rfl

/-- A search from a place on: no place is visited twice, each visit is to the style that is found
there, and each one but the first is where the one before it says. -/
structure Itinerary (s : Suite) (id : SheetId) (done : List Style) (first : Ground × String)
    (t : AncestorSearch) : Prop where
  nodup : t.places.Nodup
  found : ∀ v ∈ t.visits, s.styleOn? done v.place.1 v.place.2 = some v.style
  head : ∀ v ∈ t.visits.head?, v.place = first
  chain : t.visits.IsChain (s.NamesNext id)
  next : t.next? = t.visits.getLast?.elim (some first) fun v =>
    s.nextAncestor? id v.place.1 v.style

/-- The search begins without a visit. -/
theorem itinerary_start (first : Ground × String) :
    s.Itinerary id done first (.start first) where
  nodup := .nil
  found := nofun
  head := nofun
  chain := .nil
  next := rfl

/-- A step goes on with the itinerary. -/
theorem Itinerary.advance? (h : s.Itinerary id done first t)
    (hstep : s.advance? id done t = some t') : s.Itinerary id done first t' := by
  obtain ⟨v, hnext, hnew, hx, rfl⟩ := advance?_eq_some_iff.1 hstep
  constructor
  case nodup =>
    rw [AncestorSearch.places_visit]
    exact nodup_snoc h.nodup hnew
  case found =>
    intro w hw
    rcases List.mem_append.1 hw with hw | hw
    · exact h.found w hw
    · cases List.mem_singleton.1 hw
      exact hx
  case head =>
    intro w hw
    rw [AncestorSearch.visits_visit] at hw
    cases hvisits : t.visits with
    | nil =>
      -- the new visit is the first one
      rw [h.next, hvisits] at hnext
      rw [hvisits] at hw
      cases hw
      exact (Option.some.inj hnext).symm
    | cons u us =>
      rw [hvisits] at hw
      exact h.head w (hvisits ▸ hw)
  case chain =>
    refine h.chain.append (.singleton v) fun u hu w hw => ?_
    cases hw
    rw [h.next, Option.mem_def.1 hu] at hnext
    exact namesNext_of_nextAncestor? hnext
  case next =>
    rw [AncestorSearch.visits_visit, List.getLast?_concat]
    rfl

theorem Itinerary.of_reaches (h : s.Itinerary id done first t)
    (hreaches : Reaches (s.advance? id done) t t') : s.Itinerary id done first t' := by
  induction hreaches with
  | refl => exact h
  | tail _ hstep ih => exact ih.advance? hstep

/-! ## The bounded search -/

/-- A visited style as an ancestor. -/
def ancestorAt (s : Suite) (settings : Settings) (id : SheetId) (v : Visit) : Ancestor :=
  ⟨s.classPath settings id v.place.1 v.style, v.style⟩

/-- What the bounded search finds from a search on. -/
def ancestorsAfter (s : Suite) (settings : Settings) (id : SheetId) (done : List Style)
    (steps : Nat) (t : AncestorSearch) : List Ancestor :=
  t.visits.map (s.ancestorAt settings id) ++
    match t.next? with
    | some next => s.ancestorsFrom settings id done steps t.places next
    | none => []

/-- A step with one more step allowed is the search after it. -/
theorem ancestorsAfter_of_advance? (h : s.advance? id done t = some t') (steps : Nat) :
    s.ancestorsAfter settings id done (steps + 1) t =
      s.ancestorsAfter settings id done steps t' := by
  obtain ⟨v, hnext, hnew, hx, rfl⟩ := advance?_eq_some_iff.1 h
  rw [ancestorsAfter, ancestorsAfter, hnext]
  dsimp only
  rw [ancestorsFrom, if_neg hnew, hx, AncestorSearch.visits_visit, List.map_append,
    List.append_assoc, AncestorSearch.places_visit]
  rfl

/-- Where the search has ended more steps change nothing. -/
theorem ancestorsAfter_of_end (h : s.advance? id done t = none) (steps : Nat) :
    s.ancestorsAfter settings id done steps t = t.visits.map (s.ancestorAt settings id) := by
  rw [ancestorsAfter]
  cases hnext : t.next? with
  | none => exact List.append_nil _
  | some next =>
    rw [advance?, hnext, Option.bind_some] at h
    refine (congrArg _ ?_).trans (List.append_nil _)
    cases steps with
    | zero => rfl
    | succ steps =>
      dsimp only
      rw [ancestorsFrom]
      split at h
      · next hmet => rw [if_pos (List.contains_iff_mem.1 hmet)]
      · next hnew =>
        rw [List.contains_iff_mem] at hnew
        rw [if_neg hnew, Option.map_eq_none_iff.1 h]

/-- The bounded search needs one step for each visit. -/
theorem exists_ancestorsAfter (settings : Settings) (hreaches : Reaches (s.advance? id done) t t')
    (hend : s.advance? id done t' = none) :
    ∃ n, t'.visits.length = t.visits.length + n ∧ ∀ more,
      s.ancestorsAfter settings id done (more + n) t =
        t'.visits.map (s.ancestorAt settings id) := by
  -- from the end of the run backwards, as the bounded search spends its first step first
  induction hreaches using Relation.ReflTransGen.head_induction_on with
  | refl => exact ⟨0, rfl, fun more => ancestorsAfter_of_end hend more⟩
  | head hstep _ ih =>
    obtain ⟨n, hlength, hafter⟩ := ih
    refine ⟨n + 1, ?_, fun more => ?_⟩
    · obtain ⟨v, -, -, -, rfl⟩ := advance?_eq_some_iff.1 hstep
      rw [hlength, AncestorSearch.visits_visit, List.length_append, List.length_singleton]
      omega
    · rw [← Nat.add_assoc, ancestorsAfter_of_advance? hstep, hafter]

/-- With as many steps as there are visits the bounded search finds the visited styles. -/
theorem ancestorsFrom_eq_of_eval (h : t ∈ eval (s.advance? id done) (.start first)) {steps : Nat}
    (hsteps : t.visits.length ≤ steps) :
    s.ancestorsFrom settings id done steps [] first =
      t.visits.map (s.ancestorAt settings id) := by
  obtain ⟨hreaches, hend⟩ := mem_eval.1 h
  obtain ⟨n, hlength, hafter⟩ := exists_ancestorsAfter settings hreaches hend
  rw [show (AncestorSearch.start first).visits.length = 0 from rfl, Nat.zero_add] at hlength
  obtain ⟨more, rfl⟩ := Nat.exists_eq_add_of_le' (hlength ▸ hsteps)
  exact hafter more

/-- The search for ancestors ends in every suite, from every place, and although styles may extend
each other in a circle. It visits no place twice, and each style that it comes to is named by the
one before (`Itinerary`). A bound on the steps that is not below the number of visits changes
nothing; where a stylesheet of the suite is marked, the number of styles is such a bound. -/
theorem search_ends (s : Suite) (settings : Settings) (id : SheetId) (done : List Style)
    (first : Ground × String) :
    ∃ t, eval (s.advance? id done) (.start first) = Part.some t ∧ s.Itinerary id done first t ∧
      (∀ steps, t.visits.length ≤ steps →
        s.ancestorsFrom settings id done steps [] first =
          t.visits.map (s.ancestorAt settings id)) ∧
      (id ∈ s.ids → (∀ b, s.superclass? id = some b → b ∈ s.ids) →
        (∀ x ∈ done, x.name ∈ (s.sheet id).allStyles.map Style.name) →
        s.Reachable id first.1 →
        s.ancestorsFrom settings id done (s.styleCount + 1) [] first =
          t.visits.map (s.ancestorAt settings id)) := by
  obtain ⟨t, ht⟩ := s.exists_mem_eval id done (.start first)
  refine ⟨t, Part.eq_some_iff.2 ht, (itinerary_start first).of_reaches (mem_eval.1 ht).1,
    fun steps => ancestorsFrom_eq_of_eval ht, fun hid hbase hdone hfirst => ?_⟩
  have hsteps : s.styleCount < s.styleCount + 1 + t.visits.length := by omega
  rw [← ancestorsFrom_of_lt hid hbase hdone hfirst hsteps]
  exact ancestorsFrom_eq_of_eval ht (Nat.le_add_left _ _)

/-- A theme that overrides a style of the base, which extends one of two imported styles that extend
each other. -/
def circularImport : Suite :=
  ⟨[⟨"Base", [.mk { StyleHead.named "Card" with superclass := some "A", extendsImported := true }
        []], none, none, false, []⟩,
    ⟨"Dark", [.named "Card" []], none, some "Base", false, []⟩],
    some ⟨"Kit", [.mk { StyleHead.named "A" with superclass := some "B" } [],
      .mk { StyleHead.named "B" with superclass := some "A" } []], none, none, false, []⟩,
    some 0⟩

/-- Two styles of an imported stylesheet that extend each other are each visited once. -/
theorem search_ends_circularImport :
    let done := [.mk { StyleHead.named "Card" with isOverride := true } []]
    linked { circularImport with base? := none } = .ok circularImport ∧
    ∃ t, eval (circularImport.advance? (.registered 1) done) (.start (.own, "Card")) =
        Part.some t ∧
      (t.visits.map (circularImport.ancestorAt .standard (.registered 1))).map Ancestor.path =
        ["Dark.CardAppearanceProxy", "Base.CardAppearanceProxy", "Kit.AAppearanceProxy",
          "Kit.BAppearanceProxy"] := by
  intro done
  obtain ⟨t, ht, -, -, hmarked⟩ :=
    circularImport.search_ends .standard (.registered 1) done (.own, "Card")
  refine ⟨rfl, t, ht, ?_⟩
  rw [← hmarked (by decide) (by decide) (by decide) nofun]
  cbv

end Suite

end Appearance
