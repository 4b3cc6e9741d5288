import Appearance.Proofs.RedirectCycles
import Mathlib.Data.Finset.Card

/-!
# Looking for types ends

The type of a value is found by a recursion without a bound: a redirect leads to a value of any size
in another stylesheet, with redirects of its own. `ValueEnds`, `ItemsEnd` and `PathEnds` are the
runs of that recursion that come to an end, step by step and with no depth; a run that goes on for
ever is none of them.

Every run ends, in one way only (`typing_ends`). What grows shorter is the list of paths that may
still be met: a path that is followed was not met before, and stands in a redirect of the suite or
of the value at the start (`card_unmet_snoc`). Between two paths a value is taken apart. So
`pathType`, which counts redirects, comes to the same end as soon as it may follow as many as there
are such paths.
-/

namespace Appearance.Suite

/-- What a search for types gives at its end: its result with all paths met, or an error. -/
abbrev Ending (α : Type) := Except SuiteError (α × Trail)

variable {s : Suite} {id : SheetId} {v : Value} {path : String} {trail : Trail}

/-! ## Runs that end -/

mutual

/-- The search for the type of a value that stands in a stylesheet ends, begun with paths that were
met before. -/
inductive ValueEnds (s : Suite) : SheetId → Value → Trail → Ending String → Prop
  | literal {id : SheetId} {v : Value} {trail : Trail} : v.isLiteral = true →
    ValueEnds s id v trail (.ok (v.swiftType, trail))
  | redirect {id : SheetId} {r : Redirect} {trail : Trail} {result : Ending String} :
    PathEnds s id r.path trail result → ValueEnds s id (.redirect r) trail result
  | noBranch {id : SheetId} {trail : Trail} :
    ValueEnds s id (.conditional []) trail (.ok ((Value.conditional []).swiftType, trail))
  | firstBranch {id : SheetId} {c : Condition} {v : Value} {bs : List (Condition × Value)}
    {trail : Trail} {result : Ending String} : ValueEnds s id v trail result →
    ValueEnds s id (.conditional ((c, v) :: bs)) trail result
  | array {id : SheetId} {vs : List Value} {trail trail' : Trail} {types : List String} :
    ItemsEnd s id vs trail (.ok (types, trail')) →
    ValueEnds s id (.array vs) trail (.ok (Value.arrayType types, trail'))
  | arrayError {id : SheetId} {vs : List Value} {trail : Trail} {e : SuiteError} :
    ItemsEnd s id vs trail (.error e) → ValueEnds s id (.array vs) trail (.error e)

/-- The search for the types of items, from left to right, ends. -/
inductive ItemsEnd (s : Suite) : SheetId → List Value → Trail → Ending (List String) → Prop
  | nil {id : SheetId} {trail : Trail} : ItemsEnd s id [] trail (.ok ([], trail))
  | cons {id : SheetId} {v : Value} {vs : List Value} {trail trail' trail'' : Trail} {type : String}
    {types : List String} : ValueEnds s id v trail (.ok (type, trail')) →
    ItemsEnd s id vs trail' (.ok (types, trail'')) →
    ItemsEnd s id (v :: vs) trail (.ok (type :: types, trail''))
  | headError {id : SheetId} {v : Value} {vs : List Value} {trail : Trail} {e : SuiteError} :
    ValueEnds s id v trail (.error e) → ItemsEnd s id (v :: vs) trail (.error e)
  | tailError {id : SheetId} {v : Value} {vs : List Value} {trail trail' : Trail} {type : String}
    {e : SuiteError} : ValueEnds s id v trail (.ok (type, trail')) →
    ItemsEnd s id vs trail' (.error e) → ItemsEnd s id (v :: vs) trail (.error e)

/-- The search for the type behind a path, looked up from a stylesheet, ends. -/
inductive PathEnds (s : Suite) : SheetId → String → Trail → Ending String → Prop
  | met {id : SheetId} {path : String} {trail : Trail} : path ∈ trail →
    PathEnds s id path trail (.error (.redirectCycle (trail ++ [path])))
  | noTarget {id : SheetId} {path : String} {trail : Trail} {e : SuiteError} : path ∉ trail →
    s.target id path = .error e → PathEnds s id path trail (.error e)
  | style {id found : SheetId} {path : String} {trail : Trail} {k : PropertyHead} {x : Style} :
    path ∉ trail → s.target id path = .ok ⟨found, .nested k x⟩ →
    PathEnds s id path trail (.error (.redirectTarget path (s.sheet found).name))
  | value {id found : SheetId} {path : String} {trail : Trail} {k : PropertyHead} {v : Value}
    {result : Ending String} : path ∉ trail → s.target id path = .ok ⟨found, .leaf k v⟩ →
    ValueEnds s found v (trail ++ [path]) result → PathEnds s id path trail result

end

/-! ## Each run has one end -/

theorem valueType_of_isLiteral {follow : String → Trail → Ending String}
    (h : v.isLiteral = true) : valueType follow v trail = .ok (v.swiftType, trail) := by
  cases v <;> first | rfl | cases h

mutual

/-- A run that ends is what is computed with any depth from some on. -/
theorem ValueEnds.computed {s : Suite} {id : SheetId} {v : Value} {trail : Trail}
    {result : Ending String} : ValueEnds s id v trail result →
    ∃ n, ∀ depth, n ≤ depth → valueType (s.pathType depth id) v trail = result
  | .literal h => ⟨0, fun _ _ => valueType_of_isLiteral h⟩
  | .redirect h => h.computed
  | .noBranch => ⟨0, fun _ _ => rfl⟩
  | .firstBranch h => h.computed
  | .array h =>
    have ⟨n, hn⟩ := h.computed
    ⟨n, fun depth hdepth => by rw [valueType, hn depth hdepth]⟩
  | .arrayError h =>
    have ⟨n, hn⟩ := h.computed
    ⟨n, fun depth hdepth => by rw [valueType, hn depth hdepth]⟩

/-- Types of items that are found are computed at any depth that is large enough. -/
theorem ItemsEnd.computed {s : Suite} {id : SheetId} {vs : List Value} {trail : Trail}
    {result : Ending (List String)} : ItemsEnd s id vs trail result →
    ∃ n, ∀ depth, n ≤ depth → itemTypes (s.pathType depth id) vs trail = result
  | .nil => ⟨0, fun _ _ => rfl⟩
  | .cons hv hvs =>
    have ⟨n, hn⟩ := hv.computed
    have ⟨m, hm⟩ := hvs.computed
    ⟨max n m, fun depth hdepth => by
      rw [itemTypes, hn depth (Nat.max_le.1 hdepth).1]
      dsimp only
      rw [hm depth (Nat.max_le.1 hdepth).2]⟩
  | .headError hv =>
    have ⟨n, hn⟩ := hv.computed
    ⟨n, fun depth hdepth => by rw [itemTypes, hn depth hdepth]⟩
  | .tailError hv hvs =>
    have ⟨n, hn⟩ := hv.computed
    have ⟨m, hm⟩ := hvs.computed
    ⟨max n m, fun depth hdepth => by
      rw [itemTypes, hn depth (Nat.max_le.1 hdepth).1]
      dsimp only
      rw [hm depth (Nat.max_le.1 hdepth).2]⟩

/-- The type at the end of a path is computed at any depth that is large enough. -/
theorem PathEnds.computed {s : Suite} {id : SheetId} {path : String} {trail : Trail}
    {result : Ending String} : PathEnds s id path trail result →
    ∃ n, ∀ depth, n ≤ depth → s.pathType depth id path trail = result
  | .met h => ⟨0, fun depth _ => by
      cases depth with
      | zero => rfl
      | succ depth => rw [pathType, if_pos h]⟩
  | .noTarget hnew htarget => ⟨1, fun depth hdepth => by
      cases depth with
      | zero => cases hdepth
      | succ depth => rw [pathType, if_neg hnew]; dsimp only; rw [htarget]⟩
  | .style hnew htarget => ⟨1, fun depth hdepth => by
      cases depth with
      | zero => cases hdepth
      | succ depth => rw [pathType, if_neg hnew]; dsimp only; rw [htarget]⟩
  | .value hnew htarget hv =>
    have ⟨n, hn⟩ := hv.computed
    ⟨n + 1, fun depth hdepth => by
      cases depth with
      | zero => cases hdepth
      | succ depth =>
        rw [pathType, if_neg hnew]
        dsimp only
        rw [htarget]
        exact hn depth (Nat.le_of_succ_le_succ hdepth)⟩

end

theorem ValueEnds.unique {result result' : Ending String} (h : ValueEnds s id v trail result)
    (h' : ValueEnds s id v trail result') : result' = result := by
  obtain ⟨n, hn⟩ := h.computed
  obtain ⟨m, hm⟩ := h'.computed
  rw [← hn (max n m) (le_max_left n m), ← hm (max n m) (le_max_right n m)]

theorem PathEnds.unique {result result' : Ending String} (h : PathEnds s id path trail result)
    (h' : PathEnds s id path trail result') : result' = result := by
  obtain ⟨n, hn⟩ := h.computed
  obtain ⟨m, hm⟩ := h'.computed
  rw [← hn (max n m) (le_max_left n m), ← hm (max n m) (le_max_right n m)]

/-! ## Every run ends -/

/-- The paths of a list that were not met. -/
def unmet (paths : List String) (trail : Trail) : Finset String := paths.toFinset \ trail.toFinset

section Unmet

variable {paths : List String} {trail' : Trail}

theorem card_unmet_le (h : trail ⊆ trail') : (unmet paths trail').card ≤ (unmet paths trail).card :=
  Finset.card_le_card <| Finset.sdiff_subset_sdiff (Finset.Subset.refl _) fun _ hp =>
    List.mem_toFinset.2 (h (List.mem_toFinset.1 hp))

/-- A path that is met for the first time is unmet no more. -/
theorem card_unmet_snoc (hpath : path ∈ paths) (hnew : path ∉ trail) :
    (unmet paths (trail ++ [path])).card < (unmet paths trail).card := by
  refine Finset.card_lt_card <| (Finset.ssubset_iff_of_subset ?_).2 ⟨path, ?_, ?_⟩
  · intro p hp
    simp only [unmet, Finset.mem_sdiff, List.mem_toFinset, List.mem_append, not_or] at hp ⊢
    exact ⟨hp.1, hp.2.1⟩
  · simp [unmet, hpath, hnew]
  · simp [unmet]

end Unmet

/-- No path that was met is forgotten. -/
theorem subset_of_pathType {depth : Nat} {t : String × Trail}
    (h : s.pathType depth id path trail = .ok t) : trail ⊆ t.2 := by
  induction depth generalizing id path trail t with
  | zero => cases h
  | succ depth ih =>
    obtain ⟨depth', found, k, v, hdepth, -, -, hvalue⟩ := pathType_ok h
    cases hdepth
    refine followAll_ok (p := fun trail' => trail ⊆ trail') (fun q _ trail' t' htrail ht => ?_)
      (List.subset_append_left trail [path]) (followAll_of_valueType_ok hvalue)
    exact List.Subset.trans htrail (ih ht)

theorem subset_of_valueType {depth : Nat} {t : String × Trail}
    (h : valueType (s.pathType depth id) v trail = .ok t) : trail ⊆ t.2 :=
  followAll_ok (p := fun trail' => trail ⊆ trail')
    (fun _ _ _ _ htrail ht => List.Subset.trans htrail (subset_of_pathType ht))
    (List.Subset.refl _) (followAll_of_valueType_ok h)

section Value

variable {depth : Nat}

/-- If the type of each item is found, those of all are. -/
theorem itemsEnd_itemTypes {vs : List Value}
    (hvs : ∀ v ∈ vs, ∀ trail', trail ⊆ trail' →
      ValueEnds s id v trail' (valueType (s.pathType depth id) v trail')) :
    ItemsEnd s id vs trail (itemTypes (s.pathType depth id) vs trail) := by
  induction vs generalizing trail with
  | nil => exact .nil
  | cons v vs ih =>
    have hv := hvs v List.mem_cons_self trail (List.Subset.refl _)
    rw [itemTypes]
    cases hhead : valueType (s.pathType depth id) v trail with
    | error e =>
      rw [hhead] at hv
      exact .headError hv
    | ok t =>
      rw [hhead] at hv
      have hsub : trail ⊆ t.2 := subset_of_valueType hhead
      have hrest : ItemsEnd s id vs t.2 (itemTypes (s.pathType depth id) vs t.2) :=
        ih fun u hu trail' htrail' =>
          hvs u (List.mem_cons_of_mem v hu) trail' (List.Subset.trans hsub htrail')
      dsimp only
      cases htail : itemTypes (s.pathType depth id) vs t.2 with
      | error e =>
        rw [htail] at hrest
        exact .tailError hv hrest
      | ok ts =>
        rw [htail] at hrest
        exact .cons hv hrest

/-- If the paths of its redirects are followed to the end, whatever was met till then, so is a value
taken apart to the end. -/
theorem valueEnds_valueType
    (hfollow : ∀ q ∈ v.redirects, ∀ trail', trail ⊆ trail' →
      PathEnds s id q.path trail' (s.pathType depth id q.path trail')) :
    ValueEnds s id v trail (valueType (s.pathType depth id) v trail) := by
  induction v using Value.induction generalizing trail with
  | literal v hv =>
    rw [valueType_of_isLiteral hv]
    exact .literal hv
  | redirect r => exact .redirect (hfollow r (List.mem_singleton_self r) trail (List.Subset.refl _))
  | conditional bs ih =>
    cases bs with
    | nil => exact .noBranch
    | cons b bs =>
      obtain ⟨c, v⟩ := b
      rw [Value.redirects_conditional] at hfollow
      exact .firstBranch <| ih c v List.mem_cons_self fun q hq =>
        hfollow q (List.mem_append_left _ hq)
  | array vs ih =>
    rw [Value.redirects_array] at hfollow
    have hitems : ItemsEnd s id vs trail (itemTypes (s.pathType depth id) vs trail) :=
      itemsEnd_itemTypes fun v hv trail' htrail' => ih v hv fun q hq trail'' htrail'' =>
        hfollow q (List.mem_flatMap.2 ⟨v, hv, hq⟩) trail'' (List.Subset.trans htrail' htrail'')
    rw [valueType]
    cases h : itemTypes (s.pathType depth id) vs trail with
    | error e =>
      rw [h] at hitems
      exact .arrayError hitems
    | ok t =>
      rw [h] at hitems
      exact .array hitems

end Value

/-- A path is followed to the end at any depth not below the number of paths that may still be
met. -/
theorem pathEnds_pathType {paths : List String} (hpaths : s.redirects.map Redirect.path ⊆ paths)
    {depth : Nat} (hpath : path ∈ paths) (hdepth : (unmet paths trail).card ≤ depth) :
    PathEnds s id path trail (s.pathType depth id path trail) := by
  induction depth generalizing id path trail with
  | zero =>
    -- all paths were met
    refine .met (Classical.not_not.1 fun hnew => ?_)
    exact absurd (card_unmet_snoc hpath hnew) (by omega)
  | succ depth ih =>
    rw [pathType]
    split
    · next hmet => exact .met hmet
    · next hnew =>
      dsimp only
      split
      · next htarget => exact .noTarget hnew htarget
      · next found k v htarget =>
        have hless := card_unmet_snoc hpath hnew
        refine .value hnew htarget (valueEnds_valueType fun q hq trail' htrail' => ?_)
        refine ih (hpaths (path_mem_redirects (mem_leaves_of_target htarget).2 hq)) ?_
        have hle : (unmet paths trail').card ≤ (unmet paths (trail ++ [path])).card :=
          card_unmet_le htrail'
        omega
      · next htarget => exact .style hnew htarget

/-- The paths that a search may meet: those in the redirects of the suite and at its start. -/
def pathsFrom (s : Suite) (start : List Redirect) : List String :=
  (start ++ s.redirects).map Redirect.path

theorem redirects_subset_pathsFrom (start : List Redirect) :
    s.redirects.map Redirect.path ⊆ s.pathsFrom start :=
  List.map_subset _ (List.subset_append_right start s.redirects)

theorem mem_pathsFrom {start : List Redirect} {q : Redirect} (h : q ∈ start) :
    q.path ∈ s.pathsFrom start :=
  List.mem_map_of_mem (List.mem_append_left _ h)

/-- From any stylesheet, the search for the type of any value, and behind any path, ends in exactly
one way, whatever was met before. The bounded search ends in that way with every depth not below the
number of paths that may still be met, and so with the depth at which redirects are resolved. -/
theorem typing_ends (s : Suite) (id : SheetId) (trail : Trail) :
    (∀ v, (∃! result, ValueEnds s id v trail result) ∧ ∀ more, ValueEnds s id v trail
      (valueType (s.pathType ((unmet (s.pathsFrom v.redirects) trail).card + more) id) v trail)) ∧
    (∀ r : Redirect, (∃! result, PathEnds s id r.path trail result) ∧
      ∀ more, PathEnds s id r.path trail
        (s.pathType ((unmet (s.pathsFrom [r]) trail).card + more) id r.path trail)) ∧
    ∀ r : Redirect, PathEnds s id r.path [] (s.pathType (s.redirects.length + 1) id r.path []) := by
  have hvalue : ∀ v more, ValueEnds s id v trail
      (valueType (s.pathType ((unmet (s.pathsFrom v.redirects) trail).card + more) id) v trail) :=
    fun v more => valueEnds_valueType fun q hq trail' htrail' =>
      pathEnds_pathType (redirects_subset_pathsFrom v.redirects) (mem_pathsFrom hq)
        ((card_unmet_le htrail').trans (Nat.le_add_right _ more))
  have hpath : ∀ (r : Redirect) trail depth, (unmet (s.pathsFrom [r]) trail).card ≤ depth →
      PathEnds s id r.path trail (s.pathType depth id r.path trail) := fun r trail depth =>
    pathEnds_pathType (redirects_subset_pathsFrom [r]) (mem_pathsFrom (List.mem_singleton_self r))
  refine ⟨fun v => ⟨⟨_, hvalue v 0, fun _ h => (hvalue v 0).unique h⟩, hvalue v⟩, fun r => ?_,
    fun r => hpath r [] _ ?_⟩
  · have h := fun more => hpath r trail _ (Nat.le_add_right _ more)
    exact ⟨⟨_, h 0, fun _ => (h 0).unique⟩, h⟩
  · calc (unmet (s.pathsFrom [r]) []).card
        ≤ (s.pathsFrom [r]).toFinset.card := Finset.card_le_card Finset.sdiff_subset
      _ ≤ (s.pathsFrom [r]).length := List.toFinset_card_le _
      _ = s.redirects.length + 1 := by simp [pathsFrom, Nat.add_comm]

end Appearance.Suite
