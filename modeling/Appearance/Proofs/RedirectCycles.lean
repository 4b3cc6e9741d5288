import Appearance.Proofs.Redirects
import Mathlib.Data.List.Chain
import Mathlib.Data.List.Perm.Subperm
import Mathlib.Logic.Relation

/-!
# Cycles that are reported

Preparation fails with a cycle of redirects when a path is met twice while types are looked for. The
redirects in a value are looked up one after the other (`trail_valueType`), and the paths that were
met are kept in one list for all of them. So the last path of a reported cycle was met before, and
each one was met because an earlier one redirects to it (`paths_of_redirectCycle`).

Where the type of each value depends on one redirect at most, the list is the chain of redirects
that was followed, and the cycle is one. With two items of an array it need not be: two that lead to
the same property are taken for a cycle (`falseCycle_sharedItem`).
-/

namespace Appearance.Suite

open Relation (TransGen)

/-- A path looked up from a stylesheet leads to a value, and a redirect of that to another path,
looked up from where the value was found. -/
def Leads (s : Suite) (a b : SheetId × String) : Prop :=
  ∃ k v, s.target a.1 a.2 = .ok ⟨b.1, .leaf k v⟩ ∧ ∃ q ∈ v.redirects, q.path = b.2

/-- What one path leads to redirects to the other, looked up from some stylesheet. -/
def RedirectsTo (s : Suite) (path path' : String) : Prop :=
  ∃ id id', s.Leads (id, path) (id', path')

/-- Paths that are met one after the other, each but the first because one that was met redirects to
it. -/
inductive Met (s : Suite) : Trail → Prop
  | nil : Met s []
  | snoc {trail : Trail} {path : String} : Met s trail →
    (trail ≠ [] → ∃ p ∈ trail, s.RedirectsTo p path) → Met s (trail ++ [path])

/-- The type of each value depends on at most one redirect. -/
def SingleRedirects (s : Suite) : Prop :=
  ∀ t ∈ s.sheets, ∀ v ∈ t.leaves, v.followed.length ≤ 1

instance (s : Suite) : Decidable s.SingleRedirects :=
  inferInstanceAs (Decidable (∀ t ∈ s.sheets, ∀ v ∈ t.leaves, v.followed.length ≤ 1))

/-! ## One value -/

/-- Follows redirects one after the other, and gives the paths that were met. -/
def followAll (follow : String → Trail → Except SuiteError (String × Trail)) (qs : List Redirect)
    (trail : Trail) : Except SuiteError Trail :=
  qs.foldlM (fun trail q => (follow q.path trail).map Prod.snd) trail

section Value

variable {follow : String → Trail → Except SuiteError (String × Trail)} {qs : List Redirect}
  {trail trail' : Trail} {e : SuiteError}

theorem followAll_singleton (q : Redirect) :
    followAll follow [q] trail = (follow q.path trail).map Prod.snd := by
  rw [followAll, List.foldlM_cons]
  cases follow q.path trail <;> rfl

theorem followAll_append (rs : List Redirect) :
    followAll follow (qs ++ rs) trail = (followAll follow qs trail).bind (followAll follow rs) :=
  List.foldlM_append

/-- The paths that items leave behind are those that their redirects leave. -/
theorem trail_itemTypes {vs : List Value}
    (ih : ∀ v ∈ vs, ∀ trail,
      (valueType follow v trail).map Prod.snd = followAll follow v.followed trail) :
    (itemTypes follow vs trail).map Prod.snd =
      followAll follow (vs.flatMap Value.followed) trail := by
  induction vs generalizing trail with
  | nil => rfl
  | cons v vs ihvs =>
    rw [List.flatMap_cons, followAll_append, ← ih v List.mem_cons_self, itemTypes]
    cases valueType follow v trail with
    | error e => rfl
    | ok t =>
      have hrest : (itemTypes follow vs t.2).map Prod.snd =
          followAll follow (vs.flatMap Value.followed) t.2 :=
        ihvs fun u hu => ih u (List.mem_cons_of_mem v hu)
      refine Eq.trans ?_ hrest
      dsimp only
      cases itemTypes follow vs t.2 <;> rfl

/-- The type of a value is found by following those redirects on which it depends. -/
theorem trail_valueType (follow : String → Trail → Except SuiteError (String × Trail)) (v : Value)
    (trail : Trail) :
    (valueType follow v trail).map Prod.snd = followAll follow v.followed trail := by
  induction v using Value.induction generalizing trail with
  | literal v hv =>
    rw [Value.followed_of_isLiteral hv]
    cases v <;> first | rfl | cases hv
  | redirect r =>
    rw [valueType, Value.followed, followAll_singleton]
  | conditional bs ih =>
    cases bs with
    | nil => rfl
    | cons b bs =>
      obtain ⟨c, v⟩ := b
      exact ih c v List.mem_cons_self trail
  | array vs ih =>
    rw [Value.followed_array, ← trail_itemTypes ih, valueType]
    cases itemTypes follow vs trail <;> rfl

theorem followAll_of_valueType_ok {v : Value} {type : String}
    (h : valueType follow v trail = .ok (type, trail')) :
    followAll follow v.followed trail = .ok trail' := by
  rw [← trail_valueType, h]
  rfl

theorem followAll_of_valueType_error {v : Value} (h : valueType follow v trail = .error e) :
    followAll follow v.followed trail = .error e := by
  rw [← trail_valueType, h]
  rfl

variable {p : Trail → Prop}
  (hfollow : ∀ q ∈ qs, ∀ trail t, p trail → follow q.path trail = .ok t → p t.2)

include hfollow

/-- What following one redirect keeps of the paths that were met, following several does. -/
theorem followAll_ok (htrail : p trail) (h : followAll follow qs trail = .ok trail') : p trail' :=
  foldlM_ok (fun q hq c _ hc hd => by
    obtain ⟨t, ht, rfl⟩ := map_eq_ok.1 hd
    exact hfollow q hq c t hc ht) htrail h

/-- Several redirects fail where one of them does, with paths met of which that holds. -/
theorem exists_of_followAll_error (htrail : p trail) (h : followAll follow qs trail = .error e) :
    ∃ q ∈ qs, ∃ trail', p trail' ∧ follow q.path trail' = .error e := by
  obtain ⟨q, hq, c, hc, hfail⟩ := exists_of_foldlM_eq_error (fun q hq c _ hc hd => by
    obtain ⟨t, ht, rfl⟩ := map_eq_ok.1 hd
    exact hfollow q hq c t hc ht) htrail h
  exact ⟨q, hq, c, hc, map_eq_error.1 hfail⟩

end Value

/-! ## One path -/

variable {s l u : Suite} {settings : Settings} {id : SheetId} {paths : List String}

/-- A stylesheet with a value is one of the suite. -/
theorem sheet_mem_sheets {v : Value} (h : v ∈ (s.sheet id).leaves) : s.sheet id ∈ s.sheets := by
  rw [sheet] at h ⊢
  cases ht : s.sheet? id with
  | none =>
    rw [ht] at h
    cases h
  | some t =>
    cases id with
    | registered i => exact List.mem_append_left _ (List.mem_of_getElem? ht)
    | imported => exact List.mem_append_right _ (Option.mem_toList.2 ht)

theorem path_mem_redirects {v : Value} (hv : v ∈ (s.sheet id).leaves) {q : Redirect}
    (hq : q ∈ v.redirects) : q.path ∈ s.redirects.map Redirect.path :=
  List.mem_map_of_mem <| List.mem_flatMap.2
    ⟨_, sheet_mem_sheets hv, Stylesheet.mem_redirects.2 ⟨v, hv, hq⟩⟩

theorem target_ne_redirectCycle (path : String) :
    s.target id path ≠ .error (.redirectCycle paths) := by
  unfold target
  split
  · simp
  · split <;> simp

/-- A path is looked up if it was not met, and then the value that it leads to has a type. -/
theorem pathType_ok {depth : Nat} {path : String} {trail : Trail} {t : String × Trail}
    (h : s.pathType depth id path trail = .ok t) :
    ∃ depth' found k v, depth = depth' + 1 ∧ path ∉ trail ∧
      s.target id path = .ok ⟨found, .leaf k v⟩ ∧
        valueType (s.pathType depth' found) v (trail ++ [path]) = .ok t := by
  cases depth with
  | zero => cases h
  | succ depth =>
    rw [pathType] at h
    split at h
    · cases h
    · next hnew =>
      dsimp only at h
      split at h
      · cases h
      · next found k v htarget => exact ⟨depth, found, k, v, rfl, hnew, htarget, h⟩
      · cases h

/-- A cycle is reported of a path where that was met, where the depth runs out, or where it is
reported of the value that the path leads to. -/
theorem pathType_redirectCycle {depth : Nat} {path : String} {trail : Trail}
    (h : s.pathType depth id path trail = .error (.redirectCycle paths)) :
    (paths = trail ++ [path] ∧ (depth = 0 ∨ path ∈ trail)) ∨
      ∃ depth' found k v, depth = depth' + 1 ∧ path ∉ trail ∧
        s.target id path = .ok ⟨found, .leaf k v⟩ ∧
          valueType (s.pathType depth' found) v (trail ++ [path]) =
            .error (.redirectCycle paths) := by
  cases depth with
  | zero =>
    cases h
    exact .inl ⟨rfl, .inl rfl⟩
  | succ depth =>
    rw [pathType] at h
    split at h
    · next hmem =>
      cases h
      exact .inl ⟨rfl, .inr hmem⟩
    · next hnew =>
      dsimp only at h
      split at h
      · next e he =>
        cases h
        exact absurd he (target_ne_redirectCycle path)
      · next found k v htarget => exact .inr ⟨depth, found, k, v, rfl, hnew, htarget, h⟩
      · cases h

/-- What holds of the paths that were met: they are different ones of redirects. -/
structure Walk (s : Suite) (trail : Trail) : Prop where
  met : s.Met trail
  nodup : trail.Nodup
  subset : trail ⊆ s.redirects.map Redirect.path

theorem Walk.length_le {trail : Trail} (h : s.Walk trail) : trail.length ≤ s.redirects.length := by
  have := (List.subperm_of_subset h.nodup h.subset).length_le
  rwa [List.length_map] at this

theorem Walk.snoc {trail : Trail} {path : String} (h : s.Walk trail) (hnew : path ∉ trail)
    (hpath : path ∈ s.redirects.map Redirect.path)
    (hfrom : trail ≠ [] → ∃ p ∈ trail, s.RedirectsTo p path) : s.Walk (trail ++ [path]) where
  met := h.met.snoc hfrom
  nodup := nodup_snoc h.nodup hnew
  subset := List.append_subset.2 ⟨h.subset, List.cons_subset.2 ⟨hpath, List.nil_subset _⟩⟩

/-- A walk that was taken on from another one. -/
structure Walk.Beyond (s : Suite) (trail trail' : Trail) : Prop where
  walk : s.Walk trail'
  subset : trail ⊆ trail'
  length_le : trail.length ≤ trail'.length

theorem Walk.Beyond.refl {trail : Trail} (h : s.Walk trail) : Walk.Beyond s trail trail :=
  ⟨h, List.Subset.refl _, le_refl _⟩

/-- Taking a walk on past a further path is taking it on. -/
theorem Walk.Beyond.of_snoc {trail trail' trail'' : Trail} {path : String}
    (h : Walk.Beyond s trail trail') (h' : Walk.Beyond s (trail' ++ [path]) trail'') :
    Walk.Beyond s trail trail'' where
  walk := h'.walk
  subset _ hp := h'.subset (List.mem_append_left _ (h.subset hp))
  length_le := by
    have := h'.length_le
    rw [List.length_append] at this
    exact h.length_le.trans (by omega)

/-- A path that is followed is met, and so are those to which it leads. -/
theorem beyond_of_pathType {depth : Nat} {path : String} {trail : Trail} {t : String × Trail}
    (hwalk : s.Walk trail) (hpath : path ∈ s.redirects.map Redirect.path)
    (hfrom : trail ≠ [] → ∃ p ∈ trail, s.RedirectsTo p path)
    (h : s.pathType depth id path trail = .ok t) : Walk.Beyond s (trail ++ [path]) t.2 := by
  induction depth generalizing id path trail t with
  | zero => cases h
  | succ depth ih =>
    obtain ⟨depth', found, k, v, hdepth, hnew, htarget, hvalue⟩ := pathType_ok h
    cases hdepth
    have hleaf := (mem_leaves_of_target htarget).2
    refine followAll_ok (p := Walk.Beyond s (trail ++ [path])) (fun q hq trail' t hwalk' ht => ?_)
      (Walk.Beyond.refl (hwalk.snoc hnew hpath hfrom)) (followAll_of_valueType_ok hvalue)
    have hq' := Value.followed_subset_redirects v hq
    have hmem : path ∈ trail' :=
      hwalk'.subset (List.mem_append_right _ (List.mem_singleton_self path))
    exact hwalk'.of_snoc <| ih hwalk'.walk (path_mem_redirects hleaf hq')
      (fun _ => ⟨path, hmem, id, found, k, v, htarget, q, hq', rfl⟩) ht

/-- Of a reported cycle each path was met because of an earlier one, and the last one was met
before. The depth does not run out, as there are not as many redirects. -/
theorem met_of_pathType {depth : Nat} {path : String} {trail : Trail} (hwalk : s.Walk trail)
    (hpath : path ∈ s.redirects.map Redirect.path)
    (hfrom : trail ≠ [] → ∃ p ∈ trail, s.RedirectsTo p path)
    (hdepth : s.redirects.length < depth + trail.length)
    (h : s.pathType depth id path trail = .error (.redirectCycle paths)) :
    s.Met paths ∧ ∃ before last, paths = before ++ [last] ∧ last ∈ before := by
  induction depth generalizing id path trail with
  | zero => exact absurd hwalk.length_le (by omega)
  | succ depth ih =>
    rcases pathType_redirectCycle h with ⟨rfl, hdepth' | hmem⟩ |
      ⟨depth', found, k, v, hdepth', hnew, htarget, hvalue⟩
    · cases hdepth'
    · exact ⟨hwalk.met.snoc hfrom, trail, path, rfl, hmem⟩
    · cases hdepth'
      have hleaf := (mem_leaves_of_target htarget).2
      have hred : ∀ q ∈ v.followed, q.path ∈ s.redirects.map Redirect.path := fun q hq =>
        path_mem_redirects hleaf (Value.followed_subset_redirects v hq)
      have hfrom' : ∀ q ∈ v.followed, ∀ trail', Walk.Beyond s (trail ++ [path]) trail' →
          trail' ≠ [] → ∃ p ∈ trail', s.RedirectsTo p q.path := fun q hq trail' hwalk' _ =>
        ⟨path, hwalk'.subset (List.mem_append_right _ (List.mem_singleton_self path)), id, found, k,
          v, htarget, q, Value.followed_subset_redirects v hq, rfl⟩
      obtain ⟨q, hq, trail', hwalk', hfail⟩ :=
        exists_of_followAll_error (p := Walk.Beyond s (trail ++ [path]))
          (fun q hq trail' t hwalk' ht => hwalk'.of_snoc <|
            beyond_of_pathType hwalk'.walk (hred q hq) (hfrom' q hq trail' hwalk') ht)
          (Walk.Beyond.refl (hwalk.snoc hnew hpath hfrom)) (followAll_of_valueType_error hvalue)
      refine ih hwalk'.walk (hred q hq) (hfrom' q hq trail' hwalk') ?_ hfail
      have := hwalk'.length_le
      rw [List.length_append, List.length_singleton] at this
      omega

/-- Where types depend on one redirect at most, a reported cycle is a chain of redirects. -/
theorem exists_chain_of_pathType (hs : s.SingleRedirects) {depth : Nat} {path : String}
    {trail : Trail} (h : s.pathType depth id path trail = .error (.redirectCycle paths)) :
    ∃ steps : List (SheetId × String), paths = trail ++ path :: steps.map Prod.snd ∧
      ((id, path) :: steps).IsChain s.Leads := by
  induction depth generalizing id path trail with
  | zero =>
    cases h
    exact ⟨[], rfl, .singleton _⟩
  | succ depth ih =>
    rcases pathType_redirectCycle h with ⟨rfl, -⟩ |
      ⟨depth', found, k, v, hdepth, -, htarget, hvalue⟩
    · exact ⟨[], rfl, .singleton _⟩
    · cases hdepth
      have hleaf := (mem_leaves_of_target htarget).2
      have hsingle := hs _ (sheet_mem_sheets hleaf) v hleaf
      have hfail := followAll_of_valueType_error hvalue
      have hsubset := Value.followed_subset_redirects v
      match hv : v.followed with
      | [] =>
        rw [hv] at hfail
        cases hfail
      | [q] =>
        rw [hv, followAll_singleton] at hfail
        obtain ⟨steps, hpaths, hchain⟩ := ih (map_eq_error.1 hfail)
        refine ⟨(found, q.path) :: steps, ?_,
          .cons_cons ⟨k, v, htarget, q, hsubset ?_, rfl⟩ hchain⟩
        · rw [hpaths, List.append_assoc]
          rfl
        · rw [hv]
          exact List.mem_singleton_self q
      | q :: r :: rest =>
        rw [hv] at hsingle
        simp at hsingle

/-! ## One stylesheet -/

/-- If a value reports a cycle, one of its redirects does. -/
theorem exists_of_resolveValue_eq_error {property : String} {v : Value}
    (h : s.resolveValue settings id property v = .error (.redirectCycle paths)) :
    ∃ q ∈ v.redirects, s.resolveRedirect settings id q = .error (.redirectCycle paths) := by
  unfold resolveValue at h
  split at h
  · next he =>
    cases h
    exact Value.exists_of_mapRedirects_eq_error he
  · split at h <;> cases h

/-- If a style reports a cycle, a redirect of one of its values does. -/
theorem exists_of_resolveStyle_eq_error {x : Style}
    (h : s.resolveStyle settings id x = .error (.redirectCycle paths)) :
    ∃ v ∈ x.leaves, ∃ q ∈ v.redirects,
      s.resolveRedirect settings id q = .error (.redirectCycle paths) := by
  induction x using Style.induction with
  | mk head ps ih =>
    rw [resolveStyle] at h
    split at h
    · cases h
    · next herror =>
      cases h
      rw [Style.leaves]
      generalize head.name = name at herror
      induction ps with
      | nil => cases herror
      | cons p ps ihps =>
        have hps := ihps fun k n hn => ih k n (List.mem_cons_of_mem p hn)
        rw [resolveEach.eq_def] at herror
        cases p with
        | leaf k v =>
          rw [Style.leavesOfEach]
          dsimp only at herror
          split at herror
          · next hv =>
            cases herror
            exact ⟨v, List.mem_cons_self, exists_of_resolveValue_eq_error hv⟩
          · split at herror
            · next hrest =>
              cases herror
              obtain ⟨u, hu, hq⟩ := hps hrest
              exact ⟨u, List.mem_cons_of_mem v hu, hq⟩
            · cases herror
        | nested k n =>
          rw [Style.leavesOfEach]
          dsimp only at herror
          split at herror
          · next hn =>
            cases herror
            obtain ⟨u, hu, hq⟩ := ih k n List.mem_cons_self hn
            exact ⟨u, List.mem_append_left _ hu, hq⟩
          · split at herror
            · next hrest =>
              cases herror
              obtain ⟨u, hu, hq⟩ := hps hrest
              exact ⟨u, List.mem_append_right _ hu, hq⟩
            · cases herror

/-- A stylesheet fails with a cycle where one of its redirects does. -/
theorem exists_of_withRedirects_eq_error
    (h : s.withRedirects settings id = .error (.redirectCycle paths)) :
    ∃ q ∈ (s.sheet id).redirects,
      s.resolveRedirect settings id q = .error (.redirectCycle paths) := by
  have hstyle : ∃ x ∈ (s.sheet id).allStyles,
      s.resolveStyle settings id x = .error (.redirectCycle paths) := by
    unfold withRedirects at h
    rcases bind_eq_error.1 h with he | ⟨styles, -, h⟩
    · obtain ⟨x, hx, hxe⟩ := exists_of_mapM_eq_error he
      exact ⟨x, List.mem_append_left _ hx, hxe⟩
    · rcases bind_eq_error.1 h with he | ⟨animator, -, h⟩
      · obtain ⟨x, hx, hxe⟩ := exists_of_option_mapM_eq_error he
        exact ⟨x, List.mem_append_right _ (Option.mem_toList.2 hx), hxe⟩
      · cases h
  obtain ⟨x, hx, hxe⟩ := hstyle
  obtain ⟨v, hv, q, hq, hqe⟩ := exists_of_resolveStyle_eq_error hxe
  exact ⟨q, Stylesheet.mem_redirects.2 ⟨v, Stylesheet.mem_leaves.2 ⟨x, hx, hv⟩, hq⟩, hqe⟩

/-! ## Marking -/

theorem heir_ne_redirectCycle (done : List Style) (x : Style) (first : Ground × String) :
    s.heir settings id done x first ≠ .error (.redirectCycle paths) := by
  unfold heir
  split <;> simp [unknownStyle]

/-- Marking a style reports no cycle of redirects. -/
theorem inheritingStyle_ne_redirectCycle (done : List Style) (x : Style) :
    s.inheritingStyle settings id done x ≠ .error (.redirectCycle paths) := by
  unfold inheritingStyle
  split
  · exact heir_ne_redirectCycle _ _ _
  · split
    · next he =>
      intro h
      cases h
      unfold declaredAncestor? at he
      split at he
      · cases he
      · split at he
        · cases he
        · split at he
          · cases he
          · split at he <;> cases he
    · simp
    · split
      · unfold derivingUnseen
        split <;> simp [unknownStyle]
      · exact heir_ne_redirectCycle _ _ _

/-- Marking the styles of a stylesheet reports no cycle of redirects. -/
theorem inheritingStyles_ne_redirectCycle (styles : List Style) (order : List Nat)
    (done : List Style) :
    s.inheritingStyles settings id styles order done ≠ .error (.redirectCycle paths) := by
  induction order generalizing done with
  | nil => simp [inheritingStyles]
  | cons i order ih =>
    rw [inheritingStyles]
    split
    · exact ih done
    · split
      · next he =>
        intro h
        cases h
        exact inheritingStyle_ne_redirectCycle _ _ he
      · exact ih _

/-- Ordering styles may report a cycle of extensions and none of redirects. -/
theorem climb_ne_redirectCycle (styles : List Style) (done : List Nat) (steps : Nat)
    (path : List Nat) (next : Option Nat) :
    Style.climb styles done steps path next ≠ .error (.redirectCycle paths) := by
  induction steps generalizing path next with
  | zero => simp [Style.climb]
  | succ steps ih =>
    cases next with
    | none => simp [Style.climb]
    | some i =>
      rw [Style.climb]
      split
      · simp
      · split
        · simp
        · exact ih _ _

theorem extensionOrder_ne_redirectCycle (styles : List Style) :
    Style.extensionOrder styles ≠ .error (.redirectCycle paths) := by
  intro h
  obtain ⟨i, -, order, -, hi⟩ :=
    exists_of_foldlM_eq_error (p := fun _ => True) (fun _ _ _ _ _ _ => trivial) trivial h
  unfold Style.addToOrder at hi
  split at hi
  · cases hi
  · next he =>
    cases hi
    exact climb_ne_redirectCycle _ _ _ _ _ he

/-- Marking never fails with a cycle of redirects. -/
theorem withInheritance_ne_redirectCycle :
    s.withInheritance settings id ≠ .error (.redirectCycle paths) := by
  intro h
  unfold withInheritance at h
  rcases bind_eq_error.1 h with he | ⟨order, -, h⟩
  · exact extensionOrder_ne_redirectCycle _ he
  rcases bind_eq_error.1 h with he | ⟨done, -, h⟩
  · exact inheritingStyles_ne_redirectCycle _ _ _ he
  rcases bind_eq_error.1 h with he | ⟨animator, -, h⟩
  · obtain ⟨x, -, hx⟩ := exists_of_option_mapM_eq_error he
    exact inheritingStyle_ne_redirectCycle _ _ hx
  · cases h

/-! ## A run -/

/-- A step fails on its own, or what comes after it does. -/
theorem continueWith_eq_error {sheet : Except SuiteError Stylesheet}
    {next : Suite → Suite × Except SuiteError Unit} {e : SuiteError}
    (h : s.continueWith id sheet next = (u, .error e)) :
    (sheet = .error e ∧ u = s) ∨ ∃ t, sheet = .ok t ∧ next (s.setSheet t id) = (u, .error e) := by
  unfold continueWith at h
  split at h
  · exact .inr ⟨_, rfl, h⟩
  · cases h
    exact .inl ⟨rfl, rfl⟩

/-- A run that fails with a cycle fails with the redirects of a stylesheet, in the suite that it
leaves. -/
theorem exists_of_prepareEach_eq_error {ids : List SheetId}
    (h : prepareEach settings ids s = (u, .error (.redirectCycle paths))) :
    ∃ id, u.withRedirects settings id = .error (.redirectCycle paths) := by
  induction ids generalizing s with
  | nil => cases h
  | cons id ids ih =>
    rw [prepareEach] at h
    rcases continueWith_eq_error h with ⟨hredirects, rfl⟩ | ⟨t, -, h⟩
    · exact ⟨id, hredirects⟩
    · rcases continueWith_eq_error h with ⟨hmarking, -⟩ | ⟨t, -, h⟩
      · exact absurd hmarking withInheritance_ne_redirectCycle
      · exact ih h

/-! ## Reported cycles -/

/-- From the first to the last element of a chain there is a way of at least one step. -/
theorem transGen_of_isChain {α : Type} {r : α → α → Prop} {a b : α} {l : List α}
    (h : (a :: l ++ [b]).IsChain r) : TransGen r a b := by
  induction l generalizing a with
  | nil => exact .single (List.isChain_cons_cons.1 h).1
  | cons c l ih =>
    obtain ⟨hac, hrest⟩ := List.isChain_cons_cons.1 h
    exact .head hac (ih hrest)

/-- A cycle that is reported was found while the type of a redirect was looked for. -/
theorem exists_of_prepared_redirectCycle
    (h : l.prepared settings = (u, .error (.redirectCycle paths))) :
    ∃ (id : SheetId) (q : Redirect), q.path ∈ u.redirects.map Redirect.path ∧
      u.pathType (u.redirects.length + 1) id q.path [] = .error (.redirectCycle paths) := by
  obtain ⟨id, hid⟩ : ∃ id, u.withRedirects settings id = .error (.redirectCycle paths) := by
    unfold prepared at h
    split at h
    · exact exists_of_prepareEach_eq_error h
    · next he =>
      cases h
      unfold order baseId at he
      cases hb : l.base? <;> simp [hb] at he
  obtain ⟨q, hq, hresolve⟩ := exists_of_withRedirects_eq_error hid
  obtain ⟨v, hv, hqv⟩ := Stylesheet.mem_redirects.1 hq
  refine ⟨id, q, path_mem_redirects hv hqv, ?_⟩
  unfold resolveRedirect at hresolve
  split at hresolve
  · next he =>
    cases hresolve
    exact absurd he (target_ne_redirectCycle _)
  · split at hresolve
    · next he =>
      cases hresolve
      exact he
    · cases hresolve

/-- Of a reported cycle of redirects the last path was met before, and each path but the first is
one to which an earlier one redirects. Where the type of each value depends on at most one redirect
the cycle is real: each path redirects to the next one, looked up from where the last value was
found, and some path leads back to itself. -/
theorem paths_of_redirectCycle (h : l.prepared settings = (u, .error (.redirectCycle paths))) :
    u.Met paths ∧ (∃ before last, paths = before ++ [last] ∧ last ∈ before) ∧
      (u.SingleRedirects →
        (∃ chain : List (SheetId × String), chain.map Prod.snd = paths ∧ chain.IsChain u.Leads) ∧
          ∃ path ∈ paths, TransGen u.RedirectsTo path path) := by
  obtain ⟨id, q, hq, hpath⟩ := exists_of_prepared_redirectCycle h
  obtain ⟨hmet, before, last, hlast, hmem⟩ := met_of_pathType
    ⟨.nil, List.nodup_nil, List.nil_subset _⟩ hq (fun hne => absurd rfl hne) (by simp) hpath
  refine ⟨hmet, ⟨before, last, hlast, hmem⟩, fun hsingle => ?_⟩
  obtain ⟨steps, hpaths, hchain⟩ := exists_chain_of_pathType hsingle hpath
  refine ⟨⟨(id, q.path) :: steps, hpaths.symm, hchain⟩, last, ?_, ?_⟩
  · rw [hlast]
    exact List.mem_append_right _ (List.mem_singleton_self last)
  · have hpathsChain : paths.IsChain u.RedirectsTo := by
      rw [show paths = ((id, q.path) :: steps).map Prod.snd from hpaths, List.isChain_map]
      exact hchain.imp fun a b hab => ⟨a.1, b.1, hab⟩
    obtain ⟨front, middle, rfl⟩ := List.append_of_mem hmem
    rw [hlast, List.append_assoc] at hpathsChain
    exact transGen_of_isChain (List.isChain_append.1 hpathsChain).2.1

/-- Two values that redirect to each other, one of them from an array. -/
def cyclicRedirects : Suite :=
  ⟨[⟨"Base",
      [.named "A" [.leaf ⟨"a", false, false⟩ (.array [.redirect ⟨"B.b", none⟩])],
        .named "B" [.leaf ⟨"b", false, false⟩ (.redirect ⟨"A.a", none⟩)]],
      none, none, false, []⟩],
    none, some 0⟩

/-- Two properties that redirect to each other are reported as a cycle. -/
theorem paths_of_cyclicRedirects :
    (cyclicRedirects.prepared .standard).1.Met ["B.b", "A.a", "B.b"] ∧
      (∃ before last, ["B.b", "A.a", "B.b"] = before ++ [last] ∧ last ∈ before) ∧
        ((cyclicRedirects.prepared .standard).1.SingleRedirects →
          (∃ chain : List (SheetId × String), chain.map Prod.snd = ["B.b", "A.a", "B.b"] ∧
            chain.IsChain (cyclicRedirects.prepared .standard).1.Leads) ∧
              ∃ path ∈ ["B.b", "A.a", "B.b"],
                TransGen (cyclicRedirects.prepared .standard).1.RedirectsTo path path) :=
  paths_of_redirectCycle
    (show cyclicRedirects.prepared .standard = (_, _) from Prod.ext rfl (by cbv))

/-- An array of which two items redirect to one value, and a redirect to the array. -/
def sharedItem : Suite :=
  ⟨[⟨"Base",
      [.named "A" [.leaf ⟨"a", false, false⟩
          (.array [.redirect ⟨"B.b", none⟩, .redirect ⟨"B.b", none⟩])],
        .named "B" [.leaf ⟨"b", false, false⟩ (.int 1)],
        .named "C" [.leaf ⟨"c", false, false⟩ (.redirect ⟨"A.a", none⟩)]],
      none, none, false, []⟩],
    none, some 0⟩

/-- A value to which two items of an array redirect is reported as a cycle, though it redirects
nowhere. -/
theorem falseCycle_sharedItem :
    (sharedItem.prepared .standard).2 = .error (.redirectCycle ["A.a", "B.b", "B.b"]) ∧
      ∀ id ∈ (sharedItem.prepared .standard).1.ids, ∀ b,
        ¬ (sharedItem.prepared .standard).1.Leads (id, "B.b") b := by
  refine ⟨by cbv, fun id hid ⟨found, path⟩ hleads => ?_⟩
  obtain ⟨k, v, htarget, q, hq, -⟩ := hleads
  have hids : (sharedItem.prepared .standard).1.ids = [.registered 0] := by cbv
  rw [hids, List.mem_singleton] at hid
  have hleaf : (sharedItem.prepared .standard).1.target (.registered 0) "B.b" =
      .ok ⟨.registered 0, .leaf ⟨"b", false, false⟩ (.int 1)⟩ := by
    cbv
  rw [hid, hleaf] at htarget
  cases htarget
  cases hq

end Appearance.Suite
