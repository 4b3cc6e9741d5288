import Appearance.Proofs.RedirectCycles

/-!
# Redirects that are resolved already

To resolve a redirect again gives the same result once preparation has come to its end
(`Prepares.withRedirects_again`). The type of a value is found in the same way as at the stage of
its stylesheet, as it depends on contents only (`pathType_of_sameContents`). The suite has grown
since then, and with it the number of steps that the search may take; but a search that comes to an
end has met each path once, so any number of steps is enough that is larger than that of the
redirects (`pathType_of_walk`).

`pathType_of_walk` is the lemma on which everything rests. It replaces a bound that was computed
from one suite by that of another, and its reason is that a search which ends has a trail of
different paths, each the path of some redirect. The rest goes from a redirect to a value, a style
and a stylesheet, level by level, and says each time that mapping over something with its results
already in it changes nothing.
-/

namespace Appearance

namespace Value

/-- Items are left as they are if each of them is. -/
theorem mapRedirectsOfItems_eq_self {ε : Type} {f : Redirect → Except ε Redirect} {vs : List Value}
    (h : ∀ v ∈ vs, v.mapRedirects f = .ok v) : mapRedirectsOfItems f vs = .ok vs := by
  induction vs with
  | nil => rfl
  | cons v vs ih =>
    rw [mapRedirectsOfItems, h v List.mem_cons_self,
      ih fun u hu => h u (List.mem_cons_of_mem v hu)]

theorem mapRedirectsOfBranches_eq_self {ε : Type} {f : Redirect → Except ε Redirect}
    {bs : List (Condition × Value)} (h : ∀ c v, (c, v) ∈ bs → v.mapRedirects f = .ok v) :
    mapRedirectsOfBranches f bs = .ok bs := by
  induction bs with
  | nil => rfl
  | cons b bs ih =>
    rw [mapRedirectsOfBranches, h b.1 b.2 List.mem_cons_self,
      ih fun c v hv => h c v (List.mem_cons_of_mem b hv)]

/-- A value stays as it is if all of its redirects do. -/
theorem mapRedirects_eq_self {ε : Type} {f : Redirect → Except ε Redirect} {v : Value}
    (h : ∀ q ∈ v.redirects, f q = .ok q) : v.mapRedirects f = .ok v := by
  induction v using Value.induction with
  | literal v hv => exact mapRedirects_of_isLiteral hv
  | redirect q => rw [mapRedirects, h q (List.mem_singleton_self q)]
  | conditional bs ih =>
    rw [redirects_conditional] at h
    rw [mapRedirects, mapRedirectsOfBranches_eq_self fun c v hv =>
      ih c v hv fun q hq => h q (List.mem_flatMap.2 ⟨(c, v), hv, hq⟩)]
  | array vs ih =>
    rw [redirects_array] at h
    rw [mapRedirects, mapRedirectsOfItems_eq_self fun v hv =>
      ih v hv fun q hq => h q (List.mem_flatMap.2 ⟨v, hv, hq⟩)]

end Value

namespace Suite

/-! ## The type of one value -/

section Value

variable {follow follow' : String → Trail → Except SuiteError (String × Trail)}

/-- The types of items do not depend on what was resolved in them. -/
theorem itemTypes_plainItems {vs : List Value} {trail : Trail}
    (ih : ∀ v ∈ vs, ∀ trail, valueType follow v.plain trail = valueType follow v trail) :
    itemTypes follow (Value.plainItems vs) trail = itemTypes follow vs trail := by
  induction vs generalizing trail with
  | nil => rfl
  | cons v vs ihvs =>
    rw [Value.plainItems, itemTypes, itemTypes, ih v List.mem_cons_self]
    split
    · rfl
    · rw [ihvs fun u hu => ih u (List.mem_cons_of_mem v hu)]

/-- The type of a value does not depend on what was resolved. -/
theorem valueType_plain (v : Value) (trail : Trail) :
    valueType follow v.plain trail = valueType follow v trail := by
  induction v using Value.induction generalizing trail with
  | literal v hv => rw [Value.plain_of_isLiteral hv]
  | redirect q => rfl
  | conditional bs ih =>
    cases bs with
    | nil => rfl
    | cons b bs =>
      obtain ⟨c, v⟩ := b
      exact ih c v List.mem_cons_self trail
  | array vs ih => rw [Value.plain, valueType, valueType, itemTypes_plainItems ih]

/-- The types of items that are found are found by every search that finds those of the items. The
paths that were met are handed on from item to item. -/
theorem itemTypes_of_forall_mem {p : Trail → Prop} {vs : List Value}
    (hitem : ∀ v ∈ vs, ∀ trail t, p trail → valueType follow v trail = .ok t →
      valueType follow' v trail = .ok t ∧ p t.2) {trail : Trail} {t : List String × Trail}
    (htrail : p trail) (h : itemTypes follow vs trail = .ok t) :
    itemTypes follow' vs trail = .ok t ∧ p t.2 := by
  induction vs generalizing trail t with
  | nil =>
    cases h
    exact ⟨rfl, htrail⟩
  | cons v vs ih =>
    rw [itemTypes] at h ⊢
    split at h
    · cases h
    · next type after hv =>
      obtain ⟨hv', hafter⟩ := hitem v List.mem_cons_self trail _ htrail hv
      split at h
      · cases h
      · next types after' hvs =>
        cases h
        obtain ⟨hvs', hafter'⟩ := ih (fun u hu => hitem u (List.mem_cons_of_mem v hu)) hafter hvs
        rw [hv']
        exact ⟨by simp only [hvs'], hafter'⟩

/-- A type that is found is found by every search that finds the same along the redirects on which
it depends. What the search keeps of the paths that were met helps to show this. -/
theorem valueType_of_followed {p : Trail → Prop} {v : Value} {trail : Trail} {t : String × Trail}
    (hfollow : ∀ q ∈ v.followed, ∀ trail t, p trail → follow q.path trail = .ok t →
      follow' q.path trail = .ok t ∧ p t.2)
    (htrail : p trail) (h : valueType follow v trail = .ok t) :
    valueType follow' v trail = .ok t ∧ p t.2 := by
  induction v using Value.induction generalizing trail t with
  | literal v hv =>
    have htype : ∀ f, valueType f v trail = .ok (v.swiftType, trail) := fun f => by
      cases v <;> first | rfl | cases hv
    rw [htype] at h ⊢
    cases h
    exact ⟨rfl, htrail⟩
  | redirect q => exact hfollow q List.mem_cons_self trail t htrail h
  | conditional bs ih =>
    cases bs with
    | nil =>
      cases h
      exact ⟨rfl, htrail⟩
    | cons b bs =>
      obtain ⟨c, v⟩ := b
      exact ih c v List.mem_cons_self hfollow htrail h
  | array vs ih =>
    rw [Value.followed_array] at hfollow
    have hitem : ∀ v ∈ vs, ∀ trail t, p trail → valueType follow v trail = .ok t →
        valueType follow' v trail = .ok t ∧ p t.2 := fun v hv trail t =>
      ih v hv fun q hq => hfollow q (List.mem_flatMap.2 ⟨v, hv, hq⟩)
    rw [valueType] at h ⊢
    split at h
    · next types trail' htypes =>
      cases h
      obtain ⟨htypes', htrail'⟩ := itemTypes_of_forall_mem hitem htrail htypes
      exact ⟨by rw [htypes'], htrail'⟩
    · cases h

end Value

/-! ## The type behind a path -/

variable {settings : Settings} {s l r t : Suite} {id : SheetId}

/-- A path that is new and leads to a value has the type of that. -/
theorem pathType_succ {depth : Nat} {path : String} {trail : Trail} {found : SheetId}
    {k : PropertyHead} {v : Value} (hnew : path ∉ trail)
    (htarget : s.target id path = .ok ⟨found, .leaf k v⟩) :
    s.pathType (depth + 1) id path trail =
      valueType (s.pathType depth found) v (trail ++ [path]) := by
  rw [pathType, if_neg hnew]
  simp only [htarget]

/-- Types are found in the same way in suites that say the same where paths are searched. -/
theorem pathType_of_sameContents (hb : r.base? = s.base?) (hi : r.imported = s.imported)
    {start : SheetId}
    (hsame : ∀ c ∈ s.searched start, SameContents Value.plain (r.sheet c) (s.sheet c))
    {depth : Nat} {path : String} {trail : Trail} {u : String × Trail}
    (hid : id ∈ s.searched start) (h : s.pathType depth id path trail = .ok u) :
    r.pathType depth id path trail = .ok u := by
  induction depth generalizing id path trail u with
  | zero => cases h
  | succ depth ih =>
    obtain ⟨depth', found, k, v, hdepth, hnew, htarget, hvalue⟩ := pathType_ok h
    cases hdepth
    obtain ⟨k', v', htarget', hplain⟩ :=
      target_leaf_congr hb hi (fun c hc => hsame c (searched_subset hid hc)) htarget
    have hfound := searched_subset hid (mem_leaves_of_target htarget).1
    rw [pathType_succ hnew htarget', ← valueType_plain, hplain, valueType_plain]
    exact (valueType_of_followed (p := fun _ => True)
      (fun q _ trail t _ ht => ⟨ih hfound ht, trivial⟩) trivial hvalue).1

/-- A search that comes to an end does so with any number of steps that is larger than that of the
redirects: it is at a new one of their paths in each step. -/
theorem pathType_of_walk {depth depth' : Nat} {path : String} {trail : Trail} {u : String × Trail}
    (hwalk : s.Walk trail) (hpath : path ∈ s.redirects.map Redirect.path)
    (hfrom : trail ≠ [] → ∃ p ∈ trail, s.RedirectsTo p path)
    (hdepth : s.redirects.length < depth' + trail.length)
    (h : s.pathType depth id path trail = .ok u) : s.pathType depth' id path trail = .ok u := by
  induction depth generalizing id path trail u depth' with
  | zero => cases h
  | succ depth ih =>
    obtain ⟨_, found, k, v, hdepth', hnew, htarget, hvalue⟩ := pathType_ok h
    cases hdepth'
    have hlength := hwalk.length_le
    obtain ⟨depth', rfl⟩ := Nat.exists_eq_add_one.2 (show 0 < depth' by omega)
    have hleaf := (mem_leaves_of_target htarget).2
    rw [pathType_succ hnew htarget]
    refine (valueType_of_followed (p := Walk.Beyond s (trail ++ [path]))
      (fun q hq trail' t hbeyond ht => ?_) (Walk.Beyond.refl (hwalk.snoc hnew hpath hfrom))
      hvalue).1
    have hq' := Value.followed_subset_redirects v hq
    have hmem : path ∈ trail' :=
      hbeyond.subset (List.mem_append_right _ (List.mem_singleton_self path))
    have hqpath := path_mem_redirects hleaf hq'
    have hqfrom : trail' ≠ [] → ∃ p ∈ trail', s.RedirectsTo p q.path := fun _ =>
      ⟨path, hmem, id, found, k, v, htarget, q, hq', rfl⟩
    have hbeyondLength := hbeyond.length_le
    rw [List.length_append, List.length_singleton] at hbeyondLength
    exact ⟨ih hbeyond.walk hqpath hqfrom (by omega) ht,
      hbeyond.of_snoc (beyond_of_pathType hbeyond.walk hqpath hqfrom ht)⟩

/-! ## One stylesheet -/

/-- Properties are resolved already if their values and nested styles are. -/
theorem resolveEach_eq_self {style : String} {ps : List Property}
    (ih : ∀ k n, Property.nested k n ∈ ps → s.resolveStyle settings id n = .ok n)
    (h : ∀ k v, Property.leaf k v ∈ ps →
      ∀ property, s.resolveValue settings id property v = .ok v) :
    s.resolveEach settings id style ps = .ok ps := by
  induction ps with
  | nil => rfl
  | cons p ps ihps =>
    have hps := ihps (fun k n hn => ih k n (List.mem_cons_of_mem p hn))
      fun k v hv => h k v (List.mem_cons_of_mem p hv)
    cases p with
    | leaf k v => rw [resolveEach, h k v List.mem_cons_self, hps]
    | nested k n => rw [resolveEach, ih k n List.mem_cons_self, hps]

/-- A style stays as it is if all values in it do. -/
theorem resolveStyle_eq_self {x : Style}
    (h : ∀ v ∈ x.leaves, ∀ property, s.resolveValue settings id property v = .ok v) :
    s.resolveStyle settings id x = .ok x := by
  induction x using Style.induction with
  | mk head ps ih =>
    rw [resolveStyle, resolveEach_eq_self (fun k n hn => ih k n hn fun v hv =>
        h v (Style.mem_leavesOfEach.2 (.inr ⟨k, n, hn, hv⟩)))
      fun k v hv => h v (Style.mem_leavesOfEach.2 (.inl ⟨k, hv⟩))]

/-- A stylesheet stays as it is if all values in it do. -/
theorem withRedirects_eq_self
    (h : ∀ v ∈ (s.sheet id).leaves, ∀ property, s.resolveValue settings id property v = .ok v) :
    s.withRedirects settings id = .ok (s.sheet id) := by
  have hstyle : ∀ x ∈ (s.sheet id).allStyles, s.resolveStyle settings id x = .ok x := fun x hx =>
    resolveStyle_eq_self fun v hv => h v (Stylesheet.mem_leaves.2 ⟨x, hx, hv⟩)
  have hstyles : (s.sheet id).styles.mapM (s.resolveStyle settings id) =
      .ok (s.sheet id).styles :=
    mapM_eq_self fun x hx => hstyle x (List.mem_append_left _ hx)
  have hanimator : (s.sheet id).animator.mapM (s.resolveStyle settings id) =
      .ok (s.sheet id).animator :=
    option_mapM_eq_self fun x hx => hstyle x (List.mem_append_right _ (Option.mem_toList.2 hx))
  rw [withRedirects, hstyles, hanimator]
  rfl

variable (h : Prepares settings s l) (hd : ∀ t ∈ s.registered, (t.styles.map Style.name).Nodup)

include h hd

/-- In the end a redirect is resolved as it was at the stage of its stylesheet. -/
theorem Prepares.resolveRedirect_again (hid : id ∈ l.ids) {q : Redirect}
    (hq : q ∈ ((l.prepared settings).1.sheet id).redirects) :
    (l.prepared settings).1.resolveRedirect settings id q = .ok q := by
  obtain ⟨t, redirected, ht⟩ := h.exists_reading hd hid
  obtain ⟨v, hv, hqv⟩ := Stylesheet.mem_redirects.1 hq
  have hv' := hv
  rw [ht.leaves_eq] at hv'
  obtain ⟨v₀, -, property, hv₀⟩ := exists_of_mem_leaves ht.withRedirects_eq hv'
  obtain ⟨q₀, -, hresolved⟩ := Value.exists_of_mem_redirects (resolveValue_eq_ok.1 hv₀).1 hqv
  obtain ⟨⟨found, p⟩, type, trail, htarget, htype, rfl⟩ := resolveRedirect_ok hresolved
  have hself : id ∈ t.searched id := mem_searched.2 (.inl rfl)
  have htype' := pathType_of_sameContents ht.base?_eq ht.imported_eq ht.sameContents hself htype
  have hpath := path_mem_redirects hv hqv
  have hsteps : (l.prepared settings).1.pathType ((l.prepared settings).1.redirects.length + 1) id
      q₀.path [] = .ok (type, trail) :=
    pathType_of_walk ⟨.nil, List.nodup_nil, List.nil_subset _⟩ hpath (by simp) (by simp) htype'
  obtain ⟨p', htarget', -⟩ := target_contents ht.base?_eq
    (searched_congr ht.base?_eq ht.imported_eq id) ht.sameContents htarget
  unfold resolveRedirect
  simp only [htarget', hsteps]

/-- In the end nothing is left to be resolved in a stylesheet. -/
theorem Prepares.withRedirects_again (hid : id ∈ l.ids) :
    (l.prepared settings).1.withRedirects settings id =
      .ok ((l.prepared settings).1.sheet id) := by
  obtain ⟨t, redirected, ht⟩ := h.exists_reading hd hid
  refine withRedirects_eq_self fun v hv property => resolveValue_eq_ok.2 ⟨?_, ?_⟩
  · exact Value.mapRedirects_eq_self fun q hq =>
      h.resolveRedirect_again hd hid (Stylesheet.mem_redirects.2 ⟨v, hv, hq⟩)
  · rw [ht.leaves_eq] at hv
    obtain ⟨v₀, -, property, hv₀⟩ := exists_of_mem_leaves ht.withRedirects_eq hv
    exact (resolveValue_eq_ok.1 hv₀).2

end Suite

end Appearance
