import Appearance.Proofs.Marking
import Appearance.Proofs.Preparation
import Appearance.Proofs.Shadows

/-!
# A resolved stylesheet

The passes over one stylesheet taken together: `resolved_outcome` says that a resolved stylesheet
consists of marked styles, which have the outlines of the styles that were declared or shadowed.
The last sort moves nothing, as the stylesheet was sorted before and marking keeps names and keys.

`Outcome` is the interface of this module. It records for one resolved stylesheet in which suite it
was marked, which list of styles was done, and how the parts are related, so the theorems on
prepared suites never unfold the three passes but take an `Outcome` apart. What resolving a
redirect may change is kept in `SameOutlines`: names, heads, keys and nesting stay, only values get
their targets. That the second sort moves nothing is what makes the marked styles and the styles of
the result the same.
-/

namespace Appearance

namespace Stylesheet

/-- A stylesheet that is in order is left as it is. -/
theorem sorted_eq_self {t : Stylesheet}
    (hnames : (t.styles.map Style.name).Pairwise fun a b => Value.textLE a b = true)
    (hstyles : ∀ x ∈ t.allStyles, x.InOrder) : t.sorted = t := by
  have hsort : t.styles.mergeSort nameLE = t.styles :=
    List.mergeSort_of_pairwise (List.pairwise_map.1 hnames)
  have hmap : t.styles.map Style.sorted = t.styles :=
    (List.map_congr_left fun x hx =>
      Style.sorted_eq_self (hstyles x (List.mem_append_left _ hx))).trans (List.map_id _)
  have hanimator : t.animator.map Style.sorted = t.animator := by
    cases ha : t.animator with
    | none => rfl
    | some a =>
      have := hstyles a (List.mem_append_right _ (by rw [ha]; exact List.mem_singleton_self a))
      rw [Option.map_some, Style.sorted_eq_self this]
  rw [sorted, hsort, hmap, hanimator]

theorem names_sorted_pairwise (t : Stylesheet) :
    (t.sorted.styles.map Style.name).Pairwise fun a b => Value.textLE a b = true := by
  have h := pairwise_sort Style.name t.styles
  rw [List.pairwise_map, sorted, List.pairwise_map]
  exact h.imp fun {a b} hab => by simpa [byText] using hab

theorem inOrder_of_mem_sorted {t : Stylesheet} {x : Style} (hx : x ∈ t.sorted.allStyles) :
    x.InOrder := by
  rw [allStyles, sorted, List.mem_append, List.mem_map, Option.mem_toList, Option.map_eq_some_iff]
    at hx
  rcases hx with ⟨y, -, rfl⟩ | ⟨y, -, rfl⟩ <;> exact Style.inOrder_sorted y

theorem allStyles_sorted_perm (t : Stylesheet) :
    t.sorted.allStyles.Perm (t.allStyles.map Style.sorted) := by
  rw [allStyles, allStyles, List.map_append, sorted]
  refine ((List.mergeSort_perm t.styles nameLE).map Style.sorted).append ?_
  cases t.animator <;> rfl

theorem names_sorted_perm (t : Stylesheet) :
    (t.sorted.allStyles.map Style.name).Perm (t.allStyles.map Style.name) := by
  have := t.allStyles_sorted_perm.map Style.name
  rwa [List.map_map, show Style.name ∘ Style.sorted = Style.name from
    funext Style.name_sorted] at this

theorem styleNames_sorted_perm (t : Stylesheet) :
    (t.sorted.styles.map Style.name).Perm (t.styles.map Style.name) := by
  rw [sorted, List.map_map, show Style.name ∘ Style.sorted = Style.name from
    funext Style.name_sorted]
  exact (List.mergeSort_perm t.styles nameLE).map Style.name

end Stylesheet

namespace Suite

variable {s : Suite} {settings : Settings} {id : SheetId}

/-! ## Redirects -/

/-- What resolving the redirects of a stylesheet leaves as it is. -/
structure SameOutlines (t u : Stylesheet) : Prop where
  eq : u = { t with styles := u.styles, animator := u.animator }
  styles : ∀ f, u.styles.map (Style.outline f) = t.styles.map (Style.outline f)
  animator : ∀ f, u.animator.map (Style.outline f) = t.animator.map (Style.outline f)

/-- The redirects of a stylesheet are resolved style by style. -/
theorem withRedirects_eq_ok {u : Stylesheet} (h : s.withRedirects settings id = .ok u) :
    u = { s.sheet id with styles := u.styles, animator := u.animator } ∧
      List.Forall₂ (fun x y => s.resolveStyle settings id x = .ok y) (s.sheet id).styles u.styles ∧
      Option.Rel (fun x y => s.resolveStyle settings id x = .ok y) (s.sheet id).animator
        u.animator := by
  unfold withRedirects at h
  obtain ⟨styles, hstyles, h⟩ := bind_eq_ok.1 h
  obtain ⟨animator, hanimator, h⟩ := bind_eq_ok.1 h
  cases h
  exact ⟨rfl, forall₂_of_mapM hstyles, rel_of_mapM hanimator⟩

theorem withRedirects_ok {u : Stylesheet} (h : s.withRedirects settings id = .ok u) :
    SameOutlines (s.sheet id) u := by
  obtain ⟨heq, hstyles, hanimator⟩ := withRedirects_eq_ok h
  refine ⟨heq, fun f => ?_, fun f => ?_⟩
  · exact (map_eq_of_forall₂ hstyles fun _ _ hxy => (outline_resolveStyle f hxy).symm).symm
  · exact (map_eq_of_rel hanimator fun _ _ _ hxy => (outline_resolveStyle f hxy).symm).symm

/-! ## All passes -/

/-- How a stylesheet came to be resolved: `u` is the suite in which it was marked, and `done` are
its marked styles, the latest first. -/
structure Outcome (s : Suite) (settings : Settings) (id : SheetId) (u : Suite) (done : List Style)
    (r : Stylesheet) : Prop where
  suite_eq : u = s.setSheet (u.sheet id) id
  redirected : SameOutlines (s.completed id) (u.sheet id)
  marked : MarkedSheet u settings id done r

theorem names_pairwise_completed (s : Suite) (id : SheetId) :
    ((s.completed id).styles.map Style.name).Pairwise fun a b => Value.textLE a b = true := by
  unfold completed
  split <;> exact Stylesheet.names_sorted_pairwise _

theorem inOrder_of_mem_completed {x : Style} (hx : x ∈ (s.completed id).allStyles) : x.InOrder := by
  unfold completed at hx
  split at hx <;> exact Stylesheet.inOrder_of_mem_sorted hx

/-- Marking leaves what the styles declare. -/
theorem MarkedSheet.outlines {done : List Style} {m : Stylesheet}
    (h : MarkedSheet s settings id done m) :
    m.allStyles.map (Style.outline StyleHead.declared) =
      (s.sheet id).allStyles.map (Style.outline StyleHead.declared) := by
  have htoList : ∀ o : Option Style, o.toList.map (Style.outline StyleHead.declared) =
      (o.map (Style.outline StyleHead.declared)).toList := fun o => by cases o <;> rfl
  rw [Stylesheet.allStyles, Stylesheet.allStyles, List.map_append, List.map_append, htoList,
    htoList, h.styles_outline, h.animator_outline]

/-- Stylesheets with the same closed outlines have the same outlines of any kind. -/
theorem SameOutlines.outlines {t u : Stylesheet} (h : SameOutlines t u)
    (f : StyleHead → StyleHead) :
    u.allStyles.map (Style.outline f) = t.allStyles.map (Style.outline f) := by
  have htoList : ∀ o : Option Style, o.toList.map (Style.outline f) =
      (o.map (Style.outline f)).toList := fun o => by cases o <;> rfl
  rw [Stylesheet.allStyles, Stylesheet.allStyles, List.map_append, List.map_append, htoList,
    htoList, h.styles, h.animator]

/-- With distinct names a resolved stylesheet is the marked one: it needs no sorting again. -/
theorem resolved_eq_marked (hid : id ∈ s.ids) {r : Stylesheet}
    (h : s.resolved settings id = .ok r) (hd : ((s.completed id).styles.map Style.name).Nodup) :
    ∃ redirected, (s.setSheet (s.completed id) id).withRedirects settings id = .ok redirected ∧
      SameOutlines (s.completed id) redirected ∧
      (redirected.styles.map Style.name).Nodup ∧
      (s.setSheet redirected id).withInheritance settings id = .ok r := by
  obtain ⟨redirected, marked, hr, hm, rfl⟩ := resolved_ok h
  have hsame := withRedirects_ok hr
  rw [sheet_setSheet_self _ hid] at hsame
  have hu : (s.setSheet redirected id).sheet id = redirected := sheet_setSheet_self _ hid
  have hnames : redirected.styles.map Style.name = (s.completed id).styles.map Style.name := by
    rw [← map_name_outline, hsame.styles, map_name_outline]
  have hdistinct : (redirected.styles.map Style.name).Nodup := by rwa [hnames]
  obtain ⟨done, hdone⟩ := withInheritance_ok hm (by rwa [hu])
  have hsorted : marked.sorted = marked := by
    refine Stylesheet.sorted_eq_self ?_ fun x hx => ?_
    · rw [← map_name_outline, hdone.styles_outline, map_name_outline, hu, hnames]
      exact names_pairwise_completed s id
    · have hmem := List.mem_map_of_mem (f := Style.outline StyleHead.declared) hx
      rw [hdone.outlines, hu, hsame.outlines] at hmem
      obtain ⟨z, hz, hzx⟩ := List.mem_map.1 hmem
      exact (Style.inOrder_congr_outline hzx).1 (inOrder_of_mem_completed hz)
  exact ⟨redirected, hr, hsame, hdistinct, by rwa [hsorted]⟩

/-- A resolved stylesheet consists of marked styles. -/
theorem resolved_outcome (hid : id ∈ s.ids) {r : Stylesheet}
    (h : s.resolved settings id = .ok r) (hd : ((s.completed id).styles.map Style.name).Nodup) :
    ∃ u done, Outcome s settings id u done r := by
  obtain ⟨redirected, -, hsame, hdistinct, hm⟩ := resolved_eq_marked hid h hd
  have hu : (s.setSheet redirected id).sheet id = redirected := sheet_setSheet_self _ hid
  obtain ⟨done, hdone⟩ := withInheritance_ok hm (by rwa [hu])
  exact ⟨s.setSheet redirected id, done, by rw [hu], by rwa [hu], hdone⟩

/-- The outlines of a resolved stylesheet are those of the stylesheet with its shadows, sorted. -/
theorem Outcome.outlines {u : Suite} {done : List Style} {r : Stylesheet}
    (h : Outcome s settings id u done r) :
    r.allStyles.map (Style.outline StyleHead.declared) =
      (s.completed id).allStyles.map (Style.outline StyleHead.declared) := by
  rw [h.marked.outlines, h.redirected.outlines]

theorem Outcome.styleNames {u : Suite} {done : List Style} {r : Stylesheet}
    (h : Outcome s settings id u done r) :
    r.styles.map Style.name = (s.completed id).styles.map Style.name := by
  rw [← map_name_outline, h.marked.styles_outline, h.redirected.styles, map_name_outline]

/-- Every resolved style has the outline of a style of the stylesheet with its shadows, sorted. -/
theorem Outcome.exists_outline {u : Suite} {done : List Style} {r : Stylesheet}
    (h : Outcome s settings id u done r) {x : Style} (hx : x ∈ r.allStyles) :
    ∃ z ∈ (s.completed id).allStyles,
      z.outline StyleHead.declared = x.outline StyleHead.declared := by
  have hmem := List.mem_map_of_mem (f := Style.outline StyleHead.declared) hx
  rw [h.outlines] at hmem
  exact List.mem_map.1 hmem

/-- A resolved stylesheet has the name that it had. -/
theorem Outcome.name_eq {u : Suite} {done : List Style} {r : Stylesheet}
    (h : Outcome s settings id u done r) : r.name = (s.sheet id).name := by
  rw [h.marked.eq, h.redirected.eq]
  change (s.completed id).name = _
  unfold completed
  split
  · rw [Stylesheet.shadowing_eq_with]
    rfl
  · rfl

end Suite

end Appearance
