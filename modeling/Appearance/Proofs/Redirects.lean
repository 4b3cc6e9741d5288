import Appearance.Proofs.RedirectTypes
import Mathlib

/-!
# Resolved redirects

After preparation every redirect of a registered stylesheet is resolved. The result tells how the
property is reached for which the path stands, and of which type it is, as the value says that is
there in the end (`Prepares.resolved_redirect`).

A redirect is resolved at the stage of its stylesheet, before that is marked and while other
stylesheets are as they were. Up to what is resolved, the contents of all stylesheets that are
searched are there already as they are in the end (`Stage.sameContents`), so the type is the same.

`Reading` is the record that carries a redirect from its stage to the end: the suite in which it
was resolved, and that its searched stylesheets have the same contents there and in the result.
Contents forget heads and what was resolved, so marking, sorting by key and later resolutions do
not count. The expression by which a redirect is reached depends on the place where its property
was found, and this is the same place in both suites.
-/

namespace Appearance

/-- The redirects of a stylesheet at every depth. -/
def Stylesheet.redirects (t : Stylesheet) : List Redirect := t.allStyles.flatMap Suite.redirectsOf

namespace Suite

/-- The redirects of a style are those of its values at every depth. -/
theorem redirectsOf_eq (x : Style) : redirectsOf x = x.leaves.flatMap Value.redirects := by
  induction x using Style.induction with
  | mk h ps ih =>
    rw [redirectsOf, Style.leaves]
    induction ps with
    | nil => rfl
    | cons p ps ihps =>
      have hps := ihps fun k n hn => ih k n (List.mem_cons_of_mem p hn)
      cases p with
      | leaf k v => rw [redirectsOfEach, Style.leavesOfEach, hps, List.flatMap_cons]
      | nested k n =>
        rw [redirectsOfEach, Style.leavesOfEach, hps, ih k n List.mem_cons_self,
          List.flatMap_append]

end Suite

theorem Stylesheet.redirects_eq (t : Stylesheet) :
    t.redirects = t.leaves.flatMap Value.redirects := by
  rw [redirects, leaves, List.flatMap_assoc]
  exact List.flatMap_congr fun x _ => Suite.redirectsOf_eq x

theorem Stylesheet.mem_redirects {t : Stylesheet} {q : Redirect} :
    q ∈ t.redirects ↔ ∃ v ∈ t.leaves, q ∈ v.redirects := by
  rw [redirects_eq, List.mem_flatMap]

namespace Suite

variable {settings : Settings} {s l r t : Suite} {id : SheetId}

/-! ## The stage of a stylesheet -/

/-- At its stage a stylesheet has the contents, but for what is resolved, that it has in the end,
and it has the values of the end once its redirects are resolved. -/
theorem Stage.sameContents (h : Stage settings l r t id) (hid : id ∈ l.ids)
    (hd : ((t.completed id).styles.map Style.name).Nodup) :
    SameContents Value.plain (r.sheet id) (t.completed id) ∧
      ∃ redirected, (t.setSheet (t.completed id) id).withRedirects settings id = .ok redirected ∧
        (r.sheet id).leaves = redirected.leaves := by
  have hid' : id ∈ t.ids := by
    rw [ids, h.length_eq]
    exact hid
  obtain ⟨redirected, hr, -, hdistinct, hm⟩ := resolved_eq_marked hid' h.resolved_eq hd
  have hu : (t.setSheet redirected id).sheet id = redirected := sheet_setSheet_self _ hid'
  have hmarked := fun g => SameContents.withInheritance (g := g) hm (by rwa [hu])
  rw [hu] at hmarked
  have hplain := SameContents.withRedirects hr
  rw [sheet_setSheet_self _ hid'] at hplain
  exact ⟨(hmarked Value.plain).trans hplain, redirected, hr, (hmarked _).leaves⟩

/-- How the redirects of the stylesheet at a place of `r` were resolved: in the suite `t`, which has
the base of `r`, and in all places that are searched what is said there in `r`. -/
structure Reading (settings : Settings) (r t : Suite) (id : SheetId) (redirected : Stylesheet) :
    Prop where
  base?_eq : r.base? = t.base?
  imported_eq : r.imported = t.imported
  sameContents : ∀ c ∈ t.searched id, SameContents Value.plain (r.sheet c) (t.sheet c)
  withRedirects_eq : t.withRedirects settings id = .ok redirected
  leaves_eq : (r.sheet id).leaves = redirected.leaves

/-! ## Resolution -/

variable (h : Prepares settings s l) (hd : ∀ t ∈ s.registered, (t.styles.map Style.name).Nodup)

include h hd

/-- Every stylesheet had its redirects resolved at its stage. -/
theorem Prepares.exists_reading (hid : id ∈ l.ids) :
    ∃ t redirected, Reading settings (l.prepared settings).1 t id redirected := by
  obtain ⟨t, ht⟩ := h.exists_stage hid
  have hid' : id ∈ t.ids := by
    rw [ids, ht.length_eq]
    exact hid
  obtain ⟨hplain, redirected, hr, hleaves⟩ :=
    ht.sameContents hid (h.styleNames_completed hd hid ht)
  refine ⟨t.setSheet (t.completed id) id, redirected, ?_, ?_, fun c hc => ?_, hr, hleaves⟩
  · rw [base?_setSheet, ht.base?_eq, h.kept.base?_eq]
  · rw [imported_setSheet _ hid', ht.imported_eq, h.kept.imported_eq]
  · rcases mem_searched.1 hc with rfl | hc | hc
    · rw [sheet_setSheet_self _ hid']
      exact hplain
    · rw [superclass?_setSheet] at hc
      rw [sheet_setSheet_of_ne _ (ne_of_superclass? hc).symm, ht.base_eq c hc]
      exact ⟨rfl, rfl⟩
    · obtain ⟨w, hw, rfl⟩ := Option.map_eq_some_iff.1 hc
      rw [sheet, sheet?, sheet, sheet?, imported_setSheet _ hid', ht.imported_eq,
        h.kept.imported_eq]
      exact ⟨rfl, rfl⟩

/-- Every redirect is resolved to the value that its path leads to, and to the type of that. -/
theorem Prepares.hasType_redirect (hid : id ∈ l.ids) {q : Redirect}
    (hq : q ∈ ((l.prepared settings).1.sheet id).redirects) :
    ∃ found k v type, (l.prepared settings).1.target id q.path = .ok ⟨found, .leaf k v⟩ ∧
      (l.prepared settings).1.HasType found v type ∧
      q.resolved = some ⟨access settings found q.path, type⟩ := by
  obtain ⟨t, redirected, ht⟩ := h.exists_reading hd hid
  obtain ⟨v, hv, hqv⟩ := Stylesheet.mem_redirects.1 hq
  rw [ht.leaves_eq] at hv
  obtain ⟨v₀, -, property, hv₀⟩ := exists_of_mem_leaves ht.withRedirects_eq hv
  obtain ⟨q₀, -, hresolved⟩ := Value.exists_of_mem_redirects (resolveValue_eq_ok.1 hv₀).1 hqv
  obtain ⟨target, type, trail, htarget, htype, rfl⟩ := resolveRedirect_ok hresolved
  cases hasType_of_pathType htype with
  | literal hliteral => cases hliteral
  | @redirect _ found _ k v₁ _ hfound htyped =>
    rw [htarget] at hfound
    cases hfound
    obtain ⟨k', v', hv', hplain'⟩ :=
      target_leaf_congr ht.base?_eq ht.imported_eq ht.sameContents htarget
    exact ⟨found, k', v', type, hv', htyped.congr ht.base?_eq ht.imported_eq ht.sameContents
      (mem_leaves_of_target htarget).1 hplain', rfl⟩

/-- Every redirect is resolved. The path leads to a value in the stylesheet itself, in the base or
in the imported one. One of the run is reached by the proxy of the theme, and the type is that which
the value has after preparation; one of the imported stylesheet is reached by its manager. -/
theorem Prepares.resolved_redirect (hid : id ∈ l.ids) {q : Redirect}
    (hq : q ∈ ((l.prepared settings).1.sheet id).redirects) :
    ∃ found k v, (l.prepared settings).1.target id q.path = .ok ⟨found, .leaf k v⟩ ∧
      ((found ∈ l.ids ∧ q.resolved = some ⟨"mainProxy()." ++ q.path, v.swiftType⟩) ∨
        found = .imported ∧ ∃ type, (l.prepared settings).1.HasType .imported v type ∧
          q.resolved = some
            ⟨settings.frameworkManager?.getD Settings.usualManager ++ ".S." ++ q.path, type⟩) := by
  obtain ⟨found, k, v, type, htarget, htype, hresolved⟩ := h.hasType_redirect hd hid hq
  obtain ⟨hfound, hv⟩ := mem_leaves_of_target htarget
  refine ⟨found, k, v, htarget, ?_⟩
  cases found with
  | imported =>
    refine .inr ⟨rfl, type, htype, ?_⟩
    have haccess : ∀ manager : String, manager ++ "." ++ Value.enums ++ "." = manager ++ ".S." :=
      fun manager => by
        rw [String.append_assoc, String.append_assoc]
        rfl
    rw [hresolved, access, haccess]
  | registered i =>
    have hmem : SheetId.registered i ∈ l.ids := by
      rcases mem_searched.1 hfound with heq | hb | hi
      · rwa [heq]
      · rw [superclass?_congr h.kept.base?_eq] at hb
        exact mem_ids_of_superclass? h.linked hb
      · obtain ⟨w, -, hw⟩ := Option.map_eq_some_iff.1 hi
        cases hw
    refine .inl ⟨hmem, ?_⟩
    have hswift : v.swiftType = type := htype.swiftType_eq fun p hp => by
      obtain ⟨c, k', u, type', hp', hu, hresolved'⟩ := h.hasType_redirect hd hmem
        (Stylesheet.mem_redirects.2 ⟨v, hv, Value.followed_subset_redirects v hp⟩)
      exact ⟨_, hresolved', .redirect hp' hu⟩
    rw [hresolved, access, hswift]
    rfl

/-! ## An instance -/

omit h hd

/-- A base with a redirect to one of its own values, and a theme with an array, in a nested style,
of which one item redirects to that redirect and the other one to an imported stylesheet. -/
def redirectingTheme : Suite :=
  ⟨[⟨"Base",
      [.named "A" [.leaf ⟨"x", false, false⟩ (.int 1),
        .leaf ⟨"y", false, false⟩ (.redirect ⟨"A.x", none⟩)]],
      none, none, false, []⟩,
    ⟨"Dark",
      [.named "B" [.nested ⟨"n", false, false⟩ (.named "n"
        [.leaf ⟨"z", false, false⟩ (.array [.redirect ⟨"A.y", none⟩, .redirect ⟨"S.w", none⟩])])]],
      none, some "Base", false, []⟩],
    some ⟨"Shared", [.named "S" [.leaf ⟨"w", false, false⟩ (.int 2)]], none, none, false, []⟩,
    none⟩

theorem prepares_redirectingTheme :
    Prepares .standard redirectingTheme { redirectingTheme with base? := some 0 } :=
  ⟨rfl, by cbv⟩

/-- The redirect of the theme is reached through the base and has the type of what is there. -/
theorem resolved_redirectingTheme :
    ∃ found k v, ({ redirectingTheme with base? := some 0 }.prepared .standard).1.target
        (.registered 1) "A.y" = .ok ⟨found, .leaf k v⟩ ∧
      ((found ∈ ({ redirectingTheme with base? := some 0 } : Suite).ids ∧
          some ⟨"mainProxy().A.y", "Int"⟩ =
            some (⟨"mainProxy()." ++ "A.y", v.swiftType⟩ : RedirectTarget)) ∨
        found = .imported ∧ ∃ type,
          ({ redirectingTheme with base? := some 0 }.prepared .standard).1.HasType .imported v
              type ∧
            some ⟨"mainProxy().A.y", "Int"⟩ = some
              (⟨Settings.standard.frameworkManager?.getD Settings.usualManager ++ ".S." ++ "A.y",
                type⟩ : RedirectTarget)) :=
  Prepares.resolved_redirect prepares_redirectingTheme (by decide)
    (show SheetId.registered 1 ∈ ({ redirectingTheme with base? := some 0 } : Suite).ids by decide)
    (q := ⟨"A.y", some ⟨"mainProxy().A.y", "Int"⟩⟩) (by cbv; exact .head _)

end Suite

end Appearance
