import Appearance.Proofs.Lookup
import Appearance.Proofs.Rearrangement
import Appearance.Suite.Inheritance
import Appearance.Suite.Redirects

/-!
# Look-ups do not see the order of keys

Two suites are `Suite.Alike` if their stylesheets are equal or differ by the order of keys only. A
look-up finds the same in both, up to that order, so redirects have the same types
(`pathType_congr`) and styles the same ancestors (`ancestorsFrom_alike`). A stylesheet that is equal
in both is then resolved and marked in the same way (`withRedirects_congr`,
`withInheritance_congr`).

The relation is an equation or a rearrangement, and not the rearrangement alone, since the passes
replace one stylesheet after the other: those that come from the base are equal in both suites
already, while those that have yet to be sorted differ still. A pass over suites that are alike
keeps them alike, and each stylesheet it has been over is equal.
-/

namespace Appearance

/-! ## Styles -/

/-- The styles are equal, or they differ by the order of keys and have distinct ones. -/
def Style.Alike (s t : Style) : Prop := s = t ∨ s.Rearranged t ∧ s.Distinct

namespace Style

variable {s t : Style}

theorem Alike.rearranged (h : s.Alike t) : s.Rearranged t := by
  rcases h with rfl | h
  · exact .refl s
  · exact h.1

theorem Alike.head_eq (h : s.Alike t) : s.head = t.head := h.rearranged.head_eq

theorem Alike.name_eq (h : s.Alike t) : s.name = t.name := h.rearranged.name_eq

theorem Alike.refl (s : Style) : s.Alike s := Or.inl rfl

/-- The nested styles of one name are alike. -/
theorem Alike.nested? (h : s.Alike t) (n : String) :
    Option.Rel Alike (s.nested? n) (t.nested? n) := by
  rcases h with rfl | ⟨hst, hd⟩
  · exact option_rel_refl Alike.refl _
  · have hd' := hst.distinct hd
    cases hst with
    | @mk h ps qs rs hpq hqr =>
      have hmem : List.Forall₂ (fun a b => a ∈ (mk h ps).nestedStyles ∧ a.Rearranged b)
          (ps.filterMap Property.style?) (qs.filterMap Property.style?) :=
        (List.forall₂_and_left _ _).2 ⟨fun _ ha => ha, forall₂_style? hpq⟩
      have hperm : (qs.filterMap Property.style?).Perm (rs.filterMap Property.style?) :=
        hqr.filterMap _
      have hrel := rel_find?_of_forall₂ name name hmem
        (fun a b hab => hab.2.name_eq) n
      rw [find?_perm_of_nodup (hperm.map name |>.nodup_iff.2 hd'.self.2) hperm] at hrel
      rw [Style.nested?, Style.nested?, nestedStyles_mk, nestedStyles_mk]
      exact option_rel_imp hrel fun a _ b hab => Or.inr ⟨hab.2, hd.nested hab.1⟩

/-- The properties of one key differ by the order of keys at most. -/
theorem Alike.property? (h : s.Alike t) (k : String) :
    Option.Rel Property.Rearranged (s.property? k) (t.property? k) := by
  rcases h with rfl | ⟨hst, hd⟩
  · refine option_rel_refl (fun p => ?_) _
    cases p with
    | leaf k v => exact .leaf k v
    | nested k n => exact .nested k (.refl n)
  · have hd' := hst.distinct hd
    cases hst with
    | @mk h ps qs rs hpq hqr =>
      have hrel := rel_find?_of_forall₂ Property.key Property.key hpq
        (fun a b hab => hab.key_eq) k
      rwa [find?_perm_of_nodup ((hqr.map Property.key).nodup_iff.2 hd'.self.1) hqr] at hrel

/-! ## Ancestors -/

end Style

/-- The ancestors have one path, and their styles are alike. -/
structure Ancestor.Alike (a b : Ancestor) : Prop where
  path_eq : a.path = b.path
  style : a.style.Alike b.style

namespace Ancestor

variable {a b : Ancestor}

theorem Alike.accessorType_eq (h : a.Alike b) : a.accessorType = b.accessorType := by
  rw [accessorType, accessorType, h.path_eq, h.style.head_eq]

/-- Ancestors that are alike have values for the same keys. -/
theorem Alike.hasValue_eq (h : a.Alike b) (key : String) : a.hasValue key = b.hasValue key := by
  have := h.style.property? key
  unfold hasValue
  generalize a.style.property? key = p, b.style.property? key = q at this
  cases this with
  | none => rfl
  | some hpq => cases hpq <;> rfl

/-- Ancestors that are alike have alike nested styles. -/
theorem Alike.nested? (h : a.Alike b) (n : String) :
    Option.Rel Alike (a.nested? n) (b.nested? n) := by
  have := h.style.nested? n
  unfold Ancestor.nested?
  generalize a.style.nested? n = x, b.style.nested? n = y at this
  cases this with
  | none => exact .none
  | some hxy =>
    refine .some ⟨?_, hxy⟩
    simp only [Style.className, h.path_eq, hxy.head_eq]

/-- Going down to a nested style keeps ancestors alike. -/
theorem filterMap_nested? {as bs : List Ancestor} (h : List.Forall₂ Alike as bs) (n : String) :
    List.Forall₂ Alike (as.filterMap (Ancestor.nested? n)) (bs.filterMap (Ancestor.nested? n)) := by
  induction h with
  | nil => exact .nil
  | @cons a b as bs hab _ ih =>
    have := hab.nested? n
    rw [List.filterMap_cons, List.filterMap_cons]
    generalize a.nested? n = x, b.nested? n = y at this
    cases this with
    | none => exact ih
    | some hxy => exact .cons hxy ih

theorem any_hasValue {as bs : List Ancestor} (h : List.Forall₂ Alike as bs) (key : String) :
    as.any (hasValue key) = bs.any (hasValue key) := by
  induction h with
  | nil => rfl
  | cons hab _ ih => rw [List.any_cons, List.any_cons, hab.hasValue_eq, ih]

end Ancestor

namespace Style

/-- A style is marked by the accessors of its ancestors alone. -/
theorem heirHead_congr (head : StyleHead) {as bs : List Ancestor}
    (h : List.Forall₂ Ancestor.Alike as bs) : heirHead head as = heirHead head bs := by
  have hfind : Option.Rel Ancestor.Alike (as.find? (·.style.head.isApplicable))
      (bs.find? (·.style.head.isApplicable)) := by
    induction h with
    | nil => exact .none
    | @cons a b as bs hab _ ih =>
      rw [List.find?_cons, List.find?_cons, hab.style.head_eq]
      split
      · exact .some hab
      · exact ih
  unfold heirHead
  generalize as.find? _ = x, bs.find? _ = y at hfind
  cases hfind with
  | none => rfl
  | some hab => simp only [hab.style.head_eq]

theorem nestedHeirHead_congr (stem : String) (head : StyleHead) {as bs : List Ancestor}
    (h : List.Forall₂ Ancestor.Alike as bs) :
    nestedHeirHead stem head as = nestedHeirHead stem head bs := by
  cases h with
  | nil => rfl
  | cons hab _ => simp only [nestedHeirHead, hab.path_eq, hab.accessorType_eq]

/-- The properties of a style are marked the same below ancestors that are alike. -/
theorem inheritingEach_congr {ps : List Property} (style : StyleHead) {as bs : List Ancestor}
    (h : List.Forall₂ Ancestor.Alike as bs)
    (ih : ∀ head qs k, Property.nested k (mk head qs) ∈ ps → ∀ style {as bs : List Ancestor},
      List.Forall₂ Ancestor.Alike as bs → inheritingEach style qs as = inheritingEach style qs bs) :
    inheritingEach style ps as = inheritingEach style ps bs := by
  induction ps with
  | nil => rw [inheritingEach, inheritingEach]
  | cons p ps ihps =>
    have hps := ihps fun head qs k hn => ih head qs k (List.mem_cons_of_mem p hn)
    cases p with
    | leaf k v => rw [inheritingEach, inheritingEach, Ancestor.any_hasValue h, hps]
    | nested k n =>
      obtain ⟨head, qs⟩ := n
      have hfound := Ancestor.filterMap_nested? h head.name
      rw [inheritingEach, inheritingEach, hps, nestedHeirHead_congr _ _ hfound,
        heirHead_congr _ hfound, ih head qs k List.mem_cons_self _ hfound]

/-- Alike ancestors mark a style in the same way. -/
theorem inheriting_congr (s : Style) {as bs : List Ancestor}
    (h : List.Forall₂ Ancestor.Alike as bs) : s.inheriting as = s.inheriting bs := by
  have key : ∀ (s : Style) (style : StyleHead) {as bs : List Ancestor},
      List.Forall₂ Ancestor.Alike as bs →
        inheritingEach style s.properties as = inheritingEach style s.properties bs := fun s => by
    induction s using Style.induction with
    | mk head ps ih =>
      exact fun style as bs h => inheritingEach_congr style h
        fun head qs k hn style as bs => ih k (mk head qs) hn style
  rw [inheriting, inheriting, heirHead_congr _ h, key s _ h]

end Style

/-! ## Stylesheets -/

/-- The stylesheets are equal, or they differ by the order of keys and have distinct ones. -/
def Stylesheet.Alike (s t : Stylesheet) : Prop := s = t ∨ s.Rearranged t ∧ s.Distinct

namespace Stylesheet

variable {s t : Stylesheet}

theorem Alike.refl (s : Stylesheet) : s.Alike s := Or.inl rfl

theorem Alike.name_eq (h : s.Alike t) : s.name = t.name := by
  rcases h with rfl | h
  · rfl
  · exact h.1.name_eq

theorem Alike.allStyles (h : s.Alike t) :
    ∃ us, List.Forall₂ Style.Rearranged s.allStyles us ∧ us.Perm t.allStyles := by
  rcases h with rfl | h
  · exact ⟨_, List.forall₂_same.2 fun u _ => .refl u, .refl _⟩
  · exact h.1.allStyles

end Stylesheet

namespace Suite

/-- The suites have one base, and their stylesheets are alike. -/
structure Alike (s t : Suite) : Prop where
  base?_eq : s.base? = t.base?
  registered : List.Forall₂ Stylesheet.Alike s.registered t.registered
  imported : Option.Rel Stylesheet.Alike s.imported t.imported

variable {s t : Suite}

theorem Alike.isLinked_eq (h : s.Alike t) : s.isLinked = t.isLinked := by
  rw [isLinked, h.base?_eq, isLinked]

theorem Alike.superclass?_eq (h : s.Alike t) (id : SheetId) :
    s.superclass? id = t.superclass? id := by
  cases id <;> simp [superclass?, h.base?_eq]

theorem Alike.ids_eq (h : s.Alike t) : s.ids = t.ids := by
  rw [ids, ids, h.registered.length_eq]

theorem Alike.importedId?_eq (h : s.Alike t) : s.importedId? = t.importedId? := by
  rw [importedId?, importedId?]
  exact map_eq_of_rel h.imported fun _ _ _ _ => rfl

theorem Alike.isNone_imported_eq (h : s.Alike t) : s.imported.isNone = t.imported.isNone := by
  have := h.imported
  generalize s.imported = a, t.imported = b at this
  cases this <;> rfl

theorem Alike.searched_eq (h : s.Alike t) (id : SheetId) : s.searched id = t.searched id := by
  rw [searched, searched, h.superclass?_eq, h.importedId?_eq]

theorem Alike.sheet (h : s.Alike t) (id : SheetId) : (s.sheet id).Alike (t.sheet id) := by
  have hsheet : Option.Rel Stylesheet.Alike (s.sheet? id) (t.sheet? id) := by
    cases id with
    | registered i => exact rel_getElem?_of_forall₂ h.registered i
    | imported => exact h.imported
  rw [Suite.sheet, Suite.sheet]
  generalize s.sheet? id = a, t.sheet? id = b at hsheet
  cases hsheet with
  | none => exact .refl _
  | some hab => exact hab

theorem Alike.setSheet (h : s.Alike t) (id : SheetId) (u : Stylesheet) :
    (s.setSheet u id).Alike (t.setSheet u id) := by
  cases id with
  | registered i => exact ⟨h.base?_eq, forall₂_set h.registered (.refl u) i, h.imported⟩
  | imported => exact ⟨h.base?_eq, h.registered, .some (.refl u)⟩

theorem Alike.sheets (h : s.Alike t) : List.Forall₂ Stylesheet.Alike s.sheets t.sheets :=
  List.rel_append h.registered (forall₂_toList h.imported)

/-! ## Look-ups -/

theorem find?_congr {id : SheetId} (hl : s.isLinked = t.isLinked) (h : s.sheet id = t.sheet id)
    (n : String) : s.find? id n = t.find? id n := by
  rw [find?, find?, style?, style?, styleIndex?, styleIndex?, hl, h]

/-- The style of a name is found in both suites or in neither. -/
theorem Alike.find? (h : s.Alike t) (hl : s.isLinked = true) (id : SheetId) (n : String) :
    Option.Rel Style.Alike (s.find? id n) (t.find? id n) := by
  rcases h.sheet id with heq | ⟨hst, hd⟩
  · rw [find?_congr h.isLinked_eq heq]
    exact option_rel_refl Style.Alike.refl _
  · have hd' := hst.distinct hd
    rw [find?_eq hl hd.names, find?_eq (h.isLinked_eq ▸ hl) hd'.names]
    obtain ⟨us, hsu, hut⟩ := hst.allStyles
    have hmem : List.Forall₂ (fun a b => a ∈ (s.sheet id).allStyles ∧ a.Rearranged b)
        (s.sheet id).allStyles us := (List.forall₂_and_left _ _).2 ⟨fun _ ha => ha, hsu⟩
    have hrel := rel_find?_of_forall₂ Style.name Style.name hmem
      (fun a b hab => hab.2.name_eq) n
    rw [find?_perm_of_nodup ((hut.map Style.name).nodup_iff.2 hd'.names) hut] at hrel
    exact option_rel_imp hrel fun a _ b hab => Or.inr ⟨hab.2, hd.styles a hab.1⟩

/-- The property at the end of a path is found in both suites or in neither. -/
theorem Alike.propertyAt? (h : s.Alike t) (hl : s.isLinked = true) (id : SheetId)
    (path : RedirectPath) :
    Option.Rel Property.Rearranged (s.propertyAt? id path) (t.propertyAt? id path) := by
  have hfind := h.find? hl id path.style
  unfold Suite.propertyAt?
  generalize s.find? id path.style = a, t.find? id path.style = b at hfind
  cases hfind with
  | none => exact .none
  | @some a b hab =>
    cases hn : path.nested with
    | none => exact hab.property? path.key
    | some n =>
      have hnested := hab.nested? n
      simp only [Option.bind_eq_bind, Option.bind_some]
      generalize a.nested? n = c, b.nested? n = d at hnested
      cases hnested with
      | none => exact .none
      | some hcd => exact hcd.property? path.key

/-- A redirect leads to the same place, and to the same value there. -/
theorem Alike.target (h : s.Alike t) (hl : s.isLinked = true) (id : SheetId) (path : String) :
    (∃ e, s.target id path = .error e ∧ t.target id path = .error e) ∨
      ∃ a b, s.target id path = .ok a ∧ t.target id path = .ok b ∧ a.sheet = b.sheet ∧
        a.property.Rearranged b.property := by
  unfold Suite.target
  cases RedirectPath.parse? path with
  | none => exact .inl ⟨_, rfl, rfl⟩
  | some parts =>
    have hsearch : Option.Rel (fun a b : Target => a.sheet = b.sheet ∧
        a.property.Rearranged b.property)
        ((s.searched id).findSome? fun c => (s.propertyAt? c parts).map (Target.mk c))
        ((t.searched id).findSome? fun c => (t.propertyAt? c parts).map (Target.mk c)) := by
      rw [h.searched_eq]
      induction t.searched id with
      | nil => exact .none
      | cons c cs ih =>
        have hc := h.propertyAt? hl c parts
        rw [List.findSome?_cons, List.findSome?_cons]
        generalize s.propertyAt? c parts = p, t.propertyAt? c parts = q at hc
        cases hc with
        | none => exact ih
        | some hpq => exact .some ⟨rfl, hpq⟩
    dsimp only
    generalize (s.searched id).findSome? _ = a, (t.searched id).findSome? _ = b at hsearch
    cases hsearch with
    | none =>
      rw [(h.sheet id).name_eq]
      exact .inl ⟨_, rfl, rfl⟩
    | some hab => exact .inr ⟨_, _, rfl, rfl, hab⟩

/-! ## Redirects -/

/-- Redirects have the same types. -/
theorem pathType_congr (h : s.Alike t) (hl : s.isLinked = true) (depth : Nat) :
    s.pathType depth = t.pathType depth := by
  induction depth with
  | zero => rfl
  | succ depth ih =>
    funext id path trail
    rw [pathType, pathType]
    split
    · rfl
    · rcases h.target hl id path with ⟨e, hs, ht⟩ | ⟨⟨c, p⟩, ⟨c', q⟩, hs, ht, hc, hpq⟩
      · simp only [hs, ht]
      · obtain rfl : c = c' := hc
        cases hpq with
        | leaf k v => simp only [hs, ht, ih]
        | nested k hst => simp only [hs, ht, (h.sheet c).name_eq]

/-- The redirects of properties in another order are the same in another order. -/
theorem redirectsOfEach_perm {ps qs : List Property} (h : ps.Perm qs) :
    (redirectsOfEach ps).Perm (redirectsOfEach qs) := by
  induction h with
  | nil => rfl
  | cons p _ ih => cases p <;> exact ih.append_left _
  | swap p q ps =>
    cases p <;> cases q <;> simp only [redirectsOfEach, ← List.append_assoc] <;>
      exact List.perm_append_comm.append_right _
  | trans _ _ ih ih' => exact ih.trans ih'

/-- A style has the same redirects in any order of its keys. -/
theorem redirectsOf_perm {a b : Style} (h : a.Rearranged b) :
    (redirectsOf a).Perm (redirectsOf b) := by
  induction a using Style.induction generalizing b with
  | mk head ps ih =>
    obtain ⟨head', rs⟩ := b
    obtain ⟨-, qs, hpq, hqr⟩ := Style.rearranged_mk.1 h
    rw [redirectsOf, redirectsOf]
    refine List.Perm.trans ?_ (redirectsOfEach_perm hqr)
    clear h hqr
    induction hpq with
    | nil => rfl
    | cons hpq hrest ihrest =>
      have hps := ihrest fun k n hn => ih k n (List.mem_cons_of_mem _ hn)
      cases hpq with
      | leaf k v => exact hps.append_left _
      | nested k hst => exact (ih k _ List.mem_cons_self hst).append hps

theorem flatMap_redirectsOf_perm {as bs : List Style} (h : List.Forall₂ Style.Rearranged as bs) :
    (as.flatMap redirectsOf).Perm (bs.flatMap redirectsOf) := by
  induction h with
  | nil => rfl
  | cons hab _ ih =>
    rw [List.flatMap_cons, List.flatMap_cons]
    exact (redirectsOf_perm hab).append ih

/-- The redirects of suites that are alike are the same up to their order. -/
theorem Alike.redirects_perm (h : s.Alike t) : s.redirects.Perm t.redirects := by
  rw [redirects, redirects]
  have := h.sheets
  generalize s.sheets = as, t.sheets = bs at this
  induction this with
  | nil => rfl
  | cons hab _ ih =>
    obtain ⟨us, hsu, hut⟩ := hab.allStyles
    rw [List.flatMap_cons, List.flatMap_cons]
    exact ((flatMap_redirectsOf_perm hsu).trans (hut.flatMap_right _)).append ih

/-- A redirect is resolved to the same access in both suites. -/
theorem resolveRedirect_congr (h : s.Alike t) (hl : s.isLinked = true) (settings : Settings)
    (id : SheetId) : s.resolveRedirect settings id = t.resolveRedirect settings id := by
  funext r
  rw [resolveRedirect, resolveRedirect, h.redirects_perm.length_eq, pathType_congr h hl]
  rcases h.target hl id r.path with ⟨e, hs, ht⟩ | ⟨a, b, hs, ht, hab, -⟩
  · rw [hs, ht]
  · rw [hs, ht]
    simp only [hab]

theorem resolveValue_congr {settings : Settings} {id : SheetId}
    (h : s.resolveRedirect settings id = t.resolveRedirect settings id) :
    s.resolveValue settings id = t.resolveValue settings id := by
  funext property v
  rw [resolveValue, resolveValue, h]

/-- Properties are resolved in the same way where redirects are. -/
theorem resolveEach_congr {settings : Settings} {id : SheetId}
    (h : s.resolveRedirect settings id = t.resolveRedirect settings id) (style : String)
    {ps : List Property}
    (ih : ∀ k n, Property.nested k n ∈ ps →
      s.resolveStyle settings id n = t.resolveStyle settings id n) :
    s.resolveEach settings id style ps = t.resolveEach settings id style ps := by
  induction ps with
  | nil => rfl
  | cons p ps ihps =>
    have hps := ihps fun k n hn => ih k n (List.mem_cons_of_mem p hn)
    cases p with
    | leaf k v => rw [resolveEach, resolveEach, resolveValue_congr h, hps]
    | nested k n => rw [resolveEach, resolveEach, ih k n List.mem_cons_self, hps]

theorem resolveStyle_congr {settings : Settings} {id : SheetId}
    (h : s.resolveRedirect settings id = t.resolveRedirect settings id) (x : Style) :
    s.resolveStyle settings id x = t.resolveStyle settings id x := by
  induction x using Style.induction with
  | mk head ps ih => rw [resolveStyle, resolveStyle, resolveEach_congr h head.name ih]

/-- A stylesheet that both suites have is resolved in the same way. -/
theorem withRedirects_congr (h : s.Alike t) (hl : s.isLinked = true) (settings : Settings)
    {id : SheetId} (hsheet : s.sheet id = t.sheet id) :
    s.withRedirects settings id = t.withRedirects settings id := by
  have hstyle : s.resolveStyle settings id = t.resolveStyle settings id :=
    funext (resolveStyle_congr (resolveRedirect_congr h hl settings id))
  rw [withRedirects, withRedirects, hsheet, hstyle]

/-! ## Ancestors -/

/-- Suites that are alike have the same number of styles. -/
theorem Alike.styleCount_eq (h : s.Alike t) : s.styleCount = t.styleCount := by
  rw [styleCount, styleCount]
  have := h.sheets
  generalize s.sheets = as, t.sheets = bs at this
  induction this with
  | nil => rfl
  | cons hab _ ih =>
    obtain ⟨us, hsu, hut⟩ := hab.allStyles
    rw [List.flatMap_cons, List.flatMap_cons, List.length_append, List.length_append, ih,
      hsu.length_eq, hut.length_eq]

/-- The style of a name is the same on a ground of either suite. -/
theorem Alike.styleOn? (h : s.Alike t) (hl : s.isLinked = true) (done : List Style)
    (ground : Ground) (n : String) :
    Option.Rel Style.Alike (s.styleOn? done ground n) (t.styleOn? done ground n) := by
  cases ground with
  | own => exact option_rel_refl Style.Alike.refl _
  | base id => exact h.find? hl id n
  | imported =>
    rw [Suite.styleOn?, Suite.styleOn?, h.importedId?_eq]
    cases t.importedId? with
    | none => exact .none
    | some id => exact h.find? hl id n

theorem Alike.classPath_eq (h : s.Alike t) (settings : Settings) (id : SheetId) (ground : Ground)
    {a b : Style} (hab : a.Alike b) :
    s.classPath settings id ground a = t.classPath settings id ground b := by
  cases ground <;> simp only [classPath, (h.sheet _).name_eq, Style.className, hab.head_eq]

theorem Alike.nextAncestor?_eq (h : s.Alike t) (id : SheetId) (ground : Ground) {a b : Style}
    (hab : a.Alike b) : s.nextAncestor? id ground a = t.nextAncestor? id ground b := by
  rw [nextAncestor?, nextAncestor?, hab.head_eq, hab.name_eq, h.superclass?_eq]

/-- A style has alike ancestors. -/
theorem ancestorsFrom_alike (h : s.Alike t) (hl : s.isLinked = true) (settings : Settings)
    (id : SheetId) (done : List Style) (steps : Nat) (met : List (Ground × String))
    (next : Ground × String) :
    List.Forall₂ Ancestor.Alike (s.ancestorsFrom settings id done steps met next)
      (t.ancestorsFrom settings id done steps met next) := by
  induction steps generalizing met next with
  | zero => exact .nil
  | succ steps ih =>
    rw [ancestorsFrom, ancestorsFrom]
    split
    · exact .nil
    · have hstyle := h.styleOn? hl done next.1 next.2
      generalize s.styleOn? done next.1 next.2 = a, t.styleOn? done next.1 next.2 = b at hstyle
      cases hstyle with
      | none => exact .nil
      | @some a b hab =>
        dsimp only
        rw [h.nextAncestor?_eq id next.1 hab]
        refine .cons ⟨h.classPath_eq settings id next.1 hab, hab⟩ ?_
        split
        · exact ih _ _
        · exact .nil

/-! ## Marking -/

theorem Alike.isSome_find?_eq (h : s.Alike t) (hl : s.isLinked = true) (id : SheetId)
    (n : String) : (s.find? id n).isSome = (t.find? id n).isSome := by
  have := h.find? hl id n
  generalize s.find? id n = a, t.find? id n = b at this
  cases this <;> rfl

theorem Alike.baseWith?_eq (h : s.Alike t) (hl : s.isLinked = true) (id : SheetId) (n : String) :
    s.baseWith? id n = t.baseWith? id n := by
  simp only [baseWith?, h.superclass?_eq, h.isSome_find?_eq hl]

theorem Alike.unknownStyle_eq (h : s.Alike t) (id : SheetId) (x : Style) (n : String) :
    s.unknownStyle id x n = t.unknownStyle id x n := by
  rw [unknownStyle, unknownStyle, (h.sheet id).name_eq]

theorem declaredAncestor?_congr (h : s.Alike t) (hl : s.isLinked = true) (id : SheetId)
    (done : List Style) (x : Style) :
    s.declaredAncestor? id done x = t.declaredAncestor? id done x := by
  simp only [declaredAncestor?, h.baseWith?_eq hl, h.unknownStyle_eq]

/-- A style is marked the same in both suites. -/
theorem heir_congr (h : s.Alike t) (hl : s.isLinked = true) (settings : Settings) (id : SheetId)
    (done : List Style) (x : Style) (first : Ground × String) :
    s.heir settings id done x first = t.heir settings id done x first := by
  have hancestors := ancestorsFrom_alike h hl settings id done (s.styleCount + 1) [] first
  rw [heir, heir, ← h.styleCount_eq, h.unknownStyle_eq]
  generalize s.ancestorsFrom settings id done _ [] first = as,
    t.ancestorsFrom settings id done _ [] first = bs at hancestors
  cases hancestors with
  | nil => rfl
  | cons hab hrest =>
    simp only [Style.inheriting_congr _ (.cons hab hrest), hab.path_eq, hab.accessorType_eq]

theorem inheritingStyle_congr (h : s.Alike t) (hl : s.isLinked = true) (settings : Settings)
    (id : SheetId) (done : List Style) (x : Style) :
    s.inheritingStyle settings id done x = t.inheritingStyle settings id done x := by
  simp only [inheritingStyle, h.baseWith?_eq hl, declaredAncestor?_congr h hl, heir_congr h hl,
    h.isNone_imported_eq, derivingUnseen, h.unknownStyle_eq, overriding, (h.sheet id).name_eq]

theorem inheritingStyles_congr (h : s.Alike t) (hl : s.isLinked = true) (settings : Settings)
    (id : SheetId) (styles : List Style) (order : List Nat) (done : List Style) :
    s.inheritingStyles settings id styles order done =
      t.inheritingStyles settings id styles order done := by
  induction order generalizing done with
  | nil => rfl
  | cons i order ih => simp only [inheritingStyles, inheritingStyle_congr h hl, ih]

/-- A stylesheet that both suites have is marked in the same way. -/
theorem withInheritance_congr (h : s.Alike t) (hl : s.isLinked = true) (settings : Settings)
    {id : SheetId} (hsheet : s.sheet id = t.sheet id) :
    s.withInheritance settings id = t.withInheritance settings id := by
  simp only [withInheritance, hsheet, inheritingStyles_congr h hl, inheritingStyle_congr h hl]

end Suite

end Appearance
