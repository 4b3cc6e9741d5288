import Appearance.Proofs.AccessorTypes
import Appearance.Proofs.FileNames

/-!
# Heirs of imported styles

An imported stylesheet is not prepared, so what inherits from it is marked with the paths that its
styles have as they were declared (`Suite.Prepares.inherits_declared`). The search that marks a
class stops after a number of steps and at a place that it met before; `Suite.Nearest` is the style
that it is meant to find, and it never stops too early for that (`Nearest.head?_ancestorsFrom`).

The classes of the imported stylesheet itself are generated elsewhere, where it is prepared as a
base, and there a nested style that overrides another one is called anew. So the two agree exactly
where no nested style on the way overrides one (`Suite.Prepares.inherits_imported`);
`Suite.overriding_importing` is a case in which they do not.
-/

namespace Appearance

open Ancestor (allNested)

/-! ## Paths of names -/

namespace Ancestor

/-- What ancestors have at a path of names is what those nested in them under the first name have at
the rest of it. -/
theorem filterMap_at?_cons (n : String) (names : List String) (as : List Ancestor) :
    as.filterMap (at? (n :: names)) = (allNested n as).filterMap (at? names) := by
  rw [allNested, List.filterMap_filterMap]
  rfl

theorem filterMap_at?_nil (as : List Ancestor) : as.filterMap (at? []) = as :=
  List.filterMap_some

/-- What stands before the path of a class stands before those inside it. -/
theorem at?_append (before : String) (names : List String) (a : Ancestor) :
    at? names ⟨before ++ a.path, a.style⟩ =
      (a.at? names).map fun b => ⟨before ++ b.path, b.style⟩ := by
  induction names generalizing a with
  | nil => rfl
  | cons n names ih =>
    rw [at?, at?, nested?, nested?]
    cases a.style.nested? n with
    | none => rfl
    | some m =>
      have hrest := ih ⟨a.path ++ "." ++ m.className, m⟩
      simp only [Option.map_some, Option.bind_some]
      rw [← hrest]
      simp only [String.append_assoc]

end Ancestor

namespace Style

/-- A nested style at a path of names is an heir of what the ancestors have there: its class derives
from the nearest of these, and its accessor overrides that of it. -/
theorem Heir.inherits_at? {x y c : Style} {as : List Ancestor} {o : Ancestor} (h : Heir x as y)
    {names : List String} (hc : y.at? names = some c)
    (ho : (as.filterMap (Ancestor.at? names)).head? = some o) :
    c.head.inherits = some o.path ∧
      (names ≠ [] → c.head.accessorType = some o.accessorType) := by
  induction names generalizing x y as with
  | nil =>
    cases hc
    rw [Ancestor.filterMap_at?_nil] at ho
    refine ⟨?_, fun hne => absurd rfl hne⟩
    rw [h.inherits_eq, ho]
    rfl
  | cons n names ih =>
    obtain ⟨m, hm, hmc⟩ := Option.bind_eq_some_iff.1 hc
    obtain ⟨hmem, hname⟩ := nested?_mem hm
    obtain ⟨m', hm', hheir, -⟩ := h.nested hmem
    rw [Ancestor.filterMap_at?_cons, ← hname] at ho
    obtain ⟨hinherits, htype⟩ := ih hheir hmc ho
    refine ⟨hinherits, fun _ => ?_⟩
    cases names with
    | cons => exact htype (List.cons_ne_nil _ _)
    | nil =>
      cases hmc
      rw [h.nestedStyles_eq] at hmem
      obtain ⟨w, hw, rfl⟩ := List.mem_map.1 hmem
      rw [Ancestor.filterMap_at?_nil, name_nestedHeir] at ho
      exact (accessorType_nestedHeir y.head as w ho).1

end Style

namespace Suite

variable {s l r u : Suite} {settings : Settings} {id : SheetId} {done earlier : List Style}
  {names : List String} {k : Nat} {found : Ground × Style}

/-! ## The nearest inherited style -/

/-- From a ground and a name on, the first style up the way that has one nested at a path of names,
with the ground on which it stands; the `k` styles before it have none. -/
inductive Nearest (s : Suite) (id : SheetId) (done : List Style) (names : List String) :
    Nat → Ground × String → Ground × Style → Prop
  | here {next : Ground × String} {x : Style} : s.styleOn? done next.1 next.2 = some x →
    (x.at? names).isSome = true → Nearest s id done names 0 next (next.1, x)
  | beyond {k : Nat} {next after : Ground × String} {x : Style} {found : Ground × Style} :
    s.styleOn? done next.1 next.2 = some x → x.at? names = none →
    s.nextAncestor? id next.1 x = some after → Nearest s id done names k after found →
    Nearest s id done names (k + 1) next found

namespace Nearest

variable {next : Ground × String}

theorem styleOn? (h : Nearest s id done names k next found) :
    (s.styleOn? done next.1 next.2).isSome = true := by
  cases h with
  | here hx => rw [hx]; rfl
  | beyond hx => rw [hx]; rfl

/-- What is found is looked up on its ground. -/
theorem exists_name (h : Nearest s id done names k next found) :
    (∃ n, s.styleOn? done found.1 n = some found.2) ∧ (found.2.at? names).isSome = true := by
  induction h with
  | here hx hat => exact ⟨⟨_, hx⟩, hat⟩
  | beyond _ _ _ _ ih => exact ih

/-- The way up is determined, and how far it goes. -/
theorem unique (h : Nearest s id done names k next found) {j : Nat} {other : Ground × Style}
    (h' : Nearest s id done names j next other) : k = j := by
  induction h generalizing j with
  | here hx hat =>
    cases h' with
    | here => rfl
    | beyond hx' hnone =>
      rw [hx] at hx'
      cases hx'
      rw [hnone] at hat
      cases hat
  | beyond hx hnone hafter _ ih =>
    cases h' with
    | here hx' hat =>
      rw [hx] at hx'
      cases hx'
      rw [hnone] at hat
      cases hat
    | beyond hx' _ hafter' hrest =>
      rw [hx] at hx'
      cases hx'
      rw [hafter] at hafter'
      cases hafter'
      rw [ih hrest]

/-- The bounded search comes as far as the nearest style with something at the path, given that
many steps: a place that was met is farther from it than the one that is left. -/
theorem head?_ancestorsFrom (settings : Settings) (h : Nearest s id done names k next found)
    {steps : Nat} (met : List (Ground × String)) (hsteps : k < steps)
    (hmet : ∀ p ∈ met, ∀ j other, Nearest s id done names j p other → k < j) :
    ((s.ancestorsFrom settings id done steps met next).filterMap (Ancestor.at? names)).head? =
      Ancestor.at? names ⟨s.classPath settings id found.1 found.2, found.2⟩ := by
  induction h generalizing steps met with
  | @here next x hx hat =>
    obtain ⟨steps, rfl⟩ := Nat.exists_eq_add_one.2 (Nat.zero_lt_of_lt hsteps)
    have hnot : next ∉ met := fun hmem => lt_irrefl _ (hmet next hmem 0 _ (.here hx hat))
    obtain ⟨a, ha⟩ := Option.isSome_iff_exists.1
      ((Ancestor.isSome_at? names ⟨s.classPath settings id next.1 x, x⟩).trans hat)
    rw [ancestorsFrom, if_neg hnot, hx]
    dsimp only
    rw [List.filterMap_cons_some ha, ha]
    rfl
  | @beyond k next after x found hx hnone hafter hrest ih =>
    obtain ⟨steps, rfl⟩ := Nat.exists_eq_add_one.2 (Nat.zero_lt_of_lt hsteps)
    have hself := Nearest.beyond hx hnone hafter hrest
    have hnot : next ∉ met := fun hmem => lt_irrefl _ (hmet next hmem _ _ hself)
    have ha : Ancestor.at? names ⟨s.classPath settings id next.1 x, x⟩ = none := by
      rw [← Option.not_isSome_iff_eq_none, Ancestor.isSome_at?]
      simp [hnone]
    rw [ancestorsFrom, if_neg hnot, hx]
    simp only [hafter]
    rw [List.filterMap_cons_none ha]
    refine ih _ (by omega) fun p hp j other hj => ?_
    rcases List.mem_append.1 hp with hp | hp
    · have := hmet p hp j other hj
      omega
    · rw [List.mem_singleton.1 hp] at hj
      have := hself.unique hj
      omega

/-- The places on the way are all different. -/
theorem exists_trail (h : Nearest s id done names k next found) (hnext : Searched s id next.1) :
    ∃ trail : List (Ground × String), trail.length = k + 1 ∧ trail.Nodup ∧
      ∀ p ∈ trail, Searched s id p.1 ∧
        ∃ j ≤ k, Nearest s id done names j p found := by
  induction h with
  | @here next x hx hat =>
    refine ⟨[next], rfl, List.nodup_singleton _, fun p hp => ?_⟩
    rw [List.mem_singleton.1 hp]
    exact ⟨hnext, 0, le_rfl, .here hx hat⟩
  | @beyond k next after x found hx hnone hafter hrest ih =>
    obtain ⟨trail, hlen, hnodup, hon⟩ := ih (hnext.next hafter)
    have hself := Nearest.beyond hx hnone hafter hrest
    refine ⟨next :: trail, by rw [List.length_cons, hlen], List.nodup_cons.2 ⟨fun hmem => ?_,
      hnodup⟩, List.forall_mem_cons.2 ⟨⟨hnext, _, le_rfl, hself⟩, fun p hp => ?_⟩⟩
    · obtain ⟨-, j, hj, hnear⟩ := hon next hmem
      have := hself.unique hnear
      omega
    · obtain ⟨hsearched, j, hj, hnear⟩ := hon p hp
      exact ⟨hsearched, j, by omega, hnear⟩

/-- The way is not longer than there are styles. -/
theorem lt_styleCount (h : Nearest s id done names k next found) (hnext : Searched s id next.1)
    (hid : id ∈ s.ids) (hbase : ∀ b, s.superclass? id = some b → b ∈ s.ids)
    (hdone : done.length ≤ (s.sheet id).allStyles.length) : k < s.styleCount := by
  obtain ⟨trail, hlen, hnodup, hon⟩ := h.exists_trail hnext
  let places : List (Ground × String) := done.map (fun x => (.own, x.name)) ++
    (s.superclass? id).toList.flatMap (fun b =>
      (s.sheet b).allStyles.map fun x => (Ground.base b, x.name)) ++
    (s.imported.toList.flatMap Stylesheet.allStyles).map fun x => (Ground.imported, x.name)
  have hsub : trail ⊆ places := by
    rintro ⟨ground, n⟩ hp
    obtain ⟨hsearched, j, -, hnear⟩ := hon _ hp
    obtain ⟨x, hx⟩ := Option.isSome_iff_exists.1 hnear.styleOn?
    cases hsearched with
    | own =>
      have hname : x.name = n := by simpa using List.find?_some hx
      exact List.mem_append_left _ (List.mem_append_left _
        (List.mem_map.2 ⟨x, List.mem_of_find?_eq_some hx, by rw [hname]⟩))
    | @base b hb =>
      obtain ⟨hmem, rfl⟩ := mem_of_find? hx
      refine List.mem_append_left _ (List.mem_append_right _ (List.mem_flatMap.2 ⟨b, ?_, ?_⟩))
      · rw [hb]
        exact List.mem_singleton_self b
      · exact List.mem_map.2 ⟨x, hmem, rfl⟩
    | imported =>
      obtain ⟨i, hi, hx⟩ := Option.bind_eq_some_iff.1 hx
      obtain ⟨t, ht, rfl⟩ := Option.map_eq_some_iff.1 hi
      obtain ⟨hmem, rfl⟩ := mem_of_find? hx
      rw [sheet, sheet?, ht] at hmem
      refine List.mem_append_right _ (List.mem_map.2 ⟨x, ?_, rfl⟩)
      rw [ht]
      exact List.mem_flatMap.2 ⟨t, List.mem_singleton_self t, hmem⟩
  have hle := (List.Nodup.subperm hnodup hsub).length_le
  have hsheets : (id :: (s.superclass? id).toList).Nodup ∧
      id :: (s.superclass? id).toList ⊆ s.ids := by
    cases hb : s.superclass? id with
    | none => simpa using hid
    | some b => simpa using ⟨ne_of_superclass? hb, hid, hbase b hb⟩
  have hcount := length_flatMap_le_styleCount s hsheets.1 hsheets.2
  simp only [places, List.length_append, List.length_map, List.flatMap_cons, List.length_flatMap]
    at hle hcount
  omega

end Nearest

/-! ## Where a stylesheet was marked -/

/-- The suite `u`, in which the styles `earlier` of a stylesheet are marked, is searched like the
suite `r`, in which all are, as far as it has come. -/
structure SearchedAlike (r u : Suite) (id : SheetId) (earlier : List Style) : Prop where
  superclass? : ∀ id, u.superclass? id = r.superclass? id
  styleOn? : ∀ ground n, Searched r id ground → (ground = .own → n ∈ earlier.map Style.name) →
    u.styleOn? earlier ground n = r.styleOn? (r.sheet id).styles ground n
  /-- What a marked style extends is marked. -/
  closed : ∀ z ∈ earlier, ∀ n, r.nextAncestor? id .own z = some (.own, n) →
    n ∈ (r.sheet id).styles.map Style.name → n ∈ earlier.map Style.name

/-- A search that goes on in the own stylesheet came from there. -/
theorem eq_own_of_nextAncestor? {ground : Ground} {x : Style} {n : String}
    (h : s.nextAncestor? id ground x = some (.own, n)) : ground = .own := by
  unfold nextAncestor? at h
  split at h
  · obtain ⟨b, -, hb⟩ := Option.map_eq_some_iff.1 h
    cases hb
  · obtain ⟨m, -, hm⟩ := Option.map_eq_some_iff.1 h
    split at hm
    · cases hm
    · exact congrArg Prod.fst hm

theorem Searched.congr (h : ∀ id, u.superclass? id = r.superclass? id) {ground : Ground}
    (hground : Searched u id ground) : Searched r id ground := by
  cases hground with
  | own => exact .own
  | base hb => exact .base (h id ▸ hb)
  | imported => exact .imported

theorem nextAncestor?_congr (h : ∀ id, u.superclass? id = r.superclass? id) (ground : Ground)
    (x : Style) : u.nextAncestor? id ground x = r.nextAncestor? id ground x := by
  rw [nextAncestor?, nextAncestor?, h]

/-- The nearest style is the same where the stylesheet was marked. -/
theorem Nearest.of_alike {next : Ground × String}
    (h : Nearest r id (r.sheet id).styles names k next found)
    (halike : SearchedAlike r u id earlier) (hsearched : Searched r id next.1)
    (hnext : next.1 = .own → next.2 ∈ earlier.map Style.name) :
    Nearest u id earlier names k next found := by
  induction h with
  | here hx hat => exact .here ((halike.styleOn? _ _ hsearched hnext).trans hx) hat
  | @beyond k next after x found hx hnone hafter hrest ih =>
    have hx' := (halike.styleOn? _ _ hsearched hnext).trans hx
    refine .beyond hx' hnone ((nextAncestor?_congr halike.superclass? _ _).trans hafter)
      (ih (hsearched.next hafter) fun hown => ?_)
    obtain ⟨ground, n⟩ := after
    cases hown
    rw [eq_own_of_nextAncestor? hafter] at hx' hafter
    refine halike.closed x (List.mem_of_find?_eq_some hx') n hafter ?_
    obtain ⟨w, hw⟩ := Option.isSome_iff_exists.1 hrest.styleOn?
    have hname : w.name = n := by simpa using List.find?_some hw
    exact List.mem_map.2 ⟨w, List.mem_of_find?_eq_some hw, hname⟩

/-- How a marked style came about: the styles before it were marked, among them the one that it
extends. -/
theorem Marked.exists_before (h : Marked s settings id done) {y : Style} (hy : y ∈ done) :
    ∃ earlier x, Marked s settings id earlier ∧ earlier <:+ done ∧
      (∃ z ∈ (s.sheet id).allStyles, x.outline StyleHead.closed = z.outline StyleHead.closed) ∧
      (∀ n, x.localSuperclass? = some n → n ∈ (s.sheet id).styles.map Style.name →
        n ∈ earlier.map Style.name) ∧
      s.inheritingStyle settings id earlier x = .ok y := by
  induction h with
  | nil => cases hy
  | @cons done x y' hmarked hz hclosed hx ih =>
    rcases List.mem_cons.1 hy with rfl | hy
    · exact ⟨done, x, hmarked, List.suffix_cons _ _, hz, hclosed, hx⟩
    · obtain ⟨earlier, x, hearlier, hsuffix, hstep⟩ := ih hy
      exact ⟨earlier, x, hearlier, hsuffix.trans (List.suffix_cons _ _), hstep⟩

namespace Site

variable (h : Site settings l r id u done)

include h

/-- The same for the animator, which is marked behind all styles. -/
theorem exists_before {y : Style} (hy : y ∈ (r.sheet id).allStyles) :
    ∃ earlier x, Marked u settings id earlier ∧ earlier <:+ done ∧
      (∃ z ∈ (u.sheet id).allStyles, x.outline StyleHead.closed = z.outline StyleHead.closed) ∧
      (∀ n, x.localSuperclass? = some n → n ∈ (u.sheet id).styles.map Style.name →
        n ∈ earlier.map Style.name) ∧
      u.inheritingStyle settings id earlier x = .ok y := by
  rw [Stylesheet.allStyles, List.mem_append, Option.mem_toList] at hy
  rcases hy with hy | hy
  · exact h.marked.exists_before (h.perm.mem_iff.2 hy)
  · have hrel := h.animator
    rw [Option.mem_def.1 hy] at hrel
    generalize ho : (u.sheet id).animator = o at hrel
    cases hrel with
    | @some a _ ha =>
      refine ⟨done, _, h.marked, List.suffix_rfl, ⟨a, ?_, outline_openedIf _ a⟩,
        fun n _ hn => h.names_perm.mem_iff.2 hn, ha⟩
      rw [Stylesheet.allStyles, ho]
      exact List.mem_append_right _ (Option.mem_toList.2 rfl)

/-- The suite in which a stylesheet was marked is searched like the prepared one. -/
theorem searchedAlike (hbase : r.base? = l.base?) (himported : r.imported = l.imported)
    (hmarked : Marked u settings id earlier) (hsuffix : earlier <:+ done) :
    SearchedAlike r u id earlier := by
  have hbase' : u.base? = r.base? := h.base?_eq.trans hbase.symm
  have hlinked : u.isLinked = r.isLinked := by rw [isLinked, isLinked, hbase']
  have hsup := superclass?_congr hbase'
  have hnodup : ((r.sheet id).styles.map Style.name).Nodup := h.names_eq ▸ h.nodup
  have hsub : earlier ⊆ (r.sheet id).styles := fun _ hx => h.perm.subset (hsuffix.subset hx)
  refine ⟨hsup, fun ground n hsearched hown => ?_, fun z hz n hn hmem => ?_⟩
  · cases hsearched with
    | own =>
      obtain ⟨x, hx, rfl⟩ := List.mem_map.1 (hown rfl)
      rw [Suite.styleOn?, Suite.styleOn?, find?_eq_some_of_nodup hnodup (hsub hx)]
      exact find?_eq_some_of_nodup (h.later hsuffix).nodup hx
    | @base b hb =>
      refine find?_congr hlinked (h.base_eq b ?_) n
      rw [← hb, superclass?_congr hbase]
    | imported =>
      have hi : u.imported = r.imported := h.imported_eq.trans himported.symm
      simp only [Suite.styleOn?, importedId?, hi]
      refine Option.bind_congr fun i hi' => find?_congr hlinked ?_ n
      obtain ⟨t, ht, rfl⟩ := Option.map_eq_some_iff.1 hi'
      simp only [sheet, sheet?, hi]
  · -- the style was marked behind what it extends
    obtain ⟨before, x, -, hbefore, -, hclosed, hx⟩ := hmarked.exists_before hz
    refine List.map_subset _ hbefore.subset (hclosed n ?_ (h.names_eq ▸ hmem))
    rw [← (localSuperclass?_congr (outline_inheritingStyle hx)).1]
    unfold nextAncestor? at hn
    split at hn
    · obtain ⟨b, -, hb⟩ := Option.map_eq_some_iff.1 hn
      cases hb
    · obtain ⟨m, hm, hmn⟩ := Option.map_eq_some_iff.1 hn
      split at hmn
      · cases hmn
      · next hext =>
        cases hmn
        rw [Style.localSuperclass?, if_neg hext, hm]

end Site

/-! ## Heirs of imported styles -/

/-- Where the ancestors of a style of a stylesheet begin: at its counterpart in the base, or else at
the style that it extends. -/
def firstAncestor? (s : Suite) (id : SheetId) (x : Style) : Option (Ground × String) :=
  match s.baseWith? id x.name with
  | some b => some (.base b, x.name)
  | none => (s.declaredAncestor? id (s.sheet id).styles x).toOption.join

/-- The nearest style that a style of a stylesheet inherits from at a path of nested names stands in
the imported stylesheet, inside the style `z` of that. -/
def InheritsImported (s : Suite) (id : SheetId) (x : Style) (names : List String) (z : Style) :
    Prop :=
  ∃ first k, s.firstAncestor? id x = some first ∧
    s.Nearest id (s.sheet id).styles names k first (.imported, z)

/-- The base has a style of the name in both suites or in neither. -/
theorem baseWith?_congr (hbase : u.base? = r.base?)
    (hsheet : ∀ b, r.superclass? id = some b → u.sheet b = r.sheet b) (n : String) :
    u.baseWith? id n = r.baseWith? id n := by
  rw [baseWith?, baseWith?, superclass?_congr hbase]
  cases hb : r.superclass? id with
  | none => rfl
  | some b =>
    have hlinked : u.isLinked = r.isLinked := by rw [isLinked, isLinked, hbase]
    simp only [Option.filter_some, find?_congr hlinked (hsheet b hb)]

/-- A style is marked with the ancestor that is the first one in the whole suite. -/
theorem declaredAncestor?_of_subset (hbaseWith : ∀ n, u.baseWith? id n = r.baseWith? id n)
    (hsub : earlier ⊆ (r.sheet id).styles)
    {x y : Style} (hxy : y.outline StyleHead.declared = x.outline StyleHead.declared)
    (hclosed : ∀ n, x.localSuperclass? = some n → n ∈ (r.sheet id).styles.map Style.name →
      n ∈ earlier.map Style.name) {first : Ground × String}
    (h : u.declaredAncestor? id earlier x = .ok (some first)) :
    r.declaredAncestor? id (r.sheet id).styles y = .ok (some first) := by
  obtain ⟨hlocal, hsup, hext⟩ := localSuperclass?_congr hxy
  rcases declaredAncestor?_cases h with ⟨n, rfl, himported⟩ | ⟨n, hn, hfirst⟩
  · unfold declaredAncestor? at h ⊢
    rw [hsup, hext]
    split at h
    · cases h
    · next m hm => rwa [if_pos himported] at h ⊢
  · have hy : y.head.superclass = some n ∧ y.head.extendsImported = false := by
      rw [← hlocal, Style.localSuperclass?] at hn
      split at hn
      · cases hn
      · next hnot => exact ⟨hn, by simpa using hnot⟩
    have hany : (r.sheet id).styles.any (·.name == n) = true ↔
        n ∈ (r.sheet id).styles.map Style.name := by
      simp [List.any_eq_true]
    rw [declaredAncestor?, hy.1]
    simp only [hy.2, Bool.false_eq_true, if_false]
    rcases hfirst with ⟨rfl, hmem⟩ | ⟨b, rfl, hb, hnot⟩
    · rw [if_pos (hany.2 (List.map_subset _ hsub hmem))]
    · rw [if_neg fun hown => hnot (hclosed n hn (hany.1 hown)), ← hbaseWith, hb]

/-- A style with a first ancestor became an heir of the ancestors from that one on. It is on a
ground that is searched, and a style of the same stylesheet was marked before. -/
theorem heir_of_firstAncestor? (himported : u.imported.isSome = true)
    (hbaseWith : ∀ n, u.baseWith? id n = r.baseWith? id n)
    (hsub : earlier ⊆ (r.sheet id).styles) {x y : Style}
    (hclosed : ∀ n, x.localSuperclass? = some n → n ∈ (r.sheet id).styles.map Style.name →
      n ∈ earlier.map Style.name)
    (hy : u.inheritingStyle settings id earlier x = .ok y) {first : Ground × String}
    (hfirst : r.firstAncestor? id y = some first) :
    Style.Heir x (u.ancestorsFrom settings id earlier (u.styleCount + 1) [] first) y ∧
      Searched u id first.1 ∧ (first.1 = .own → first.2 ∈ earlier.map Style.name) := by
  have houtline := outline_inheritingStyle hy
  rw [firstAncestor?, ← hbaseWith, name_inheritingStyle hy] at hfirst
  rcases inheritingStyle_heir hy with ⟨b, as, hb, rfl, -, hheir, -⟩ |
    ⟨hb, -, ⟨hnone, -⟩ | ⟨first', as, hfirst', rfl, -, hheir⟩⟩ | ⟨-, hunseen, -⟩
  · rw [hb] at hfirst
    cases hfirst
    exact ⟨hheir, .base (Option.filter_eq_some_iff.1 hb).1, nofun⟩
  · have hynone : y.head.superclass = none := by
      rw [(localSuperclass?_congr houtline).2.1, hnone]
    rw [hb, declaredAncestor?, hynone] at hfirst
    cases hfirst
  · rw [hb, declaredAncestor?_of_subset hbaseWith hsub houtline hclosed hfirst'] at hfirst
    cases hfirst
    refine ⟨hheir, searched_of_declaredAncestor? hfirst', fun hown => ?_⟩
    rcases declaredAncestor?_cases hfirst' with ⟨n, rfl, -⟩ | ⟨n, -, ⟨rfl, hmem⟩ | ⟨b, rfl, -⟩⟩
    · cases hown
    · exact hmem
    · cases hown
  · rw [Option.isNone_eq_false_iff.2 himported] at hunseen
    cases hunseen

/-- On the way up from a style of a linked suite fewer styles are passed than there are. -/
theorem Site.lt_styleCount (h : Site settings l r id u done) (hl : s.linked = .ok l)
    (hid : id ∈ l.ids) (hsuffix : earlier <:+ done) {first : Ground × String}
    (hnear : u.Nearest id earlier names k first found) (hsearched : Searched u id first.1) :
    k < u.styleCount := by
  refine hnear.lt_styleCount hsearched (h.ids_eq ▸ hid) (fun b hb => ?_) ?_
  · rw [superclass?_congr h.base?_eq] at hb
    exact h.ids_eq ▸ mem_ids_of_superclass? hl hb
  · have hlen := hsuffix.length_le.trans_eq h.perm.length_eq
    have hcount := congrArg List.length h.names_eq
    rw [List.length_map, List.length_map] at hcount
    rw [hcount] at hlen
    rw [Stylesheet.allStyles, List.length_append]
    omega

/-- A class whose nearest inherited style stands in the imported stylesheet derives from the class
that this one has there as it was declared. -/
theorem Prepares.inherits_declared (h : Prepares settings s l)
    (hd : ∀ t ∈ s.registered, (t.styles.map Style.name).Nodup) {t : Stylesheet}
    (himported : s.imported = some t) (hid : id ∈ l.ids) {y : Style}
    (hy : y ∈ ((l.prepared settings).1.sheet id).allStyles) {z c : Style}
    (hz : (l.prepared settings).1.InheritsImported id y names z) (hc : y.at? names = some c) :
    ∃ a, (t.classOf z).at? names = some a ∧
      c.head.inherits = some (settings.frameworkPrefix ++ a.path) ∧
      (names ≠ [] → c.head.accessorType =
        some (a.style.head.accessorType.getD (settings.frameworkPrefix ++ a.path))) := by
  obtain ⟨first, k, hfirst, hnear⟩ := hz
  obtain ⟨u, done, hsite⟩ := h.exists_site hd hid
  obtain ⟨earlier, x, hmarked, hsuffix, hx, hclosed, hinheriting⟩ := hsite.exists_before hy
  have halike := hsite.searchedAlike h.kept.base?_eq h.kept.imported_eq hmarked hsuffix
  have hsub : earlier ⊆ ((l.prepared settings).1.sheet id).styles :=
    fun _ hx => hsite.perm.subset (hsuffix.subset hx)
  have hbaseWith : ∀ n, u.baseWith? id n = (l.prepared settings).1.baseWith? id n :=
    baseWith?_congr (hsite.base?_eq.trans h.kept.base?_eq.symm) fun b hb =>
      hsite.base_eq b (by rw [← hb, superclass?_congr h.kept.base?_eq])
  have hu : u.imported = some t := by rw [hsite.imported_eq, h.imported_eq, himported]
  -- the search begins where the style begins its way up, and does not stop before the style
  obtain ⟨hheir, hsearched, hown⟩ := heir_of_firstAncestor? (by rw [hu]; rfl) hbaseWith hsub
    (hsite.names_eq ▸ hclosed) hinheriting hfirst
  have hnear' := hnear.of_alike halike (hsearched.congr halike.superclass?) hown
  have hsteps : k < u.styleCount + 1 :=
    Nat.lt_succ_of_lt (hsite.lt_styleCount h.linked hid hsuffix hnear' hsearched)
  have hhead := hnear'.head?_ancestorsFrom settings [] hsteps (by simp)
  have hpath : u.classPath settings id .imported z =
      settings.frameworkPrefix ++ (t.classOf z).path := by
    simp only [classPath, sheet, sheet?, hu, Option.getD_some, Stylesheet.classOf,
      String.append_assoc]
  have hat := Ancestor.at?_append settings.frameworkPrefix names (t.classOf z)
  rw [hpath] at hhead
  obtain ⟨a, ha⟩ := Option.isSome_iff_exists.1
    ((Ancestor.isSome_at? names (t.classOf z)).trans hnear.exists_name.2)
  rw [ha] at hat
  exact ⟨a, ha, hheir.inherits_at? hc (hhead.trans hat)⟩

end Suite

/-! ## Names of classes -/

namespace StyleHead

variable {stem : String} {h k : StyleHead}

/-- A capital letter is not shorter than the small one. -/
theorem length_le_firstUpper (s : String) : s.length ≤ (Text.firstUpper s).length := by
  rw [← String.length_toList, ← String.length_toList, Text.firstUpper]
  split
  · next hs => simp [hs]
  · next c cs hs =>
    have := List.length_pos_iff.2 (Text.upperChars_ne_nil c)
    rw [hs, String.toList_ofList, List.length_append, List.length_cons]
    omega

theorem fields_eq_of_declared (hdeclared : k.declared = h.declared) :
    k.name = h.name ∧ k.isAnimation = h.isAnimation ∧ k.nestedIn = h.nestedIn := by
  unfold declared closed at hdeclared
  injection hdeclared with hname _ _ _ hanimation _ _ _ _ _ _ _ _ hnested
  exact ⟨hname, hanimation, hnested⟩

/-- The stem of the name of an overriding nested style is longer than the name of the style. -/
theorem length_lt_append_firstUpper (hstem : stem ≠ "") (name : String) :
    name.length < (stem ++ Text.firstUpper name).length := by
  have hle := length_le_firstUpper name
  have hpos := Nat.pos_of_ne_zero (mt String.length_eq_zero_iff.1 hstem)
  rw [String.length_append]
  omega

theorem Stemmed.classStem_ne_empty (hk : k.Stemmed stem) (hstem : stem ≠ "")
    (hname : k.name ≠ "") : k.classStem ≠ "" := by
  rw [hk.classStem_eq]
  split
  · exact hstem
  · exact hname

/-- A class that overrides none is called as it was declared. -/
theorem Stemmed.className_of_kept (hk : k.Stemmed stem) (hh : h.Blank)
    (hdeclared : k.declared = h.declared) (hover : k.isOverride = false) :
    k.className = h.className := by
  obtain ⟨hname, hanimation, hnested⟩ := fields_eq_of_declared hdeclared
  rw [className, className, classStem, classStem, (hk.kept hover).1, hh.2.1, hname, hanimation,
    hnested]

/-- A class that overrides another one has a longer name than it was declared with, if the stem is
longer. -/
theorem Stemmed.length_className (hk : k.Stemmed stem) (hh : h.Blank)
    (hdeclared : k.declared = h.declared) (hlt : h.name.length < stem.length) :
    h.className.length ≤ k.className.length ∧
      (k.isOverride = true → h.className.length < k.className.length) := by
  cases hover : k.isOverride with
  | false =>
    rw [hk.className_of_kept hh hdeclared hover]
    exact ⟨le_rfl, nofun⟩
  | true =>
    have hlonger : h.className.length < k.className.length := by
      obtain ⟨-, hanimation, hnested⟩ := fields_eq_of_declared hdeclared
      rw [className, className, hk.classStem_eq, if_pos hover, classStem, hh.2.1, hanimation,
        hnested, String.length_append, String.length_append]
      exact Nat.add_lt_add_right hlt _
    exact ⟨hlonger.le, fun _ => hlonger⟩

end StyleHead

namespace Style

/-- No nested style on a path of names overrides another one. -/
def KeptAlong : List String → Style → Prop
  | [], _ => True
  | n :: names, x => ∀ m ∈ x.nested? n, m.head.isOverride = false ∧ m.KeptAlong names

theorem keptAlong_cons {x m : Style} {n : String} {names : List String}
    (hm : x.nested? n = some m) :
    x.KeptAlong (n :: names) ↔ m.head.isOverride = false ∧ m.KeptAlong names := by
  simp [KeptAlong, hm]

/-- On such a path no accessor takes its type from another one. -/
theorem accessorType_of_keptAlong {x c : Style} {names : List String}
    (hx : x.head.accessorType = none) (hs : x.All NestedStemmed) (hk : x.KeptAlong names)
    (hc : x.at? names = some c) : c.head.accessorType = none := by
  induction names generalizing x with
  | nil =>
    cases hc
    exact hx
  | cons n names ih =>
    obtain ⟨m, hm, hmc⟩ := Option.bind_eq_some_iff.1 hc
    obtain ⟨hmem, -⟩ := nested?_mem hm
    obtain ⟨hover, hk⟩ := hk m hm
    exact ih ((hs.self m hmem).kept hover).2 (hs.nested hmem) hk hmc

/-- Two styles with one outline have the same nested styles, up to what the outline forgets. -/
theorem exists_nested?_of_outline {x y : Style}
    (h : y.outline StyleHead.declared = x.outline StyleHead.declared) {n : String} {m : Style}
    (hm : x.nested? n = some m) :
    ∃ m', y.nested? n = some m' ∧
      m'.outline StyleHead.declared = m.outline StyleHead.declared := by
  have hnested := congrArg (Style.nested? · n) h
  simp only [nested?_outline, hm, Option.map_some] at hnested
  exact Option.map_eq_some_iff.1 hnested

/-- What marking makes of a nested style. It keeps the name of its class, or gives it a longer one
if it marks the style as one that overrides another. -/
theorem exists_nested?_marked {x y m : Style} {n : String}
    (hout : y.outline StyleHead.declared = x.outline StyleHead.declared) (hx : x.Blank)
    (hy : y.All NestedStemmed) (hstem : y.classStem ≠ "") (hm : x.nested? n = some m)
    (hname : m.name ≠ "") :
    ∃ m', y.nested? n = some m' ∧ m'.outline StyleHead.declared = m.outline StyleHead.declared ∧
      m'.All NestedStemmed ∧ m'.classStem ≠ "" ∧
      (m'.head.isOverride = false → m'.className = m.className) ∧
      m.className.length ≤ m'.className.length ∧
      (m'.head.isOverride = true → m.className.length < m'.className.length) := by
  obtain ⟨m', hm', hmout⟩ := exists_nested?_of_outline hout hm
  obtain ⟨hmem', -⟩ := nested?_mem hm'
  have hblank := (blank_iff.1 ((blank_iff.1 hx).2 m (nested?_mem hm).1)).1
  have hstemmed := hy.self m' hmem'
  have hdeclared := declared_head_eq hmout
  have hsame : m'.name = m.name := name_eq_of_outline hmout
  have hlt : m.name.length < (y.classStem ++ Text.firstUpper m'.name).length := by
    rw [← hsame]
    exact StyleHead.length_lt_append_firstUpper hstem m'.name
  have hne : y.classStem ++ Text.firstUpper m'.name ≠ "" := fun heq => by
    rw [heq] at hlt
    exact Nat.not_lt_zero _ hlt
  refine ⟨m', hm', hmout, hy.nested hmem', ?_, fun hover => ?_,
    hstemmed.length_className hblank hdeclared hlt⟩
  · exact hstemmed.classStem_ne_empty hne fun heq => hname (hsame.symm.trans heq)
  · exact hstemmed.className_of_kept hblank hdeclared hover

end Style

namespace Ancestor

open Appearance.Style (KeptAlong NestedStemmed)

variable {a d b : Ancestor} {names : List String}

/-- What marking makes of a class at a path of names. It keeps the path of the class if it marks no
style on the way as one that overrides another, and makes it longer otherwise. -/
theorem exists_at?_of_outline
    (hout : d.style.outline StyleHead.declared = a.style.outline StyleHead.declared)
    (ha : a.style.Blank) (hd : d.style.All NestedStemmed) (hstem : d.style.classStem ≠ "")
    (hnames : a.style.All fun u => u.name ≠ "") (hb : a.at? names = some b) :
    ∃ e, d.at? names = some e ∧
      (d.style.KeptAlong names → d.path = a.path → e.path = b.path) ∧
      (a.path.length ≤ d.path.length → b.path.length ≤ e.path.length ∧
        (¬d.style.KeptAlong names ∨ a.path.length < d.path.length →
          b.path.length < e.path.length)) := by
  induction names generalizing a d with
  | nil =>
    cases hb
    exact ⟨d, rfl, fun _ hpath => hpath, fun hle => ⟨hle, fun hor =>
      hor.resolve_left fun hnot => hnot trivial⟩⟩
  | cons n names ih =>
    obtain ⟨o, ho, hob⟩ := Option.bind_eq_some_iff.1 hb
    obtain ⟨m, hm, rfl⟩ := nested?_eq_some.1 ho
    obtain ⟨hmem, -⟩ := Style.nested?_mem hm
    obtain ⟨m', hm', hmout, hmarked, hstem', hsame, hle, hlonger⟩ :=
      Style.exists_nested?_marked hout ha hd hstem hm (hnames.nested hmem).self
    obtain ⟨e, he, hkept, hlen⟩ := ih (d := ⟨d.path ++ "." ++ m'.className, m'⟩) hmout
      ((Style.blank_iff.1 ha).2 m hmem) hmarked hstem' (hnames.nested hmem) hob
    have hkeptAlong : d.style.KeptAlong (n :: names) ↔ _ := Style.keptAlong_cons hm'
    refine ⟨e, ?_, fun hk hpath => ?_, fun hpath => ?_⟩
    · rw [at?, nested?, hm']
      exact he
    · obtain ⟨hover, hk⟩ := hkeptAlong.1 hk
      exact hkept hk (by rw [hpath, hsame hover])
    · simp only [String.length_append] at hlen
      obtain ⟨hbe, hor⟩ := hlen (by omega)
      refine ⟨hbe, fun h => hor ?_⟩
      by_cases hk : m'.KeptAlong names
      · refine .inr ?_
        rcases h with h | h
        · rw [hkeptAlong, and_iff_left hk, Bool.not_eq_false] at h
          have := hlonger h
          omega
        · omega
      · exact .inl hk

end Ancestor

/-! ## The imported stylesheet by itself -/

/-- Sorting changes no path of classes. -/
theorem Ancestor.at?_sorted {a : Ancestor} (ha : a.style.NestedDistinct) (names : List String) :
    at? names ⟨a.path, a.style.sorted⟩ = (a.at? names).map fun b => ⟨b.path, b.style.sorted⟩ := by
  induction names generalizing a with
  | nil => rfl
  | cons n names ih =>
    rw [at?, at?, nested?, nested?, Style.nested?_sorted ha.self]
    cases hm : a.style.nested? n with
    | none => rfl
    | some m =>
      have hrest := ih (a := ⟨a.path ++ "." ++ m.className, m⟩)
        (ha.nested (Style.nested?_mem hm).1)
      simp only [Option.map_some, Option.bind_some]
      rw [← hrest, Style.className, Style.className, Style.head_sorted]

namespace Stylesheet

variable {t u : Stylesheet}

theorem find?_sorted (ht : (t.allStyles.map Style.name).Nodup) (n : String) :
    t.sorted.allStyles.find? (·.name == n) =
      (t.allStyles.find? (·.name == n)).map Style.sorted := by
  rw [find?_perm_of_nodup (t.names_sorted_perm.nodup_iff.2 ht) t.allStyles_sorted_perm,
    List.find?_map]
  simp only [Function.comp_def, Style.name_sorted]

/-- Stylesheets that declare the same find styles that declare the same. -/
theorem find?_congr_outline
    (h : t.allStyles.map (Style.outline StyleHead.declared) =
      u.allStyles.map (Style.outline StyleHead.declared)) (n : String) :
    (t.allStyles.find? (·.name == n)).map (Style.outline StyleHead.declared) =
      (u.allStyles.find? (·.name == n)).map (Style.outline StyleHead.declared) := by
  have hfind : ∀ l : List Style, (l.map (Style.outline StyleHead.declared)).find? (·.name == n) =
      (l.find? (·.name == n)).map (Style.outline StyleHead.declared) := fun l => by
    rw [List.find?_map]
    simp only [Function.comp_def, Style.name_outline_declared]
  rw [← hfind, ← hfind, h]

end Stylesheet

namespace Suite

variable {l u : Suite} {settings : Settings} {id : SheetId} {done : List Style}
  {t : Stylesheet}

/-- Where there is no base, no style overrides another one. -/
theorem isOverride_inheritingStyle (hsup : u.superclass? id = none) {x y : Style}
    (h : u.inheritingStyle settings id done x = .ok y) :
    y.head.isOverride = x.head.isOverride := by
  rcases inheritingStyle_ok h with ⟨b, a, rest, hb, -, -⟩ | ⟨-, -, rfl⟩ |
    ⟨-, first, a, rest, -, -, rfl⟩ | ⟨-, -, path, rfl⟩
  · rw [baseWith?, hsup] at hb
    cases hb
  · exact Style.isOverride_inheriting x []
  · rw [Style.isOverride_inheriting]
    rfl
  · rw [Style.isOverride_inheriting]
    rfl

/-- A stylesheet that is prepared by itself has the outlines that it was declared with, and its
top-level styles override none. -/
theorem Prepares.find?_alone (h : Prepares settings ⟨[t], none, none⟩ l)
    (ht : (t.allStyles.map Style.name).Nodup) (hb : ∀ x ∈ t.allStyles, x.Blank) {n : String}
    {z : Style} (hz : t.allStyles.find? (·.name == n) = some z) :
    ((l.prepared settings).1.sheet (.registered 0)).name = t.name ∧
    ((l.prepared settings).1.sheet (.registered 0)).Stemmed ∧
    ∃ y, ((l.prepared settings).1.sheet (.registered 0)).allStyles.find? (·.name == n) = some y ∧
      y.outline StyleHead.declared = z.sorted.outline StyleHead.declared ∧
      y.head.isOverride = false := by
  have hd : ∀ t' ∈ (⟨[t], none, none⟩ : Suite).registered, (t'.styles.map Style.name).Nodup :=
    fun t' ht' => by
      rw [List.mem_singleton.1 ht']
      rw [Stylesheet.allStyles, List.map_append] at ht
      exact (List.nodup_append.1 ht).1
  have hblank : (⟨[t], none, none⟩ : Suite).Blank :=
    fun t' ht' => by
      rw [List.mem_singleton.1 ht']
      exact hb
  obtain ⟨b, hlt, hl, -⟩ := linked_ok h.linked
  obtain rfl : b = 0 := by simpa using hlt
  have hid : SheetId.registered 0 ∈ l.ids := by
    rw [hl]
    exact mem_ids.2 ⟨0, hlt, rfl⟩
  have hsup : l.superclass? (.registered 0) = none := by
    rw [hl]
    rfl
  have hsheet : l.sheet (.registered 0) = t := by
    rw [hl]
    rfl
  obtain ⟨v, u, done, hcompleted, hu⟩ := h.exists_outcome hd hid
  have hout := Stylesheet.find?_congr_outline hu.outlines n
  rw [hcompleted, shadowedIn, hsup, hsheet, Stylesheet.find?_sorted ht, hz, Option.map_some,
    Option.map_some] at hout
  obtain ⟨y, hy, hyz⟩ := Option.map_eq_some_iff.1 hout
  refine ⟨by rw [h.name_eq hid, hsheet], h.stemmed hd hblank hid, y, hy, hyz, ?_⟩
  obtain ⟨u', done', hsite⟩ := h.exists_site hd hid
  obtain ⟨earlier, x, -, hx, hstep⟩ := hsite.exists_step (List.mem_of_find?_eq_some hy)
  rw [isOverride_inheritingStyle ((superclass?_congr hsite.base?_eq _).trans hsup) hstep]
  exact (Style.fresh_iff.1 (hsite.fresh (h.fresh_shadowedIn hblank.fresh hid) hx)).1.1

/-- The class at a path of names in a stylesheet that is prepared by itself, for one that is
declared there. It has the declared path if no nested style on the way overrides another one, and a
different one otherwise. -/
theorem Prepares.exists_class_alone {alone : Suite} {settings : Settings} {names : List String}
    (h : Prepares settings ⟨[t], none, none⟩ alone) (ht : t.Distinct)
    (hblank : ∀ x ∈ t.allStyles, x.Blank) (hne : ∀ x ∈ t.allStyles, x.All fun u => u.name ≠ "")
    {z : Style} (hz : z ∈ t.allStyles) {a : Ancestor} (ha : (t.classOf z).at? names = some a) :
    ∃ top d, ((alone.prepared settings).1.sheet (.registered 0)).class? z.name [] = some top ∧
      ((alone.prepared settings).1.sheet (.registered 0)).class? z.name names = some d ∧
      (top.style.KeptAlong names → d.path = a.path ∧ d.style.head.accessorType = none) ∧
      (¬top.style.KeptAlong names → d.path ≠ a.path) := by
  have hblankz := hblank z hz
  obtain ⟨hname, hstemmed, x, hx, hout, hover⟩ :=
    h.find?_alone ht.names hblank (find?_eq_some_of_nodup ht.names hz)
  have hmem := List.mem_of_find?_eq_some hx
  have hxname : x.name = z.name := by simpa using List.find?_some hx
  -- the class as it was declared, its properties sorted
  have hsorted := Ancestor.at?_sorted (a := t.classOf z) (ht.styles z hz).nestedDistinct names
  rw [ha, Option.map_some] at hsorted
  have hdeclared : x.head.declared = z.head.declared := by
    rw [Style.declared_head_eq hout, Style.head_sorted]
  have hpath : (((alone.prepared settings).1.sheet (.registered 0)).classOf x).path =
      (t.classOf z).path := by
    rw [Stylesheet.classOf, Stylesheet.classOf, hname, Style.className, Style.className,
      (hstemmed.styles x hmem).className_of_kept (Style.blank_iff.1 hblankz).1 hdeclared hover]
  have hstem : x.classStem ≠ "" := by
    rw [Style.classStem, StyleHead.classStem, ((hstemmed.styles x hmem).kept hover).1]
    exact fun heq => (hne z hz).self (hxname.symm.trans heq)
  have hnesorted : z.sorted.All fun u => u.name ≠ "" :=
    Style.heads_sorted (p := fun h => h.name ≠ "") (hne z hz)
  obtain ⟨d, hd, hkept, hlen⟩ := Ancestor.exists_at?_of_outline
    (a := ⟨(t.classOf z).path, z.sorted⟩)
    (d := ((alone.prepared settings).1.sheet (.registered 0)).classOf x) hout
    (Style.heads_sorted hblankz) (hstemmed.nested x hmem) hstem hnesorted hsorted
  have hclass : ∀ names, ((alone.prepared settings).1.sheet (.registered 0)).class? z.name names =
      (((alone.prepared settings).1.sheet (.registered 0)).classOf x).at? names := fun names => by
    rw [Stylesheet.class?, hx]
    rfl
  refine ⟨_, d, hclass [], (hclass names).trans hd, fun hk => ⟨hkept hk hpath, ?_⟩,
    fun hnot heq => ?_⟩
  · have hxd := (Ancestor.style_at? names _).symm.trans (congrArg (Option.map Ancestor.style) hd)
    exact Style.accessorType_of_keptAlong ((hstemmed.styles x hmem).kept hover).2
      (hstemmed.nested x hmem) hk hxd
  · have hlt := (hlen (congrArg String.length hpath).ge).2 (.inl hnot)
    rw [heq] at hlt
    exact lt_irrefl _ hlt

/-- What is inherited from an imported stylesheet against what that one is, prepared by itself. A
class derives from the path that was declared, and so its accessor has the type of that path. The
class that is generated for the path by itself is there if and only if no nested style on the way to
it overrides another one; its accessor then has that type as well. -/
theorem Prepares.inherits_imported {s l alone : Suite} {settings settings' : Settings}
    {names : List String} (h : Prepares settings s l)
    (hd : ∀ t ∈ s.registered, (t.styles.map Style.name).Nodup) (himported : s.imported = some t)
    (halone : Prepares settings' ⟨[t], none, none⟩ alone) (ht : t.Distinct)
    (hblank : ∀ x ∈ t.allStyles, x.Blank) (hne : ∀ x ∈ t.allStyles, x.All fun u => u.name ≠ "")
    (hid : id ∈ l.ids) {y : Style} (hy : y ∈ ((l.prepared settings).1.sheet id).allStyles)
    {z c : Style} (hz : (l.prepared settings).1.InheritsImported id y names z)
    (hc : y.at? names = some c) :
    ∃ a top d, t.class? z.name names = some a ∧
      ((alone.prepared settings').1.sheet (.registered 0)).class? z.name [] = some top ∧
      ((alone.prepared settings').1.sheet (.registered 0)).class? z.name names = some d ∧
      c.head.inherits = some (settings.frameworkPrefix ++ a.path) ∧
      (names ≠ [] → c.head.accessorType = some (settings.frameworkPrefix ++ a.path)) ∧
      (c.head.inherits = some (settings.frameworkPrefix ++ d.path) ↔ top.style.KeptAlong names) ∧
      (names ≠ [] → top.style.KeptAlong names →
        c.head.accessorType = some (settings.frameworkPrefix ++ d.accessorType)) := by
  obtain ⟨a, ha, hinherits, htype⟩ := h.inherits_declared hd himported hid hy hz hc
  obtain ⟨first, k, -, hnear⟩ := hz
  obtain ⟨⟨n, hn⟩, -⟩ := hnear.exists_name
  have hzt : z ∈ t.allStyles := by
    have hi : (l.prepared settings).1.imported = some t := by
      rw [h.kept.imported_eq, h.imported_eq, himported]
    simp only [styleOn?, importedId?, hi, Option.map_some, Option.bind_some] at hn
    have := (mem_of_find? hn).1
    rwa [sheet, sheet?, hi] at this
  have hraw : a.style.head.accessorType = none := (Style.blank_iff.1
    (Style.All.of_mem_classesAt (hblank z hzt) (Ancestor.at?_mem_classes ha))).1.2.2
  rw [hraw, Option.getD_none] at htype
  obtain ⟨top, d, htop, hd', hkept, hchanged⟩ := halone.exists_class_alone ht hblank hne hzt ha
  refine ⟨a, top, d, ?_, htop, hd', hinherits, htype, ⟨fun heq => ?_, fun hk => ?_⟩,
    fun hnil hk => ?_⟩
  · rw [Stylesheet.class?, find?_eq_some_of_nodup ht.names hzt]
    exact ha
  · by_contra hnot
    rw [hinherits, Option.some.injEq, String.append_right_inj] at heq
    exact hchanged hnot heq.symm
  · rw [hinherits, (hkept hk).1]
  · rw [htype hnil, Ancestor.accessorType, (hkept hk).1, (hkept hk).2, Option.getD_none]

/-! ## Instances -/

/-- A stylesheet with styles that nest one under a name; the second one extends the first one and
overrides what that nests, the third one extends the second one. -/
def library : Stylesheet :=
  ⟨"I", [.named "P" [.ofStyle (.named "n" [.ofValue "x" (.int 1)])],
    .mk { StyleHead.named "Q" with superclass := some "P" }
      [.ofStyle (.named "m" []), .ofStyle (.named "n" [.ofValue "x" (.int 2)])],
    .mk { StyleHead.named "R" with superclass := some "P" } []], none, none, false, []⟩

/-- A base with a style that extends one of the imported stylesheet and nests another one. -/
def importing (superclass : String) : Suite :=
  ⟨[⟨"Base",
      [.mk { StyleHead.named "Y" with superclass := some superclass, extendsImported := true }
        [.ofStyle (.named "n" [.ofValue "x" (.int 3)])]],
      none, none, false, []⟩],
    some library, none⟩

theorem prepares_library :
    Prepares .standard ⟨[library], none, none⟩ ⟨[library], none, some 0⟩ := ⟨rfl, by cbv⟩

theorem prepares_importing (superclass : String) (h : superclass ∈ ["Q", "R"]) :
    Prepares .standard (importing superclass) { importing superclass with base? := some 0 } := by
  rw [List.mem_pair] at h
  refine ⟨rfl, ?_⟩
  rcases h with rfl | rfl <;> cbv

/-- The style nested in an heir of `R` inherits from the one that `P` nests. -/
theorem inheritsImported_importing {y : Style}
    (h : ({ importing "R" with base? := some 0 }.prepared .standard).1.firstAncestor?
      (.registered 0) y = some (.imported, "R")) :
    ({ importing "R" with base? := some 0 }.prepared .standard).1.InheritsImported
      (.registered 0) y ["n"] (.named "P" [.ofStyle (.named "n" [.ofValue "x" (.int 1)])]) := by
  refine ⟨_, 1, h, @Nearest.beyond _ _ _ _ 0 _ (.imported, "P")
    (.mk { StyleHead.named "R" with superclass := some "P" } []) _ ?_ ?_ ?_ (.here ?_ ?_)⟩
  · cbv
  · cbv
  · cbv
  · cbv
  · cbv

/-- A style that extends a nested style of the library inherits its class. -/
theorem inherits_importing :
    library.Distinct ∧ (∀ x ∈ library.allStyles, x.Blank) ∧
      (∀ x ∈ library.allStyles, x.All fun u => u.name ≠ "") ∧
      ∃ y c d, y ∈ (({ importing "R" with base? := some 0 }.prepared .standard).1.sheet
          (.registered 0)).allStyles ∧ y.at? ["n"] = some c ∧
        ((({ registered := [library], imported := none, base? := some 0 } : Suite).prepared
          .standard).1.sheet (.registered 0)).class? "P" ["n"] = some d ∧
        c.head.inherits = some (Settings.standard.frameworkPrefix ++ d.path) ∧
        c.head.accessorType = some (Settings.standard.frameworkPrefix ++ d.accessorType) := by
  have hdistinct : library.Distinct := by decide
  have hblank : ∀ x ∈ library.allStyles, x.Blank := by decide
  have hne : ∀ x ∈ library.allStyles, x.All fun u => u.name ≠ "" := by decide
  have hmarked : (({ importing "R" with base? := some 0 }.prepared .standard).1.sheet
      (.registered 0)).allStyles.map (fun y =>
        (({ importing "R" with base? := some 0 }.prepared .standard).1.firstAncestor?
          (.registered 0) y, (y.at? ["n"]).isSome)) = [(some (.imported, "R"), true)] := by
    cbv
  obtain ⟨y, hy, hpair⟩ := List.mem_map.1 (hmarked ▸ List.mem_singleton_self _)
  obtain ⟨hfirst, hat⟩ := Prod.mk.inj hpair
  obtain ⟨c, hc⟩ := Option.isSome_iff_exists.1 hat
  obtain ⟨a, top, d, -, htop, hd, -, -, hinherits, htype⟩ :=
    Prepares.inherits_imported (prepares_importing "R" (by decide)) (by decide) rfl
      prepares_library hdistinct hblank hne (by decide) hy (inheritsImported_importing hfirst) hc
  have hkept : top.style.KeptAlong ["n"] := by
    have hover : (((({ registered := [library], imported := none, base? := some 0 } :
        Suite).prepared .standard).1.sheet (.registered 0)).class? "P" []).map
          (fun top => (top.style.nested? "n").map fun m => m.head.isOverride) =
            some (some false) := by
      cbv
    have htop' := (congrArg (Option.map fun top : Ancestor =>
      (top.style.nested? "n").map fun m => m.head.isOverride) htop).symm.trans hover
    intro m hm
    rw [Option.map_some, Option.mem_def.1 hm, Option.map_some, Option.some.injEq,
      Option.some.injEq] at htop'
    exact ⟨htop', trivial⟩
  exact ⟨hdistinct, hblank, hne, y, c, d, hy, hc, hd, hinherits.2 hkept,
    htype (by decide) hkept⟩

/-- The style nested in an heir of `Q` derives from none that is generated for `Q`: by itself the
imported stylesheet gives that class another name, and its accessor the type of another class. -/
theorem overriding_importing :
    Prepares .standard (importing "Q") { importing "Q" with base? := some 0 } ∧
    Prepares .standard ⟨[library], none, none⟩ ⟨[library], none, some 0⟩ ∧
    ∃ y c z d, y ∈ (({ importing "Q" with base? := some 0 }.prepared .standard).1.sheet
          (.registered 0)).allStyles ∧ y.at? ["n"] = some c ∧
      ({ importing "Q" with base? := some 0 }.prepared .standard).1.InheritsImported
        (.registered 0) y ["n"] z ∧ z.name = "Q" ∧
      ((({ registered := [library], imported := none, base? := some 0 } : Suite).prepared
        .standard).1.sheet (.registered 0)).class? "Q" ["n"] = some d ∧
      c.head.inherits = some "I.QAppearanceProxy.nAppearanceProxy" ∧
      d.path = "I.QAppearanceProxy.QNAppearanceProxy" ∧
      c.head.accessorType = some "I.QAppearanceProxy.nAppearanceProxy" ∧
      d.accessorType = "I.PAppearanceProxy.nAppearanceProxy" ∧
      Settings.standard.frameworkPrefix = "" := by
  have hmarked : (({ importing "Q" with base? := some 0 }.prepared .standard).1.sheet
      (.registered 0)).allStyles.map (fun y =>
        (({ importing "Q" with base? := some 0 }.prepared .standard).1.firstAncestor?
          (.registered 0) y,
          (y.at? ["n"]).map fun c : Style => (c.head.inherits, c.head.accessorType))) =
      [(some (.imported, "Q"), some (some "I.QAppearanceProxy.nAppearanceProxy",
        some "I.QAppearanceProxy.nAppearanceProxy"))] := by
    cbv
  have hgenerated : (((({ registered := [library], imported := none, base? := some 0 } :
      Suite).prepared .standard).1.sheet (.registered 0)).class? "Q" ["n"]).map
        (fun d => (d.path, d.accessorType)) = some ("I.QAppearanceProxy.QNAppearanceProxy",
          "I.PAppearanceProxy.nAppearanceProxy") := by
    cbv
  obtain ⟨y, hy, hpair⟩ := List.mem_map.1 (hmarked ▸ List.mem_singleton_self _)
  obtain ⟨hfirst, hnested⟩ := Prod.mk.inj hpair
  obtain ⟨c, hc, hcpair⟩ := Option.map_eq_some_iff.1 hnested
  obtain ⟨hinherits, haccessor⟩ := Prod.mk.inj hcpair
  obtain ⟨d, hd, hpaths⟩ := Option.map_eq_some_iff.1 hgenerated
  obtain ⟨hpath, htype⟩ := Prod.mk.inj hpaths
  refine ⟨prepares_importing "Q" (by decide), prepares_library, y, c, _, d, hy, hc,
    ⟨_, 0, hfirst, .here (x := .mk { StyleHead.named "Q" with superclass := some "P" }
      [.ofStyle (.named "m" []), .ofStyle (.named "n" [.ofValue "x" (.int 2)])]) ?_ ?_⟩, rfl, hd,
    hinherits, hpath, haccessor, htype, rfl⟩
  · cbv
  · cbv

end Suite

end Appearance
