import Appearance.Proofs.Redirects
import Mathlib.Data.List.Basic
import Mathlib.Order.WellFounded

/-!
# Accessors that call each other

At run time the accessor of a redirect calls that of the property to which it leads, and it looks
for that one from the theme that is in use (`Suite.Calls`). What preparation rules out is that the
type of a property depends on itself (`HasType.acc`). Calls end as far as types tell of them: where
all redirects of a value bear on its type and lead to the same property from the theme as from their
own stylesheet (`Prepares.no_endless_calls`). A branch that is not tested first bears on no type, so
a property may redirect to itself there (`endlessCalls_laterBranch`).

`Calls` depends on the theme in use, since an accessor looks for the target of its redirect from
there, while types are found from the stylesheet in which a redirect stands. `CallsAreTyped` says
where the two agree. A type is a finite derivation, so the properties on which it depends can be
followed downwards only finitely often; this is accessibility of a relation, and no bound on the
length of a chain of calls is needed.
-/

namespace Appearance.Suite

/-- While the stylesheet at `view` is the theme, the accessor of one property calls that of the
other. -/
def Calls (s : Suite) (view : SheetId) (a b : Target) : Prop :=
  ∃ v, a.property.value? = some v ∧ ∃ q ∈ v.redirects, s.target view q.path = .ok b

/-- The type of one property depends on that of the other. -/
def TypedBy (s : Suite) (a b : Target) : Prop :=
  ∃ v, a.property.value? = some v ∧ ∃ q ∈ v.followed, s.target a.sheet q.path = .ok b

variable {s l : Suite} {settings : Settings} {id view : SheetId} {v : Value} {type : String}

/-- Where a value has a type, the properties on which it depends do not depend on themselves. -/
theorem HasType.acc (h : s.HasType id v type) {q : Redirect} (hq : q ∈ v.followed) {b : Target}
    (hb : s.target id q.path = .ok b) : Acc (fun b a => s.TypedBy a b) b := by
  induction h generalizing q b with
  | literal hv =>
    rw [Value.followed_of_isLiteral hv] at hq
    cases hq
  | redirect htarget _ ih =>
    rw [List.mem_singleton.1 hq, htarget] at hb
    cases hb
    refine ⟨_, fun c ⟨w, hw, p, hp, hc⟩ => ?_⟩
    cases hw
    exact ih hp hc
  | noBranch => cases hq
  | branch _ ih => exact ih hq hb
  | array typed hitems htypes _ ih =>
    subst hitems
    rw [Value.followed_array] at hq
    obtain ⟨w, hw, hqw⟩ := List.mem_flatMap.1 hq
    obtain ⟨p, hp, rfl⟩ := List.mem_map.1 hw
    exact ih p hp hqw hb

/-- Types tell how accessors call each other while the stylesheet at `view` is the theme. -/
structure CallsAreTyped (s : Suite) (view : SheetId) : Prop where
  /-- Every redirect bears on the type of its value: it is in no later branch of a condition. -/
  followed : ∀ c ∈ s.searched view, ∀ v ∈ (s.sheet c).leaves, v.redirects ⊆ v.followed
  /-- No redirect leads elsewhere from the theme than from its own stylesheet. -/
  target_eq : ∀ c ∈ s.searched view, ∀ q ∈ (s.sheet c).redirects,
    s.target c q.path = s.target view q.path
  /-- The imported stylesheet has no redirects, as they are never resolved. -/
  imported : ∀ t ∈ s.imported, t.redirects = []

/-- The accessor that calls has its value in a stylesheet that is searched. -/
theorem Calls.mem_leaves {a b : Target} (h : s.Calls view a b) {v : Value}
    (hv : b.property.value? = some v) :
    b.sheet ∈ s.searched view ∧ v ∈ (s.sheet b.sheet).leaves := by
  obtain ⟨u, -, q, -, hq⟩ := h
  obtain ⟨c, p⟩ := b
  cases p with
  | leaf k w =>
    cases hv
    exact mem_leaves_of_target hq
  | nested => cases hv

/-- The calls of a called accessor are calls that types tell of. -/
theorem CallsAreTyped.typedBy (hc : s.CallsAreTyped view) {a b c : Target}
    (hab : s.Calls view a b) (hbc : s.Calls view b c) :
    ∃ q ∈ (s.sheet b.sheet).redirects, b.sheet ∈ s.searched view ∧
      s.target b.sheet q.path = .ok c ∧ s.TypedBy b c := by
  obtain ⟨v, hv, q, hq, hqc⟩ := hbc
  obtain ⟨hsheet, hleaf⟩ := hab.mem_leaves hv
  have hmem := Stylesheet.mem_redirects.2 ⟨v, hleaf, hq⟩
  have htarget := (hc.target_eq _ hsheet q hmem).trans hqc
  exact ⟨q, hmem, hsheet, htarget, v, hv, q, hc.followed _ hsheet v hleaf hq, htarget⟩

/-- The accessors of a prepared suite do not call each other without end, as far as types tell of
the calls: no property redirects to itself, directly or through others. -/
theorem Prepares.no_endless_calls (h : Prepares settings s l)
    (hd : ∀ t ∈ s.registered, (t.styles.map Style.name).Nodup) (hview : view ∈ l.ids)
    (hc : (l.prepared settings).1.CallsAreTyped view) :
    ¬ ∃ a : Nat → Target, ∀ i, (l.prepared settings).1.Calls view (a i) (a (i + 1)) := by
  rintro ⟨a, hcalls⟩
  obtain ⟨q, hq, hsheet, hqtarget, -⟩ := hc.typedBy (hcalls 0) (hcalls 1)
  have hmem : (a 1).sheet ∈ l.ids := by
    rcases mem_searched.1 hsheet with heq | hb | hi
    · rwa [heq]
    · rw [superclass?_congr h.kept.base?_eq] at hb
      exact mem_ids_of_superclass? h.linked hb
    · obtain ⟨t, ht, heq⟩ := Option.map_eq_some_iff.1 hi
      have hnone : ((l.prepared settings).1.sheet .imported).redirects = [] := by
        rw [sheet, sheet?, ht]
        exact hc.imported t ht
      rw [← heq, hnone] at hq
      cases hq
  obtain ⟨found, k, v, type, hfound, htype, -⟩ := h.hasType_redirect hd hmem hq
  have hacc := HasType.acc (.redirect hfound htype) (List.mem_singleton_self q) hqtarget
  exact (acc_iff_isEmpty_descending_chain.1 hacc).false
    ⟨fun i => a (i + 2), rfl, fun i => by
      obtain ⟨-, -, -, -, htyped⟩ := hc.typedBy (hcalls (i + 1)) (hcalls (i + 2))
      exact htyped⟩

/-- In a theme with redirects into the base and into the imported stylesheet, types tell of all
calls. -/
theorem callsAreTyped_redirectingTheme :
    ({ redirectingTheme with base? := some 0 }.prepared .standard).1.CallsAreTyped
      (.registered 1) := by
  have hplaces : ∀ c ∈ ({ redirectingTheme with base? := some 0 }.prepared .standard).1.searched
      (.registered 1), c = .registered 1 ∨ c = .registered 0 ∨ c = .imported := by
    have hsearched : ({ redirectingTheme with base? := some 0 }.prepared .standard).1.searched
        (.registered 1) = [.registered 1, .registered 0, .imported] := by
      cbv
    simp [hsearched]
  have hdark : (({ redirectingTheme with base? := some 0 }.prepared .standard).1.sheet
      (.registered 1)).leaves =
        [.array [.redirect ⟨"A.y", some ⟨"mainProxy().A.y", "Int"⟩⟩,
          .redirect ⟨"S.w", some ⟨"StylesheetManager.S.S.w", "Int"⟩⟩]] := by
    cbv
  have hbase : (({ redirectingTheme with base? := some 0 }.prepared .standard).1.sheet
      (.registered 0)).leaves =
        [.int 1, .redirect ⟨"A.x", some ⟨"mainProxy().A.x", "Int"⟩⟩] := by
    cbv
  have himported : (({ redirectingTheme with base? := some 0 }.prepared .standard).1.sheet
      .imported).leaves = [.int 2] := by
    cbv
  refine ⟨fun c hc v hv => ?_, fun c hc q hq => ?_, fun t ht => ?_⟩
  · rcases hplaces c hc with rfl | rfl | rfl
    · rw [hdark, List.mem_singleton] at hv
      rw [hv]
      exact List.Subset.refl _
    · rw [hbase, List.mem_pair] at hv
      rcases hv with rfl | rfl <;> exact List.Subset.refl _
    · rw [himported, List.mem_singleton] at hv
      rw [hv]
      exact List.Subset.refl _
  · rcases hplaces c hc with rfl | rfl | rfl
    · rfl
    · rw [Stylesheet.redirects_eq, hbase] at hq
      rw [List.mem_singleton.1 hq]
      cbv
    · rw [Stylesheet.redirects_eq, himported] at hq
      cases hq
  · rw [prepares_redirectingTheme.kept.imported_eq] at ht
    cases ht
    rfl

/-- Calls between the accessors of this suite end. -/
theorem no_endless_calls_redirectingTheme :
    ¬ ∃ a : Nat → Target, ∀ i,
      ({ redirectingTheme with base? := some 0 }.prepared .standard).1.Calls (.registered 1)
        (a i) (a (i + 1)) :=
  Prepares.no_endless_calls prepares_redirectingTheme (by decide)
    (show SheetId.registered 1 ∈ ({ redirectingTheme with base? := some 0 } : Suite).ids by decide)
    callsAreTyped_redirectingTheme

/-! ## A later branch -/

/-- A stylesheet with a value that redirects to itself in a branch that is not tested first. -/
def laterBranch : Suite :=
  ⟨[⟨"Base",
      [.named "A" [.leaf ⟨"a", false, false⟩ (.conditional
        [(⟨"horizontal=regular",
            [.comparison "horizontal=regular" .horizontal .equal .regular]⟩, .int 1),
          (⟨"default", [.always "default"]⟩, .redirect ⟨"A.a", none⟩)])]],
      none, none, false, []⟩],
    none, none⟩

/-- Calls need not end otherwise. -/
theorem endlessCalls_laterBranch :
    Prepares .standard laterBranch { laterBranch with base? := some 0 } ∧
      ∃ a : Nat → Target, ∀ i,
        ({ laterBranch with base? := some 0 }.prepared .standard).1.Calls (.registered 0)
          (a i) (a (i + 1)) := by
  refine ⟨⟨rfl, by cbv⟩, fun _ => ⟨.registered 0, .leaf ⟨"a", false, true⟩ (.conditional
    [(⟨"horizontal=regular",
        [.comparison "horizontal=regular" .horizontal .equal .regular]⟩, .int 1),
      (⟨"default", [.always "default"]⟩,
        .redirect ⟨"A.a", some ⟨"mainProxy().A.a", "Int"⟩⟩)])⟩, fun i => ?_⟩
  exact ⟨_, rfl, _, List.mem_singleton_self _, by cbv⟩

end Appearance.Suite
