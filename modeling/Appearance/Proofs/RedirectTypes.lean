import Appearance.Proofs.Contents
import Appearance.Proofs.Names

/-!
# The types of values

`Suite.HasType` is the typing of values: a redirect has the type of the value that its path leads
to, an array that of its items, and a conditional value that of the branch which is tested first.
What `valueType` and `pathType` compute is such a type (`hasType_of_pathType`), and a value has one
type only (`HasType.unique`). It depends on the contents of the stylesheets that are searched
(`HasType.congr`). Once its redirects are resolved, a value knows its type itself
(`hasType_swiftType`).

The relation has no trail and no depth. It is a least relation, so a chain of redirects that never
ends has no type, while one that the search refuses because it meets a path twice may well have
one. Soundness of the search and uniqueness of types together say that the search finds the type if
it finds any; how often it does is the subject of `Proofs.TypingEnds`. `HasType.congr` is what
carries a type from the suite in which a redirect was resolved to the prepared one.
-/

namespace Appearance

theorem Value.itemTypes_eq (vs : List Value) : itemTypes vs = vs.map swiftType := by
  induction vs with
  | nil => rfl
  | cons v vs ih => rw [itemTypes, ih, List.map_cons]

namespace Suite

/-- The value has the type where it stands. -/
inductive HasType (s : Suite) : SheetId → Value → String → Prop
  | literal {id : SheetId} {v : Value} : v.isLiteral = true → HasType s id v v.swiftType
  | redirect {id found : SheetId} {r : Redirect} {k : PropertyHead} {v : Value} {type : String} :
    s.target id r.path = .ok ⟨found, .leaf k v⟩ → HasType s found v type →
      HasType s id (.redirect r) type
  | noBranch {id : SheetId} : HasType s id (.conditional []) (Value.conditional []).swiftType
  | branch {id : SheetId} {c : Condition} {v : Value} {bs : List (Condition × Value)}
      {type : String} : HasType s id v type → HasType s id (.conditional ((c, v) :: bs)) type
  | array {id : SheetId} {items : List Value} {types : List String}
      (typed : List (Value × String)) : typed.map Prod.fst = items → typed.map Prod.snd = types →
      (∀ p ∈ typed, HasType s id p.1 p.2) → HasType s id (.array items) (Value.arrayType types)

variable {s r : Suite} {id : SheetId} {v : Value} {type : String}

theorem HasType.ofItems {items : List Value} {types : List String}
    (h : List.Forall₂ (s.HasType id) items types) :
    s.HasType id (.array items) (Value.arrayType types) := by
  obtain ⟨hlength, hzip⟩ := List.forall₂_iff_zip.1 h
  exact .array (items.zip types) (List.map_fst_zip hlength.le) (List.map_snd_zip hlength.ge)
    fun p hp => hzip hp

theorem HasType.items {items : List Value} (h : s.HasType id (.array items) type) :
    ∃ types, type = Value.arrayType types ∧ List.Forall₂ (s.HasType id) items types := by
  cases h with
  | literal h => cases h
  | array typed hitems htypes h =>
    subst hitems htypes
    refine ⟨_, rfl, ?_⟩
    rw [List.forall₂_map_left_iff, List.forall₂_map_right_iff, List.forall₂_same]
    exact h

/-! ## Types that are computed -/

section Computed

variable {follow : String → Trail → Except SuiteError (String × Trail)}

/-- The type that is computed of a value is one, if those of redirects are. -/
theorem hasType_of_valueType
    (hfollow : ∀ q trail t, follow q.path trail = .ok t → s.HasType id (.redirect q) t.1)
    {trail trail' : Trail} (h : valueType follow v trail = .ok (type, trail')) :
    s.HasType id v type := by
  induction v using Value.induction generalizing type trail trail' with
  | literal v hv =>
    have htype : valueType follow v trail = .ok (v.swiftType, trail) := by
      cases v <;> first | rfl | cases hv
    rw [htype] at h
    cases h
    exact .literal hv
  | redirect q => exact hfollow q trail _ h
  | conditional bs ih =>
    cases bs with
    | nil =>
      cases h
      exact .noBranch
    | cons b bs =>
      obtain ⟨c, v⟩ := b
      exact .branch (ih c v List.mem_cons_self h)
  | array vs ih =>
    have hitems : ∀ {types trail trail'}, itemTypes follow vs trail = .ok (types, trail') →
        List.Forall₂ (s.HasType id) vs types := fun {types trail trail'} h' => by
      clear h
      induction vs generalizing types trail with
      | nil =>
        cases h'
        exact .nil
      | cons v vs ihvs =>
        rw [itemTypes] at h'
        split at h'
        · cases h'
        · next type trail hv =>
          split at h'
          · cases h'
          · next types trail hvs =>
            cases h'
            exact .cons (ih v List.mem_cons_self hv)
              (ihvs (fun u hu => ih u (List.mem_cons_of_mem v hu)) hvs)
    rw [valueType] at h
    split at h
    · next types trail htypes =>
      cases h
      exact .ofItems (hitems htypes)
    · cases h

/-- The type that is computed of a redirect is its type. -/
theorem hasType_of_pathType {depth : Nat} {q : Redirect} {trail : Trail} {t : String × Trail}
    (h : s.pathType depth id q.path trail = .ok t) : s.HasType id (.redirect q) t.1 := by
  induction depth generalizing id q trail t with
  | zero => cases h
  | succ depth ih =>
    rw [pathType] at h
    split at h
    · cases h
    · dsimp only at h
      split at h
      · cases h
      · next found k v htarget =>
        exact .redirect htarget (hasType_of_valueType (fun q trail t ht => ih ht) h)
      · cases h

end Computed

/-! ## One type -/

/-- A value has one type at most. -/
theorem HasType.unique {type' : String} (h : s.HasType id v type) (h' : s.HasType id v type') :
    type = type' := by
  induction h generalizing type' with
  | @literal id v hv =>
    cases h' with
    | literal => rfl
    | _ => cases hv
  | redirect htarget _ ih =>
    cases h' with
    | literal hv => cases hv
    | redirect htarget' hv' =>
      rw [htarget] at htarget'
      cases htarget'
      exact ih hv'
  | noBranch =>
    cases h' with
    | literal hv => cases hv
    | noBranch => rfl
  | branch _ ih =>
    cases h' with
    | literal hv => cases hv
    | branch hv' => exact ih hv'
  | array typed hitems htypes htyped ih =>
    obtain ⟨types', rfl, hitems'⟩ := h'.items
    subst hitems htypes
    rw [List.forall₂_map_left_iff] at hitems'
    clear h' htyped
    refine congrArg _ ?_
    induction typed generalizing types' with
    | nil =>
      cases hitems'
      rfl
    | cons p typed ihtyped =>
      cases hitems' with
      | cons hp hrest =>
        rw [List.map_cons, ih p List.mem_cons_self hp,
          ihtyped (fun q hq => ih q (List.mem_cons_of_mem p hq)) _ hrest]

/-! ## Types and contents -/

theorem mem_searched {c : SheetId} :
    c ∈ s.searched id ↔ c = id ∨ s.superclass? id = some c ∨ s.importedId? = some c := by
  simp only [searched, List.cons_append, List.mem_cons, List.mem_append, Option.mem_toList]

/-- From a stylesheet that is searched, no other is. -/
theorem searched_subset {c : SheetId} (hc : c ∈ s.searched id) : s.searched c ⊆ s.searched id := by
  intro d hd
  rcases mem_searched.1 hc with rfl | hc
  · exact hd
  have hsup : s.superclass? c = none := by
    rcases hc with hc | hc
    · exact superclass?_superclass? hc
    · obtain ⟨t, -, rfl⟩ := Option.map_eq_some_iff.1 hc
      rfl
  rcases mem_searched.1 hd with rfl | hd | hd
  · exact mem_searched.2 (.inr hc)
  · rw [hsup] at hd
    cases hd
  · exact mem_searched.2 (.inr (.inr hd))

theorem searched_congr (hb : r.base? = s.base?) (hi : r.imported = s.imported) (id : SheetId) :
    r.searched id = s.searched id := by
  rw [searched, searched, superclass?_congr hb, importedId?, importedId?, hi]

/-- A path leads to a value of the same form in suites of the same contents. -/
theorem target_leaf_congr (hb : r.base? = s.base?) (hi : r.imported = s.imported)
    (h : ∀ c ∈ s.searched id, SameContents Value.plain (r.sheet c) (s.sheet c)) {path : String}
    {c : SheetId} {k : PropertyHead} (ht : s.target id path = .ok ⟨c, .leaf k v⟩) :
    ∃ k' v', r.target id path = .ok ⟨c, .leaf k' v'⟩ ∧ v'.plain = v.plain := by
  obtain ⟨p, hp, hcontents⟩ := target_contents hb (searched_congr hb hi id) h ht
  cases p with
  | leaf k' v' =>
    exact ⟨k', v', hp, by simpa [Property.contentsBy] using (Property.leaf.inj hcontents).2⟩
  | nested k' n => cases hcontents

/-- Types are the same in suites whose stylesheets have the same contents. -/
theorem HasType.congr (hb : r.base? = s.base?) (hi : r.imported = s.imported) {start : SheetId}
    (hsame : ∀ c ∈ s.searched start, SameContents Value.plain (r.sheet c) (s.sheet c))
    (hid : id ∈ s.searched start) (h : s.HasType id v type) {u : Value} (hu : u.plain = v.plain) :
    r.HasType id u type := by
  induction h generalizing u with
  | @literal id v hv =>
    have hu' : u.isLiteral = true := by rw [← Value.isLiteral_plain, hu, Value.isLiteral_plain, hv]
    rw [Value.plain_of_isLiteral hu', Value.plain_of_isLiteral hv] at hu
    subst hu
    exact .literal hv
  | @redirect id found q k v type htarget _ ih =>
    obtain ⟨q', rfl, hq⟩ := Value.eq_redirect_of_plain hu
    obtain ⟨k', v', hv', hplain⟩ := target_leaf_congr hb hi
      (fun c hc => hsame c (searched_subset hid hc)) htarget
    rw [← hq] at hv'
    exact .redirect hv' (ih (searched_subset hid (mem_leaves_of_target htarget).1) hplain)
  | noBranch =>
    obtain ⟨as, rfl, has⟩ := Value.eq_conditional_of_plain hu
    rw [List.map_eq_nil_iff.1 has]
    exact .noBranch
  | branch _ ih =>
    obtain ⟨as, rfl, has⟩ := Value.eq_conditional_of_plain hu
    obtain ⟨⟨c, w⟩, as, rfl, hw, -⟩ := List.map_eq_cons_iff.1 has
    exact .branch (ih hid (Prod.mk.inj hw).2)
  | array typed hitems htypes htyped ih =>
    obtain ⟨us, rfl, hus⟩ := Value.eq_array_of_plain hu
    subst hitems htypes
    refine .ofItems ?_
    rw [List.forall₂_map_right_iff]
    clear hu htyped
    induction typed generalizing us with
    | nil =>
      rw [List.map_eq_nil_iff.1 hus]
      exact .nil
    | cons p typed ihtyped =>
      obtain ⟨u, us, rfl, hu, hus⟩ := List.map_eq_cons_iff.1 hus
      exact .cons (ih p List.mem_cons_self hid hu)
        (ihtyped (fun q hq => ih q (List.mem_cons_of_mem p hq)) us hus)

/-! ## Resolved values -/

/-- A value whose redirects are resolved has the type that it knows. -/
theorem hasType_swiftType
    (hv : ∀ q ∈ v.followed, ∃ t, q.resolved = some t ∧ s.HasType id (.redirect q) t.type) :
    s.HasType id v v.swiftType := by
  induction v using Value.induction with
  | literal v hliteral => exact .literal hliteral
  | redirect q =>
    obtain ⟨t, ht, htype⟩ := hv q List.mem_cons_self
    rwa [Value.swiftType, ht]
  | conditional bs ih =>
    cases bs with
    | nil => exact .noBranch
    | cons b bs => exact .branch (ih b.1 b.2 List.mem_cons_self hv)
  | array vs ih =>
    rw [Value.swiftType, Value.itemTypes_eq]
    refine .ofItems ?_
    rw [List.forall₂_map_right_iff, List.forall₂_same]
    refine fun v hmem => ih v hmem fun q hq => hv q ?_
    rw [Value.followed_array]
    exact List.mem_flatMap.2 ⟨v, hmem, hq⟩

/-- It has no other type. -/
theorem HasType.swiftType_eq (h : s.HasType id v type)
    (hv : ∀ q ∈ v.followed, ∃ t, q.resolved = some t ∧ s.HasType id (.redirect q) t.type) :
    v.swiftType = type :=
  (hasType_swiftType hv).unique h

end Suite

end Appearance
