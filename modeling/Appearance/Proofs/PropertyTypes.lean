import Appearance.Proofs.AccessorFunctions

/-!
# The types of properties

A value that overrides one of a superclass has no storage. Its function gives what is stored in the
class that declared the key, so it should have the type of that, and of all the values between
(`Suite.KeepsTypes`, `Suite.StoresTypes`). The types are those that the values have after
preparation (`Prepares.hasType_iff`). Nothing compares them: what has the key of an inherited value
overrides that whatever it is, and a theme may override a number by a truth value (`retyped_key`).
So all that holds is that both conditions come to the same (`Prepares.propertyTypes`).

The two conditions differ in what a value is compared with, the nearest value above it or the
farthest, which has the storage. They are equivalent because the farthest is reached by steps to
the nearest. Neither is a consequence of preparation, and the instance at the end has both fail:
nothing in a source is ill-formed there, and only the compiler of the generated code would find it.
-/

namespace Appearance.Suite

variable {s l r : Suite} {settings : Settings} {id : SheetId} {key : String} {a b c : Ancestor}
  {whole : Prop}

/-! ## The nearest value -/

/-- The nearest superclass that has a value under the key. -/
inductive NearestValue (r : Suite) (key : String) : Ancestor → Ancestor → Prop
  | near {c a : Ancestor} : r.Derives c a → a.HasLeaf key → NearestValue r key c a
  | far {c a b : Ancestor} : r.Derives c a → ¬a.HasLeaf key → NearestValue r key a b →
    NearestValue r key c b

theorem NearestValue.isAncestor (h : r.NearestValue key c a) : r.IsAncestor a c := by
  induction h with
  | near hd => exact .single hd
  | far hd _ _ ih => exact .head hd ih

/-- On the way to a superclass that has a value stands a nearest one that has. -/
theorem exists_nearestValue (h : r.IsAncestor a c) (ha : a.HasLeaf key) :
    ∃ b, r.NearestValue key c b ∧ r.OnWayUp a b := by
  induction h using Relation.TransGen.head_induction_on with
  | single hd => exact ⟨a, .near hd ha, .refl⟩
  | @head c d hd hup ih =>
    by_cases hleaf : d.HasLeaf key
    · exact ⟨d, .near hd hleaf, hup.to_reflTransGen⟩
    · obtain ⟨b, hb, hab⟩ := ih
      exact ⟨b, .far hd hleaf hb, hab⟩

/-! ## Where the storage is -/

/-- A value that overrides another one is declared on the way up. -/
theorem Climb.exists_declares {as : List Ancestor} (h : Climb r whole as) :
    ∀ c ∈ as, ∀ k v, Property.leaf k v ∈ c.style.properties → k.isOverride = true →
      ∃ a, r.IsAncestor a c ∧ a.Declares k.key := by
  induction h with
  | nil => exact fun c hc => by cases hc
  | @cons c x as rest hc hx hheir has hrest ih =>
    intro d hd k v hk hover
    rcases List.mem_cons.1 hd with rfl | hd
    · rw [hheir.isOverride_of_leaf hk, List.any_eq_true] at hover
      obtain ⟨a, ha, hvalue⟩ := hover
      obtain ⟨k', v', hk', hkey⟩ := Ancestor.hasLeaf_of_hasValue hvalue
      have hancestor : r.IsAncestor a d := by
        obtain ⟨-, bs, -, hsub, hbs⟩ := (Climb.cons hc hx hheir has (.refl _ _)).isAncestor
        exact hbs a (hsub ha)
      cases hover' : k'.isOverride with
      | false => exact ⟨a, hancestor, k', v', hk', hkey, hover'⟩
      | true =>
        obtain ⟨b, hb, hdeclares⟩ := ih a ha k' v' hk' hover'
        exact ⟨b, hancestor.trans hb, hkey ▸ hdeclares⟩
    · exact ih d (hrest.begins.subset hd) k v hk hover

/-! ## Types that are kept -/

/-- Every value that overrides another one has the type of the nearest one. -/
def KeepsTypes (r : Suite) : Prop :=
  ∀ c ∈ r.classes, ∀ k v, Property.leaf k v ∈ c.style.properties → k.isOverride = true →
    ∀ a, r.NearestValue k.key c a → ∀ k' v', Property.leaf k' v' ∈ a.style.properties →
      k'.key = k.key → v.swiftType = v'.swiftType

/-- Every value that overrides another one has the type of its storage. -/
def StoresTypes (r : Suite) : Prop :=
  ∀ c ∈ r.classes, ∀ k v, Property.leaf k v ∈ c.style.properties → k.isOverride = true →
    ∀ a, r.IsAncestor a c → ∀ k' v', Property.leaf k' v' ∈ a.style.properties →
      k'.key = k.key → k'.isOverride = false → v.swiftType = v'.swiftType

/-- The types on the way up to a value are that of the value, if types are kept. -/
theorem KeepsTypes.exists_nearest (h : r.KeepsTypes) (hmarks : MarksAgree r) {k : PropertyHead}
    {v : Value} (hk : Property.leaf k v ∈ a.style.properties) (hac : r.IsAncestor a c) :
    ∃ b, r.NearestValue k.key c b ∧
      ∃ k' v', Property.leaf k' v' ∈ b.style.properties ∧ k'.key = k.key ∧
        v'.swiftType = v.swiftType := by
  have ha : a.HasLeaf k.key := ⟨k, v, hk, rfl⟩
  induction hac using Relation.TransGen.head_induction_on with
  | single hd => exact ⟨a, .near hd ha, k, v, hk, rfl, rfl⟩
  | @head c d hd had ih =>
    obtain ⟨b, hb, k', v', hk', hkey', htype⟩ := ih
    by_cases hleaf : d.HasLeaf k.key
    · obtain ⟨k₁, v₁, hk₁, hkey⟩ := hleaf
      have hover : k₁.isOverride = true :=
        (hmarks.value d hd.1 k₁ v₁ hk₁).2 ⟨a, had, hkey ▸ ha⟩
      have hkept := h d hd.1 k₁ v₁ hk₁ hover b (hkey ▸ hb) k' v' hk' (hkey'.trans hkey.symm)
      exact ⟨d, .near hd ⟨k₁, v₁, hk₁, hkey⟩, k₁, v₁, hk₁, hkey, hkept.trans htype⟩
    · exact ⟨b, .far hd hleaf hb, k', v', hk', hkey', htype⟩

theorem KeepsTypes.storesTypes (h : r.KeepsTypes) (hmarks : MarksAgree r) : r.StoresTypes := by
  intro c hc k v hk hover a ha k' v' hk' hkey _
  obtain ⟨b, hb, k₁, v₁, hk₁, hkey₁, htype⟩ := h.exists_nearest hmarks hk' ha
  exact (h c hc k v hk hover b (hkey ▸ hb) k₁ v₁ hk₁ (hkey₁.trans hkey)).trans htype

/-- Where all that is overridden is declared, values that have the type of their storage have that
of the nearest one. -/
theorem StoresTypes.keepsTypes (h : r.StoresTypes)
    (hdeclared : ∀ c ∈ r.classes, ∀ k v, Property.leaf k v ∈ c.style.properties →
      k.isOverride = true → ∃ a, r.IsAncestor a c ∧ a.Declares k.key) : r.KeepsTypes := by
  intro c hc k v hk hover a ha k' v' hk' hkey
  cases hover' : k'.isOverride with
  | false => exact h c hc k v hk hover a ha.isAncestor k' v' hk' hkey hover'
  | true =>
    obtain ⟨d, hd, k₁, v₁, hk₁, hkey₁, hover₁⟩ :=
      hdeclared a ha.isAncestor.mem_classes k' v' hk' hover'
    have hstored := h c hc k v hk hover d (ha.isAncestor.trans hd) k₁ v₁ hk₁ (hkey₁.trans hkey)
      hover₁
    have hstored' := h a ha.isAncestor.mem_classes k' v' hk' hover' d hd k₁ v₁ hk₁ hkey₁ hover₁
    exact hstored.trans hstored'.symm

/-! ## Types of prepared values -/

/-- After preparation a value knows its type. -/
theorem Prepares.hasType_iff (h : Prepares settings s l)
    (hd : ∀ t ∈ s.registered, (t.styles.map Style.name).Nodup) (hid : id ∈ l.ids) {v : Value}
    (hv : v ∈ ((l.prepared settings).1.sheet id).leaves) {type : String} :
    (l.prepared settings).1.HasType id v type ↔ v.swiftType = type := by
  have htype : (l.prepared settings).1.HasType id v v.swiftType := by
    refine hasType_swiftType fun q hq => ?_
    obtain ⟨found, k, u, type, htarget, htype, hresolved⟩ := h.hasType_redirect hd hid
      (Stylesheet.mem_redirects.2 ⟨v, hv, Value.followed_subset_redirects v hq⟩)
    exact ⟨_, hresolved, .redirect htarget htype⟩
  exact ⟨htype.unique, fun heq => heq ▸ htype⟩

/-! ## Types of overriding values -/

/-- What holds of the types of overriding values, whether they are kept or not. -/
structure PropertyTypes (r : Suite) : Prop where
  /-- The type with which a value is printed is its type: that of the literal, of the value to which
  a redirect leads, of the branch that is tested first, or that the items of an array share. -/
  typed : ∀ id ∈ r.ids, ∀ v ∈ (r.sheet id).leaves, ∀ type,
    r.HasType id v type ↔ v.swiftType = type
  /-- A value that overrides another one has a nearest one above it, and some class above has the
  storage of the key, but its own class has none. -/
  overridden : ∀ c ∈ r.classes, ∀ k v, Property.leaf k v ∈ c.style.properties →
    k.isOverride = true → (∃ a, r.NearestValue k.key c a) ∧ ∀ manager,
      Property.storageLine k v.swiftType ∉ Property.memberLines manager k v ∧
      ∃ a k' v', r.IsAncestor a c ∧ Property.leaf k' v' ∈ a.style.properties ∧ k'.key = k.key ∧
        k'.isOverride = false ∧
        Property.storageLine k' v'.swiftType ∈ Property.memberLines manager k' v'
  /-- Values that have the type of their storage have the type of the nearest one. -/
  kept_of_stored : r.StoresTypes → r.KeepsTypes
  /-- Where the marks agree with the classes, the two conditions come to the same. -/
  kept_iff : MarksAgree r → (r.KeepsTypes ↔ r.StoresTypes)

/-- Preparation leaves it open whether values keep the types of those that they override. It makes
sure that these are there and that one of them has the storage, and that types are known. Nothing is
marked before preparation, as in every suite that is loaded (`Config.fresh_suite`). -/
theorem Prepares.propertyTypes (h : Prepares settings s l)
    (hd : ∀ t ∈ s.registered, (t.styles.map Style.name).Nodup) (hf : s.Fresh)
    (himported : s.imported = none) (hframework : settings.framework = none) :
    PropertyTypes (l.prepared settings).1 := by
  have hclimb : ∀ c ∈ (l.prepared settings).1.classes,
      ∃ as, Climb (l.prepared settings).1 False (c :: as) := fun c hc =>
    h.exists_climb hd hf himported hframework (fun hfalse : False => hfalse.elim) hc
  have hdeclared : ∀ c ∈ (l.prepared settings).1.classes, ∀ k v,
      Property.leaf k v ∈ c.style.properties → k.isOverride = true →
        ∃ a, (l.prepared settings).1.IsAncestor a c ∧ a.Declares k.key := by
    intro c hc k v hk hover
    obtain ⟨as, has⟩ := hclimb c hc
    exact has.exists_declares c List.mem_cons_self k v hk hover
  constructor
  case typed => exact fun id hid v hv type => h.hasType_iff hd (h.ids_eq ▸ hid) hv
  case overridden =>
    intro c hc k v hk hover
    obtain ⟨a, ha, k', v', hk', hkey, hover'⟩ := hdeclared c hc k v hk hover
    obtain ⟨b, hb, -⟩ := exists_nearestValue ha ⟨k', v', hk', hkey⟩
    refine ⟨⟨b, hb⟩, fun manager => ⟨?_, a, k', v', ha, hk', hkey, hover', ?_⟩⟩
    · rw [Property.storageLine_mem_memberLines, hover]
      exact nofun
    · rwa [Property.storageLine_mem_memberLines]
  case kept_of_stored => exact fun hstores => hstores.keepsTypes hdeclared
  case kept_iff =>
    exact fun hmarks => ⟨fun hkeeps => hkeeps.storesTypes hmarks, fun hstores =>
      hstores.keepsTypes hdeclared⟩

/-- All overriding values in this suite have the types of what they override. -/
theorem propertyTypes_brandTheme :
    PropertyTypes ({ brandTheme with base? := some 0 }.prepared .standard).1 :=
  Prepares.propertyTypes prepares_brandTheme (by decide) (by decide) rfl rfl

/-- A base with a number, and a theme with a truth value under its key. -/
def retypedTheme : Suite :=
  ⟨[⟨"Base", [.named "A" [.leaf ⟨"x", false, false⟩ (.int 1)]], none, none, false, []⟩,
    ⟨"Dark", [.named "A" [.leaf ⟨"x", false, false⟩ (.bool true)]], none, some "Base", false, []⟩],
    none, none⟩

/-- The style with the number as it is prepared. -/
def numberStyle : Style :=
  .mk { StyleHead.named "A" with isOverridable := true } [.leaf ⟨"x", false, true⟩ (.int 1)]

/-- The style with the truth value as it is prepared. -/
def truthStyle : Style :=
  .mk { StyleHead.named "A" with
      isOverride := true, overrideName := some "DarkA", inherits := some "Base.AAppearanceProxy",
      accessorType := some "Base.AAppearanceProxy" }
    [.leaf ⟨"x", true, false⟩ (.bool true)]

theorem prepared_retypedTheme :
    ({ retypedTheme with base? := some 0 }.prepared .standard).1 =
      ⟨[⟨"Base", [numberStyle], none, none, false, []⟩,
        ⟨"Dark", [truthStyle], none, some "Base", false, []⟩], none, some 0⟩ := by
  cbv

/-- A theme overrides a number with a truth value: the function gives a truth value, and a number is
stored. -/
theorem retyped_key :
    retypedTheme.imported = none ∧
    Prepares .standard retypedTheme { retypedTheme with base? := some 0 } ∧
    ∃ c ∈ ({ retypedTheme with base? := some 0 }.prepared .standard).1.classes, ∃ k v,
      Property.leaf k v ∈ c.style.properties ∧ k.isOverride = true ∧ v.swiftType = "Bool" ∧
      ∃ a, ({ retypedTheme with base? := some 0 }.prepared .standard).1.NearestValue k.key c a ∧
        ∃ k' v', Property.leaf k' v' ∈ a.style.properties ∧ k'.key = k.key ∧
          Property.storageLine k' "Int" ∈ Property.memberLines none k' v' ∧
          v'.swiftType = "Int" := by
  refine ⟨rfl, ⟨rfl, by cbv⟩, ?_⟩
  rw [prepared_retypedTheme]
  refine ⟨⟨"Dark.DarkAAppearanceProxy", truthStyle⟩, .tail _ (.head _), _, _,
    List.mem_singleton_self _, rfl, rfl, ⟨"Base.AAppearanceProxy", numberStyle⟩,
    .near ⟨.head _, rfl⟩ ⟨_, _, List.mem_singleton_self _, rfl⟩, _, _, List.mem_singleton_self _,
    rfl, (Property.storageLine_mem_memberLines none _ (.int 1)).2 rfl, rfl⟩

end Appearance.Suite
