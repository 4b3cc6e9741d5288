import Appearance.Proofs.Overrides
import Appearance.Proofs.Printed
import Appearance.Proofs.Redirects

/-!
# Functions of accessors

The expression of a redirect calls the function of the value to which its path leads, and the
function of an overriding value overrides one of a superclass. Both are there, in the class of the
style that has the value (`Prepares.functionsPrinted`), unless that value is a definition: a
definition is declared as a type and has no function. Where redirects lead and what is overridden is
decided without regard to that, so a redirect to a definition calls a function that does not exist,
and a value under the key of an inherited definition overrides none (`missing_functions`).

Three facts come together: where a redirect leads (`Proofs.Redirects`), what a marked value
overrides (`Proofs.Overrides`), and what stands in the block of a class (`Proofs.Printed`).
Definitions are the exception in the third one only, and it is stated there once, so the theorem
says of each function whether it is printed. Of several styles of one name only one is kept, which
is a second way for a target to get lost, and the instances show both.
-/

namespace Appearance

/-- The expression of a resolved redirect calls a function. -/
theorem Value.toSwift_redirect (manager : Option String) {q : Redirect} {t : RedirectTarget}
    (h : q.resolved = some t) :
    (Value.redirect q).toSwift manager = t.access ++ "Property(traitCollection)" := by
  obtain ⟨path, resolved⟩ := q
  obtain rfl : resolved = some t := h
  rfl

namespace Suite

variable {s l r : Suite} {settings : Settings} {base id : SheetId} {whole : Prop}

/-! ## Classes in files -/

/-- The function of a value stands among the members of a class, and the class in a file. -/
def Prints (r : Suite) (settings : Settings) (base : SheetId) (c : Ancestor) (k : PropertyHead)
    (v : Value) : Prop :=
  ∃ file ∈ r.allLines settings base, ∃ id ∈ r.ids, ∃ lines outer,
    Code.SheetMembers settings (r.sheet id) file lines ∧
    Style.Stands (r.proxyContext settings base) lines (r.sheet id).name (r.sheet id).name c outer ∧
    Property.functionLines settings.frameworkManager? k v <:+:
      c.style.bodyLines (r.proxyContext settings base) outer

/-- The function of every value that is no definition is printed. -/
theorem prints_of_leaf (hwrites : settings.writesBase = true) {c : Ancestor} (hc : c ∈ r.classes)
    {k : PropertyHead} {v : Value} (hk : Property.leaf k v ∈ c.style.properties)
    (hv : v.isGlobal = false) : r.Prints settings base c k v := by
  obtain ⟨id, hid, hc⟩ := mem_classes.1 hc
  rw [← Stylesheet.map_snd_annotated] at hc
  obtain ⟨⟨name, d⟩, hname, hd⟩ := List.mem_map.1 hc
  obtain rfl : d = c := hd
  obtain ⟨file, hfile, lines, outer, hmembers, hstands, -⟩ :=
    exists_stands (fun _ => hwrites) base hname
  have hfunction := Style.function_in_bodyLines (r.proxyContext settings base) outer hk hv
  exact ⟨file, linesOf_subset_allLines hid hfile, id, hid, lines, outer, hmembers, hstands,
    hfunction⟩

/-! ## Ancestors -/

/-- The classes from which a class was marked as an heir are its ancestors. -/
theorem Climb.isAncestor {c : Ancestor} {as : List Ancestor} (h : Climb r whole (c :: as)) :
    ∃ x bs, Style.Heir x bs c.style ∧ as ⊆ bs ∧ ∀ a ∈ bs, r.IsAncestor a c := by
  generalize hl : c :: as = l at h
  induction h generalizing c as with
  | nil => cases hl
  | @cons c x bs rest _ hx hheir hbs hrest ih =>
    cases hl
    refine ⟨x, bs, hheir, hrest.begins.subset, fun a ha => ?_⟩
    cases bs with
    | nil => cases ha
    | cons b bs =>
      obtain ⟨-, ds, -, hsub, hancestors⟩ := ih rfl
      have hderives : r.Derives c b := by
        refine ⟨hbs.subset_classes List.mem_cons_self, ?_⟩
        rw [hheir.inherits_of_fresh hx]
        rfl
      rcases List.mem_cons.1 ha with rfl | ha
      · exact .single hderives
      · exact .head hderives (hancestors a (hsub ha))

/-- A value that is marked as an override has one of its key above it. -/
theorem Climb.exists_overridden {c : Ancestor} {as : List Ancestor}
    (h : Climb r whole (c :: as)) {k : PropertyHead} {v : Value}
    (hk : Property.leaf k v ∈ c.style.properties) (hover : k.isOverride = true) :
    ∃ a, r.IsAncestor a c ∧ a.HasLeaf k.key := by
  obtain ⟨x, bs, hheir, -, hancestors⟩ := h.isAncestor
  rw [hheir.isOverride_of_leaf hk, List.any_eq_true] at hover
  obtain ⟨a, ha, hvalue⟩ := hover
  exact ⟨a, hancestors a ha, Ancestor.hasLeaf_of_hasValue hvalue⟩

theorem IsAncestor.mem_classes {a c : Ancestor} (h : r.IsAncestor a c) : a ∈ r.classes := by
  obtain ⟨b, -, hb⟩ := Relation.TransGen.tail'_iff.1 h
  exact hb.1

/-! ## Targets of redirects -/

/-- What a path leads to is a property of a class, which stands at the names of the path. -/
theorem exists_class_of_target {path : String} {found : SheetId} {p : Property}
    (h : r.target id path = .ok ⟨found, p⟩) :
    ∃ parts x c, RedirectPath.parse? path = some parts ∧ r.find? found parts.style = some x ∧
      ((r.sheet found).classOf x).at? parts.nested.toList = some c ∧
      c.style.property? parts.key = some p := by
  obtain ⟨parts, hparts, hfind⟩ := target_ok.1 h
  obtain ⟨d, -, hproperty⟩ := List.exists_of_findSome?_eq_some hfind
  obtain ⟨q, hq, hqp⟩ := Option.map_eq_some_iff.1 hproperty
  cases hqp
  rw [propertyAt?_eq] at hq
  obtain ⟨x, hx, hqx⟩ := Option.bind_eq_some_iff.1 hq
  unfold propertyIn? at hqx
  split at hqx
  · next nested hnested =>
    obtain ⟨n, hn, hqn⟩ := Option.bind_eq_some_iff.1 hqx
    refine ⟨parts, x, ⟨((r.sheet found).classOf x).path ++ "." ++ n.className, n⟩, hparts, hx, ?_,
      hqn⟩
    rw [hnested, Option.toList_some, Ancestor.at?,
      Ancestor.nested?_eq_some.2 ⟨n, hn, rfl⟩]
    rfl
  · next hnested =>
    refine ⟨parts, x, (r.sheet found).classOf x, hparts, hx, ?_, hqx⟩
    rw [hnested]
    rfl

/-! ## The functions -/

/-- The functions that generated code refers to are printed, but for those of definitions. -/
structure FunctionsPrinted (r : Suite) (settings : Settings) (base : SheetId) : Prop where
  /-- Every value that is no definition has its function in its class. -/
  printed : ∀ c ∈ r.classes, ∀ k v, Property.leaf k v ∈ c.style.properties → v.isGlobal = false →
    r.Prints settings base c k v
  /-- The expression of a redirect calls the function of the value to which its path leads. That
  stands in the class of the style that was found, unless the value is a definition. -/
  called : ∀ id ∈ r.ids, ∀ q ∈ (r.sheet id).redirects, ∃ found ∈ r.ids, ∃ parts x c k v,
    r.target id q.path = .ok ⟨found, .leaf k v⟩ ∧ RedirectPath.parse? q.path = some parts ∧
    r.find? found parts.style = some x ∧
    ((r.sheet found).classOf x).at? parts.nested.toList = some c ∧
    Property.leaf k v ∈ c.style.properties ∧ k.key = parts.key ∧
    (Value.redirect q).toSwift settings.frameworkManager? =
      "mainProxy()." ++ q.path ++ "Property(traitCollection)" ∧
    (r.Prints settings base c k v ∨ v.isGlobal = true)
  /-- What is printed with `override` has a function of the same name in a superclass, unless all
  values that superclasses have under that key, and there are some, are definitions. -/
  overridden : ∀ c ∈ r.classes, ∀ k v, Property.leaf k v ∈ c.style.properties →
    k.isOverride = true →
    (∃ a k' v', r.IsAncestor a c ∧ Property.leaf k' v' ∈ a.style.properties ∧ k'.key = k.key ∧
      r.Prints settings base a k' v') ∨
    (∃ a, r.IsAncestor a c ∧ a.HasLeaf k.key) ∧ ∀ a, r.IsAncestor a c → ∀ k' v',
      Property.leaf k' v' ∈ a.style.properties → k'.key = k.key → v'.isGlobal = true

/-- Every function that generated code refers to is generated, unless it is that of a definition:
code is generated, and in it stand the functions that redirects call and those that are overridden.
Nothing is marked before preparation, as in every suite that is loaded (`Config.fresh_suite`). -/
theorem Prepares.functionsPrinted (h : Prepares settings s l)
    (hd : ∀ t ∈ s.registered, (t.styles.map Style.name).Nodup) (hf : s.Fresh)
    (himported : s.imported = none) (hframework : settings.framework = none)
    (hwrites : settings.writesBase = true) :
    ∃ base files, l.baseId = .ok base ∧
      (l.prepared settings).1.generateAll settings = .ok files ∧
      files.map GeneratedFile.content =
        ((l.prepared settings).1.allLines settings base).map Code.unlines ∧
      FunctionsPrinted (l.prepared settings).1 settings base := by
  obtain ⟨base, files, hbase, hfiles, hcontent⟩ := h.exists_generated
  refine ⟨base, files, hbase, hfiles, hcontent, ?_⟩
  constructor
  case printed => exact fun c hc k v hk hv => prints_of_leaf hwrites hc hk hv
  case called =>
    intro id hid q hq
    obtain ⟨found, k, v, htarget, ⟨hfound, hresolved⟩ | ⟨rfl, -⟩⟩ :=
      h.resolved_redirect hd (h.ids_eq ▸ hid) hq
    · obtain ⟨parts, x, c, hparts, hx, hc, hk⟩ := exists_class_of_target htarget
      have hfound' : found ∈ (l.prepared settings).1.ids := h.ids_eq ▸ hfound
      have hmem := List.mem_of_find?_eq_some hk
      have hkey : (Property.leaf k v).key == parts.key :=
        List.find?_some (a := Property.leaf k v) hk
      refine ⟨found, hfound', parts, x, c, k, v, htarget, hparts, hx, hc, hmem, eq_of_beq hkey,
        Value.toSwift_redirect _ hresolved, ?_⟩
      cases hv : v.isGlobal with
      | true => exact .inr rfl
      | false =>
        refine .inl (prints_of_leaf hwrites ?_ hmem hv)
        exact mem_classes_of_classOf hfound' (mem_of_find? hx).1 (Ancestor.at?_mem_classes hc)
    · -- there is no imported stylesheet
      obtain ⟨hsearched, -⟩ := mem_leaves_of_target htarget
      rcases mem_searched.1 hsearched with rfl | hsup | himp
      · obtain ⟨i, -, hi⟩ := mem_ids.1 hid
        cases hi
      · obtain ⟨i, j, -, -, hi, -⟩ := superclass?_eq_some.1 hsup
        cases hi
      · rw [importedId?, h.kept.imported_eq, h.imported_eq, himported] at himp
        cases himp
  case overridden =>
    intro c hc k v hk hover
    obtain ⟨as, has⟩ := h.exists_climb hd hf himported hframework
      (fun hfalse : False => hfalse.elim) hc
    by_cases hglobal : ∀ a, (l.prepared settings).1.IsAncestor a c → ∀ k' v',
        Property.leaf k' v' ∈ a.style.properties → k'.key = k.key → v'.isGlobal = true
    · exact .inr ⟨has.exists_overridden hk hover, hglobal⟩
    · push Not at hglobal
      obtain ⟨a, ha, k', v', hk', hkey, hv'⟩ := hglobal
      exact .inl ⟨a, k', v', ha, hk', hkey,
        prints_of_leaf hwrites ha.mem_classes hk' (Bool.eq_false_iff.2 hv')⟩

/-! ## Instances -/

/-- A base with a redirect and a style that overrides a value, and a theme whose style overrides it
once more and redirects to the redirect. -/
def brandTheme : Suite :=
  ⟨[⟨"Base",
      [.named "A" [.leaf ⟨"x", false, false⟩ (.int 1),
        .leaf ⟨"y", false, false⟩ (.redirect ⟨"A.x", none⟩)],
        .mk { StyleHead.named "B" with superclass := some "A" }
          [.leaf ⟨"x", false, false⟩ (.int 2)]],
      none, none, false, []⟩,
    ⟨"Brand",
      [.named "B" [.leaf ⟨"x", false, false⟩ (.int 3),
        .leaf ⟨"z", false, false⟩ (.redirect ⟨"A.y", none⟩)]],
      none, some "Base", false, []⟩],
    none, none⟩

theorem prepares_brandTheme :
    Prepares .standard brandTheme { brandTheme with base? := some 0 } :=
  ⟨rfl, by cbv⟩

/-- Each function that they call or override is printed. -/
theorem functionsPrinted_brandTheme :
    ∃ base files, ({ brandTheme with base? := some 0 } : Suite).baseId = .ok base ∧
      ({ brandTheme with base? := some 0 }.prepared .standard).1.generateAll .standard =
        .ok files ∧
      files.map GeneratedFile.content =
        (({ brandTheme with base? := some 0 }.prepared .standard).1.allLines .standard base).map
          Code.unlines ∧
      FunctionsPrinted ({ brandTheme with base? := some 0 }.prepared .standard).1 .standard base :=
  Prepares.functionsPrinted prepares_brandTheme (by decide) (by decide) rfl rfl rfl

/-- Some line of the body of a class in the class of a base has the head of a function. -/
def declaresFunction (key : String) (x : Style) : Bool :=
  (x.bodyLines ⟨.standard, "Base"⟩ "Base").any fun line =>
    Text.containsText ("func " ++ key ++ "Property(").toList line.toList

/-- A base with a definition, a redirect to it, and a style with a value under its key. -/
def usedDefinition : Suite :=
  ⟨[⟨"Base",
      [.named "A" [.leaf ⟨"Mode", false, false⟩ modeDefinition,
        .leaf ⟨"b", false, false⟩ (.redirect ⟨"A.Mode", none⟩)],
        .mk { StyleHead.named "B" with superclass := some "A" }
          [.leaf ⟨"Mode", false, false⟩ (.int 1)]],
      none, none, false, []⟩],
    none, none⟩

/-- The style of the definition as it is prepared. -/
def definingStyle : Style :=
  .mk { StyleHead.named "A" with isOverridable := true }
    [.leaf ⟨"Mode", false, true⟩ modeDefinition,
      .leaf ⟨"b", false, true⟩ (.redirect ⟨"A.Mode", some ⟨"mainProxy().A.Mode", "Mode"⟩⟩)]

/-- The style of the value under the key of the definition as it is prepared. -/
def redefiningStyle : Style :=
  .mk { StyleHead.named "B" with
      superclass := some "A", isOverridable := true, inherits := some "Base.AAppearanceProxy" }
    [.leaf ⟨"Mode", true, true⟩ (.int 1)]

theorem prepared_usedDefinition :
    ({ usedDefinition with base? := some 0 }.prepared .standard).1 =
      ⟨[⟨"Base", [definingStyle, redefiningStyle], none, none, false, []⟩], none, some 0⟩ := by
  cbv

theorem declaresFunction_definingStyle : declaresFunction "Mode" definingStyle = false := by
  rw [declaresFunction, definingStyle, Style.bodyLines, Style.properties_mk, Style.memberLines,
    Style.memberLines, Style.memberLines]
  decide +kernel

theorem declaresFunction_redefiningStyle : declaresFunction "Mode" redefiningStyle = true := by
  rw [declaresFunction, redefiningStyle, Style.bodyLines, Style.properties_mk, Style.memberLines,
    Style.memberLines]
  decide +kernel

/-- The redefining class has one ancestor. -/
theorem eq_of_isAncestor_usedDefinition {a : Ancestor}
    (h : ({ usedDefinition with base? := some 0 }.prepared .standard).1.IsAncestor a
      ⟨"Base.BAppearanceProxy", redefiningStyle⟩) :
    a = ⟨"Base.AAppearanceProxy", definingStyle⟩ := by
  induction h with
  | single h =>
    obtain ⟨hmem, hpath⟩ := h
    rw [prepared_usedDefinition] at hmem
    rcases List.mem_cons.1 hmem with rfl | hmem
    · rfl
    · rw [List.mem_singleton.1 hmem] at hpath
      exact absurd (Option.some.inj hpath) (by decide)
  | tail _ h ih =>
    rw [ih] at h
    cases h.2

/-- A base with two styles of a name, and a style that extends the one that counts and redirects to
it. -/
def doubledStyle : Suite :=
  ⟨[⟨"Base",
      [.named "B" [.leaf ⟨"x", false, false⟩ (.int 1)],
        .named "B" [.leaf ⟨"y", false, false⟩ (.int 2)],
        .mk { StyleHead.named "A" with superclass := some "B" }
          [.leaf ⟨"z", false, false⟩ (.redirect ⟨"B.y", none⟩)]],
      none, none, false, []⟩],
    none, none⟩

/-- The style that extends another one as it is prepared. -/
def extendingStyle : Style :=
  .mk { StyleHead.named "A" with
      superclass := some "B", isOverridable := true, inherits := some "Base.BAppearanceProxy" }
    [.leaf ⟨"z", false, true⟩ (.redirect ⟨"B.y", some ⟨"mainProxy().B.y", "Int"⟩⟩)]

/-- The one of the two styles that stays, which is not the one that counted. -/
def stayingStyle : Style :=
  .mk { StyleHead.named "B" with isOverridable := true } [.leaf ⟨"x", false, true⟩ (.int 1)]

theorem prepared_doubledStyle :
    ({ doubledStyle with base? := some 0 }.prepared .standard).1 =
      ⟨[⟨"Base", [extendingStyle, stayingStyle], none, none, false, []⟩], none, some 0⟩ := by
  cbv

theorem declaresFunction_stayingStyle : declaresFunction "y" stayingStyle = false := by
  rw [declaresFunction, stayingStyle, Style.bodyLines, Style.properties_mk, Style.memberLines,
    Style.memberLines]
  decide +kernel

/-- A redirect to a definition calls a function that its class does not have, and a value under the
key of an inherited definition overrides a function that no superclass has. A redirect to one of two
styles of a name calls a function that the other one, which stays, does not have. -/
theorem missing_functions :
    (Prepares .standard usedDefinition { usedDefinition with base? := some 0 } ∧
      (∃ q ∈ (({ usedDefinition with base? := some 0 }.prepared .standard).1.sheet
          (.registered 0)).redirects,
        (Value.redirect q).toSwift none = "mainProxy().A.ModeProperty(traitCollection)" ∧
        ∃ x, ({ usedDefinition with base? := some 0 }.prepared .standard).1.find? (.registered 0)
          "A" = some x ∧ declaresFunction "Mode" x = false) ∧
      ∃ c ∈ ({ usedDefinition with base? := some 0 }.prepared .standard).1.classes,
        declaresFunction "Mode" c.style = true ∧
        (∃ k v, Property.leaf k v ∈ c.style.properties ∧ k.key = "Mode" ∧ k.isOverride = true) ∧
        ∀ a, ({ usedDefinition with base? := some 0 }.prepared .standard).1.IsAncestor a c →
          declaresFunction "Mode" a.style = false) ∧
    Prepares .standard doubledStyle { doubledStyle with base? := some 0 } ∧
      ∃ q ∈ (({ doubledStyle with base? := some 0 }.prepared .standard).1.sheet
          (.registered 0)).redirects,
        (Value.redirect q).toSwift none = "mainProxy().B.yProperty(traitCollection)" ∧
        ∃ x, ({ doubledStyle with base? := some 0 }.prepared .standard).1.find? (.registered 0)
          "B" = some x ∧ declaresFunction "y" x = false := by
  refine ⟨⟨⟨rfl, by cbv⟩, ⟨⟨"A.Mode", some ⟨"mainProxy().A.Mode", "Mode"⟩⟩, ?_,
    (Value.toSwift_redirect none rfl).trans (by decide), definingStyle, ?_,
    declaresFunction_definingStyle⟩, ⟨"Base.BAppearanceProxy", redefiningStyle⟩, ?_,
    declaresFunction_redefiningStyle, ⟨_, _, List.mem_singleton_self _, rfl, rfl⟩, fun a ha => ?_⟩,
    ⟨rfl, by cbv⟩, ⟨"B.y", some ⟨"mainProxy().B.y", "Int"⟩⟩, ?_,
    (Value.toSwift_redirect none rfl).trans (by decide), stayingStyle, ?_,
    declaresFunction_stayingStyle⟩
  · rw [prepared_usedDefinition]
    exact List.mem_singleton_self _
  · rw [prepared_usedDefinition]
    rfl
  · rw [prepared_usedDefinition]
    exact .tail _ (.head _)
  · rw [eq_of_isAncestor_usedDefinition ha]
    exact declaresFunction_definingStyle
  · rw [prepared_doubledStyle]
    exact List.mem_singleton_self _
  · rw [prepared_doubledStyle]
    rfl

end Suite

end Appearance
