import Appearance.Proofs.Definitions
import Appearance.Proofs.Frame
import Appearance.Proofs.LinkedSuites
import Appearance.Proofs.KeyOrder

/-!
# Which types files declare

The file of the base declares the types of all its definitions, and the text styles unless a
framework has them; the file of another stylesheet declares those of its definitions whose
declarations the base lacks (`Stylesheet.newGlobals`). Reading the lines of the files gives these
types and no others (`Suite.typesIn_mainLines`). Preparation neither adds nor loses definitions
(`Suite.Prepares.sheet_globals_perm`).

So every type that is defined is declared somewhere, but two definitions of one type are declared
twice, unless one stands in the base and the other one in another stylesheet with the same members.

Lines are read by `Code.typesIn`, which knows how a declaration begins and where the namespace
does, so the result is about the files that are written and not about the function that writes
them. Each part of a file is read on its own, and those that declare no type are shown to be passed
over. The order of definitions does not matter, so preparation, which sorts, is a permutation here.
-/

namespace Appearance

open Appearance.Text

/-! ## Definitions in styles -/

namespace Value

/-- A definition is the same value with and without resolved redirects. -/
theorem eq_of_plain_of_isGlobal {u v : Value} (h : u.plain = v.plain)
    (hv : v.isGlobal = true) : u = v := by
  have hliteral : ∀ w : Value, w.isGlobal = true → w.isLiteral = true := by
    intro w hw
    cases w <;> first | rfl | cases hw
  have hu : u.isLiteral = true := by
    rw [← isLiteral_plain, h, isLiteral_plain]
    exact hliteral v hv
  rw [← plain_of_isLiteral hu, h, plain_of_isLiteral (hliteral v hv)]

theorem isGlobal_congr {u v : Value} (h : u.plain = v.plain) : u.isGlobal = v.isGlobal := by
  by_cases hv : v.isGlobal = true
  · rw [eq_of_plain_of_isGlobal h hv]
  · by_cases hu : u.isGlobal = true
    · rw [eq_of_plain_of_isGlobal h.symm hu]
    · rw [Bool.eq_false_of_not_eq_true hu, Bool.eq_false_of_not_eq_true hv]

end Value

/-- The global values of a property, at every depth. -/
def Property.globals : Property → List (String × Value)
  | .leaf head value => if value.isGlobal then [(head.key, value)] else []
  | .nested _ style => style.globals

namespace Style

variable {p : Style → Prop}

theorem globals_mk (h : StyleHead) (ps : List Property) :
    (mk h ps).globals = ps.flatMap Property.globals := by
  rw [globals]
  induction ps with
  | nil => rfl
  | cons q ps ih =>
    cases q with
    | leaf k v =>
      rw [globalsOf, ih, List.flatMap_cons, Property.globals]
      split <;> rfl
    | nested k n => rw [globalsOf, ih, List.flatMap_cons, Property.globals]

/-- A style that grows by styles without definitions has the definitions that it had. -/
theorem GrowsBy.globals_perm (hp : ∀ x : Style, p x → x.globals = []) {s t : Style}
    (h : s.GrowsBy p t) : t.globals.Perm s.globals := by
  induction s using Style.induction generalizing t with
  | mk head ps ih =>
    obtain ⟨k, qs⟩ := t
    rw [globals_mk, globals_mk]
    refine Grown.flatMap_perm (growsBy_mk.1 h).2 (fun a ha b hab => ?_) ?_
    · cases hab with
      | leaf hkey hvalue =>
        rw [Property.globals, Property.globals, Value.isGlobal_congr hvalue, hkey]
        split
        · next hv => rw [Value.eq_of_plain_of_isGlobal hvalue hv]
        · exact .refl _
      | nested _ hstyle => exact ih _ _ ha hstyle
    · rintro q ⟨x, hx, hpx⟩
      obtain ⟨k, rfl⟩ := Property.style?_eq_some.1 hx
      exact hp x hpx

/-- A shadow defines nothing. -/
theorem IsShadow.globals_eq {s : Style} (h : s.IsShadow) : s.globals = [] := by
  induction s using Style.induction with
  | mk head ps ih =>
    rw [globals_mk]
    refine List.flatMap_eq_nil_iff.2 fun q hq => ?_
    obtain ⟨x, hx, hshadow⟩ := (isShadow_mk.1 h).2 q hq
    obtain ⟨k, rfl⟩ := Property.style?_eq_some.1 hx
    exact ih k x hq hshadow

end Style

/-! ## The namespace in files -/

namespace Stylesheet

/-- The stylesheet has a definition with the declaration of the given one. -/
def declares (s : Stylesheet) (objc : Bool) (v : Value) : Bool :=
  s.globals.any fun w => w.declarationLines? ⟨objc, false⟩ == v.declarationLines? ⟨objc, false⟩

/-- The global values whose declarations are not among those of the base. -/
def newGlobals (s : Stylesheet) (objc : Bool) (base : Stylesheet) : List Value :=
  s.globals.filter (!base.declares objc ·)

/-- The names in the definitions of the stylesheet can be told from the text around them. -/
def IsLegible (s : Stylesheet) : Prop := ∀ v ∈ s.globals, v.IsLegible

/-- A stylesheet that grows by shadows has the definitions that it had. -/
theorem GrowsBy.globals_perm {p : Style → Prop} (hp : ∀ x : Style, p x → x.globals = [])
    {t u : Stylesheet} (h : t.GrowsBy p u) : u.globals.Perm t.globals := by
  have hperm : ∀ x y : Style, x.GrowsBy p y → y.globals.Perm x.globals := fun _ _ =>
    Style.GrowsBy.globals_perm hp
  have hstyles := h.styles.flatMap_perm (fun x _ => hperm x) hp
  have hanimator := h.animator.flatMap_perm (fun x _ => hperm x) hp
  rw [globals, globals]
  refine List.Perm.map _
    ((List.mergeSort_perm _ _).trans (.trans ?_ (List.mergeSort_perm _ _).symm))
  rw [allStyles, allStyles, List.flatMap_append, List.flatMap_append]
  exact hstyles.append hanimator

theorem IsLegible.of_perm {t u : Stylesheet} (h : t.IsLegible) (hperm : u.globals.Perm t.globals) :
    u.IsLegible := fun v hv => h v (hperm.mem_iff.1 hv)

/-- What a theme defines beside the base does not depend on the order of definitions. -/
theorem newGlobals_perm (objc : Bool) {base base' t u : Stylesheet}
    (hbase : base'.globals.Perm base.globals) (h : u.globals.Perm t.globals) :
    (u.newGlobals objc base').Perm (t.newGlobals objc base) := by
  have hdeclares : base'.declares objc = base.declares objc := by
    funext v
    exact hbase.any_eq
  rw [newGlobals, newGlobals, hdeclares]
  exact h.filter _

end Stylesheet

namespace Code

/-- The definitions in the namespace declare their types. -/
theorem typesIn_namespaceLines {head : String} (hhead : opening head ∈ namespaceOpenings)
    (style : Value.DeclarationStyle) {vs : List Value} (h : ∀ v ∈ vs, v.IsLegible)
    (rest : List String) :
    typesIn false (namespaceLines head
        (vs.filterMap fun v => (v.declarationLines? style).map unlines) ++ rest) =
      vs.filterMap Value.definedType? ++ typesIn false rest := by
  have hempty : Inert [""] := by decide
  have hlines := Value.filterMap_typeOf?_declarations style h
  rw [namespaceLines, ← List.singleton_append, List.append_assoc, typesIn_inert hempty,
    typesIn_paragraph hhead, hlines]

/-- The base declares the types of all its definitions. -/
theorem typesIn_baseGlobalLines (objc overFramework : Bool) {sheet : Stylesheet}
    (h : sheet.IsLegible) (rest : List String) :
    typesIn false (baseGlobalLines objc overFramework sheet ++ rest) =
      sheet.globals.filterMap Value.definedType? ++ typesIn false rest := by
  have hhead : opening (if overFramework then namespaceExtension else namespaceHead objc) ∈
      namespaceOpenings := by
    cases overFramework <;> cases objc <;> decide
  exact typesIn_namespaceLines hhead _ h rest

/-- A legible definition has its text among the declarations of a stylesheet as soon as it has its
declaration there. -/
theorem unlines_mem_globalTexts {objc : Bool} {base : Stylesheet} (hbase : base.IsLegible)
    {v : Value} (hv : v.IsLegible) {ls : List String}
    (hls : v.declarationLines? ⟨objc, false⟩ = some ls) :
    unlines ls ∈ globalTexts ⟨objc, false⟩ base ↔ base.declares objc v = true := by
  obtain ⟨-, -, -, honeLine⟩ := hv.declares hls
  simp only [globalTexts, List.mem_filterMap, Option.map_eq_some_iff, Stylesheet.declares,
    List.any_eq_true, beq_iff_eq, hls]
  refine exists_congr fun w => and_congr_right fun hw => ⟨?_, fun h => ⟨ls, h, rfl⟩⟩
  rintro ⟨ls', hls', htext⟩
  obtain ⟨-, -, -, honeLine'⟩ := (hbase w hw).declares hls'
  rw [hls', unlines_injective honeLine' honeLine htext]

/-- The texts that the base lacks are those of the new definitions. -/
theorem filter_globalTexts (objc : Bool) {base sheet : Stylesheet} (hbase : base.IsLegible)
    (hsheet : sheet.IsLegible) :
    (globalTexts ⟨objc, false⟩ sheet).filter (!(globalTexts ⟨objc, false⟩ base).contains ·) =
      (sheet.newGlobals objc base).filterMap fun v =>
        (v.declarationLines? ⟨objc, false⟩).map unlines := by
  rw [globalTexts.eq_1 _ sheet, List.filter_filterMap, Stylesheet.newGlobals,
    List.filterMap_filter]
  refine List.filterMap_congr fun v hv => ?_
  cases hls : v.declarationLines? ⟨objc, false⟩ with
  | none => simp
  | some ls =>
    have hmem : (globalTexts ⟨objc, false⟩ base).contains (unlines ls) = base.declares objc v := by
      rw [Bool.eq_iff_iff, List.contains_iff_mem]
      exact unlines_mem_globalTexts hbase (hsheet v hv) hls
    rw [Option.map_some, Option.filter_some, hmem]

/-- A theme declares the types of those definitions that the base does not write. -/
theorem typesIn_themeGlobalLines (objc : Bool) {base sheet : Stylesheet} (hbase : base.IsLegible)
    (hsheet : sheet.IsLegible) (rest : List String) :
    typesIn false (themeGlobalLines objc base sheet ++ rest) =
      (sheet.newGlobals objc base).filterMap Value.definedType? ++ typesIn false rest := by
  have hnew : ∀ v ∈ sheet.newGlobals objc base, v.IsLegible := fun v hv =>
    hsheet v (List.mem_filter.1 hv).1
  have hhead : opening namespaceExtension ∈ namespaceOpenings := by decide
  have hread := typesIn_namespaceLines hhead ⟨objc, false⟩ hnew rest
  rw [themeGlobalLines, filter_globalTexts objc hbase hsheet]
  split
  case isTrue hnone =>
    have hnil : (sheet.newGlobals objc base).filterMap Value.definedType? = [] := by
      refine List.filterMap_eq_nil_iff.2 fun v hv => ?_
      have := List.filterMap_eq_nil_iff.1 (List.isEmpty_iff.1 hnone) v hv
      exact Value.declarationLines?_eq_none.1 (Option.map_eq_none_iff.1 this)
    rw [hnil]
    rfl
  case isFalse => exact hread

end Code

/-! ## Files -/

namespace Suite

open Code

/-- The lines of the file of a style. -/
def styleFileLines (s : Suite) (settings : Settings) (base id : SheetId) (style : Style) :
    List String :=
  headerLines settings ++ "" ::
    block ("extension " ++ Code.qualified settings (s.sheet id).name)
      (s.styleLines settings base id [style])

/-- The lines of the files of a stylesheet, file by file. -/
def linesOf (s : Suite) (settings : Settings) (base id : SheetId) : List (List String) :=
  let sheet := s.sheet id
  if sheet.isBase && !settings.writesBase then []
  else
    let inside := if settings.splitsStyles then [] else sheet.styles
    s.mainLines settings base id (inside ++ sheet.animator.toList) ::
      if settings.splitsStyles then sheet.styles.map (s.styleFileLines settings base id) else []

/-- The types that the files of a stylesheet declare in the namespace. -/
def typesOf (s : Suite) (settings : Settings) (base id : SheetId) : List String :=
  if (s.sheet id).isBase then
    (if settings.framework.isSome then [] else [Font.textStyleEnum]) ++
      (s.sheet id).globals.filterMap Value.definedType?
  else ((s.sheet id).newGlobals settings.objc (s.sheet base)).filterMap Value.definedType?

variable {s l : Suite} {settings : Settings} {base id : SheetId}

/-- Each file is written line by line. -/
theorem content_filesOf (s : Suite) (settings : Settings) (base id : SheetId) :
    (s.filesOf settings base id).map GeneratedFile.content =
      (s.linesOf settings base id).map unlines := by
  unfold filesOf linesOf
  dsimp only
  split
  · rfl
  · rw [List.map_cons, List.map_cons]
    split
    · rw [List.map_map, List.map_map]
      rfl
    · rfl

theorem inert_styleFileLines (s : Suite) (settings : Settings) (base id : SheetId)
    (style : Style) : Inert (s.styleFileLines settings base id style) := by
  simp only [styleFileLines, inert_append, inert_cons, inert_block, opening_append]
  exact ⟨inert_headerLines settings, by decide, not_mem_of_append _ (by decide) _⟩

/-- What all stylesheets share declares the text styles, unless a framework has them. -/
theorem typesIn_sharedLines (sheet : Stylesheet) (rest : List String) :
    typesIn false (s.sharedLines settings base sheet ++ rest) =
      (if settings.framework.isSome then [] else [Font.textStyleEnum]) ++
        typesIn false rest := by
  have hempty : Inert [""] := by decide
  have hprotocol : Inert (if settings.declaresProtocol then protocolLines else []) := by
    split
    · exact inert_protocolLines
    · exact inert_nil
  have hanimation : Inert (if s.registered.any (·.animator.isSome) then
      animationLines (sheet.animations.map fun a => Text.firstLower a.name) else []) := by
    split
    · exact inert_animationLines _
    · exact inert_nil
  have hmanager := inert_managerLines settings (s.baseType settings base)
  simp only [sharedLines]
  rw [← List.singleton_append, List.append_assoc, List.append_assoc, typesIn_inert hempty]
  split
  · rw [List.nil_append, typesIn_inert hmanager, List.nil_append]
  · rw [List.append_assoc, List.append_assoc, typesIn_inert hprotocol, typesIn_fontLines,
      typesIn_inert hanimation, typesIn_inert hmanager, List.singleton_append]

/-- A stylesheet declares its types and no others. -/
theorem typesIn_declarationLines (hbase : (s.sheet base).IsLegible)
    (hid : (s.sheet id).IsLegible) (rest : List String) :
    typesIn false (s.declarationLines settings base id ++ rest) =
      s.typesOf settings base id ++ typesIn false rest := by
  rw [declarationLines, typesOf]
  split
  · rw [List.append_assoc, typesIn_sharedLines, typesIn_baseGlobalLines _ _ hid, List.append_assoc]
  · have hthemes : Inert (if (s.themeIds base).head? = some id then
        themeLines settings (s.baseType settings base) (s.themes settings base) else []) := by
      split
      · exact inert_themeLines settings _ _
      · exact inert_nil
    rw [List.append_assoc, typesIn_inert hthemes, typesIn_themeGlobalLines _ hbase hid]

/-- Reading the file of a stylesheet gives the types that it declares. -/
theorem typesIn_mainLines (hbase : (s.sheet base).IsLegible) (hid : (s.sheet id).IsLegible)
    (styles : List Style) :
    typesIn false (s.mainLines settings base id styles) = s.typesOf settings base id := by
  have hclasses : Inert (enclosingLines settings (s.sheet id).isBase ++
      sheetClassLines settings (s.sheet id) (s.styleLines settings base id styles) ++
      enclosingEnd settings ++
      viewExtensionLines ⟨s.baseType settings base, settings.manager ++ ".stylesheet(" ++
        s.baseType settings base ++ ".shared())"⟩ (s.sheet id)) := by
    simp only [inert_append]
    exact ⟨⟨⟨inert_enclosingLines settings _, inert_sheetClassLines settings _ _⟩,
      inert_enclosingEnd settings⟩, inert_viewExtensionLines _ _⟩
  have hread := typesIn_inert hclasses []
  simp only [List.append_assoc, List.append_nil] at hread
  simp only [mainLines, List.append_assoc]
  rw [typesIn_inert (inert_headerLines settings), typesIn_declarationLines hbase hid, hread]
  exact List.append_nil _

/-- The types that the files of a stylesheet declare, if the base gets a file. -/
theorem flatMap_typesIn_linesOf (hwrites : settings.writesBase = true)
    (hbase : (s.sheet base).IsLegible) (hid : (s.sheet id).IsLegible) :
    (s.linesOf settings base id).flatMap (typesIn false) = s.typesOf settings base id := by
  have hstyles : ∀ styles : List Style,
      (styles.map (s.styleFileLines settings base id)).flatMap (typesIn false) = [] := by
    intro styles
    refine List.flatMap_eq_nil_iff.2 fun ls hls => ?_
    obtain ⟨style, -, rfl⟩ := List.mem_map.1 hls
    have hread := typesIn_inert (s.inert_styleFileLines settings base id style) []
    rwa [List.append_nil] at hread
  rw [linesOf]
  simp only [hwrites, Bool.not_true, Bool.and_false]
  rw [if_neg nofun, List.flatMap_cons, typesIn_mainLines hbase hid]
  split
  · rw [hstyles, List.append_nil]
  · exact List.append_nil _

/-! ## All files -/

/-- The types that the files of all stylesheets declare in the namespace, the base first. -/
def declaredTypes (s : Suite) (settings : Settings) (base : SheetId) : List String :=
  (base :: s.ids.filter (· != base)).flatMap (s.typesOf settings base)

/-- The lines of the files of all stylesheets, the base first. -/
def allLines (s : Suite) (settings : Settings) (base : SheetId) : List (List String) :=
  (base :: s.ids.filter (· != base)).flatMap (s.linesOf settings base)

/-- Preparation leaves the definitions of a stylesheet, and whether it is the base. -/
theorem Prepares.sheet_globals_perm (h : Prepares settings s l)
    (hd : ∀ t ∈ s.registered, (t.styles.map Style.name).Nodup) (hid : id ∈ l.ids) :
    ((l.prepared settings).1.sheet id).isBase = (l.sheet id).isBase ∧
      ((l.prepared settings).1.sheet id).globals.Perm (l.sheet id).globals := by
  have hgrown : (l.sheet id).GrowsBy Style.IsShadow ((l.prepared settings).1.sheet id) := by
    refine h.growsBy_of_shadowedIn hd hid (fun _ _ => Style.IsShadow.growsBy) ?_
    rw [shadowedIn]
    split
    · exact Stylesheet.growsBy_shadowing _ _
    · exact .refl _
  refine ⟨?_, hgrown.globals_perm fun _ => Style.IsShadow.globals_eq⟩
  rw [hgrown.eq]
  rfl

theorem Prepares.isBase_eq (h : Prepares settings s l)
    (hd : ∀ t ∈ s.registered, (t.styles.map Style.name).Nodup) (hid : id ∈ l.ids) :
    ((l.prepared settings).1.sheet id).isBase = (l.sheet id).isBase :=
  (h.sheet_globals_perm hd hid).1

/-- Definitions with one declaration define one type. -/
theorem definedType?_congr {v w : Value} (hv : v.IsLegible) (hw : w.IsLegible)
    {style : Value.DeclarationStyle} (h : w.declarationLines? style = v.declarationLines? style) :
    w.definedType? = v.definedType? := by
  cases hls : v.declarationLines? style with
  | none =>
    rw [Value.declarationLines?_eq_none.1 hls, Value.declarationLines?_eq_none.1 (h.trans hls)]
  | some ls =>
    obtain ⟨type, htype, hdeclares, -⟩ := hv.declares hls
    obtain ⟨type', htype', hdeclares', -⟩ := hw.declares (h.trans hls)
    have hsame := hdeclares'.filterMap_indent.symm.trans hdeclares.filterMap_indent
    rw [htype, htype', (List.cons.inj hsame).1]

/-- A stylesheet declares the text styles as the base, and what it defines itself. -/
theorem mem_typesOf {type : String} :
    type ∈ s.typesOf settings base id ↔
      ((s.sheet id).isBase = true ∧ settings.framework = none ∧ type = Font.textStyleEnum) ∨
        ∃ v ∈ (s.sheet id).globals, v.definedType? = some type ∧
          ((s.sheet id).isBase = true ∨ (s.sheet base).declares settings.objc v = false) := by
  have hframework : (type ∈ if settings.framework.isSome then [] else [Font.textStyleEnum]) ↔
      settings.framework = none ∧ type = Font.textStyleEnum := by
    cases settings.framework <;> simp
  rw [typesOf]
  split
  · next hbase => simp [hbase, hframework]
  · next hbase =>
    simp only [hbase, Bool.false_eq_true, false_and, false_or, Stylesheet.newGlobals,
      List.mem_filterMap, List.mem_filter, and_assoc]
    refine exists_congr fun v => and_congr_right fun _ => ?_
    rw [and_comm, Bool.not_eq_true']

/-- A type is declared if it is that of the text styles or defined somewhere. -/
theorem BasedOn.mem_declaredTypes (hb : BasedOn s base)
    (hlegible : ∀ t ∈ s.registered, t.IsLegible) {type : String} :
    type ∈ s.declaredTypes settings base ↔
      (settings.framework = none ∧ type = Font.textStyleEnum) ∨
        ∃ t ∈ s.registered, ∃ v ∈ t.globals, v.definedType? = some type := by
  have hmem : ∀ id, id ∈ base :: s.ids.filter (· != base) ↔ id ∈ s.ids := fun id => by
    rw [hb.mem_order, mem_ids]
  have hbase : base ∈ s.ids := (hmem base).1 List.mem_cons_self
  have hisBase : (s.sheet base).isBase = true := (hb.isBase_iff base hbase).2 rfl
  simp only [declaredTypes, List.mem_flatMap, hmem, mem_typesOf]
  constructor
  · rintro ⟨id, hid, ⟨-, hframework, htype⟩ | ⟨v, hv, htype, -⟩⟩
    · exact .inl ⟨hframework, htype⟩
    · exact .inr ⟨_, sheet_mem hid, v, hv, htype⟩
  · rintro (⟨hframework, htype⟩ | ⟨t, ht, v, hv, htype⟩)
    · exact ⟨base, hbase, .inl ⟨hisBase, hframework, htype⟩⟩
    · obtain ⟨id, hid, rfl⟩ := exists_id_of_mem ht
      cases hdeclares : (s.sheet base).declares settings.objc v with
      | false => exact ⟨id, hid, .inr ⟨v, hv, htype, .inr hdeclares⟩⟩
      | true =>
        obtain ⟨w, hw, hsame⟩ := List.any_eq_true.1 hdeclares
        have htypes := definedType?_congr (hlegible _ ht v hv)
          (hlegible _ (sheet_mem hbase) w hw) (beq_iff_eq.1 hsame)
        exact ⟨base, hbase, .inr ⟨w, hw, htypes.trans htype, .inl hisBase⟩⟩

/-- Definitions do not compete for a type: no stylesheet defines one twice, stylesheets that define
the same one have the declaration of the base, and that of the text styles is left to them. -/
structure TypesAgree (s : Suite) (settings : Settings) (base : SheetId) : Prop where
  within : ∀ id ∈ s.ids, ((s.sheet id).globals.filterMap Value.definedType?).Nodup
  across : ∀ id ∈ s.ids, ∀ id' ∈ s.ids, id ≠ id' → ∀ v ∈ (s.sheet id).globals,
    ∀ w ∈ (s.sheet id').globals, v.definedType? = w.definedType? →
      (s.sheet base).declares settings.objc v = true
  reserved : settings.framework = none → ∀ id ∈ s.ids, ∀ v ∈ (s.sheet id).globals,
    v.definedType? ≠ some Font.textStyleEnum

/-- Where definitions agree, no type is declared twice. -/
theorem BasedOn.nodup_declaredTypes (hb : BasedOn s base) (h : s.TypesAgree settings base) :
    (s.declaredTypes settings base).Nodup := by
  have hmem : ∀ id, id ∈ base :: s.ids.filter (· != base) ↔ id ∈ s.ids := fun id => by
    rw [hb.mem_order, mem_ids]
  rw [declaredTypes, List.nodup_flatMap]
  refine ⟨fun id hid => ?_, hb.once.imp_of_mem fun {id id'} hid hid' hne type htype htype' => ?_⟩
  · have hid := (hmem id).1 hid
    rw [typesOf]
    split
    · split
      · exact h.within id hid
      · next hframework =>
        refine List.nodup_cons.2 ⟨fun hmem => ?_, h.within id hid⟩
        obtain ⟨v, hv, htype⟩ := List.mem_filterMap.1 hmem
        exact h.reserved (by simpa using hframework) id hid v hv htype
    · exact (h.within id hid).sublist (List.filter_sublist.filterMap _)
  · have hid := (hmem id).1 hid
    have hid' := (hmem id').1 hid'
    rw [mem_typesOf, hb.isBase_iff id hid] at htype
    rw [mem_typesOf, hb.isBase_iff id' hid'] at htype'
    -- two definitions of one type are those of the base, and not both stylesheets are the base
    rcases htype with ⟨heq, hframework, rfl⟩ | ⟨v, hv, htype, hplace⟩ <;>
      rcases htype' with ⟨heq', hframework', htext⟩ | ⟨w, hw, htype', hplace'⟩
    · exact hne (heq.trans heq'.symm)
    · exact h.reserved hframework id' hid' w hw htype'
    · exact h.reserved hframework' id hid v hv (htext ▸ htype)
    · have hdeclared := h.across id hid id' hid' hne v hv w hw (htype.trans htype'.symm)
      have hdeclared' :=
        h.across id' hid' id hid hne.symm w hw v hv (htype'.trans htype.symm)
      rw [hdeclared] at hplace
      rw [hdeclared'] at hplace'
      rcases hplace with heq | hfalse
      · rcases hplace' with heq' | hfalse'
        · exact hne (heq.trans heq'.symm)
        · cases hfalse'
      · cases hfalse

/-- The types of a prepared stylesheet are those of the declared one. -/
theorem Prepares.typesOf_perm (h : Prepares settings s l)
    (hd : ∀ t ∈ s.registered, (t.styles.map Style.name).Nodup) (hbase : base ∈ l.ids)
    (hid : id ∈ l.ids) :
    ((l.prepared settings).1.typesOf settings base id).Perm (l.typesOf settings base id) := by
  obtain ⟨-, hglobals⟩ := h.sheet_globals_perm hd hbase
  obtain ⟨hisBase, hglobals'⟩ := h.sheet_globals_perm hd hid
  rw [typesOf, typesOf, hisBase]
  split
  · exact (hglobals'.filterMap _).append_left _
  · exact (Stylesheet.newGlobals_perm _ hglobals hglobals').filterMap _

/-- The types that are read in all files. -/
theorem Prepares.typesIn_allLines_perm (h : Prepares settings s l)
    (hd : ∀ t ∈ s.registered, (t.styles.map Style.name).Nodup)
    (hlegible : ∀ t ∈ s.registered, t.IsLegible) (hwrites : settings.writesBase = true)
    (hbase : base ∈ l.ids) :
    (((l.prepared settings).1.allLines settings base).flatMap (typesIn false)).Perm
      (l.declaredTypes settings base) := by
  have hmem : ∀ id ∈ base :: l.ids.filter (· != base), id ∈ l.ids :=
    List.forall_mem_cons.2 ⟨hbase, fun id hid => (List.mem_filter.1 hid).1⟩
  have hready : ∀ id ∈ l.ids, ((l.prepared settings).1.sheet id).IsLegible := fun id hid =>
    (hlegible _ (linked_registered h.linked ▸ sheet_mem hid)).of_perm
      (h.sheet_globals_perm hd hid).2
  rw [allLines, declaredTypes, List.flatMap_assoc, h.ids_eq]
  refine List.Perm.flatMap_left _ fun id hid => ?_
  rw [flatMap_typesIn_linesOf hwrites (hready _ hbase) (hready id (hmem id hid))]
  exact h.typesOf_perm hd hbase (hmem id hid)

/-- The files of all stylesheets with their lines. -/
theorem exists_generateAll {b : Nat} (hb : s.base? = some b) (settings : Settings) :
    ∃ files, s.generateAll settings = .ok files ∧
      files.map GeneratedFile.content =
        (s.allLines settings (.registered b)).map unlines := by
  refine ⟨_, generateAll_eq hb settings, ?_⟩
  rw [allLines, ← List.flatMap_def, List.map_flatMap, List.map_flatMap]
  simp only [content_filesOf]

/-- The files of a prepared suite declare, all together, the types of the definitions of the base,
those of the definitions of the other stylesheets whose declarations the base lacks, and the text
styles if there is no framework, each as often as it stands among these. So a type is declared
somewhere if and only if it is that of the text styles or a value of some property defines it, and
where definitions agree it is declared once. -/
theorem Prepares.declares_types (h : Prepares settings s l)
    (hd : ∀ t ∈ s.registered, (t.styles.map Style.name).Nodup)
    (hlegible : ∀ t ∈ s.registered, t.IsLegible) (hwrites : settings.writesBase = true) :
    ∃ base files, l.baseId = .ok base ∧
      (l.prepared settings).1.generateAll settings = .ok files ∧
      files.map GeneratedFile.content =
        ((l.prepared settings).1.allLines settings base).map unlines ∧
      (((l.prepared settings).1.allLines settings base).flatMap (typesIn false)).Perm
        (l.declaredTypes settings base) ∧
      (∀ type, type ∈ ((l.prepared settings).1.allLines settings base).flatMap (typesIn false) ↔
        (settings.framework = none ∧ type = Font.textStyleEnum) ∨
          ∃ t ∈ s.registered, ∃ v ∈ t.globals, v.definedType? = some type) ∧
      (l.TypesAgree settings base →
        (((l.prepared settings).1.allLines settings base).flatMap (typesIn false)).Nodup) := by
  obtain ⟨b, hlt, hl, -⟩ := linked_ok h.linked
  have hb : l.base? = some b := by rw [hl]
  have hregistered : l.registered = s.registered := linked_registered h.linked
  obtain ⟨base, hbased⟩ := basedOn_of_linked h.linked
  obtain rfl : base = .registered b := by
    have horder := hbased.order
    rw [order_eq hb] at horder
    exact (List.cons.inj (Except.ok.inj horder)).1.symm
  have hbase : SheetId.registered b ∈ l.ids := mem_ids.2 ⟨b, hregistered ▸ hlt, rfl⟩
  have htypes := h.typesIn_allLines_perm hd hlegible hwrites hbase
  obtain ⟨files, hfiles, hcontent⟩ := exists_generateAll (h.kept.base?_eq.trans hb) settings
  refine ⟨.registered b, files, by rw [baseId, hb], hfiles, hcontent, htypes, fun type => ?_,
    fun hagree => htypes.nodup_iff.2 (hbased.nodup_declaredTypes hagree)⟩
  rw [htypes.mem_iff, hbased.mem_declaredTypes (hregistered ▸ hlegible), hregistered]

/-- The enumeration of the modes `on` and `off`. -/
def modeDefinition : Value := .enumDef "Mode" ["on", "off"]

/-- A base with a definition, and a theme with the same one and another one. -/
def modesAndLayouts : Suite :=
  ⟨[⟨"Default", [.named "Foo" [.ofValue "Mode" modeDefinition]], none, none, false, []⟩,
      ⟨"Dark", [.named "Foo"
        [.ofValue "Mode" modeDefinition, .ofValue "Layout" (.enumDef "Layout" ["grid"])]],
        none, some "Default", false, []⟩],
    none, none⟩

theorem globals_modesAndLayouts :
    (modesAndLayouts.sheet (.registered 0)).globals = [modeDefinition] ∧
      (modesAndLayouts.sheet (.registered 1)).globals =
        [.enumDef "Layout" ["grid"], modeDefinition] := by
  constructor <;> cbv

/-- Its definitions of one type agree. -/
theorem typesAgree_modesAndLayouts :
    { modesAndLayouts with base? := some 0 }.TypesAgree .standard (.registered 0) := by
  obtain ⟨hbase, htheme⟩ := globals_modesAndLayouts
  have hsheet : ∀ id, { modesAndLayouts with base? := some 0 }.sheet id =
      modesAndLayouts.sheet id := fun _ => rfl
  have hids : ∀ id ∈ { modesAndLayouts with base? := some 0 }.ids,
      id = .registered 0 ∨ id = .registered 1 := by decide
  constructor
  case within =>
    intro id hid
    rcases hids id hid with rfl | rfl <;> rw [hsheet] <;> simp only [hbase, htheme] <;> decide
  case across =>
    intro id hid id' hid' hne
    rcases hids id hid with rfl | rfl <;> rcases hids id' hid' with rfl | rfl
    · exact absurd rfl hne
    · simp [Stylesheet.declares, hsheet, hbase, htheme, modeDefinition, Value.definedType?]
    · simp [Stylesheet.declares, hsheet, hbase, htheme, modeDefinition, Value.definedType?]
    · exact absurd rfl hne
  case reserved =>
    intro _ id hid
    rcases hids id hid with rfl | rfl <;> rw [hsheet] <;> simp only [hbase, htheme] <;> decide

theorem legible_modesAndLayouts : ∀ t ∈ modesAndLayouts.registered, t.IsLegible := by
  obtain ⟨hbase, htheme⟩ := globals_modesAndLayouts
  refine List.forall_mem_cons.2 ⟨?_, List.forall_mem_singleton.2 ?_⟩
  · show ∀ v ∈ (modesAndLayouts.sheet (.registered 0)).globals, _
    rw [hbase]
    decide
  · show ∀ v ∈ (modesAndLayouts.sheet (.registered 1)).globals, _
    rw [htheme]
    decide

/-- A definition that the theme repeats is declared once. -/
theorem declares_modesAndLayouts :
    (∃ files, ({ modesAndLayouts with base? := some 0 }.prepared .standard).1.generateAll
        .standard = .ok files) ∧
      ((({ modesAndLayouts with base? := some 0 }.prepared .standard).1.allLines .standard
        (.registered 0)).flatMap (typesIn false)).Perm ["FontTextStyle", "Mode", "Layout"] ∧
      ((({ modesAndLayouts with base? := some 0 }.prepared .standard).1.allLines .standard
        (.registered 0)).flatMap (typesIn false)).Nodup := by
  have hdeclared : { modesAndLayouts with base? := some 0 }.declaredTypes .standard
      (.registered 0) = ["FontTextStyle", "Mode", "Layout"] := by cbv
  have hprepares : Prepares .standard modesAndLayouts { modesAndLayouts with base? := some 0 } :=
    ⟨rfl, by cbv⟩
  obtain ⟨base, files, hbase, hfiles, -, hperm, -, hnodup⟩ :=
    Prepares.declares_types hprepares (by decide) legible_modesAndLayouts rfl
  cases hbase
  rw [hdeclared] at hperm
  exact ⟨⟨files, hfiles⟩, hperm, hnodup typesAgree_modesAndLayouts⟩

/-- A base with the same definition in two styles. -/
def modesInTwoStyles : Suite :=
  ⟨[⟨"Default",
      [.named "A" [.ofValue "Mode" modeDefinition], .named "B" [.ofValue "Mode" modeDefinition]],
      none, none, false, []⟩], none, none⟩

/-- The file of the base declares the type of both definitions. -/
theorem mode_declaredTwice :
    Prepares .standard modesInTwoStyles { modesInTwoStyles with base? := some 0 } ∧
      (∃ t ∈ modesInTwoStyles.registered, ∃ v ∈ t.globals, v.definedType? = some "Mode") ∧
      ∃ files, ({ modesInTwoStyles with base? := some 0 }.prepared .standard).1.generateAll
          .standard = .ok files ∧
        files.map GeneratedFile.content =
          (({ modesInTwoStyles with base? := some 0 }.prepared .standard).1.allLines .standard
            (.registered 0)).map unlines ∧
        ((({ modesInTwoStyles with base? := some 0 }.prepared .standard).1.allLines .standard
          (.registered 0)).flatMap (typesIn false)).count "Mode" = 2 := by
  have hprepares : Prepares .standard modesInTwoStyles
      { modesInTwoStyles with base? := some 0 } := ⟨rfl, by cbv⟩
  have hglobals : modesInTwoStyles.registered.map Stylesheet.globals =
      [[modeDefinition, modeDefinition]] := by cbv
  have hall : ∀ vs ∈ modesInTwoStyles.registered.map Stylesheet.globals,
      modeDefinition ∈ vs ∧ ∀ v ∈ vs, v.IsLegible := by
    rw [hglobals]
    exact List.forall_mem_singleton.2 ⟨List.mem_cons_self, by decide⟩
  have hdeclared : { modesInTwoStyles with base? := some 0 }.declaredTypes .standard
      (.registered 0) = ["FontTextStyle", "Mode", "Mode"] := by cbv
  have hbase : SheetId.registered 0 ∈ { modesInTwoStyles with base? := some 0 }.ids := by decide
  have hperm := hprepares.typesIn_allLines_perm (by decide)
    (fun t ht => (hall _ (List.mem_map_of_mem ht)).2) rfl hbase
  rw [hdeclared] at hperm
  obtain ⟨files, hfiles, hcontent⟩ :=
    exists_generateAll (hprepares.kept.base?_eq.trans rfl) .standard (b := 0)
  refine ⟨hprepares, ⟨_, List.mem_cons_self, modeDefinition, ?_, rfl⟩, files, hfiles, hcontent, ?_⟩
  · exact (hall _ (List.mem_map_of_mem List.mem_cons_self)).1
  · rw [hperm.count_eq]
    decide

end Suite

end Appearance
