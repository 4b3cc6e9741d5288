import Appearance.Proofs.Declarations
import Appearance.Proofs.FileNames
import Appearance.Proofs.Fresh

/-!
# Where styles belong

A style knows the stylesheet that it belongs to, and a nested one the style around it. Loading notes
both at every depth (`Stylesheet.IsLoaded.home`). Shadows are noted when they are added, but only
the outermost style of a shadow gets its stylesheet: what is nested in it belongs to none. After
preparation all styles stand where they are noted, and they belong to their stylesheet unless they
are nested in a shadow (`Suite.Prepares.belongs`).

The conditions on single heads are named first (`Home`, `Homeless`, `Settles`) and those on a style
inside another one next (`Encloses`, `Harbours`, `Disowns`); the rest of the module says which of
them each pass establishes or keeps. Redirects and marks leave the fields in question alone, so
everything after shadowing goes through outlines. The last instance is the smallest suite in which
a style of a theme belongs to no stylesheet.
-/

namespace Appearance

namespace StyleHead

/-- The style belongs to the stylesheet, and it is no shadow. -/
def Home (sheet : String) (h : StyleHead) : Prop := h.belongsTo = some sheet ∧ h.isInjected = false

/-- The style is a shadow that belongs to no stylesheet. -/
def Homeless (h : StyleHead) : Prop := h.belongsTo = none ∧ h.isInjected = true

/-- The style belongs to the stylesheet, unless it is a shadow that belongs to none. -/
def Settles (sheet : String) (h : StyleHead) : Prop := h.belongsTo = some sheet ∨ h.Homeless

/-- The inner style is noted as nested in the outer one. -/
def Encloses (outer inner : StyleHead) : Prop := inner.nestedIn = some outer.name

/-- The inner style is noted as nested in the outer one, and only in a shadow it belongs to no
stylesheet. -/
def Harbours (outer inner : StyleHead) : Prop :=
  outer.Encloses inner ∧ (inner.belongsTo = none → outer.isInjected = true)

/-- The inner style belongs to no stylesheet just if the outer one is a shadow. -/
def Disowns (outer inner : StyleHead) : Prop :=
  inner.belongsTo = none ↔ outer.isInjected = true

end StyleHead

namespace Style

open StyleHead

variable {sheet : String} {s : Style}

/-! ## Loading -/

theorem head_adoptIn (parent : String) (s : Style) :
    (s.adoptIn sheet parent).head =
      { s.head with nestedIn := some parent, belongsTo := some sheet } := by
  obtain ⟨h, ps⟩ := s
  rw [adoptIn]
  rfl

theorem nestedStyles_adoptEach (head : StyleHead) (parent : String) (ps : List Property) :
    (mk head (adoptEach sheet parent ps)).nestedStyles =
      (mk head ps).nestedStyles.map (adoptIn sheet parent) := by
  rw [adoptEach_eq, nestedStyles_map]

/-- An adopted style belongs to the stylesheet, with all that is nested in it. -/
theorem heads_adoptIn (parent : String) (s : Style) :
    (s.adoptIn sheet parent).Heads (·.belongsTo = some sheet) Encloses := by
  induction s using Style.induction generalizing parent with
  | mk head ps ih =>
    rw [adoptIn, heads_iff, nestedStyles_adoptEach]
    refine ⟨rfl, List.forall_mem_map.2 fun n hn => ?_⟩
    obtain ⟨k, hk⟩ := mem_nestedStyles.1 hn
    exact ⟨by rw [head_adoptIn]; rfl, ih k n hk head.name⟩

theorem heads_adopt (s : Style) :
    (s.adopt sheet).Heads (·.belongsTo = some sheet) Encloses := by
  obtain ⟨head, ps⟩ := s
  rw [adopt, heads_iff, nestedStyles_adoptEach]
  refine ⟨rfl, List.forall_mem_map.2 fun n _ => ?_⟩
  exact ⟨by rw [head_adoptIn]; rfl, heads_adoptIn head.name n⟩

section Read

variable {ctx : SheetContext}

/-- A style that is read from an entry knows where it belongs. -/
theorem heads_ofEntry {declaration : String} {node : Yaml.Node}
    (h : ofEntry ctx declaration node = .ok s) :
    s.Heads (·.belongsTo = some ctx.stylesheet) Encloses := by
  unfold ofEntry at h
  split at h
  · obtain ⟨ps, -, rfl⟩ := map_eq_ok.1 h
    exact heads_adopt _
  · cases h

/-- The animator and its animations know where they belong. -/
theorem heads_animatorOfNode {name : String} {node : Yaml.Node}
    (h : animatorOfNode ctx name node = .ok s) :
    s.Heads (·.belongsTo = some ctx.stylesheet) Encloses := by
  unfold animatorOfNode at h
  split at h
  · obtain ⟨ps, hps, rfl⟩ := map_eq_ok.1 h
    refine heads_mk.2 ⟨rfl, fun k n hn => ?_⟩
    obtain ⟨e, -, he⟩ := exists_mem_of_forall₂ (forall₂_of_mapM hps) hn
    obtain ⟨key, -, he⟩ := bind_eq_ok.1 he
    obtain ⟨x, hx, he⟩ := bind_eq_ok.1 he
    cases he
    exact ⟨rfl, (heads_ofEntry hx).withHead (heads_iff.1 (heads_ofEntry hx)).1 fun _ hr => hr⟩
  · cases h

theorem heads_ofSymbolFont {font : SymbolFont} {isBase : Bool}
    (h : ofSymbolFont ctx font isBase = .ok s) :
    s.Heads (·.belongsTo = some ctx.stylesheet) Encloses := by
  obtain ⟨light, regular, rfl⟩ := ofSymbolFont_eq_ok h
  refine heads_mk.2 ⟨rfl, fun k n hn => ?_⟩
  cases isBase <;> simp [Property.ofValue] at hn

end Read

end Style

/-! ## Loaded stylesheets -/

namespace Load

variable {f : String → Except LoadError Stylesheet} {ctx : SheetContext} {t u : Stylesheet}

/-- Imports leave the name of a stylesheet. -/
theorem name_addImports {files : List String} (h : addImports f t files = .ok u) :
    u.name = t.name := by
  induction files generalizing t with
  | nil =>
    cases h
    rfl
  | cons file files ih =>
    unfold addImports at h
    split at h
    · rw [ih h]
      rfl
    · cases h

theorem name_addEntry {e : Yaml.Node × Yaml.Node} (h : addEntry f ctx t e = .ok u) :
    u.name = t.name := by
  obtain ⟨key, -, h⟩ := bind_eq_ok.1 h
  split at h
  · obtain ⟨files, -, h⟩ := bind_eq_ok.1 h
    exact name_addImports h
  · split at h
    all_goals
      obtain ⟨x, -, h⟩ := bind_eq_ok.1 h
      cases h
      rfl

theorem name_addEntries {entries : List (Yaml.Node × Yaml.Node)}
    (h : addEntries f ctx t entries = .ok u) : u.name = t.name := by
  induction entries generalizing t with
  | nil =>
    cases h
    rfl
  | cons e entries ih =>
    unfold addEntries at h
    split at h
    · next v hv => rw [ih h, name_addEntry hv]
    · cases h

/-- A stylesheet is named as it is declared. -/
theorem name_sourceWith [Yaml.Parser] {options : LoadOptions} {declaration source : String}
    (h : sourceWith f options declaration source = .ok t) :
    t.name = (Stylesheet.ofDeclaration declaration).name := by
  obtain ⟨entries, -, h⟩ := bind_eq_ok.1 h
  obtain ⟨u, hu, h⟩ := bind_eq_ok.1 h
  rw [← name_addEntries hu]
  unfold addSymbolFont at h
  split at h
  · cases h
    rfl
  · obtain ⟨x, -, rfl⟩ := map_eq_ok.1 h
    rfl

end Load

namespace Stylesheet

open StyleHead

/-- The stylesheet was loaded, from a source or from a file. -/
def IsLoaded [Yaml.Parser] (t : Stylesheet) : Prop :=
  (∃ read depth options declaration text,
    Load.source read depth options declaration text = .ok t) ∨
  ∃ read depth options path declaration, Load.file read depth options path declaration = .ok t

/-- A loaded stylesheet was loaded from some source. -/
theorem IsLoaded.exists_sourceIn [Yaml.Parser] {t : Stylesheet} (h : t.IsLoaded) :
    ∃ read depth options declaration dir text,
      Load.sourceIn read depth options declaration dir text = .ok t := by
  obtain ⟨read, depth, options, declaration, text, h⟩ | ⟨read, depth, options, path, declaration, h⟩
    := h
  · exact ⟨read, depth, options, declaration, "", text, Load.source_eq_sourceIn .. ▸ h⟩
  · obtain ⟨rest, text, -, -, h⟩ := Load.exists_of_file_ok h
    exact ⟨read, rest, options, declaration, _, text, h⟩

/-- Every style of a loaded stylesheet belongs to it, is no shadow, and is noted as nested where it
stands. -/
theorem IsLoaded.home [Yaml.Parser] {t : Stylesheet} (h : t.IsLoaded) :
    ∀ x ∈ t.allStyles, x.Heads (Home t.name) Encloses := by
  obtain ⟨read, depth, options, declaration, dir, text, h⟩ := h.exists_sourceIn
  have hname : t.name = (Load.contextOf options declaration).stylesheet := Load.name_sourceWith h
  have hraw : t.Raw := Load.raw_sourceWith (fun _ _ => Load.raw_file) h
  have hloaded := Load.loaded_of_sourceIn h
  have hall : ∀ x ∈ t.allStyles, x.Heads (·.belongsTo = some t.name) Encloses := by
    rw [hname, allStyles]
    refine List.forall_mem_append.2 ⟨?_, ?_⟩
    · obtain ⟨own, font, hstyles, hown, hfont⟩ := hloaded.styles
      rw [hstyles]
      refine List.forall_mem_append.2 ⟨fun x hx => ?_, fun x hx => ?_⟩
      · obtain ⟨d, -, y, hy, rfl⟩ := exists_mem_of_forall₂ hown hx
        have hheads := Style.heads_ofEntry hy
        exact hheads.withHead (Style.heads_iff.1 hheads).1 fun _ hr => hr
      · obtain ⟨font, -, hx⟩ := exists_mem_of_forall₂ hfont hx
        exact Style.heads_ofSymbolFont hx
    · intro a ha
      have hrel := hloaded.animator
      rw [Option.mem_toList] at ha
      rw [Option.mem_def.1 ha] at hrel
      generalize Load.animatorOf (Load.itemsOf text) = last at hrel
      cases hrel with
      | some hread => exact Style.heads_animatorOfNode hread
  intro x hx
  have hshadow : x.Heads (·.isInjected = false) fun _ _ => True :=
    Style.heads_true_iff.2 (Style.All.imp (hraw x hx) fun _ hu => hu.2)
  exact ((hall x hx).and hshadow).imp (fun _ hp => hp) fun _ _ _ _ hr => hr.1

end Stylesheet

/-! ## Shadows -/

namespace Style

open StyleHead

variable {sheet : String} {s base : Style}

/-- All of a shadow is injected, and nothing of it belongs to a stylesheet. -/
theorem homeless_shadow (s : Style) : s.shadow.Heads Homeless fun _ _ => True := by
  refine heads_true_iff.2 (All.shadow (fun u _ => ?_) (All.of_forall (fun _ => trivial) s))
  rw [head_shadow]
  exact ⟨rfl, rfl⟩

/-- A shadow keeps the style around each nested style. -/
theorem Heads.shadow_encloses (h : s.Heads (fun _ => True) Encloses) :
    s.shadow.Heads (fun _ => True) Encloses := by
  refine All.shadow (fun u hu => ⟨trivial, fun n hn => ?_⟩) h
  rw [nestedStyles_shadow] at hn
  obtain ⟨m, hm, rfl⟩ := List.mem_map.1 hn
  rw [head_shadow, head_shadow]
  exact hu.2 m hm

/-- What is nested in a shadow belongs to no stylesheet, whatever the shadow itself belongs to. -/
theorem heads_shadow_withHead (h : base.Heads (fun _ => True) Encloses) {head : StyleHead}
    (hsettles : head.Settles sheet) (hname : head.name = base.name)
    (hinjected : head.isInjected = true) :
    (base.shadow.withHead head).Heads (Settles sheet) Harbours := by
  have hshadow := (homeless_shadow base).and h.shadow_encloses
  refine heads_iff.2 ⟨hsettles, fun n hn => ?_⟩
  rw [nestedStyles_withHead] at hn
  obtain ⟨⟨-, hencloses⟩, hn⟩ := (heads_iff.1 hshadow).2 n hn
  refine ⟨⟨?_, fun _ => hinjected⟩, hn.imp (fun _ hu => .inr hu.1) fun _ _ hu _ hr =>
    ⟨hr.2, fun _ => hu.1.2⟩⟩
  rw [Encloses, head_withHead, hname, ← name_shadow]
  exact hencloses

/-- Shadows keep all noted where it stands. -/
theorem Heads.settled_shadowing (hs : s.Heads (Settles sheet) Harbours)
    (hb : base.Heads (fun _ => True) Encloses) :
    (s.shadowing base).Heads (Settles sheet) Harbours := by
  refine hs.shadowing (fun h b hh hb => ?_) hb
  have hinjected : b.shadow.head.isInjected = true := by
    rw [head_shadow]
    rfl
  have hsettles : (shadowIn h b).head.Settles sheet := hh.imp id fun hnone => ⟨hnone.1, hinjected⟩
  exact ⟨⟨rfl, fun hnone => hh.elim (fun hsome => absurd (hsome.symm.trans hnone) nofun) And.right⟩,
    heads_shadow_withHead hb hsettles (name_shadow b) hinjected⟩

end Style

namespace Stylesheet

open StyleHead

/-- The styles stand where they are noted, and the outermost ones belong to the stylesheet. -/
def Settled (sheet : String) (t : Stylesheet) : Prop :=
  ∀ x ∈ t.allStyles, x.head.belongsTo = some sheet ∧ x.Heads (Settles sheet) Harbours

/-- A style is noted as nested where it stands. -/
theorem Settled.encloses {sheet : String} {t : Stylesheet} (h : t.Settled sheet) :
    ∀ x ∈ t.allStyles, x.Heads (fun _ => True) Encloses :=
  fun x hx => (h x hx).2.imp (fun _ _ => trivial) fun _ _ _ _ hr => hr.1

theorem IsLoaded.settled [Yaml.Parser] {t : Stylesheet} (h : t.IsLoaded) :
    t.Settled t.name := fun x hx =>
  ⟨(Style.heads_iff.1 (h.home x hx)).1.1, (h.home x hx).imp (fun _ hu => .inl hu.1)
    fun _ _ _ hn hr => ⟨hr, fun hnone => absurd (hn.1.symm.trans hnone) nofun⟩⟩

/-- Shadowing keeps a stylesheet settled. -/
theorem Settled.shadowing {t b : Stylesheet} (ht : t.Settled t.name)
    (hb : ∀ x ∈ b.allStyles, x.Heads (fun _ => True) Encloses) :
    (t.shadowing b).Settled t.name := by
  refine forall_shadowing (fun c hc x hx => ?_) (fun c hc base => ?_) ht
  · rw [Style.head_shadowing]
    exact ⟨hx.1, hx.2.settled_shadowing (hb c hc)⟩
  · refine ⟨rfl, Style.heads_shadow_withHead (hb c hc) (.inl rfl) (Style.name_shadow c) ?_⟩
    rw [Style.head_shadow]
    rfl

theorem Settled.sorted {sheet : String} {t : Stylesheet} (h : t.Settled sheet) :
    t.sorted.Settled sheet := by
  intro x hx
  obtain ⟨y, hy, rfl⟩ := List.mem_map.1 (t.allStyles_sorted_perm.mem_iff.1 hx)
  rw [Style.head_sorted]
  exact ⟨(h y hy).1, (h y hy).2.sorted⟩

/-- What is declared of the styles is all that matters. -/
theorem Settled.of_outlines {sheet : String} {t u : Stylesheet} (h : t.Settled sheet)
    (hu : ∀ y ∈ u.allStyles, ∃ x ∈ t.allStyles,
      y.outline StyleHead.declared = x.outline StyleHead.declared) : u.Settled sheet := by
  intro y hy
  obtain ⟨x, hx, hyx⟩ := hu y hy
  have hbelongs : y.head.declared.belongsTo = x.head.declared.belongsTo := by
    rw [Style.declared_head_eq hyx]
  exact ⟨hbelongs.trans (h x hx).1, (Style.heads_congr StyleHead.declared (fun _ => Iff.rfl)
    (fun _ _ => Iff.rfl) hyx).2 (h x hx).2⟩

end Stylesheet

/-! ## Prepared suites -/

namespace Suite

open Style StyleHead Stylesheet

variable {s l : Suite} {settings : Settings} {id : SheetId}

/-- Marking makes up no styles, whatever the names are. -/
theorem exists_outline_of_withInheritance {m : Stylesheet}
    (h : s.withInheritance settings id = .ok m) {y : Style} (hy : y ∈ m.allStyles) :
    ∃ x ∈ (s.sheet id).allStyles,
      y.outline StyleHead.declared = x.outline StyleHead.declared := by
  rcases List.mem_append.1 hy with hy | hy
  · obtain ⟨x, hx, earlier, hxy⟩ := exists_step_of_withInheritance h hy
    obtain ⟨g, hg, houtline⟩ := openStyles_eq (s.sheet id)
    rw [hg] at hx
    obtain ⟨z, hz, rfl⟩ := List.mem_map.1 hx
    exact ⟨z, List.mem_append_left _ hz,
      (outline_inheritingStyle hxy).trans (outline_declared_of_closed (houtline z))⟩
  · obtain ⟨order, done, animator, -, -, hanimator, rfl⟩ := withInheritance_eq_ok h
    have hrel := rel_of_mapM hanimator
    have hanimator : animator = some y := Option.mem_toList.1 hy
    rw [hanimator] at hrel
    generalize hown : (s.sheet id).animator = own at hrel
    cases hrel with
    | @some a _ hay =>
      exact ⟨a, List.mem_append_right _ (Option.mem_toList.2 hown),
        (outline_inheritingStyle hay).trans (outline_declared_of_closed (outline_openedIf _ a))⟩

/-- Resolving leaves the styles where they belong. -/
theorem settled_resolved {t : Stylesheet} {sheet : String} (hid : id ∈ s.ids)
    (h : s.resolved settings id = .ok t) (hs : (s.completed id).Settled sheet) :
    t.Settled sheet := by
  obtain ⟨redirected, marked, hr, hm, rfl⟩ := resolved_ok h
  have hredirected : redirected.Settled sheet := hs.of_outlines fun y hy => by
    have hout := List.mem_map_of_mem (f := outline StyleHead.declared) hy
    rw [(withRedirects_ok hr).outlines, sheet_setSheet_self _ hid] at hout
    obtain ⟨x, hx, hxy⟩ := List.mem_map.1 hout
    exact ⟨x, hx, hxy.symm⟩
  refine (hredirected.of_outlines fun y hy => ?_).sorted
  have hstep := exists_outline_of_withInheritance hm hy
  rwa [sheet_setSheet_self _ hid] at hstep

/-- After preparation the styles of a stylesheet stand where they are noted, and they belong to it
unless they are nested in shadows. -/
theorem Prepares.settled [Yaml.Parser] (h : Prepares settings s l)
    (hloaded : ∀ t ∈ s.registered, t.IsLoaded)
    (hid : id ∈ l.ids) :
    ((l.prepared settings).1.sheet id).Settled (l.sheet id).name := by
  have hown : ∀ {id}, id ∈ l.ids → (l.sheet id).Settled (l.sheet id).name := fun hid =>
    (hloaded _ (linked_registered h.linked ▸ sheet_mem hid)).settled
  have hplace : ∀ {id}, id ∈ l.ids →
      (l.shadowedIn (l.prepared settings).1 id).Settled (l.sheet id).name →
      ((l.prepared settings).1.sheet id).Settled (l.sheet id).name := fun hid hs => by
    obtain ⟨t, ht⟩ := h.exists_stage hid
    refine settled_resolved (by rwa [ids, ht.length_eq]) ht.resolved_eq ?_
    rw [ht.completed_eq]
    exact hs.sorted
  refine hplace hid ?_
  unfold shadowedIn
  cases hsup : l.superclass? id with
  | none => exact hown hid
  | some b =>
    have hb := mem_ids_of_superclass? h.linked hsup
    refine (hown hid).shadowing (hplace hb ?_).encloses
    rw [shadowedIn, superclass?_superclass? hsup]
    exact hown hb

/-- With distinct names just what is nested in shadows belongs to no stylesheet. -/
theorem Prepares.disowns [Yaml.Parser] (h : Prepares settings s l)
    (hloaded : ∀ t ∈ s.registered, t.IsLoaded)
    (hd : ∀ t ∈ s.registered, (t.styles.map Style.name).Nodup)
    (hn : ∀ t ∈ s.registered, ∀ x ∈ t.allStyles, x.NestedDistinct) (hid : id ∈ l.ids) :
    ∀ x ∈ ((l.prepared settings).1.sheet id).allStyles, x.Heads (fun _ => True) Disowns := by
  have howned : ∀ t ∈ s.registered, ∀ x ∈ t.allStyles,
      x.Heads (fun u => u.belongsTo ≠ none ∧ u.isInjected = false) fun _ n =>
        n.belongsTo ≠ none := fun t ht x hx =>
    ((hloaded t ht).home x hx).imp (fun u hu => ⟨by simp [hu.1], hu.2⟩)
      fun u n _ hn _ => by simp [hn.1]
  have hshadowed : ∀ z ∈ (l.shadowedIn (l.prepared settings).1 id).allStyles,
      z.Heads (fun _ => True) Disowns := by
    refine h.all_shadowedIn (q := fun _ => True) hd hn (fun u hu => ⟨trivial, fun n hn => ?_⟩)
      (fun u b hun hbn hu => ⟨trivial, fun n hn => ?_⟩)
      (fun c _ _ nestedIn own base => ?_) howned hid
      fun _ _ x _ _ => All.of_forall (fun _ => trivial) x
    · exact iff_of_false (hu.2 n hn) (by simp [hu.1.2])
    · -- no declared style is a shadow, and what is added to it belongs where it does
      refine iff_of_false ?_ (by simp [hu.1.2])
      rw [nestedStyles_shadowing hun hbn, List.mem_append] at hn
      rcases hn with hn | hn
      · obtain ⟨m, hm, rfl⟩ := List.mem_map.1 hn
        rw [head_shadowed]
        exact hu.2 m hm
      · obtain ⟨c, -, rfl⟩ := List.mem_map.1 hn
        exact hu.1.1
    · have hshadow : c.shadow.Heads Homeless Disowns :=
        (homeless_shadow c).imp (fun _ hu => hu) fun _ _ hu hn _ => iff_of_true hn.1 hu.2
      exact (hshadow.withHead (heads_iff.1 hshadow).1 fun _ hr => hr).imp
        (fun _ _ => trivial) fun _ _ _ _ hr => hr
  intro x hx
  obtain ⟨z, hz, hzx⟩ := h.exists_shadowed hd hid hx
  exact (heads_congr StyleHead.declared (fun _ => Iff.rfl) (fun _ _ => Iff.rfl) hzx).1
    (hshadowed z hz).sorted

/-- After preparation every style of a loaded stylesheet belongs to it, with all that is nested in
it, apart from what is nested in a shadow, which belongs to no stylesheet. Whatever is nested is
noted as nested in the style around it. With distinct names everything that is nested in a shadow
belongs to no stylesheet. -/
theorem Prepares.belongs [Yaml.Parser] (h : Prepares settings s l)
    (hloaded : ∀ t ∈ s.registered, t.IsLoaded) :
    (∀ id ∈ l.ids, ∀ x ∈ ((l.prepared settings).1.sheet id).allStyles,
      x.head.belongsTo = some ((l.prepared settings).1.sheet id).name ∧
      x.All fun y => ∀ n ∈ y.nestedStyles, n.head.nestedIn = some y.name ∧
        (n.head.belongsTo = some ((l.prepared settings).1.sheet id).name ∨
          n.head.belongsTo = none ∧ n.head.isInjected = true ∧ y.head.isInjected = true)) ∧
    ((∀ t ∈ s.registered, (t.styles.map Style.name).Nodup ∧ ∀ x ∈ t.allStyles, x.NestedDistinct) →
      ∀ id ∈ l.ids, ∀ x ∈ ((l.prepared settings).1.sheet id).allStyles,
        x.All fun y => ∀ n ∈ y.nestedStyles,
          n.head.belongsTo = none ↔ y.head.isInjected = true) := by
  refine ⟨fun id hid x hx => ?_, fun hdistinct id hid x hx => ?_⟩
  · rw [h.name_eq hid]
    obtain ⟨hbelongs, hsettled⟩ := h.settled hloaded hid x hx
    have hplaced : x.Heads (fun _ => True) fun y n => Encloses y n ∧
        (n.belongsTo = some (l.sheet id).name ∨ n.Homeless ∧ y.isInjected = true) :=
      hsettled.imp (fun _ _ => trivial) fun _ _ _ hn hr =>
        ⟨hr.1, hn.imp_right fun hnone => ⟨hnone, hr.2 hnone.1⟩⟩
    refine ⟨hbelongs, All.imp hplaced fun y hy n hn => ?_⟩
    obtain ⟨hencloses, hsheet⟩ := hy.2 n hn
    exact ⟨hencloses, hsheet.imp_right fun hnone => ⟨hnone.1.1, hnone.1.2, hnone.2⟩⟩
  · exact All.imp (h.disowns hloaded (fun t ht => (hdistinct t ht).1)
      (fun t ht => (hdistinct t ht).2) hid x hx) fun y hy => hy.2

end Suite

/-! ## Instances -/

namespace Style

mutual

/-- The styles have the same heads and the same nested styles, and no leaf properties. -/
def agrees : Style → Style → Bool
  | mk h ps, mk k qs => h == k && agreesEach ps qs

/-- Properties are nested styles that agree one by one. -/
def agreesEach : List Property → List Property → Bool
  | [], [] => true
  | .nested p s :: ps, .nested q t :: qs => p == q && agrees s t && agreesEach ps qs
  | _, _ => false

end

/-- Properties that agree are equal if the nested styles in them are. -/
theorem eq_of_agreesEach {ps qs : List Property}
    (ih : ∀ k n, Property.nested k n ∈ ps → ∀ m, n.agrees m = true → n = m)
    (h : agreesEach ps qs = true) : ps = qs := by
  induction ps generalizing qs with
  | nil =>
    cases qs with
    | nil => rfl
    | cons => simp [agreesEach] at h
  | cons p ps ihps =>
    obtain ⟨k, n, rfl⟩ : ∃ k n, p = .nested k n := by
      cases p with
      | leaf => simp [agreesEach] at h
      | nested k n => exact ⟨k, n, rfl⟩
    cases qs with
    | nil => simp [agreesEach] at h
    | cons q qs =>
      cases q with
      | leaf => simp [agreesEach] at h
      | nested k' m =>
        simp only [agreesEach, Bool.and_eq_true, beq_iff_eq] at h
        rw [h.1.1, ih k n List.mem_cons_self m h.1.2,
          ihps (fun k n hn => ih k n (List.mem_cons_of_mem _ hn)) h.2]

theorem eq_of_agrees {s t : Style} (h : s.agrees t = true) : s = t := by
  induction s using Style.induction generalizing t with
  | mk head ps ih =>
    obtain ⟨k, qs⟩ := t
    rw [agrees, Bool.and_eq_true, beq_iff_eq] at h
    rw [h.1, eq_of_agreesEach (fun k n hn m => ih k n hn) h.2]

end Style

namespace Stylesheet

/-- The stylesheets have no animators, and they agree in all else. -/
def agrees (t u : Stylesheet) : Bool :=
  Style.agreesEach (t.styles.map .ofStyle) (u.styles.map .ofStyle) &&
    decide (t.animator.isNone ∧ u.animator.isNone ∧ t.name = u.name ∧
      t.superclass = u.superclass ∧ t.hasSymbolFont = u.hasSymbolFont ∧
      t.dependencies = u.dependencies)

/-- Stylesheets that agree are equal. -/
theorem eq_of_agrees {t u : Stylesheet} (h : t.agrees u = true) : t = u := by
  rw [agrees, Bool.and_eq_true, decide_eq_true_eq, Option.isNone_iff_eq_none,
    Option.isNone_iff_eq_none] at h
  obtain ⟨hstyles, ht, hu, hname, hsuper, hfont, hdependencies⟩ := h
  have hinj : Function.Injective Property.ofStyle := fun a b hab => (Property.nested.inj hab).2
  have hstyles := List.map_injective_iff.2 hinj
    (Style.eq_of_agreesEach (fun _ _ _ _ => Style.eq_of_agrees) hstyles)
  obtain ⟨⟩ := t
  obtain ⟨⟩ := u
  simp_all

/-- A base with a nested style. -/
def hollowBase : Stylesheet :=
  { named "Base" with
    styles := [.mk { StyleHead.named "A" with belongsTo := some "Base" }
      [.nested ⟨"t", false, false⟩
        (.mk { StyleHead.named "t" with belongsTo := some "Base", nestedIn := some "A" } [])]] }

/-- A stylesheet that extends the base and has another style. -/
def hollowTheme : Stylesheet :=
  { named "Dark" with
    styles := [.mk { StyleHead.named "B" with
      belongsTo := some "Dark", extendsSheet := some "Base" } []]
    superclass := some "Base" }

theorem isLoaded_of_source [Yaml.Parser] (declaration text : String) {t : Stylesheet}
    (h : (Load.source (fun _ => none) 1 ⟨[], none⟩ declaration text).toOption.any (·.agrees t) =
      true) : t.IsLoaded := by
  obtain ⟨u, hu, hagrees⟩ := exists_ok_of_any h
  exact eq_of_agrees hagrees ▸ .inl ⟨_, _, _, _, _, hu⟩

theorem isLoaded_hollowBase : hollowBase.IsLoaded :=
  isLoaded_of_source "Base" "A:\n  t: [{}]\n" (by decide +kernel)

theorem isLoaded_hollowTheme : hollowTheme.IsLoaded :=
  isLoaded_of_source "Dark:Base" "B: {}\n" (by decide +kernel)

end Stylesheet

namespace Suite

open Stylesheet

/-- The base and the stylesheet that extends it. -/
def hollow : Suite := ⟨[hollowBase, hollowTheme], none, none⟩

theorem isLoaded_hollow : ∀ t ∈ hollow.registered, t.IsLoaded :=
  List.forall_mem_cons.2 ⟨isLoaded_hollowBase, List.forall_mem_singleton.2 isLoaded_hollowTheme⟩

theorem prepares_hollow : Prepares .standard hollow { hollow with base? := some 0 } := ⟨rfl, by cbv⟩

/-- All their styles stand where they are noted. -/
theorem belongs_hollow :
    (∀ t ∈ hollow.registered, t.IsLoaded) ∧
    Prepares .standard hollow { hollow with base? := some 0 } ∧
    ∀ id ∈ ({ hollow with base? := some 0 } : Suite).ids,
      ∀ x ∈ (({ hollow with base? := some 0 }.prepared .standard).1.sheet id).allStyles,
        x.All fun y => ∀ n ∈ y.nestedStyles, n.head.nestedIn = some y.name ∧
          (n.head.belongsTo = none ↔ y.head.isInjected = true) := by
  obtain ⟨hplaced, hdistinct⟩ := Prepares.belongs prepares_hollow isLoaded_hollow
  have hdistinct := hdistinct (by decide)
  refine ⟨isLoaded_hollow, prepares_hollow, fun id hid x hx => ?_⟩
  refine Style.All.imp (.and (hplaced id hid x hx).2 (hdistinct id hid x hx)) fun y hy n hn => ?_
  exact ⟨(hy.1 n hn).1, hy.2 n hn⟩

/-- A loaded stylesheet gets the shadow of a style with a nested one, and the nested shadow belongs
to no stylesheet. -/
theorem homeless_hollow : ∃ s l, (∀ t ∈ s.registered, t.IsLoaded) ∧ Prepares .standard s l ∧
    ∃ id ∈ l.ids, ∃ x ∈ ((l.prepared .standard).1.sheet id).allStyles, ∃ n ∈ x.nestedStyles,
      n.head.belongsTo = none := by
  have hany : (({ hollow with base? := some 0 }.prepared .standard).1.sheet
      (.registered 1)).allStyles.any
      (fun x => x.nestedStyles.any fun n => n.head.belongsTo == none) = true := by
    cbv
  obtain ⟨x, hx, hany⟩ := List.any_eq_true.1 hany
  obtain ⟨n, hn, hnone⟩ := List.any_eq_true.1 hany
  exact ⟨hollow, _, isLoaded_hollow, prepares_hollow, .registered 1, by decide, x, hx, n, hn,
    eq_of_beq hnone⟩

end Suite

end Appearance
