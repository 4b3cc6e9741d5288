import Appearance.Proofs.Fresh
import Appearance.Proofs.Gathering

/-!
# Nothing is marked on what is loaded

Loading fills in what a source declares, and it makes no shadows. What marking fills in is left to
resolution: every stylesheet that is loaded is without it (`Load.raw_sourceWith`, `Load.raw_file`),
and so is the suite of a configuration (`Config.blank_suite`).

To be raw is more than to be blank: no style of a loaded stylesheet was put there as a shadow. The
lemmas follow the reading of a source from the words of a declaration over styles and properties to
the imports, and each says that what is read from raw parts is raw. Nothing is supposed of the
reader of nodes.
-/

namespace Appearance

/-! ## Heads -/

namespace StyleHead

/-- Nothing that marking fills in is known of the head, and it is that of no shadow. -/
def Raw (h : StyleHead) : Prop := h.Blank ∧ h.isInjected = false

theorem raw_named (n : String) : (named n).Raw := ⟨⟨⟨rfl, rfl⟩, rfl, rfl⟩, rfl⟩

theorem raw_extend {h : StyleHead} (hh : h.Raw) (w : String) : (h.extend w).Raw := by
  unfold extend
  split <;> exact hh

theorem raw_takeProxyMarker {h : StyleHead} (hh : h.Raw) (w : String) :
    (h.takeProxyMarker w).1.Raw := by
  unfold takeProxyMarker
  split <;> exact hh

theorem raw_takeOpenMarker {h : StyleHead} (hh : h.Raw) (w : String) :
    (h.takeOpenMarker w).1.Raw := by
  unfold takeOpenMarker
  split <;> exact hh

theorem raw_addName {h : StyleHead} (hh : h.Raw) (w : String) :
    (h.addName w).Raw := by
  have hproxy := raw_takeProxyMarker hh w
  unfold addName
  generalize h.takeProxyMarker w = taken at hproxy ⊢
  obtain ⟨h', w'⟩ := taken
  have hopen := raw_takeOpenMarker hproxy w'
  dsimp only
  generalize h'.takeOpenMarker w' = taken at hopen ⊢
  exact hopen

/-- A word of a declaration is a name or one after `extends`, and marks nothing. -/
theorem raw_addWord {h : StyleHead} (hh : h.Raw) (w : String) :
    (h.addWord w).Raw := by
  unfold addWord
  split
  · exact hh
  · split
    · exact hh
    · split
      · exact hh
      · exact raw_addName hh w

theorem raw_addWords {h : StyleHead} (hh : h.Raw) (ws : List String) :
    (h.addWords ws).Raw := by
  fun_induction addWords h ws with
  | case1 => exact hh
  | case2 h w => exact raw_addWord hh w
  | case3 h next rest ih => exact ih hh
  | case4 h next rest _ ih => exact ih (raw_extend hh next)
  | case5 h w next rest _ _ ih => exact ih (raw_addWord hh w)

theorem raw_ofDeclaration (declaration : String) : (ofDeclaration declaration).Raw :=
  raw_addWords (raw_named "") _

end StyleHead

/-- Nothing that marking fills in is known of a style, and it is no shadow, at any depth. -/
def Style.Raw (s : Style) : Prop := s.All fun u => u.head.Raw

theorem Style.raw_iff {s : Style} : s.Raw ↔ s.head.Raw ∧ ∀ n ∈ s.nestedStyles, n.Raw := all_iff

theorem Style.raw_withHead {s : Style} {h : StyleHead} (hs : s.Raw) (hh : h.Raw) :
    (s.withHead h).Raw :=
  raw_iff.2 ⟨hh, (raw_iff.1 hs).2⟩

/-! ## Properties -/

/-- Nothing is marked on a nested style, and it is no shadow; a value is no style. -/
def Property.Raw (p : Property) : Prop := ∀ n, p.style? = some n → n.Raw

theorem Property.raw_ofValue (key : String) (v : Value) : (ofValue key v).Raw :=
  fun n hn => by cases hn

theorem Property.raw_nested {k : PropertyHead} {s : Style} (h : s.Raw) : (nested k s).Raw :=
  fun n hn => by
    cases hn
    exact h

theorem Property.raw_opened {p : Property} (h : p.Raw) : p.opened.Raw := by
  cases p <;> exact h

namespace Style

theorem raw_mk {h : StyleHead} {ps : List Property} :
    (mk h ps).Raw ↔ h.Raw ∧ ∀ p ∈ ps, p.Raw := by
  rw [raw_iff, nestedStyles_mk]
  refine and_congr Iff.rfl ⟨fun hall p hp n hn => hall n (List.mem_filterMap.2 ⟨p, hp, hn⟩),
    fun hall n hn => ?_⟩
  obtain ⟨p, hp, hpn⟩ := List.mem_filterMap.1 hn
  exact hall p hp n hpn

theorem raw_named (n : String) {ps : List Property} (h : ∀ p ∈ ps, p.Raw) :
    (named n ps).Raw :=
  raw_mk.2 ⟨StyleHead.raw_named n, h⟩

theorem raw_ofDeclaration (declaration : String) {ps : List Property} (h : ∀ p ∈ ps, p.Raw) :
    (ofDeclaration declaration ps).Raw := by
  refine raw_mk.2 ⟨StyleHead.raw_ofDeclaration declaration, ?_⟩
  split
  · exact List.forall_mem_map.2 fun p hp => Property.raw_opened (h p hp)
  · exact h

theorem raw_leafOfNode {ctx : SheetContext} {key : String} {node : Yaml.Node} {p : Property}
    (h : leafOfNode ctx key node = .ok p) : p.Raw := by
  obtain ⟨v, -, rfl⟩ := map_eq_ok.1 h
  exact Property.raw_ofValue key v

/-- A property that is read from any node is raw, at every depth. -/
theorem raw_propertyOfNode {ctx : SheetContext} {depth : Nat} {key : String} {node : Yaml.Node}
    {p : Property} (h : propertyOfNode ctx depth key node = .ok p) : p.Raw := by
  induction depth generalizing key node p with
  | zero => exact raw_leafOfNode h
  | succ depth ih =>
    unfold propertyOfNode at h
    split at h
    · next items =>
      split at h
      · obtain ⟨frames, -, rfl⟩ := map_eq_ok.1 h
        exact Property.raw_ofValue key _
      · split at h
        · obtain ⟨ps, hps, h⟩ := bind_eq_ok.1 h
          cases h
          refine Property.raw_nested (raw_named key (forall_mem_of_mapM hps fun e q hq => ?_))
          obtain ⟨key', -, hq⟩ := bind_eq_ok.1 hq
          exact ih hq
        · exact raw_leafOfNode h
    · exact raw_leafOfNode h

theorem raw_propertiesOfEntries {ctx : SheetContext} {entries : List (Yaml.Node × Yaml.Node)}
    {ps : List Property} (h : propertiesOfEntries ctx entries = .ok ps) : ∀ p ∈ ps, p.Raw :=
  forall_mem_of_mapM h fun e p hp => by
    obtain ⟨key, -, hp⟩ := bind_eq_ok.1 hp
    exact raw_propertyOfNode hp

/-! ## Styles -/

theorem adoptEach_eq (sheet parent : String) (ps : List Property) :
    adoptEach sheet parent ps = ps.map (Property.mapStyle (adoptIn sheet parent)) := by
  induction ps with
  | nil => rfl
  | cons p ps ih => cases p <;> rw [adoptEach, ih] <;> rfl

/-- A style is raw if its nested styles are changed to raw ones. -/
theorem raw_mapStyle {h : StyleHead} {f : Style → Style} {ps : List Property} (hh : h.Raw)
    (hf : ∀ k n, Property.nested k n ∈ ps → (f n).Raw) :
    (mk h (ps.map (Property.mapStyle f))).Raw := by
  refine raw_iff.2 ⟨hh, fun n hn => ?_⟩
  rw [nestedStyles_map] at hn
  obtain ⟨m, hm, rfl⟩ := List.mem_map.1 hn
  obtain ⟨k, hk⟩ := mem_nestedStyles.1 hm
  exact hf k m hk

/-- Adoption fills in to whom a style belongs and marks nothing. -/
theorem raw_adoptIn (sheet : String) {s : Style} (h : s.Raw) (parent : String) :
    (s.adoptIn sheet parent).Raw := by
  induction s using Style.induction generalizing parent with
  | mk head ps ih =>
    obtain ⟨hhead, hnested⟩ := raw_iff.1 h
    rw [adoptIn, adoptEach_eq]
    exact raw_mapStyle hhead fun k n hn =>
      ih k n hn (hnested n (mem_nestedStyles.2 ⟨k, hn⟩)) head.name

theorem raw_adopt (sheet : String) {s : Style} (h : s.Raw) : (s.adopt sheet).Raw := by
  obtain ⟨head, ps⟩ := s
  obtain ⟨hhead, hnested⟩ := raw_iff.1 h
  rw [adopt, adoptEach_eq]
  exact raw_mapStyle hhead fun k n hn =>
    raw_adoptIn sheet (hnested n (mem_nestedStyles.2 ⟨k, hn⟩)) head.name

/-- A style that is read from an entry is raw. -/
theorem raw_ofEntry {ctx : SheetContext} {declaration : String} {node : Yaml.Node} {s : Style}
    (h : ofEntry ctx declaration node = .ok s) : s.Raw := by
  unfold ofEntry at h
  split at h
  · obtain ⟨ps, hps, rfl⟩ := map_eq_ok.1 h
    exact raw_adopt _ (raw_ofDeclaration declaration (raw_propertiesOfEntries hps))
  · cases h

/-- The animator is raw. -/
theorem raw_animatorOfNode {ctx : SheetContext} {name : String} {node : Yaml.Node} {s : Style}
    (h : animatorOfNode ctx name node = .ok s) : s.Raw := by
  unfold animatorOfNode at h
  split at h
  · obtain ⟨ps, hps, rfl⟩ := map_eq_ok.1 h
    refine raw_mk.2 ⟨StyleHead.raw_named name, forall_mem_of_mapM hps fun e p hp => ?_⟩
    obtain ⟨key, -, hp⟩ := bind_eq_ok.1 hp
    obtain ⟨x, hx, hp⟩ := bind_eq_ok.1 hp
    cases hp
    have hraw := raw_ofEntry hx
    exact Property.raw_nested (raw_withHead hraw (raw_iff.1 hraw).1)
  · cases h

/-- The style of a symbol font names the fonts, and in a base stylesheet it defines the weights. -/
theorem ofSymbolFont_eq_ok {ctx : SheetContext} {font : SymbolFont} {isBase : Bool} {s : Style}
    (h : ofSymbolFont ctx font isBase = .ok s) :
    ∃ light regular : Font,
      s = mk { StyleHead.named symbolFontName with belongsTo := some ctx.stylesheet }
        ([.ofValue "lightFontName" (.font light), .ofValue "regularFontName" (.font regular)] ++
          if isBase then [.ofValue iconicFontStyle (.enumDef iconicFontStyle ["light", "regular"])]
          else []) := by
  have hfont : ∀ key name p, symbolFontProperty ctx key name = .ok p →
      ∃ f, p = .ofValue key (.font f) := fun key name p hp => by
    obtain ⟨v, hv, rfl⟩ := map_eq_ok.1 hp
    unfold SheetContext.illegal Value.fontOfNames at hv
    cases hparse : Font.parse [] [name] with
    | error fault => simp [hparse] at hv
    | ok f =>
      simp only [hparse, Except.ok.injEq] at hv
      exact ⟨f, by rw [hv]⟩
  obtain ⟨light, hlight, h⟩ := bind_eq_ok.1 h
  obtain ⟨regular, hregular, h⟩ := bind_eq_ok.1 h
  cases h
  obtain ⟨f, rfl⟩ := hfont _ _ _ hlight
  obtain ⟨g, rfl⟩ := hfont _ _ _ hregular
  exact ⟨f, g, rfl⟩

theorem raw_ofSymbolFont {ctx : SheetContext} {font : SymbolFont} {isBase : Bool} {s : Style}
    (h : ofSymbolFont ctx font isBase = .ok s) : s.Raw := by
  obtain ⟨light, regular, rfl⟩ := ofSymbolFont_eq_ok h
  refine raw_mk.2 ⟨StyleHead.raw_named symbolFontName, ?_⟩
  cases isBase <;> simp [Property.raw_ofValue]

end Style

/-! ## Stylesheets -/

/-- Nothing is marked on the styles of a stylesheet, and none is a shadow. -/
def Stylesheet.Raw (t : Stylesheet) : Prop := ∀ x ∈ t.allStyles, x.Raw

/-- A stylesheet is raw if its styles and its animator are. -/
theorem Stylesheet.raw_iff {t : Stylesheet} :
    t.Raw ↔ (∀ x ∈ t.styles, x.Raw) ∧ ∀ a ∈ t.animator, a.Raw := by
  rw [Raw, allStyles, List.forall_mem_append]
  exact and_congr Iff.rfl (forall_congr' fun a => by rw [Option.mem_toList, Option.mem_def])

namespace Load

variable {importFile : String → Except LoadError Stylesheet}
  (himport : ∀ file t, importFile file = .ok t → t.Raw) {ctx : SheetContext}

include himport

/-- Imported styles are raw, so a stylesheet stays raw when they are added. -/
theorem raw_addImports {t u : Stylesheet} {files : List String}
    (h : addImports importFile t files = .ok u) (ht : t.Raw) : u.Raw := by
  induction files generalizing t with
  | nil =>
    cases h
    exact ht
  | cons file files ih =>
    unfold addImports at h
    split at h
    · next dependency hdependency =>
      refine ih h (Stylesheet.raw_iff.2 ⟨List.forall_mem_append.2
        ⟨(Stylesheet.raw_iff.1 ht).1, List.forall_mem_map.2 fun x hx => ?_⟩,
        (Stylesheet.raw_iff.1 ht).2⟩)
      have hraw := (Stylesheet.raw_iff.1 (himport file dependency hdependency)).1 x hx
      exact Style.raw_withHead hraw (Style.raw_iff.1 hraw).1
    · cases h

/-- A stylesheet stays raw when an entry is added. -/
theorem raw_addEntry {t u : Stylesheet} {e : Yaml.Node × Yaml.Node}
    (h : addEntry importFile ctx t e = .ok u) (ht : t.Raw) : u.Raw := by
  obtain ⟨hstyles, hanimator⟩ := Stylesheet.raw_iff.1 ht
  obtain ⟨key, -, h⟩ := bind_eq_ok.1 h
  split at h
  · obtain ⟨files, -, h⟩ := bind_eq_ok.1 h
    exact raw_addImports himport h ht
  · split at h
    · obtain ⟨animator, ha, h⟩ := bind_eq_ok.1 h
      cases h
      refine Stylesheet.raw_iff.2 ⟨hstyles, fun a ha' => ?_⟩
      cases ha'
      exact Style.raw_animatorOfNode ha
    · obtain ⟨x, hx, h⟩ := bind_eq_ok.1 h
      cases h
      have hraw := Style.raw_ofEntry hx
      exact Stylesheet.raw_iff.2 ⟨List.forall_mem_append.2 ⟨hstyles, List.forall_mem_singleton.2
        (Style.raw_withHead hraw (Style.raw_iff.1 hraw).1)⟩, hanimator⟩

/-- A stylesheet stays raw when all entries of a source are added. -/
theorem raw_addEntries {t u : Stylesheet} {entries : List (Yaml.Node × Yaml.Node)}
    (h : addEntries importFile ctx t entries = .ok u) (ht : t.Raw) : u.Raw := by
  induction entries generalizing t with
  | nil =>
    cases h
    exact ht
  | cons e entries ih =>
    unfold addEntries at h
    split at h
    · next v hv => exact ih h (raw_addEntry himport hv ht)
    · cases h

/-- A source is loaded as a raw stylesheet if its imports are. -/
theorem raw_sourceWith [Yaml.Parser] {options : LoadOptions} {declaration source : String}
    {t : Stylesheet} (h : sourceWith importFile options declaration source = .ok t) : t.Raw := by
  have hempty : (Stylesheet.ofDeclaration declaration).Raw := by
    unfold Stylesheet.ofDeclaration
    dsimp only
    split <;> exact fun x hx => by cases hx
  obtain ⟨entries, -, h⟩ := bind_eq_ok.1 h
  obtain ⟨u, hu, h⟩ := bind_eq_ok.1 h
  have hraw := raw_addEntries himport hu hempty
  unfold addSymbolFont at h
  split at h
  · cases h
    exact hraw
  · obtain ⟨x, hx, rfl⟩ := map_eq_ok.1 h
    obtain ⟨hstyles, hanimator⟩ := Stylesheet.raw_iff.1 hraw
    exact Stylesheet.raw_iff.2 ⟨List.forall_mem_append.2 ⟨hstyles, List.forall_mem_singleton.2
      (Style.raw_ofSymbolFont hx)⟩, hanimator⟩

omit himport

/-- Nothing is marked on the stylesheet of a file. -/
theorem raw_file [Yaml.Parser] {read : Reader} {depth : Nat} {options : LoadOptions}
    {path declaration : String} {t : Stylesheet}
    (h : file read depth options path declaration = .ok t) : t.Raw := by
  induction depth generalizing options path declaration t with
  | zero => cases h
  | succ depth ih =>
    unfold file at h
    split at h
    · cases h
    · exact raw_sourceWith (fun _ _ => ih) h

end Load

namespace Config

/-- A source of a configuration is loaded as its file is. -/
theorem file_of_loadSource [Yaml.Parser] {c : Config} {tree : FileTree} {source : Source}
    {t : Stylesheet} (h : c.loadSource tree source = .ok t) :
    Load.file tree.read? (tree.size + 1) ⟨c.typography, source.font⟩ source.path
      source.declaration = .ok t := by
  unfold loadSource at h
  split at h
  · next ht =>
    cases h
    exact ht
  · cases h

/-- Nothing is marked on the suite of a configuration. -/
theorem blank_suite [Yaml.Parser] {c : Config} {tree : FileTree} {s : Suite}
    (h : c.suite tree = .ok s) : s.Blank :=
  forall_mem_suite (fun _ _ hload x hx =>
    Style.All.imp (Load.raw_file (file_of_loadSource hload) x hx) fun _ hu => hu.1) h

theorem fresh_suite [Yaml.Parser] {c : Config} {tree : FileTree} {s : Suite}
    (h : c.suite tree = .ok s) : s.Fresh :=
  (blank_suite h).fresh

end Config

end Appearance
