import Appearance.Proofs.Imports
import Appearance.Proofs.Reading
import Mathlib.Data.List.DropRight
import Mathlib.Data.List.TakeWhile

/-!
# What is declared is loaded

Each entry of the root mapping of a source is an import, an animator or a declared style
(`Load.Item`). `Load.declarationsIn` lists the declared styles of a source and of all files that it
imports, in the order in which they are met, and `Load.loaded_of_sourceIn` says that the stylesheet
has the styles of these declarations, one by one, and then perhaps that of a symbol font.

Animators are not collected: a stylesheet has that of the last entry of its own source
(`Load.animatorOf`).

`Adds` says what a stretch of entries adds to a stylesheet and is composed along the source, with
`Declaration.Yields` for a single style. Both are told from the items and do not run the loader
again. The recursion over imports has the number of steps of `Load.file`, so nothing is assumed
about the files. Names of stylesheets are trimmed when they are declared, hence the first section:
a declaration that is made of a name again has to give the same name.
-/

namespace Appearance

open Appearance.Text
open Appearance.Yaml (Node)
open Relation (ReflTransGen)

/-! ## Names of stylesheets -/

/-- A trimmed text has no white space left to trim. -/
theorem trimChars_trimChars (cs : List Char) : trimChars (trimChars cs) = trimChars cs := by
  have hfront : trimChars cs <+: trimStartChars cs := List.rdropWhile_prefix isBlank _
  have hstart : trimStartChars (trimChars cs) = trimChars cs := by
    unfold trimStartChars
    rw [List.dropWhile_eq_self_iff]
    intro hl
    have hhead := List.dropWhile_get_zero_not isBlank cs (hl.trans_le hfront.length_le)
    rwa [hfront.getElem hl]
  rw [trimChars, hstart]
  exact List.rdropWhile_idempotent isBlank _

theorem mem_of_mem_trimChars {cs : List Char} {c : Char} (h : c ∈ trimChars cs) : c ∈ cs :=
  (List.dropWhile_suffix isBlank).subset ((List.rdropWhile_prefix isBlank _).subset h)

namespace Stylesheet

/-- The name of a declared stylesheet is the text before the colon, trimmed. -/
theorem toList_name_ofDeclaration (declaration : String) :
    (ofDeclaration declaration).name.toList =
      trimChars (declaration.toList.takeWhile (· != ':')) := by
  unfold ofDeclaration
  dsimp only
  split <;> exact String.toList_ofList

/-- The name of a declared stylesheet declares that name alone. -/
theorem ofDeclaration_name (declaration : String) :
    ofDeclaration (ofDeclaration declaration).name = named (ofDeclaration declaration).name := by
  set name := (ofDeclaration declaration).name with hname
  have hlist := toList_name_ofDeclaration declaration
  rw [← hname] at hlist
  have hcolon : ∀ c ∈ name.toList, (c != ':') = true := by
    intro c hc
    rw [hlist] at hc
    exact List.mem_takeWhile_imp (p := (· != ':')) (mem_of_mem_trimChars hc)
  have htake : name.toList.takeWhile (· != ':') = name.toList :=
    List.takeWhile_eq_self_iff.2 hcolon
  have hdrop : name.toList.dropWhile (· != ':') = [] := List.dropWhile_eq_nil_iff.2 hcolon
  have htrim : trimChars name.toList = name.toList := by rw [hlist, trimChars_trimChars]
  have hempty : trimChars [] = [] := rfl
  unfold ofDeclaration
  simp only [htake, hdrop, htrim, List.tail_nil, hempty, List.isEmpty_nil, if_true,
    String.ofList_toList]

/-- A declared stylesheet begins without styles and animator. -/
theorem empty_ofDeclaration (declaration : String) :
    (ofDeclaration declaration).styles = [] ∧ (ofDeclaration declaration).animator = none := by
  unfold ofDeclaration
  dsimp only
  split <;> exact ⟨rfl, rfl⟩

end Stylesheet

namespace Load

/-! ## Sources in directories -/

/-- The stylesheet of a source that lies in a directory. -/
def sourceIn [Yaml.Parser] (read : Reader) (depth : Nat) (options : LoadOptions)
    (declaration dir text : String) : Except LoadError Stylesheet :=
  sourceWith
    (fun imported => file read depth ⟨options.typography, none⟩ (Path.join dir imported)
      (Stylesheet.ofDeclaration declaration).name)
    options declaration text

theorem source_eq_sourceIn [Yaml.Parser] (read : Reader) (depth : Nat) (options : LoadOptions)
    (declaration text : String) :
    source read depth options declaration text =
      sourceIn read depth options declaration "" text := by
  have hjoin : ∀ file, Path.join "" file = file := fun file => by simp [Path.join]
  simp only [source, sourceIn, hjoin]

theorem file_eq_sourceIn [Yaml.Parser] {read : Reader} {path text : String}
    (h : read path = some text) (depth : Nat) (options : LoadOptions) (declaration : String) :
    file read (depth + 1) options path declaration =
      sourceIn read depth options declaration ((Path.parent? path).getD "") text := by
  rw [file, h]
  rfl

/-- A file that is loaded is there. -/
theorem exists_of_file_ok [Yaml.Parser] {read : Reader} {depth : Nat} {options : LoadOptions}
    {path declaration : String} {t : Stylesheet}
    (h : file read depth options path declaration = .ok t) :
    ∃ rest text, depth = rest + 1 ∧ read path = some text ∧
      sourceIn read rest options declaration ((Path.parent? path).getD "") text = .ok t := by
  cases depth with
  | zero => cases h
  | succ rest =>
    cases hread : read path with
    | none => simp [file, hread] at h
    | some text => exact ⟨rest, text, rfl, rfl, file_eq_sourceIn hread rest options declaration ▸ h⟩

/-! ## Items -/

/-- What an entry of the root mapping says. -/
inductive Item where
  | imports (files : List String)
  | animator (name : String) (node : Node)
  | style (declaration : String) (node : Node)

/-- The item of an entry. -/
def itemOf? (e : Node × Node) : Option Item :=
  e.1.scalarText?.map fun key =>
    if key = importKey then .imports (importsOfNode e.2)
    else
      match stripPrefix? animatorPrefix key with
      | some name => .animator (trim name) e.2
      | none => .style key e.2

theorem itemOf?_imports {e : Node × Node} (h : e.1.scalarText? = some importKey) :
    itemOf? e = some (.imports (importsOfNode e.2)) := by
  rw [itemOf?, h, Option.map_some, if_pos rfl]

theorem itemOf?_animator {e : Node × Node} {key name : String} (h : e.1.scalarText? = some key)
    (hkey : key ≠ importKey) (hname : stripPrefix? animatorPrefix key = some name) :
    itemOf? e = some (.animator (trim name) e.2) := by
  simp only [itemOf?, h, Option.map_some, if_neg hkey, hname]

theorem itemOf?_style {e : Node × Node} {key : String} (h : e.1.scalarText? = some key)
    (hkey : key ≠ importKey) (hname : stripPrefix? animatorPrefix key = none) :
    itemOf? e = some (.style key e.2) := by
  simp only [itemOf?, h, Option.map_some, if_neg hkey, hname]

/-- The entries of the root mapping of a source. -/
def entriesOf [Yaml.Parser] (text : String) : List (Node × Node) :=
  match Yaml.Parser.parse? (Shorthand.expand text) with
  | some (.mapping entries) => entries
  | _ => []

/-- The items of a source. -/
def itemsOf [Yaml.Parser] (text : String) : List Item := (entriesOf text).filterMap itemOf?

/-- The name and the node of an animator. -/
def Item.animator? : Item → Option (String × Node)
  | .animator name node => some (name, node)
  | _ => none

/-- The animator that is declared last. -/
def animatorOf (items : List Item) : Option (String × Node) :=
  items.reverse.findSome? Item.animator?

theorem animatorOf_cons (item : Item) (items : List Item) :
    animatorOf (item :: items) = (animatorOf items).or item.animator? := by
  rw [animatorOf, animatorOf, List.reverse_cons, List.findSome?_append, List.findSome?_singleton]

/-- A declared style. -/
structure Declaration where
  declaration : String
  node : Node
  /-- It stands in an imported file. -/
  imported : Bool

/-- The styles that an item declares; `imported` tells those of an imported file. -/
def Item.declarations (imported : String → List Declaration) : Item → List Declaration
  | .imports files => files.flatMap fun file => (imported file).map ({ · with imported := true })
  | .animator .. => []
  | .style declaration node => [⟨declaration, node, false⟩]

/-- The styles that a file declares, together with those of the files that it imports. -/
def declarationsOfFile [Yaml.Parser] (read : Reader) : Nat → String → List Declaration
  | 0, _ => []
  | depth + 1, path =>
    match read path with
    | none => []
    | some text => (itemsOf text).flatMap <| Item.declarations fun file =>
        declarationsOfFile read depth (Path.join ((Path.parent? path).getD "") file)

/-- The styles that a source in a directory declares, together with those of the files that it
imports. -/
def declarationsIn [Yaml.Parser] (read : Reader) (depth : Nat) (dir text : String) :
    List Declaration :=
  (itemsOf text).flatMap <| Item.declarations fun file =>
    declarationsOfFile read depth (Path.join dir file)

/-- The entries at the top are those of the mapping, if there are any. -/
theorem rootEntries_eq_ok [Yaml.Parser] {ctx : SheetContext} {text : String}
    {entries : List (Node × Node)} (h : rootEntries ctx text = .ok entries) :
    entriesOf text = entries := by
  unfold rootEntries at h
  split at h
  · cases h
  · next root hroot =>
    split at h
    · cases h
    · split at h
      · cases h
        rw [entriesOf, hroot]
      · cases h

/-- The imports of a source are those of its entries. -/
theorem importsOf_eq [Yaml.Parser] (text : String) :
    importsOf text = (entriesOf text).flatMap importsOfEntry := by
  unfold importsOf entriesOf
  generalize Yaml.Parser.parse? (Shorthand.expand text) = root
  cases root with
  | none => rfl
  | some root => cases root <;> rfl

/-- An entry of imports lists the files that are loaded. -/
theorem importedFiles_eq_ok {ctx : SheetContext} {node : Node} {files : List String}
    (h : importedFiles ctx node = .ok files) : importsOfNode node = files := by
  unfold importedFiles at h
  split at h
  · cases h
    rfl
  · next items =>
    rw [importsOfNode]
    have hall := forall₂_of_mapM h
    clear h
    induction hall with
    | nil => rfl
    | @cons item file items files hitem _ ih =>
      split at hitem
      · next text htext =>
        cases hitem
        rw [List.filterMap_cons, htext, ih]
      · cases hitem
  · cases h

/-- An imported file is named by an item of the source. -/
theorem mem_importsOf_iff [Yaml.Parser] {text file : String} :
    file ∈ importsOf text ↔ ∃ files, .imports files ∈ itemsOf text ∧ file ∈ files := by
  rw [importsOf_eq, List.mem_flatMap]
  constructor
  · rintro ⟨e, he, hfile⟩
    unfold importsOfEntry at hfile
    split at hfile
    · next hkey =>
      exact ⟨importsOfNode e.2, List.mem_filterMap.2 ⟨e, he, itemOf?_imports hkey⟩, hfile⟩
    · cases hfile
  · rintro ⟨files, hfiles, hfile⟩
    obtain ⟨e, he, hitem⟩ := List.mem_filterMap.1 hfiles
    refine ⟨e, he, ?_⟩
    obtain ⟨key, hkey, hkind⟩ := Option.map_eq_some_iff.1 hitem
    split at hkind
    · next himport =>
      cases hkind
      rwa [importsOfEntry, if_pos (by rw [hkey, himport])]
    · split at hkind <;> cases hkind

/-! ## Adding items -/

/-- The style is that of the declaration, in a stylesheet that extends `superclass`. -/
def Declaration.Yields (ctx : SheetContext) (superclass : Option String) (d : Declaration)
    (x : Style) : Prop :=
  ∃ y, Style.ofEntry ctx d.declaration d.node = .ok y ∧
    x = y.withHead { y.head with
      extendsSheet := if d.imported then none else superclass
      isDependency := d.imported || y.head.isDependency }

theorem Declaration.Yields.asDependency {ctx : SheetContext} {d : Declaration} {x : Style}
    (h : d.Yields ctx none x) (superclass : Option String) :
    ({ d with imported := true } : Declaration).Yields ctx superclass (asDependency x) := by
  obtain ⟨y, hy, rfl⟩ := h
  refine ⟨y, hy, ?_⟩
  simp [Load.asDependency, Style.withHead]

/-- The second stylesheet is the first one with the styles of the declarations behind its own, and
with the animator, if there is one. -/
structure Adds (ctx : SheetContext) (ds : List Declaration) (last : Option (String × Node))
    (t u : Stylesheet) : Prop where
  superclass_eq : u.superclass = t.superclass
  styles : ∃ new, u.styles = t.styles ++ new ∧
    List.Forall₂ (Declaration.Yields ctx t.superclass) ds new
  animator : ∀ d ∈ last, ∃ a, Style.animatorOfNode ctx d.1 d.2 = .ok a ∧ u.animator = some a
  animator_eq : last = none → u.animator = t.animator

variable {ctx : SheetContext} {f : String → Except LoadError Stylesheet}
  {imported : String → List Declaration} {t u w : Stylesheet}

theorem Adds.refl (ctx : SheetContext) (t : Stylesheet) : Adds ctx [] none t t :=
  ⟨rfl, ⟨[], by simp, .nil⟩, by simp, fun _ => rfl⟩

/-- What is added in two steps is added at once, and the later animator stays. -/
theorem Adds.trans {ds ds' : List Declaration} {a a' : Option (String × Node)}
    (h : Adds ctx ds a t u) (h' : Adds ctx ds' a' u w) :
    Adds ctx (ds ++ ds') (a'.or a) t w where
  superclass_eq := h'.superclass_eq.trans h.superclass_eq
  styles := by
    obtain ⟨new, hnew, hds⟩ := h.styles
    obtain ⟨new', hnew', hds'⟩ := h'.styles
    rw [h.superclass_eq] at hds'
    exact ⟨new ++ new', by rw [hnew', hnew, List.append_assoc], List.rel_append hds hds'⟩
  animator d hd := by
    cases ha : a' with
    | some d' =>
      rw [ha, Option.some_or] at hd
      exact h'.animator d (ha ▸ hd)
    | none =>
      rw [ha, Option.none_or] at hd
      rw [h'.animator_eq ha]
      exact h.animator d hd
  animator_eq ha := by
    rw [Option.or_eq_none_iff] at ha
    rw [h'.animator_eq ha.1, h.animator_eq ha.2]

section Steps

variable (himport : ∀ file dependency, f file = .ok dependency →
  List.Forall₂ (Declaration.Yields ctx none) (imported file) dependency.styles)

include himport

/-- Imports add the styles of their declarations and no animator. -/
theorem adds_addImports {files : List String} (h : addImports f t files = .ok u) :
    Adds ctx ((Item.imports files).declarations imported) none t u := by
  induction files generalizing t with
  | nil =>
    cases h
    exact .refl ctx _
  | cons file files ih =>
    rw [addImports] at h
    split at h
    · next dependency hdependency =>
      have hfirst : Adds ctx ((imported file).map ({ · with imported := true })) none t
          (addImport t file dependency) := by
        refine ⟨rfl, ⟨_, rfl, ?_⟩, by simp, fun _ => rfl⟩
        rw [List.forall₂_map_left_iff, List.forall₂_map_right_iff]
        exact (himport file dependency hdependency).imp fun d x hx => hx.asDependency t.superclass
      exact hfirst.trans (ih h)
    · cases h

/-- An entry adds its item. -/
theorem adds_addEntry {e : Node × Node} (h : addEntry f ctx t e = .ok u) :
    ∃ item, itemOf? e = some item ∧ Adds ctx (item.declarations imported) item.animator? t u := by
  obtain ⟨key, hkey, h⟩ := bind_eq_ok.1 h
  rw [SheetContext.keyText_eq_ok] at hkey
  split at h
  · next hkind =>
    subst hkind
    obtain ⟨files, hfiles, h⟩ := bind_eq_ok.1 h
    refine ⟨_, itemOf?_imports hkey, ?_⟩
    rw [importedFiles_eq_ok hfiles]
    exact adds_addImports himport h
  · next hkind =>
    split at h
    · next name hname =>
      obtain ⟨a, ha, h⟩ := bind_eq_ok.1 h
      cases h
      refine ⟨_, itemOf?_animator hkey hkind hname, rfl, ⟨[], by simp, .nil⟩, fun d hd => ?_,
        fun hnone => by cases hnone⟩
      cases hd
      exact ⟨a, ha, rfl⟩
    · next hname =>
      obtain ⟨x, hx, h⟩ := bind_eq_ok.1 h
      cases h
      refine ⟨_, itemOf?_style hkey hkind hname, rfl, ⟨_, rfl, .cons ⟨x, hx, ?_⟩ .nil⟩,
        by simp [Item.animator?], fun _ => rfl⟩
      simp [Style.withHead]

/-- Entries add their items in order. -/
theorem adds_addEntries {entries : List (Node × Node)} (h : addEntries f ctx t entries = .ok u) :
    Adds ctx ((entries.filterMap itemOf?).flatMap (Item.declarations imported))
      (animatorOf (entries.filterMap itemOf?)) t u := by
  induction entries generalizing t with
  | nil =>
    cases h
    exact .refl ctx _
  | cons e entries ih =>
    rw [addEntries] at h
    split at h
    · next v hv =>
      obtain ⟨item, hitem, hadds⟩ := adds_addEntry himport hv
      rw [List.filterMap_cons_some hitem, List.flatMap_cons, animatorOf_cons]
      exact hadds.trans (ih h)
    · cases h

end Steps

/-! ## Whole sources -/

/-- How the source of a declared stylesheet is read. -/
def contextOf (options : LoadOptions) (declaration : String) : SheetContext :=
  ⟨(Stylesheet.ofDeclaration declaration).name, options.typography⟩

/-- The stylesheet has the styles of the declarations in order, and behind them that of the symbol
font, if there is one. Its animator is the given one. -/
structure Loaded (options : LoadOptions) (declaration : String) (ds : List Declaration)
    (last : Option (String × Node)) (t : Stylesheet) : Prop where
  superclass_eq : t.superclass = (Stylesheet.ofDeclaration declaration).superclass
  styles : ∃ own font, t.styles = own ++ font ∧
    List.Forall₂ (Declaration.Yields (contextOf options declaration) t.superclass) ds own ∧
    List.Forall₂ (fun f x => Style.ofSymbolFont (contextOf options declaration) f t.isBase = .ok x)
      options.symbolFont.toList font
  animator : Option.Rel
    (fun d a => Style.animatorOfNode (contextOf options declaration) d.1 d.2 = .ok a)
    last t.animator

variable {options : LoadOptions} {declaration : String}

/-- The animator of a stylesheet is that of the last entry that gives one. -/
theorem Adds.rel_animator {ds : List Declaration} {last : Option (String × Node)}
    (h : Adds ctx ds last t u) (ht : t.animator = none) :
    Option.Rel (fun d a => Style.animatorOfNode ctx d.1 d.2 = .ok a) last u.animator := by
  cases last with
  | none =>
    rw [h.animator_eq rfl, ht]
    exact .none
  | some d =>
    obtain ⟨a, ha, hua⟩ := h.animator d rfl
    rw [hua]
    exact .some ha

/-- The symbol font adds a style at the end. -/
theorem addSymbolFont_ok {font : Option SymbolFont} (h : addSymbolFont ctx font u = .ok t) :
    t.superclass = u.superclass ∧ t.animator = u.animator ∧
      ∃ new, t.styles = u.styles ++ new ∧
        List.Forall₂ (fun f x => Style.ofSymbolFont ctx f t.isBase = .ok x) font.toList new := by
  cases font with
  | none =>
    cases h
    exact ⟨rfl, rfl, [], (List.append_nil _).symm, .nil⟩
  | some font =>
    rw [addSymbolFont] at h
    obtain ⟨x, hx, rfl⟩ := map_eq_ok.1 h
    exact ⟨rfl, rfl, [x], rfl, .cons hx .nil⟩

/-- A source with its imports is loaded as its declarations say. -/
theorem loaded_of_sourceWith [Yaml.Parser] {text : String}
    (himport : ∀ file dependency, f file = .ok dependency →
      List.Forall₂ (Declaration.Yields (contextOf options declaration) none) (imported file)
        dependency.styles)
    (h : sourceWith f options declaration text = .ok t) :
    Loaded options declaration ((itemsOf text).flatMap (Item.declarations imported))
      (animatorOf (itemsOf text)) t := by
  obtain ⟨entries, hentries, h⟩ := bind_eq_ok.1 h
  obtain ⟨u, hu, h⟩ := bind_eq_ok.1 h
  have hadds := adds_addEntries himport hu
  rw [← rootEntries_eq_ok hentries] at hadds
  obtain ⟨hstyles, hanimator⟩ := Stylesheet.empty_ofDeclaration declaration
  obtain ⟨own, hown, hds⟩ := hadds.styles
  obtain ⟨hsuperclass, hsame, font, hfont, hnew⟩ := addSymbolFont_ok h
  rw [hstyles, List.nil_append] at hown
  refine ⟨hsuperclass.trans hadds.superclass_eq, ⟨own, font, hown ▸ hfont, ?_, hnew⟩, ?_⟩
  · rwa [hsuperclass, hadds.superclass_eq]
  · rw [hsame]
    exact hadds.rel_animator hanimator

/-- A source is loaded with what it and the files that it imports declare. -/
theorem loaded_of_sourceIn [Yaml.Parser] {read : Reader} {depth : Nat} {dir text : String}
    (h : sourceIn read depth options declaration dir text = .ok t) :
    Loaded options declaration (declarationsIn read depth dir text) (animatorOf (itemsOf text))
      t := by
  induction depth generalizing options declaration dir text t with
  | zero => exact loaded_of_sourceWith (fun file dependency hfile => by cases hfile) h
  | succ depth ih =>
    refine loaded_of_sourceWith (fun file dependency hfile => ?_) h
    obtain ⟨rest, text', hrest, hread, hfile⟩ := exists_of_file_ok hfile
    cases hrest
    have hloaded := ih hfile
    have hcontext :
        contextOf ⟨options.typography, none⟩ (Stylesheet.ofDeclaration declaration).name =
          contextOf options declaration := by
      rw [contextOf, Stylesheet.ofDeclaration_name]
      rfl
    have hsuperclass : dependency.superclass = none := by
      rw [hloaded.superclass_eq, Stylesheet.ofDeclaration_name]
      rfl
    obtain ⟨own, font, hstyles, hds, hfont⟩ := hloaded.styles
    -- a file is imported without a symbol font, so each of its styles is declared
    cases hfont
    rw [List.append_nil] at hstyles
    rw [declarationsOfFile, hread, hstyles]
    rwa [hcontext, hsuperclass] at hds

/-! ## Imported files -/

/-- Every entry was added without an error. -/
theorem exists_of_addEntries_ok {entries : List (Node × Node)}
    (h : addEntries f ctx t entries = .ok u) {e : Node × Node} (he : e ∈ entries) :
    ∃ v w, addEntry f ctx v e = .ok w := by
  induction entries generalizing t with
  | nil => cases he
  | cons d entries ih =>
    rw [addEntries] at h
    split at h
    · next v hv =>
      rcases List.mem_cons.1 he with rfl | he
      · exact ⟨t, v, hv⟩
      · exact ih h he
    · cases h

/-- Every import was loaded without an error. -/
theorem exists_of_addImports_ok {files : List String} (h : addImports f t files = .ok u)
    {file : String} (hfile : file ∈ files) : ∃ dependency, f file = .ok dependency := by
  induction files generalizing t with
  | nil => cases hfile
  | cons d files ih =>
    rw [addImports] at h
    split at h
    · next dependency hdependency =>
      rcases List.mem_cons.1 hfile with rfl | hfile
      · exact ⟨dependency, hdependency⟩
      · exact ih h hfile
    · cases h

/-- Every entry of a source that is loaded is an item. -/
theorem exists_item_of_sourceWith_ok [Yaml.Parser] {text : String}
    (h : sourceWith f options declaration text = .ok t) {e : Node × Node}
    (he : e ∈ entriesOf text) : ∃ item ∈ itemsOf text, itemOf? e = some item := by
  obtain ⟨entries, hentries, h⟩ := bind_eq_ok.1 h
  obtain ⟨u, hu, -⟩ := bind_eq_ok.1 h
  have hmem := he
  rw [rootEntries_eq_ok hentries] at hmem
  obtain ⟨v, w, hvw⟩ := exists_of_addEntries_ok hu hmem
  obtain ⟨key, hkey, -⟩ := bind_eq_ok.1 hvw
  have hsome : (itemOf? e).isSome := by
    rw [itemOf?, SheetContext.keyText_eq_ok.1 hkey]
    rfl
  obtain ⟨item, hitem⟩ := Option.isSome_iff_exists.1 hsome
  exact ⟨item, List.mem_filterMap.2 ⟨e, he, hitem⟩, hitem⟩

/-- Every file that a source imports is loaded with it. -/
theorem exists_of_import_ok [Yaml.Parser] {text file : String}
    (h : sourceWith f options declaration text = .ok t) (hfile : file ∈ importsOf text) :
    ∃ dependency, f file = .ok dependency := by
  obtain ⟨entries, hentries, h⟩ := bind_eq_ok.1 h
  obtain ⟨u, hu, -⟩ := bind_eq_ok.1 h
  rw [importsOf_eq, rootEntries_eq_ok hentries] at hfile
  obtain ⟨e, he, hfile⟩ := List.mem_flatMap.1 hfile
  obtain ⟨v, w, hvw⟩ := exists_of_addEntries_ok hu he
  obtain ⟨key, hkey, hvw⟩ := bind_eq_ok.1 hvw
  unfold importsOfEntry at hfile
  split at hfile
  · next himport =>
    obtain rfl : importKey = key :=
      Option.some.inj (himport.symm.trans (SheetContext.keyText_eq_ok.1 hkey))
    rw [if_pos rfl] at hvw
    obtain ⟨files, hfiles, hvw⟩ := bind_eq_ok.1 hvw
    rw [importedFiles_eq_ok hfiles] at hfile
    exact exists_of_addImports_ok hvw hfile
  · cases hfile

/-- A source in a directory imports a file, directly or through others. -/
def Reaches [Yaml.Parser] (read : Reader) (dir text path : String) : Prop :=
  ∃ file ∈ importsOf text, ReflTransGen (Imports read) (Path.join dir file) path

theorem mem_declarations_of_import [Yaml.Parser] (imported : String → List Declaration)
    {text file : String} (hfile : file ∈ importsOf text) {d : Declaration}
    (hd : d ∈ imported file) :
    { d with imported := true } ∈ (itemsOf text).flatMap (Item.declarations imported) := by
  obtain ⟨files, hfiles, hmem⟩ := mem_importsOf_iff.1 hfile
  exact List.mem_flatMap.2 ⟨_, hfiles, List.mem_flatMap.2 ⟨file, hmem, List.mem_map_of_mem hd⟩⟩

/-- A file that is loaded declares what each file declares to which imports lead from it, and that
file is loaded too. -/
theorem declares_of_reflTransGen [Yaml.Parser] {read : Reader} {path path' : String}
    (hreach : ReflTransGen (Imports read) path path') {depth : Nat}
    (h : file read depth options path declaration = .ok t) :
    ∃ text' dependency depth' options' declaration',
      read path' = some text' ∧
      sourceIn read depth' options' declaration' ((Path.parent? path').getD "") text' =
        .ok dependency ∧
      ∀ key node, .style key node ∈ itemsOf text' →
        ∃ b, ⟨key, node, b⟩ ∈ declarationsOfFile read depth path := by
  -- from the head on: the first file imports the next one, which is loaded at a smaller depth
  induction hreach using ReflTransGen.head_induction_on
    generalizing depth options declaration t with
  | refl =>
    obtain ⟨rest, text, rfl, hread, hsource⟩ := exists_of_file_ok h
    refine ⟨text, t, rest, options, declaration, hread, hsource, fun key node hitem => ⟨false, ?_⟩⟩
    rw [declarationsOfFile, hread]
    exact List.mem_flatMap.2 ⟨_, hitem, List.mem_singleton_self _⟩
  | @head path next hstep _ ih =>
    obtain ⟨rest, text, rfl, hread, hsource⟩ := exists_of_file_ok h
    obtain ⟨text₀, htext₀, file, hfile, rfl⟩ := hstep
    obtain rfl : text = text₀ := Option.some.inj (hread.symm.trans htext₀)
    obtain ⟨dependency, hdependency⟩ := exists_of_import_ok hsource hfile
    obtain ⟨text', dependency', depth', options', declaration', hread', hsource', hdeclares⟩ :=
      ih hdependency
    refine ⟨text', dependency', depth', options', declaration', hread', hsource',
      fun key node hitem => ⟨true, ?_⟩⟩
    obtain ⟨b, hb⟩ := hdeclares key node hitem
    rw [declarationsOfFile, hread]
    exact mem_declarations_of_import (fun file => declarationsOfFile read rest
      (Path.join ((Path.parent? path).getD "") file)) hfile hb

/-! ## The mappings of styles -/

/-- The entries of a mapping without a tag. -/
def mappingOf? : Node → Option (List (Node × Node))
  | .mapping entries => some entries
  | _ => none

/-- The entries of an animator. -/
def animationEntries (last : Option (String × Node)) : List (Node × Node) :=
  (last.bind fun d => mappingOf? d.2).getD []

/-- The mappings of the declared styles, then those of the animations. -/
def bodiesOf (ds : List Declaration) (last : Option (String × Node)) : List (List (Node × Node)) :=
  (ds.filterMap fun d => mappingOf? d.node) ++
    (animationEntries last).filterMap fun e => mappingOf? e.2

/-- A style has what the mapping of its declaration says. -/
theorem Declaration.Yields.reads {superclass : Option String} {d : Declaration} {x : Style}
    (h : d.Yields ctx superclass x) :
    ∃ entries, mappingOf? d.node = some entries ∧ x.Reads ctx entries ∧
      x.name = Style.declaredName d.declaration := by
  obtain ⟨y, hy, rfl⟩ := h
  obtain ⟨entries, hentries, hread, hname⟩ := Style.reads_ofEntry hy
  exact ⟨entries, by rw [hentries, mappingOf?], hread.withHead _, hname⟩

/-- The styles of declarations have what the mappings of these say, one by one. -/
theorem forall₂_reads_declarations {superclass : Option String} {ds : List Declaration}
    {own : List Style} (h : List.Forall₂ (Declaration.Yields ctx superclass) ds own) :
    List.Forall₂ (fun body x => Style.Reads ctx body x) (ds.filterMap fun d => mappingOf? d.node)
        own ∧
      own.map Style.name = ds.map fun d => Style.declaredName d.declaration := by
  induction h with
  | nil => exact ⟨.nil, rfl⟩
  | cons hd _ ih =>
    obtain ⟨entries, hentries, hread, hname⟩ := hd.reads
    simp only [List.filterMap_cons, hentries, List.map_cons, hname, ih.2, and_true]
    exact .cons hread ih.1

/-- The key of the animation that an entry declares. -/
def animationKey (e : Node × Node) : String :=
  Property.keyOf (Style.declaredName (e.1.scalarText?.getD ""))

/-- The animations of an animator have what the mappings below its key say. -/
theorem forall₂_reads_animations {name : String} {entries : List (Node × Node)}
    {ps : List Property}
    (h : List.Forall₂ (fun e p => Style.animationOfEntry ctx name e = .ok p) entries ps) :
    List.Forall₂ (fun body x => Style.Reads ctx body x)
        (entries.filterMap fun e => mappingOf? e.2) (ps.filterMap Property.style?) ∧
      (∀ p ∈ ps, p.value? = none) ∧ ps.map Property.key = entries.map animationKey := by
  induction h with
  | nil => exact ⟨.nil, by simp, rfl⟩
  | @cons e p entries ps hp _ ih =>
    obtain ⟨declaration, es, k, x, hkey, hes, rfl, hread, -, hk⟩ := Style.reads_animationOfEntry hp
    have hmapping : mappingOf? e.2 = some es := by rw [hes, mappingOf?]
    have hstyle : (Property.nested k x).style? = some x := rfl
    have hanimationKey : animationKey e = k.key := by
      rw [animationKey, hkey, Option.getD_some, hk]
    have hvalue : (Property.nested k x).value? = none := rfl
    have hkeys : (Property.nested k x).key = k.key := rfl
    simp only [List.filterMap_cons, hmapping, hstyle, List.map_cons, hanimationKey, hkeys, ih.2.2,
      and_true]
    exact ⟨.cons hread ih.1, List.forall_mem_cons.2 ⟨hvalue, ih.2.1⟩⟩

/-- The styles of a stylesheet that is loaded, and its animations, are read from the mappings. -/
structure Loaded.Bodied (ctx : SheetContext) (ds : List Declaration)
    (last : Option (String × Node)) (own : List Style) (t : Stylesheet) : Prop where
  reads : List.Forall₂ (fun body x => Style.Reads ctx body x) (bodiesOf ds last)
    (own ++ t.animations)
  names : own.map Style.name = ds.map fun d => Style.declaredName d.declaration
  values : ∀ a ∈ t.animator, ∀ p ∈ a.properties, p.value? = none
  keys : (t.animator.map fun a => a.properties.map Property.key).getD [] =
    (animationEntries last).map animationKey

/-- The styles of a loaded stylesheet come from mappings, but for that of a symbol font. -/
theorem Loaded.exists_bodied {ds : List Declaration} {last : Option (String × Node)}
    (h : Loaded options declaration ds last t) :
    ∃ own font, t.styles = own ++ font ∧
      List.Forall₂
        (fun f x => Style.ofSymbolFont (contextOf options declaration) f t.isBase = .ok x)
        options.symbolFont.toList font ∧
      Bodied (contextOf options declaration) ds last own t := by
  obtain ⟨own, font, hstyles, hds, hfont⟩ := h.styles
  obtain ⟨hread, hnames⟩ := forall₂_reads_declarations hds
  refine ⟨own, font, hstyles, hfont, ?_⟩
  have hanimator := h.animator
  generalize ht : t.animator = o at hanimator
  cases hanimator with
  | none =>
    have hanimations : t.animations = [] := by rw [Stylesheet.animations, ht]
    have hbodies : bodiesOf ds none = ds.filterMap fun d => mappingOf? d.node :=
      List.append_nil _
    refine ⟨?_, hnames, fun a ha => ?_, by rw [ht]; rfl⟩
    · rwa [hbodies, hanimations, List.append_nil]
    · rw [ht] at ha
      cases ha
  | @some d a ha =>
    obtain ⟨entries, hentries, -, hall⟩ := Style.animations_animatorOfNode ha
    obtain ⟨hreads, hvalues, hkeys⟩ := forall₂_reads_animations hall
    have hanimations : t.animations = a.nestedStyles := by rw [Stylesheet.animations, ht]
    have hlast : animationEntries (some d) = entries := by
      simp [animationEntries, hentries, mappingOf?]
    refine ⟨?_, hnames, fun b hb => ?_, by rw [ht, hlast]; exact hkeys⟩
    · rw [bodiesOf, hlast, hanimations]
      exact List.rel_append hread hreads
    · rw [ht] at hb
      cases hb
      exact hvalues

/-- What is said of one level by a style as by its mapping, is said of every depth of the styles and
animations as of the mappings. -/
theorem Loaded.Bodied.all_iff {ds : List Declaration} {last : Option (String × Node)}
    {own : List Style} (h : Bodied ctx ds last own t) {P : Style → Prop}
    {S : List (Node × Node) → Prop} (hPS : ∀ (u : Style) m, u.Reads ctx m → (P u ↔ S m)) :
    (∀ x ∈ own ++ t.animations, x.All P) ↔
      ∀ body ∈ bodiesOf ds last, ∀ m, Style.Nests body m → S m := by
  constructor
  · intro hall body hbody
    obtain ⟨x, hx, hread⟩ := exists_mem_of_forall₂ h.reads.flip hbody
    exact (Style.all_iff_nests hPS hread).1 (hall x hx)
  · intro hall x hx
    obtain ⟨body, hbody, hread⟩ := exists_mem_of_forall₂ h.reads hx
    exact (Style.all_iff_nests hPS hread).2 (hall body hbody)

/-! ## Nothing is lost -/

/-- Every entry of a source is an item, and every style that it declares is in the stylesheet. -/
def KeepsStyles [Yaml.Parser] (options : LoadOptions) (declaration text : String) (imported : Bool)
    (t : Stylesheet) : Prop :=
  ∀ e ∈ entriesOf text, ∃ item, itemOf? e = some item ∧
    ∀ key node, item = .style key node → ∃ x ∈ t.styles,
      (⟨key, node, imported⟩ : Declaration).Yields (contextOf options declaration) t.superclass x

/-- The stylesheet has the animator with an animation for each entry, in order. -/
def KeepsAnimator (options : LoadOptions) (declaration : String) (d : String × Node)
    (t : Stylesheet) : Prop :=
  ∃ entries a, d.2 = .mapping entries ∧ t.animator = some a ∧ a.name = d.1 ∧
    List.Forall₂
      (fun e p => Style.animationOfEntry (contextOf options declaration) d.1 e = .ok p)
      entries a.properties

/-- A loaded stylesheet keeps the style of each of its declarations. -/
theorem Loaded.keepsStyles [Yaml.Parser] {ds : List Declaration} {last : Option (String × Node)}
    {text : String} {imported : Bool} (h : Loaded options declaration ds last t)
    (hitems : ∀ e ∈ entriesOf text, ∃ item ∈ itemsOf text, itemOf? e = some item)
    (hds : ∀ key node, .style key node ∈ itemsOf text → ⟨key, node, imported⟩ ∈ ds) :
    KeepsStyles options declaration text imported t := by
  intro e he
  obtain ⟨item, hmem, hitem⟩ := hitems e he
  refine ⟨item, hitem, fun key node hstyle => ?_⟩
  subst hstyle
  obtain ⟨own, font, hstyles, hyields, -⟩ := h.styles
  obtain ⟨x, hx, hdx⟩ := exists_mem_of_forall₂ hyields.flip (hds key node hmem)
  exact ⟨x, by rw [hstyles]; exact List.mem_append_left _ hx, hdx⟩

/-- No style is lost of a source and of the files that it imports, directly or through others: the
styles of the stylesheet are those of the declarations, one by one. The animator that the source
declares last is kept with all its animations. -/
theorem loses_no_style [Yaml.Parser] {read : Reader} {depth : Nat} {dir text : String}
    (h : sourceIn read depth options declaration dir text = .ok t) :
    KeepsStyles options declaration text false t ∧
      (∀ path, Reaches read dir text path →
        ∃ text', read path = some text' ∧ KeepsStyles options declaration text' true t) ∧
      Loaded options declaration (declarationsIn read depth dir text) (animatorOf (itemsOf text))
        t ∧
      ∀ d ∈ animatorOf (itemsOf text), KeepsAnimator options declaration d t := by
  have hloaded := loaded_of_sourceIn h
  refine ⟨?_, fun path hpath => ?_, hloaded, fun d hd => ?_⟩
  · exact hloaded.keepsStyles (fun e he => exists_item_of_sourceWith_ok h he)
      fun key node hitem => List.mem_flatMap.2 ⟨_, hitem, List.mem_singleton_self _⟩
  · obtain ⟨file, hfile, hreach⟩ := hpath
    obtain ⟨dependency, hdependency⟩ := exists_of_import_ok h hfile
    obtain ⟨text', _, _, _, _, hread, hsource, hdeclares⟩ :=
      declares_of_reflTransGen hreach hdependency
    refine ⟨text', hread, hloaded.keepsStyles
      (fun e he => exists_item_of_sourceWith_ok hsource he) fun key node hitem => ?_⟩
    obtain ⟨b, hb⟩ := hdeclares key node hitem
    exact mem_declarations_of_import (fun file => declarationsOfFile read depth
      (Path.join dir file)) hfile hb
  · have hanimator := hloaded.animator
    rw [Option.mem_def.1 hd] at hanimator
    generalize ht : t.animator = o at hanimator
    cases hanimator with
    | @some _ a ha =>
      obtain ⟨entries, hentries, hname, hanimations⟩ := Style.animations_animatorOfNode ha
      exact ⟨entries, a, hentries, ht, hname, hanimations⟩

/-- A file with a style and an animator. -/
def motionFile : FileTree := ⟨[(["lib.yml"], .file "Label: {}\n__animator Motion: {}\n")]⟩

/-- A source that imports it and has a style and an animator of its own. -/
def springSource : String := "import: lib.yml\n__animator Spring:\n  fade: {}\nButton: {}\n"

/-- The styles of the imported file stand in front, and the animator is that of the source itself.
-/
theorem loses_no_style_springSource :
    ∃ t, source motionFile.read? 1 ⟨[], none⟩ "Theme" springSource = .ok t ∧
      t.styles.map Style.name = ["Label", "Button"] ∧
      KeepsStyles ⟨[], none⟩ "Theme" springSource false t ∧
      (∀ path, Reaches motionFile.read? "" springSource path →
        ∃ text', motionFile.read? path = some text' ∧ KeepsStyles ⟨[], none⟩ "Theme" text' true t) ∧
      Loaded ⟨[], none⟩ "Theme" (declarationsIn motionFile.read? 1 "" springSource)
        (animatorOf (itemsOf springSource)) t ∧
      ∀ d ∈ animatorOf (itemsOf springSource), KeepsAnimator ⟨[], none⟩ "Theme" d t := by
  have hrun : (source motionFile.read? 1 ⟨[], none⟩ "Theme" springSource).toOption.any
      (fun t => t.styles.map Style.name == ["Label", "Button"]) = true := by
    decide +kernel
  obtain ⟨t, ht, hnames⟩ := exists_ok_of_any hrun
  exact ⟨t, ht, by simpa using hnames, loses_no_style (source_eq_sourceIn _ _ _ _ _ ▸ ht)⟩

/-- The names of the animators that a source declares. -/
def animatorNames [Yaml.Parser] (text : String) : List String :=
  ((itemsOf text).filterMap Item.animator?).map Prod.fst

/-- A source with two animators. -/
def twoAnimators : String := "__animator Motion: {}\n__animator Spring: {}\n"

/-- Neither the first of two animators is in the stylesheet, nor that of an imported file. -/
theorem loses_animators :
    (∃ t, source motionFile.read? 1 ⟨[], none⟩ "Theme" twoAnimators = .ok t ∧
      "Motion" ∈ animatorNames twoAnimators ∧ ∀ x ∈ t.allStyles, x.name ≠ "Motion") ∧
    ∃ t, source motionFile.read? 1 ⟨[], none⟩ "Theme" "import: lib.yml\n" = .ok t ∧
      Reaches motionFile.read? "" "import: lib.yml\n" "lib.yml" ∧
      (∃ text', motionFile.read? "lib.yml" = some text' ∧ "Motion" ∈ animatorNames text') ∧
      ∀ x ∈ t.allStyles, x.name ≠ "Motion" := by
  have hfirst : (source motionFile.read? 1 ⟨[], none⟩ "Theme" twoAnimators).toOption.any
      (fun t => t.allStyles.all (·.name != "Motion")) = true := by
    decide +kernel
  have hsecond : (source motionFile.read? 1 ⟨[], none⟩ "Theme" "import: lib.yml\n").toOption.any
      (fun t => t.allStyles.all (·.name != "Motion")) = true := by
    decide +kernel
  obtain ⟨t, ht, hnames⟩ := exists_ok_of_any hfirst
  obtain ⟨u, hu, hnames'⟩ := exists_ok_of_any hsecond
  refine ⟨⟨t, ht, by decide +kernel, by simpa using hnames⟩, u, hu,
    ⟨"lib.yml", by decide +kernel, .refl⟩, ⟨_, rfl, by decide +kernel⟩, by simpa using hnames'⟩

end Load

end Appearance
