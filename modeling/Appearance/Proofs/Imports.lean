import Appearance.FileTree
import Appearance.Proofs.Runs
import Appearance.Sheet.Load
import Appearance.Yaml.Node.Read
import Mathlib

/-!
# Imports that end

A file is loaded with the files that it imports, and these with theirs. Loading is bounded by a
depth, and it fails with an endless import where that runs out. Nothing else fails so (`Ends`), and
what a source gives depends on the loader only at the files that it imports (`sourceWith_congr`).

In a tree in which no file comes to import itself the depth does not matter, once it is greater than
the size of the tree (`file_ends`). A file that imports itself is not loaded at any depth
(`endless_selfImport`).

The depth counts the files on the way to an import. A way without a return comes to each place of
the tree once at most, so it is not longer than the tree is large (`file_of_visited`): the
induction is on the places that have not been visited. Nothing is supposed of the reader of nodes.
-/

namespace Appearance.Load

open Appearance.Yaml (Node)
open Relation (ReflTransGen TransGen)

/-! ## Results that are no endless import -/

/-- The result is a value or an error of the source. -/
def Ends {α : Type} (x : Except LoadError α) : Prop :=
  ∀ path, x ≠ .error (.endlessImport path)

section Ends

variable {α β : Type}

theorem ends_ok (a : α) : Ends (.ok a : Except LoadError α) := fun _ h => by cases h

theorem ends_fail (ctx : SheetContext) (fault : SheetFault) :
    Ends (ctx.fail fault : Except LoadError α) :=
  fun _ h => by cases h

theorem ends_illegal (ctx : SheetContext) (key : String) (x : Except ValueError α) :
    Ends (ctx.illegal key x) :=
  fun _ h => by cases x <;> cases h

theorem ends_keyText (ctx : SheetContext) (key : Node) : Ends (ctx.keyText key) := by
  unfold SheetContext.keyText
  split
  · exact ends_ok _
  · exact ends_fail _ _

theorem Ends.bind {x : Except LoadError α} {f : α → Except LoadError β} (hx : Ends x)
    (hf : ∀ a, x = .ok a → Ends (f a)) : Ends (x >>= f) := by
  cases x with
  | error e => exact fun path h => hx path (by cases h; rfl)
  | ok a => exact hf a rfl

theorem Ends.map {x : Except LoadError α} (hx : Ends x) (f : α → β) : Ends (x.map f) := by
  cases x with
  | error e => exact fun path h => hx path (by cases h; rfl)
  | ok a => exact ends_ok _

theorem ends_mapM {l : List α} {f : α → Except LoadError β} (hf : ∀ a ∈ l, Ends (f a)) :
    Ends (l.mapM f) := fun path h =>
  have ⟨a, ha, hfa⟩ := exists_of_mapM_eq_error h
  hf a ha path hfa

end Ends

/-! ## Styles -/

/-- No property makes loading endless. -/
theorem ends_propertyOfNode (ctx : SheetContext) (depth : Nat) (key : String) (node : Node) :
    Ends (Style.propertyOfNode ctx depth key node) := by
  induction depth generalizing key node with
  | zero => exact (ends_illegal _ _ _).map _
  | succ depth ih =>
    unfold Style.propertyOfNode
    split
    · split
      · exact (ends_illegal _ _ _).map _
      · split
        · exact (ends_mapM fun e _ => (ends_keyText ctx e.1).bind fun key _ => ih key e.2).bind
            fun _ _ => ends_ok _
        · exact (ends_illegal _ _ _).map _
    · exact (ends_illegal _ _ _).map _

/-- No style makes loading endless. -/
theorem ends_ofEntry (ctx : SheetContext) (declaration : String) (node : Node) :
    Ends (Style.ofEntry ctx declaration node) := by
  unfold Style.ofEntry
  split
  · exact (ends_mapM fun e _ => (ends_keyText ctx e.1).bind fun key _ =>
      ends_propertyOfNode ctx _ key e.2).map _
  · exact ends_fail _ _

theorem ends_animatorOfNode (ctx : SheetContext) (name : String) (node : Node) :
    Ends (Style.animatorOfNode ctx name node) := by
  unfold Style.animatorOfNode
  split
  · exact (ends_mapM fun e _ => (ends_keyText ctx e.1).bind fun key _ =>
      (ends_ofEntry ctx key e.2).bind fun _ _ => ends_ok _).map _
  · exact ends_fail _ _

theorem ends_addSymbolFont (ctx : SheetContext) (font : Option SymbolFont) (sheet : Stylesheet) :
    Ends (addSymbolFont ctx font sheet) := by
  have hproperty : ∀ key name, Ends (Style.symbolFontProperty ctx key name) := fun key name =>
    (ends_illegal _ _ _).map _
  unfold addSymbolFont
  split
  · exact ends_ok _
  · exact ((hproperty _ _).bind fun _ _ => (hproperty _ _).bind fun _ _ => ends_ok _).map _

/-- The entries at the top are read without an endless import. -/
theorem ends_rootEntries [Yaml.Parser] (ctx : SheetContext) (source : String) :
    Ends (rootEntries ctx source) := by
  unfold rootEntries
  split
  · exact fun _ h => by cases h
  · split
    · exact ends_fail _ _
    · split
      · exact ends_ok _
      · exact ends_fail _ _

theorem ends_importedFiles (ctx : SheetContext) (node : Node) : Ends (importedFiles ctx node) := by
  unfold importedFiles
  split
  · exact ends_ok _
  · refine ends_mapM fun item _ => ?_
    split
    · exact ends_ok _
    · exact ends_fail _ _
  · exact ends_fail _ _

/-! ## The files that a source imports -/

/-- The files that the value of an import names. -/
def importsOfNode : Node → List String
  | .string file => [file]
  | .sequence items => items.filterMap Node.asText?
  | _ => []

/-- The files that an entry of the root mapping imports. -/
def importsOfEntry (e : Node × Node) : List String :=
  if e.1.scalarText? = some importKey then importsOfNode e.2 else []

/-- The files that a source imports. -/
def importsOf [Yaml.Parser] (source : String) : List String :=
  match Yaml.Parser.parse? (Shorthand.expand source) with
  | some (.mapping entries) => entries.flatMap importsOfEntry
  | _ => []

variable {f g : String → Except LoadError Stylesheet} {ctx : SheetContext}

/-- The files that are imported are those that the node lists. -/
theorem mem_importsOfNode {node : Node} {files : List String}
    (h : importedFiles ctx node = .ok files) : files ⊆ importsOfNode node := by
  unfold importedFiles at h
  split at h
  · cases h
    exact List.Subset.refl _
  · intro file hfile
    obtain ⟨item, hitem, htext⟩ := exists_mem_of_forall₂ (forall₂_of_mapM h) hfile
    refine List.mem_filterMap.2 ⟨item, hitem, ?_⟩
    split at htext
    · next text heq =>
      cases htext
      exact heq
    · cases htext
  · cases h

/-- An entry under the key of imports lists imports. -/
theorem importsOfEntry_eq {e : Node × Node} (h : ctx.keyText e.1 = .ok importKey) :
    importsOfEntry e = importsOfNode e.2 := by
  unfold SheetContext.keyText at h
  split at h
  · next text htext =>
    cases h
    rw [importsOfEntry, if_pos htext]
  · cases h

/-- What an entry of a source lists are imports of the source. -/
theorem mem_importsOf [Yaml.Parser] {source : String} {entries : List (Node × Node)}
    (h : rootEntries ctx source = .ok entries) {e : Node × Node} (he : e ∈ entries) :
    importsOfEntry e ⊆ importsOf source := by
  unfold rootEntries at h
  split at h
  · cases h
  · next root hroot =>
    split at h
    · cases h
    · split at h
      · cases h
        rw [importsOf, hroot]
        exact fun file hfile => List.mem_flatMap.2 ⟨e, he, hfile⟩
      · cases h

/-! ## Loading one source -/

/-- Adding imports depends on the loader only at the files added. -/
theorem addImports_congr {files : List String} (h : ∀ file ∈ files, f file = g file)
    (sheet : Stylesheet) : addImports f sheet files = addImports g sheet files := by
  induction files generalizing sheet with
  | nil => rfl
  | cons file files ih =>
    rw [addImports, addImports, h file List.mem_cons_self]
    split
    · exact ih (fun file' h' => h file' (List.mem_cons_of_mem file h')) _
    · rfl

/-- Adding imports is endless only where loading one of them is. -/
theorem ends_addImports {files : List String} (h : ∀ file ∈ files, Ends (f file))
    (sheet : Stylesheet) : Ends (addImports f sheet files) := by
  induction files generalizing sheet with
  | nil => exact ends_ok _
  | cons file files ih =>
    rw [addImports]
    split
    · exact ih (fun file' h' => h file' (List.mem_cons_of_mem file h')) _
    · next e he =>
      intro path hpath
      cases hpath
      exact h file List.mem_cons_self path he

/-- Adding an entry depends on the loader only at the files that it lists. -/
theorem addEntry_congr {e : Node × Node} (h : ∀ file ∈ importsOfEntry e, f file = g file)
    (sheet : Stylesheet) : addEntry f ctx sheet e = addEntry g ctx sheet e := by
  unfold addEntry
  cases hkey : ctx.keyText e.1 with
  | error error => rfl
  | ok key =>
    by_cases himport : key = importKey
    · subst himport
      rw [importsOfEntry_eq hkey] at h
      cases hfiles : importedFiles ctx e.2 with
      | error error => rfl
      | ok files =>
        exact addImports_congr (fun file hfile => h file (mem_importsOfNode hfiles hfile)) sheet
    · simp only [bind, Except.bind, if_neg himport]

/-- Adding an entry is endless only where loading one of its files is. -/
theorem ends_addEntry {e : Node × Node} (h : ∀ file ∈ importsOfEntry e, Ends (f file))
    (sheet : Stylesheet) : Ends (addEntry f ctx sheet e) := by
  unfold addEntry
  refine (ends_keyText ctx e.1).bind fun key hkey => ?_
  split
  · next himport =>
    subst himport
    rw [importsOfEntry_eq hkey] at h
    exact (ends_importedFiles ctx e.2).bind fun files hfiles =>
      ends_addImports (fun file hfile => h file (mem_importsOfNode hfiles hfile)) sheet
  · split
    · exact (ends_animatorOfNode _ _ _).bind fun _ _ => ends_ok _
    · exact (ends_ofEntry _ _ _).bind fun _ _ => ends_ok _

theorem addEntries_congr {entries : List (Node × Node)}
    (h : ∀ e ∈ entries, ∀ file ∈ importsOfEntry e, f file = g file) (sheet : Stylesheet) :
    addEntries f ctx sheet entries = addEntries g ctx sheet entries := by
  induction entries generalizing sheet with
  | nil => rfl
  | cons e es ih =>
    rw [addEntries, addEntries, addEntry_congr (h e List.mem_cons_self)]
    split
    · exact ih (fun e' he' => h e' (List.mem_cons_of_mem e he')) _
    · rfl

theorem ends_addEntries {entries : List (Node × Node)}
    (h : ∀ e ∈ entries, ∀ file ∈ importsOfEntry e, Ends (f file)) (sheet : Stylesheet) :
    Ends (addEntries f ctx sheet entries) := by
  induction entries generalizing sheet with
  | nil => exact ends_ok _
  | cons e es ih =>
    rw [addEntries]
    split
    · exact ih (fun e' he' => h e' (List.mem_cons_of_mem e he')) _
    · next error herror =>
      intro path hpath
      cases hpath
      exact ends_addEntry (h e List.mem_cons_self) sheet path herror

variable {options : LoadOptions} {declaration source : String}

/-- What a source gives depends on the loader at the files that it imports only. -/
theorem sourceWith_congr [Yaml.Parser] (h : ∀ file ∈ importsOf source, f file = g file) :
    sourceWith f options declaration source = sourceWith g options declaration source := by
  unfold sourceWith
  dsimp only
  cases hentries : rootEntries ⟨(Stylesheet.ofDeclaration declaration).name, options.typography⟩
      source with
  | error error => rfl
  | ok entries =>
    simp only [bind, Except.bind,
      addEntries_congr fun e he file hfile => h file (mem_importsOf hentries he hfile)]

theorem ends_sourceWith [Yaml.Parser] (h : ∀ file ∈ importsOf source, Ends (f file)) :
    Ends (sourceWith f options declaration source) := by
  unfold sourceWith
  exact (ends_rootEntries _ _).bind fun entries hentries =>
    (ends_addEntries (fun e he file hfile => h file (mem_importsOf hentries he hfile)) _).bind
      fun sheet _ => ends_addSymbolFont _ _ _

/-! ## Loading files -/

/-- A file imports another one, each given by its path. -/
def Imports [Yaml.Parser] (read : Reader) (path path' : String) : Prop :=
  ∃ text, read path = some text ∧
    ∃ file ∈ importsOf text, path' = Path.join ((Path.parent? path).getD "") file

/-- No file to which imports lead from a path comes to import itself. -/
def NoReturn [Yaml.Parser] (tree : FileTree) (path : String) : Prop :=
  ∀ x y, ReflTransGen (Imports tree.read?) path x → TransGen (Imports tree.read?) x y →
    ∀ place, tree.locate x = .ok place → tree.locate y ≠ .ok place

/-- A file that can be read stands at a place of the tree. -/
theorem exists_place {tree : FileTree} {path text : String} (h : tree.read? path = some text) :
    ∃ place, tree.locate path = .ok place ∧ place ∈ tree.entries.map Prod.fst := by
  unfold FileTree.read? FileTree.read at h
  split at h
  · cases h
  · next place hplace =>
    refine ⟨place, hplace, ?_⟩
    split at h
    · next content hcontent =>
      unfold FileTree.find? at hcontent
      split at hcontent
      · cases hcontent
      · obtain ⟨before, after, hentries, -⟩ := List.lookup_eq_some_iff.1 hcontent
        rw [hentries]
        exact List.mem_map.2 ⟨_, List.mem_append_right _ List.mem_cons_self, rfl⟩
    · cases h
    · cases h

/-- Loading a file on the way from a path: `visited` are the places of the files that led to it, and
they are different ones of the tree. So a depth that the size of the tree does not exceed together
with them does not run out. -/
theorem file_of_visited [Yaml.Parser] {tree : FileTree} {start : String} (h : NoReturn tree start)
    {depth depth' : Nat} {path : String} {visited : List Place} (hnodup : visited.Nodup)
    (hplaces : visited ⊆ tree.entries.map Prod.fst)
    (hreach : ReflTransGen (Imports tree.read?) start path)
    (hvisited : ∀ place ∈ visited, ∃ x, tree.locate x = .ok place ∧
      ReflTransGen (Imports tree.read?) start x ∧ TransGen (Imports tree.read?) x path)
    (hdepth : tree.size < depth + visited.length) (hdepth' : tree.size < depth' + visited.length)
    (options : LoadOptions) (declaration : String) :
    Ends (file tree.read? depth options path declaration) ∧
      file tree.read? depth options path declaration =
        file tree.read? depth' options path declaration := by
  have hlength : visited.length ≤ tree.size := by
    have := (List.subperm_of_subset hnodup hplaces).length_le
    rwa [List.length_map] at this
  induction depth generalizing depth' path visited options declaration with
  | zero => omega
  | succ depth ih =>
    cases depth' with
    | zero => omega
    | succ depth' =>
      rw [file, file]
      cases hread : tree.read? path with
      | none => exact ⟨fun _ hp => (by cases hp), rfl⟩
      | some text =>
        obtain ⟨place, hplace, hmem⟩ := exists_place hread
        have hnew : place ∉ visited := fun hin =>
          have ⟨x, hx, hxstart, hxpath⟩ := hvisited place hin
          h x path hxstart hxpath place hx hplace
        have hnodup' := List.nodup_cons.2 ⟨hnew, hnodup⟩
        have hplaces' := List.cons_subset.2 ⟨hmem, hplaces⟩
        have hlength' := (List.subperm_of_subset hnodup' hplaces').length_le
        rw [List.length_map] at hlength'
        have himported : ∀ imported ∈ importsOf text, ∀ options declaration,
            Ends (file tree.read? depth options
              (Path.join ((Path.parent? path).getD "") imported) declaration) ∧
            file tree.read? depth options
                (Path.join ((Path.parent? path).getD "") imported) declaration =
              file tree.read? depth' options
                (Path.join ((Path.parent? path).getD "") imported) declaration := by
          intro imported hin options declaration
          have hstep : Imports tree.read? path (Path.join ((Path.parent? path).getD "") imported) :=
            ⟨text, hread, imported, hin, rfl⟩
          refine ih hnodup' hplaces' (hreach.tail hstep) (fun p hp => ?_) ?_ ?_ options declaration
            hlength'
          · rcases List.mem_cons.1 hp with rfl | hp
            · exact ⟨path, hplace, hreach, .single hstep⟩
            · obtain ⟨x, hx, hxstart, hxpath⟩ := hvisited p hp
              exact ⟨x, hx, hxstart, hxpath.tail hstep⟩
          · rw [List.length_cons]
            omega
          · rw [List.length_cons]
            omega
        exact ⟨ends_sourceWith fun imported hin => (himported imported hin _ _).1,
          sourceWith_congr fun imported hin => (himported imported hin _ _).2⟩

/-- Where no file comes to import itself, a file is loaded or found faulty, and the depth does not
matter once it is greater than the number of files and directories. -/
theorem file_ends [Yaml.Parser] {tree : FileTree} {path : String} (h : NoReturn tree path)
    (options : LoadOptions) (declaration : String) :
    ∃ result : Except LoadError Stylesheet, Ends result ∧
      ∀ depth > tree.size, file tree.read? depth options path declaration = result := by
  have hvisit : ∀ depth > tree.size,
      Ends (file tree.read? (tree.size + 1) options path declaration) ∧
        file tree.read? (tree.size + 1) options path declaration =
          file tree.read? depth options path declaration := fun depth hdepth =>
    file_of_visited h List.nodup_nil (List.nil_subset _) .refl (fun _ hp => by cases hp) (by simp)
      (by simpa using hdepth) options declaration
  exact ⟨_, (hvisit _ (Nat.lt_succ_self _)).1, fun depth hdepth => (hvisit depth hdepth).2.symm⟩

/-! ## A file that imports another one, and one that imports itself -/

/-- The source of a file that imports `a.yml`. -/
def importingSource : String := "import: a.yml\n"

theorem parse_importingSource : Yaml.Parser.parse? (Shorthand.expand importingSource) =
    some (.mapping [(.string "import", .string "a.yml")]) := by
  cbv

theorem importsOf_importingSource : importsOf importingSource = ["a.yml"] := by
  rw [importsOf, parse_importingSource]
  decide

/-- Two files, of which the first one imports the second. -/
def twoFiles : FileTree := ⟨[(["b.yml"], .file importingSource), (["a.yml"], .file "\x7b\x7d")]⟩

/-- Of two files that are there only one imports the other. -/
theorem noReturn_twoFiles : NoReturn twoFiles "b.yml" := by
  have hfirst : ∀ y, Imports twoFiles.read? "b.yml" y → y = "a.yml" := by
    rintro y ⟨text, htext, file, hfile, rfl⟩
    have hread : twoFiles.read? "b.yml" = some importingSource := by decide
    rw [hread] at htext
    cases htext
    rw [importsOf_importingSource, List.mem_singleton] at hfile
    rw [hfile]
    decide
  have hsecond : ∀ y, ¬ Imports twoFiles.read? "a.yml" y := by
    rintro y ⟨text, htext, file, hfile, rfl⟩
    have hread : twoFiles.read? "a.yml" = some "\x7b\x7d" := by decide
    rw [hread] at htext
    cases htext
    have himports : importsOf "\x7b\x7d" = [] := by cbv
    rw [himports] at hfile
    cases hfile
  have hreached : ∀ x, ReflTransGen (Imports twoFiles.read?) "b.yml" x →
      x = "b.yml" ∨ x = "a.yml" := fun x hx => by
    induction hx with
    | refl => exact .inl rfl
    | tail _ hstep ih =>
      rcases ih with rfl | rfl
      · exact .inr (hfirst _ hstep)
      · exact absurd hstep (hsecond _)
  intro x y hx hxy place hplace hy
  obtain ⟨z, hxz, hzy⟩ := TransGen.head'_iff.1 hxy
  rcases hreached x hx with rfl | rfl
  · rw [hfirst z hxz] at hzy
    rcases ReflTransGen.cases_head hzy with rfl | ⟨w, hw, -⟩
    · rw [show twoFiles.locate "b.yml" = .ok ["b.yml"] by decide] at hplace
      cases hplace
      exact absurd hy (by decide)
    · exact hsecond w hw
  · exact hsecond z hxz

/-- The importing file gives the same result at every depth that is large enough. -/
theorem file_ends_twoFiles :
    ∃ result : Except LoadError Stylesheet, Ends result ∧
      ∀ depth > twoFiles.size, file twoFiles.read? depth ⟨[], none⟩ "b.yml" "B" = result :=
  file_ends noReturn_twoFiles ⟨[], none⟩ "B"

/-- A file that imports itself. -/
def selfImport : FileTree := ⟨[(["a.yml"], .file importingSource)]⟩

/-- A file that imports itself is not loaded, however deep imports are followed. -/
theorem endless_selfImport :
    ¬ ∃ depth options declaration,
      Ends (file selfImport.read? depth options "a.yml" declaration) := by
  have hfile : ∀ depth options declaration,
      file selfImport.read? depth options "a.yml" declaration =
        .error (.endlessImport "a.yml") := by
    intro depth
    induction depth with
    | zero => exact fun _ _ => rfl
    | succ depth ih =>
      intro options declaration
      have hread : selfImport.read? "a.yml" = some importingSource := by decide
      have hdir : Path.join ((Path.parent? "a.yml").getD "") "a.yml" = "a.yml" := by decide
      have hroot : ∀ ctx : SheetContext,
          rootEntries ctx importingSource = .ok [(.string "import", .string "a.yml")] := by
        intro ctx
        rw [rootEntries, parse_importingSource]
        rfl
      have hkey : ∀ ctx : SheetContext, ctx.keyText (.string "import") = .ok importKey :=
        fun ctx => rfl
      have hnames : ∀ ctx : SheetContext, importedFiles ctx (.string "a.yml") = .ok ["a.yml"] :=
        fun ctx => rfl
      rw [file, hread]
      simp only [sourceWith, hroot, bind, Except.bind, addEntries, addEntry, hkey, if_pos, hnames,
        addImports, hdir, ih]
  rintro ⟨depth, options, declaration, h⟩
  exact h _ (hfile depth options declaration)

end Appearance.Load
