import Appearance.Build.Run
import Appearance.Proofs.Files
import Appearance.Proofs.Imports

/-!
# Reading again

A stylesheet that was loaded is loaded as the same one wherever the files that it reads still have
their content and at least as many steps may be taken (`Load.file_of_kept`). So a configuration
gives the same files in a tree that has grown, if none of the files that it reads was written
(`Config.compile_of_grows`).

A loader is compared with another one that loads at least as much: a file on which the first
succeeds gives the same stylesheet with the second. This relation is carried through imports by
induction on the number of steps, and it covers both a larger tree and a larger bound, which grow
together when files are written. `Keeps` states it for a whole configuration and asks only about
files that are read, so generated files may change as they like. It is used to show that running
twice is running once.
-/

namespace Appearance

open Relation (ReflTransGen)

namespace Load

open Appearance.Yaml (Node)

/-! ## Loaders that give at least as much -/

section Loaders

variable {f g : String → Except LoadError Stylesheet} {ctx : SheetContext}

/-- What one loader imports another one does that loads at least as much. -/
theorem addImports_of_kept {files : List String} {sheet s : Stylesheet}
    (h : ∀ file ∈ files, ∀ d, f file = .ok d → g file = .ok d)
    (hf : addImports f sheet files = .ok s) : addImports g sheet files = .ok s := by
  induction files generalizing sheet with
  | nil => exact hf
  | cons file files ih =>
    obtain ⟨hfile, hfiles⟩ := List.forall_mem_cons.1 h
    rw [addImports] at hf ⊢
    split at hf
    · next d hd =>
      rw [hfile d hd]
      exact ih hfiles hf
    · cases hf

/-- An entry is added as before by a loader that loads at least as much. -/
theorem addEntry_of_kept {e : Node × Node} {sheet s : Stylesheet}
    (h : ∀ file ∈ importsOfEntry e, ∀ d, f file = .ok d → g file = .ok d)
    (hf : addEntry f ctx sheet e = .ok s) : addEntry g ctx sheet e = .ok s := by
  unfold addEntry at hf ⊢
  obtain ⟨key, hkey, hf⟩ := bind_eq_ok.1 hf
  refine bind_eq_ok.2 ⟨key, hkey, ?_⟩
  by_cases himport : key = importKey
  · subst himport
    rw [importsOfEntry_eq hkey] at h
    rw [if_pos rfl] at hf ⊢
    obtain ⟨files, hfiles, hf⟩ := bind_eq_ok.1 hf
    exact bind_eq_ok.2 ⟨files, hfiles,
      addImports_of_kept (fun file hfile => h file (mem_importsOfNode hfiles hfile)) hf⟩
  · rw [if_neg himport] at hf ⊢
    exact hf

/-- Entries are added as before by a loader that loads at least as much. -/
theorem addEntries_of_kept {entries : List (Node × Node)} {sheet s : Stylesheet}
    (h : ∀ e ∈ entries, ∀ file ∈ importsOfEntry e, ∀ d, f file = .ok d → g file = .ok d)
    (hf : addEntries f ctx sheet entries = .ok s) : addEntries g ctx sheet entries = .ok s := by
  induction entries generalizing sheet with
  | nil => exact hf
  | cons e es ih =>
    obtain ⟨he, hes⟩ := List.forall_mem_cons.1 h
    rw [addEntries] at hf ⊢
    split at hf
    · next sheet' hsheet =>
      rw [addEntry_of_kept he hsheet]
      exact ih hes hf
    · cases hf

theorem sourceWith_of_kept [Yaml.Parser] {options : LoadOptions} {declaration source : String}
    {s : Stylesheet} (h : ∀ file ∈ importsOf source, ∀ d, f file = .ok d → g file = .ok d)
    (hf : sourceWith f options declaration source = .ok s) :
    sourceWith g options declaration source = .ok s := by
  unfold sourceWith at hf ⊢
  obtain ⟨entries, hentries, hf⟩ := bind_eq_ok.1 hf
  obtain ⟨sheet, hsheet, hf⟩ := bind_eq_ok.1 hf
  exact bind_eq_ok.2 ⟨entries, hentries, bind_eq_ok.2 ⟨sheet,
    addEntries_of_kept (fun e he file hfile => h file (mem_importsOf hentries he hfile)) hsheet,
      hf⟩⟩

end Loaders

/-- A file that was loaded is loaded as the same stylesheet by a reader that still finds every file
to which imports lead from it, in as many steps or more. -/
theorem file_of_kept [Yaml.Parser] {read read' : Reader} {depth depth' : Nat}
    (hdepth : depth ≤ depth') {options : LoadOptions} {path declaration : String} {s : Stylesheet}
    (hkept : ∀ x, ReflTransGen (Imports read) path x → ∀ text, read x = some text →
      read' x = some text)
    (h : file read depth options path declaration = .ok s) :
    file read' depth' options path declaration = .ok s := by
  induction depth generalizing depth' options path declaration s with
  | zero => cases h
  | succ depth ih =>
    cases depth' with
    | zero => omega
    | succ depth' =>
      rw [file] at h ⊢
      split at h
      · cases h
      · next text htext =>
        rw [hkept path .refl text htext]
        refine sourceWith_of_kept (fun imported hin d hd => ?_) h
        refine ih (Nat.le_of_succ_le_succ hdepth) (fun x hx => hkept x ?_) hd
        exact ReflTransGen.head ⟨text, htext, imported, hin, rfl⟩ hx

end Load

/-! ## Configurations -/

namespace Config

/-- The stylesheets that a configuration reads. -/
def sources (c : Config) : List Source :=
  c.baseSource?.toList ++ c.inputSources ++ c.frameworkSource?.toList

/-- A build reads the file at the path: it is that of a stylesheet, or imports lead to it. -/
def Reads [Yaml.Parser] (c : Config) (t : FileTree) (path : String) : Prop :=
  ∃ source ∈ c.sources, ReflTransGen (Load.Imports t.read?) source.path path

section Kept

variable [Yaml.Parser] {c : Config} {t u : FileTree}

/-- The second tree has at least the size of the first, and each file that the build reads in the
first one reads the same in the second. -/
structure Keeps (c : Config) (t u : FileTree) : Prop where
  size_le : t.size ≤ u.size
  has : ∀ path, t.has path = true → u.has path = true
  read : ∀ path, c.Reads t path → ∀ text, t.read? path = some text → u.read? path = some text

/-- A source that is kept is loaded as it was. -/
theorem Keeps.loadSource (h : c.Keeps t u) {source : Source} (hsource : source ∈ c.sources)
    {s : Stylesheet} (hload : c.loadSource t source = .ok s) : c.loadSource u source = .ok s := by
  unfold Config.loadSource at hload ⊢
  split at hload
  · next sheet hsheet =>
    cases hload
    rw [Load.file_of_kept (Nat.succ_le_succ h.size_le)
      (fun x hx => h.read x ⟨source, hsource, hx⟩) hsheet]
  · cases hload

/-- Sources that are kept are registered as they were. -/
theorem Keeps.registerSources (h : c.Keeps t u) {sources : List Source}
    (hsources : ∀ source ∈ sources, source ∈ c.sources) {r r' : Registry}
    (hregister : c.registerSources t sources r = .ok r') :
    c.registerSources u sources r = .ok r' := by
  induction sources generalizing r with
  | nil => exact hregister
  | cons source sources ih =>
    obtain ⟨hsource, hrest⟩ := List.forall_mem_cons.1 hsources
    rw [Config.registerSources] at hregister ⊢
    split at hregister
    · cases hregister
    · next sheet hsheet =>
      rw [h.loadSource hsource hsheet]
      dsimp only
      split at hregister
      · cases hregister
      · exact ih hrest hregister

/-- Where all sources are kept the same registry is gathered. -/
theorem Keeps.registry (h : c.Keeps t u) {r : Registry} (hregistry : c.registry t = .ok r) :
    c.registry u = .ok r := by
  unfold Config.registry at hregistry ⊢
  obtain ⟨registered, hregister, hframework⟩ := bind_eq_ok.1 hregistry
  refine bind_eq_ok.2 ⟨registered, h.registerSources (fun source hsource => ?_) hregister, ?_⟩
  · exact List.mem_append_left _ hsource
  · unfold setFramework at hframework ⊢
    split at hframework
    · exact hframework
    · next source hsource =>
      obtain ⟨sheet, hsheet, rfl⟩ := map_eq_ok.1 hframework
      refine map_eq_ok.2 ⟨sheet, h.loadSource ?_ hsheet, rfl⟩
      rw [sources, hsource]
      exact List.mem_append_right _ List.mem_cons_self

/-- Paths that were there are there still. -/
theorem Keeps.checkPaths (h : c.Keeps t u) (hcheck : c.checkPaths t = .ok ()) :
    c.checkPaths u = .ok () := by
  unfold Config.checkPaths at hcheck ⊢
  split at hcheck
  · cases hcheck
  · next hnone =>
    have hnone' : (c.requiredPaths ++ c.outputParent?.toList).find? (!u.has ·) = none :=
      List.find?_eq_none.2 fun path hpath => by
        have hthere := List.find?_eq_none.1 hnone path hpath
        simp only [Bool.not_eq_true, Bool.not_eq_false'] at hthere ⊢
        exact h.has path hthere
    rw [hnone']

/-- The generated files depend only on the files that are read. -/
theorem Keeps.compile (h : c.Keeps t u) {files : List GeneratedFile}
    (hcompile : c.compile t = .ok files) : c.compile u = .ok files := by
  unfold Config.compile at hcompile ⊢
  obtain ⟨_, hcheck, hcompile⟩ := bind_eq_ok.1 hcompile
  obtain ⟨r, hregistry, hcompile⟩ := bind_eq_ok.1 hcompile
  exact bind_eq_ok.2 ⟨(), h.checkPaths hcheck, bind_eq_ok.2 ⟨r, h.registry hregistry, hcompile⟩⟩

/-- A build gives the same files again in a tree that has grown, if no file that it reads was
written. -/
theorem compile_of_grows {written : Place → Prop} (hgrows : t.Grows written u)
    (hdistinct : t.Distinct)
    (hread : ∀ path, c.Reads t path → ∀ place, t.locate path = .ok place → ¬ written place)
    {files : List GeneratedFile} (hcompile : c.compile t = .ok files) :
    c.compile u = .ok files := by
  refine Keeps.compile ⟨hgrows.size_le hdistinct, fun path => hgrows.has, ?_⟩ hcompile
  intro path hpath text htext
  have hok : t.read path = .ok text := toOption_eq_some.1 htext
  rw [FileTree.read?, hgrows.read hok (hread path hpath)]
  rfl

end Kept

end Config

end Appearance
