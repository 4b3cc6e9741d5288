import Appearance.Proofs.FileNames
import Appearance.Proofs.Rereading

/-!
# Building twice

A run writes the generated files one after the other. Each of them stands in the output directory
afterwards, unless a later one is written to its place (`Config.grows_writeFiles`); so all of them
have their content exactly if no two files with different contents share a place
(`Config.read_iff_noClash`). Where nothing is written to a file that the build reads, this decides
as well whether a second run leaves everything alone (`Config.run_again_iff_noClash`).

Nothing is supposed of the tree but that it can be written to. What a run reads and what it writes
are told apart by their places: a build that writes to its own sources is outside of the last
statement (`Config.Reads`), and one whose files share a place is the case that it decides.
-/

namespace Appearance.Config

variable {c : Config} {t u : FileTree} {files : List GeneratedFile} {built : List BuiltFile}

/-- One of the files is written to the place. -/
def WritesTo (c : Config) (u : FileTree) (files : List GeneratedFile) (place : Place) : Prop :=
  ∃ f ∈ files, u.locate (c.outputPath f) = .ok place

/-- Files that are written to one place have one content. -/
def NoClash (c : Config) (u : FileTree) (files : List GeneratedFile) : Prop :=
  ∀ f ∈ files, ∀ g ∈ files, ∀ place, u.locate (c.outputPath f) = .ok place →
    u.locate (c.outputPath g) = .ok place → f.content = g.content

/-- What is told of files none of which has changed. -/
def unchanged (c : Config) (files : List GeneratedFile) : List BuiltFile :=
  files.map fun f => ⟨c.titleOf f.name, c.outputPath f, .unchanged⟩

/-! ## Writing files -/

/-- Files are written one after the other, each to the tree that the one before it left. -/
theorem writeFiles_cons_eq_ok_iff {f : GeneratedFile} :
    c.writeFiles (f :: files) t = (u, .ok built) ↔
      ∃ outcome v rest, t.writeIfChanged (c.outputPath f) f.content = .ok (outcome, v) ∧
        c.writeFiles files v = (u, .ok rest) ∧
        built = ⟨c.titleOf f.name, c.outputPath f, outcome⟩ :: rest := by
  rw [writeFiles]
  dsimp only
  constructor
  · intro h
    split at h
    · cases h
    · next outcome v hwrite =>
      obtain ⟨hu, hrest⟩ := Prod.mk.inj h
      obtain ⟨rest, hok, rfl⟩ := map_eq_ok.1 hrest
      exact ⟨outcome, v, rest, hwrite, Prod.ext hu hok, rfl⟩
  · rintro ⟨outcome, v, rest, hwrite, hrest, rfl⟩
    rw [hwrite]
    dsimp only
    rw [hrest]
    rfl

/-- The tree grows by the files, and at the place of each of them there is one of them. -/
theorem grows_writeFiles (h : c.writeFiles files t = (u, .ok built)) :
    t.Grows (c.WritesTo u files) u ∧
      ∀ f ∈ files, ∃ place, u.locate (c.outputPath f) = .ok place ∧
        ∃ g ∈ files, u.locate (c.outputPath g) = .ok place ∧
          u.find? place = some (.file g.content) := by
  induction files generalizing t built with
  | nil =>
    cases h
    exact ⟨.refl _, nofun⟩
  | cons f files ih =>
    obtain ⟨outcome, v, rest, hwrite, hrest, -⟩ := writeFiles_cons_eq_ok_iff.1 h
    obtain ⟨place, hplace, hfile, hgrows⟩ := FileTree.exists_place_of_writeIfChanged hwrite
    obtain ⟨hgrows', hstand⟩ := ih hrest
    have hplace' : u.locate (c.outputPath f) = .ok place := hgrows'.locate hplace
    have hsub : ∀ q, c.WritesTo u files q → c.WritesTo u (f :: files) q :=
      fun q ⟨g, hg, hq⟩ => ⟨g, List.mem_cons_of_mem f hg, hq⟩
    refine ⟨(hgrows.mono fun q hq => ?_).trans (hgrows'.mono hsub),
      List.forall_mem_cons.2 ⟨⟨place, hplace', ?_⟩, fun g hg => ?_⟩⟩
    · exact ⟨f, List.mem_cons_self, hq ▸ hplace'⟩
    · -- The first file stands, unless a later one was written to its place.
      by_cases hlater : c.WritesTo u files place
      · obtain ⟨g, hg, hgplace⟩ := hlater
        obtain ⟨place', hplace'', g', hg', hg'place, hfile'⟩ := hstand g hg
        cases hgplace.symm.trans hplace''
        exact ⟨g', List.mem_cons_of_mem f hg', hg'place, hfile'⟩
      · obtain ⟨content, hcontent, hsame⟩ := hgrows'.file place f.content hfile
        exact ⟨f, List.mem_cons_self, hplace', by rw [hcontent, hsame hlater]⟩
    · obtain ⟨place', hplace'', g', hg', hg'place, hfile'⟩ := hstand g hg
      exact ⟨place', hplace'', g', List.mem_cons_of_mem f hg', hg'place, hfile'⟩

/-- What a run reports on: the files in order. -/
theorem report_writeFiles (h : c.writeFiles files t = (u, .ok built)) :
    built.map (fun b => (b.title, b.path)) =
      files.map fun f => (c.titleOf f.name, c.outputPath f) := by
  induction files generalizing t built with
  | nil =>
    cases h
    rfl
  | cons f files ih =>
    obtain ⟨outcome, v, rest, -, hrest, rfl⟩ := writeFiles_cons_eq_ok_iff.1 h
    rw [List.map_cons, List.map_cons, ih hrest]

/-- Every file has its content after all are written exactly if none was written over with another
content. -/
theorem read_iff_noClash (h : c.writeFiles files t = (u, .ok built)) :
    (∀ f ∈ files, u.read (c.outputPath f) = .ok f.content) ↔ c.NoClash u files := by
  obtain ⟨-, hstand⟩ := grows_writeFiles h
  constructor
  · intro hread f hf g hg place hfplace hgplace
    obtain ⟨place', hplace', hcontent⟩ := FileTree.read_eq_ok_iff.1 (hread f hf)
    obtain ⟨place'', hplace'', hcontent'⟩ := FileTree.read_eq_ok_iff.1 (hread g hg)
    cases hfplace.symm.trans hplace'
    cases hgplace.symm.trans hplace''
    rw [hcontent, Option.some.injEq, FileEntry.file.injEq] at hcontent'
    exact hcontent'
  · intro hclash f hf
    obtain ⟨place, hplace, g, hg, hgplace, hcontent⟩ := hstand f hf
    rw [hclash f hf g hg place hplace hgplace]
    exact FileTree.read_eq_ok_iff.2 ⟨place, hplace, hcontent⟩

/-- Writing leaves everything alone exactly if every file has its content already. -/
theorem writeFiles_eq_unchanged_iff :
    c.writeFiles files t = (u, .ok (c.unchanged files)) ↔
      (∀ f ∈ files, t.read (c.outputPath f) = .ok f.content) ∧ u = t := by
  induction files generalizing t with
  | nil =>
    constructor
    · intro h
      cases h
      exact ⟨nofun, rfl⟩
    · rintro ⟨-, rfl⟩
      rfl
  | cons f files ih =>
    rw [writeFiles_cons_eq_ok_iff, List.forall_mem_cons]
    constructor
    · rintro ⟨outcome, v, rest, hwrite, hrest, hbuilt⟩
      obtain ⟨hfirst, rfl⟩ := List.cons.inj hbuilt
      cases hfirst
      obtain ⟨hread, rfl⟩ := FileTree.writeIfChanged_eq_unchanged_iff.1 hwrite
      obtain ⟨hreads, rfl⟩ := ih.1 hrest
      exact ⟨⟨hread, hreads⟩, rfl⟩
    · rintro ⟨⟨hread, hreads⟩, rfl⟩
      exact ⟨.unchanged, u, c.unchanged files,
        FileTree.writeIfChanged_eq_unchanged_iff.2 ⟨hread, rfl⟩, ih.2 ⟨hreads, rfl⟩, rfl⟩

/-- Where styles get no files, files do not clash as far as no name leads into another directory. -/
theorem noClash_of_wholeSheets [Yaml.Parser] (h : c.compile t = .ok files)
    (hwhole : c.splitsStyles = false) (hplain : ∀ f ∈ files, '/' ∉ f.name.toList) :
    c.NoClash u files :=
  fun f hf g hg place hfplace hgplace => by
    rw [eq_of_locate_eq h hwhole hplain hf hg hfplace hgplace]

/-! ## Runs -/

/-- A run is a compilation and the writing of its files. -/
theorem run_eq_ok_iff [Yaml.Parser] :
    c.run t = (u, .ok built) ↔
      ∃ files, c.compile t = .ok files ∧ c.writeFiles files t = (u, .ok built) := by
  unfold run
  constructor
  · intro h
    split at h
    · next files hfiles => exact ⟨files, hfiles, h⟩
    · cases h
  · rintro ⟨files, hfiles, h⟩
    rw [hfiles]
    exact h

/-- A run that has not written to what it reads finds all files unchanged when it is repeated,
exactly if no two of them clash. -/
theorem run_eq_unchanged_iff [Yaml.Parser] (hcompile : c.compile t = .ok files)
    (hwrite : c.writeFiles files t = (u, .ok built)) (ht : t.Distinct)
    (hread : ∀ path, c.Reads t path → ∀ place, t.locate path = .ok place →
      ¬ c.WritesTo u files place) :
    c.run u = (u, .ok (c.unchanged files)) ↔ c.NoClash u files := by
  have hagain : c.compile u = .ok files :=
    compile_of_grows (grows_writeFiles hwrite).1 ht hread hcompile
  rw [← read_iff_noClash hwrite, run, hagain]
  exact writeFiles_eq_unchanged_iff.trans (and_iff_left rfl)

/-- A build that fails before it writes leaves the tree alone. One that succeeds changes nothing but
the generated files and the directories around them, and each file has its content afterwards
exactly if no two of them clash. Unless it has written to a file that it reads, this is also exactly
when a second run finds all files unchanged and leaves the tree alone. No files clash if the styles
get no files of their own, as far as no name of a file leads into another directory. -/
theorem run_again_iff_noClash [Yaml.Parser] (c : Config) {t : FileTree} (ht : t.Distinct) :
    (∀ e, c.compile t = .error e → c.run t = (t, .error e)) ∧
    ∀ u built, c.run t = (u, .ok built) → ∃ files, c.compile t = .ok files ∧
      built.map (fun b => (b.title, b.path)) =
        files.map (fun f => (c.titleOf f.name, c.outputPath f)) ∧
      t.Grows (c.WritesTo u files) u ∧
      ((∀ f ∈ files, u.read (c.outputPath f) = .ok f.content) ↔ c.NoClash u files) ∧
      ((∀ path, c.Reads t path → ∀ place, t.locate path = .ok place → ¬ c.WritesTo u files place) →
        (c.run u = (u, .ok (c.unchanged files)) ↔ c.NoClash u files)) ∧
      (c.splitsStyles = false → (∀ f ∈ files, '/' ∉ f.name.toList) → c.NoClash u files) := by
  refine ⟨fun e he => by rw [run, he], fun u built h => ?_⟩
  obtain ⟨files, hcompile, hwrite⟩ := run_eq_ok_iff.1 h
  exact ⟨files, hcompile, report_writeFiles hwrite, (grows_writeFiles hwrite).1,
    read_iff_noClash hwrite, run_eq_unchanged_iff hcompile hwrite ht,
    noClash_of_wholeSheets hcompile⟩

/-! ## A style that is named like the mark of the files -/

/-- A build of the stylesheet `A`. Its file is marked with `Tab`, and so is called like that of a
style `Tab`. -/
def tabBuild (splitsStyles : Bool) : Config :=
  { framework := none, objc := false, extendedName := some "Tab", enclosing := none,
    writesBase := false, declaresProtocol := false, splitsStyles, base := none,
    inputs := ["a.yml"], names := ["A"], symbolFont := none, symbolAsset := none,
    typography := [], output := ⟨some "Gen", none, none, none⟩ }

/-- The place of the file. -/
def tabPlace : Place := ["Gen", "A.Tab.generated.swift"]

/-- The source is there, and the directory for the file. -/
structure HasTab (t : FileTree) : Prop where
  dir : t.find? ["Gen"] = some .directory
  source : t.find? ["a.yml"] = some (.file "Tab: \x7b\x7d\n")

def tabTree : FileTree := ⟨[(["Gen"], .directory), (["a.yml"], .file "Tab: \x7b\x7d\n")]⟩

/-- The stylesheet as it is read, and as it is prepared. -/
def tabSheet (isOverridable : Bool) : Stylesheet :=
  { name := "A",
    styles := [⟨{ StyleHead.named "Tab" with belongsTo := some "A", isOverridable }, []⟩],
    animator := none, superclass := none, hasSymbolFont := false, dependencies := [] }

def tabSuite : Suite := ⟨[tabSheet true], none, some 0⟩

def tabFiles (splitsStyles : Bool) : List GeneratedFile :=
  tabSuite.filesOf (tabBuild splitsStyles).settings (.registered 0) (.registered 0)

theorem hasTab_tabTree : HasTab tabTree := ⟨by decide, by decide⟩

theorem HasTab.put (h : HasTab t) (content : String) :
    HasTab (t.put tabPlace (.file content)) where
  dir := by rw [FileTree.find?_put (by decide), if_neg (by decide), h.dir]
  source := by rw [FileTree.find?_put (by decide), if_neg (by decide), h.source]

theorem parse_tabSource : Yaml.Parser.parse? (Shorthand.expand "Tab: \x7b\x7d\n") =
    some (.mapping [(.string "Tab", .mapping [])]) := by
  cbv

theorem locate_tabSource (t : FileTree) : t.locate "a.yml" = .ok ["a.yml"] := by
  have hparts : Path.parts "a.yml" = ["a.yml"] := by decide +kernel
  rw [FileTree.locate, if_neg (by decide), hparts]
  rfl

theorem HasTab.locate_file (h : HasTab t) :
    t.locate "Gen/A.Tab.generated.swift" = .ok tabPlace := by
  have hparts : Path.parts "Gen/A.Tab.generated.swift" = ["Gen", "A.Tab.generated.swift"] := by
    decide +kernel
  have hroot : t.find? [] = some .directory := rfl
  rw [FileTree.locate, if_neg (by decide), hparts]
  change t.walk [] _ = _
  rw [FileTree.walk, hroot]
  change t.walk ["Gen"] _ = _
  rw [FileTree.walk, h.dir]
  rfl

/-- A new content is written to the generated file. -/
theorem HasTab.writeIfChanged (h : HasTab t) {content : String}
    (hnew : t.find? tabPlace = none ∨ ∃ old ≠ content, t.find? tabPlace = some (.file old)) :
    t.writeIfChanged "Gen/A.Tab.generated.swift" content =
      .ok (.written, t.put tabPlace (.file content)) := by
  have hmaking : t.makeDirectories "Gen" = .ok t := by
    have hparts : Path.parts "Gen" = ["Gen"] := by decide +kernel
    rw [FileTree.makeDirectories, hparts]
    have hnext : FileTree.follow (FileTree.startOf "Gen") "Gen" = ["Gen"] := by decide
    simp only [FileTree.walkMaking, hnext, h.dir]
  have hdirectory : t.find? tabPlace ≠ some .directory := by
    obtain hnone | ⟨old, -, hold⟩ := hnew
    · rw [hnone]; nofun
    · rw [hold]; nofun
  have hwrite : t.writeMaking "Gen/A.Tab.generated.swift" content =
      .ok (t.put tabPlace (.file content)) := by
    have hparent : Path.parent? "Gen/A.Tab.generated.swift" = some "Gen" := by decide +kernel
    unfold FileTree.writeMaking FileTree.write
    simp only [hparent, Option.getD_some, hmaking, h.locate_file, if_neg hdirectory]
  obtain hnone | ⟨old, hne, hold⟩ := hnew
  · have hread : t.read "Gen/A.Tab.generated.swift" = .error .missing := by
      simp only [FileTree.read, h.locate_file, hnone]
    rw [FileTree.writeIfChanged, hread, hwrite]
    rfl
  · have hread : t.read "Gen/A.Tab.generated.swift" = .ok old :=
      FileTree.read_eq_ok_iff.2 ⟨_, h.locate_file, hold⟩
    rw [FileTree.writeIfChanged, hread, hwrite]
    exact if_neg hne

theorem HasTab.read_source (h : HasTab t) : t.read "a.yml" = .ok "Tab: \x7b\x7d\n" :=
  FileTree.read_eq_ok_iff.2 ⟨_, locate_tabSource t, h.source⟩

/-- The source is compiled to the same files before and after the first run. -/
theorem HasTab.compile (h : HasTab t) (splits : Bool) :
    (tabBuild splits).compile t = .ok (tabFiles splits) := by
  have hcheck : (tabBuild splits).checkPaths t = .ok () := by
    have hpaths : (tabBuild splits).requiredPaths ++ (tabBuild splits).outputParent?.toList =
        ["a.yml"] := by
      cases splits <;> decide +kernel
    have hhas : t.has "a.yml" = true := by simp [FileTree.has, locate_tabSource t, h.source]
    rw [checkPaths, hpaths, List.find?_cons_of_neg (by simp [hhas])]
    rfl
  have hsuite : (tabBuild splits).suite t = .ok ⟨[tabSheet false], none, none⟩ := by
    have hload : (tabBuild splits).loadSource t ⟨.input, "a.yml", "A", none⟩ =
        .ok (tabSheet false) := by
      rw [loadSource, Load.file, FileTree.read?, h.read_source]
      dsimp only [Except.toOption, tabBuild]
      rw [Load.sourceWith, Load.rootEntries, parse_tabSource]
      rfl
    have hsources : (tabBuild splits).baseSource?.toList ++ (tabBuild splits).inputSources =
        [⟨.input, "a.yml", "A", none⟩] := rfl
    rw [suite, registry, hsources, registerSources, hload]
    rfl
  have hlinked : ofSuite (⟨[tabSheet false], none, none⟩ : Suite).linked =
      .ok ⟨[tabSheet false], none, some 0⟩ := rfl
  have hprepared : (⟨[tabSheet false], none, some 0⟩ : Suite).prepared (tabBuild splits).settings =
      (tabSuite, .ok ()) := by
    cbv
  rw [compile_eq]
  refine bind_eq_ok.2 ⟨(), hcheck, bind_eq_ok.2 ⟨_, hsuite, bind_eq_ok.2 ⟨_, hlinked, ?_⟩⟩⟩
  rw [hprepared]
  cases splits <;> rfl

/-- A run reads nothing but the source. -/
theorem HasTab.eq_of_reads (h : HasTab t) {splits : Bool} {path : String}
    (hreads : (tabBuild splits).Reads t path) : path = "a.yml" := by
  obtain ⟨source, hsource, hpath⟩ := hreads
  cases List.mem_singleton.1 hsource
  obtain heq | ⟨_, ⟨text, htext, file, hfile, -⟩, -⟩ := hpath.cases_head
  · exact heq.symm
  · rw [FileTree.read?, h.read_source] at htext
    cases htext
    rw [Load.importsOf, parse_tabSource] at hfile
    cases hfile

theorem tabFiles_false : ∃ content, tabFiles false = [⟨"A.Tab.generated.swift", content⟩] :=
  ⟨_, rfl⟩

/-- The file of the style has the name of the file of the stylesheet, and another content: after the
header it goes on with the class where the other one has shared declarations. -/
theorem tabFiles_true : ∃ content content', content ≠ content' ∧
    tabFiles true = [⟨"A.Tab.generated.swift", content⟩, ⟨"A.Tab.generated.swift", content'⟩] := by
  let header := Code.headerLines (tabBuild true).settings
  obtain ⟨lines, lines', hfiles⟩ : ∃ lines lines', tabFiles true =
      [⟨"A.Tab.generated.swift", Code.unlines (header ++ "" :: "public extension S \x7b" :: lines)⟩,
        ⟨"A.Tab.generated.swift", Code.unlines (header ++ "" :: "extension A \x7b" :: lines')⟩] :=
    ⟨_, _, rfl⟩
  refine ⟨_, _, fun h => ?_, hfiles⟩
  have htexts := congrArg String.toList h
  simp [Code.unlines, String.toList_join] at htexts

/-- What is told of the file. -/
def tabBuilt (outcome : WriteOutcome) : BuiltFile := ⟨"A", "Gen/A.Tab.generated.swift", outcome⟩

theorem outputPath_tabFile (splits : Bool) (content : String) :
    (tabBuild splits).outputPath ⟨"A.Tab.generated.swift", content⟩ =
      "Gen/A.Tab.generated.swift" := by
  have hjoin : Path.join "Gen" "A.Tab.generated.swift" = "Gen/A.Tab.generated.swift" := by
    decide +kernel
  exact hjoin

theorem titleOf_tabFile (splits : Bool) :
    (tabBuild splits).titleOf "A.Tab.generated.swift" = "A" := by
  cases splits <;> decide +kernel

/-- Writing one file and then the others. -/
theorem HasTab.writeFiles_cons (h : HasTab t) {splits : Bool} {content : String}
    (hnew : t.find? tabPlace = none ∨ ∃ old ≠ content, t.find? tabPlace = some (.file old))
    (hrest : (tabBuild splits).writeFiles files (t.put tabPlace (.file content)) =
      (u, .ok built)) :
    (tabBuild splits).writeFiles (⟨"A.Tab.generated.swift", content⟩ :: files) t =
      (u, .ok (tabBuilt .written :: built)) :=
  writeFiles_cons_eq_ok_iff.2 ⟨.written, _, built,
    by rw [outputPath_tabFile, h.writeIfChanged hnew], hrest,
    by rw [outputPath_tabFile, titleOf_tabFile]; rfl⟩

/-- The whole stylesheet in one file: it is there after the first run, and the second one leaves it
alone. -/
theorem run_again_tabBuild : ∃ u,
    (tabBuild false).run tabTree = (u, .ok [tabBuilt .written]) ∧
      (tabBuild false).run u = (u, .ok [tabBuilt .unchanged]) := by
  obtain ⟨content, hfiles⟩ := tabFiles_false
  have hcompile : (tabBuild false).compile tabTree = .ok (tabFiles false) :=
    hasTab_tabTree.compile false
  have hrun : (tabBuild false).run tabTree =
      (tabTree.put tabPlace (.file content), .ok [tabBuilt .written]) := by
    rw [run, hcompile, hfiles]
    exact hasTab_tabTree.writeFiles_cons (.inl (by decide)) rfl
  refine ⟨_, hrun, ?_⟩
  obtain ⟨files, hcompile', -, hgrows, -, hagain, hwhole⟩ :=
    (run_again_iff_noClash (tabBuild false) (t := tabTree) (by decide)).2 _ _ hrun
  rw [hcompile, Except.ok.injEq, hfiles] at hcompile'
  subst hcompile'
  have hclash := hwhole rfl fun f hf => by
    rw [List.mem_singleton.1 hf]
    change '/' ∉ "A.Tab.generated.swift".toList
    decide
  have hsecond := (hagain fun path hpath place hplace ⟨f, hf, hfplace⟩ => ?_).2 hclash
  · rw [hsecond, unchanged, List.map_singleton, outputPath_tabFile, titleOf_tabFile]
    rfl
  · rw [hasTab_tabTree.eq_of_reads hpath, locate_tabSource] at hplace
    cases hplace
    rw [List.mem_singleton.1 hf, outputPath_tabFile, (hasTab_tabTree.put content).locate_file]
      at hfplace
    exact absurd (Except.ok.inj hfplace) (by decide)

/-- With a file for each style the second file is written over the first, in every run. -/
theorem overwrites_tabBuild : ∃ files u v, (tabBuild true).compile tabTree = .ok files ∧
    (tabBuild true).run tabTree = (u, .ok [tabBuilt .written, tabBuilt .written]) ∧
      (∃ f ∈ files, u.read ((tabBuild true).outputPath f) ≠ .ok f.content) ∧
        (tabBuild true).run u = (v, .ok [tabBuilt .written, tabBuilt .written]) := by
  obtain ⟨content, content', hne, hfiles⟩ := tabFiles_true
  have hrun : ∀ t, HasTab t →
      (t.find? tabPlace = none ∨ ∃ old ≠ content, t.find? tabPlace = some (.file old)) →
      (tabBuild true).run t = ((t.put tabPlace (.file content)).put tabPlace (.file content'),
        .ok [tabBuilt .written, tabBuilt .written]) := fun t ht hnew => by
    have hfirst : (t.put tabPlace (.file content)).find? tabPlace = some (.file content) := by
      rw [FileTree.find?_put (by decide), if_pos rfl]
    rw [run, ht.compile, hfiles]
    exact ht.writeFiles_cons hnew
      ((ht.put content).writeFiles_cons (.inr ⟨content, hne, hfirst⟩) rfl)
  let u := (tabTree.put tabPlace (.file content)).put tabPlace (.file content')
  have htab : HasTab u := (hasTab_tabTree.put content).put content'
  have hlast : u.find? tabPlace = some (.file content') := by
    rw [FileTree.find?_put (by decide), if_pos rfl]
  refine ⟨_, u, _, hasTab_tabTree.compile true, hrun _ hasTab_tabTree (.inl (by decide)),
    ⟨⟨"A.Tab.generated.swift", content⟩, by rw [hfiles]; exact List.mem_cons_self, fun hread => ?_⟩,
    hrun u htab (.inr ⟨content', hne.symm, hlast⟩)⟩
  rw [outputPath_tabFile,
    FileTree.read_eq_ok_iff.2 ⟨tabPlace, htab.locate_file, hlast⟩] at hread
  exact hne (Except.ok.inj hread).symm

end Appearance.Config
