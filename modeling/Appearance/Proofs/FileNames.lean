import Appearance.Proofs.Ascent
import Appearance.Proofs.Gathering
import Appearance.Proofs.KeyOrder

/-!
# The names of generated files

Each stylesheet of a suite has a name of its own, which preparation leaves as it is
(`Suite.Prepares.name_eq`). So if the styles get no files, no two generated files have one name
(`Config.eq_of_name_eq`), and then they are written to different places as far as no name leads into
another directory (`Config.eq_of_locate_eq`).

A name that leads into another directory is possible, as names come from the declarations of the
configuration. What is written then is not told apart by names, so the last statement asks for
plain names.

Places are compared and not paths, because two paths may lead to one place. For names without a
slash, and other than the two points, the place of a file is the place of its directory with the
name behind it, so distinct names give distinct places. The name of a file has the name of its
stylesheet in front of fixed ends, and the registry takes each name once; the rest is that no pass
renames a stylesheet.
-/

namespace Appearance

/-! ## Places of files in one directory -/

namespace Path

open Appearance.Text

/-- The parts of a path between the separators, without those that are empty. -/
def steps (path : String) : List String :=
  ((splitAtChars (· == '/') path.toList).map String.ofList).filter (· != "")

/-- The name of a file that lies in the directory itself. -/
structure IsPlain (name : String) : Prop where
  separator : '/' ∉ name.toList
  ne_empty : name ≠ ""
  ne_point : name ≠ "."
  ne_points : name ≠ ".."

variable {dir name : String}

theorem IsPlain.isAbsolute (h : IsPlain name) : isAbsolute name = false := by
  rw [Path.isAbsolute, beq_eq_false_iff_ne]
  exact fun hhead => h.separator (List.mem_of_head? hhead)

/-- A file of a directory has the path of the directory, with a separator at its end, before its
name. -/
theorem toList_join (dir : String) (h : IsPlain name) :
    dir = "" ∧ join dir name = name ∨
    ∃ l, (join dir name).toList = l ++ '/' :: name.toList ∧
      (dir.toList = l ∨ dir.toList = l ++ ['/']) ∧ dir ≠ "" := by
  unfold join
  rw [h.isAbsolute, Bool.false_or]
  by_cases hempty : dir = ""
  · exact .inl ⟨hempty, by simp [hempty]⟩
  · rw [String.isEmpty_eq_false_iff.2 hempty, if_neg nofun]
    split
    · next hlast =>
      obtain ⟨l, hl⟩ := List.getLast?_eq_some_iff.1 (beq_iff_eq.1 hlast)
      exact .inr ⟨l, by simp [hl], .inr hl, hempty⟩
    · exact .inr ⟨dir.toList, by simp, .inl rfl, hempty⟩

/-- Joined to a directory it leads where that leads from. -/
theorem isAbsolute_join (h : IsPlain name) : isAbsolute (join dir name) = isAbsolute dir := by
  obtain ⟨rfl, hjoin⟩ | ⟨l, hjoin, hdir, hne⟩ := toList_join dir h
  · rw [hjoin, h.isAbsolute]
    rfl
  · rw [isAbsolute, isAbsolute, hjoin]
    cases l with
    | cons c l => obtain hdir | hdir := hdir <;> rw [hdir] <;> rfl
    | nil =>
      obtain hdir | hdir := hdir
      · exact absurd (String.toList_eq_nil_iff.1 hdir) hne
      · rw [hdir]
        rfl

/-- A file lies one step below its directory. -/
theorem parts_join (h : IsPlain name) : parts (join dir name) = steps dir ++ [name] := by
  -- The parts of the path are those of the directory, then perhaps an empty one, then the name.
  obtain ⟨ps, hps, hsteps⟩ : ∃ ps : List (List Char),
      splitAtChars (· == '/') (join dir name).toList = ps ++ [name.toList] ∧
        (ps.map String.ofList).filter (· != "") = steps dir := by
    have hname : splitAtChars (· == '/') name.toList = [name.toList] :=
      splitAtChars_eq_singleton fun c hc => beq_eq_false_iff_ne.2 fun h' => h.separator (h' ▸ hc)
    have hsep : ∀ l, splitAtChars (· == '/') (l ++ '/' :: name.toList) =
        splitAtChars (· == '/') l ++ [name.toList] := fun l => by
      rw [splitAtChars_append_cons (p := (· == '/')) rfl, hname]
    obtain ⟨rfl, hjoin⟩ | ⟨l, hjoin, hdir, -⟩ := toList_join dir h
    · exact ⟨[], by rw [hjoin, hname, List.nil_append], rfl⟩
    · refine ⟨_, by rw [hjoin, hsep], ?_⟩
      obtain hdir | hdir := hdir
      · rw [steps, hdir]
      · rw [steps, hdir, splitAtChars_append_cons (p := (· == '/')) rfl, List.map_append,
          List.filter_append]
        simp [splitAtChars, splitCharsFrom]
  have hmap : (ps ++ [name.toList]).map String.ofList = ps.map String.ofList ++ [name] := by
    rw [List.map_append, List.map_singleton, String.ofList_toList]
  rw [parts, hps, hmap]
  simp [h.ne_empty, hsteps]

end Path

namespace FileTree

variable {t : FileTree} {start place : Place}

/-- The last part of a path is followed from the directory before it. -/
theorem walk_append_singleton {parts : List String} {part : String}
    (h : t.walk start (parts ++ [part]) = .ok place) :
    ∃ dir, t.walk start parts = .ok dir ∧ place = follow dir part := by
  induction parts generalizing start with
  | nil =>
    rw [List.nil_append, walk] at h
    split at h
    · exact ⟨start, rfl, (Except.ok.inj h).symm⟩
    · cases h
    · cases h
  | cons first parts ih =>
    rw [List.cons_append, walk] at h
    split at h
    · next hdirectory =>
      obtain ⟨dir, hdir, hplace⟩ := ih h
      exact ⟨dir, by rw [walk, hdirectory, ← hdir], hplace⟩
    · cases h
    · cases h

/-- A file stands below the place of its directory. -/
theorem locate_join {dir name : String} (hname : Path.IsPlain name)
    (h : t.locate (Path.join dir name) = .ok place) :
    ∃ above, t.walk (startOf dir) (Path.steps dir) = .ok above ∧ place = above ++ [name] := by
  unfold locate at h
  split at h
  · cases h
  · rw [Path.parts_join hname, startOf, Path.isAbsolute_join hname] at h
    obtain ⟨above, habove, rfl⟩ := walk_append_singleton h
    exact ⟨above, habove, by rw [follow, if_neg hname.ne_point, if_neg hname.ne_points]⟩

/-- Different files of one directory have different places. -/
theorem name_eq_of_locate_join {dir name name' : String} (hname : Path.IsPlain name)
    (hname' : Path.IsPlain name') (h : t.locate (Path.join dir name) = .ok place)
    (h' : t.locate (Path.join dir name') = .ok place) : name = name' := by
  obtain ⟨above, habove, rfl⟩ := locate_join hname h
  obtain ⟨above', habove', hplace⟩ := locate_join hname' h'
  cases habove.symm.trans habove'
  exact List.singleton_inj.1 (List.append_cancel_left hplace)

end FileTree

/-! ## Names of stylesheets -/

namespace Stylesheet

variable (s base : Stylesheet)

theorem name_shadowing : (s.shadowing base).name = s.name := by
  rw [shadowing_eq_with]

end Stylesheet

namespace Suite

variable {s l : Suite} {settings : Settings} {id : SheetId}

theorem name_completed (s : Suite) (id : SheetId) : (s.completed id).name = (s.sheet id).name := by
  rw [completed]
  split
  · exact Stylesheet.name_shadowing _ _
  · rfl

/-- No pass changes the name of a stylesheet. -/
theorem name_resolved {t : Stylesheet} (hid : id ∈ s.ids) (h : s.resolved settings id = .ok t) :
    t.name = (s.sheet id).name := by
  obtain ⟨redirected, marked, hredirected, hmarked, rfl⟩ := resolved_ok h
  obtain ⟨heq, -⟩ := withRedirects_eq_ok hredirected
  obtain ⟨-, -, -, -, -, -, rfl⟩ := withInheritance_eq_ok hmarked
  have hname : redirected.name = (s.completed id).name := by
    rw [heq, sheet_setSheet_self _ hid]
  change ((s.setSheet redirected id).sheet id).name = _
  rw [sheet_setSheet_self _ hid, hname, name_completed]

/-- Preparation leaves the names of stylesheets as they are. -/
theorem Prepares.name_eq (h : Prepares settings s l) (hid : id ∈ l.ids) :
    ((l.prepared settings).1.sheet id).name = (l.sheet id).name := by
  obtain ⟨t, ht⟩ := h.exists_stage hid
  have hids : id ∈ t.ids := by rwa [ids, ht.length_eq]
  rw [name_resolved hids ht.resolved_eq, ht.sheet_eq]

theorem id_eq_of_name_eq (hnodup : (s.registered.map Stylesheet.name).Nodup) {id' : SheetId}
    (hid : id ∈ s.ids) (hid' : id' ∈ s.ids) (h : (s.sheet id).name = (s.sheet id').name) :
    id = id' := by
  rw [registered_eq_map, List.map_map] at hnodup
  exact List.inj_on_of_nodup_map hnodup hid hid' h

end Suite

/-! ## Names of files -/

namespace Code

theorem fileName_inj {settings : Settings} {a b : String}
    (h : fileName settings a = fileName settings b) : a = b := by
  unfold fileName at h
  split at h <;> simpa using h

/-- The name of a file is plain if it has no slash. -/
theorem isPlain_fileName {settings : Settings} {sheet : String}
    (h : '/' ∉ (fileName settings sheet).toList) : Path.IsPlain (fileName settings sheet) := by
  have hlong : 2 < (fileName settings sheet).length := by
    have hsuffix : fileSuffix.length = 15 := by decide
    rw [fileName]
    split <;> simp only [String.length_append, hsuffix] <;> omega
  have hne : ∀ short : String, short.length ≤ 2 → fileName settings sheet ≠ short := by
    rintro short hshort rfl
    omega
  exact ⟨h, hne _ (by decide), hne _ (by decide), hne _ (by decide)⟩

end Code

/-- A stylesheet whose styles get no files has at most one file, which is named for it. -/
theorem Suite.filesOf_eq_singleton {s : Suite} {settings : Settings} {base id : SheetId}
    {f : GeneratedFile} (hwhole : settings.splitsStyles = false)
    (hf : f ∈ s.filesOf settings base id) :
    f.name = Code.fileName settings (s.sheet id).name ∧ s.filesOf settings base id = [f] := by
  unfold filesOf at hf ⊢
  dsimp only at hf ⊢
  split at hf
  · cases hf
  · next hwritten =>
    rw [hwhole, if_neg nofun] at hf
    rw [if_neg hwritten, hwhole, if_neg nofun, ← List.mem_singleton.1 hf]
    exact ⟨by rw [List.mem_singleton.1 hf], rfl⟩

namespace Config

variable [Yaml.Parser] {c : Config} {t u : FileTree} {files : List GeneratedFile}

/-- The suite that files are generated from. -/
theorem exists_prepares_of_compile (h : c.compile t = .ok files) :
    ∃ s l, c.suite t = .ok s ∧ Suite.Prepares c.settings s l ∧
      (l.prepared c.settings).1.generateAll c.settings = .ok files := by
  have hofSuite : ∀ {α : Type} {x : Except SuiteError α} {a : α}, ofSuite x = .ok a → x = .ok a :=
    fun {_ x _} h => by
      cases x with
      | error e => cases h
      | ok a => exact congrArg Except.ok (Except.ok.inj h)
  rw [compile_eq] at h
  obtain ⟨_, -, h⟩ := bind_eq_ok.1 h
  obtain ⟨s, hsuite, h⟩ := bind_eq_ok.1 h
  obtain ⟨l, hlinked, h⟩ := bind_eq_ok.1 h
  split at h
  · next ready hready =>
    exact ⟨s, l, hsuite, ⟨hofSuite hlinked, by rw [hready]⟩, by rw [hready]; exact hofSuite h⟩
  · cases h

/-- Where styles get no files, each stylesheet has at most one. -/
theorem exists_id_of_mem_compile (h : c.compile t = .ok files) (hwhole : c.splitsStyles = false) :
    ∃ l : Suite, (l.registered.map Stylesheet.name).Nodup ∧
      ∃ filesAt : SheetId → List GeneratedFile, ∀ f ∈ files, ∃ id ∈ l.ids,
        f.name = Code.fileName c.settings (l.sheet id).name ∧ filesAt id = [f] := by
  obtain ⟨s, l, hsuite, hprepares, hfiles⟩ := exists_prepares_of_compile h
  have hlinked := Suite.linked_registered hprepares.linked
  obtain ⟨b, hb, hbase, -⟩ := Suite.linked_ok hprepares.linked
  have hbase? : (l.prepared c.settings).1.base? = some b := by
    rw [hprepares.kept.base?_eq, hbase]
  rw [Suite.generateAll_eq hbase?, Except.ok.injEq] at hfiles
  refine ⟨l, hlinked ▸ nodup_names_suite hsuite,
    (l.prepared c.settings).1.filesOf c.settings (.registered b), fun f hf => ?_⟩
  rw [← hfiles, List.mem_flatten] at hf
  obtain ⟨sheetFiles, hsheetFiles, hf⟩ := hf
  obtain ⟨id, hid, rfl⟩ := List.mem_map.1 hsheetFiles
  have hids : id ∈ l.ids := by
    rcases List.mem_cons.1 hid with rfl | hid
    · exact Suite.mem_ids.2 ⟨b, hlinked ▸ hb, rfl⟩
    · exact hprepares.ids_eq ▸ (List.mem_filter.1 hid).1
  obtain ⟨hname, hsingle⟩ := Suite.filesOf_eq_singleton hwhole hf
  exact ⟨id, hids, by rw [hname, hprepares.name_eq hids], hsingle⟩

/-- Where styles get no files, no two files have one name. -/
theorem eq_of_name_eq (h : c.compile t = .ok files) (hwhole : c.splitsStyles = false)
    {f g : GeneratedFile} (hf : f ∈ files) (hg : g ∈ files) (hname : f.name = g.name) : f = g := by
  obtain ⟨l, hnodup, filesAt, hfiles⟩ := exists_id_of_mem_compile h hwhole
  obtain ⟨id, hid, hfname, hfid⟩ := hfiles f hf
  obtain ⟨id', hid', hgname, hgid⟩ := hfiles g hg
  rw [hfname, hgname] at hname
  cases Suite.id_eq_of_name_eq hnodup hid hid' (Code.fileName_inj hname)
  exact List.singleton_inj.1 (hfid.symm.trans hgid)

/-- Where styles get no files and no name of a file leads into another directory, no two files have
one place. -/
theorem eq_of_locate_eq (h : c.compile t = .ok files) (hwhole : c.splitsStyles = false)
    (hplain : ∀ f ∈ files, '/' ∉ f.name.toList) {f g : GeneratedFile} (hf : f ∈ files)
    (hg : g ∈ files) {place : Place} (hfplace : u.locate (c.outputPath f) = .ok place)
    (hgplace : u.locate (c.outputPath g) = .ok place) : f = g := by
  obtain ⟨l, -, filesAt, hfiles⟩ := exists_id_of_mem_compile h hwhole
  have hnames : ∀ f ∈ files, Path.IsPlain f.name := fun f hf => by
    obtain ⟨id, -, hname, -⟩ := hfiles f hf
    rw [hname]
    exact Code.isPlain_fileName (hname ▸ hplain f hf)
  exact eq_of_name_eq h hwhole hf hg
    (FileTree.name_eq_of_locate_join (hnames f hf) (hnames g hg) hfplace hgplace)

end Config

end Appearance
