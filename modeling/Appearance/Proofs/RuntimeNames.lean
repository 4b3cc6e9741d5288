import Appearance.Proofs.Printed
import Appearance.Proofs.Stems
import Appearance.Proofs.Superclasses

/-!
# Names for Objective-C

The class of a style has a name for Objective-C, which joins that of the stylesheet and the stems on
the way down to the style without a separator, each stem with a capital letter. So different ways
down can spell one text. `Style.spellings` lists what a style spells, and the names of all classes
are distinct if and only if no two styles side by side, and no two stylesheets, spell one text
(`nodup_runtimeNames_iff`). For that it is enough that no stem begins another one beside it, unless
nothing is nested in its style (`NamesToldApart.spelledApart`).

A name for Objective-C is made by putting capital stems one behind another, without anything
between them, so two ways down a tree of classes can spell one text. Both conditions are about such
texts: `SpelledApart` is exact, and `ToldApart` is one that a reader of a source can check on
neighbours. The instances show each way of failing, by nesting, by the letter case, by the name of
a stylesheet and by an empty name.
-/

namespace Appearance

open Appearance.Text

/-! ## What styles spell -/

namespace Style

/-- The stem of the class with a capital letter. -/
def capital (x : Style) : String := firstUpper x.classStem

mutual

/-- What a style spells: its capital stem, alone and before all that a nested style spells. -/
def spellings : Style → List String
  | mk head properties =>
    firstUpper head.classStem :: (spellingsIn properties).map (firstUpper head.classStem ++ ·)

/-- The spellings of the classes of nested styles, in the order of the code. -/
def spellingsIn : List Property → List String
  | [] => []
  | .leaf .. :: ps => spellingsIn ps
  | .nested _ style :: ps => spellings style ++ spellingsIn ps

end

/-- What properties spell is what the nested styles in them do. -/
theorem spellingsIn_eq (ps : List Property) :
    spellingsIn ps = (ps.filterMap Property.style?).flatMap spellings := by
  induction ps with
  | nil => rfl
  | cons p ps ih =>
    cases p with
    | leaf => rw [spellingsIn, ih]; rfl
    | nested k n => rw [spellingsIn, ih]; rfl

theorem spellings_eq (x : Style) :
    x.spellings = x.capital :: (x.nestedStyles.flatMap spellings).map (x.capital ++ ·) := by
  obtain ⟨h, ps⟩ := x
  rw [spellings, spellingsIn_eq]
  rfl

theorem capital_mem_spellings (x : Style) : x.capital ∈ x.spellings := by
  rw [spellings_eq]
  exact List.mem_cons_self

/-- All that a style spells begins with its stem. -/
theorem capital_begins {x : Style} {text : String} (h : text ∈ x.spellings) :
    x.capital.toList <+: text.toList := by
  rw [spellings_eq, List.mem_cons, List.mem_map] at h
  rcases h with rfl | ⟨t, -, rfl⟩
  · exact List.prefix_rfl
  · rw [String.toList_append]
    exact List.prefix_append _ _

/-- A style spells nothing at all if and only if its stem is empty. -/
theorem empty_mem_spellings {x : Style} : "" ∈ x.spellings ↔ x.classStem = "" := by
  rw [← firstUpper_eq_empty]
  constructor
  · intro h
    have := capital_begins h
    exact String.toList_eq_nil_iff.1 (List.prefix_nil.1 this)
  · intro h
    exact h ▸ x.capital_mem_spellings

/-- The names of the classes of a style are what it spells behind the name of the class around. -/
theorem map_fst_annotatedAt (outer path : String) (x : Style) :
    (x.annotatedAt outer path).map Prod.fst = x.spellings.map (outer ++ ·) := by
  induction x using nestedInduction generalizing outer path with
  | step x ih =>
    rw [annotatedAt_eq, spellings_eq, List.map_cons, List.map_cons, List.map_flatMap, List.map_map,
      List.map_flatMap]
    refine congrArg _ (List.flatMap_congr fun n hn => ?_)
    rw [ih n hn]
    exact List.map_congr_left fun t _ => String.append_assoc ..

/-! ## Spelled apart -/

/-- The styles nested in a style have names, and no two of them spell one text. -/
structure NestedSpelledApart (u : Style) : Prop where
  named : ∀ n ∈ u.nestedStyles, n.classStem ≠ ""
  apart : u.nestedStyles.Pairwise fun m n => m.spellings.Disjoint n.spellings

/-- Nested styles spell the stem of the one around them only if one of them has no name. -/
theorem capital_not_mem_iff {x : Style} :
    x.capital ∉ (x.nestedStyles.flatMap spellings).map (x.capital ++ ·) ↔
      ∀ n ∈ x.nestedStyles, n.classStem ≠ "" := by
  constructor
  · intro h n hn hstem
    exact h (List.mem_map.2 ⟨"", List.mem_flatMap.2 ⟨n, hn, empty_mem_spellings.2 hstem⟩,
      String.append_empty⟩)
  · intro h hmem
    obtain ⟨text, htext, heq⟩ := List.mem_map.1 hmem
    obtain ⟨n, hn, htext⟩ := List.mem_flatMap.1 htext
    obtain rfl : text = "" := String.append_eq_left_iff.1 heq
    exact h n hn (empty_mem_spellings.1 htext)

/-- A style spells every text once if those nested in it are spelled apart, at every depth: what
they have in front of them is the same. -/
theorem nodup_spellings_iff {x : Style} : x.spellings.Nodup ↔ x.All NestedSpelledApart := by
  induction x using nestedInduction with
  | step x ih =>
    rw [spellings_eq, List.nodup_cons, List.nodup_map_iff fun _ _ => (String.append_right_inj _).1,
      List.nodup_flatMap, forall₂_congr ih, capital_not_mem_iff, all_iff]
    exact ⟨fun h => ⟨⟨h.1, h.2.2⟩, h.2.1⟩, fun h => ⟨h.1.named, h.2, h.1.apart⟩⟩

/-- The stem of the first style begins that of the second one, and it is all of that or there are
nested styles that may continue it. -/
def LeadsInto (x y : Style) : Prop :=
  x.capital.toList <+: y.capital.toList ∧ (x.capital = y.capital ∨ x.nestedStyles ≠ [])

instance (x y : Style) : Decidable (x.LeadsInto y) :=
  inferInstanceAs (Decidable (_ ∧ (_ ∨ _)))

/-- Neither style leads into the other one. -/
def ToldApart (x y : Style) : Prop := ¬x.LeadsInto y ∧ ¬y.LeadsInto x

instance (x y : Style) : Decidable (x.ToldApart y) := inferInstanceAs (Decidable (_ ∧ _))

/-- A style whose stem begins that of another one leads into it if both spell one text. -/
theorem leadsInto_of_mem {x y : Style} {text : String} (hx : text ∈ x.spellings)
    (hy : text ∈ y.spellings) (hbegins : x.capital.toList <+: y.capital.toList) :
    x.LeadsInto y := by
  refine ⟨hbegins, or_iff_not_imp_right.2 fun hnested => String.toList_injective ?_⟩
  rw [spellings_eq, not_not.1 hnested, List.flatMap_nil, List.map_nil, List.mem_singleton] at hx
  exact hbegins.eq_of_length_le (hx ▸ capital_begins hy).length_le

/-- Styles that are told apart spell no text in common: their stems both begin it, so one of these
begins the other one. -/
theorem ToldApart.disjoint {x y : Style} (h : x.ToldApart y) :
    x.spellings.Disjoint y.spellings := by
  intro text hx hy
  rcases List.prefix_or_prefix_of_prefix (capital_begins hx) (capital_begins hy) with hxy | hyx
  · exact h.1 (leadsInto_of_mem hx hy hxy)
  · exact h.2 (leadsInto_of_mem hy hx hyx)

end Style

/-- The names of the classes of a stylesheet. -/
def Stylesheet.runtimeNames (t : Stylesheet) : List String := t.annotated.map Prod.fst

theorem Stylesheet.runtimeNames_eq (t : Stylesheet) :
    t.runtimeNames = (t.allStyles.flatMap Style.spellings).map (t.name ++ ·) := by
  rw [runtimeNames, annotated, List.map_flatMap, List.map_flatMap]
  exact List.flatMap_congr fun x _ => Style.map_fst_annotatedAt _ _ x

/-- No two stylesheets of a list have classes of one name, no two of their top-level styles spell
one text, and neither do nested styles side by side. -/
structure SpelledApart (ts : List Stylesheet) : Prop where
  sheets : ts.Pairwise fun t u => t.runtimeNames.Disjoint u.runtimeNames
  styles : ∀ t ∈ ts, t.allStyles.Pairwise fun x y => x.spellings.Disjoint y.spellings
  nested : ∀ t ∈ ts, ∀ x ∈ t.allStyles, x.All Style.NestedSpelledApart

/-- The names of the classes of some stylesheets are distinct if and only if these are spelled
apart. -/
theorem nodup_runtimeNames_iff {ts : List Stylesheet} :
    (ts.flatMap Stylesheet.runtimeNames).Nodup ↔ SpelledApart ts := by
  have hsheet : ∀ t : Stylesheet, t.runtimeNames.Nodup ↔
      (∀ x ∈ t.allStyles, x.All Style.NestedSpelledApart) ∧
        t.allStyles.Pairwise fun x y => x.spellings.Disjoint y.spellings := fun t => by
    rw [Stylesheet.runtimeNames_eq, List.nodup_map_iff fun _ _ => (String.append_right_inj _).1,
      List.nodup_flatMap]
    exact and_congr (forall₂_congr fun x _ => Style.nodup_spellings_iff) Iff.rfl
  rw [List.nodup_flatMap]
  simp only [hsheet]
  exact ⟨fun h => ⟨h.2, fun t ht => (h.1 t ht).2, fun t ht => (h.1 t ht).1⟩,
    fun h => ⟨fun t ht => ⟨h.nested t ht, h.styles t ht⟩, h.sheets⟩⟩

/-- No name of a stylesheet begins another one, no style leads into one beside it, and nested styles
have names. -/
structure NamesToldApart (ts : List Stylesheet) : Prop where
  sheets : ts.Pairwise fun t u =>
    ¬t.name.toList <+: u.name.toList ∧ ¬u.name.toList <+: t.name.toList
  styles : ∀ t ∈ ts, t.allStyles.Pairwise Style.ToldApart
  named : ∀ t ∈ ts, ∀ x ∈ t.allStyles, x.All fun u => ∀ n ∈ u.nestedStyles, n.classStem ≠ ""
  nested : ∀ t ∈ ts, ∀ x ∈ t.allStyles, x.All fun u => u.nestedStyles.Pairwise Style.ToldApart

instance (ts : List Stylesheet) : Decidable (NamesToldApart ts) :=
  decidable_of_iff
    ((ts.Pairwise fun t u => ¬t.name.toList <+: u.name.toList ∧ ¬u.name.toList <+: t.name.toList) ∧
      (∀ t ∈ ts, t.allStyles.Pairwise Style.ToldApart) ∧
      (∀ t ∈ ts, ∀ x ∈ t.allStyles, x.All fun u => ∀ n ∈ u.nestedStyles, n.classStem ≠ "") ∧
      ∀ t ∈ ts, ∀ x ∈ t.allStyles, x.All fun u => u.nestedStyles.Pairwise Style.ToldApart)
    ⟨fun h => ⟨h.1, h.2.1, h.2.2.1, h.2.2.2⟩, fun h => ⟨h.sheets, h.styles, h.named, h.nested⟩⟩

theorem Stylesheet.name_begins {t : Stylesheet} {name : String} (h : name ∈ t.runtimeNames) :
    t.name.toList <+: name.toList := by
  rw [runtimeNames_eq] at h
  obtain ⟨text, -, rfl⟩ := List.mem_map.1 h
  rw [String.toList_append]
  exact List.prefix_append _ _

/-- Nested styles of which none leads into another spell different texts. -/
theorem Style.nestedSpelledApart_of_toldApart {x : Style}
    (hnamed : x.All fun u => ∀ n ∈ u.nestedStyles, n.classStem ≠ "")
    (htold : x.All fun u => u.nestedStyles.Pairwise ToldApart) : x.All NestedSpelledApart := by
  induction x using Style.nestedInduction with
  | step x ih =>
    exact all_iff.2 ⟨⟨hnamed.self, htold.self.imp fun hxy => hxy.disjoint⟩,
      fun n hn => ih n hn (hnamed.nested hn) (htold.nested hn)⟩

/-- If no stem begins another one beside it, no two classes have one name. -/
theorem NamesToldApart.spelledApart {ts : List Stylesheet} (h : NamesToldApart ts) :
    SpelledApart ts where
  sheets := h.sheets.imp fun hnames name ht hu => by
    rcases List.prefix_or_prefix_of_prefix (Stylesheet.name_begins ht)
      (Stylesheet.name_begins hu) with htu | hut
    · exact hnames.1 htu
    · exact hnames.2 hut
  styles t ht := (h.styles t ht).imp fun hxy => hxy.disjoint
  nested t ht x hx := Style.nestedSpelledApart_of_toldApart (h.named t ht x hx) (h.nested t ht x hx)

namespace Suite

variable {s l r : Suite} {settings : Settings} {base : SheetId}

/-- The stylesheets that get files. -/
def writtenSheets (s : Suite) (settings : Settings) : List Stylesheet :=
  s.registered.filter fun t => !t.isBase || settings.writesBase

/-- What is known of the names for Objective-C of the classes that are written. -/
structure NamesAnnotated (r : Suite) (settings : Settings) (base : SheetId) : Prop where
  /-- Each class of a stylesheet has one name. -/
  complete : ∀ t ∈ r.registered, t.annotated.map Prod.snd = t.classes
  /-- With it the class is annotated where it is declared. -/
  annotated : ∀ id ∈ r.ids, r.sheet id ∈ r.writtenSheets settings →
    ∀ name c, (name, c) ∈ (r.sheet id).annotated →
      ∃ file ∈ r.allLines settings base, ∃ lines outer,
        Code.SheetMembers settings (r.sheet id) file lines ∧
        Style.Stands (r.proxyContext settings base) lines (r.sheet id).name (r.sheet id).name c
          outer ∧
        ∃ rest, Style.classHead (r.proxyContext settings base) outer c.style.head =
          "@objc(" ++ name ++ ") @objcMembers " ++ rest
  /-- The names are distinct if and only if nothing is spelled twice. -/
  nodup_iff : ((r.writtenSheets settings).flatMap Stylesheet.runtimeNames).Nodup ↔
    SpelledApart (r.writtenSheets settings)
  /-- They are if no name begins another one beside it that it can be continued to. -/
  nodup_of_toldApart : NamesToldApart (r.writtenSheets settings) →
    ((r.writtenSheets settings).flatMap Stylesheet.runtimeNames).Nodup

/-- A class of a stylesheet that gets files has its name in the line that declares it. -/
theorem exists_annotation (hobjc : settings.objc = true) {id : SheetId} (hid : id ∈ r.ids)
    (hwritten : r.sheet id ∈ r.writtenSheets settings) {name : String} {c : Ancestor}
    (hc : (name, c) ∈ (r.sheet id).annotated) :
    ∃ file ∈ r.allLines settings base, ∃ lines outer,
      Code.SheetMembers settings (r.sheet id) file lines ∧
      Style.Stands (r.proxyContext settings base) lines (r.sheet id).name (r.sheet id).name c
        outer ∧
      ∃ rest, Style.classHead (r.proxyContext settings base) outer c.style.head =
        "@objc(" ++ name ++ ") @objcMembers " ++ rest := by
  have hw : r.Written settings id := fun hbase => by
    have hkept := (List.mem_filter.1 hwritten).2
    rwa [hbase, Bool.not_true, Bool.false_or] at hkept
  obtain ⟨file, hfile, lines, outer, hmembers, hstands, rfl⟩ := exists_stands hw base hc
  refine ⟨file, linesOf_subset_allLines hid hfile, lines, outer, hmembers, hstands,
    Code.access (c.style.head.isOverridable || c.style.head.isNestedOverridable) ++
      (" class " ++ (c.style.head.className ++
        Code.inherits (c.style.head.inherits <|> some "NSObject"))), ?_⟩
  rw [Style.classHead, show (r.proxyContext settings base).settings.objc = true from hobjc,
    Code.mark, if_pos rfl, if_pos rfl, show ") @objcMembers " = ") @objcMembers" ++ " " from rfl]
  simp only [String.append_assoc]

/-- Code is generated for every suite that is prepared, and the names for Objective-C in it are
distinct if and only if nothing is spelled twice. -/
theorem Prepares.namesAnnotated (h : Prepares settings s l) (hobjc : settings.objc = true) :
    ∃ base files, l.baseId = .ok base ∧
      (l.prepared settings).1.generateAll settings = .ok files ∧
      files.map GeneratedFile.content =
        ((l.prepared settings).1.allLines settings base).map Code.unlines ∧
      NamesAnnotated (l.prepared settings).1 settings base := by
  obtain ⟨base, files, hbase, hfiles, hcontent⟩ := h.exists_generated
  refine ⟨base, files, hbase, hfiles, hcontent, ?_⟩
  exact {
    complete := fun t _ => t.map_snd_annotated
    annotated := fun id hid hwritten name c hc => exists_annotation hobjc hid hwritten hc
    nodup_iff := nodup_runtimeNames_iff
    nodup_of_toldApart := fun htold => nodup_runtimeNames_iff.2 htold.spelledApart }

/-! ## Instances -/

/-- Settings with names for Objective-C. -/
def objcSettings : Settings := { Settings.standard with objc := true }

theorem prepares_layeredTheme_objc :
    Prepares objcSettings layeredTheme { layeredTheme with base? := some 0 } :=
  ⟨rfl, by cbv⟩

theorem toldApart_layeredTheme :
    NamesToldApart (({ layeredTheme with base? := some 0 }.prepared objcSettings).1.writtenSheets
      objcSettings) :=
  of_decide_eq_true (by cbv)

/-- The classes of this suite have distinct names for Objective-C. -/
theorem namesAnnotated_layeredTheme :
    (∃ base files, ({ layeredTheme with base? := some 0 } : Suite).baseId = .ok base ∧
      ({ layeredTheme with base? := some 0 }.prepared objcSettings).1.generateAll objcSettings =
        .ok files ∧
      files.map GeneratedFile.content =
        (({ layeredTheme with base? := some 0 }.prepared objcSettings).1.allLines objcSettings
          base).map Code.unlines ∧
      NamesAnnotated ({ layeredTheme with base? := some 0 }.prepared objcSettings).1 objcSettings
        base) ∧
    ((({ layeredTheme with base? := some 0 }.prepared objcSettings).1.writtenSheets
      objcSettings).flatMap Stylesheet.runtimeNames).Nodup := by
  have hannotated := Prepares.namesAnnotated prepares_layeredTheme_objc rfl
  refine ⟨hannotated, ?_⟩
  obtain ⟨_, _, -, -, -, hnames⟩ := hannotated
  exact hnames.nodup_of_toldApart toldApart_layeredTheme

/-- Two ways down spell one text. -/
def spelledTwice : Suite :=
  ⟨[⟨"B", [.named "x" [.ofStyle (.named "y" [])], .named "xY" []], none, none, false, []⟩],
    none, none⟩

/-- Two names are one but for the case of the first letter. -/
def capitalTwice : Suite :=
  ⟨[⟨"B", [.named "x" [], .named "X" []], none, none, false, []⟩], none, none⟩

/-- The name of a stylesheet begins another one. -/
def sheetContinued : Suite :=
  ⟨[⟨"B", [.named "xA" []], none, none, false, []⟩,
    ⟨"BX", [.named "a" []], none, some "B", false, []⟩], none, none⟩

/-- A nested style has an empty name. -/
def namelessNested : Suite :=
  ⟨[⟨"B", [.named "x" [.ofStyle (.named "" [])]], none, none, false, []⟩], none, none⟩

theorem runtimeNames_spelledTwice :
    (({ spelledTwice with base? := some 0 }.prepared objcSettings).1.writtenSheets
      objcSettings).flatMap Stylesheet.runtimeNames = ["BX", "BXY", "BXY"] := by
  cbv

theorem runtimeNames_capitalTwice :
    (({ capitalTwice with base? := some 0 }.prepared objcSettings).1.writtenSheets
      objcSettings).flatMap Stylesheet.runtimeNames = ["BX", "BX"] := by
  cbv

theorem runtimeNames_sheetContinued :
    (({ sheetContinued with base? := some 0 }.prepared objcSettings).1.writtenSheets
      objcSettings).flatMap Stylesheet.runtimeNames = ["BXA", "BXA", "BXBXxA"] := by
  cbv

theorem runtimeNames_namelessNested :
    (({ namelessNested with base? := some 0 }.prepared objcSettings).1.writtenSheets
      objcSettings).flatMap Stylesheet.runtimeNames = ["BX", "BX"] := by
  cbv

/-- The names in a suite are distinct and it is prepared, but two of its classes have one name for
Objective-C. -/
def SharesRuntimeName (s : Suite) : Prop :=
  s.WellNamed ∧ Prepares objcSettings s { s with base? := some 0 } ∧
    ¬((({ s with base? := some 0 }.prepared objcSettings).1.writtenSheets objcSettings).flatMap
      Stylesheet.runtimeNames).Nodup

/-- Distinct names do not make names for Objective-C distinct. -/
theorem shared_runtimeNames :
    spelledTwice.SharesRuntimeName ∧ capitalTwice.SharesRuntimeName ∧
      sheetContinued.SharesRuntimeName ∧ namelessNested.SharesRuntimeName := by
  refine ⟨⟨by decide, ⟨rfl, by cbv⟩, by rw [runtimeNames_spelledTwice]; decide⟩,
    ⟨by decide, ⟨rfl, by cbv⟩, by rw [runtimeNames_capitalTwice]; decide⟩,
    ⟨by decide, ⟨rfl, by cbv⟩, by rw [runtimeNames_sheetContinued]; decide⟩,
    ⟨by decide, ⟨rfl, by cbv⟩, by rw [runtimeNames_namelessNested]; decide⟩⟩

end Suite

end Appearance
