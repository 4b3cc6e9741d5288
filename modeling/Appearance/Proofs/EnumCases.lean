import Appearance.Proofs.EnumTemplates
import Appearance.Proofs.FileNames
import Appearance.Proofs.GlobalTypes
import Appearance.Proofs.Printed
import Mathlib.Data.List.TakeWhile

/-!
# Cases of enumerations

Reading a generated file back gives the enumerations that its stylesheet declares
(`Suite.flatMap_enumsIn_linesOf`). None of them declares a case twice if and only if the names
behind the cases stay apart (`Suite.Prepares.declares_cases`): nothing but the cases of a definition
is freed from duplicates, so themes, animations and text styles whose names are merely different
may still share a case, as `Suite.body_declaredTwice` shows for a text style of the platform that
the settings list again.

The enumerations of a stylesheet come from four places: text styles and animations from the
templates, themes from the names of the stylesheets, and the rest from the definitions. For each of
them one lemma says when its cases are distinct (`nodup_textStyles`, `nodup_animations`,
`nodup_themes`, `nodup_enumeration`), and `Suite.CasesApart` is what they come to together.
-/

namespace Appearance

open Appearance.Text
open Code

/-! ## Definitions -/

namespace Value

/-- The cases of an enumeration in the order in which they are declared. -/
def declaredCases (cases : List String) : List String :=
  (if (sortedOnce cases).contains noneCase then [noneCase] else []) ++
    (sortedOnce cases).filter (· != noneCase)

/-- The enumeration that a definition declares. -/
def enumeration? : Value → Option Enumeration
  | enumDef type cases => some ⟨type, (declaredCases cases).map fun c => caseName (identifier c)⟩
  | _ => none

theorem nodup_distinct (names : List String) : (distinct names).Nodup := by
  induction names with
  | nil => exact List.nodup_nil
  | cons first names ih =>
    refine List.nodup_cons.2 ⟨fun h => ?_, ih.filter _⟩
    simpa using (List.mem_filter.1 h).2

/-- Each case is declared, and once. -/
theorem nodup_declaredCases (cases : List String) :
    (declaredCases cases).Nodup ∧ ∀ name, name ∈ declaredCases cases ↔ name ∈ cases := by
  have hmem : ∀ name, name ∈ sortedOnce cases ↔ name ∈ cases := fun name => mem_sortedOnce
  constructor
  · refine List.nodup_append'.2 ⟨?_, (nodup_distinct _).filter _, ?_⟩
    · split
      · exact List.nodup_singleton _
      · exact List.nodup_nil
    · intro name hnone hother
      split at hnone
      · rw [List.mem_singleton] at hnone
        simp [hnone] at hother
      · cases hnone
  · intro name
    rw [declaredCases, List.mem_append, List.mem_filter, hmem]
    by_cases hnone : name = noneCase
    · subst hnone
      simp [hmem]
    · simp [hnone]

/-- A case is read by its name, whether or not a value follows it. -/
theorem caseAt?_tab (name : String) (suffix : String)
    (h : suffix = "" ∨ suffix.toList.head? = some ' ') :
    caseAt? 0 ("\tcase " ++ name ++ suffix) = some (caseName name) := by
  have hne : caseOpening ++ (name ++ suffix) ≠ "" := by simp [caseOpening]
  have hline : "\tcase " ++ name ++ suffix = indentLine (caseOpening ++ (name ++ suffix)) := by
    have hempty : (caseOpening ++ (name ++ suffix)).isEmpty = false := by simpa using hne
    rw [indentLine, hempty, String.append_assoc, ← String.append_assoc]
    rfl
  rw [hline, caseAt?_case]
  rcases h with rfl | h
  · rw [String.append_empty]
  · rw [caseName_append _ (.inl h)]

/-- The case of no value is read back as itself. -/
theorem filterMap_noneCaseLines (objc : Bool) (names : List String) :
    (noneCaseLines objc names).filterMap (caseAt? 0) =
      (if names.contains noneCase then [noneCase] else []).map fun c =>
        caseName (identifier c) := by
  have hsuffix : ∀ suffix : String, suffix = "" ∨ suffix.toList.head? = some ' ' →
      caseAt? 0 ("\tcase " ++ noneCase ++ suffix) = some (caseName (identifier noneCase)) := by
    intro suffix h
    rw [caseAt?_tab _ _ h]
    rfl
  rw [noneCaseLines]
  split
  · rw [List.filterMap_cons_some (hsuffix _ (by cases objc <;> simp))]
    rfl
  · rfl

/-- The lines of cases are read back as the names of the cases. -/
theorem filterMap_caseLines (objc : Bool) (names : List String) :
    (caseLines objc names).filterMap (caseAt? 0) = names.map fun c => caseName (identifier c) := by
  have hplain : ∀ name, caseAt? 0 ("\tcase " ++ identifier name) =
      some (caseName (identifier name)) := fun name => by
    simpa using caseAt?_tab (identifier name) "" (.inl rfl)
  cases names with
  | nil => rfl
  | cons name names =>
    rw [caseLines, List.filterMap_cons_some
      (caseAt?_tab (identifier name) _ (by cases objc <;> simp)), List.filterMap_map]
    simp only [Function.comp_def, hplain, List.map_cons]
    exact congrArg _ (congrFun List.filterMap_eq_map' names)

variable {words : List (List Char)}

theorem lacks_noneCaseLines (h : Excludes words ['c', 'a', 's', 'e', ' ']) (objc : Bool)
    (names : List String) : Lacks words (noneCaseLines objc names) := by
  have hcase : "\tcase " ++ noneCase = "\t" ++ (String.ofList caseWord ++ noneCase) := rfl
  refine lacks_ite (lacks_cons.2 ⟨?_, lacks_nil⟩) lacks_nil
  rw [hcase, String.append_assoc, apart_tab, String.append_assoc]
  exact apart_append h _

/-- The lines of cases begin with nothing that excludes the word of a case. -/
theorem lacks_caseLines (h : Excludes words ['c', 'a', 's', 'e', ' ']) (objc : Bool)
    (names : List String) : Lacks words (caseLines objc names) := by
  have hcase : "\tcase " = "\t" ++ String.ofList caseWord := rfl
  have hapart : ∀ rest, Apart words ("\tcase " ++ rest) := fun rest => by
    rw [hcase, String.append_assoc, apart_tab]
    exact apart_append h _
  cases names with
  | nil => exact lacks_nil
  | cons name names =>
    refine lacks_cons.2 ⟨?_, lacks_map fun _ _ => hapart _⟩
    rw [String.append_assoc]
    exact hapart _

/-- The declaration of an enumeration begins with one of the words for that. -/
theorem exists_enumOpening (s : DeclarationStyle) :
    ∃ w ∈ enumWords,
      (if s.objc then "@objc " else "") ++ s.visibility ++ "enum " = String.ofList w := by
  obtain ⟨objc, isPublic⟩ := s
  cases objc <;> cases isPublic
  · exact ⟨_, .head _, rfl⟩
  · exact ⟨_, .tail _ (.head _), rfl⟩
  · exact ⟨_, .tail _ (.tail _ (.head _)), rfl⟩
  · exact ⟨_, .tail _ (.tail _ (.tail _ (.head _))), rfl⟩

/-- The declaration of an enumeration declares each case under its identifier. -/
theorem reads_enumLines (s : DeclarationStyle) {type : String} (htype : IsName type)
    (cases : List String) :
    Reads (enumLines s type cases)
      [⟨type, (declaredCases cases).map fun c => caseName (identifier c)⟩] := by
  have hends : EndsName ((if s.objc then ": Int" else "") ++ " \x7b") := by
    cases s.objc <;> simp [EndsName]
  obtain ⟨w, hw, hfirst⟩ := exists_enumOpening s
  obtain ⟨hname, hdepth⟩ :=
    enumName?_append hw (type ++ ((if s.objc then ": Int" else "") ++ " \x7b"))
  rw [leadingName_append htype hends] at hname
  have hlines : enumLines s type cases =
      (String.ofList w ++ (type ++ ((if s.objc then ": Int" else "") ++ " \x7b"))) ::
        (noneCaseLines s.objc (sortedOnce cases) ++
          caseLines s.objc ((sortedOnce cases).filter (· != noneCase))) ++ [closing] := by
    rw [← hfirst]
    simp [enumLines, String.append_assoc, closing]
  rw [hlines]
  refine Spells.reads (d := 0) ⟨hname, hdepth, ?_, ?_, by decide, ?_⟩
  · exact lacks_append.2 ⟨lacks_append.2 ⟨lacks_noneCaseLines (by decide) _ _,
        lacks_caseLines (by decide) _ _⟩,
      lacks_cons.2 ⟨apart_closing, lacks_nil⟩⟩
  · exact List.forall_mem_append.2
      ⟨fun _ h => not_closes_of_isDeeper (isDeeper_of_mem_noneCaseLines h),
        fun _ h => not_closes_of_isDeeper (isDeeper_of_mem_caseLines h)⟩
  · rw [List.filterMap_append, filterMap_noneCaseLines, filterMap_caseLines, ← List.map_append]
    rfl

/-- A line is apart from the words with or without the word `public` in front. -/
theorem apart_visibility (s : DeclarationStyle) {cs : List Char} (rest : String)
    (h : Excludes words (['p', 'u', 'b', 'l', 'i', 'c', ' '] ++ cs) ∧ Excludes words cs) :
    Apart words (s.visibility ++ (String.ofList cs ++ rest)) := by
  rw [DeclarationStyle.visibility]
  split
  · exact apart_append_append h.1 _
  · rw [String.empty_append]
    exact apart_append h.2 _

/-- The lines of options declare no enumeration. -/
theorem lacks_optionLines (s : DeclarationStyle) (type : String) (bit : Nat)
    (entries : List OptionEntry) : Lacks enumWords (optionLines s.visibility type bit entries) := by
  induction entries generalizing bit with
  | nil => exact lacks_nil
  | cons entry entries ih =>
    cases entry with
    | flag name =>
      refine lacks_cons.2 ⟨?_, ih _⟩
      simp only [String.append_assoc, apart_tab]
      exact apart_visibility s _ (by decide)
    | composite name members =>
      refine lacks_cons.2 ⟨?_, ih _⟩
      simp only [String.append_assoc, apart_tab]
      exact apart_visibility s _ (by decide)

/-- A set of options is a structure and declares no enumeration. -/
theorem lacks_optionSetLines (s : DeclarationStyle) (type : String) (entries : List OptionEntry) :
    Lacks enumWords (optionSetLines s type entries) := by
  have hlast : ∀ {cs : List Char},
      Excludes enumWords (['p', 'u', 'b', 'l', 'i', 'c', ' '] ++ cs) ∧ Excludes enumWords cs →
      Apart enumWords (s.visibility ++ String.ofList cs) := fun h => by
    simpa using apart_visibility s "" h
  unfold optionSetLines
  simp only [lacks_append, lacks_cons, String.append_assoc, apart_tab]
  exact ⟨⟨⟨apart_visibility s _ (by decide), hlast (by decide), hlast (by decide), apart_empty,
    lacks_nil⟩, lacks_optionLines s type 0 entries⟩, apart_closing, lacks_nil⟩

variable {v : Value} {style : DeclarationStyle}

theorem enumeration?_of_declarationLines?_eq_none (h : v.declarationLines? style = none) :
    v.enumeration? = none := by
  cases v <;> first | rfl | cases h

/-- The declaration of a definition declares its enumeration, if it is one. -/
theorem IsLegible.reads (h : v.IsLegible) {ls : List String}
    (hls : v.declarationLines? style = some ls) : Reads ls v.enumeration?.toList := by
  cases v <;> cases hls
  case enumDef type cases => exact reads_enumLines style (h.type type rfl).1 cases
  case optionDef type entries => exact reads_of_lacks (lacks_optionSetLines style type entries)

/-- The declarations of values, as they stand in the namespace. -/
theorem reads_declarations (style : DeclarationStyle) {vs : List Value}
    (h : ∀ v ∈ vs, v.IsLegible) :
    Reads ((vs.filterMap fun v => (v.declarationLines? style).map unlines).flatMap fun text =>
      (lines text.toList).map String.ofList) (vs.filterMap enumeration?) := by
  induction vs with
  | nil => exact reads_of_lacks lacks_nil
  | cons v vs ih =>
    obtain ⟨hv, hvs⟩ := List.forall_mem_cons.1 h
    cases hls : v.declarationLines? style with
    | none =>
      rw [List.filterMap_cons_none (by rw [hls]; rfl),
        List.filterMap_cons_none (enumeration?_of_declarationLines?_eq_none hls)]
      exact ih hvs
    | some ls =>
      obtain ⟨-, -, -, honeLine⟩ := hv.declares hls
      rw [List.filterMap_cons_some (by rw [hls]; rfl), List.flatMap_cons, lines_unlines honeLine]
      have hread := reads_append (hv.reads hls) (ih hvs)
      cases he : v.enumeration? <;> rw [he] at hread
      · rwa [List.filterMap_cons_none he]
      · rwa [List.filterMap_cons_some he]

end Value

namespace Code

theorem reads_namespaceLines {head : String} (hhead : Apart enumWords (opening head))
    (style : Value.DeclarationStyle) {vs : List Value} (h : ∀ v ∈ vs, v.IsLegible) :
    Reads (namespaceLines head (vs.filterMap fun v => (v.declarationLines? style).map unlines))
      (vs.filterMap Value.enumeration?) :=
  ((Value.reads_declarations style h).block hhead).paragraph.lacks_append
    (lacks_cons.2 ⟨apart_empty, lacks_nil⟩)

theorem apart_namespaceExtension : Apart enumWords (opening namespaceExtension) :=
  apart_opening_append (by decide) _

/-- The definitions of the base are read back as its enumerations. -/
theorem reads_baseGlobalLines (objc overFramework : Bool) {sheet : Stylesheet}
    (h : sheet.IsLegible) :
    Reads (baseGlobalLines objc overFramework sheet)
      (sheet.globals.filterMap Value.enumeration?) := by
  refine reads_namespaceLines ?_ _ h
  cases overFramework
  · cases objc
    · exact apart_opening_append (by decide) _
    · rw [namespaceHead, if_neg nofun, if_pos rfl, String.append_assoc, String.append_assoc,
        String.append_assoc]
      exact apart_opening_append (by decide) _
  · exact apart_namespaceExtension

/-- The definitions of a theme that the base does not have are read back as enumerations. -/
theorem reads_themeGlobalLines (objc : Bool) {base sheet : Stylesheet} (hbase : base.IsLegible)
    (hsheet : sheet.IsLegible) :
    Reads (themeGlobalLines objc base sheet)
      ((sheet.newGlobals objc base).filterMap Value.enumeration?) := by
  have hnew : ∀ v ∈ sheet.newGlobals objc base, v.IsLegible := fun v hv =>
    hsheet v (List.mem_filter.1 hv).1
  rw [themeGlobalLines, filter_globalTexts objc hbase hsheet]
  split
  case isTrue hnone =>
    have hnil : (sheet.newGlobals objc base).filterMap Value.enumeration? = [] := by
      refine List.filterMap_eq_nil_iff.2 fun v hv => ?_
      have hlines := List.filterMap_eq_nil_iff.1 (List.isEmpty_iff.1 hnone) v hv
      exact Value.enumeration?_of_declarationLines?_eq_none (Option.map_eq_none_iff.1 hlines)
    rw [hnil]
    exact reads_of_lacks lacks_nil
  case isFalse => exact reads_namespaceLines apart_namespaceExtension _ hnew

/-! ## The enclosing enumeration -/

/-- The enumeration around the classes. -/
def enclosingEnumeration (settings : Settings) : List Enumeration :=
  settings.enclosing.toList.map fun outer =>
    ⟨leadingName outer, if settings.objc then [caseName (firstLower outer)] else []⟩

/-- A name ends where something that ends names begins. -/
theorem leadingName_of_endsName {s t : String} (h : EndsName t) :
    leadingName (s ++ t) = leadingName s := by
  have hend : (t.toList.takeWhile fun c => c != ' ' && c != ':') = [] := by
    cases ht : t.toList with
    | nil => rfl
    | cons c cs => rcases h c (by rw [ht]; rfl) with rfl | rfl <;> rfl
  rw [leadingName, leadingName, String.toList_append]
  refine congrArg String.ofList ?_
  induction s.toList with
  | nil => exact hend
  | cons c cs ih => rw [List.cons_append, List.takeWhile_cons, List.takeWhile_cons, ih]

variable {settings : Settings} {sheet : Stylesheet} {body : List String}

/-- What stands in the class of a stylesheet. -/
def sheetMembers (settings : Settings) (sheet : Stylesheet) (body : List String) : List String :=
  "" ::
    block ("public " ++ mark (sheet.superclass.isSome || settings.framework.isSome) "override" ++
        "class func shared() -> " ++ sheet.name)
      ["struct __ " ++ braced ("static let _sharedInstance = " ++ sheet.name ++ "()"),
        "return __._sharedInstance"] ++ body

/-- The members of the class of a stylesheet declare nothing if its body does not. -/
theorem lacks_sheetMembers (h : Lacks declaringWords body) :
    Lacks declaringWords (sheetMembers settings sheet body) := by
  have hclosing : Apart declaringWords closing := apart_ofList (by decide)
  have hempty : Apart declaringWords "" := apart_ofList (by decide)
  unfold sheetMembers
  simp only [lacks_block hclosing, lacks_append, lacks_cons, String.append_assoc]
  refine ⟨⟨hempty, ?_, apart_append (by decide) _, apart_ofList (by decide), lacks_nil⟩, h⟩
  generalize (sheet.superclass.isSome || settings.framework.isSome) = isDerived
  rw [opening_append, opening_append]
  cases isDerived
  · rw [mark, if_neg Bool.false_ne_true, String.empty_append, opening_append]
    exact apart_append_append (by decide) _
  · rw [mark, if_pos rfl, String.append_assoc]
    exact apart_append_append (by decide) _

theorem sheetClassLines_eq (settings : Settings) (sheet : Stylesheet) (body : List String) :
    sheetClassLines settings sheet body =
      "/// Entry point for the app stylesheet" ::
        paragraph (block (sheetHead settings sheet) (sheetMembers settings sheet body)) := rfl

/-- The head of the class of a stylesheet is apart from the words that exclude its two beginnings.
-/
theorem apart_sheetHead {words : List (List Char)} (settings : Settings) (sheet : Stylesheet)
    (h : Excludes words ['p', 'u', 'b', 'l', 'i', 'c', ' ', 'c', 'l', 'a', 's', 's', ' '] ∧
      Excludes words ['@', 'o', 'b', 'j', 'c', '(', 'S', 'T', 'R']) :
    Apart words (opening (sheetHead settings sheet)) := by
  unfold sheetHead
  simp only [String.append_assoc]
  rw [opening_append]
  cases settings.objc
  · rw [mark, if_neg Bool.false_ne_true, String.empty_append, opening_append]
    exact apart_append h.1 _
  · simp only [mark, if_pos, String.append_assoc]
    exact apart_append h.2 _

theorem lacks_sheetClassLines (h : Lacks declaringWords body) :
    Lacks declaringWords (sheetClassLines settings sheet body) := by
  have hclosing : Apart declaringWords closing := apart_ofList (by decide)
  have hempty : Apart declaringWords "" := apart_ofList (by decide)
  rw [sheetClassLines_eq, lacks_cons, lacks_paragraph hempty, lacks_block hclosing]
  exact ⟨apart_ofList (by decide), apart_sheetHead _ _ (by decide), lacks_sheetMembers h⟩

/-- A line that does not begin with a closing brace closes nothing. -/
theorem not_closes_of_apart {d : Nat} {line : String} (h : Apart [['\x7d']] line) :
    ¬ Closes d line := fun hcloses => by
  refine h _ List.mem_cons_self ?_
  rw [hcloses.2]
  exact List.prefix_refl _

/-- The enumeration around the classes ends for the reader with the class of the stylesheet, which
holds no cases. -/
theorem casesAt_sheetClassLines (h : Lacks declaringWords body) (rest : List String) :
    casesAt 0 (sheetClassLines settings sheet body ++ rest) = [] := by
  have hcase : [caseWord] ⊆ declaringWords := by simp [declaringWords]
  have hinside : ∀ line ∈ "/// Entry point for the app stylesheet" ::
      opening (sheetHead settings sheet) :: indent (sheetMembers settings sheet body),
      ¬ Closes 0 line := by
    refine List.forall_mem_cons.2 ⟨?_, List.forall_mem_cons.2 ⟨?_, fun line hline => ?_⟩⟩
    · exact not_closes_of_apart (apart_ofList (by decide))
    · exact not_closes_of_apart (apart_sheetHead _ _ (by decide))
    · exact not_closes_of_isDeeper (isDeeper_of_mem_indent hline)
  have hlines : sheetClassLines settings sheet body ++ rest =
      ("/// Entry point for the app stylesheet" :: opening (sheetHead settings sheet) ::
        indent (sheetMembers settings sheet body)) ++ closing :: "" :: rest := by
    simp [sheetClassLines_eq, paragraph, block]
  have hlacks : Lacks [caseWord] ("/// Entry point for the app stylesheet" ::
      opening (sheetHead settings sheet) :: indent (sheetMembers settings sheet body)) := by
    rw [lacks_cons, lacks_cons, lacks_indent]
    exact ⟨apart_ofList (by decide), apart_sheetHead _ _ (by decide),
      (lacks_sheetMembers h).mono hcase⟩
  rw [hlines, casesAt_append hinside, filterMap_lacks hlacks, casesAt, if_pos (by decide)]
  rfl

/-- An enumeration that no line closes before other declarations begin. -/
theorem enumsIn_opened {w : List Char} (hw : w ∈ enumWords) (outer : String) {ending : String}
    (hends : EndsName ending) (members part : List String)
    (hmembers : ∀ line ∈ members, ¬ Closes 0 line) (hlacks : Lacks enumWords (members ++ part))
    (hpart : casesAt 0 part = []) :
    enumsIn ((String.ofList w ++ (outer ++ ending)) :: (members ++ part)) =
      [⟨leadingName outer, members.filterMap (caseAt? 0)⟩] := by
  have hrest := enumsIn_lacks hlacks []
  rw [List.append_nil] at hrest
  obtain ⟨hname, hdepth⟩ := enumName?_append hw (outer ++ ending)
  rw [enumsIn, hname, hdepth, leadingName_of_endsName hends, casesAt_append hmembers, hpart,
    List.append_nil, hrest]
  rfl

/-- Only the base opens the enumeration around its class, and it has no cases of its own. -/
theorem enumsIn_enclosingLines (isBase : Bool) (h : Lacks declaringWords body)
    {rest : List String} (hrest : Lacks enumWords rest) :
    enumsIn (enclosingLines settings isBase ++ (sheetClassLines settings sheet body ++ rest)) =
      if isBase then enclosingEnumeration settings else [] := by
  have hclass : Lacks enumWords (sheetClassLines settings sheet body ++ rest) :=
    lacks_append.2 ⟨(lacks_sheetClassLines h).mono (List.subset_cons_self _ _), hrest⟩
  have hnone := enumsIn_lacks hclass []
  rw [List.append_nil] at hnone
  have hcases : casesAt 0 (sheetClassLines settings sheet body ++ rest) = [] :=
    casesAt_sheetClassLines h rest
  have hempty : caseAt? 0 "" = none ∧ ¬ Closes 0 "" := by decide
  unfold enclosingLines enclosingEnumeration
  cases settings.enclosing with
  | none =>
    rw [List.nil_append, hnone]
    simp [enumsIn]
  | some outer =>
    cases isBase
    · have hextension : Lacks enumWords [opening ("extension " ++ outer), ""] :=
        lacks_cons.2 ⟨apart_opening_append (by decide) _, lacks_cons.2 ⟨apart_empty, lacks_nil⟩⟩
      exact (enumsIn_lacks hextension _).trans hnone
    · cases settings.objc
      · have hread := enumsIn_opened
          (show ['p', 'u', 'b', 'l', 'i', 'c', ' ', 'e', 'n', 'u', 'm', ' '] ∈ enumWords by decide)
          outer (show EndsName " \x7b" by simp [EndsName]) [""] _ (by simpa using hempty.2)
          (lacks_cons.2 ⟨apart_empty, hclass⟩) hcases
        rw [List.filterMap_cons_none hempty.1] at hread
        exact hread
      · have hcase := Value.caseAt?_tab (firstLower outer) "" (.inl rfl)
        rw [String.append_empty] at hcase
        have hread := enumsIn_opened
          (show ['@', 'o', 'b', 'j', 'c', ' ', 'p', 'u', 'b', 'l', 'i', 'c', ' ', 'e', 'n', 'u',
            'm', ' '] ∈ enumWords by decide)
          outer (show EndsName (": Int" ++ " \x7b") by simp [EndsName])
          ["\tcase " ++ firstLower outer, ""] (sheetClassLines settings sheet body ++ rest)
          (List.forall_mem_cons.2 ⟨not_closes_of_isDeeper (isDeeper_append rfl _),
            List.forall_mem_singleton.2 hempty.2⟩)
          (lacks_cons.2 ⟨apart_append (by decide) _, lacks_cons.2 ⟨apart_empty, hclass⟩⟩) hcases
        rw [List.filterMap_cons_some hcase, List.filterMap_cons_none hempty.1] at hread
        have hopening : opening ("@objc public enum " ++ outer ++ ": Int") =
            "@objc public enum " ++ (outer ++ (": Int" ++ " \x7b")) := by
          rw [opening, String.append_assoc, String.append_assoc]
        change enumsIn (opening ("@objc public enum " ++ outer ++ ": Int") ::
          (["\tcase " ++ firstLower outer, ""] ++
            (sheetClassLines settings sheet body ++ rest))) = _
        rw [hopening]
        exact hread

end Code

/-! ## Files -/

namespace Suite

/-- The enumerations that the files of a stylesheet declare. -/
def enumerationsOf (s : Suite) (settings : Settings) (base id : SheetId) : List Enumeration :=
  let sheet := s.sheet id
  if sheet.isBase then
    if settings.writesBase then
      (if settings.framework.isSome then []
        else
          textStyleEnumeration settings.typography ::
            if s.registered.any (·.animator.isSome) then
              animationEnumerations (sheet.animations.map fun a => firstLower a.name)
            else []) ++
        sheet.globals.filterMap Value.enumeration? ++ enclosingEnumeration settings
    else []
  else
    (if (s.themeIds base).head? = some id then [themeEnumeration (s.themes settings base)]
      else []) ++
      (sheet.newGlobals settings.objc (s.sheet base)).filterMap Value.enumeration?

variable {s l : Suite} {settings : Settings} {base id : SheetId}

theorem lacks_styleLines (s : Suite) (settings : Settings) (base id : SheetId)
    (styles : List Style) : Lacks declaringWords (s.styleLines settings base id styles) :=
  lacks_flatMap fun x _ => Style.lacks_proxyLines _ _ x

theorem lacks_styleFileLines (s : Suite) (settings : Settings) (base id : SheetId)
    (style : Style) : Lacks enumWords (s.styleFileLines settings base id style) := by
  simp only [styleFileLines, lacks_append, lacks_cons, lacks_block apart_closing]
  exact ⟨lacks_headerLines settings, apart_empty, apart_opening_append (by decide) _,
    (s.lacks_styleLines settings base id _).mono (List.subset_cons_self _ _)⟩

theorem lacks_enclosingEnd (settings : Settings) : Lacks enumWords (enclosingEnd settings) :=
  lacks_ite (lacks_cons.2 ⟨apart_empty, lacks_cons.2 ⟨apart_closing, lacks_nil⟩⟩) lacks_nil

/-- What all stylesheets share declares text styles and animations, unless a framework has them. -/
theorem reads_sharedLines (sheet : Stylesheet) :
    Reads (s.sharedLines settings base sheet)
      (if settings.framework.isSome then []
        else
          textStyleEnumeration settings.typography ::
            if s.registered.any (·.animator.isSome) then
              animationEnumerations (sheet.animations.map fun a => firstLower a.name)
            else []) := by
  have hempty : Lacks enumWords [""] := lacks_cons.2 ⟨apart_empty, lacks_nil⟩
  have hmanager := lacks_managerLines settings (s.baseType settings base)
  have hprotocol : Lacks enumWords (if settings.declaresProtocol then protocolLines else []) :=
    lacks_ite lacks_protocolLines lacks_nil
  have hfonts := reads_fontLines settings.typography sheet.hasSymbolFont settings.manager
  have hanimations : Reads (if s.registered.any (·.animator.isSome) then
        animationLines (sheet.animations.map fun a => firstLower a.name) else [])
      (if s.registered.any (·.animator.isSome) then
        animationEnumerations (sheet.animations.map fun a => firstLower a.name) else []) := by
    split
    · exact reads_animationLines _
    · exact reads_of_lacks lacks_nil
  unfold sharedLines
  dsimp only
  split
  · exact reads_of_lacks (lacks_append.2 ⟨hempty, hmanager⟩)
  · exact ((reads_append (hfonts.lacks_append hprotocol) hanimations).append_lacks
      hmanager).lacks_append hempty

/-- Reading the file of a stylesheet gives the enumerations that it declares. -/
theorem enumsIn_mainLines (hwrites : (s.sheet id).isBase = true → settings.writesBase = true)
    (hbase : (s.sheet base).IsLegible) (hid : (s.sheet id).IsLegible) (styles : List Style) :
    enumsIn (s.mainLines settings base id styles) = s.enumerationsOf settings base id := by
  have hclasses : enumsIn (enclosingLines settings (s.sheet id).isBase ++
      (sheetClassLines settings (s.sheet id) (s.styleLines settings base id styles) ++
        (enclosingEnd settings ++ viewExtensionLines ⟨s.baseType settings base,
          settings.manager ++ ".stylesheet(" ++ s.baseType settings base ++ ".shared())"⟩
            (s.sheet id)))) =
      if (s.sheet id).isBase then enclosingEnumeration settings else [] :=
    enumsIn_enclosingLines _ (s.lacks_styleLines settings base id styles)
      (lacks_append.2 ⟨lacks_enclosingEnd settings, lacks_viewExtensionLines _ _⟩)
  have hdeclarations : Reads (s.declarationLines settings base id)
      (if (s.sheet id).isBase then
        (if settings.framework.isSome then []
          else
            textStyleEnumeration settings.typography ::
              if s.registered.any (·.animator.isSome) then
                animationEnumerations ((s.sheet id).animations.map fun a => firstLower a.name)
              else []) ++ (s.sheet id).globals.filterMap Value.enumeration?
      else
        (if (s.themeIds base).head? = some id then
            [themeEnumeration (s.themes settings base)] else []) ++
          ((s.sheet id).newGlobals settings.objc (s.sheet base)).filterMap
            Value.enumeration?) := by
    unfold declarationLines
    dsimp only
    split
    · exact reads_append (reads_sharedLines _) (reads_baseGlobalLines _ _ hid)
    · refine reads_append ?_ (reads_themeGlobalLines _ hbase hid)
      split
      · exact reads_themeLines settings _ _
      · exact reads_of_lacks lacks_nil
  unfold mainLines enumerationsOf
  simp only [List.append_assoc]
  rw [enumsIn_lacks (lacks_headerLines settings), hdeclarations.enumsIn, hclasses]
  split
  · next h => simp [hwrites h]
  · simp

/-- Reading the files of a stylesheet gives the enumerations that they declare. -/
theorem flatMap_enumsIn_linesOf (hbase : (s.sheet base).IsLegible)
    (hid : (s.sheet id).IsLegible) :
    (s.linesOf settings base id).flatMap enumsIn = s.enumerationsOf settings base id := by
  have hstyles : ∀ styles : List Style,
      (styles.map (s.styleFileLines settings base id)).flatMap enumsIn = [] := by
    intro styles
    refine List.flatMap_eq_nil_iff.2 fun ls hls => ?_
    obtain ⟨style, -, rfl⟩ := List.mem_map.1 hls
    have hread := enumsIn_lacks (s.lacks_styleFileLines settings base id style) []
    rwa [List.append_nil] at hread
  unfold linesOf
  dsimp only
  split
  · next h =>
    simp only [Bool.and_eq_true, Bool.not_eq_true'] at h
    simp [enumerationsOf, h.1, h.2]
  · next h =>
    have hwrites : (s.sheet id).isBase = true → settings.writesBase = true := by
      simpa using h
    rw [List.flatMap_cons, enumsIn_mainLines hwrites hbase hid]
    split
    · rw [hstyles, List.append_nil]
    · exact List.append_nil _

/-! ## Distinct cases -/

/-- The definitions whose declarations stand in the files of a stylesheet. -/
def writtenGlobals (s : Suite) (settings : Settings) (base id : SheetId) : List Value :=
  if (s.sheet id).isBase then if settings.writesBase then (s.sheet id).globals else []
  else (s.sheet id).newGlobals settings.objc (s.sheet base)

/-- The names from which cases are made stay apart: those of the themes without the usual suffix
and with a small letter, those of text styles, those of the animations with a small letter, and the
identifiers for the cases of a definition. -/
structure CasesApart (s : Suite) (settings : Settings) (base : SheetId) : Prop where
  themes : ((s.themeIds base).map fun id => caseName (themeCase (s.sheet id).name)).Nodup
  textStyles : settings.writesBase = true → settings.framework = none →
    (settings.typography.map caseName).Nodup ∧
      ∀ name ∈ settings.typography, caseName name ∉ builtinTextStyles
  animations : settings.writesBase = true → settings.framework = none →
    ((s.sheet base).animations.map fun a => caseName (firstLower a.name)).Nodup
  definitions : ∀ id ∈ s.ids, ∀ type cases,
    Value.enumDef type cases ∈ s.writtenGlobals settings base id →
      ∀ c ∈ cases, ∀ c' ∈ cases, caseName (identifier c) = caseName (identifier c') → c = c'

/-- Text styles stay apart from each other and from those of the platform. -/
theorem nodup_textStyles (typography : List String) :
    (textStyleEnumeration typography).cases.Nodup ↔
      (typography.map caseName).Nodup ∧ ∀ name ∈ typography, caseName name ∉ builtinTextStyles := by
  have hbuiltin : builtinTextStyles.map caseName = builtinTextStyles := rfl
  have hcases : (textStyleEnumeration typography).cases =
      builtinTextStyles ++ typography.map caseName := by
    simp only [textStyleEnumeration, textStyles, List.map_append, List.map_map, Function.comp_def]
    rw [hbuiltin]
  have hnodup : builtinTextStyles.Nodup := by decide
  rw [hcases, List.nodup_append', and_iff_right hnodup]
  refine and_congr_right fun _ => ?_
  rw [List.disjoint_right, List.forall_mem_map]

/-- The cases of animations are distinct if and only if their names are. -/
theorem nodup_animations (animations : List String) :
    (∀ e ∈ animationEnumerations animations, e.cases.Nodup) ↔
      (animations.map caseName).Nodup := by
  have hfixed : ["infinite", "count"].Nodup ∧ ["native", "timingParameters"].Nodup ∧
      (Animatable.all.map Animatable.name).Nodup := by decide
  obtain ⟨hrepeat, hcurve, hprop⟩ := hfixed
  simp only [animationEnumerations, List.forall_mem_cons]
  exact ⟨fun h => h.2.2.1, fun h => ⟨hrepeat, hcurve, h, hprop, nofun⟩⟩

/-- The enclosing enumeration has no case to declare twice. -/
theorem nodup_enclosing (settings : Settings) :
    ∀ e ∈ enclosingEnumeration settings, e.cases.Nodup := by
  refine List.forall_mem_map.2 fun outer _ => ?_
  dsimp only
  split
  · exact List.nodup_singleton _
  · exact List.nodup_nil

/-- Each kind of enumeration in the files of a stylesheet. -/
theorem forall_mem_enumerationsOf {P : Enumeration → Prop} :
    (∀ e ∈ s.enumerationsOf settings base id, P e) ↔
      ((s.sheet id).isBase = true → settings.writesBase = true →
        (settings.framework = none → P (textStyleEnumeration settings.typography) ∧
          (s.registered.any (·.animator.isSome) = true →
            ∀ e ∈ animationEnumerations ((s.sheet id).animations.map fun a => firstLower a.name),
              P e)) ∧ ∀ e ∈ enclosingEnumeration settings, P e) ∧
      ((s.sheet id).isBase = false → (s.themeIds base).head? = some id →
        P (themeEnumeration (s.themes settings base))) ∧
      ∀ v ∈ s.writtenGlobals settings base id, ∀ e ∈ v.enumeration?, P e := by
  have hglobals : ∀ vs : List Value, (∀ e ∈ vs.filterMap Value.enumeration?, P e) ↔
      ∀ v ∈ vs, ∀ e ∈ v.enumeration?, P e := fun vs => by
    simp only [List.mem_filterMap, forall_exists_index, and_imp, Option.mem_def]
    exact ⟨fun h v hv e he => h e v hv he, fun h e v hv he => h v hv e he⟩
  unfold enumerationsOf writtenGlobals
  dsimp only
  cases (s.sheet id).isBase
  · simp only [Bool.false_eq_true, if_false, false_implies, true_and, true_implies,
      List.forall_mem_append, hglobals]
    refine and_congr_left fun _ => ?_
    split
    · next h => simp [h]
    · next h => simp [h]
  · cases settings.writesBase
    · simp
    · simp only [if_true, true_implies, Bool.true_eq_false, false_implies, true_and,
        List.forall_mem_append, hglobals]
      rw [and_right_comm]
      refine and_congr_left fun _ => and_congr_left fun _ => ?_
      cases settings.framework with
      | some f => simp
      | none =>
        simp only [Option.isSome_none, Bool.false_eq_true, if_false, List.forall_mem_cons,
          true_implies]
        refine and_congr_right fun _ => ?_
        split
        · next h => simp [h]
        · next h => simp [h]

theorem nodup_enumeration {type : String} {cases : List String} :
    (∀ e ∈ (Value.enumDef type cases).enumeration?, e.cases.Nodup) ↔
      ∀ c ∈ cases, ∀ c' ∈ cases, caseName (identifier c) = caseName (identifier c') → c = c' := by
  obtain ⟨hnodup, hmem⟩ := Value.nodup_declaredCases cases
  simp only [Value.enumeration?, Option.mem_def, Option.some.injEq, forall_eq',
    List.nodup_map_iff_inj_on hnodup, hmem]

theorem nodup_themes :
    (themeEnumeration (s.themes settings base)).cases.Nodup ↔
      ((s.themeIds base).map fun id => caseName (themeCase (s.sheet id).name)).Nodup := by
  simp only [themeEnumeration, themes, List.map_map, Function.comp_def]

/-- What holds of every enumeration in the files of a suite, kind by kind. -/
structure AllEnumerations (s : Suite) (settings : Settings) (base : SheetId)
    (P : Enumeration → Prop) : Prop where
  themes : s.themeIds base ≠ [] → P (themeEnumeration (s.themes settings base))
  textStyles : settings.writesBase = true → settings.framework = none →
    P (textStyleEnumeration settings.typography)
  animations : settings.writesBase = true → settings.framework = none →
    s.registered.any (·.animator.isSome) = true →
      ∀ e ∈ animationEnumerations ((s.sheet base).animations.map fun a => firstLower a.name), P e
  enclosing : settings.writesBase = true → ∀ e ∈ enclosingEnumeration settings, P e
  definitions : ∀ id ∈ s.ids, ∀ v ∈ s.writtenGlobals settings base id, ∀ e ∈ v.enumeration?, P e

/-- Reading all files gives the enumerations of every kind, and no others. -/
theorem forall_enumsIn_allLines {P : Enumeration → Prop} (hbase : base ∈ s.ids)
    (hisBase : ∀ id ∈ s.ids, (s.sheet id).isBase = true ↔ id = base)
    (hlegible : ∀ id ∈ s.ids, (s.sheet id).IsLegible) :
    (∀ ls ∈ s.allLines settings base, ∀ e ∈ enumsIn ls, P e) ↔
      s.AllEnumerations settings base P := by
  have horder : ∀ id, id ∈ base :: s.ids.filter (· != base) ↔ id ∈ s.ids := fun id => by
    by_cases h : id = base
    · simp [h, hbase]
    · simp [h]
  have hread : (∀ ls ∈ s.allLines settings base, ∀ e ∈ enumsIn ls, P e) ↔
      ∀ id ∈ s.ids, ∀ e ∈ s.enumerationsOf settings base id, P e := by
    simp only [allLines, List.mem_flatMap, horder]
    constructor
    · intro h id hid e he
      rw [← flatMap_enumsIn_linesOf (hlegible base hbase) (hlegible id hid)] at he
      obtain ⟨ls, hls, he⟩ := List.mem_flatMap.1 he
      exact h ls ⟨id, hid, hls⟩ e he
    · rintro h ls ⟨id, hid, hls⟩ e he
      refine h id hid e ?_
      rw [← flatMap_enumsIn_linesOf (hlegible base hbase) (hlegible id hid)]
      exact List.mem_flatMap.2 ⟨ls, hls, he⟩
  have hsheetBase := (hisBase base hbase).2 rfl
  rw [hread]
  constructor
  · intro h
    have hparts := fun id hid => forall_mem_enumerationsOf.1 (h id hid)
    refine ⟨fun hne => ?_,
      fun hwrites hframework => (((hparts base hbase).1 hsheetBase hwrites).1 hframework).1,
      fun hwrites hframework => (((hparts base hbase).1 hsheetBase hwrites).1 hframework).2,
      fun hwrites => ((hparts base hbase).1 hsheetBase hwrites).2,
      fun id hid => (hparts id hid).2.2⟩
    cases hhead : (s.themeIds base).head? with
    | none => exact absurd (List.head?_eq_none_iff.1 hhead) hne
    | some id =>
      obtain ⟨hid, htheme⟩ := List.mem_filter.1 (List.mem_of_mem_head? hhead)
      exact (hparts id ((horder id).1 hid)).2.1 (by simpa using htheme) hhead
  · intro h id hid
    refine forall_mem_enumerationsOf.2 ⟨fun hb hwrites => ⟨fun hframework => ⟨?_, fun hany => ?_⟩,
      h.enclosing hwrites⟩, fun _ hhead => h.themes fun hnil => ?_, h.definitions id hid⟩
    · exact h.textStyles hwrites hframework
    · rw [(hisBase id hid).1 hb]
      exact h.animations hwrites hframework hany
    · rw [hnil] at hhead
      cases hhead

/-- If no stylesheet has an animator, the base has no animations. -/
theorem animations_eq_nil (hbase : base ∈ s.ids)
    (h : ¬ s.registered.any (·.animator.isSome) = true) : (s.sheet base).animations = [] := by
  have hnone : (s.sheet base).animator = none := by
    simp only [List.any_eq_true, not_exists, not_and, Bool.not_eq_true,
      Option.isSome_eq_false_iff, Option.isNone_iff_eq_none] at h
    exact h _ (sheet_mem hbase)
  rw [Stylesheet.animations, hnone]

/-- The cases of all enumerations are distinct if and only if names stay apart. -/
theorem nodup_cases_iff (hbase : base ∈ s.ids)
    (hisBase : ∀ id ∈ s.ids, (s.sheet id).isBase = true ↔ id = base)
    (hlegible : ∀ id ∈ s.ids, (s.sheet id).IsLegible) :
    (∀ ls ∈ s.allLines settings base, ∀ e ∈ enumsIn ls, e.cases.Nodup) ↔
      s.CasesApart settings base := by
  rw [forall_enumsIn_allLines hbase hisBase hlegible]
  constructor
  · intro h
    refine ⟨?themes,
      fun hwrites hframework => (nodup_textStyles _).1 (h.textStyles hwrites hframework),
      fun hwrites hframework => ?animations,
      fun id hid type cases hv => nodup_enumeration.1 (h.definitions id hid _ hv)⟩
    case themes =>
      by_cases hnil : s.themeIds base = []
      · rw [hnil]
        exact List.nodup_nil
      · exact nodup_themes.1 (h.themes hnil)
    case animations =>
      by_cases hany : s.registered.any (·.animator.isSome) = true
      · have hnodup := h.animations hwrites hframework hany
        rw [nodup_animations, List.map_map] at hnodup
        exact hnodup
      · rw [animations_eq_nil hbase hany]
        exact List.nodup_nil
  · intro h
    refine ⟨fun _ => nodup_themes.2 h.themes,
      fun hwrites hframework => (nodup_textStyles _).2 (h.textStyles hwrites hframework),
      fun hwrites hframework _ => ?_, fun _ => nodup_enclosing settings, fun id hid v hv => ?_⟩
    · rw [nodup_animations, List.map_map]
      exact h.animations hwrites hframework
    · cases v
      case enumDef type cases => exact nodup_enumeration.2 (h.definitions id hid type cases hv)
      all_goals exact fun _ h => by cases h

end Suite

/-! ## Names of animations -/

theorem Style.GrowsBy.name_eq {p : Style → Prop} {x y : Style} (h : x.GrowsBy p y) :
    y.name = x.name := by
  obtain ⟨hx, ps⟩ := x
  obtain ⟨hy, qs⟩ := y
  have hname := congrArg StyleHead.name (Style.growsBy_mk.1 h).1
  exact hname

/-- A style that grows by nothing has nested styles of the same names. -/
theorem Style.GrowsBy.nestedNames_perm {x y : Style} (h : x.GrowsBy (fun _ => False) y) :
    (y.nestedStyles.map Style.name).Perm (x.nestedStyles.map Style.name) := by
  have hnames : ∀ z : Style, z.nestedStyles.map Style.name =
      z.properties.flatMap fun q => q.style?.toList.map Style.name := fun z => by
    rw [Style.nestedStyles, List.filterMap_eq_flatMap_toList, List.map_flatMap]
  obtain ⟨hx, ps⟩ := x
  obtain ⟨hy, qs⟩ := y
  rw [hnames, hnames]
  refine (Style.growsBy_mk.1 h).2.flatMap_perm (fun q _ q' hq => ?_) ?_
  · cases hq with
    | leaf => exact .refl _
    | nested _ hstyle =>
      rw [Property.style?, Property.style?, Option.toList_some, Option.toList_some,
        List.map_singleton, List.map_singleton, hstyle.name_eq]
  · rintro q ⟨x, -, hx⟩
    exact hx.elim

/-- A stylesheet that grows by nothing keeps the names of its animations. -/
theorem Stylesheet.GrowsBy.animationNames_perm {t u : Stylesheet}
    (h : t.GrowsBy (fun _ => False) u) :
    (u.animations.map Style.name).Perm (t.animations.map Style.name) := by
  have hnames : ∀ w : Stylesheet, w.animations.map Style.name =
      w.animator.toList.flatMap fun a => a.nestedStyles.map Style.name := fun w => by
    rw [Stylesheet.animations]
    cases w.animator <;> simp
  rw [hnames, hnames]
  exact h.animator.flatMap_perm (fun x _ y hxy => hxy.nestedNames_perm) fun _ hx => hx.elim

namespace Suite

variable {s l : Suite} {settings : Settings} {base id : SheetId}

/-! ## Names that stay apart -/

/-- Preparation leaves the names of themes as they are. -/
theorem Prepares.map_themeIds (h : Prepares settings s l)
    (hd : ∀ t ∈ s.registered, (t.styles.map Style.name).Nodup) (hbase : base ∈ l.ids)
    {α : Type} (f : String → α) :
    ((l.prepared settings).1.themeIds base).map
        (fun id => f ((l.prepared settings).1.sheet id).name) =
      (l.themeIds base).map fun id => f (l.sheet id).name := by
  have hthemeIds : (l.prepared settings).1.themeIds base = l.themeIds base := by
    rw [themeIds, themeIds, h.ids_eq]
    refine List.filter_congr fun id hid => ?_
    have hid' : id ∈ l.ids := by
      rcases List.mem_cons.1 hid with rfl | hid
      · exact hbase
      · exact (List.mem_filter.1 hid).1
    rw [h.isBase_eq hd hid']
  rw [hthemeIds]
  refine List.map_congr_left fun id hid => ?_
  rcases List.mem_cons.1 (List.mem_filter.1 hid).1 with rfl | hid
  · rw [h.name_eq hbase]
  · rw [h.name_eq (List.mem_filter.1 hid).1]

/-- Preparation at most reorders the animations of the base. -/
theorem Prepares.animationNames_perm (h : Prepares settings s l)
    (hd : ∀ t ∈ s.registered, (t.styles.map Style.name).Nodup) (hbase : base ∈ l.ids)
    (hsuper : l.superclass? base = none) :
    (((l.prepared settings).1.sheet base).animations.map Style.name).Perm
      ((l.sheet base).animations.map Style.name) := by
  have hgrown : (l.sheet base).GrowsBy (fun _ => False) ((l.prepared settings).1.sheet base) := by
    refine h.growsBy_of_shadowedIn hd hbase (fun _ _ hx _ => hx.elim) ?_
    rw [shadowedIn, hsuper]
    exact .refl _
  exact hgrown.animationNames_perm

/-- Preparation neither adds nor drops definitions that are written. -/
theorem Prepares.mem_writtenGlobals (h : Prepares settings s l)
    (hd : ∀ t ∈ s.registered, (t.styles.map Style.name).Nodup) (hbase : base ∈ l.ids)
    (hid : id ∈ l.ids) {v : Value} :
    v ∈ (l.prepared settings).1.writtenGlobals settings base id ↔
      v ∈ l.writtenGlobals settings base id := by
  obtain ⟨hisBase, hperm⟩ := h.sheet_globals_perm hd hid
  have hnew := Stylesheet.newGlobals_perm settings.objc (h.sheet_globals_perm hd hbase).2 hperm
  unfold writtenGlobals
  rw [hisBase]
  split
  · split
    · exact hperm.mem_iff
    · exact .rfl
  · exact hnew.mem_iff

/-- Preparation brings no names of cases together and moves none apart. -/
theorem Prepares.casesApart_iff (h : Prepares settings s l)
    (hd : ∀ t ∈ s.registered, (t.styles.map Style.name).Nodup) (hbase : base ∈ l.ids)
    (hsuper : l.superclass? base = none) :
    (l.prepared settings).1.CasesApart settings base ↔ l.CasesApart settings base := by
  have hthemes := h.map_themeIds hd hbase fun name => caseName (themeCase name)
  have hanimations := (h.animationNames_perm hd hbase hsuper).map fun name =>
    caseName (firstLower name)
  rw [List.map_map, List.map_map] at hanimations
  constructor
  · intro hapart
    refine ⟨by rw [← hthemes]; exact hapart.themes, hapart.textStyles, fun hw hf =>
      hanimations.nodup_iff.1 (hapart.animations hw hf), fun id hid type cases hv => ?_⟩
    exact hapart.definitions id (h.ids_eq ▸ hid) type cases
      ((h.mem_writtenGlobals hd hbase hid).2 hv)
  · intro hapart
    refine ⟨by rw [hthemes]; exact hapart.themes, hapart.textStyles, fun hw hf =>
      hanimations.nodup_iff.2 (hapart.animations hw hf), fun id hid type cases hv => ?_⟩
    rw [h.ids_eq] at hid
    exact hapart.definitions id hid type cases ((h.mem_writtenGlobals hd hbase hid).1 hv)

end Suite

/-! ## Plain names -/

namespace Code

/-- The name can stand as a case as it is. -/
def IsCase (name : String) : Prop := ∀ c ∈ name.toList, c ≠ ' ' ∧ c ≠ '(' ∧ c ≠ '\x60'

instance (name : String) : Decidable (IsCase name) :=
  inferInstanceAs (Decidable (∀ c ∈ name.toList, c ≠ ' ' ∧ c ≠ '(' ∧ c ≠ '\x60'))

/-- The name begins with one of the capital letters from A to Z. -/
def IsCapitalized (name : String) : Prop := name.toList.head?.any Char.isUpper = true

instance (name : String) : Decidable (IsCapitalized name) :=
  inferInstanceAs (Decidable (name.toList.head?.any Char.isUpper = true))

/-- A capital letter can be told from its small letter, which ends no case. -/
theorem toLower_of_isUpper {c : Char} (h : c.isUpper = true) :
    c.toNat < 128 ∧ c.toLower.toUpper = c ∧
      c.toLower ≠ ' ' ∧ c.toLower ≠ '(' ∧ c.toLower ≠ '\x60' := by
  have hlow : ∀ n < 128, (Char.ofNat n).isUpper = true →
      (Char.ofNat n).toLower.toUpper = Char.ofNat n ∧ (Char.ofNat n).toLower ≠ ' ' ∧
        (Char.ofNat n).toLower ≠ '(' ∧ (Char.ofNat n).toLower ≠ '\x60' := by
    decide +kernel
  have hlt : c.toNat < 128 := lt_of_le_of_lt (isUpper_iff.1 h).2 (by decide)
  have hc := hlow c.toNat hlt
  rw [Char.ofNat_toNat] at hc
  exact ⟨hlt, hc h⟩

theorem caseName_of_forall {name : String} (h : ∀ c ∈ name.toList, c ≠ ' ' ∧ c ≠ '(') :
    caseName name = name := by
  have hall : name.toList.takeWhile (fun c => c != ' ' && c != '(') = name.toList := by
    rw [List.takeWhile_eq_self_iff]
    exact fun c hc => by simpa using h c hc
  rw [caseName, hall, String.ofList_toList]

/-- A name that has no blank or parenthesis is read as a whole, also as an identifier. -/
theorem caseName_identifier {name : String} (h : IsCase name) :
    caseName (identifier name) = identifier name := by
  refine caseName_of_forall fun c hc => ?_
  have hname : ∀ c ∈ name.toList, c ≠ ' ' ∧ c ≠ '(' := fun c hc => ⟨(h c hc).1, (h c hc).2.1⟩
  rw [identifier] at hc
  split at hc
  · simp only [String.toList_append, List.mem_append] at hc
    rcases hc with (hc | hc) | hc
    · simp at hc
      simp [hc]
    · exact hname c hc
    · simp at hc
      simp [hc]
  · exact hname c hc

/-- Names without backquotes are not mistaken for identifiers of others. -/
theorem identifier_injOn {a b : String} (ha : IsCase a) (hb : IsCase b)
    (h : identifier a = identifier b) : a = b := by
  have hquoted : ∀ {c d : String}, IsCase d → ¬ "`" ++ c ++ "`" = d := fun hd heq => by
    refine (hd '\x60' ?_).2.2 rfl
    rw [← heq, String.append_assoc, String.toList_append]
    exact List.mem_append_left _ (by simp)
  unfold identifier at h
  split at h <;> split at h
  · simpa using h
  · exact absurd h (hquoted hb)
  · exact absurd h.symm (hquoted ha)
  · exact h

/-- The first letter of a capitalized name becomes small and nothing else changes. -/
theorem firstLower_of_isCapitalized {name : String} (h : IsCapitalized name) :
    ∃ c cs, name.toList = c :: cs ∧ c.isUpper = true ∧
      firstLower name = String.ofList (c.toLower :: cs) := by
  unfold IsCapitalized at h
  cases hname : name.toList with
  | nil => simp [hname] at h
  | cons c cs =>
    have hc : c.isUpper = true := by simpa [hname] using h
    refine ⟨c, cs, rfl, hc, ?_⟩
    rw [firstLower, hname]
    simp only [lowerChars, if_pos (toLower_of_isUpper hc).1, List.singleton_append]

/-- Capitalized names stay apart with a small letter. -/
theorem firstLower_injOn {a b : String} (ha : IsCapitalized a) (hb : IsCapitalized b)
    (h : firstLower a = firstLower b) : a = b := by
  obtain ⟨c, cs, hac, hc, hal⟩ := firstLower_of_isCapitalized ha
  obtain ⟨d, ds, hbd, hd, hbl⟩ := firstLower_of_isCapitalized hb
  rw [hal, hbl, String.ofList_inj, List.cons.injEq] at h
  have hcd : c = d := by
    rw [← (toLower_of_isUpper hc).2.1, h.1, (toLower_of_isUpper hd).2.1]
  rw [← String.toList_inj, hac, hbd, hcd, h.2]

/-- The case of a capitalized name is the name with a small first letter. -/
theorem caseName_firstLower {name : String} (hcase : IsCase name) (h : IsCapitalized name) :
    caseName (firstLower name) = firstLower name := by
  obtain ⟨c, cs, hname, hc, hlower⟩ := firstLower_of_isCapitalized h
  rw [hlower]
  refine caseName_of_forall fun d hd => ?_
  rw [String.toList_ofList] at hd
  rcases List.mem_cons.1 hd with rfl | hd
  · exact ⟨(toLower_of_isUpper hc).2.2.1, (toLower_of_isUpper hc).2.2.2.1⟩
  · have hd' := hcase d (by rw [hname]; exact List.mem_cons_of_mem _ hd)
    exact ⟨hd'.1, hd'.2.1⟩

theorem themeCase_of_stripSuffix? {name : String} (h : stripSuffix? sheetSuffix name = none) :
    themeCase name = firstLower name := by
  simp [themeCase, h]

end Code

namespace Suite

variable {s l : Suite} {settings : Settings} {base id : SheetId}

/-- Names as they are usually chosen: those of themes and animations are capitalized, and that of no
theme has the usual suffix; text styles are listed once and are not those of the platform; and cases
have no blanks, parentheses or backquotes. -/
structure NamesPlain (s : Suite) (settings : Settings) (base : SheetId) : Prop where
  themes : ∀ id ∈ s.themeIds base, IsCase (s.sheet id).name ∧ IsCapitalized (s.sheet id).name ∧
    stripSuffix? sheetSuffix (s.sheet id).name = none
  textStyles : settings.typography.Nodup ∧
    ∀ name ∈ settings.typography, IsCase name ∧ name ∉ builtinTextStyles
  animations : ((s.sheet base).animations.map Style.name).Nodup ∧
    ∀ a ∈ (s.sheet base).animations, IsCase a.name ∧ IsCapitalized a.name
  definitions : ∀ id ∈ s.ids, ∀ v ∈ (s.sheet id).globals, ∀ name ∈ v.memberNames, IsCase name

/-- Plain names stay apart. -/
theorem NamesPlain.casesApart (h : s.NamesPlain settings base) (hbase : base ∈ s.ids)
    (hnames : (s.registered.map Stylesheet.name).Nodup) : s.CasesApart settings base := by
  have hname : ∀ name, IsCase name → caseName name = name := fun name hname =>
    caseName_of_forall fun c hc => ⟨(hname c hc).1, (hname c hc).2.1⟩
  have hids : ∀ id ∈ s.themeIds base, id ∈ s.ids := fun id hid => by
    rcases List.mem_cons.1 (List.mem_filter.1 hid).1 with rfl | hid
    · exact hbase
    · exact (List.mem_filter.1 hid).1
  have hnodup : (s.themeIds base).Nodup := by
    refine List.Nodup.filter _ (List.nodup_cons.2 ⟨by simp, List.Nodup.filter _ ?_⟩)
    exact List.nodup_range.map fun i j hij => SheetId.registered.inj hij
  refine ⟨?themes, fun _ _ => ?textStyles, fun _ _ => ?animations,
    fun id hid type cases hv c hc c' hc' heq => ?definitions⟩
  case themes =>
    refine (List.nodup_map_iff_inj_on hnodup).2 fun id hid id' hid' heq => ?_
    obtain ⟨hcase, hcapital, hsuffix⟩ := h.themes id hid
    obtain ⟨hcase', hcapital', hsuffix'⟩ := h.themes id' hid'
    rw [themeCase_of_stripSuffix? hsuffix, themeCase_of_stripSuffix? hsuffix',
      caseName_firstLower hcase hcapital, caseName_firstLower hcase' hcapital'] at heq
    exact id_eq_of_name_eq hnames (hids id hid) (hids id' hid')
      (firstLower_injOn hcapital hcapital' heq)
  case textStyles =>
    have hmap : settings.typography.map caseName = settings.typography :=
      (List.map_congr_left fun name hmem => hname name (h.textStyles.2 name hmem).1).trans
        (List.map_id _)
    rw [hmap]
    refine ⟨h.textStyles.1, fun name hmem => ?_⟩
    rw [hname name (h.textStyles.2 name hmem).1]
    exact (h.textStyles.2 name hmem).2
  case animations =>
    rw [← Function.comp_def (fun name => caseName (firstLower name)) Style.name, ← List.map_map]
    refine (List.nodup_map_iff_inj_on h.animations.1).2 fun a ha b hb heq => ?_
    obtain ⟨x, hx, rfl⟩ := List.mem_map.1 ha
    obtain ⟨y, hy, rfl⟩ := List.mem_map.1 hb
    obtain ⟨hcase, hcapital⟩ := h.animations.2 x hx
    obtain ⟨hcase', hcapital'⟩ := h.animations.2 y hy
    rw [caseName_firstLower hcase hcapital, caseName_firstLower hcase' hcapital'] at heq
    exact firstLower_injOn hcapital hcapital' heq
  case definitions =>
    have hglobal : Value.enumDef type cases ∈ (s.sheet id).globals := by
      unfold writtenGlobals at hv
      split at hv
      · split at hv
        · exact hv
        · cases hv
      · exact (List.mem_filter.1 hv).1
    have hcase := h.definitions id hid _ hglobal
    rw [caseName_identifier (hcase c hc), caseName_identifier (hcase c' hc')] at heq
    exact identifier_injOn (hcase c hc) (hcase c' hc') heq

/-- The files of a prepared suite can be read: one stylesheet is the base, and all definitions are
legible. -/
theorem Prepares.legible (h : Prepares settings s l)
    (hd : ∀ t ∈ s.registered, (t.styles.map Style.name).Nodup)
    (hlegible : ∀ t ∈ s.registered, t.IsLegible) (hb : l.baseId = .ok base) :
    base ∈ (l.prepared settings).1.ids ∧
      (∀ id ∈ (l.prepared settings).1.ids,
        ((l.prepared settings).1.sheet id).isBase = true ↔ id = base) ∧
      ∀ id ∈ (l.prepared settings).1.ids, ((l.prepared settings).1.sheet id).IsLegible := by
  obtain ⟨hbased, hbase⟩ := basedOn_baseId h.linked hb
  refine ⟨h.ids_eq ▸ hbase, fun id hid => ?_, fun id hid => ?_⟩
  · rw [h.ids_eq] at hid
    rw [h.isBase_eq hd hid]
    exact hbased.isBase_iff id hid
  · rw [h.ids_eq] at hid
    exact (hlegible _ (linked_registered h.linked ▸ sheet_mem hid)).of_perm
      (h.sheet_globals_perm hd hid).2

theorem Prepares.superclass?_baseId (h : Prepares settings s l) (hb : l.baseId = .ok base) :
    base ∈ l.ids ∧ l.superclass? base = none := by
  obtain ⟨hbased, hbase⟩ := basedOn_baseId h.linked hb
  exact ⟨hbase, by rw [hbased.superclass? base hbase, if_pos rfl]⟩

/-- No enumeration of the prepared stylesheets has a case twice if and only if the names stay
apart. -/
theorem Prepares.nodup_cases_iff (h : Prepares settings s l)
    (hd : ∀ t ∈ s.registered, (t.styles.map Style.name).Nodup)
    (hlegible : ∀ t ∈ s.registered, t.IsLegible) (hb : l.baseId = .ok base) :
    (∀ ls ∈ (l.prepared settings).1.allLines settings base, ∀ e ∈ enumsIn ls, e.cases.Nodup) ↔
      l.CasesApart settings base := by
  obtain ⟨hbase, hsuper⟩ := h.superclass?_baseId hb
  obtain ⟨hmem, hisBase, hread⟩ := h.legible hd hlegible hb
  rw [← h.casesApart_iff hd hbase hsuper]
  exact Suite.nodup_cases_iff hmem hisBase hread

/-- In the files of a prepared suite no enumeration declares a case twice, if and only if the names
from which the cases are made stay apart, in the stylesheets as they were declared and in the
settings. Different names may be too close for that; plain ones stay apart. -/
theorem Prepares.declares_cases (h : Prepares settings s l)
    (hnames : (s.registered.map Stylesheet.name).Nodup)
    (hd : ∀ t ∈ s.registered, (t.styles.map Style.name).Nodup)
    (hlegible : ∀ t ∈ s.registered, t.IsLegible) :
    ∃ base files, l.baseId = .ok base ∧
      (l.prepared settings).1.generateAll settings = .ok files ∧
      files.map GeneratedFile.content =
        ((l.prepared settings).1.allLines settings base).map unlines ∧
      ((∀ ls ∈ (l.prepared settings).1.allLines settings base, ∀ e ∈ enumsIn ls, e.cases.Nodup) ↔
        l.CasesApart settings base) ∧
      (l.NamesPlain settings base →
        ∀ ls ∈ (l.prepared settings).1.allLines settings base, ∀ e ∈ enumsIn ls,
          e.cases.Nodup) := by
  obtain ⟨base, files, hb, hfiles, hcontent⟩ := h.exists_generated
  have hiff := h.nodup_cases_iff hd hlegible hb
  refine ⟨base, files, hb, hfiles, hcontent, hiff, fun hplain => hiff.2 ?_⟩
  exact hplain.casesApart (basedOn_baseId h.linked hb).2 (linked_registered h.linked ▸ hnames)

/-- Settings with a text style beside those of the platform. -/
def heroSettings : Settings := { Settings.standard with typography := ["hero"] }

/-- All names in this suite are plain. -/
theorem namesPlain_modesAndLayouts :
    { modesAndLayouts with base? := some 0 }.NamesPlain heroSettings (.registered 0) := by
  obtain ⟨hbase, htheme⟩ := globals_modesAndLayouts
  have hids : ∀ id ∈ ({ modesAndLayouts with base? := some 0 } : Suite).ids,
      id = .registered 0 ∨ id = .registered 1 := by decide
  refine ⟨by decide, by decide, by decide, fun id hid => ?_⟩
  have hsheet : ({ modesAndLayouts with base? := some 0 } : Suite).sheet id =
      modesAndLayouts.sheet id := rfl
  rw [hsheet]
  rcases hids id hid with rfl | rfl
  · rw [hbase]
    decide
  · rw [htheme]
    decide

/-- The enumerations of a suite with two definitions and a theme have distinct cases. -/
theorem declares_cases_modesAndLayouts :
    (modesAndLayouts.registered.map Stylesheet.name).Nodup ∧
      (∀ t ∈ modesAndLayouts.registered, (t.styles.map Style.name).Nodup) ∧
      (∀ t ∈ modesAndLayouts.registered, t.IsLegible) ∧
      ∃ base files, ({ modesAndLayouts with base? := some 0 } : Suite).baseId = .ok base ∧
        ({ modesAndLayouts with base? := some 0 }.prepared heroSettings).1.generateAll
          heroSettings = .ok files ∧
        ∀ ls ∈ ({ modesAndLayouts with base? := some 0 }.prepared heroSettings).1.allLines
          heroSettings base, ∀ e ∈ enumsIn ls, e.cases.Nodup := by
  have hprepares : Prepares heroSettings modesAndLayouts { modesAndLayouts with base? := some 0 } :=
    ⟨rfl, by cbv⟩
  have hnames : (modesAndLayouts.registered.map Stylesheet.name).Nodup := by decide
  have hd : ∀ t ∈ modesAndLayouts.registered, (t.styles.map Style.name).Nodup := by decide
  have hlegible := legible_modesAndLayouts
  obtain ⟨base, files, hbase, hfiles, -, -, hplain⟩ :=
    Prepares.declares_cases hprepares hnames hd hlegible
  cases hbase
  exact ⟨hnames, hd, hlegible, _, files, rfl, hfiles, hplain namesPlain_modesAndLayouts⟩

/-- Settings that list a text style of the platform once more. -/
def bodySettings : Settings := { Settings.standard with typography := ["body"] }

/-- A base with one style. -/
def oneStyle : Suite :=
  ⟨[⟨"Base", [.named "A" [.leaf ⟨"x", false, false⟩ (.int 1)]], none, none, false, []⟩], none, none⟩

/-- The file of the base declares a text style twice. -/
theorem body_declaredTwice :
    Prepares bodySettings oneStyle { oneStyle with base? := some 0 } ∧
      (oneStyle.registered.map Stylesheet.name).Nodup ∧
      ∃ files, ({ oneStyle with base? := some 0 }.prepared bodySettings).1.generateAll
          bodySettings = .ok files ∧
        files.map GeneratedFile.content =
          (({ oneStyle with base? := some 0 }.prepared bodySettings).1.allLines bodySettings
            (.registered 0)).map unlines ∧
        ∃ ls ∈ ({ oneStyle with base? := some 0 }.prepared bodySettings).1.allLines bodySettings
            (.registered 0),
          ∃ e ∈ enumsIn ls, e.name = "FontTextStyle" ∧ e.cases.count "body" = 2 := by
  have hprepares : Prepares bodySettings oneStyle { oneStyle with base? := some 0 } :=
    ⟨rfl, by cbv⟩
  obtain ⟨base, files, hbase, hfiles, hcontent⟩ := hprepares.exists_generated
  cases hbase
  have hsingle : ∀ t ∈ oneStyle.registered, (t.styles.map Style.name).Nodup ∧ t.globals = [] := by
    intro t ht
    rw [List.mem_singleton.1 ht]
    exact ⟨by decide, by cbv⟩
  have hid : SheetId.registered 0 ∈ ({ oneStyle with base? := some 0 } : Suite).ids := by decide
  obtain ⟨hisBase, hglobals⟩ :=
    hprepares.sheet_globals_perm (fun t ht => (hsingle t ht).1) hid
  have hlegible : (({ oneStyle with base? := some 0 }.prepared bodySettings).1.sheet
      (.registered 0)).IsLegible := by
    refine Stylesheet.IsLegible.of_perm (fun v hv => ?_) hglobals
    have hnone := (hsingle _ List.mem_cons_self).2
    rw [show ({ oneStyle with base? := some 0 } : Suite).sheet (.registered 0) =
      oneStyle.registered[0] from rfl] at hv
    exact absurd (hnone ▸ hv) List.not_mem_nil
  have hmem : textStyleEnumeration ["body"] ∈
      ({ oneStyle with base? := some 0 }.prepared bodySettings).1.enumerationsOf bodySettings
        (.registered 0) (.registered 0) :=
    (((forall_mem_enumerationsOf.1 fun _ he => he).1 hisBase rfl).1 rfl).1
  rw [← flatMap_enumsIn_linesOf hlegible hlegible] at hmem
  obtain ⟨ls, hls, he⟩ := List.mem_flatMap.1 hmem
  refine ⟨hprepares, by decide, files, hfiles, hcontent, ls, ?_, _, he, rfl, by decide⟩
  exact List.mem_flatMap.2 ⟨_, List.mem_cons_self, hls⟩

end Suite

end Appearance
