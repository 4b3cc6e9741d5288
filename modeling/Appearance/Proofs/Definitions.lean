import Appearance.Proofs.Namespace

/-!
# Declarations of definitions

The declaration of an enumeration or an option set is read as the type that it defines. The names in
a definition are those that a source gives, so this asks that they can be told from the text around
them: `Value.IsLegible`.

A name with a space, a colon or a line end would be read as something else than it is.
`Value.IsLegible` excludes these and nothing else; a definition whose names are reserved words or
stand twice is legible.

Reading a declaration back from lines is the inverse of printing it, and it looks at heads of
blocks at depth one only. So lines that are indented deeper, such as cases and options, need no
analysis beyond their depth (`isDeeper_of_mem_caseLines`). Duplicates are dropped and names sorted
before cases are printed, which adds no name, so legibility of the source is enough.
-/

namespace Appearance

open Appearance.Text

/-- The names in an entry of an option set. -/
def OptionEntry.names : OptionEntry → List String
  | flag name => [name]
  | composite name members => name :: members

namespace Value

open Code

/-- The type that a definition declares. -/
def definedType? : Value → Option String
  | enumDef type _ => some type
  | optionDef type _ => some type
  | _ => none

/-- The names in a definition beside that of the type. -/
def memberNames : Value → List String
  | enumDef _ cases => cases
  | optionDef _ entries => entries.flatMap OptionEntry.names
  | _ => []

/-- The names of a definition have no ends of lines, and that of the type has neither spaces nor
colons. -/
structure IsLegible (v : Value) : Prop where
  type : ∀ name ∈ v.definedType?, IsName name ∧ OneLine name
  members : ∀ name ∈ v.memberNames, OneLine name

instance (v : Value) : Decidable v.IsLegible :=
  decidable_of_iff ((∀ name ∈ v.definedType?, IsName name ∧ OneLine name) ∧
      ∀ name ∈ v.memberNames, OneLine name)
    ⟨fun h => ⟨h.1, h.2⟩, fun h => ⟨h.type, h.members⟩⟩

variable {v : Value} {style : DeclarationStyle}

theorem declarationLines?_eq_none : v.declarationLines? style = none ↔ v.definedType? = none := by
  cases v <;> simp [declarationLines?, definedType?]

/-- The case of no value stands one tab deeper. -/
theorem isDeeper_of_mem_noneCaseLines {objc : Bool} {names : List String} {line : String}
    (h : line ∈ noneCaseLines objc names) : IsDeeper line := by
  rw [noneCaseLines] at h
  split at h
  · rw [List.mem_singleton.1 h, String.append_assoc]
    exact isDeeper_append rfl _
  · cases h

theorem isDeeper_of_mem_caseLines {objc : Bool} {names : List String} {line : String}
    (h : line ∈ caseLines objc names) : IsDeeper line := by
  cases names with
  | nil => cases h
  | cons name names =>
    rcases List.mem_cons.1 h with rfl | h
    · rw [String.append_assoc]
      exact isDeeper_append rfl _
    · obtain ⟨n, -, rfl⟩ := List.mem_map.1 h
      exact isDeeper_append rfl _

/-- An enumeration declares its type. -/
theorem declares_enumLines (s : DeclarationStyle) {type : String} (h : IsName type)
    (cases : List String) : Declares (enumLines s type cases) type := by
  have hends : EndsName ((if s.objc then ": Int" else "") ++ " \x7b") := by
    cases s.objc <;> simp [EndsName]
  refine ⟨_, noneCaseLines s.objc (sortedOnce cases) ++
    caseLines s.objc ((sortedOnce cases).filter (· != noneCase)), rfl, ?_, ?_⟩
  · have hfirst := typeOf?_enum s.objc s.isPublic h hends
    simpa only [modifiers, DeclarationStyle.visibility, String.append_assoc] using hfirst
  · exact List.forall_mem_append.2
      ⟨fun _ => isDeeper_of_mem_noneCaseLines, fun _ => isDeeper_of_mem_caseLines⟩

/-- Options stand one tab deeper. -/
theorem isDeeper_of_mem_optionLines {visibility type : String} {entries : List OptionEntry}
    {bit : Nat} {line : String} (h : line ∈ optionLines visibility type bit entries) :
    IsDeeper line := by
  induction entries generalizing bit with
  | nil => cases h
  | cons entry entries ih =>
    cases entry with
    | flag name =>
      rcases List.mem_cons.1 h with rfl | h
      · simp only [String.append_assoc]
        exact isDeeper_append rfl _
      · exact ih h
    | composite name members =>
      rcases List.mem_cons.1 h with rfl | h
      · simp only [String.append_assoc]
        exact isDeeper_append rfl _
      · exact ih h

/-- An option set declares its type. -/
theorem declares_optionSetLines (s : DeclarationStyle) {type : String} (h : IsName type)
    (entries : List OptionEntry) : Declares (optionSetLines s type entries) type := by
  have hends : EndsName ": OptionSet, Hashable \x7b" := by simp [EndsName]
  refine ⟨_, _ ++ optionLines s.visibility type 0 entries, rfl, ?_, ?_⟩
  · have hfirst := typeOf?_struct false s.isPublic h hends
    simpa [modifiers, DeclarationStyle.visibility, String.append_assoc] using hfirst
  · refine List.forall_mem_append.2 ⟨?_, fun _ => isDeeper_of_mem_optionLines⟩
    simp only [List.forall_mem_cons, String.append_assoc]
    exact ⟨isDeeper_append rfl _, isDeeper_append rfl _, by simp [IsDeeper], by simp⟩

/-! ### Ends of lines -/

/-- Dropping duplicates adds no name and loses none. -/
theorem mem_distinct {name : String} {names : List String} :
    name ∈ distinct names ↔ name ∈ names := by
  induction names with
  | nil => exact Iff.rfl
  | cons first names ih =>
    rw [distinct, List.mem_cons, List.mem_filter, ih, List.mem_cons]
    by_cases heq : name = first <;> simp [heq]

/-- Neither does sorting. -/
theorem mem_sortedOnce {name : String} {names : List String} :
    name ∈ sortedOnce names ↔ name ∈ names :=
  mem_distinct.trans List.mem_mergeSort

theorem oneLine_identifier {name : String} (h : OneLine name) : OneLine (identifier name) := by
  rw [identifier]
  split
  · rw [oneLine_append, oneLine_append]
    exact ⟨⟨by decide, h⟩, by decide⟩
  · exact h

/-- An enumeration is written in lines if its names have no line ends. -/
theorem oneLine_enumLines (s : DeclarationStyle) {type : String} (htype : OneLine type)
    {cases : List String} (hcases : ∀ name ∈ cases, OneLine name) :
    ∀ line ∈ enumLines s type cases, OneLine line := by
  have hmark : ∀ {applies : Bool} {text : String}, OneLine text →
      OneLine (if applies then text else "") := by
    intro applies text h
    split
    · exact h
    · decide
  have hnone : ∀ names, ∀ line ∈ noneCaseLines s.objc names, OneLine line := by
    intro names line h
    rw [noneCaseLines] at h
    split at h
    · rw [List.mem_singleton.1 h, oneLine_append]
      exact ⟨by decide, hmark (by decide)⟩
    · cases h
  have hcaseLines : ∀ names, (∀ name ∈ names, OneLine name) →
      ∀ line ∈ caseLines s.objc names, OneLine line := by
    intro names hnames line h
    have hidentifier : ∀ name ∈ names, OneLine ("\tcase " ++ identifier name) := fun name hname =>
      oneLine_append.2 ⟨by decide, oneLine_identifier (hnames name hname)⟩
    match names with
    | [] => cases h
    | name :: names =>
      rcases List.mem_cons.1 h with rfl | h
      · exact oneLine_append.2 ⟨hidentifier name List.mem_cons_self, hmark (by decide)⟩
      · obtain ⟨n, hn, rfl⟩ := List.mem_map.1 h
        exact hidentifier n (List.mem_cons_of_mem _ hn)
  simp only [enumLines, List.forall_mem_append, List.forall_mem_singleton, oneLine_append]
  refine ⟨⟨⟨?_, hnone _⟩, hcaseLines _ fun name h => ?_⟩, by decide⟩
  · exact ⟨⟨⟨⟨⟨hmark (by decide), hmark (by decide)⟩, by decide⟩, htype⟩, hmark (by decide)⟩,
      by decide⟩
  · exact hcases name (mem_sortedOnce.1 (List.mem_filter.1 h).1)

theorem oneLine_natText (n : Nat) : OneLine (natText n) := fun c hc => by
  rw [natText, String.toList_ofList] at hc
  have := Nat.isDigit_of_mem_toDigits (by decide) (by decide) hc
  constructor <;> rintro rfl <;> exact absurd this (by decide)

/-- Options are written in lines if no name in them has a line end. -/
theorem oneLine_optionLines {visibility type : String} (hvisibility : OneLine visibility)
    (htype : OneLine type) {entries : List OptionEntry}
    (h : ∀ name ∈ entries.flatMap OptionEntry.names, OneLine name) (bit : Nat) :
    ∀ line ∈ optionLines visibility type bit entries, OneLine line := by
  induction entries generalizing bit with
  | nil => nofun
  | cons entry entries ih =>
    rw [List.flatMap_cons, List.forall_mem_append] at h
    obtain ⟨hentry, hentries⟩ := h
    cases entry with
    | flag name =>
      have hname : OneLine name := hentry name (by simp [OptionEntry.names])
      simp only [optionLines, List.forall_mem_cons, oneLine_append]
      exact ⟨⟨⟨⟨⟨⟨⟨⟨⟨by decide, hvisibility⟩, by decide⟩, hname⟩, by decide⟩, htype⟩, by decide⟩,
        oneLine_natText bit⟩, by decide⟩, ih hentries _⟩
    | composite name members =>
      obtain ⟨hname, hmembers⟩ := List.forall_mem_cons.1 hentry
      have hlist : OneLine (", ".intercalate (members.map ("." ++ ·))) := by
        rw [OneLine, String.toList_intercalate, List.map_map]
        refine forall_mem_intercalate (by decide) fun part hpart => ?_
        obtain ⟨member, hmember, rfl⟩ := List.mem_map.1 hpart
        exact oneLine_append.2 ⟨by decide, hmembers member hmember⟩
      simp only [optionLines, List.forall_mem_cons, oneLine_append]
      exact ⟨⟨⟨⟨⟨⟨⟨⟨⟨by decide, hvisibility⟩, by decide⟩, hname⟩, by decide⟩, htype⟩, by decide⟩,
        hlist⟩, by decide⟩, ih hentries _⟩

theorem oneLine_optionSetLines (s : DeclarationStyle) {type : String} (htype : OneLine type)
    {entries : List OptionEntry} (h : ∀ name ∈ entries.flatMap OptionEntry.names, OneLine name) :
    ∀ line ∈ optionSetLines s type entries, OneLine line := by
  have hvisibility : OneLine s.visibility := by
    rw [DeclarationStyle.visibility]
    split <;> decide
  simp only [optionSetLines, List.forall_mem_append, List.forall_mem_cons, oneLine_append]
  exact ⟨⟨⟨⟨⟨⟨hvisibility, by decide⟩, htype⟩, by decide⟩, ⟨⟨by decide, hvisibility⟩, by decide⟩,
    ⟨⟨by decide, hvisibility⟩, by decide⟩, by decide, by simp⟩,
    oneLine_optionLines hvisibility htype h 0⟩, by decide, by simp⟩

/-- The declaration of a legible definition. -/
theorem IsLegible.declares (h : v.IsLegible) {ls : List String}
    (hls : v.declarationLines? style = some ls) :
    ∃ type, v.definedType? = some type ∧ Declares ls type ∧ ∀ line ∈ ls, OneLine line := by
  obtain ⟨htype, hmembers⟩ := h
  cases v <;> cases hls
  case enumDef type cases =>
    obtain ⟨hname, hline⟩ := htype type rfl
    exact ⟨type, rfl, declares_enumLines style hname cases,
      oneLine_enumLines style hline hmembers⟩
  case optionDef type entries =>
    obtain ⟨hname, hline⟩ := htype type rfl
    exact ⟨type, rfl, declares_optionSetLines style hname entries,
      oneLine_optionSetLines style hline hmembers⟩

/-- The declarations of values, as they stand in the namespace, are read as the types that the
values define. -/
theorem filterMap_typeOf?_declarations (style : DeclarationStyle) {vs : List Value}
    (h : ∀ v ∈ vs, v.IsLegible) :
    (indent ((vs.filterMap fun v => (v.declarationLines? style).map unlines).flatMap fun text =>
      (lines text.toList).map String.ofList)).filterMap typeOf? = vs.filterMap definedType? := by
  induction vs with
  | nil => rfl
  | cons v vs ih =>
    obtain ⟨hv, hvs⟩ := List.forall_mem_cons.1 h
    cases hls : v.declarationLines? style with
    | none =>
      rw [List.filterMap_cons_none (by rw [hls]; rfl), ih hvs,
        List.filterMap_cons_none (declarationLines?_eq_none.1 hls)]
    | some ls =>
      obtain ⟨type, htype, hdeclares, honeLine⟩ := hv.declares hls
      rw [List.filterMap_cons_some (by rw [hls]; rfl), List.flatMap_cons, lines_unlines honeLine,
        indent, List.map_append, List.filterMap_append, ← indent, ← indent,
        hdeclares.filterMap_indent, ih hvs, List.filterMap_cons_some htype]
      rfl

end Value

end Appearance
