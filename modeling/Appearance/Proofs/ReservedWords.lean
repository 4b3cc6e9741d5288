import Appearance.Proofs.AccessorFunctions
import Appearance.Proofs.EnumCases

/-!
# Reserved words in generated code

A reserved word may stand for a name only between backquotes, and an identifier is never one
(`Code.identifier_not_mem`). Generated files declare the accessors of styles, the variables of
properties and the cases of definitions as identifiers, and refer to them so. The members of option
sets are declared as they are named, and so are the themes, text styles and animations.

`Suite.Prepares.spells_names` says under which spelling each name is declared. What is declared
under names of stylesheets, read back line by line, spares the reserved words if and only if the
names of options do (`Suite.unreserved_namedLines`), and the cases of all enumerations if and only
if the names of which they are made do (`Suite.CasesUnreserved`). In the file of
`Suite.defaultMode` the option `default` is declared without backquotes, next to a variable that
has them (`Suite.default_bare`).
-/

namespace Appearance

open Appearance.Text

namespace Code

/-! ## Identifiers -/

/-- An identifier is no reserved word. -/
theorem identifier_not_mem (name : String) : identifier name ∉ reservedWords := by
  have hfirst : ∀ w ∈ reservedWords, w.toList.head? ≠ some '\x60' := by decide
  rw [identifier]
  split
  · exact fun hmem => hfirst _ hmem (by simp [String.append_assoc])
  · next h => simpa using h

theorem isName_append {s t : String} (hs : IsName s) (ht : IsName t) : IsName (s ++ t) := by
  intro c hc
  rw [String.toList_append, List.mem_append] at hc
  exact hc.elim (hs c) (ht c)

theorem isName_identifier {name : String} (h : IsName name) : IsName (identifier name) := by
  have hquote : IsName "`" := by decide
  rw [identifier]
  split
  · exact isName_append (isName_append hquote h) hquote
  · exact h

/-! ## Lines that declare -/

/-- A line of the part, tabs apart, has the property. -/
def HasLine (p : String → Prop) (part : List String) : Prop := ∃ line ∈ part, p (bare line)

/-- The line declares a member under this spelling, which ends before a blank or a colon. -/
def DeclaresAs (openings : List String) (spelled line : String) : Prop :=
  ∃ o ∈ openings, ∃ rest, EndsName rest ∧ line = o ++ (spelled ++ rest)

/-- How accessors of styles and variables of properties are declared. -/
def variableOpenings : List String :=
  ["public var ", "open var ", "override public var ", "override open var "]

/-- How members of option sets are declared. -/
def optionOpenings : List String := ["static let ", "public static let "]

/-- How members of classes and option sets are declared. -/
def memberOpenings : List String := variableOpenings ++ optionOpenings

theorem variableOpenings_eq : variableOpenings = variableWords.map String.ofList := rfl

theorem optionOpenings_eq : optionOpenings = optionWords.map String.ofList := rfl

theorem memberOpenings_eq : memberOpenings = memberWords.map String.ofList := rfl

variable {p : String → Prop} {part part' body : List String}

theorem HasLine.mono (h : HasLine p part) (hsub : part ⊆ part') : HasLine p part' := by
  obtain ⟨line, hline, hp⟩ := h
  exact ⟨line, hsub hline, hp⟩

theorem HasLine.within (h : HasLine p part) (hin : part <:+: part') : HasLine p part' :=
  h.mono hin.subset

theorem HasLine.block (h : HasLine p body) (head : String) : HasLine p (block head body) := by
  obtain ⟨line, hline, hp⟩ := h
  refine ⟨indentLine line, ?_, by rwa [bare_indentLine]⟩
  have hindent : indentLine line ∈ indent body := List.mem_map_of_mem hline
  exact List.mem_append_left _ (List.mem_cons_of_mem _ hindent)

theorem endsName_colon (s : String) : EndsName (": " ++ s) := by simp [EndsName]

theorem bare_member {w : List Char} (hw : w ∈ memberWords) (s : String) :
    bare (String.ofList w ++ s) = String.ofList w ++ s := by
  have hfirst : ∀ w ∈ memberWords, (w.head?.any fun c => !(c == '\t')) = true := by decide
  exact bare_append (hfirst w hw) s

/-- A line that declares a member declares it under one spelling. -/
theorem eq_of_declaresAs {w : List Char} (hw : w ∈ memberWords) {spelled name rest : String}
    (hspelled : IsName spelled) (hrest : EndsName rest) (hname : IsName name)
    (h : DeclaresAs memberOpenings name (String.ofList w ++ (spelled ++ rest))) :
    name = spelled := by
  have hapart : ∀ w ∈ memberWords, ∀ w' ∈ memberWords, w <+: w' → w = w' := by decide
  obtain ⟨o, ho, rest', hrest', heq⟩ := h
  rw [memberOpenings_eq] at ho
  obtain ⟨w', hw', rfl⟩ := List.mem_map.1 ho
  have happend : ∀ (cs : List Char) (t : String), (String.ofList cs ++ t).toList = cs ++ t.toList :=
    fun cs t => by rw [String.toList_append, String.toList_ofList]
  have hlists := congrArg String.toList heq
  rw [happend, happend] at hlists
  have hwords : w = w' := by
    rcases List.prefix_or_prefix_of_prefix (List.prefix_append w _)
      (hlists ▸ List.prefix_append w' _) with hp | hp
    · exact hapart w hw w' hw' hp
    · exact (hapart w' hw' w hw hp).symm
  subst hwords
  have htexts : spelled ++ rest = name ++ rest' := by
    rw [← String.toList_inj]
    exact List.append_cancel_left hlists
  calc name = leadingName (name ++ rest') := (leadingName_append hname hrest').symm
    _ = leadingName (spelled ++ rest) := by rw [htexts]
    _ = spelled := leadingName_append hspelled hrest

/-! ## No reserved words -/

/-- No line of the part declares a member under a reserved word. -/
def Unreserved (part : List String) : Prop :=
  ∀ line ∈ part, ∀ word ∈ reservedWords, ¬ DeclaresAs memberOpenings word (bare line)

theorem isName_of_mem_reservedWords {word : String} (h : word ∈ reservedWords) : IsName word := by
  have hall : ∀ word ∈ reservedWords, IsName word := by decide
  exact hall word h

@[simp] theorem unreserved_append :
    Unreserved (part ++ part') ↔ Unreserved part ∧ Unreserved part' := List.forall_mem_append

@[simp] theorem unreserved_indent : Unreserved (indent part) ↔ Unreserved part := by
  rw [indent_eq_map, Unreserved, List.forall_mem_map]
  simp only [bare_indentLine, Unreserved]

/-- A part that declares no variable and no option spares the reserved words. -/
theorem unreserved_of_lacks (h : Lacks memberWords part) : Unreserved part := by
  rintro line hline word - ⟨o, ho, rest, -, heq⟩
  rw [memberOpenings_eq] at ho
  obtain ⟨w, hw, rfl⟩ := List.mem_map.1 ho
  refine h line hline w hw ?_
  rw [heq, String.toList_append, String.toList_ofList]
  exact List.prefix_append _ _

theorem unreserved_block {head : String} :
    Unreserved (block head body) ↔ Unreserved [opening head] ∧ Unreserved body := by
  have hclosing : Unreserved [closing] :=
    unreserved_of_lacks (lacks_cons.2 ⟨apart_ofList (by decide), lacks_nil⟩)
  rw [block, ← List.singleton_append, unreserved_append, unreserved_append, unreserved_indent]
  exact and_iff_left hclosing

/-- A declared member is reserved if its spelling is. -/
theorem unreserved_member {w : List Char} (hw : w ∈ memberWords) {spelled rest : String}
    (hspelled : IsName spelled) (hrest : EndsName rest) :
    Unreserved [String.ofList w ++ (spelled ++ rest)] ↔ spelled ∉ reservedWords := by
  constructor
  · intro h hmem
    refine h _ List.mem_cons_self spelled hmem ?_
    rw [bare_member hw]
    exact ⟨_, memberOpenings_eq ▸ List.mem_map_of_mem hw, rest, hrest, rfl⟩
  · intro hfree line hline word hword hdeclares
    rw [List.mem_singleton.1 hline, bare_member hw] at hdeclares
    have hname := isName_of_mem_reservedWords hword
    exact hfree (eq_of_declaresAs hw hspelled hrest hname hdeclares ▸ hword)

theorem mem_memberWords {w : List Char} (hw : w ∈ variableWords) : w ∈ memberWords :=
  List.mem_append_left _ hw

/-- A variable whose spelling is no reserved word. -/
theorem unreserved_variable {w : List Char} (hw : w ∈ variableWords) {spelled : String}
    (hspelled : IsName spelled) (hfree : spelled ∉ reservedWords) (type : String) :
    Unreserved [String.ofList w ++ (spelled ++ (": " ++ type))] :=
  (unreserved_member (mem_memberWords hw) hspelled (endsName_colon type)).2 hfree

theorem declaresAs_variable {w : List Char} (hw : w ∈ variableWords) (spelled type : String) :
    DeclaresAs variableOpenings spelled
      (bare (String.ofList w ++ (spelled ++ (": " ++ type)))) := by
  rw [bare_member (mem_memberWords hw)]
  exact ⟨_, variableOpenings_eq ▸ List.mem_map_of_mem hw, _, endsName_colon type, rfl⟩

end Code

open Code

/-! ## Classes -/

namespace Property

/-- The word with which the variable of a property begins. -/
def publicWord : List Char := ['p', 'u', 'b', 'l', 'i', 'c', ' ', 'v', 'a', 'r', ' ']

theorem publicWord_mem : publicWord ∈ variableWords := List.mem_cons_self

theorem opening_variable (head : PropertyHead) (type : String) :
    opening ("public var " ++ identifier head.key ++ ": " ++ type) =
      String.ofList publicWord ++ (identifier head.key ++ (": " ++ (type ++ " \x7b"))) := by
  rw [opening]
  simp only [String.append_assoc]
  rfl

/-- The variable of a property is declared under the identifier of its key. -/
theorem hasLine_variableLines (head : PropertyHead) (type : String) :
    HasLine (DeclaresAs variableOpenings (identifier head.key)) (variableLines head type) := by
  refine ⟨_, List.mem_cons_self, ?_⟩
  rw [opening_variable]
  exact declaresAs_variable publicWord_mem _ _

/-- None of the members of a property is a variable under a reserved word. -/
theorem unreserved_memberLines (manager : Option String) {head : PropertyHead} (value : Value)
    (hkey : IsName head.key) : Unreserved (Property.memberLines manager head value) := by
  have hmark : Unreserved ["", "//MARK: " ++ head.key] :=
    unreserved_of_lacks (lacks_cons.2 ⟨apart_ofList (by decide),
      lacks_cons.2 ⟨apart_append (by decide) _, lacks_nil⟩⟩)
  have hstorage : Unreserved [storageLine head value.swiftType] := by
    have hline : storageLine head value.swiftType = String.ofList publicWord ++
        ("_" ++ head.key ++ (": " ++ (value.swiftType ++ "?"))) := by
      simp only [storageLine, String.append_assoc]
      rfl
    have hname : IsName ("_" ++ head.key) := isName_append (by decide) hkey
    have hfirst : ∀ w ∈ reservedWords, w.toList.head? ≠ some '_' := by decide
    rw [hline]
    exact unreserved_variable publicWord_mem hname (fun h => hfirst _ h (by simp)) _
  have hfunction : Unreserved (functionLines manager head value) :=
    unreserved_of_lacks ((lacks_functionLines manager head value).mono memberWords_subset)
  have hvariable : Unreserved (variableLines head value.swiftType) := by
    refine unreserved_block.2 ⟨?_, unreserved_of_lacks (lacks_cons.2 ⟨?_, lacks_cons.2 ⟨?_,
      lacks_nil⟩⟩)⟩
    · rw [opening_variable]
      exact unreserved_variable publicWord_mem (isName_identifier hkey) (identifier_not_mem _) _
    · simp only [inlineBlock, String.append_assoc]
      exact apart_append (by decide) _
    · simp only [inlineBlock, String.append_assoc]
      exact apart_append (by decide) _
  have hnil : Unreserved [] := fun _ h => by cases h
  simp only [Property.memberLines, unreserved_append]
  refine ⟨⟨⟨hmark, ?_⟩, hfunction⟩, ?_⟩
  · split
    · exact hnil
    · exact hstorage
  · split
    · exact hnil
    · exact hvariable

end Property

namespace Style

/-- The name of the style and the keys of its values are names as a whole. -/
def NamesWhole (x : Style) : Prop :=
  IsName x.name ∧ ∀ k v, Property.leaf k v ∈ x.properties → IsName k.key

/-- The accessor of a style is declared with one of four words. -/
theorem exists_opening_accessor (head : StyleHead) :
    ∃ w ∈ variableWords, ∀ type : String,
      opening (mark head.isOverride "override" ++
          access (head.isOverridable || head.isNestedOverridable) ++ " var " ++
          identifier head.name ++ ": " ++ type) =
        String.ofList w ++ (identifier head.name ++ (": " ++ (type ++ " \x7b"))) := by
  have hword : ∃ w ∈ variableWords, mark head.isOverride "override" ++
      access (head.isOverridable || head.isNestedOverridable) ++ " var " = String.ofList w := by
    cases head.isOverride <;> cases (head.isOverridable || head.isNestedOverridable)
    · exact ⟨_, .head _, rfl⟩
    · exact ⟨_, .tail _ (.head _), rfl⟩
    · exact ⟨_, .tail _ (.tail _ (.head _)), rfl⟩
    · exact ⟨_, .tail _ (.tail _ (.tail _ (.head _))), rfl⟩
  obtain ⟨w, hw, hfirst⟩ := hword
  refine ⟨w, hw, fun type => ?_⟩
  rw [hfirst, opening]
  simp only [String.append_assoc]

/-- The accessor of a style is declared under the identifier of its name. -/
theorem hasLine_accessorLines (proxy : String) (head : StyleHead) :
    HasLine (DeclaresAs variableOpenings (identifier head.name)) (accessorLines proxy head) := by
  obtain ⟨w, hw, hopening⟩ := exists_opening_accessor head
  refine ⟨_, List.mem_cons_self, ?_⟩
  rw [hopening]
  exact declaresAs_variable hw _ _

variable (ctx : ProxyContext)

/-- A class spares the reserved words if its members do. -/
theorem unreserved_classLines (outer proxy : String) {head : StyleHead}
    (properties : List Property) {members : List String} (hname : IsName head.name)
    (h : Unreserved members) : Unreserved (classLines ctx outer proxy head properties members) := by
  have hmark : Unreserved ["", "//MARK: - " ++ head.name] :=
    unreserved_of_lacks (lacks_cons.2 ⟨apart_ofList (by decide),
      lacks_cons.2 ⟨apart_append (by decide) _, lacks_nil⟩⟩)
  have haccessor : Unreserved (accessorLines proxy head) := by
    obtain ⟨w, hw, hopening⟩ := exists_opening_accessor head
    refine unreserved_block.2 ⟨?_, unreserved_of_lacks (lacks_cons.2 ⟨?_, lacks_nil⟩)⟩
    · rw [hopening]
      exact unreserved_variable hw (isName_identifier hname) (identifier_not_mem _) _
    · simp only [String.append_assoc]
      exact apart_append (by decide) _
  have hhead : Unreserved [opening (classHead ctx outer head)] :=
    unreserved_of_lacks (lacks_cons.2
      ⟨fun w hw => apart_classHead ctx outer head w (memberWords_subset hw), lacks_nil⟩)
  have hinit : Unreserved (if head.inherits.isNone then initLines ctx else []) :=
    unreserved_of_lacks (lacks_ite ((lacks_initLines ctx).mono memberWords_subset) lacks_nil)
  have happly : Unreserved (applyLines head properties) :=
    unreserved_of_lacks ((lacks_applyLines head properties).mono memberWords_subset)
  simp only [classLines, unreserved_append, unreserved_block]
  exact ⟨⟨hmark, haccessor⟩, hhead, ⟨hinit, h⟩, happly⟩

/-- Classes of styles with whole names have no variables under reserved words. -/
theorem unreserved_memberLines (outer : String) (ps : List Property)
    (hkeys : ∀ k v, Property.leaf k v ∈ ps → IsName k.key) (h : AllIn NamesWhole ps) :
    Unreserved (memberLines ctx outer ps) := by
  -- on the recursion of the members, as for the words that they lack
  induction outer, ps using memberLines.induct with
  | case1 outer =>
    rw [memberLines]
    exact fun _ h => by cases h
  | case2 outer head value ps ih =>
    have hrest := ih (fun k v hk => hkeys k v (List.mem_cons_of_mem _ hk)) (by rwa [AllIn] at h)
    rw [memberLines, unreserved_append]
    refine ⟨?_, hrest⟩
    split
    · exact fun _ h => by cases h
    · exact Property.unreserved_memberLines _ value (hkeys head value List.mem_cons_self)
  | case3 outer k head properties ps ih ih' =>
    rw [AllIn, All] at h
    obtain ⟨⟨⟨hname, hown⟩, hnested⟩, hps⟩ := h
    rw [memberLines, unreserved_append]
    refine ⟨unreserved_classLines ctx _ _ properties hname (ih hown hnested), ih' ?_ hps⟩
    exact fun k v hk => hkeys k v (List.mem_cons_of_mem _ hk)

theorem unreserved_proxyLines (sheet : String) {x : Style} (h : x.All NamesWhole) :
    Unreserved (proxyLines ctx sheet x) := by
  obtain ⟨head, properties⟩ := x
  rw [All] at h
  exact unreserved_classLines ctx _ _ _ h.1.1 (unreserved_memberLines ctx _ _ h.1.2 h.2)

/-! ## Where classes stand -/

variable {ctx} {outer path : String}

/-- What stands in a class stands in the lines around it. -/
theorem Stands.hasLine {lines : List String} {c : Ancestor} {outer' : String}
    (h : Stands ctx lines outer path c outer') {p : String → Prop}
    (hp : HasLine p (c.style.bodyLines ctx outer')) : HasLine p lines := by
  induction h with
  | here hin => exact ((hp.block _).mono (List.subset_append_right _ _)).within hin
  | inside hin _ ih => exact (((ih hp).block _).mono (List.subset_append_right _ _)).within hin

/-- The accessor of a class stands in front of it. -/
theorem Stands.hasLine_accessor {lines : List String} {c : Ancestor} {outer' : String}
    (h : Stands ctx lines outer path c outer') :
    HasLine (DeclaresAs variableOpenings (identifier c.style.name)) lines := by
  induction h with
  | @here _ _ _ proxy x hin =>
    exact ((hasLine_accessorLines proxy x.head).mono (List.subset_append_left _ _)).within hin
  | inside hin _ ih => exact ((ih.block _).mono (List.subset_append_right _ _)).within hin

/-- A property that is no override declares its variable. -/
theorem hasLine_variable (ctx : ProxyContext) (outer : String) {x : Style} {k : PropertyHead}
    {v : Value} (hk : Property.leaf k v ∈ x.properties) (hv : v.isGlobal = false)
    (hover : k.isOverride = false) :
    HasLine (DeclaresAs variableOpenings (identifier k.key)) (x.bodyLines ctx outer) := by
  have hvariable : Property.variableLines k v.swiftType <:+: memberLines ctx
      (objcName outer x.head) [.leaf k v] := by
    rw [memberLines, memberLines, hv, List.append_nil, Property.memberLines, hover]
    exact (List.suffix_append _ _).isInfix
  exact (Property.hasLine_variableLines k v.swiftType).within
    (hvariable.trans ((memberLines_of_mem hk).trans (memberLines_in_bodyLines x)))

/-- A style that can be applied hands its values to the view, by the names of their variables. -/
theorem hasLine_assignment (ctx : ProxyContext) (outer : String) {x : Style} {k : PropertyHead}
    {v : Value} (hk : Property.leaf k v ∈ x.properties) (hv : v.isGlobal = false)
    (happlicable : x.head.isApplicable = true) :
    HasLine (· = "view." ++ Text.replaceChar '_' '.' k.key ++ " = self." ++ identifier k.key)
      (x.bodyLines ctx outer) := by
  have hkey : k.key ∈ appliedKeys x.properties :=
    List.mem_filterMap.2 ⟨_, hk, by simp [hv]⟩
  have hbare : bare (assignment k.key) = assignment k.key := by
    rw [assignment, String.append_assoc, String.append_assoc]
    exact bare_append (by decide) _
  have hline : HasLine (· = assignment k.key) (applyLines x.head x.properties) := by
    have hwritten : (!x.head.isApplicable ||
        (x.head.overridesApply && (appliedKeys x.properties).isEmpty)) = false := by
      simp [happlicable, List.ne_nil_of_mem hkey]
    rw [applyLines]
    simp only [hwritten, Bool.false_eq_true, if_false]
    refine HasLine.mono (HasLine.block ?_ _) (List.subset_cons_self _ _)
    exact ⟨_, List.mem_append_right _ (List.mem_map_of_mem hkey), hbare⟩
  exact hline.within (List.suffix_append _ _).isInfix

end Style

/-! ## Option sets -/

/-- The name under which an entry of an option set is declared. -/
def OptionEntry.name : OptionEntry → String
  | flag name => name
  | composite name _ => name

namespace Value

/-- An entry has one line, in which it stands under its name. -/
theorem optionLines_cons (s : DeclarationStyle) (type : String) (bit : Nat) (entry : OptionEntry)
    (entries : List OptionEntry) :
    ∃ w ∈ optionWords, ∃ rest next, EndsName rest ∧
      optionLines s.visibility type bit (entry :: entries) =
        ("\t" ++ (String.ofList w ++ (entry.name ++ rest))) ::
          optionLines s.visibility type next entries := by
  obtain ⟨w, hw, hfirst⟩ : ∃ w ∈ optionWords,
      s.visibility ++ "static let " = String.ofList w := by
    obtain ⟨objc, isPublic⟩ := s
    cases isPublic
    · exact ⟨_, .head _, rfl⟩
    · exact ⟨_, .tail _ (.head _), rfl⟩
  refine ⟨w, hw, ?_⟩
  rw [← hfirst]
  cases entry with
  | flag name =>
    refine ⟨" = " ++ (type ++ ("(rawValue: 1 << " ++ (natText bit ++ ")"))), bit + 1, ?_, ?_⟩
    · simp [EndsName]
    · simp only [optionLines, OptionEntry.name, String.append_assoc]
  | composite name members =>
    refine ⟨": " ++ (type ++ (" = [" ++ (", ".intercalate (members.map ("." ++ ·)) ++ "]"))), bit,
      endsName_colon _, ?_⟩
    simp only [optionLines, OptionEntry.name, String.append_assoc]

theorem bare_tab (s : String) : bare ("\t" ++ s) = bare s := by simp [bare]

/-- A member of an option set is declared as it is named. -/
theorem hasLine_optionLines (s : DeclarationStyle) (type : String) (bit : Nat)
    {entries : List OptionEntry} {entry : OptionEntry} (h : entry ∈ entries) :
    HasLine (DeclaresAs optionOpenings entry.name)
      (optionLines s.visibility type bit entries) := by
  induction entries generalizing bit with
  | nil => cases h
  | cons first entries ih =>
    obtain ⟨w, hw, rest, next, hrest, hlines⟩ := optionLines_cons s type bit first entries
    rw [hlines]
    rcases List.mem_cons.1 h with rfl | hmem
    · refine ⟨_, List.mem_cons_self, ?_⟩
      rw [bare_tab, bare_member (List.mem_append_right _ hw)]
      exact ⟨_, optionOpenings_eq ▸ List.mem_map_of_mem hw, rest, hrest, rfl⟩
    · exact (ih next hmem).mono (List.subset_cons_self _ _)

theorem hasLine_optionSetLines (s : DeclarationStyle) (type : String)
    {entries : List OptionEntry} {entry : OptionEntry} (h : entry ∈ entries) :
    HasLine (DeclaresAs optionOpenings entry.name) (optionSetLines s type entries) :=
  (hasLine_optionLines s type 0 h).mono fun _ hline =>
    List.mem_append_left _ (List.mem_append_right _ hline)

/-- The members of an option set spare the reserved words if and only if their names do. -/
theorem unreserved_optionLines (s : DeclarationStyle) (type : String) (bit : Nat)
    {entries : List OptionEntry} (h : ∀ entry ∈ entries, IsName entry.name) :
    Unreserved (optionLines s.visibility type bit entries) ↔
      ∀ entry ∈ entries, entry.name ∉ reservedWords := by
  induction entries generalizing bit with
  | nil =>
    rw [optionLines]
    exact iff_of_true (fun _ h => by cases h) fun _ h => by cases h
  | cons entry entries ih =>
    obtain ⟨hentry, hentries⟩ := List.forall_mem_cons.1 h
    obtain ⟨w, hw, rest, next, hrest, hlines⟩ := optionLines_cons s type bit entry entries
    have hline : Unreserved ["\t" ++ (String.ofList w ++ (entry.name ++ rest))] ↔
        Unreserved [String.ofList w ++ (entry.name ++ rest)] := by
      simp only [Unreserved, List.forall_mem_singleton, bare_tab]
    rw [hlines, ← List.singleton_append, unreserved_append, List.forall_mem_cons, hline,
      unreserved_member (List.mem_append_right _ hw) hentry hrest, ih next hentries]

/-- A set of options spares the reserved words if and only if the names of its options do. -/
theorem unreserved_optionSetLines (s : DeclarationStyle) (type : String)
    {entries : List OptionEntry} (h : ∀ entry ∈ entries, IsName entry.name) :
    Unreserved (optionSetLines s type entries) ↔
      ∀ entry ∈ entries, entry.name ∉ reservedWords := by
  have hlast : ∀ {cs : List Char},
      Excludes memberWords (['p', 'u', 'b', 'l', 'i', 'c', ' '] ++ cs) ∧ Excludes memberWords cs →
      Apart memberWords (s.visibility ++ String.ofList cs) := fun h => by
    simpa using apart_visibility s "" h
  have hhead : Unreserved [s.visibility ++ "struct " ++ type ++ ": OptionSet, Hashable \x7b",
      "\t" ++ s.visibility ++ "let rawValue: Int",
      "\t" ++ s.visibility ++ "init(rawValue: Int) \x7b self.rawValue = rawValue \x7d", ""] := by
    refine unreserved_of_lacks ?_
    simp only [lacks_cons, String.append_assoc, apart_tab]
    exact ⟨apart_visibility s _ (by decide), hlast (by decide), hlast (by decide),
      apart_ofList (by decide), lacks_nil⟩
  have hclosing : Unreserved ["\x7d"] :=
    unreserved_of_lacks (lacks_cons.2 ⟨apart_ofList (by decide), lacks_nil⟩)
  rw [optionSetLines, unreserved_append, unreserved_append, and_iff_left hclosing,
    and_iff_right hhead, unreserved_optionLines s type 0 h]

/-- The declaration of an enumeration declares cases and no members. -/
theorem unreserved_enumLines (s : DeclarationStyle) (type : String) (cases : List String) :
    Unreserved (enumLines s type cases) := by
  have hexcludes : ∀ w ∈ enumWords, Excludes memberWords w := by decide
  obtain ⟨w, hw, hfirst⟩ := exists_enumOpening s
  refine unreserved_of_lacks ?_
  unfold enumLines
  simp only [lacks_append, lacks_cons]
  refine ⟨⟨⟨⟨?_, lacks_nil⟩, lacks_noneCaseLines (by decide) _ _⟩,
    lacks_caseLines (by decide) _ _⟩, apart_ofList (by decide), lacks_nil⟩
  rw [hfirst, String.append_assoc, String.append_assoc]
  exact apart_append (hexcludes w hw) _

/-- The names of the members of an option set. -/
def declaredOptions : Value → List String
  | optionDef _ entries => entries.map OptionEntry.name
  | _ => []

/-- A declaration spares the reserved words if and only if the names of options do. -/
theorem unreserved_declaration {style : DeclarationStyle} {v : Value} {part : List String}
    (hpart : v.declarationLines? style = some part) (h : ∀ name ∈ v.declaredOptions, IsName name) :
    Unreserved part ↔ ∀ name ∈ v.declaredOptions, name ∉ reservedWords := by
  cases v <;> cases hpart
  case enumDef type cases =>
    exact iff_of_true (unreserved_enumLines style type cases) fun _ h => by cases h
  case optionDef type entries =>
    rw [declaredOptions, List.forall_mem_map] at h ⊢
    exact unreserved_optionSetLines style type h

end Value

/-! ## Files -/

namespace Code

variable {p : String → Prop} {part : List String}

theorem SheetMembers.hasLine {settings : Settings} {t : Stylesheet} {file lines : List String}
    (h : SheetMembers settings t file lines) (hp : HasLine p lines) : HasLine p file := by
  rcases h with ⟨first, hin⟩ | hin
  · exact ((hp.mono (List.subset_append_right _ _)).block _).within hin
  · exact (hp.block _).within hin

/-- The lines of a declaration stand in the namespace. -/
theorem hasLine_namespaceLines (head : String) {style : Value.DeclarationStyle} {vs : List Value}
    {v : Value} (hv : v ∈ vs) (hlegible : v.IsLegible) (hls : v.declarationLines? style = some part)
    (hp : HasLine p part) :
    HasLine p (namespaceLines head
      (vs.filterMap fun v => (v.declarationLines? style).map unlines)) := by
  obtain ⟨-, -, -, honeLine⟩ := hlegible.declares hls
  have hpart : part ⊆ (vs.filterMap fun v => (v.declarationLines? style).map unlines).flatMap
      fun text => (lines text.toList).map String.ofList := by
    intro line hline
    refine List.mem_flatMap.2 ⟨unlines part, List.mem_filterMap.2 ⟨v, hv, by rw [hls]; rfl⟩, ?_⟩
    rwa [lines_unlines honeLine]
  exact ((hp.mono hpart).block head).mono fun _ hline =>
    List.mem_cons_of_mem _ (List.mem_append_left _ hline)

/-- Declarations of values spare the reserved words if and only if the names of options do. -/
theorem unreserved_declarations (style : Value.DeclarationStyle) {vs : List Value}
    (hlegible : ∀ v ∈ vs, v.IsLegible)
    (h : ∀ v ∈ vs, ∀ name ∈ v.declaredOptions, IsName name) :
    Unreserved ((vs.filterMap fun v => (v.declarationLines? style).map unlines).flatMap
      fun text => (lines text.toList).map String.ofList) ↔
        ∀ v ∈ vs, ∀ name ∈ v.declaredOptions, name ∉ reservedWords := by
  induction vs with
  | nil => exact iff_of_true (fun _ h => by cases h) fun _ h => by cases h
  | cons v vs ih =>
    obtain ⟨hv, hvs⟩ := List.forall_mem_cons.1 hlegible
    obtain ⟨hname, hnames⟩ := List.forall_mem_cons.1 h
    rw [List.forall_mem_cons, ← ih hvs hnames]
    cases hls : v.declarationLines? style with
    | none =>
      have hnone : v.declaredOptions = [] := by cases v <;> first | rfl | cases hls
      rw [List.filterMap_cons_none (by rw [hls]; rfl), hnone]
      exact (and_iff_right fun _ h => by cases h).symm
    | some part =>
      obtain ⟨-, -, -, honeLine⟩ := hv.declares hls
      rw [List.filterMap_cons_some (by rw [hls]; rfl), List.flatMap_cons, lines_unlines honeLine,
        unreserved_append, Value.unreserved_declaration hls hname]

/-- Definitions in the namespace spare the reserved words if and only if their options do. -/
theorem unreserved_namespaceLines {head : String} (hhead : Apart memberWords (opening head))
    (style : Value.DeclarationStyle) {vs : List Value} (hlegible : ∀ v ∈ vs, v.IsLegible)
    (h : ∀ v ∈ vs, ∀ name ∈ v.declaredOptions, IsName name) :
    Unreserved (namespaceLines head
        (vs.filterMap fun v => (v.declarationLines? style).map unlines)) ↔
      ∀ v ∈ vs, ∀ name ∈ v.declaredOptions, name ∉ reservedWords := by
  have hempty : Unreserved [""] :=
    unreserved_of_lacks (lacks_cons.2 ⟨apart_ofList (by decide), lacks_nil⟩)
  rw [namespaceLines, ← List.singleton_append, unreserved_append, paragraph, unreserved_append,
    unreserved_block, and_iff_right hempty, and_iff_left hempty,
    and_iff_right (unreserved_of_lacks (lacks_cons.2 ⟨hhead, lacks_nil⟩))]
  exact unreserved_declarations style hlegible h

end Code

namespace Suite

variable {s l r : Suite} {settings : Settings} {base id : SheetId}

/-- The definitions in the files of a stylesheet. -/
def globalLines (r : Suite) (settings : Settings) (base id : SheetId) : List String :=
  if (r.sheet id).isBase then
    if settings.writesBase then
      baseGlobalLines settings.objc settings.framework.isSome (r.sheet id)
    else []
  else themeGlobalLines settings.objc (r.sheet base) (r.sheet id)

/-- What the files of a stylesheet declare under names of its own: its definitions and the classes
of its styles. -/
def namedLines (r : Suite) (settings : Settings) (base id : SheetId) : List String :=
  r.globalLines settings base id ++ r.styleLines settings base id (r.sheet id).allStyles

/-- Definitions stand in the namespace. If there are none, it is left out. -/
theorem globalLines_cases (settings : Settings) (hbase : (r.sheet base).IsLegible)
    (hid : (r.sheet id).IsLegible) :
    (∃ head style, Apart memberWords (opening head) ∧
      r.globalLines settings base id = namespaceLines head
        ((r.writtenGlobals settings base id).filterMap fun v =>
          (v.declarationLines? style).map unlines)) ∨
      r.globalLines settings base id = [] ∧
        ∀ v ∈ r.writtenGlobals settings base id, v.isGlobal = false := by
  have hextension : Apart memberWords (opening namespaceExtension) :=
    apart_opening_append (by decide) _
  unfold globalLines writtenGlobals
  split
  · split
    · refine .inl ⟨_, ⟨settings.objc, !settings.framework.isSome⟩, ?_, rfl⟩
      split
      · exact hextension
      · unfold namespaceHead
        split
        · simp only [String.append_assoc]
          exact apart_opening_append (by decide) _
        · exact apart_opening_append (by decide) _
    · exact .inr ⟨rfl, fun _ hv => by cases hv⟩
  · rw [themeGlobalLines, filter_globalTexts settings.objc hbase hid]
    split
    · next hnone =>
      refine .inr ⟨rfl, fun v hv => ?_⟩
      have hlines := List.filterMap_eq_nil_iff.1 (List.isEmpty_iff.1 hnone) v hv
      rw [Option.map_eq_none_iff] at hlines
      cases v <;> first | rfl | cases hlines
    · exact .inl ⟨_, _, hextension, rfl⟩

/-- Every definition that is written can be read back. -/
theorem legible_of_mem_writtenGlobals (hid : (r.sheet id).IsLegible) {v : Value}
    (hv : v ∈ r.writtenGlobals settings base id) : v.IsLegible := by
  unfold writtenGlobals at hv
  split at hv
  · split at hv
    · exact hid v hv
    · cases hv
  · exact hid v (List.mem_filter.1 hv).1

/-- The declaration of a definition stands among those of its stylesheet. -/
theorem hasLine_globalLines (hbase : (r.sheet base).IsLegible) (hid : (r.sheet id).IsLegible)
    {v : Value} (hv : v ∈ r.writtenGlobals settings base id) (hglobal : v.isGlobal = true)
    {p : String → Prop}
    (hp : ∀ style part, v.declarationLines? style = some part → HasLine p part) :
    HasLine p (r.globalLines settings base id) := by
  rcases globalLines_cases settings hbase hid with
    ⟨head, style, -, hlines⟩ | ⟨-, hnone⟩
  · obtain ⟨part, hpart⟩ : ∃ part, v.declarationLines? style = some part := by
      cases v <;> first | exact ⟨_, rfl⟩ | cases hglobal
    rw [hlines]
    exact hasLine_namespaceLines head hv (legible_of_mem_writtenGlobals hid hv) hpart
      (hp style part hpart)
  · rw [hnone v hv] at hglobal
    cases hglobal

/-- The definitions of a stylesheet stand in its file. -/
theorem hasLine_of_globalLines {p : String → Prop}
    (hp : HasLine p (r.globalLines settings base id)) :
    ∃ file ∈ r.linesOf settings base id, HasLine p file := by
  obtain ⟨hwritten, hdeclared⟩ : ((r.sheet id).isBase && !settings.writesBase) = false ∧
      HasLine p (r.declarationLines settings base id) := by
    unfold globalLines at hp
    unfold declarationLines
    dsimp only
    split at hp
    · next hisBase =>
      split at hp
      · next hwrites =>
        rw [if_pos hisBase]
        exact ⟨by simp [hwrites], hp.mono (List.subset_append_right _ _)⟩
      · obtain ⟨line, hline, -⟩ := hp
        cases hline
    · next hisBase =>
      rw [if_neg hisBase]
      exact ⟨by simp [hisBase], hp.mono (List.subset_append_right _ _)⟩
  unfold linesOf
  dsimp only
  rw [hwritten]
  refine ⟨_, List.mem_cons_self, ?_⟩
  unfold mainLines
  simp only [List.append_assoc]
  exact hdeclared.mono fun _ hline => List.mem_append_right _ (List.mem_append_left _ hline)

/-- The classes of a stylesheet stand in its files. -/
theorem hasLine_of_styleLines (hw : r.Written settings id) {p : String → Prop}
    (hp : HasLine p (r.styleLines settings base id (r.sheet id).allStyles)) :
    ∃ file ∈ r.linesOf settings base id, HasLine p file := by
  obtain ⟨line, hline, hp⟩ := hp
  obtain ⟨x, hx, hline⟩ := List.mem_flatMap.1 hline
  obtain ⟨file, hfile, styles, hmem, hmembers⟩ := mem_linesOf_cases hw base hx
  exact ⟨file, hfile, hmembers.hasLine ⟨line, List.mem_flatMap.2 ⟨x, hmem, hline⟩, hp⟩⟩

/-- What is made of names stands in the files. -/
theorem hasLine_of_namedLines (hw : r.Written settings id) {p : String → Prop}
    (hp : HasLine p (r.namedLines settings base id)) :
    ∃ file ∈ r.linesOf settings base id, HasLine p file := by
  obtain ⟨line, hline, hp⟩ := hp
  rcases List.mem_append.1 hline with hline | hline
  · exact hasLine_of_globalLines ⟨line, hline, hp⟩
  · exact hasLine_of_styleLines hw ⟨line, hline, hp⟩

/-- With whole names, no member of a class or an option set of a stylesheet is declared under a
reserved word if and only if the names of options spare them. -/
theorem unreserved_namedLines (hbase : (r.sheet base).IsLegible) (hid : (r.sheet id).IsLegible)
    (hwhole : ∀ x ∈ (r.sheet id).allStyles, x.All Style.NamesWhole)
    (hnames : ∀ v ∈ r.writtenGlobals settings base id, ∀ name ∈ v.declaredOptions, IsName name) :
    Unreserved (r.namedLines settings base id) ↔
      ∀ v ∈ r.writtenGlobals settings base id, ∀ name ∈ v.declaredOptions,
        name ∉ reservedWords := by
  have hstyles : Unreserved (r.styleLines settings base id (r.sheet id).allStyles) := by
    intro line hline
    obtain ⟨x, hx, hline⟩ := List.mem_flatMap.1 hline
    exact Style.unreserved_proxyLines _ _ (hwhole x hx) line hline
  rw [namedLines, unreserved_append, and_iff_left hstyles]
  rcases globalLines_cases settings hbase hid with
    ⟨head, style, hhead, hlines⟩ | ⟨hlines, hnone⟩
  · rw [hlines]
    exact unreserved_namespaceLines hhead style
      (fun v hv => legible_of_mem_writtenGlobals hid hv) hnames
  · rw [hlines]
    refine iff_of_true (fun _ h => by cases h) fun v hv name hname => ?_
    have hlocal := hnone v hv
    cases v <;> first | cases hname | cases hlocal

/-! ## Reserved words as cases -/

/-- The cases that are made from names spare the reserved words: those of the themes without the
usual suffix and with a small letter, those of text styles, that of the enclosing enumeration and
those of the animations with a small letter. The cases of a definition are identifiers, which can
only become reserved words where blanks or parentheses cut them off. -/
structure CasesUnreserved (s : Suite) (settings : Settings) (base : SheetId) : Prop where
  themes : ∀ id ∈ s.themeIds base, caseName (themeCase (s.sheet id).name) ∉ reservedWords
  textStyles : settings.writesBase = true → settings.framework = none →
    ∀ name ∈ settings.typography, caseName name ∉ reservedWords
  animations : settings.writesBase = true → settings.framework = none →
    ∀ a ∈ (s.sheet base).animations, caseName (firstLower a.name) ∉ reservedWords
  enclosing : settings.writesBase = true → settings.objc = true →
    ∀ outer ∈ settings.enclosing, caseName (firstLower outer) ∉ reservedWords
  definitions : ∀ id ∈ s.ids, ∀ type cases,
    Value.enumDef type cases ∈ s.writtenGlobals settings base id →
      ∀ c ∈ cases, caseName (identifier c) ∉ reservedWords

example : themeCase "DefaultStyle" ∈ reservedWords := by decide

/-- The identifier of a name without blanks and parentheses is no reserved word as a case either. -/
theorem caseName_identifier_not_mem {name : String} (h : IsCase name) :
    caseName (identifier name) ∉ reservedWords := by
  rw [caseName_identifier h]
  exact identifier_not_mem name

/-! ### One enumeration at a time -/

/-- No theme is a reserved word if and only if no stylesheet is named so. -/
theorem unreserved_themeEnumeration_iff :
    (∀ c ∈ (themeEnumeration (r.themes settings base)).cases, c ∉ reservedWords) ↔
      ∀ id ∈ r.themeIds base, caseName (themeCase (r.sheet id).name) ∉ reservedWords := by
  simp only [themeEnumeration, themes, List.map_map, List.forall_mem_map, Function.comp_def]

/-- The text styles that are always there have other names. -/
theorem unreserved_textStyleEnumeration_iff :
    (∀ c ∈ (textStyleEnumeration settings.typography).cases, c ∉ reservedWords) ↔
      ∀ name ∈ settings.typography, caseName name ∉ reservedWords := by
  have hbuiltin : ∀ name ∈ builtinTextStyles, caseName name ∉ reservedWords := by decide
  simp only [textStyleEnumeration, textStyles, List.map_append, List.map_map,
    List.forall_mem_append, List.forall_mem_map, Function.comp_def]
  exact and_iff_right hbuiltin

/-- Of the enumerations for animations one has names for cases. Those of the others are fixed. -/
theorem unreserved_animationEnumerations_iff (animations : List String) :
    (∀ e ∈ animationEnumerations animations, ∀ c ∈ e.cases, c ∉ reservedWords) ↔
      ∀ name ∈ animations, caseName name ∉ reservedWords := by
  have hanimatable : ∀ c ∈ Animatable.all.map Animatable.name, c ∉ reservedWords := by decide
  have hfixed : (∀ c ∈ ["infinite", "count"], c ∉ reservedWords) ∧
      ∀ c ∈ ["native", "timingParameters"], c ∉ reservedWords := by decide
  refine ⟨fun h name hname => ?_, fun h e he => ?_⟩
  · exact h ⟨"AnimationType", animations.map caseName⟩ (by simp [animationEnumerations]) _
      (List.mem_map_of_mem hname)
  · simp only [animationEnumerations, List.mem_cons, List.not_mem_nil, or_false] at he
    rcases he with rfl | rfl | rfl | rfl
    · exact hfixed.1
    · exact hfixed.2
    · exact List.forall_mem_map.2 h
    · exact hanimatable

/-- Only in the variant for two languages does the enclosing enumeration have a case. -/
theorem unreserved_enclosingEnumeration_iff :
    (∀ e ∈ enclosingEnumeration settings, ∀ c ∈ e.cases, c ∉ reservedWords) ↔
      (settings.objc = true → ∀ outer ∈ settings.enclosing,
        caseName (firstLower outer) ∉ reservedWords) := by
  rw [enclosingEnumeration]
  cases settings.enclosing <;> cases settings.objc <;> simp

/-- The cases of a definition are identifiers. -/
theorem unreserved_enumDef_iff (type : String) (cases : List String) :
    (∀ e ∈ (Value.enumDef type cases).enumeration?, ∀ c ∈ e.cases, c ∉ reservedWords) ↔
      ∀ c ∈ cases, caseName (identifier c) ∉ reservedWords := by
  simp only [Value.enumeration?, Option.mem_def, Option.some.injEq, forall_eq',
    List.forall_mem_map, (Value.nodup_declaredCases cases).2]

/-- No enumeration has a reserved word for a case if and only if the names spare them. -/
theorem unreserved_cases_iff (hbase : base ∈ r.ids)
    (hisBase : ∀ id ∈ r.ids, (r.sheet id).isBase = true ↔ id = base)
    (hlegible : ∀ id ∈ r.ids, (r.sheet id).IsLegible) :
    (∀ ls ∈ r.allLines settings base, ∀ e ∈ enumsIn ls, ∀ c ∈ e.cases, c ∉ reservedWords) ↔
      r.CasesUnreserved settings base := by
  rw [forall_enumsIn_allLines hbase hisBase hlegible]
  constructor
  · intro h
    refine ⟨?themes, fun hwrites hframework =>
        unreserved_textStyleEnumeration_iff.1 (h.textStyles hwrites hframework),
      fun hwrites hframework => ?animations,
      fun hwrites => unreserved_enclosingEnumeration_iff.1 (h.enclosing hwrites),
      fun id hid type cases hv => (unreserved_enumDef_iff type cases).1 (h.definitions id hid _ hv)⟩
    case themes =>
      by_cases hnil : r.themeIds base = []
      · rw [hnil]
        exact fun _ hid => by cases hid
      · exact unreserved_themeEnumeration_iff.1 (h.themes hnil)
    case animations =>
      by_cases hany : r.registered.any (·.animator.isSome) = true
      · exact fun a ha => (unreserved_animationEnumerations_iff _).1
          (h.animations hwrites hframework hany) _ (List.mem_map_of_mem ha)
      · rw [animations_eq_nil hbase hany]
        exact fun _ ha => by cases ha
  · intro h
    refine ⟨fun _ => unreserved_themeEnumeration_iff.2 h.themes,
      fun hwrites hframework =>
        unreserved_textStyleEnumeration_iff.2 (h.textStyles hwrites hframework),
      fun hwrites hframework _ => (unreserved_animationEnumerations_iff _).2
        (List.forall_mem_map.2 (h.animations hwrites hframework)),
      fun hwrites => unreserved_enclosingEnumeration_iff.2 (h.enclosing hwrites),
      fun id hid v hv => ?_⟩
    cases v
    case enumDef type cases =>
      exact (unreserved_enumDef_iff type cases).2 (h.definitions id hid type cases hv)
    all_goals exact fun _ h => by cases h

/-- Preparation brings no reserved words into cases and takes none out of them. -/
theorem Prepares.casesUnreserved_iff (h : Prepares settings s l)
    (hd : ∀ t ∈ s.registered, (t.styles.map Style.name).Nodup) (hbase : base ∈ l.ids)
    (hsuper : l.superclass? base = none) :
    (l.prepared settings).1.CasesUnreserved settings base ↔ l.CasesUnreserved settings base := by
  have hthemes := congrArg (fun names : List String => ∀ name ∈ names, name ∉ reservedWords)
    (h.map_themeIds hd hbase fun name => caseName (themeCase name))
  have hanimations : (∀ name ∈ ((l.prepared settings).1.sheet base).animations.map Style.name,
      caseName (firstLower name) ∉ reservedWords) ↔
        ∀ name ∈ (l.sheet base).animations.map Style.name,
          caseName (firstLower name) ∉ reservedWords := by
    simp only [(h.animationNames_perm hd hbase hsuper).mem_iff]
  simp only [List.forall_mem_map] at hthemes hanimations
  constructor
  · intro hfree
    refine ⟨hthemes.mp hfree.themes, hfree.textStyles, fun hw hf =>
      hanimations.1 (hfree.animations hw hf), hfree.enclosing, fun id hid type cases hv => ?_⟩
    exact hfree.definitions id (h.ids_eq ▸ hid) type cases
      ((h.mem_writtenGlobals hd hbase hid).2 hv)
  · intro hfree
    refine ⟨hthemes.mpr hfree.themes, hfree.textStyles, fun hw hf =>
      hanimations.2 (hfree.animations hw hf), hfree.enclosing, fun id hid type cases hv => ?_⟩
    rw [h.ids_eq] at hid
    exact hfree.definitions id hid type cases ((h.mem_writtenGlobals hd hbase hid).1 hv)

/-! ## Spellings -/

/-- Under which spelling the files of a suite declare the names of its stylesheets, and that what
refers to them has the same spelling. The suite was `l` before preparation. -/
structure SpellsNames (l r : Suite) (settings : Settings) (base : SheetId) : Prop where
  /-- The accessor of a style is declared under the identifier of its name. -/
  accessors : ∀ id ∈ r.ids, r.Written settings id → ∀ c ∈ (r.sheet id).classes,
    ∃ file ∈ r.allLines settings base,
      HasLine (DeclaresAs variableOpenings (identifier c.style.name)) file
  /-- The variable of a property is declared under the identifier of its key, and the style hands it
  to a view under that. -/
  properties : ∀ id ∈ r.ids, r.Written settings id → ∀ c ∈ (r.sheet id).classes, ∀ k v,
    Property.leaf k v ∈ c.style.properties → v.isGlobal = false → k.isOverride = false →
    ∃ file ∈ r.allLines settings base,
      HasLine (DeclaresAs variableOpenings (identifier k.key)) file ∧
      (c.style.head.isApplicable = true → HasLine
        (· = "view." ++ replaceChar '_' '.' k.key ++ " = self." ++ identifier k.key) file)
  /-- The cases of a definition are declared as identifiers, which are no reserved words, and values
  refer to them so. -/
  definedCases : ∀ id ∈ l.ids, ∀ type cases,
    Value.enumDef type cases ∈ l.writtenGlobals settings base id → ∀ name ∈ cases,
    (∃ file ∈ r.allLines settings base, ∃ e ∈ enumsIn file,
      e.name = type ∧ caseName (identifier name) ∈ e.cases) ∧
    (IsCase name → caseName (identifier name) ∉ reservedWords) ∧
    ∀ manager, (Value.enumCase type name).toSwift manager =
      Value.enums ++ "." ++ type ++ "." ++ identifier name
  /-- The members of an option set are declared as they are named, and values refer to them so. -/
  options : ∀ id ∈ l.ids, ∀ type entries,
    Value.optionDef type entries ∈ l.writtenGlobals settings base id → ∀ entry ∈ entries,
    (∃ file ∈ r.allLines settings base,
      HasLine (DeclaresAs optionOpenings entry.name) file) ∧
    ∀ manager, (Value.optionSet type [entry.name]).toSwift manager =
      "[" ++ (Value.enums ++ "." ++ type ++ "." ++ entry.name) ++ "]"
  /-- All that is declared under names of stylesheets stands in the files. -/
  named : ∀ id ∈ r.ids, r.Written settings id → ∀ line ∈ r.namedLines settings base id,
    ∃ file ∈ r.allLines settings base, HasLine (· = bare line) file
  /-- With whole names, none of it declares a member under a reserved word if and only if the names
  of options spare them. -/
  members : (∀ id ∈ r.ids, ∀ x ∈ (r.sheet id).allStyles, x.All Style.NamesWhole) →
    (∀ id ∈ l.ids, ∀ v ∈ l.writtenGlobals settings base id, ∀ name ∈ v.declaredOptions,
      IsName name) →
    ((∀ id ∈ r.ids, Unreserved (r.namedLines settings base id)) ↔
      ∀ id ∈ l.ids, ∀ v ∈ l.writtenGlobals settings base id, ∀ name ∈ v.declaredOptions,
        name ∉ reservedWords)
  /-- No case is a reserved word if and only if the names from which cases are made spare them. -/
  cases : (∀ file ∈ r.allLines settings base, ∀ e ∈ enumsIn file, ∀ c ∈ e.cases,
    c ∉ reservedWords) ↔ l.CasesUnreserved settings base

/-- Where a class of a stylesheet stands. -/
theorem exists_stands_of_mem_classes (hw : r.Written settings id) (hid : id ∈ r.ids)
    (base : SheetId) {c : Ancestor} (hc : c ∈ (r.sheet id).classes) :
    ∃ file ∈ r.allLines settings base, ∃ lines outer,
      SheetMembers settings (r.sheet id) file lines ∧
      Style.Stands (r.proxyContext settings base) lines (r.sheet id).name (r.sheet id).name c
        outer := by
  rw [← Stylesheet.map_snd_annotated] at hc
  obtain ⟨⟨name, d⟩, hname, rfl⟩ := List.mem_map.1 hc
  obtain ⟨file, hfile, lines, outer, hmembers, hstands, -⟩ := exists_stands hw base hname
  exact ⟨file, linesOf_subset_allLines hid hfile, lines, outer, hmembers, hstands⟩

/-- The names of a prepared suite are declared under these spellings. Accessors of styles, variables
and the cases of definitions never are reserved words; the members of option sets, themes, text
styles and animations are as soon as their names say so. -/
theorem Prepares.spells_names (h : Prepares settings s l)
    (hd : ∀ t ∈ s.registered, (t.styles.map Style.name).Nodup)
    (hlegible : ∀ t ∈ s.registered, t.IsLegible) :
    ∃ base files, l.baseId = .ok base ∧
      (l.prepared settings).1.generateAll settings = .ok files ∧
      files.map GeneratedFile.content =
        ((l.prepared settings).1.allLines settings base).map unlines ∧
      SpellsNames l (l.prepared settings).1 settings base := by
  obtain ⟨base, files, hb, hfiles, hcontent⟩ := h.exists_generated
  obtain ⟨hbase, hsuper⟩ := h.superclass?_baseId hb
  obtain ⟨hmem, hisBase, hread⟩ := h.legible hd hlegible hb
  refine ⟨base, files, hb, hfiles, hcontent, ?_⟩
  constructor
  case accessors =>
    intro id hid hw c hc
    obtain ⟨file, hfile, lines, outer, hmembers, hstands⟩ :=
      exists_stands_of_mem_classes hw hid base hc
    exact ⟨file, hfile, hmembers.hasLine hstands.hasLine_accessor⟩
  case properties =>
    intro id hid hw c hc k v hk hv hover
    obtain ⟨file, hfile, lines, outer, hmembers, hstands⟩ :=
      exists_stands_of_mem_classes hw hid base hc
    refine ⟨file, hfile, ?_, fun happlicable => ?_⟩
    · exact hmembers.hasLine (hstands.hasLine (Style.hasLine_variable _ _ hk hv hover))
    · exact hmembers.hasLine (hstands.hasLine (Style.hasLine_assignment _ _ hk hv happlicable))
  case definedCases =>
    intro id hid type cases hv name hname
    refine ⟨?_, caseName_identifier_not_mem, fun _ => rfl⟩
    have hid' : id ∈ (l.prepared settings).1.ids := h.ids_eq ▸ hid
    have hwritten := (h.mem_writtenGlobals hd hbase hid).2 hv
    have hfound := (forall_mem_enumerationsOf.1 fun _ he => he).2.2 _ hwritten _ rfl
    rw [← flatMap_enumsIn_linesOf (hread base hmem) (hread id hid')] at hfound
    obtain ⟨file, hfile, he⟩ := List.mem_flatMap.1 hfound
    refine ⟨file, linesOf_subset_allLines hid' hfile, _, he, rfl, ?_⟩
    exact List.mem_map_of_mem (((Value.nodup_declaredCases cases).2 name).2 hname)
  case options =>
    intro id hid type entries hv entry hentry
    refine ⟨?_, fun _ => rfl⟩
    have hid' : id ∈ (l.prepared settings).1.ids := h.ids_eq ▸ hid
    have hwritten := (h.mem_writtenGlobals hd hbase hid).2 hv
    have hline := hasLine_globalLines (hread base hmem) (hread id hid') hwritten rfl
      fun style part hpart => by
        cases hpart
        exact Value.hasLine_optionSetLines style type hentry
    obtain ⟨file, hfile, hdeclares⟩ := hasLine_of_globalLines hline
    exact ⟨file, linesOf_subset_allLines hid' hfile, hdeclares⟩
  case named =>
    intro id hid hw line hline
    obtain ⟨file, hfile, hstands⟩ :=
      hasLine_of_namedLines (p := (· = bare line)) hw ⟨line, hline, rfl⟩
    exact ⟨file, linesOf_subset_allLines hid hfile, hstands⟩
  case members =>
    intro hwhole hnames
    rw [h.ids_eq]
    refine forall₂_congr fun id hid => ?_
    have hid' : id ∈ (l.prepared settings).1.ids := h.ids_eq ▸ hid
    rw [unreserved_namedLines (hread base hmem) (hread id hid') (hwhole id hid')
      fun v hv => hnames id hid v ((h.mem_writtenGlobals hd hbase hid).1 hv)]
    simp only [h.mem_writtenGlobals hd hbase hid]
  case cases =>
    rw [← h.casesUnreserved_iff hd hbase hsuper]
    exact unreserved_cases_iff hmem hisBase hread

/-- A base with an option set and a value under one and the same reserved word. -/
def defaultMode : Suite :=
  ⟨[⟨"Base",
      [.named "A"
        [.leaf ⟨"Mode", false, false⟩ (.optionDef "Mode" [.flag "default", .flag "other"]),
          .leaf ⟨"default", false, false⟩ (.int 1)]],
      none, none, false, []⟩],
    none, none⟩

theorem prepares_defaultMode :
    Prepares .standard defaultMode { defaultMode with base? := some 0 } :=
  ⟨rfl, by cbv⟩

/-- The style of the base as it is prepared. -/
def modeStyle : Style :=
  .mk { StyleHead.named "A" with isOverridable := true }
    [.leaf ⟨"Mode", false, true⟩ (.optionDef "Mode" [.flag "default", .flag "other"]),
      .leaf ⟨"default", false, true⟩ (.int 1)]

theorem prepared_defaultMode :
    ({ defaultMode with base? := some 0 }.prepared .standard).1 =
      ⟨[⟨"Base", [modeStyle], none, none, false, []⟩], none, some 0⟩ := by
  cbv

theorem globals_defaultMode : ∀ t ∈ defaultMode.registered,
    t.globals = [.optionDef "Mode" [.flag "default", .flag "other"]] := by
  refine List.forall_mem_singleton.2 ?_
  cbv

theorem legible_defaultMode : ∀ t ∈ defaultMode.registered, t.IsLegible := fun t ht v hv => by
  rw [globals_defaultMode t ht] at hv
  rw [List.mem_singleton.1 hv]
  decide

/-- The variable of the value stands between backquotes. -/
theorem spells_names_defaultMode :
    Prepares .standard defaultMode { defaultMode with base? := some 0 } ∧
      (∀ t ∈ defaultMode.registered, (t.styles.map Style.name).Nodup) ∧
      (∀ t ∈ defaultMode.registered, t.IsLegible) ∧
      ∃ base files, ({ defaultMode with base? := some 0 } : Suite).baseId = .ok base ∧
        ({ defaultMode with base? := some 0 }.prepared .standard).1.generateAll .standard =
          .ok files ∧
        ∃ file ∈ ({ defaultMode with base? := some 0 }.prepared .standard).1.allLines .standard
          base, HasLine (DeclaresAs variableOpenings "`default`") file := by
  have hd : ∀ t ∈ defaultMode.registered, (t.styles.map Style.name).Nodup := by decide
  obtain ⟨base, files, hbase, hfiles, -, hspells⟩ :=
    Prepares.spells_names prepares_defaultMode hd legible_defaultMode
  have hid : SheetId.registered 0 ∈
      ({ defaultMode with base? := some 0 }.prepared .standard).1.ids := by
    rw [prepared_defaultMode]
    decide
  have hclass : ⟨"Base.AAppearanceProxy", modeStyle⟩ ∈
      (({ defaultMode with base? := some 0 }.prepared .standard).1.sheet
        (.registered 0)).classes := by
    rw [prepared_defaultMode]
    exact List.mem_cons_self
  obtain ⟨file, hfile, hdeclares, -⟩ := hspells.properties _ hid (fun _ => rfl) _ hclass
    ⟨"default", false, true⟩ (.int 1) (by simp [modeStyle]) rfl rfl
  exact ⟨prepares_defaultMode, hd, legible_defaultMode, base, files, hbase, hfiles, file, hfile,
    hdeclares⟩

/-- The member of the option set is declared under a reserved word, without backquotes. -/
theorem default_bare :
    Prepares .standard defaultMode { defaultMode with base? := some 0 } ∧
      ∃ files, ({ defaultMode with base? := some 0 }.prepared .standard).1.generateAll .standard =
          .ok files ∧
        files.map GeneratedFile.content =
          (({ defaultMode with base? := some 0 }.prepared .standard).1.allLines .standard
            (.registered 0)).map unlines ∧
        "default" ∈ reservedWords ∧
        ∃ file ∈ ({ defaultMode with base? := some 0 }.prepared .standard).1.allLines .standard
          (.registered 0), HasLine (DeclaresAs optionOpenings "default") file := by
  obtain ⟨base, files, hbase, hfiles, hcontent⟩ := prepares_defaultMode.exists_generated
  cases hbase
  obtain ⟨hid, hisBase, hlegible⟩ :=
    prepares_defaultMode.legible (by decide) legible_defaultMode rfl
  have hglobals : (({ defaultMode with base? := some 0 }.prepared .standard).1.sheet
      (.registered 0)).globals = [.optionDef "Mode" [.flag "default", .flag "other"]] := by
    rw [prepared_defaultMode]
    cbv
  have hwritten : Value.optionDef "Mode" [.flag "default", .flag "other"] ∈
      ({ defaultMode with base? := some 0 }.prepared .standard).1.writtenGlobals .standard
        (.registered 0) (.registered 0) := by
    rw [writtenGlobals, if_pos ((hisBase _ hid).2 rfl), if_pos (by decide), hglobals]
    exact List.mem_cons_self
  have hentry : OptionEntry.flag "default" ∈
      [OptionEntry.flag "default", OptionEntry.flag "other"] := List.mem_cons_self
  have hline := hasLine_globalLines (hlegible _ hid) (hlegible _ hid) hwritten rfl
    fun style part hpart => by
      cases hpart
      exact Value.hasLine_optionSetLines style "Mode" hentry
  obtain ⟨file, hfile, hdeclares⟩ := hasLine_of_globalLines hline
  exact ⟨prepares_defaultMode, files, hfiles, hcontent, by decide, file,
    linesOf_subset_allLines hid hfile, hdeclares⟩

end Suite

end Appearance
