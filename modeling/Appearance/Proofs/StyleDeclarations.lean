import Appearance.Proofs.Normalization
import Appearance.Style.Declaration
import Mathlib.Data.List.Perm.Basic

/-!
# Declarations of styles, in any order

A declaration is a name among markers and clauses (`StyleHead.Part`). It is read word by word from
left to right, where a clause takes the word behind its own with it. As no name is the first word
of a clause and none begins with a marker, every part is read as the part that it is, whatever
stands around it (`addWords_part`); and as each kind of part has fields of its own, the order of
the parts does not matter (`addPart_comm`). `Style.ofDeclaration_arranged` says what comes of a
declaration for every order of its parts and all white space between their words.
-/

namespace Appearance

open Appearance.Text

/-! ## Words between white space -/

namespace Text

/-- The text consists of the words with white space between them, and perhaps at both ends. -/
inductive Spaced : List String → List Char → Prop
  | nil {blanks : List Char} : Blank blanks → Spaced [] blanks
  | cons {word : String} {words : List String} {blanks cs : List Char} : Blank blanks →
    Spaced words cs → (∀ c ∈ cs.head?, isBlank c = true) →
    Spaced (word :: words) (blanks ++ (word.toList ++ cs))

instance (cs : List Char) : Decidable (Solid cs) :=
  inferInstanceAs (Decidable (∀ c ∈ cs, isBlank c = false))

/-- A word as it stands between white space. -/
structure IsSolidWord (word : String) : Prop where
  ne_empty : word ≠ ""
  solid : Solid word.toList

/-- A word ends where white space follows. -/
theorem wordsChars_append {w cs : List Char} (hw : Solid w) (hne : w ≠ [])
    (hcs : ∀ c ∈ cs.head?, isBlank c = true) : wordsChars (w ++ cs) = w :: wordsChars cs := by
  cases cs with
  | nil =>
    rw [List.append_nil, wordsChars_solid hw hne]
    rfl
  | cons c cs =>
    have hblank : Blank [c] := by simpa [Blank] using hcs
    rw [← List.singleton_append, wordsChars_append_blank hw hne hblank (by simp),
      wordsChars_blank hblank]

/-- The words are read back. -/
theorem Spaced.words {ws : List String} {cs : List Char} (h : Spaced ws cs)
    (hws : ∀ w ∈ ws, IsSolidWord w) : (wordsChars cs).map String.ofList = ws := by
  induction h with
  | @nil blanks hblanks =>
    rw [← List.append_nil blanks, wordsChars_blank hblanks]
    rfl
  | @cons word ws blanks cs hblanks _ hcs ih =>
    obtain ⟨hword, hws⟩ := List.forall_mem_cons.1 hws
    have hne : word.toList ≠ [] := by simpa using hword.ne_empty
    rw [wordsChars_blank hblanks, wordsChars_append hword.solid hne hcs, List.map_cons, ih hws,
      String.ofList_toList]

/-- White space in front of words does not matter. -/
theorem Spaced.blank {ws : List String} {cs : List Char} (h : Spaced ws cs) {c : Char}
    (hc : isBlank c = true) : Spaced ws (c :: cs) := by
  have hblank {blanks : List Char} (hb : Blank blanks) : Blank (c :: blanks) :=
    List.forall_mem_cons.2 ⟨hc, hb⟩
  cases h with
  | nil hb => exact .nil (hblank hb)
  | cons hb h hcs => exact .cons (hblank hb) h hcs

/-- A text is its words with white space between them. -/
theorem spaced_wordsFrom (cs word : List Char) :
    Spaced ((wordsFrom word cs).map String.ofList) (word.reverse ++ cs) := by
  have hnil : Blank [] := nofun
  have hcons (w : List Char) {ws : List String} {cs : List Char} (h : Spaced ws cs)
      (hcs : ∀ c ∈ cs.head?, isBlank c = true) : Spaced (String.ofList w :: ws) (w ++ cs) := by
    have hword := @Spaced.cons (String.ofList w) ws [] cs hnil h hcs
    simpa using hword
  induction cs generalizing word with
  | nil =>
    rw [wordsFrom]
    split
    next hword => simpa [List.isEmpty_iff.1 hword] using Spaced.nil hnil
    next => exact hcons word.reverse (.nil hnil) (by simp)
  | cons c cs ih =>
    rw [wordsFrom]
    split
    next hc =>
      have hrest : Spaced _ (c :: cs) := (ih []).blank hc
      split
      next hword => simpa [List.isEmpty_iff.1 hword] using hrest
      next => exact hcons word.reverse hrest (by simpa using hc)
    next => simpa using ih (c :: word)

/-- Every text consists of its words with white space between them. -/
theorem spaced_words (s : String) : Spaced (words s) s.toList :=
  spaced_wordsFrom s.toList []

end Text

namespace StyleHead

/-! ## Parts of a declaration -/

/-- The markers that are words of their own. -/
inductive Marker where
  | proxy
  | opened
  | plain
  deriving DecidableEq

def Marker.word : Marker → String
  | proxy => proxyMarker
  | opened => openMarker
  | plain => styleMarker

/-- A part of a declaration: a name, a marker, the clause `for` or the clause `extends`. -/
inductive Part where
  | name (word : String)
  | marker (m : Marker)
  | appliesTo (view : String)
  | inherits (superclass : String)
  deriving DecidableEq

/-- The words of a part. -/
def Part.words : Part → List String
  | name word => [word]
  | marker m => [m.word]
  | appliesTo view => ["for", view]
  | inherits superclass => ["extends", superclass]

/-- The head with a part added. -/
def addPart (h : StyleHead) : Part → StyleHead
  | .name word => { h with name := h.name ++ word }
  | .marker .proxy => { h with isExtension := true }
  | .marker .opened => { h with isOverridable := true }
  | .marker .plain => h
  | .appliesTo view => h.applyTo view
  | .inherits superclass => h.extend superclass

/-- The word can be a name: it begins no clause, is no marker, and has none glued to it. -/
structure IsName (word : String) : Prop extends IsSolidWord word where
  ne_for : word ≠ "for"
  ne_extends : word ≠ "extends"
  ne_marker : ∀ m : Marker, word ≠ m.word
  not_proxy : ¬ proxyMarker.toList <+: word.toList
  not_open : ¬ openMarker.toList <+: word.toList

/-- The part has words that can stand there. -/
def Part.IsPlain : Part → Prop
  | name word => IsName word
  | marker _ => True
  | appliesTo view => IsSolidWord view
  | inherits superclass => IsSolidWord superclass

theorem isSolidWord_marker (m : Marker) : IsSolidWord m.word := by
  cases m <;> exact ⟨by decide, by decide⟩

/-- The words of a plain part are words of a declaration. -/
theorem Part.IsPlain.isSolidWord {p : Part} (hp : p.IsPlain) : ∀ w ∈ p.words, IsSolidWord w := by
  have hfor : IsSolidWord "for" := ⟨by decide, by decide⟩
  have hextends : IsSolidWord "extends" := ⟨by decide, by decide⟩
  cases p with
  | name word => simpa [words] using hp.toIsSolidWord
  | marker m => simpa [words] using isSolidWord_marker m
  | appliesTo view => simpa [words] using ⟨hfor, hp⟩
  | inherits superclass => simpa [words] using ⟨hextends, hp⟩

/-! ## What a part does -/

theorem addWords_word {word : String} (hfor : word ≠ "for") (hextends : word ≠ "extends")
    (h : StyleHead) (rest : List String) :
    h.addWords (word :: rest) = (h.addWord word).addWords rest := by
  cases rest with
  | nil => rfl
  | cons next rest => rw [addWords, if_neg hfor, if_neg hextends]

theorem stripPrefix?_eq_none {pre s : String} (h : ¬ pre.toList <+: s.toList) :
    stripPrefix? pre s = none := by
  rw [stripPrefix?, afterPrefix?, if_neg fun hpre => h (List.isPrefixOf_iff_prefix.1 hpre)]
  rfl

/-- A name is read as a name. -/
theorem addWord_name {word : String} (hword : IsName word) (h : StyleHead) :
    h.addWord word = h.addPart (.name word) := by
  have hproxy : word ≠ proxyMarker := hword.ne_marker .proxy
  have hopen : word ≠ openMarker := hword.ne_marker .opened
  have hstyle : word ≠ styleMarker := hword.ne_marker .plain
  rw [addWord, if_neg hproxy, if_neg hopen, if_neg hstyle, addName, takeProxyMarker,
    stripPrefix?_eq_none hword.not_proxy]
  dsimp only
  rw [takeOpenMarker, stripPrefix?_eq_none hword.not_open]
  rfl

theorem addWord_marker (m : Marker) (h : StyleHead) :
    h.addWord m.word = h.addPart (.marker m) := by
  cases m <;> rfl

/-- A superclass is noted with its prefix taken away, and whether it had it. -/
theorem extend_eq (h : StyleHead) (superclass : String) : h.extend superclass =
    { h with
      superclass := some ((stripPrefix? importedPrefix superclass).getD superclass)
      extendsImported :=
        h.extendsImported || (stripPrefix? importedPrefix superclass).isSome } := by
  rw [extend]
  cases stripPrefix? importedPrefix superclass <;> simp

/-- A part is read as such, whatever follows it. -/
theorem addWords_part {p : Part} (hp : p.IsPlain) (h : StyleHead) (rest : List String) :
    h.addWords (p.words ++ rest) = (h.addPart p).addWords rest := by
  cases p with
  | name word =>
    rw [Part.words, List.singleton_append, addWords_word hp.ne_for hp.ne_extends, addWord_name hp]
  | marker m =>
    have hfor : m.word ≠ "for" := by cases m <;> decide
    have hextends : m.word ≠ "extends" := by cases m <;> decide
    rw [Part.words, List.singleton_append, addWords_word hfor hextends, addWord_marker]
  | appliesTo view => rfl
  | inherits superclass => rfl

/-- A declaration is read part by part. -/
theorem addWords_parts {parts : List Part} (hparts : ∀ p ∈ parts, p.IsPlain) (h : StyleHead) :
    h.addWords (parts.flatMap Part.words) = parts.foldl addPart h := by
  induction parts generalizing h with
  | nil => rfl
  | cons p parts ih =>
    obtain ⟨hp, hparts⟩ := List.forall_mem_cons.1 hparts
    rw [List.flatMap_cons, addWords_part hp, ih hparts, List.foldl_cons]

/-! ## Declarations -/

/-- What a declaration says: a name, markers, and perhaps clauses. -/
structure Clauses where
  name : String
  markers : List Marker
  view? : Option String
  superclass? : Option String

namespace Clauses

/-- The parts in the usual order. -/
def parts (d : Clauses) : List Part :=
  .name d.name :: (d.markers.map .marker ++
    (d.view?.toList.map .appliesTo ++ d.superclass?.toList.map .inherits))

/-- The name can be one, and the clauses have a word each. -/
structure IsPlain (d : Clauses) : Prop where
  name : IsName d.name
  view : ∀ v ∈ d.view?, IsSolidWord v
  superclass : ∀ s ∈ d.superclass?, IsSolidWord s

variable {d : Clauses}

theorem mem_parts {p : Part} : p ∈ d.parts ↔ match p with
    | .name word => word = d.name
    | .marker m => m ∈ d.markers
    | .appliesTo view => d.view? = some view
    | .inherits superclass => d.superclass? = some superclass := by
  cases p <;> simp [parts]

/-- The parts of a plain declaration are plain. -/
theorem IsPlain.parts (hd : d.IsPlain) : ∀ p ∈ d.parts, p.IsPlain := by
  intro p hp
  rw [mem_parts] at hp
  cases p with
  | name word => exact hp ▸ hd.name
  | marker m => trivial
  | appliesTo view => exact hd.view view hp
  | inherits superclass => exact hd.superclass superclass hp

/-- Parts of a declaration can be added in any order, as each kind has its own fields. -/
theorem addPart_comm {p q : Part} (hp : p ∈ d.parts) (hq : q ∈ d.parts) (h : StyleHead) :
    (h.addPart p).addPart q = (h.addPart q).addPart p := by
  rw [mem_parts] at hp hq
  cases p with
  | name word =>
    cases q with
    | name word' => rw [hp, hq]
    | marker m => cases m <;> rfl
    | appliesTo view => rfl
    | inherits superclass => simp only [addPart, extend_eq]
  | marker m =>
    cases q with
    | name word => cases m <;> rfl
    | marker m' => cases m <;> cases m' <;> rfl
    | appliesTo view => cases m <;> rfl
    | inherits superclass => cases m <;> simp only [addPart, extend_eq]
  | appliesTo view =>
    cases q with
    | name word => rfl
    | marker m => cases m <;> rfl
    | appliesTo view' => rw [Option.some.inj (hp.symm.trans hq)]
    | inherits superclass => simp only [addPart, extend_eq, applyTo]
  | inherits superclass =>
    cases q with
    | name word => simp only [addPart, extend_eq]
    | marker m => cases m <;> simp only [addPart, extend_eq]
    | appliesTo view => simp only [addPart, extend_eq, applyTo]
    | inherits superclass' => rw [Option.some.inj (hp.symm.trans hq)]

/-- Each marker sets its own flag. -/
theorem foldl_markers (markers : List Marker) (h : StyleHead) :
    (markers.map Part.marker).foldl addPart h =
      { h with
        isExtension := h.isExtension || markers.contains .proxy
        isOverridable := h.isOverridable || markers.contains .opened } := by
  induction markers generalizing h with
  | nil => simp
  | cons m markers ih =>
    rw [List.map_cons, List.foldl_cons, ih]
    cases m <;> simp [addPart]

theorem foldl_view (view? : Option String) (h : StyleHead) :
    (view?.toList.map Part.appliesTo).foldl addPart h =
      { h with
        isApplicable := h.isApplicable || view?.isSome
        viewClass := if view? = some "Self" then h.viewClass else view?.getD h.viewClass } := by
  cases view? <;> simp [addPart, applyTo]

/-- The superclass is the last that is set. -/
theorem foldl_superclass (superclass? : Option String) (h : StyleHead) :
    (superclass?.toList.map Part.inherits).foldl addPart h =
      { h with
        superclass :=
          (superclass?.map fun s => (stripPrefix? importedPrefix s).getD s).or h.superclass
        extendsImported := h.extendsImported ||
          superclass?.any fun s => (stripPrefix? importedPrefix s).isSome } := by
  cases superclass? with
  | none => simp
  | some superclass => simp [addPart, extend_eq]

/-- The head that the parts describe. -/
theorem foldl_parts (d : Clauses) : d.parts.foldl addPart (named "") =
    { named d.name with
      isExtension := d.markers.contains .proxy
      isOverridable := d.markers.contains .opened
      isApplicable := d.view?.isSome
      viewClass := if d.view? = some "Self" then "UIView" else d.view?.getD "UIView"
      superclass := d.superclass?.map fun s => (stripPrefix? importedPrefix s).getD s
      extendsImported := d.superclass?.any fun s => (stripPrefix? importedPrefix s).isSome } := by
  rw [parts, List.foldl_cons, List.foldl_append, List.foldl_append, foldl_markers, foldl_view,
    foldl_superclass]
  simp [addPart, named]

end Clauses

/-- What the clause `extends` says of the superclass: nothing, the name of a style of the imported
stylesheet behind its prefix, or the name of another style. -/
inductive Names : Option String → Option String → Bool → Prop
  | nothing : Names none none false
  | imported (name : String) : Names (some ("S." ++ name)) (some name) true
  | own {name : String} : (∀ rest, name ≠ "S." ++ rest) → Names (some name) (some name) false

/-- The superclass is named with the prefix of imports or without it. -/
theorem names_superclass (superclass? : Option String) :
    Names superclass? (superclass?.map fun s => (stripPrefix? importedPrefix s).getD s)
      (superclass?.any fun s => (stripPrefix? importedPrefix s).isSome) := by
  cases superclass? with
  | none => exact .nothing
  | some name =>
    by_cases himported : ∃ rest, name = "S." ++ rest
    · obtain ⟨rest, rfl⟩ := himported
      have hstrip : stripPrefix? importedPrefix ("S." ++ rest) = some rest :=
        stripPrefix?_append importedPrefix rest
      rw [Option.map_some, Option.any_some, hstrip]
      exact .imported rest
    · have hown : ∀ rest, name ≠ "S." ++ rest := fun rest h => himported ⟨rest, h⟩
      have hstrip : stripPrefix? importedPrefix name = none := by
        refine stripPrefix?_eq_none fun ⟨rest, hrest⟩ => hown (String.ofList rest) ?_
        rw [← String.toList_inj, String.toList_append, ← hrest, importedPrefix]
        simp only [String.toList_ofList]
      rw [Option.map_some, Option.any_some, hstrip]
      exact .own hown

end StyleHead

theorem Property.opened_eq (p : Property) (isOpen : Bool) :
    (if isOpen then p.opened else p) =
      p.withHead ⟨p.key, p.head.isOverride, p.head.isOverridable || isOpen⟩ := by
  cases p <;> cases isOpen <;> simp [opened, withHead, head, key]

/-- A declaration is read back, in whatever order its parts stand and whatever white space stands
between their words. The style has the name, and each marker and each clause says what it says
alone. A property is open afterwards if it was before or the declaration has the marker for it. -/
theorem Style.ofDeclaration_arranged {d : StyleHead.Clauses} (hd : d.IsPlain)
    {parts : List StyleHead.Part} (hparts : parts.Perm d.parts) {text : String}
    (htext : Spaced (parts.flatMap StyleHead.Part.words) text.toList)
    (properties : List Property) :
    ∃ head opened, Style.ofDeclaration text properties = .mk head opened ∧
      head.name = d.name ∧
      (head.isExtension = true ↔ .proxy ∈ d.markers) ∧
      (head.isOverridable = true ↔ .opened ∈ d.markers) ∧
      (head.isOverridable = true ∧ (∀ p ∈ opened, p.head.isOverridable = true) ↔
        .opened ∈ d.markers) ∧
      opened = properties.map (fun p =>
        p.withHead ⟨p.key, p.head.isOverride, p.head.isOverridable || head.isOverridable⟩) ∧
      (head.isApplicable = true ↔ d.view?.isSome = true) ∧
      head.viewClass = (if d.view? = some "Self" then "UIView" else d.view?.getD "UIView") ∧
      StyleHead.Names d.superclass? head.superclass head.extendsImported := by
  have hplain : ∀ p ∈ parts, p.IsPlain := fun p hp => hd.parts p (hparts.subset hp)
  have hwords : words text = parts.flatMap StyleHead.Part.words := by
    refine htext.words fun w hw => ?_
    obtain ⟨p, hp, hw⟩ := List.mem_flatMap.1 hw
    exact (hplain p hp).isSolidWord w hw
  have hhead : StyleHead.ofDeclaration text = d.parts.foldl StyleHead.addPart (.named "") := by
    rw [StyleHead.ofDeclaration, hwords, StyleHead.addWords_parts hplain]
    exact hparts.foldl_eq' (fun p hp q hq h =>
      StyleHead.Clauses.addPart_comm (hparts.subset hp) (hparts.subset hq) h) _
  rw [StyleHead.Clauses.foldl_parts] at hhead
  set head := StyleHead.ofDeclaration text
  have hproperties : (if head.isOverridable then properties.map Property.opened else properties) =
      properties.map fun p =>
        p.withHead ⟨p.key, p.head.isOverride, p.head.isOverridable || head.isOverridable⟩ := by
    simp only [← Property.opened_eq]
    cases head.isOverridable <;> simp
  have hopen : head.isOverridable = true ↔ .opened ∈ d.markers := by
    rw [hhead]
    exact List.contains_iff_mem
  refine ⟨head, _, rfl, by rw [hhead]; rfl, by rw [hhead]; exact List.contains_iff_mem, hopen, ?_,
    hproperties, by rw [hhead], by rw [hhead], ?_⟩
  · rw [← hopen, hproperties]
    refine and_iff_left_of_imp fun h p hp => ?_
    obtain ⟨q, -, rfl⟩ := List.mem_map.1 hp
    cases q <;> simp [Property.withHead, Property.head, h]
  · rw [hhead]
    exact StyleHead.names_superclass d.superclass?

/-- A declaration with every marker and both clauses, the first of which keeps the general view
class. -/
def toolbarClauses : StyleHead.Clauses :=
  ⟨"Toolbar", [.proxy, .opened, .plain], some "Self", some "S.Bar"⟩

/-- The parts of a declaration in an unusual order. -/
def toolbarParts : List StyleHead.Part :=
  [.inherits "S.Bar", .marker .opened, .name "Toolbar", .marker .plain, .appliesTo "Self",
    .marker .proxy]

/-- A declaration with all its parts, in another order and with tabs between words. -/
theorem Style.ofDeclaration_toolbar :
    toolbarClauses.IsPlain ∧ toolbarParts.Perm toolbarClauses.parts ∧
      Spaced (toolbarParts.flatMap StyleHead.Part.words)
        "extends  S.Bar\n__open\tToolbar __style for Self  __appearance_proxy ".toList ∧
      ∃ head opened,
        Style.ofDeclaration
          "extends  S.Bar\n__open\tToolbar __style for Self  __appearance_proxy "
          [.leaf ⟨"hidden", false, false⟩ (.bool true)] = .mk head opened ∧
        head.name = "Toolbar" ∧ head.isExtension = true ∧ head.viewClass = "UIView" ∧
        StyleHead.Names (some "S.Bar") head.superclass head.extendsImported ∧
        opened = [.leaf ⟨"hidden", false, true⟩ (.bool true)] := by
  have hplain : toolbarClauses.IsPlain := by
    refine ⟨⟨⟨by decide, by decide⟩, by decide, by decide, ?_, by decide, by decide⟩,
      ?_, ?_⟩
    · intro m
      cases m <;> decide
    · rintro _ ⟨rfl⟩
      exact ⟨by decide, by decide⟩
    · rintro _ ⟨rfl⟩
      exact ⟨by decide, by decide⟩
  have hperm : toolbarParts.Perm toolbarClauses.parts := by decide
  have hwords : words "extends  S.Bar\n__open\tToolbar __style for Self  __appearance_proxy " =
      toolbarParts.flatMap StyleHead.Part.words := by decide
  have hspaced := hwords ▸ spaced_words _
  refine ⟨hplain, hperm, hspaced, ?_⟩
  obtain ⟨head, opened, hstyle, hname, hextension, hopen, -, hopened, -, hview, hsuper⟩ :=
    Style.ofDeclaration_arranged hplain hperm hspaced [.leaf ⟨"hidden", false, false⟩ (.bool true)]
  have hisOpen : head.isOverridable = true := hopen.2 (by decide)
  refine ⟨head, opened, hstyle, hname, hextension.2 (by decide), hview, hsuper, ?_⟩
  rw [hopened, hisOpen]
  rfl

end Appearance
