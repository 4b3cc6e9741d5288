import Appearance.Config.Read
import Appearance.Proofs.Runs
import Appearance.Yaml.Node.Read

/-!
# Where the errors of a configuration point

The key of an error is the path of an entry: `stylesheet`, then keys of mappings and indices of
sequences (`KeyPart`). Each section is read by a function of its own that knows nothing of what
stands around it, and the sections around it put their keys in front of its errors. So a result is
said to point into a node (`PointsInto`) if the path of its error, walked from that node, comes to
the fault, and a section that is read under a key points into the mapping around it
(`PointsInto.inSection`).

`Config.parse_error_points` says this of whole configurations: the path of a missing entry meets an
entry that is absent or null, or ends at an empty list (`Misses`); that of an entry of the wrong
type ends at a node of the kind that is told (`Blames`).

That the node is the one that the text stands for is not part of these lemmas: they hold for any
node. The theorem puts the reader in front of them, so it says of the text of a configuration where
its errors point, whatever reader of nodes is used.
-/

namespace Appearance

open Appearance.Text
open Appearance.Yaml (Node)

/-! ## Paths -/

/-- A step from a node to one inside it: to the value of a key of a mapping, or to an item of a
sequence. -/
inductive KeyPart where
  | entry (key : Node)
  | item (index : Nat)

/-- A part as it stands in the key of an error. A key of a mapping has to be a string. -/
def KeyPart.text? : KeyPart → Option String
  | entry key => key.asText?
  | item index => some (natText index)

/-- The path leads from a node to another one. -/
inductive LeadsTo : List KeyPart → Node → Node → Prop
  | here (node : Node) : LeadsTo [] node node
  | entry {path : List KeyPart} {node key child target : Node} {entries : List (Node × Node)} :
    node.entries? = some entries → (key, child) ∈ entries → LeadsTo path child target →
    LeadsTo (.entry key :: path) node target
  | item {path : List KeyPart} {child target : Node} {items : List Node} {index : Nat} :
    items[index]? = some child → LeadsTo path child target →
    LeadsTo (.item index :: path) (.sequence items) target

/-- At a node there is nothing to go on to: its entry is absent, it is null itself, or it is the end
of the path and an empty list. -/
inductive LacksEntry : List KeyPart → Node → Prop
  | absent {path : List KeyPart} {node : Node} {key : String} {entries : List (Node × Node)} :
    node.entries? = some entries → (∀ child, (.string key, child) ∉ entries) →
    LacksEntry (.entry (.string key) :: path) node
  | null {path : List KeyPart} {node : Node} : node.isNull = true → LacksEntry path node
  | empty : LacksEntry [] (.sequence [])

/-- On its way from a node the path meets an entry that is absent or null, or it ends at an empty
list. -/
def Misses (root : Node) (path : List KeyPart) : Prop :=
  ∃ front rest node, path = front ++ rest ∧ LeadsTo front root node ∧ LacksEntry rest node

/-- The kinds that an entry may have, where its kind is what is wrong. -/
def Expected.kinds? : Expected → Option (List NodeKind)
  | string => some [.string]
  | bool => some [.bool]
  | mapping => some [.mapping]
  | stringOrSequence => some [.string, .sequence]
  | stringOrMapping => some [.string, .mapping]
  | fontNames => some [.string, .sequence, .mapping]
  | stringKey => none
  | namePerInput => none
  | fontPerSheet => none

/-- The number of texts that an entry gives, one alone or a list. -/
def textCount? : Node → Option Nat
  | .string _ => some 1
  | .sequence items => some items.length
  | _ => none

/-- From a node the path comes to what is found instead of what is expected: a node of another kind,
a mapping with a key that is no string, names of another number than the inputs, or the first font
without a stylesheet. -/
inductive Blames (root : Node) : List KeyPart → Expected → Found → Prop
  | kind {path : List KeyPart} {node : Node} {expected : Expected} {kinds : List NodeKind} :
    LeadsTo path root node → expected.kinds? = some kinds → node.kind ∉ kinds →
    Blames root path expected (.node node.kind)
  | key {path : List KeyPart} {node key child : Node} {entries : List (Node × Node)} :
    LeadsTo path root node → node.entries? = some entries → (key, child) ∈ entries →
    key.asText? = none → Blames root path .stringKey (.node key.kind)
  | names {path : List KeyPart} {node : Node} {count inputs : Nat} :
    LeadsTo path root node → textCount? node = some count → count ≠ inputs →
    Blames root path .namePerInput (.names count inputs)
  | fonts {path : List KeyPart} {items : List Node} {node : Node} {sheets : Nat} :
    LeadsTo path root (.sequence items) → items[sheets]? = some node →
    Blames root (path ++ [.item sheets]) .fontPerSheet (.fonts items.length sheets)

/-- A walk from a node can be continued. -/
theorem LeadsTo.trans {path rest : List KeyPart} {root node target : Node}
    (h : LeadsTo path root node) (hrest : LeadsTo rest node target) :
    LeadsTo (path ++ rest) root target := by
  induction h with
  | here => exact hrest
  | entry hentries hmem _ ih => exact .entry hentries hmem (ih hrest)
  | item hitem _ ih => exact .item hitem (ih hrest)

theorem Misses.after {path rest : List KeyPart} {root node : Node} (h : LeadsTo path root node)
    (hrest : Misses node rest) : Misses root (path ++ rest) := by
  obtain ⟨front, rest, target, rfl, hfront, hlacks⟩ := hrest
  exact ⟨path ++ front, rest, target, (List.append_assoc ..).symm, h.trans hfront, hlacks⟩

/-- What is blamed below a node is blamed above it under the longer path. -/
theorem Blames.after {path rest : List KeyPart} {root node : Node} {expected : Expected}
    {found : Found} (h : LeadsTo path root node) (hrest : Blames node rest expected found) :
    Blames root (path ++ rest) expected found := by
  cases hrest with
  | kind hrest hkinds hkind => exact .kind (h.trans hrest) hkinds hkind
  | key hrest hentries hmem hkey => exact .key (h.trans hrest) hentries hmem hkey
  | names hrest hcount hne => exact .names (h.trans hrest) hcount hne
  | fonts hrest hitem =>
    rw [← List.append_assoc]
    exact .fonts (h.trans hrest) hitem

/-! ## Results that point into a node -/

/-- The key of an error spells a path. -/
def SpellsKey (path : List KeyPart) (key : List String) : Prop :=
  path.map KeyPart.text? = key.map some

theorem SpellsKey.append {path rest : List KeyPart} {key key' : List String}
    (h : SpellsKey path key) (hrest : SpellsKey rest key') :
    SpellsKey (path ++ rest) (key ++ key') := by
  rw [SpellsKey, List.map_append, List.map_append, h, hrest]

theorem spells_nil : SpellsKey [] [] := rfl

theorem spells_key (name : String) : SpellsKey [.entry (.string name)] [name] := rfl

theorem spells_index (index : Nat) : SpellsKey [.item index] [natText index] := rfl

/-- The path of an error, walked from a node, comes to the fault. Only faults of entries are
meant. -/
def ConfigError.PointsInto (node : Node) : ConfigError → Prop
  | missing key => ∃ path, SpellsKey path key ∧ Misses node path
  | wrongType key expected found => ∃ path, SpellsKey path key ∧ Blames node path expected found
  | _ => False

/-- If the result is an error, its path leads to the fault. -/
def PointsInto {α : Type} (node : Node) (r : ConfigResult α) : Prop :=
  ∀ e, r = .error e → e.PointsInto node

section Results

variable {α β : Type} {node : Node} {x : ConfigResult α}

theorem pointsInto_ok (a : α) : PointsInto node (.ok a) := nofun

theorem PointsInto.bind {f : α → ConfigResult β} (hx : PointsInto node x)
    (hf : ∀ a, x = .ok a → PointsInto node (f a)) : PointsInto node (x >>= f) := by
  intro e he
  rcases bind_eq_error.1 he with he | ⟨a, ha, he⟩
  · exact hx e he
  · exact hf a ha e he

theorem PointsInto.of_error {e : ConfigError} (hx : PointsInto node x) (h : x = .error e) :
    PointsInto (α := β) node (.error e) := by
  rintro _ ⟨⟩
  exact hx e h

theorem PointsInto.map {f : α → β} (hx : PointsInto node x) : PointsInto node (x.map f) :=
  fun e he => hx e (map_eq_error.1 he)

theorem pointsInto_missing {path : List KeyPart} {key : List String} (hkey : SpellsKey path key)
    (h : Misses node path) : PointsInto (α := α) node (.error (.missing key)) := by
  rintro _ ⟨⟩
  exact ⟨path, hkey, h⟩

theorem pointsInto_wrongType {path : List KeyPart} {key : List String} {expected : Expected}
    {found : Found} (hkey : SpellsKey path key) (h : Blames node path expected found) :
    PointsInto (α := α) node (.error (.wrongType key expected found)) := by
  rintro _ ⟨⟩
  exact ⟨path, hkey, h⟩

theorem pointsInto_wrongKind {path : List KeyPart} {key : List String} {target : Node}
    {expected : Expected} {kinds : List NodeKind} (hkey : SpellsKey path key)
    (h : LeadsTo path node target) (hkinds : expected.kinds? = some kinds)
    (hkind : target.kind ∉ kinds) : PointsInto (α := α) node (wrongKind key expected target) :=
  pointsInto_wrongType hkey (.kind h hkinds hkind)

/-- A value that has to be there is asked for at an entry, and the entry is absent or null if there
is none. -/
theorem PointsInto.required {path : List KeyPart} {key : List String} {y : ConfigResult (Option α)}
    (hy : PointsInto node y) (hkey : SpellsKey path key) (h : y = .ok none → Misses node path) :
    PointsInto node (y >>= Appearance.required key) := by
  refine hy.bind fun a ha => ?_
  cases a with
  | some a => exact pointsInto_ok a
  | none => exact pointsInto_missing hkey (h ha)

/-- What a section says of itself is said of the mapping around it, behind the key of the
section. -/
theorem PointsInto.inSection {child : Node} {entries : List (Node × Node)} {key : String}
    (hx : PointsInto child x) (hentries : node.entries? = some entries)
    (hmem : (.string key, child) ∈ entries) : PointsInto node (Appearance.inSection key x) := by
  have hkey : LeadsTo [.entry (.string key)] node child := .entry hentries hmem (.here child)
  intro e he
  cases x with
  | ok a => cases he
  | error e' =>
    cases he
    have h := hx e' rfl
    cases e' with
    | missing keys =>
      obtain ⟨path, hspells, hmisses⟩ := h
      exact ⟨_, (spells_key key).append hspells, hmisses.after hkey⟩
    | wrongType keys expected found =>
      obtain ⟨path, hspells, hblames⟩ := h
      exact ⟨_, (spells_key key).append hspells, hblames.after hkey⟩
    | pathMissing _ => exact h
    | unreadable _ _ => exact h
    | notYaml => exact h

/-- Each item of a list is blamed under its own index. -/
theorem pointsInto_readItems {read : Nat → Node → ConfigResult α} {nodes : List Node} {index : Nat}
    (h : ∀ i child, nodes[i]? = some child → PointsInto node (read (index + i) child)) :
    PointsInto node (readItems read index nodes) := by
  induction nodes generalizing index with
  | nil => exact pointsInto_ok _
  | cons child nodes ih =>
    have hfirst : PointsInto node (read index child) := h 0 child rfl
    rw [readItems]
    split
    · next e he => exact hfirst.of_error he
    · refine (ih fun i child' hchild => ?_).map
      rw [Nat.add_assoc, Nat.add_comm 1]
      exact h (i + 1) child' hchild

end Results

/-! ## Entries -/

namespace ConfigSection

variable {s : ConfigSection} {node : Node} {key : String}

/-- What a look-up gives is an entry. -/
theorem mem_of_lookup {entries : List (Node × Node)} {value : Node}
    (h : Node.lookup key entries = some value) : (.string key, value) ∈ entries := by
  fun_induction Node.lookup key entries with
  | case1 => cases h
  | case2 v rest =>
    cases h
    exact List.mem_cons_self
  | case3 _ _ _ _ ih => exact List.mem_cons_of_mem _ (ih h)
  | case4 _ _ _ ih => exact List.mem_cons_of_mem _ (ih h)

/-- What a look-up does not give is no entry. -/
theorem not_mem_of_lookup {entries : List (Node × Node)} (h : Node.lookup key entries = none)
    (value : Node) : (.string key, value) ∉ entries := by
  fun_induction Node.lookup key entries with
  | case1 => exact List.not_mem_nil
  | case2 v rest => cases h
  | case3 k v rest hk ih =>
    rw [List.mem_cons, not_or]
    exact ⟨fun heq => hk (by cases heq; rfl), ih h⟩
  | case4 e rest hne ih =>
    rw [List.mem_cons, not_or]
    exact ⟨fun heq => hne _ _ heq.symm, ih h⟩

theorem mem_of_get? {value : Node} (h : s.get? key = some value) :
    (.string key, value) ∈ s.entries :=
  mem_of_lookup (Option.filter_eq_some_iff.1 h).1

/-- A path through an entry that is absent or null misses something. -/
theorem misses_of_lookup {entries : List (Node × Node)} (hentries : node.entries? = some entries)
    (h : ∀ value, Node.lookup key entries = some value → value.isNull = true)
    (path : List KeyPart) : Misses node (.entry (.string key) :: path) := by
  match hlookup : Node.lookup key entries with
  | none => exact ⟨[], _, node, rfl, .here node, .absent hentries (not_mem_of_lookup hlookup)⟩
  | some value =>
    exact ⟨_, path, value, rfl, .entry hentries (mem_of_lookup hlookup) (.here value),
      .null (h value hlookup)⟩

variable (hs : node.entries? = some s.entries)
include hs

theorem leads_of_get? {value : Node} (h : s.get? key = some value) :
    LeadsTo [.entry (.string key)] node value := .entry hs (mem_of_get? h) (.here value)

theorem misses_of_get? (h : s.get? key = none) {path : List KeyPart} :
    Misses node (.entry (.string key) :: path) :=
  misses_of_lookup hs (fun value hvalue => by simpa [get?, hvalue] using h) path

/-- An entry of another kind is blamed under its key. -/
theorem pointsInto_otherKind {α : Type} {value : Node} {expected : Expected}
    {kinds : List NodeKind} (hget : s.get? key = some value)
    (hkinds : expected.kinds? = some kinds) (hkind : value.kind ∉ kinds) :
    PointsInto (α := α) node (wrongKind [key] expected value) :=
  pointsInto_wrongKind (spells_key key) (leads_of_get? hs hget) hkinds hkind

/-- A string that may be absent is blamed if it is something else. -/
theorem pointsInto_string? : PointsInto node (s.string? key) := by
  rw [string?]
  split
  · exact pointsInto_ok _
  · exact pointsInto_ok _
  · next value hne hget =>
    exact pointsInto_otherKind hs hget rfl (by cases value <;> simp_all [Node.kind])

theorem pointsInto_path? : PointsInto node (s.path? key) := (pointsInto_string? hs).map

/-- A flag that may be absent is blamed if it is something else. -/
theorem pointsInto_flag (missing : Bool) : PointsInto node (s.flag key missing) := by
  rw [flag]
  split
  · exact pointsInto_ok _
  · exact pointsInto_ok _
  · next value hne hget =>
    exact pointsInto_otherKind hs hget rfl (by cases value <;> simp_all [Node.kind])

/-- Strings that may be absent are blamed one by one. -/
theorem pointsInto_strings? : PointsInto node (s.strings? key) := by
  rw [strings?]
  split
  · exact pointsInto_ok _
  · exact pointsInto_ok _
  · next items hget =>
    refine (pointsInto_readItems fun i child hchild => ?_).map
    have hitem : LeadsTo [.item i] (.sequence items) child := .item hchild (.here child)
    rw [Nat.zero_add]
    cases child with
    | string text => exact pointsInto_ok text
    | _ =>
      exact pointsInto_wrongKind ((spells_key key).append (spells_index i))
        ((leads_of_get? hs hget).trans hitem) rfl (by simp [Node.kind])
  · next value hstring hsequence hget =>
    exact pointsInto_otherKind hs hget rfl (by cases value <;> simp_all [Node.kind])

/-- A section that may be absent is blamed if it is no mapping. -/
theorem pointsInto_section? : PointsInto node (s.section? key) := by
  rw [section?]
  split
  · exact pointsInto_ok _
  · exact pointsInto_ok _
  · next value hne hget =>
    exact pointsInto_otherKind hs hget rfl (by cases value <;> simp_all [Node.kind])

omit hs

/-! ### Entries that are not given -/

theorem get?_of_string? (h : s.string? key = .ok none) : s.get? key = none := by
  rw [string?] at h
  split at h
  · assumption
  · cases h
  · cases h

theorem get?_of_path? (h : s.path? key = .ok none) : s.get? key = none := by
  obtain ⟨text, htext, hnone⟩ := map_eq_ok.1 h
  exact get?_of_string? (Option.map_eq_none_iff.1 hnone ▸ htext)

/-- Strings that are not given have no entry. -/
theorem get?_of_strings? (h : s.strings? key = .ok none) : s.get? key = none := by
  rw [strings?] at h
  split at h
  · assumption
  · cases h
  · obtain ⟨_, _, h⟩ := map_eq_ok.1 h
    cases h
  · cases h

theorem get?_of_section? (h : s.section? key = .ok none) : s.get? key = none := by
  rw [section?] at h
  split at h
  · assumption
  · cases h
  · cases h

/-- As many items are read as there are nodes. -/
theorem length_readItems {α : Type} {read : Nat → Node → ConfigResult α} {index : Nat}
    {nodes : List Node} {as : List α} (h : readItems read index nodes = .ok as) :
    as.length = nodes.length := by
  induction nodes generalizing index as with
  | nil =>
    cases h
    rfl
  | cons node nodes ih =>
    rw [readItems] at h
    split at h
    · cases h
    · obtain ⟨as, has, rfl⟩ := map_eq_ok.1 h
      rw [List.length_cons, List.length_cons, ih has]

/-- Texts that are given are those of an entry. -/
theorem exists_of_strings? {texts : List String} (h : s.strings? key = .ok (some texts)) :
    ∃ value, s.get? key = some value ∧ textCount? value = some texts.length := by
  rw [strings?] at h
  split at h
  · cases h
  · next text hget =>
    cases h
    exact ⟨_, hget, rfl⟩
  · next items hget =>
    obtain ⟨texts, htexts, heq⟩ := map_eq_ok.1 h
    cases heq
    exact ⟨_, hget, by rw [length_readItems htexts]; rfl⟩
  · cases h

/-- Where there are no texts the entry is not given, or it is an empty list. -/
theorem misses_of_strings? (hs : node.entries? = some s.entries) {texts? : Option (List String)}
    (h : s.strings? key = .ok texts?) (hempty : texts?.getD [] = []) :
    Misses node [.entry (.string key)] := by
  cases texts? with
  | none => exact misses_of_get? hs (get?_of_strings? h)
  | some texts =>
    obtain rfl : texts = [] := hempty
    obtain ⟨value, hget, hcount⟩ := exists_of_strings? h
    cases value with
    | sequence items =>
      obtain rfl : items = [] := List.length_eq_zero_iff.1 (Option.some.inj hcount)
      exact ⟨_, [], _, rfl, leads_of_get? hs hget, .empty⟩
    | _ => cases hcount

/-- A section that is given is the value of its key. -/
theorem get?_of_section?_ok {inner : ConfigSection} (h : s.section? key = .ok (some inner)) :
    s.get? key = some (.mapping inner.entries) := by
  rw [section?] at h
  split at h
  · cases h
  · next hget =>
    cases h
    exact hget
  · cases h

/-! ### Entries that have to be given -/

include hs

theorem pointsInto_string : PointsInto node (s.string key) :=
  (pointsInto_string? hs).required (spells_key key) fun h => misses_of_get? hs (get?_of_string? h)

theorem pointsInto_path : PointsInto node (s.path key) :=
  (pointsInto_path? hs).required (spells_key key) fun h => misses_of_get? hs (get?_of_path? h)

theorem pointsInto_strings : PointsInto node (s.strings key) :=
  (pointsInto_strings? hs).required (spells_key key) fun h =>
    misses_of_get? hs (get?_of_strings? h)

/-! ### Sections -/

variable {α : Type} {read : ConfigSection → ConfigResult α}

/-- A section that is read under its key points into the mapping around it. -/
theorem pointsInto_inSection {inner : ConfigSection} (h : s.section? key = .ok (some inner))
    (hread : PointsInto (.mapping inner.entries) (read inner)) :
    PointsInto node (inSection key (read inner)) :=
  hread.inSection hs (mem_of_get? (get?_of_section?_ok h))

/-- A section that may be absent points into the mapping around it. -/
theorem pointsInto_read?
    (hread : ∀ inner : ConfigSection, PointsInto (.mapping inner.entries) (read inner)) :
    PointsInto node (s.read? key read) := by
  refine (pointsInto_section? hs).bind fun inner? hinner => ?_
  cases inner? with
  | none => exact pointsInto_ok none
  | some inner =>
    exact (pointsInto_inSection hs hinner (hread inner)).bind fun a _ => pointsInto_ok (some a)

omit hs in
theorem get?_of_read? (h : s.read? key read = .ok none) : s.get? key = none := by
  obtain ⟨inner?, hinner, h⟩ := bind_eq_ok.1 h
  cases inner? with
  | none => exact get?_of_section? hinner
  | some inner =>
    obtain ⟨_, _, h⟩ := bind_eq_ok.1 h
    cases h

end ConfigSection

/-! ## Sections -/

section Sections

variable {s : ConfigSection} {node : Node} (hs : node.entries? = some s.entries)
include hs

theorem pointsInto_projectLink : PointsInto node (ProjectLink.read s) :=
  (s.pointsInto_path hs).bind fun _ _ => (s.pointsInto_string hs).bind fun _ _ =>
    (s.pointsInto_string? hs).bind fun _ _ => pointsInto_ok _

theorem pointsInto_outputConfig : PointsInto node (OutputConfig.read s) := by
  refine (s.pointsInto_read? hs fun inner => pointsInto_projectLink rfl).bind fun link _ => ?_
  refine (s.pointsInto_path? hs).bind fun path hpath => ?_
  split
  · next hnone =>
    obtain ⟨rfl, -⟩ : path = none ∧ _ := by simpa using hnone
    exact pointsInto_missing (spells_key "path")
      (ConfigSection.misses_of_get? hs (ConfigSection.get?_of_path? hpath))
  · exact (s.pointsInto_path? hs).bind fun _ _ =>
      (s.pointsInto_string? hs).bind fun _ _ => pointsInto_ok _

theorem pointsInto_frameworkConfig : PointsInto node (FrameworkConfig.read s) :=
  (s.pointsInto_string hs).bind fun _ _ => (s.pointsInto_path hs).bind fun _ _ =>
    (s.pointsInto_strings? hs).bind fun _ _ => pointsInto_ok _

theorem pointsInto_symbolAssetConfig : PointsInto node (SymbolAssetConfig.read s) := by
  refine (s.pointsInto_section? hs).bind fun output? houtput => ?_
  cases output? with
  | none =>
    exact pointsInto_missing (spells_key "output")
      (ConfigSection.misses_of_get? hs (ConfigSection.get?_of_section? houtput))
  | some output =>
    exact (s.pointsInto_path hs).bind fun _ _ => (s.pointsInto_string hs).bind fun _ _ =>
      (s.pointsInto_strings hs).bind fun _ _ => (s.pointsInto_strings hs).bind fun _ _ =>
        (s.pointsInto_inSection hs houtput (pointsInto_outputConfig rfl)).bind fun _ _ =>
          pointsInto_ok _

/-! ### Symbol fonts -/

namespace SymbolFontConfig

omit hs

variable {path : List KeyPart} {key : List String} {target : Node}

/-- A weight is looked for in the mapping of a font. -/
theorem pointsInto_weight? {entries : List (Node × Node)} (hkey : SpellsKey path key)
    (h : LeadsTo path node (.mapping entries)) (weight : String) :
    PointsInto node (weight? key entries weight) := by
  rw [weight?]
  split
  · exact pointsInto_ok _
  · exact pointsInto_ok _
  · exact pointsInto_ok _
  · next value hnull hstring hlookup =>
    have hvalue : LeadsTo [.entry (.string weight)] (.mapping entries) value :=
      .entry rfl (ConfigSection.mem_of_lookup hlookup) (.here value)
    refine pointsInto_wrongKind (hkey.append (spells_key weight)) (h.trans hvalue) rfl ?_
    cases value <;> simp_all [Node.kind]

/-- A weight that is not given is missed below its font. -/
theorem misses_of_weight? {entries : List (Node × Node)} (h : LeadsTo path node (.mapping entries))
    {weight : String} (hnone : weight? key entries weight = .ok none) :
    Misses node (path ++ [.entry (.string weight)]) := by
  refine .after h (ConfigSection.misses_of_lookup rfl (fun value hvalue => ?_) [])
  rw [weight?, hvalue] at hnone
  cases value with
  | null => rfl
  | _ => cases hnone

/-- The font of a stylesheet stands at the path that its key spells. -/
theorem pointsInto_font (hkey : SpellsKey path key) (h : LeadsTo path node target) :
    PointsInto node (font key target) := by
  cases target with
  | string name => exact pointsInto_ok _
  | mapping entries =>
    refine (pointsInto_weight? hkey h "light").bind fun light hlight => ?_
    refine (pointsInto_weight? hkey h "regular").bind fun regular hregular => ?_
    cases light with
    | some light => cases regular <;> exact pointsInto_ok _
    | none =>
      cases regular with
      | some regular => exact pointsInto_ok _
      | none =>
        exact pointsInto_missing (hkey.append (spells_key "regular")) (misses_of_weight? h hregular)
  | _ => exact pointsInto_wrongKind hkey h rfl (by simp [Node.kind])

/-- The fonts of a list from an index on: as many fonts as stylesheets are left, or one that is too
many. -/
theorem pointsInto_fontsOfItems {items : List Node} {total : Nat}
    (hnames : LeadsTo [.entry (.string "names")] node (.sequence items)) {nodes : List Node} :
    ∀ {index : Nat} {sheets : List String} {fonts : List (String × SymbolFont)},
      items.drop index = nodes → index + sheets.length = total →
      PointsInto node (fontsOfItems items.length total index sheets nodes fonts) := by
  induction nodes with
  | nil =>
    intro index sheets fonts _ _
    rw [fontsOfItems]
    exact pointsInto_ok fonts
  | cons child nodes ih =>
    intro index sheets fonts hnodes htotal
    have hchild : items[index]? = some child := by
      rw [← List.head?_drop, hnodes, List.head?_cons]
    have hitem : LeadsTo [.item index] (.sequence items) child := .item hchild (.here child)
    have hkey : SpellsKey [.entry (.string "names"), .item index] ["names", natText index] :=
      (spells_key "names").append (spells_index index)
    cases sheets with
    | nil =>
      obtain rfl : index = total := htotal
      exact pointsInto_wrongType hkey (.fonts hnames hchild)
    | cons sheet sheets =>
      rw [fontsOfItems]
      split
      · next e he => exact (pointsInto_font hkey (hnames.trans hitem)).of_error he
      · refine ih ?_ ?_
        · rw [← List.tail_drop, hnodes, List.tail_cons]
        · rw [← htotal, List.length_cons]
          omega

/-- The fonts of a mapping, whose keys have to be strings. -/
theorem pointsInto_fontsOfEntries {all entries : List (Node × Node)}
    (hnames : LeadsTo [.entry (.string "names")] node (.mapping all)) (h : entries ⊆ all)
    (fonts : List (String × SymbolFont)) : PointsInto node (fontsOfEntries entries fonts) := by
  induction entries generalizing fonts with
  | nil => exact pointsInto_ok _
  | cons entry entries ih =>
    obtain ⟨key, child⟩ := entry
    obtain ⟨hmem, hrest⟩ := List.cons_subset.1 h
    rw [fontsOfEntries]
    split
    · next hkey => exact pointsInto_wrongType (spells_key "names") (.key hnames rfl hmem hkey)
    · next sheet hkey =>
      have hchild : LeadsTo [.entry key] (.mapping all) child := .entry rfl hmem (.here child)
      have hspells : SpellsKey [.entry key] [sheet] := congrArg (fun text => [text]) hkey
      split
      · next e he =>
        exact (pointsInto_font ((spells_key "names").append hspells)
          (hnames.trans hchild)).of_error he
      · exact ih hrest _

/-- Fonts are read from a sequence of names or from a mapping of weights. -/
theorem pointsInto_fontsOfNode (sheets : List String)
    (h : LeadsTo [.entry (.string "names")] node target) :
    PointsInto node (fontsOfNode sheets target) := by
  cases target with
  | string name => exact pointsInto_ok _
  | sequence items => exact pointsInto_fontsOfItems h rfl (Nat.zero_add _)
  | mapping entries => exact pointsInto_fontsOfEntries h (List.Subset.refl _) []
  | _ => exact pointsInto_wrongKind (spells_key "names") h rfl (by simp [Node.kind])

include hs

/-- A symbol font points into its section. -/
theorem pointsInto_read (sheets : List String) :
    PointsInto node (SymbolFontConfig.read sheets s) := by
  refine (s.pointsInto_path? hs).bind fun inputDir _ => ?_
  refine (s.pointsInto_strings? hs).bind fun inputs hinputs => ?_
  refine (s.pointsInto_read? hs fun inner => pointsInto_outputConfig rfl).bind
    fun output houtput => ?_
  split
  · next hmissing =>
    obtain ⟨-, rfl⟩ : _ ∧ output = none := by simpa using hmissing
    exact pointsInto_missing (spells_key "output")
      (ConfigSection.misses_of_get? hs (ConfigSection.get?_of_read? houtput))
  · split
    · next hmissing =>
      have hempty : inputs.getD [] = [] := by
        rw [Bool.and_eq_true, List.isEmpty_iff, List.map_eq_nil_iff] at hmissing
        exact hmissing.1
      exact pointsInto_missing (spells_key "inputs")
        (ConfigSection.misses_of_strings? hs hinputs hempty)
    · match hnames : s.get? "names" with
      | none =>
        exact pointsInto_missing (spells_key "names") (ConfigSection.misses_of_get? hs hnames)
      | some names =>
        exact (pointsInto_fontsOfNode sheets (ConfigSection.leads_of_get? hs hnames)).bind
          fun _ _ => pointsInto_ok _

end SymbolFontConfig

/-! ## The whole -/

namespace Config

/-- The names of text styles point into the configuration. -/
theorem pointsInto_typographyOf : PointsInto node (typographyOf s) := by
  rw [typographyOf]
  split
  · next entries hget =>
    intro e he
    obtain ⟨entry, hmem, he⟩ := exists_of_mapM_eq_error he
    rw [styleKey] at he
    split at he
    · cases he
    · next hkey =>
      exact pointsInto_wrongType (α := String) (spells_key "styles")
        (.key (ConfigSection.leads_of_get? hs hget) rfl hmem hkey) e he
  · exact (s.pointsInto_strings? hs).map

/-- The names of stylesheets point into the configuration. -/
theorem pointsInto_namesOf (inputs : List String) {names? : Option (List String)}
    (h : s.strings? "names" = .ok names?) : PointsInto node (namesOf inputs names?) := by
  cases names? with
  | none => exact pointsInto_ok _
  | some names =>
    rw [namesOf]
    split
    · exact pointsInto_ok names
    · next hne =>
      obtain ⟨value, hget, hcount⟩ := ConfigSection.exists_of_strings? h
      exact pointsInto_wrongType (spells_key "names")
        (.names (ConfigSection.leads_of_get? hs hget) hcount hne)

/-- The whole configuration points into its mapping. -/
theorem pointsInto_ofSection : PointsInto node (ofSection s) := by
  refine (s.pointsInto_read? hs fun inner => pointsInto_frameworkConfig rfl).bind fun _ _ => ?_
  refine (s.pointsInto_path? hs).bind fun inputDir _ => ?_
  refine (s.pointsInto_strings hs).bind fun inputs _ => ?_
  refine (s.pointsInto_strings? hs).bind fun names? hnames => ?_
  refine (pointsInto_namesOf hs _ hnames).bind fun names _ => ?_
  refine (s.pointsInto_read? hs fun inner =>
    SymbolFontConfig.pointsInto_read rfl names).bind fun _ _ => ?_
  refine (s.pointsInto_read? hs fun inner => pointsInto_symbolAssetConfig rfl).bind fun _ _ => ?_
  refine (s.pointsInto_read? hs fun inner => pointsInto_typographyOf rfl).bind fun _ _ => ?_
  refine (s.pointsInto_section? hs).bind fun output? houtput => ?_
  cases output? with
  | none =>
    exact pointsInto_missing ((spells_key "output").append (spells_key "path"))
      (ConfigSection.misses_of_get? hs (ConfigSection.get?_of_section? houtput))
  | some output =>
    exact (s.pointsInto_inSection hs houtput (pointsInto_outputConfig rfl)).bind fun _ _ =>
      (s.pointsInto_flag hs false).bind fun _ _ => (s.pointsInto_string? hs).bind fun _ _ =>
      (s.pointsInto_string? hs).bind fun _ _ => (s.pointsInto_flag hs false).bind fun _ _ =>
      (s.pointsInto_flag hs true).bind fun _ _ => (s.pointsInto_flag hs false).bind fun _ _ =>
      (s.pointsInto_path? hs).bind fun _ _ => pointsInto_ok _

end Config

end Sections

namespace Config

/-- A key is written with the name of the section at the top in front. -/
theorem keyText_rootKey (texts : List String) : ConfigError.keyText (rootKey :: texts) =
    if texts = [] then "stylesheet" else "stylesheet." ++ ".".intercalate texts := by
  cases texts with
  | nil => rfl
  | cons text texts =>
    rw [if_neg (List.cons_ne_nil _ _), ConfigError.keyText, String.intercalate_cons_cons]
    rfl

/-- A configuration that is not read is no YAML document, or its error is that of an entry. Then the
key of the error is `stylesheet`, alone or with a path behind it. From the root of the document the
path of a missing entry meets an entry that is absent or null, or ends at an empty list; the path of
an entry of the wrong type comes to what was found. -/
theorem parse_error_points [Yaml.Parser] {dir source : String} {e : ConfigError}
    (h : parse dir source = .error e) :
    (e = .notYaml ∧ Yaml.Parser.parse? source = none) ∨
      ∃ root path texts, Yaml.Parser.parse? source = some root ∧ SpellsKey path texts ∧
        (ConfigError.keyText (rootKey :: texts) =
          if texts = [] then "stylesheet" else "stylesheet." ++ ".".intercalate texts) ∧
        ((e = .missing (rootKey :: texts) ∧ Misses root path) ∨
          ∃ expected found,
            e = .wrongType (rootKey :: texts) expected found ∧
              Blames root path expected found) := by
  rw [parse] at h
  split at h
  · next hsource =>
    cases h
    exact .inl ⟨rfl, hsource⟩
  · next root hsource =>
    have hroot : ∃ r : ConfigResult Config, PointsInto root r ∧ inSection rootKey r = .error e := by
      split at h
      · next entries hentries => exact ⟨_, pointsInto_ofSection (s := ⟨entries, dir⟩) hentries, h⟩
      · next hnone =>
        refine ⟨_, pointsInto_wrongKind spells_nil (.here root) rfl ?_, h⟩
        cases root <;> simp_all [Node.kind, Node.entries?, Node.untagged]
    obtain ⟨r, hpoints, hr⟩ := hroot
    cases r with
    | ok a => cases hr
    | error inner =>
      cases hr
      have hinner := hpoints inner rfl
      cases inner with
      | missing key =>
        obtain ⟨path, hspells, hmisses⟩ := hinner
        exact .inr ⟨root, path, key, hsource, hspells, keyText_rootKey key, .inl ⟨rfl, hmisses⟩⟩
      | wrongType key expected found =>
        obtain ⟨path, hspells, hblames⟩ := hinner
        exact .inr ⟨root, path, key, hsource, hspells, keyText_rootKey key,
          .inr ⟨expected, found, rfl, hblames⟩⟩
      | pathMissing _ => exact hinner.elim
      | unreadable _ _ => exact hinner.elim
      | notYaml => exact hinner.elim

/-- The link of the output of a symbol font is four sections deep. -/
def numberedProject : String :=
  "inputs: A\nsymbolsFont: \x7boutput: \x7blink: \x7bproject: 3\x7d\x7d\x7d\n"

/-- A number in the place of a project is blamed under all its keys. -/
theorem parse_numberedProject : ∃ e, parse "" numberedProject = .error e ∧
    e = .wrongType ["stylesheet", "symbolsFont", "output", "link", "project"] .string
      (.node .number) ∧ ∃ root path, Yaml.Parser.parse? numberedProject = some root ∧
        SpellsKey path ["symbolsFont", "output", "link", "project"] ∧
        Blames root path .string (.node .number) := by
  have h : parse "" numberedProject = .error (.wrongType
      ["stylesheet", "symbolsFont", "output", "link", "project"] .string (.node .number)) := by
    decide +kernel
  refine ⟨_, h, rfl, ?_⟩
  obtain ⟨⟨⟩, -⟩ | ⟨root, path, texts, hroot, hspells, -, ⟨⟨⟩, -⟩ | ⟨_, _, heq, hblames⟩⟩ :=
    parse_error_points h
  cases heq
  exact ⟨root, path, hroot, hspells, hblames⟩

end Config

end Appearance
