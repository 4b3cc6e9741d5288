import Appearance.Proofs.Outcomes
import Appearance.Proofs.Printing
import Appearance.Value.OfNode
import Appearance.Yaml.Node.Scalar

/-!
# Keyframes as lists of fields

A keyframe is described by fields: labels with texts, and with lists of changes, which have fields
of their own. A `FrameSource` is such a description, with whatever labels and texts, and it has two
notations: a call in a string (`FrameSource.callNode`) and a mapping of plain scalars
(`FrameSource.node?`), which must have each label once.

`FrameSource.read` is what fields mean if each is found by its label. A mapping is read that way,
with the numbers of the document (`Value.toOption_keyFrameOfNode`).

Labels and texts are those of the source and may be anything; whether a label is known and a text a
number is for the two readers to decide. The mapping notation needs distinct labels, for a document
with a repeated key is refused, and the call notation does not. Both are compared with
`FrameSource.read`, which takes the reader of numbers as an argument, since that is where they
differ: a value text reads dimensions and a document reads its own numbers.
-/

namespace Appearance

open Appearance.Text
open Appearance.Yaml (Node)

/-! ## Fields -/

/-- A word of a value text. -/
abbrev Word := { word : String // Token.IsWord word.toList }

/-- A change of a keyframe: labels with texts. -/
abbrev ChangeSource := List (Word × Word)

/-- What stands behind a label of a keyframe. -/
inductive FrameField where
  | text (text : Word)
  | changes (items : List ChangeSource)

/-- A keyframe: labels with what stands behind them. -/
abbrev FrameSource := List (Word × FrameField)

/-- What stands behind the first field of a label. -/
def fieldOf {α : Type} (label : String) (fields : List (Word × α)) : Option α :=
  (fields.find? fun f => f.1.1 == label).map Prod.snd

/-- The labels are pairwise distinct. -/
def LabelsNodup {α : Type} (fields : List (Word × α)) : Prop := (fields.map Prod.fst).Nodup

instance {α : Type} (fields : List (Word × α)) : Decidable (LabelsNodup fields) :=
  inferInstanceAs (Decidable (List.Nodup _))

section Fields

variable {α : Type} {label : String} {f : Word × α} {fields : List (Word × α)} {a : α}

/-- The first field of a label is the one that is found. -/
theorem fieldOf_cons (label : String) (f : Word × α) (fields : List (Word × α)) :
    fieldOf label (f :: fields) = if f.1.1 = label then some f.2 else fieldOf label fields := by
  split
  · next h =>
    rw [fieldOf, List.find?_cons_of_pos (by simpa using h)]
    rfl
  · next h =>
    rw [fieldOf, List.find?_cons_of_neg (by simpa using h)]
    rfl

theorem fieldOf_eq_none (h : ∀ f ∈ fields, f.1.1 ≠ label) : fieldOf label fields = none := by
  rw [fieldOf, List.find?_eq_none.2 fun f hf => by simpa using h f hf]
  rfl

theorem exists_mem_of_fieldOf (h : fieldOf label fields = some a) :
    ∃ f ∈ fields, f.1.1 = label ∧ f.2 = a := by
  obtain ⟨f, hf, rfl⟩ := Option.map_eq_some_iff.1 h
  exact ⟨f, List.mem_of_find?_eq_some hf, by simpa using List.find?_some hf, rfl⟩

theorem labelsNodup_cons :
    LabelsNodup (f :: fields) ↔ (∀ g ∈ fields, g.1.1 ≠ f.1.1) ∧ LabelsNodup fields := by
  rw [LabelsNodup, List.map_cons, List.nodup_cons, List.mem_map]
  refine and_congr_left fun _ => ⟨fun h g hg heq => h ⟨g, hg, Subtype.ext heq⟩, ?_⟩
  rintro h ⟨g, hg, heq⟩
  exact h g hg (congrArg Subtype.val heq)

/-- Where labels are distinct each field is the first of its label. -/
theorem fieldOf_of_mem (h : LabelsNodup fields) (hf : f ∈ fields) :
    fieldOf f.1.1 fields = some f.2 := by
  induction fields with
  | nil => cases hf
  | cons g fields ih =>
    obtain ⟨hne, hrest⟩ := labelsNodup_cons.1 h
    rcases List.mem_cons.1 hf with rfl | hf
    · rw [fieldOf_cons, if_pos rfl]
    · rw [fieldOf_cons, if_neg (hne f hf).symm]
      exact ih hrest hf

end Fields

/-! ## The two notations -/

namespace ChangeSource

/-- The labels of a change. -/
def labels : List String := ["type", "from", "to"]

/-- The labels of a change behind which numbers stand. -/
def numberLabels : List String := ["from", "to"]

theorem mem_labels {label : String} :
    label ∈ labels ↔ label = "type" ∨ label = "from" ∨ label = "to" := by
  simp [labels]

theorem mem_numberLabels {label : String} :
    label ∈ numberLabels ↔ label = "from" ∨ label = "to" := by
  simp [numberLabels]

def argument (f : Word × Word) : Argument := .mk (some f.1.1) (.word f.2.1) f.2.1

/-- The change as a call. -/
def call (c : ChangeSource) : Expr := .call "animationValue" (c.map argument)

end ChangeSource

/-- The mapping of fields, if each label stands there once and each value is a node. -/
def mappingNode? {α : Type} (node? : α → Option Node) (fields : List (Word × α)) : Option Node :=
  if LabelsNodup fields then
    (fields.mapM fun f => (node? f.2).map fun n => (Node.string f.1.1, n)).map .mapping
  else none

namespace ChangeSource

/-- The change as a mapping. -/
def node? (c : ChangeSource) : Option Node :=
  mappingNode? (fun text : Word => Yaml.Scalar.plainNode text.1) c

end ChangeSource

namespace FrameField

def expr : FrameField → Expr
  | text word => .word word.1
  | changes items => .list (items.map ChangeSource.call)

def node? : FrameField → Option Node
  | text word => Yaml.Scalar.plainNode word.1
  | changes items => (items.mapM ChangeSource.node?).map .sequence

end FrameField

namespace FrameSource

/-- The labels of a keyframe behind which numbers stand. -/
def numberLabels : List String := ["relativeStartTime", "relativeDuration"]

/-- The labels of a keyframe. -/
def labels : List String := numberLabels ++ ["animationValues"]

theorem mem_numberLabels {label : String} :
    label ∈ numberLabels ↔ label = "relativeStartTime" ∨ label = "relativeDuration" := by
  simp [numberLabels]

theorem mem_labels {label : String} :
    label ∈ labels ↔
      label = "relativeStartTime" ∨ label = "relativeDuration" ∨ label = "animationValues" := by
  simp [labels, numberLabels]

def argument (f : Word × FrameField) : Argument := .mk (some f.1.1) f.2.expr f.2.expr.print

/-- The keyframe as a call. -/
def call (f : FrameSource) : Expr := .call "keyFrame" (f.map argument)

/-- The string with the keyframe as a call. -/
def callNode (f : FrameSource) : Node := .string f.call.print

/-- The keyframe as a mapping. -/
def node? (f : FrameSource) : Option Node := mappingNode? FrameField.node? f

end FrameSource

/-! ## What fields mean -/

namespace ChangeSource

/-- The change that fields describe, each found by its label. A start that is no number counts as
missing. -/
def read (number : String → Option Double) (c : ChangeSource) : Option AnimationValue := do
  let property ← (fieldOf "type" c).bind fun text => Animatable.ofName? text.1
  let finish ← (fieldOf "to" c).bind fun text => number text.1
  return ⟨property, (fieldOf "from" c).bind fun text => number text.1, finish⟩

end ChangeSource

namespace FrameField

/-- The number of a field that is a text. -/
def number? (number : String → Option Double) : FrameField → Option Double
  | text word => number word.1
  | changes _ => none

def changes? (number : String → Option Double) : FrameField → Option (List AnimationValue)
  | text _ => none
  | changes items => items.mapM (ChangeSource.read number)

end FrameField

namespace FrameSource

/-- The keyframe that fields describe, each found by its label. -/
def read (number : String → Option Double) (f : FrameSource) : Option KeyFrame := do
  let start ← (fieldOf "relativeStartTime" f).mapM (FrameField.number? number)
  let duration ← (fieldOf "relativeDuration" f).mapM (FrameField.number? number)
  let changes ← (fieldOf "animationValues" f).mapM (FrameField.changes? number)
  return ⟨start.getD 0, duration, changes.getD []⟩

end FrameSource

/-! ## Reading a mapping -/

/-- The number that a plain scalar is. -/
def Yaml.Scalar.number? (text : String) : Option Double := (plainNode text).bind Node.asDouble?

section Mappings

variable {α : Type} {node? : α → Option Node} {fields : List (Word × α)}

/-- A field is looked up in the mapping where it is found among the fields. -/
theorem rel_lookup_of_mapM {entries : List (Node × Node)}
    (h : fields.mapM (fun f => (node? f.2).map fun n => (Node.string f.1.1, n)) = some entries)
    (label : String) :
    Option.Rel (fun a n => node? a = some n) (fieldOf label fields)
      (Node.lookup label entries) := by
  induction fields generalizing entries with
  | nil =>
    cases h
    exact .none
  | cons f fields ih =>
    rw [List.mapM_cons] at h
    obtain ⟨e, he, h⟩ := Option.bind_eq_some_iff.1 h
    obtain ⟨rest, hrest, h⟩ := Option.bind_eq_some_iff.1 h
    cases h
    obtain ⟨n, hn, rfl⟩ := Option.map_eq_some_iff.1 he
    rw [Node.lookup, fieldOf_cons]
    split
    · exact .some hn
    · exact ih hrest

/-- A mapping of fields has each label once, and by its keys the nodes of the fields are found. -/
theorem exists_entries_of_mappingNode? {n : Node} (h : mappingNode? node? fields = some n) :
    LabelsNodup fields ∧ ∃ entries, n = .mapping entries ∧
      ∀ label, Option.Rel (fun a n => node? a = some n) (fieldOf label fields)
        (Node.lookup label entries) := by
  unfold mappingNode? at h
  split at h
  · next hnodup =>
    obtain ⟨entries, hentries, rfl⟩ := Option.map_eq_some_iff.1 h
    exact ⟨hnodup, entries, rfl, rel_lookup_of_mapM hentries⟩
  · cases h

end Mappings

namespace Yaml.Scalar

/-- The text that a plain scalar is. -/
def text? (text : String) : Option String := (plainNode text).bind Node.asText?

theorem eq_of_text? {text s : String} (h : text? text = some s) : s = text := by
  unfold text? plainNode at h
  repeat' split at h
  all_goals cases h
  all_goals rfl

end Yaml.Scalar

namespace Animatable

theorem eq_name_of_ofName? {name : String} {p : Animatable} (h : ofName? name = some p) :
    name = p.name := by
  unfold ofName? at h
  have hp := List.find?_some h
  exact (eq_of_beq hp).symm

theorem text?_name (p : Animatable) : Yaml.Scalar.text? p.name = some p.name := by
  cases p <;> decide +kernel

/-- The names of animatable properties are strings of a document, and no other string is one. -/
theorem bind_ofName?_text? (text : String) :
    (Yaml.Scalar.text? text).bind ofName? = ofName? text := by
  cases hname : ofName? text with
  | some p =>
    obtain rfl := eq_name_of_ofName? hname
    rw [text?_name, Option.bind_some, hname]
  | none =>
    cases htext : Yaml.Scalar.text? text with
    | none => rfl
    | some s => rw [Yaml.Scalar.eq_of_text? htext, Option.bind_some, hname]

end Animatable

theorem Yaml.Scalar.plainNode_ne_sequence (text : String) (items : List Node) :
    plainNode text ≠ some (.sequence items) := by
  intro h
  unfold plainNode at h
  repeat' split at h
  all_goals cases h

/-- A number is a number of the document. -/
theorem Yaml.Scalar.exists_of_number? {text : String} {x : Double} (h : number? text = some x) :
    ∃ m, plainNode text = some (.number m) ∧ x = m.toDouble := by
  obtain ⟨n, hn, hx⟩ := Option.bind_eq_some_iff.1 h
  have hnumber : ∃ m, n = .number m ∧ x = m.toDouble := by
    unfold plainNode at hn
    repeat' split at hn
    all_goals cases hn
    all_goals first
      | exact ⟨_, rfl, (Option.some.inj hx).symm⟩
      | cases hx
  obtain ⟨m, rfl, hm⟩ := hnumber
  exact ⟨m, hn, hm⟩

namespace Value

open Yaml.Scalar (number?)

/-- A change needs a property and an end. -/
theorem toOption_changeOfFields {source : String} {property : Option String}
    {start finish : Option Double} :
    (changeOfFields source ⟨property, start, finish⟩).toOption = (do
      let property ← property.bind Animatable.ofName?
      let finish ← finish
      return ⟨property, start, finish⟩) := by
  cases property with
  | none => rfl
  | some name =>
    unfold changeOfFields AnimationValue.make
    cases hname : Animatable.ofName? name with
    | none => simp [hname, fail, Except.toOption]
    | some p => cases finish <;> simp [hname, fail, Except.toOption]

/-- A change in mapping form is read by its labels. -/
theorem toOption_changeOfNode {c : ChangeSource} {n : Node} (h : c.node? = some n)
    (source : String) : (changeOfNode source n).toOption = c.read number? := by
  obtain ⟨-, entries, rfl, hrel⟩ := exists_entries_of_mappingNode? h
  have hget : ∀ label, (Node.mapping entries).get? label =
      (fieldOf label c).bind fun text => Yaml.Scalar.plainNode text.1 := fun label => by
    have hlookup : (Node.mapping entries).get? label = Node.lookup label entries := rfl
    have hlabel := hrel label
    rw [hlookup]
    generalize Node.lookup label entries = n, fieldOf label c = a at hlabel ⊢
    cases hlabel with
    | none => rfl
    | some hn => exact hn.symm
  have htype : ((fieldOf "type" c).bind fun text => Animatable.ofName? text.1) =
      (((fieldOf "type" c).bind fun text => Yaml.Scalar.plainNode text.1).bind Node.asText?).bind
        Animatable.ofName? := by
    rw [Option.bind_assoc, Option.bind_assoc]
    refine Option.bind_congr fun text _ => ?_
    rw [← Animatable.bind_ofName?_text?, Yaml.Scalar.text?, Option.bind_assoc]
  rw [changeOfNode, toOption_changeOfFields, hget, hget, hget, ChangeSource.read, htype]
  simp only [number?, Option.bind_assoc]

/-- A number is read from the node of its field, if the field is there. -/
theorem toOption_numberField {f : FrameSource} {entries : List (Node × Node)} {label : String}
    (h : Option.Rel (fun a n => FrameField.node? a = some n) (fieldOf label f)
      (Node.lookup label entries)) (source : String) :
    (numberField source label entries).toOption =
      (fieldOf label f).mapM (FrameField.number? number?) := by
  unfold numberField
  generalize Node.lookup label entries = n, fieldOf label f = a at h ⊢
  cases h with
  | none => rfl
  | @some a n hn =>
    have hnumber : n.asDouble? = a.number? number? := by
      cases a with
      | text word =>
        have hword : Yaml.Scalar.plainNode word.1 = some n := hn
        rw [FrameField.number?, number?, hword]
        rfl
      | changes items =>
        obtain ⟨nodes, -, rfl⟩ := Option.map_eq_some_iff.1 hn
        rfl
    rw [Option.mapM_some, ← hnumber]
    dsimp only
    cases n.asDouble? <;> rfl

/-- Changes are read from the node of their field, if the field is there. -/
theorem toOption_changesField {f : FrameSource} {entries : List (Node × Node)}
    (h : Option.Rel (fun a n => FrameField.node? a = some n) (fieldOf "animationValues" f)
      (Node.lookup "animationValues" entries)) (source : String) :
    (changesField source entries).toOption =
      ((fieldOf "animationValues" f).mapM (FrameField.changes? number?)).map (·.getD []) := by
  unfold changesField
  generalize Node.lookup "animationValues" entries = n, fieldOf "animationValues" f = a at h ⊢
  cases h with
  | none => rfl
  | @some a n hn =>
    cases a with
    | text word =>
      have hword : Yaml.Scalar.plainNode word.1 = some n := hn
      cases n with
      | sequence items => exact absurd hword (Yaml.Scalar.plainNode_ne_sequence _ _)
      | _ => rfl
    | changes items =>
      obtain ⟨nodes, hnodes, rfl⟩ := Option.map_eq_some_iff.1 hn
      have hread : nodes.mapM (fun n => (changeOfNode source n).toOption) =
          items.mapM (ChangeSource.read number?) :=
        mapM_of_mapM hnodes fun c n hc => toOption_changeOfNode hc source
      dsimp only
      rw [toOption_mapM, hread, Option.mapM_some, FrameField.changes?]
      cases items.mapM (ChangeSource.read number?) <;> rfl

/-- A keyframe in mapping form is read by its labels, with the numbers of the document. -/
theorem toOption_keyFrameOfNode {f : FrameSource} {n : Node} (h : f.node? = some n) :
    (keyFrameOfNode n).toOption = f.read number? := by
  obtain ⟨-, entries, rfl, hrel⟩ := exists_entries_of_mappingNode? h
  rw [keyFrameOfNode, keyFrameOfEntries, toOption_bind, toOption_numberField (hrel _),
    FrameSource.read]
  refine Option.bind_congr fun start _ => ?_
  rw [toOption_bind, toOption_numberField (hrel _)]
  refine Option.bind_congr fun duration _ => ?_
  rw [toOption_bind, toOption_changesField (hrel _)]
  cases (fieldOf "animationValues" f).mapM (FrameField.changes? number?) <;> rfl

end Value

end Appearance
