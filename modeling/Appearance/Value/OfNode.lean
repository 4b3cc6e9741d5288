import Appearance.Value.Read
import Appearance.Yaml.Node.Text

/-!
# Values of nodes

Scalars of a stylesheet source become values directly or through their text; a sequence becomes an
array and a mapping a conditional value. Keyframes have a mapping form of their own.

The kind of a node decides: flags and numbers of the document are values as they are, a string is
read as the text of a value, a sequence or mapping is read item by item. Null and nodes with a tag
have no value. The branches of a mapping must not be mappings again, while the items of a sequence
may be anything, mappings included. In the mapping form of a keyframe only the fields for times
must be numbers; of a change each field that is not of its kind counts as missing.
-/

namespace Appearance.Value

open Appearance.Yaml (Node)

/-- The failure of a node that cannot be a value. -/
def unsupported {α : Type} (n : Node) : Except ValueError α := .error (.unsupported n.display)

/-- The value of a number; one that is too large for an integer is a float. -/
def ofYamlNumber (n : Yaml.Number) : Value :=
  match n.toInt? with
  | some i => .int i
  | none => .float n.toDouble

/-- The condition that a key of a mapping writes. -/
def conditionOfKey (key : Node) : Except ValueError String :=
  match key.scalarText? with
  | some text => .ok text
  | none => unsupported key

mutual

/-- The value of a node. -/
def ofNode (ctx : ValueContext) : Node → Except ValueError Value
  | .bool b => .ok (.bool b)
  | .number n => .ok (ofYamlNumber n)
  | .string text => parse ctx text
  | .sequence items =>
    match ofNodes ctx items with
    | .ok values => .ok (.array values)
    | .error e => .error e
  | .mapping entries =>
    match ofEntries ctx entries with
    | .ok branches => .ok (.ofBranches branches)
    | .error e => .error e
  | .null => unsupported .null
  | .tagged tag node => unsupported (.tagged tag node)

/-- The values of the items of a sequence. -/
def ofNodes (ctx : ValueContext) : List Node → Except ValueError (List Value)
  | [] => .ok []
  | n :: ns =>
    match ofNode ctx n with
    | .error e => .error e
    | .ok v =>
      match ofNodes ctx ns with
      | .ok vs => .ok (v :: vs)
      | .error e => .error e

/-- The branches of a mapping. A branch cannot be a mapping itself. -/
def ofEntries (ctx : ValueContext) :
    List (Node × Node) → Except ValueError (List (Condition × Value))
  | [] => .ok []
  | (key, node) :: rest =>
    match conditionOfKey key with
    | .error e => .error e
    | .ok text =>
      if node.isMapping then unsupported node
      else
        match Condition.parse text with
        | .error e => .error (.condition e)
        | .ok c =>
          match ofNode ctx node with
          | .error e => .error e
          | .ok v =>
            match ofEntries ctx rest with
            | .ok bs => .ok ((c, v) :: bs)
            | .error e => .error e

end

/-- A field of a keyframe that must be a number if it is there. -/
def numberField (source field : String) (entries : List (Node × Node)) :
    Except ValueError (Option Double) :=
  match Node.lookup field entries with
  | none => .ok none
  | some n =>
    match n.asDouble? with
    | some x => .ok (some x)
    | none => fail source (.fieldNotNumber field)

/-- A change in mapping form. Fields other than numbers count as missing. -/
def changeOfNode (source : String) (n : Node) : Except ValueError AnimationValue :=
  changeOfFields source
    ⟨(n.get? "type").bind Node.asText?, (n.get? "from").bind Node.asDouble?,
      (n.get? "to").bind Node.asDouble?⟩

/-- The changes of a keyframe in mapping form. -/
def changesField (source : String) (entries : List (Node × Node)) :
    Except ValueError (List AnimationValue) :=
  match Node.lookup "animationValues" entries with
  | none => .ok []
  | some (.sequence items) => items.mapM (changeOfNode source)
  | some _ => fail source .changesNotList

/-- A keyframe in mapping form; without a start it begins at zero. -/
def keyFrameOfEntries (source : String) (entries : List (Node × Node)) :
    Except ValueError KeyFrame := do
  let start ← numberField source "relativeStartTime" entries
  let duration ← numberField source "relativeDuration" entries
  let values ← changesField source entries
  return ⟨start.getD 0, duration, values⟩

/-- A keyframe: a call in a string, or a mapping. -/
def keyFrameOfNode (n : Node) : Except ValueError KeyFrame :=
  match n with
  | .string text =>
    match parse ⟨none, []⟩ text with
    | .ok (.keyFrame frame) => .ok frame
    | .ok _ => fail text .notKeyFrame
    | .error e => .error e
  | .mapping entries => keyFrameOfEntries n.display entries
  | _ => unsupported n

/-- A repeat count: the text of a scalar, or a value that is one. -/
def repeatCountOfNode (ctx : ValueContext) (n : Node) : Except ValueError RepeatCount :=
  match n.scalarText? with
  | none => unsupported n
  | some text =>
    match RepeatCount.parse text with
    | .ok c => .ok c
    | .error _ =>
      match ofNode ctx n with
      | .ok (.repeatCount c) => .ok c
      | .ok _ => fail text .notRepeatCount
      | .error e => .error e

end Appearance.Value
