import Appearance.Yaml.Tag
import Appearance.Yaml.Token.Stream

/-!
# Forms of documents

A `Form` is a node as it is written: the meaning of its tag is known, but a scalar is still a text
and an alias still points at an anchor. `readDocument` reads the form of the first document of a
token sequence by the grammar of block and flow collections.

An anchor takes a slot and an alias points at a slot. A name that is used again takes a new slot;
the next new name takes that slot over.

The grammar is a family of mutually recursive functions with a common number of steps, each of
which passes at least one token or hands over to a function that does, so `readingSteps` is enough
for every document. Failure is `none` and carries no place: what a malformed document is told is
decided by the caller. An anchored node is numbered when it begins and entered when it ends;
aliases are followed only after the whole document is read. Events are counted along the way
because the number of copies of a document is limited by them.
-/

namespace Appearance.Yaml

/-- A node as it is written. -/
inductive Form where
  | alias (slot : Nat)
  | scalar (tag : Option Tag) (text : String) (plain : Bool)
  | sequence (tag : Option Tag) (items : List Form)
  | mapping (tag : Option Tag) (entries : List (Form × Form))
  deriving Inhabited

/-- The empty scalar that stands where a node is left out. -/
def Form.omitted : Form := .scalar none "" true

/-- What has been seen of a document before a node. -/
structure Reading where
  /-- The slots of the names of anchors, each name once. -/
  names : List (String × Nat)
  /-- The slots with the numbers of the anchored nodes that took them, the latest first. -/
  slots : List (Nat × Nat)
  /-- The anchored nodes by their numbers, as far as they are read to the end. -/
  anchored : List (Nat × Form)
  /-- The prefixes of tag handles. -/
  handles : List (String × List UInt8)
  /-- The number of scalars, aliases, and starts and ends of collections. -/
  events : Nat

/-- What has been read, and the state and the tokens after it. -/
structure Step (α : Type) where
  result : α
  reading : Reading
  rest : List Token

namespace Reading

/-- Nothing is seen yet but handles. -/
def start (handles : List (String × List UInt8)) : Reading := ⟨[], [], [], handles, 0⟩

/-- Counts some events. -/
def count (r : Reading) (n : Nat) : Reading := { r with events := r.events + n }

/-- The number of the next anchored node. -/
def nextAnchored (r : Reading) : Nat := r.slots.length

/-- Gives the next anchored node a slot, if there is an anchor. -/
def openAnchor (r : Reading) (anchor : Option String) : Reading :=
  match anchor with
  | none => r
  | some name =>
    let slot := r.names.length
    { r with names := (name, slot) :: r.names.filter (·.1 != name)
             slots := (slot, r.nextAnchored) :: r.slots }

/-- Notes the form of an anchored node. -/
def closeAnchor (r : Reading) (anchor : Option String) (number : Nat) (form : Form) : Reading :=
  if anchor.isSome then { r with anchored := (number, form) :: r.anchored } else r

/-- The node that took a slot last. -/
def form? (r : Reading) (slot : Nat) : Option Form :=
  (r.slots.lookup slot).bind fun number => r.anchored.lookup number

/-- The meaning of a written tag; the handle must be known. -/
def resolve (r : Reading) (t : TagName) : Option Tag :=
  if t.handle = "" then some (Tag.ofBytes t.suffix)
  else (r.handles.lookup t.handle).map fun pre => Tag.ofBytes (pre ++ t.suffix)

end Reading

/-- The anchor and the tag of a node. -/
structure Properties where
  anchor : Option String
  tag : Option TagName

/-- The properties at the beginning of a node, in either order. -/
def takeProperties : List Token → Properties × List Token
  | .anchor a :: .tag t :: ts => (⟨some a, some t⟩, ts)
  | .tag t :: .anchor a :: ts => (⟨some a, some t⟩, ts)
  | .anchor a :: ts => (⟨some a, none⟩, ts)
  | .tag t :: ts => (⟨none, some t⟩, ts)
  | ts => (⟨none, none⟩, ts)

/-- The node is left out where a collection ends or its next part begins. -/
def omits (stops : List Token) : List Token → Bool
  | t :: _ => stops.contains t
  | [] => true

/-- An omitted node. -/
def omittedStep (r : Reading) (ts : List Token) : Step Form := ⟨.omitted, r.count 1, ts⟩

/-- A sequence with its start and its end. -/
def Step.sequence (tag : Option Tag) (s : Step (List Form)) : Step Form :=
  ⟨.sequence tag s.result, s.reading.count 2, s.rest⟩

/-- A mapping with its start and its end. -/
def Step.mapping (tag : Option Tag) (s : Step (List (Form × Form))) : Step Form :=
  ⟨.mapping tag s.result, s.reading.count 2, s.rest⟩

mutual

/-- Reads a node. `block` allows block collections and `indentless` a block sequence at the
indentation of its key. -/
def readNode (block indentless : Bool) : Nat → Reading → List Token → Option (Step Form)
  | 0, _, _ => none
  | fuel + 1, r, ts =>
    match ts with
    | .alias name :: rest =>
      (r.names.lookup name).map fun slot => ⟨.alias slot, r.count 1, rest⟩
    | _ =>
      let (p, rest) := takeProperties ts
      match p.tag.mapM r.resolve with
      | none => none
      | some tag =>
        (readContent block indentless fuel (r.openAnchor p.anchor) tag p.anchor.isSome rest).map
          fun s => ⟨s.result, s.reading.closeAnchor p.anchor r.nextAnchored s.result, s.rest⟩

/-- Reads a node behind its properties. -/
def readContent (block indentless : Bool) :
    Nat → Reading → Option Tag → Bool → List Token → Option (Step Form)
  | 0, _, _, _, _ => none
  | fuel + 1, r, tag, anchored, ts =>
    match ts with
    | .scalar text plain :: rest => some ⟨.scalar tag text plain, r.count 1, rest⟩
    | .flowSequenceStart :: rest => (readFlowItems true fuel r rest).map (Step.sequence tag)
    | .flowMappingStart :: rest => (readFlowEntries true fuel r rest).map (Step.mapping tag)
    | .blockEntry :: _ =>
      if indentless then (readDashes fuel r ts).map (Step.sequence tag)
      else readEmpty r tag anchored ts
    | .blockSequenceStart :: rest =>
      if block then (readBlockItems fuel r rest).map (Step.sequence tag)
      else readEmpty r tag anchored ts
    | .blockMappingStart :: rest =>
      if block then (readBlockEntries fuel r rest).map (Step.mapping tag)
      else readEmpty r tag anchored ts
    | _ => readEmpty r tag anchored ts

/-- A node with properties can be empty. -/
def readEmpty (r : Reading) (tag : Option Tag) (anchored : Bool) (ts : List Token) :
    Option (Step Form) :=
  if tag.isSome || anchored then some ⟨.scalar tag "" true, r.count 1, ts⟩ else none

/-- Reads the items of a block sequence up to its end. -/
def readBlockItems : Nat → Reading → List Token → Option (Step (List Form))
  | 0, _, _ => none
  | fuel + 1, r, ts =>
    match ts with
    | .blockEntry :: rest =>
      let item :=
        if omits [.blockEntry, .blockEnd] rest then some (omittedStep r rest)
        else readNode true false fuel r rest
      match item with
      | none => none
      | some s =>
        (readBlockItems fuel s.reading s.rest).map fun t =>
          ⟨s.result :: t.result, t.reading, t.rest⟩
    | .blockEnd :: rest => some ⟨[], r, rest⟩
    | _ => none

/-- Reads the items of a block sequence at the indentation of its key. -/
def readDashes : Nat → Reading → List Token → Option (Step (List Form))
  | 0, _, _ => none
  | fuel + 1, r, ts =>
    match ts with
    | .blockEntry :: rest =>
      let item :=
        if omits [.blockEntry, .key, .value, .blockEnd] rest then some (omittedStep r rest)
        else readNode true false fuel r rest
      match item with
      | none => none
      | some s =>
        (readDashes fuel s.reading s.rest).map fun t => ⟨s.result :: t.result, t.reading, t.rest⟩
    | _ => some ⟨[], r, ts⟩

/-- Reads the entries of a block mapping up to its end. -/
def readBlockEntries : Nat → Reading → List Token → Option (Step (List (Form × Form)))
  | 0, _, _ => none
  | fuel + 1, r, ts =>
    match ts with
    | .key :: rest =>
      let key :=
        if omits [.key, .value, .blockEnd] rest then some (omittedStep r rest)
        else readNode true true fuel r rest
      match key with
      | none => none
      | some k =>
        match readBlockValue fuel k.reading k.rest with
        | none => none
        | some v =>
          (readBlockEntries fuel v.reading v.rest).map fun t =>
            ⟨(k.result, v.result) :: t.result, t.reading, t.rest⟩
    | .blockEnd :: rest => some ⟨[], r, rest⟩
    | _ => none

/-- Reads the value of a block mapping entry. -/
def readBlockValue : Nat → Reading → List Token → Option (Step Form)
  | 0, _, _ => none
  | fuel + 1, r, ts =>
    match ts with
    | .value :: rest =>
      if omits [.key, .value, .blockEnd] rest then some (omittedStep r rest)
      else readNode true true fuel r rest
    | _ => some (omittedStep r ts)

/-- Reads the items of a flow sequence up to its end. -/
def readFlowItems (first : Bool) : Nat → Reading → List Token → Option (Step (List Form))
  | 0, _, _ => none
  | fuel + 1, r, ts =>
    match ts with
    | .flowSequenceEnd :: rest => some ⟨[], r, rest⟩
    | _ =>
      let ts :=
        match first, ts with
        | true, _ => some ts
        | false, .flowEntry :: rest => some rest
        | false, _ => none
      match ts with
      | none => none
      | some (.flowSequenceEnd :: rest) => some ⟨[], r, rest⟩
      | some ts =>
        match readFlowItem fuel r ts with
        | none => none
        | some s =>
          (readFlowItems false fuel s.reading s.rest).map fun t =>
            ⟨s.result :: t.result, t.reading, t.rest⟩

/-- Reads an item of a flow sequence, which can be a single entry of a mapping. A key that is left
out takes the token after the question mark with it. -/
def readFlowItem : Nat → Reading → List Token → Option (Step Form)
  | 0, _, _ => none
  | fuel + 1, r, ts =>
    match ts with
    | .key :: rest =>
      let key :=
        if omits [.value, .flowEntry, .flowSequenceEnd] rest then some (omittedStep r rest.tail)
        else readNode false false fuel r rest
      match key with
      | none => none
      | some k =>
        (readFlowValue .flowSequenceEnd fuel k.reading k.rest).map fun v =>
          Step.mapping none ⟨[(k.result, v.result)], v.reading, v.rest⟩
    | _ => readNode false false fuel r ts

/-- Reads the value of an entry inside brackets that `closing` ends. -/
def readFlowValue (closing : Token) : Nat → Reading → List Token → Option (Step Form)
  | 0, _, _ => none
  | fuel + 1, r, ts =>
    match ts with
    | .value :: rest =>
      if omits [.flowEntry, closing] rest then some (omittedStep r rest)
      else readNode false false fuel r rest
    | _ => some (omittedStep r ts)

/-- Reads the entries of a flow mapping up to its end. -/
def readFlowEntries (first : Bool) :
    Nat → Reading → List Token → Option (Step (List (Form × Form)))
  | 0, _, _ => none
  | fuel + 1, r, ts =>
    match ts with
    | .flowMappingEnd :: rest => some ⟨[], r, rest⟩
    | _ =>
      let ts :=
        match first, ts with
        | true, _ => some ts
        | false, .flowEntry :: rest => some rest
        | false, _ => none
      match ts with
      | none => none
      | some (.flowMappingEnd :: rest) => some ⟨[], r, rest⟩
      | some ts =>
        match readFlowEntry fuel r ts with
        | none => none
        | some s =>
          (readFlowEntries false fuel s.reading s.rest).map fun t =>
            ⟨s.result :: t.result, t.reading, t.rest⟩

/-- Reads an entry of a flow mapping: a key with a value, or a node whose value is left out. -/
def readFlowEntry : Nat → Reading → List Token → Option (Step (Form × Form))
  | 0, _, _ => none
  | fuel + 1, r, ts =>
    match ts with
    | .key :: rest =>
      let key :=
        if omits [.value, .flowEntry, .flowMappingEnd] rest then some (omittedStep r rest)
        else readNode false false fuel r rest
      match key with
      | none => none
      | some k =>
        (readFlowValue .flowMappingEnd fuel k.reading k.rest).map fun v =>
          ⟨(k.result, v.result), v.reading, v.rest⟩
    | _ =>
      (readNode false false fuel r ts).map fun s =>
        ⟨(s.result, .omitted), s.reading.count 1, s.rest⟩

end

/-- The handles that every document knows. -/
def coreHandles : List (String × List UInt8) :=
  [("!", textBytes "!"), ("!!", textBytes coreTagPrefix)]

/-- The directives of a document: the handles that it adds, and the tokens after them. Each version
and each handle is given once, and the version is 1.1 or 1.2. -/
def readDirectives (version : Bool) (handles : List (String × List UInt8)) :
    List Token → Option (List (String × List UInt8) × List Token)
  | .versionDirective major minor :: ts =>
    if version || major != 1 || (minor != 1 && minor != 2) then none
    else readDirectives true handles ts
  | .tagDirective handle pre :: ts =>
    if (handles.lookup handle).isSome then none
    else readDirectives version ((handle, pre) :: handles) ts
  | ts => some (handles, ts)

/-- A document can be empty between its markers. -/
def beginsNothing : List Token → Bool
  | .documentStart :: _ => true
  | .documentEnd :: _ => true
  | .versionDirective .. :: _ => true
  | .tagDirective .. :: _ => true
  | .streamEnd :: _ => true
  | _ => false

/-- The steps that reading takes at most: each token is passed by few nested calls. -/
def readingSteps (ts : List Token) : Nat := 4 * ts.length + 8

/-- The root of a document with its start marker. -/
def readMarkedDocument (ts : List Token) : Option (Step Form) :=
  match readDirectives false [] ts with
  | some (handles, .documentStart :: rest) =>
    let r := Reading.start (handles ++ coreHandles)
    if beginsNothing rest then some (omittedStep r rest)
    else readNode true false (readingSteps rest) r rest
  | _ => none

/-- The root of the first document. -/
def readDocument (ts : List Token) : Option (Step Form) :=
  match ts with
  | [.streamEnd] => some (omittedStep (.start []) ts)
  | .versionDirective .. :: _ => readMarkedDocument ts
  | .tagDirective .. :: _ => readMarkedDocument ts
  | .documentStart :: _ => readMarkedDocument ts
  | _ => readNode true false (readingSteps ts) (.start coreHandles) ts

end Appearance.Yaml
