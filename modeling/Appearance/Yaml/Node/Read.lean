import Appearance.Yaml.Form
import Appearance.Yaml.Node.Scalar

/-!
# Nodes of documents

`Node.parse` reads the single document of a text. The form of the document becomes a node: scalars
are read, and an alias becomes a copy of the node at its anchor. A mapping has no key twice.
Documents nested deeper than 128 levels are refused, copies included, and so are those that copy
too much.

Expanding is a recursion on the depth that is left, and going to an alias does not change it, so a
form that contains itself through aliases is refused by the depth like any other that is too deep.
The number of copies is counted down across the whole document, from a limit that grows with the
number of its events. An entry whose key was seen before makes the whole document malformed.
Nothing may follow the root but the end of the document.
-/

namespace Appearance.Yaml

/-- The form behind an alias, and how many copies may be made after that. -/
def Reading.follow (r : Reading) (form : Form) (copies : Nat) : Option (Form × Nat) :=
  match form with
  | .alias slot =>
    match copies with
    | 0 => none
    | copies + 1 => (r.form? slot).map fun form => (form, copies)
  | form => some (form, copies)

/-- How a form becomes a node; the number of copies that may be made is passed on. -/
abbrev Expansion := Form → Nat → Option (Node × Nat)

namespace Form

/-- The items of a sequence as nodes. -/
def itemNodes (expand : Expansion) : List Form → Nat → Option (List Node × Nat)
  | [], copies => some ([], copies)
  | form :: forms, copies => do
    let (node, copies) ← expand form copies
    let (nodes, copies) ← itemNodes expand forms copies
    return (node :: nodes, copies)

/-- The entries of a mapping as nodes, unless two have the same key; `done` are those before, the
latest first. -/
def entryNodes (expand : Expansion) :
    List (Node × Node) → List (Form × Form) → Nat → Option (List (Node × Node) × Nat)
  | done, [], copies => some (done.reverse, copies)
  | done, (keyForm, valueForm) :: rest, copies => do
    let (key, copies) ← expand keyForm copies
    if Node.hasKey key done then none
    else
      let (value, copies) ← expand valueForm copies
      entryNodes expand ((key, value) :: done) rest copies

/-- A form as a node in which collections are nested at most `depth` levels deep. -/
def node? (r : Reading) : Nat → Expansion
  | 0, form, copies =>
    match r.follow form copies with
    | some (.scalar tag text plain, copies) =>
      (Scalar.taggedNode tag text plain).map fun node => (node, copies)
    | _ => none
  | depth + 1, form, copies =>
    match r.follow form copies with
    | some (.scalar tag text plain, copies) =>
      (Scalar.taggedNode tag text plain).map fun node => (node, copies)
    | some (.sequence tag items, copies) =>
      (itemNodes (node? r depth) items copies).map fun (nodes, copies) =>
        (Scalar.tagNode tag (.sequence nodes), copies)
    | some (.mapping tag entries, copies) =>
      (entryNodes (node? r depth) [] entries copies).map fun (nodes, copies) =>
        (Scalar.tagNode tag (.mapping nodes), copies)
    | _ => none

end Form

/-- The levels to which collections may be nested. -/
def depthLimit : Nat := 128

/-- How many aliases a document may follow for each of its parts. -/
def copyLimit : Nat := 100

/-- The root node, if nothing but the end follows it. -/
def Step.root? (s : Step Form) : Option Node :=
  if s.rest.dropWhile (· == .documentEnd) = [.streamEnd] then
    (s.result.node? s.reading depthLimit (copyLimit * s.reading.events)).map (·.1)
  else none

/-- The root of the single document of a text; nothing if the text is malformed. -/
def Node.parse (source : String) : Option Node := do
  let tokens ← Token.scan source.toList
  let s ← readDocument tokens
  s.root?

/-- The reader of the program. -/
instance : Parser := ⟨Node.parse⟩

end Appearance.Yaml
