import Appearance.Color
import Appearance.Yaml.Node.Basic
import Appearance.Yaml.Tag

/-!
# What a plain scalar stands for

A plain scalar is null, a flag, an integer, a double or a string, tried in this order. Integers
may have a sign and a base. One that takes more than 64 bits but no more than 128 is refused; a
larger one is a double.

The order of the tests matters: a text such as `0x1F` is an integer, `007` is a string, `1e3` a
double, and `nan` without its point a string. Bases other than ten have a small letter and take a
sign before it. Infinite doubles are only those with the word for them, for a decimal too large to
be finite is a string. Only a plain scalar is tested; quotes make a string of every text. With a
tag of the language the kind is fixed and a text of another kind is refused (`Scalar.ofKind`), and
a tag that stays with the node is put around whatever the scalar is without it
(`Scalar.taggedNode`).
-/

namespace Appearance.Yaml

/-- An integer literal as it is classified by size. -/
inductive IntegerReading where
  | value (n : Int)
  /-- An integer of up to 128 bits that is out of range. -/
  | tooLarge
  deriving DecidableEq

namespace Scalar

/-- The words for null; the empty scalar is one of them. -/
def isNullWord (s : String) : Bool := ["", "~", "null", "Null", "NULL"].contains s

/-- The flag of a word. Words such as `yes` and `on` are no flags. -/
def boolWord? (s : String) : Option Bool :=
  if ["true", "True", "TRUE"].contains s then some true
  else if ["false", "False", "FALSE"].contains s then some false
  else none

/-- The number that digits of a base write; at least one digit, and nothing else. -/
def digitsIn? (base : Nat) (cs : List Char) : Option Nat := do
  let ds ← Color.hexDigits? cs
  if ds.isEmpty || ds.any (base ≤ ·) then none
  else return ds.foldl (fun n d => base * n + d) 0

/-- Two or more decimal digits of which the first is zero, after an optional sign; such a scalar is
a string. -/
def hasLeadingZero (cs : List Char) : Bool :=
  match (splitSign cs).2 with
  | '0' :: d :: ds => d.isDigit && ds.all Char.isDigit
  | _ => false

/-- The magnitude of an integer without its sign. -/
def magnitude? : List Char → Option Nat
  | '0' :: 'x' :: ds => digitsIn? 16 ds
  | '0' :: 'o' :: ds => digitsIn? 8 ds
  | '0' :: 'b' :: ds => digitsIn? 2 ds
  | ds => digitsIn? 10 ds

/-- An integer without regard to its size. -/
def integer? (cs : List Char) : Option Int :=
  if hasLeadingZero cs then none
  else
    let (negative, ds) := splitSign cs
    (magnitude? ds).map fun n => if negative then -(n : Int) else n

/-- An integer of at most 128 bits. -/
def readInteger? (cs : List Char) : Option IntegerReading := do
  let n ← integer? cs
  if -pow2 63 ≤ n ∧ n < pow2 64 then return .value n
  else if -pow2 127 ≤ n ∧ n < pow2 128 then return .tooLarge
  else none

/-- A finite double, or one of the words for infinity and for a NaN. -/
def real? (s : String) : Option Double :=
  let unsigned :=
    match s.toList with
    | '+' :: cs => cs
    | cs => cs
  if s.toList.head? == some '+' && unsigned.head?.any fun c => c == '+' || c == '-' then none
  else
    let word := String.ofList unsigned
    if [".inf", ".Inf", ".INF"].contains word then some (.infinite false)
    else if ["-.inf", "-.Inf", "-.INF"].contains s then some (.infinite true)
    else if [".nan", ".NaN", ".NAN"].contains s then some .nan
    else (Double.read? word).filter Double.isFinite

/-- The node of a plain scalar. -/
def plainNode (s : String) : Option Node :=
  if isNullWord s then some .null
  else
    match boolWord? s with
    | some b => some (.bool b)
    | none =>
      match readInteger? s.toList with
      | some (.value n) => some (.number (.integer n))
      | some .tooLarge => none
      | none =>
        if hasLeadingZero s.toList then some (.string s)
        else
          match real? s with
          | some x => some (.number (.real x))
          | none => some (.string s)

/-- The node of a scalar without a tag. -/
def node (s : String) (plain : Bool) : Option Node :=
  if plain then plainNode s else some (.string s)

/-- The node of a scalar that must be of a kind. -/
def ofKind (kind : ScalarKind) (s : String) : Option Node :=
  match kind with
  | .null => if isNullWord s && s != "" then some .null else none
  | .bool => (boolWord? s).map .bool
  | .int =>
    match readInteger? s.toList with
    | some (.value n) => some (.number (.integer n))
    | _ => none
  | .float => (real? s).map fun x => .number (.real x)

/-- A node with its tag, if the tag stays with it. -/
def tagNode (tag : Option Tag) (node : Node) : Node :=
  match tag with
  | some (.own name) => .tagged name node
  | _ => node

/-- The node of a scalar with an optional tag. A tag of the document's own is put around the node,
and the single `!` is one of these: it does not make a string of the scalar. -/
def taggedNode (tag : Option Tag) (s : String) (plain : Bool) : Option Node :=
  match tag with
  | none => node s plain
  | some (.own name) => (node s plain).map (.tagged name)
  | some .unreadable => node s plain
  | some (.scalar kind) => ofKind kind s
  | some .other => some (.string s)

end Scalar

end Appearance.Yaml
