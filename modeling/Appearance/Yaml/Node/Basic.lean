import Appearance.Double.Layout
import Appearance.Double.Reading

/-!
# YAML nodes

A document is a tree of nodes. Mappings keep the order of their entries. Views such as
`Node.asText?` look through tags; a pattern on the node itself does not.

Numbers are integers of 64 bits with or without a sign, and doubles; the text of a double is the
shortest one that reads back, with a point or an exponent so that it stays a double. Keys are
compared by `Node.same`, which looks at mappings without regard to order, and a document that
repeats a key is refused where it is read.

`Yaml.Parser` is the seam between text and tree. Whatever reads a document takes a parser as an
instance argument, so statements about loading speak of trees and hold for every reader; the reader
of the program is given in `Yaml.Node.Read`.
-/

namespace Appearance.Yaml

/-- A number of a document: an integer between −2⁶³ and 2⁶⁴ − 1, or a double. -/
inductive Number where
  | integer (n : Int)
  | real (x : Double)
  deriving DecidableEq, Repr, Inhabited

/-- A node of a document. -/
inductive Node where
  | null
  | bool (b : Bool)
  | number (n : Number)
  | string (s : String)
  | sequence (items : List Node)
  | mapping (entries : List (Node × Node))
  | tagged (tag : String) (node : Node)
  deriving Repr, Inhabited

namespace Number

/-- The scientific exponents below and above which a double is written with an exponent. -/
def positionalRange : Int × Int := (-5, 16)

/-- A decimal with an exponent, as in `1e20` and `2.5e-7`. -/
def scientific (d : Decimal) : List Char :=
  let mantissa :=
    match d.figures with
    | f :: g :: fs => f :: '.' :: g :: fs
    | fs => fs
  mantissa ++ 'e' :: (intText (d.point - 1)).toList

/-- A decimal; one without fractional part ends in `.0`. -/
def decimalText (d : Decimal) : List Char :=
  if d.digits = 0 then "0.0".toList
  else if positionalRange.1 < d.point ∧ d.point ≤ positionalRange.2 then
    d.positional ++ (if 0 ≤ d.exponent then ".0".toList else [])
  else scientific d

/-- The text of a double: the fewest digits that read back, of two equally near the even one. -/
def realText : Double → String
  | .nan => ".nan"
  | .infinite negative => Double.signText negative ++ ".inf"
  | .finite negative m e =>
    Double.signText negative ++ String.ofList (decimalText (Double.shortest .even m e))

/-- The text of a number. -/
def text : Number → String
  | integer n => intText n
  | real x => realText x

/-- The nearest double. -/
def toDouble : Number → Double
  | integer n => .ofInt n
  | real x => x

/-- A number as an integer of 64 bits with a sign. -/
def toInt? : Number → Option Int
  | integer n => if n < pow2 63 then some n else none
  | real _ => none

/-- Two numbers are the same key; the two zeros of doubles are. -/
def same : Number → Number → Bool
  | integer m, integer n => m == n
  | real (.finite s m e), real (.finite t n f) => (m == 0 && n == 0) || (s == t && m == n && e == f)
  | real x, real y => x == y
  | _, _ => false

end Number

namespace Node

/-- The node under all tags. -/
def untagged : Node → Node
  | tagged _ node => node.untagged
  | node => node

/-- The node is null, with or without tags. -/
def isNull (n : Node) : Bool :=
  match n.untagged with
  | null => true
  | _ => false

/-- The entries of a mapping. -/
def entries? (n : Node) : Option (List (Node × Node)) :=
  match n.untagged with
  | mapping entries => some entries
  | _ => none

/-- The node is a mapping, with or without tags. -/
def isMapping (n : Node) : Bool := n.entries?.isSome

/-- The text of a string. -/
def asText? (n : Node) : Option String :=
  match n.untagged with
  | string s => some s
  | _ => none

/-- The value of a number. -/
def asDouble? (n : Node) : Option Double :=
  match n.untagged with
  | number n => some n.toDouble
  | _ => none

/-- The value of the first entry whose key is the given string. -/
def lookup (key : String) : List (Node × Node) → Option Node
  | [] => none
  | (string k, v) :: rest => if k = key then some v else lookup key rest
  | _ :: rest => lookup key rest

/-- The value of a key, if the node is a mapping that has it. -/
def get? (n : Node) (key : String) : Option Node := n.entries?.bind (lookup key)

/-- The text of a string, number or flag that is not tagged. -/
def scalarText? : Node → Option String
  | string s => some s
  | number n => some n.text
  | bool b => some (if b then "true" else "false")
  | _ => none

mutual

/-- Two nodes are the same key. The order of the entries of a mapping does not count. -/
def same : Node → Node → Bool
  | null, null => true
  | bool a, bool b => a == b
  | number a, number b => a.same b
  | string a, string b => a == b
  | sequence a, sequence b => sameItems a b
  | mapping a, mapping b => a.length == b.length && sameEntries a b
  | tagged s a, tagged t b => s == t && same a b
  | _, _ => false

/-- Two lists of nodes agree item by item. -/
def sameItems : List Node → List Node → Bool
  | [], [] => true
  | a :: as, b :: bs => same a b && sameItems as bs
  | _, _ => false

/-- Every entry of the first list has its like in the second. -/
def sameEntries : List (Node × Node) → List (Node × Node) → Bool
  | [], _ => true
  | (k, v) :: rest, bs => (bs.any fun b => same k b.1 && same v b.2) && sameEntries rest bs

end

/-- One of the entries has the key. -/
def hasKey (key : Node) (entries : List (Node × Node)) : Bool := entries.any fun e => key.same e.1

end Node

/-- A reader of documents: the root of the single document of a text, or nothing if the text is
malformed. Loading and configurations work on nodes and leave the text to a reader. -/
class Parser where
  parse? (source : String) : Option Node

end Appearance.Yaml
