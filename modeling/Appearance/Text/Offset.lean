/-!
# Byte offsets

Positions in a text are counted in bytes of its UTF-8 form. `slice` cuts a text at two offsets;
whole characters are kept, those that begin inside the cut.

Offsets are the common currency of the scanners: tokens of values carry the offsets of their spans,
and a YAML scanner measures keys by them. `slice` turns a span back into text. It is total, also
where an offset is beyond the text or inside a character, so spans need no proof to be cut; that
the spans of a scan do lie at characters is a theorem about the scan.
-/

namespace Appearance.Text

/-- The length in bytes. -/
def byteLength : List Char → Nat
  | [] => 0
  | c :: cs => c.utf8Size + byteLength cs

/-- The characters that begin at `start` or later and before `stop`; the text itself begins at
`offset`. -/
def sliceFrom (offset start stop : Nat) : List Char → List Char
  | [] => []
  | c :: cs =>
    let rest := sliceFrom (offset + c.utf8Size) start stop cs
    if start ≤ offset && offset < stop then c :: rest else rest

/-- The part of a text between two offsets. -/
def slice (start stop : Nat) (cs : List Char) : List Char := sliceFrom 0 start stop cs

theorem byteLength_append (a b : List Char) :
    byteLength (a ++ b) = byteLength a + byteLength b := by
  induction a with
  | nil => simp [byteLength]
  | cons c a ih => simp [byteLength, ih, Nat.add_assoc]

end Appearance.Text
