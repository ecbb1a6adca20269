import Taproot.Wire.Reader

/-!
# Compact sizes

A count is written in one, three, five or nine bytes. A count up to `0xfc` is its own byte; a
larger one is a marker byte `0xfd`, `0xfe` or `0xff` followed by two, four or eight bytes, least
significant first. Only the shortest form is read back: a marker in front of a count that would
fit a shorter form is malformed data, found after the whole form has been taken.

## Main definitions

* `CompactSize.encode`, `CompactSize.size`: the form of a count and its length;
* `CompactSize.read`: reads a form.

## Main results

* `CompactSize.length_encode`: the form has the announced length.
-/

namespace Taproot.CompactSize

/-- The shortest form of a count below `2 ^ 64`. -/
def encode (n : Nat) : Bytes :=
  if n ≤ 0xfc then littleEndian 1 n
  else if n ≤ 0xffff then 0xfd :: littleEndian 2 n
  else if n ≤ 0xffffffff then 0xfe :: littleEndian 4 n
  else 0xff :: littleEndian 8 n

/-- The number of bytes of the shortest form. -/
def size (n : Nat) : Nat :=
  if n ≤ 0xfc then 1 else if n ≤ 0xffff then 3 else if n ≤ 0xffffffff then 5 else 9

@[simp] theorem length_encode (n : Nat) : (encode n).length = size n := by
  simp only [encode, size]
  repeat' split
  all_goals simp

/-- A description that names the count. -/
def describe (n : Nat) : String := "CompactInteger(" ++ toString n ++ ")"

/-- Reads a count of `width` bytes, which must be above `limit` to need that width. -/
def readWide (width limit : Nat) : Reader Nat := do
  let n ← Reader.littleEndian width
  if n ≤ limit then throw .malformed else return n

/-- Reads a count in its shortest form. -/
def read : Reader Nat := do
  let marker ← Reader.littleEndian 1
  if marker ≤ 0xfc then return marker
  else if marker = 0xfd then readWide 2 0xfc
  else if marker = 0xfe then readWide 4 0xffff
  else readWide 8 0xffffffff

end Taproot.CompactSize
