import Taproot.Signature.Basic
import Taproot.Tree.Leaf
import Taproot.Wire.Reader

/-!
# SCALE forms

Scripts, hashes, keys, signatures, leaves and compact sizes have a second binary form. Fixed
strings are written as they are, a compact size as eight bytes, least significant first, and a
string of any length behind its length.

A length takes one, two, four or five bytes. The lowest two bits of the first byte say which: the
first three forms hold the length in the remaining bits, the last one is the byte `03` and four
bytes of length. Only the shortest form is read back, and a length above the number of bytes left
is refused.

A signature is its 64 bytes and its sighash type, whatever byte that is.

## Main definitions

* `Scale.encodeLength`, `Scale.readLength`: lengths;
* `Scale.Form`: a way to write and a way to read the values of a type;
* `Scale.script`, `Scale.fixed`, `Scale.signature` and so on: the forms.
-/

namespace Taproot.Scale

/-! ### Lengths -/

/-- The smallest length that does not fit six bits. -/
def twoByteFrom : Nat := 64

/-- The smallest length that does not fit fourteen bits. -/
def fourByteFrom : Nat := 16384

/-- The smallest length that does not fit thirty bits. -/
def fiveByteFrom : Nat := 1073741824

/-- The shortest form of a length below `2 ^ 32`. -/
def encodeLength (n : Nat) : Bytes :=
  if n < twoByteFrom then littleEndian 1 (4 * n)
  else if n < fourByteFrom then littleEndian 2 (4 * n + 1)
  else if n < fiveByteFrom then littleEndian 4 (4 * n + 2)
  else 0x03 :: littleEndian 4 n

/-- A number that must be at least `limit` to need the form it was read from. -/
def atLeast (limit n : Nat) : Reader Nat := if limit ≤ n then return n else throw .malformed

/-- Reads a length in its shortest form. -/
def readLength : Reader Nat := do
  let head ← Reader.littleEndian 1
  match head % 4 with
  | 0 => return head / 4
  | 1 => atLeast twoByteFrom ((head + 256 * (← Reader.littleEndian 1)) / 4)
  | 2 => atLeast fourByteFrom ((head + 256 * (← Reader.littleEndian 3)) / 4)
  | _ => if head = 3 then atLeast fiveByteFrom (← Reader.littleEndian 4) else throw .malformed

/-! ### Forms -/

/-- A way to write the values of a type, and a way to read them. -/
structure Form (α : Type) where
  /-- The bytes of a value. -/
  encode : α → Bytes
  /-- Reads a value from the front of the bytes. -/
  read : Reader α

/-- A value from the front of a byte string, with the number of bytes left. -/
def Form.decode {α : Type} (form : Form α) (bs : Bytes) : Option (α × Nat) :=
  match form.read bs with
  | .ok v rest => some (v, rest.length)
  | .error _ _ => none

/-- Eight bytes, least significant first. -/
def compactSize : Form UInt64 where
  encode v := littleEndian 8 v.toNat
  read := do return UInt64.ofNat (← Reader.littleEndian 8)

/-- The bytes as they are. -/
def fixed (n : Nat) : Form (FixedBytes n) where
  encode := FixedBytes.toList
  read := Reader.fixed n

/-- The bytes behind their number. -/
def script : Form Script where
  encode s := encodeLength s.length ++ s
  read := do Reader.take (← readLength)

/-- The bytes of the key. -/
def xOnlyKey : Form XOnlyKey where
  encode k := k.bytes.toList
  read := do return ⟨← Reader.fixed 32⟩

/-- The 64 bytes and the sighash type. -/
def signature : Form Signature where
  encode sig := sig.body.toList ++ [sig.sighashType]
  read := do
    let body ← Reader.fixed (32 + 32)
    let code ← Reader.littleEndian 1
    return .ofBody body (UInt8.ofNat code)

/-- The version and the script. -/
def leaf : Form Leaf where
  encode l := l.version :: script.encode l.script
  read := do
    let version ← Reader.littleEndian 1
    return ⟨UInt8.ofNat version, ← script.read⟩

end Taproot.Scale
