import Taproot.Wire.CompactSize

/-!
# Wire forms of nested lists

The values that are written on the wire are unsigned integers of four widths, compact sizes,
32-byte strings, and lists of any of those, nested to any depth. A `Shape` says which; the
values of a shape form the type `shape.Value`, so that writing is total and reading yields a
value of the shape that was asked for.

A list is its length as a compact size, followed by its entries. Every entry takes at least one
byte, so a length above the number of bytes left is refused before any entry is read.

## Main definitions

* `Shape`, `Shape.Value`: what a wire value looks like, and the type of such values;
* `Shape.encode`, `Shape.size`: the bytes of a value and their number;
* `Shape.read`, `Shape.decode`: a value from the front of the bytes, or from all of them.

## Main results

* `Shape.length_encode`: `size` is the length of `encode`.
-/

namespace Taproot

/-- What a value on the wire looks like. -/
inductive Shape where
  /-- An unsigned integer of one byte. -/
  | u8
  /-- An unsigned integer of two bytes. -/
  | u16
  /-- An unsigned integer of four bytes. -/
  | u32
  /-- An unsigned integer of eight bytes. -/
  | u64
  /-- A compact size. -/
  | compact
  /-- A string of 32 bytes. -/
  | bytes32
  /-- A list of values of one shape. -/
  | list (entry : Shape)
deriving DecidableEq

namespace Shape

/-- The values of a shape. -/
def Value : Shape → Type
  | u8 => UInt8
  | u16 => UInt16
  | u32 => UInt32
  | u64 => UInt64
  | compact => UInt64
  | bytes32 => FixedBytes 32
  | list entry => List entry.Value

/-- The bytes of a value. -/
def encode : (shape : Shape) → shape.Value → Bytes
  | u8, (v : UInt8) => littleEndian 1 v.toNat
  | u16, (v : UInt16) => littleEndian 2 v.toNat
  | u32, (v : UInt32) => littleEndian 4 v.toNat
  | u64, (v : UInt64) => littleEndian 8 v.toNat
  | compact, (v : UInt64) => CompactSize.encode v.toNat
  | bytes32, (v : FixedBytes 32) => v.toList
  | list entry, (vs : List entry.Value) =>
    CompactSize.encode vs.length ++ vs.flatMap (encode entry)

/-- The number of bytes of a value. -/
def size : (shape : Shape) → shape.Value → Nat
  | u8, _ => 1
  | u16, _ => 2
  | u32, _ => 4
  | u64, _ => 8
  | compact, (v : UInt64) => CompactSize.size v.toNat
  | bytes32, _ => 32
  | list entry, (vs : List entry.Value) =>
    CompactSize.size vs.length + vs.foldr (fun v total => size entry v + total) 0

theorem length_encode : (shape : Shape) → (v : shape.Value) →
    (shape.encode v).length = shape.size v
  | u8, _ => length_littleEndian ..
  | u16, _ => length_littleEndian ..
  | u32, _ => length_littleEndian ..
  | u64, _ => length_littleEndian ..
  | compact, (v : UInt64) => CompactSize.length_encode v.toNat
  | bytes32, (v : FixedBytes 32) => v.length_toList
  | list entry, (vs : List entry.Value) => by
    have h : (vs.flatMap (encode entry)).length =
        vs.foldr (fun v total => size entry v + total) 0 := by
      induction vs with
      | nil => rfl
      | cons v vs ih =>
        rw [List.flatMap_cons, List.length_append, length_encode entry v, ih, List.foldr_cons]
    rw [encode, size, List.length_append, CompactSize.length_encode, h]

/-- Reads the length of a list, and then that many entries. -/
def readList {α : Type} (entry : Reader α) : Reader (List α) := do
  let n ← CompactSize.read
  if hasAtLeast n (← get) then Reader.times entry n else throw .malformed

/-- Reads a value of a shape from the front of the bytes. -/
def read : (shape : Shape) → Reader shape.Value
  | u8 => do return UInt8.ofNat (← Reader.littleEndian 1)
  | u16 => do return UInt16.ofNat (← Reader.littleEndian 2)
  | u32 => do return UInt32.ofNat (← Reader.littleEndian 4)
  | u64 => do return UInt64.ofNat (← Reader.littleEndian 8)
  | compact => do return UInt64.ofNat (← CompactSize.read)
  | bytes32 => Reader.fixed 32
  | list entry => readList (read entry)

/-- The value of a shape that a byte string holds and nothing else. -/
def decode (shape : Shape) (bs : Bytes) : Except ReadError shape.Value := Reader.whole shape.read bs

end Shape

end Taproot
