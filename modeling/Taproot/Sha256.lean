import Taproot.Bytes

/-!
# SHA-256

The hash function under every tag of this library, over byte strings of any length.

A message is padded with the byte `0x80`, zeros, and its bit length in eight bytes, so that it
fills whole blocks of sixteen 32-bit words. Each block updates eight chaining words; the hash
is those words, each most significant byte first.

Nothing here is proved to resist collisions, and nothing else in the library assumes it: a
statement that depends on it names the two byte strings that would collide.

## Main definitions

* `Sha256.pad`, `Sha256.words`: a message as words;
* `Sha256.schedule`, `Sha256.compress`: one block;
* `sha256`: the hash of a byte string.
-/

namespace Taproot

namespace Sha256

/-! ### Padding -/

/-- A message followed by `0x80`, as few zeros as possible, and its bit length. -/
def pad (msg : Bytes) : Bytes :=
  msg ++ 0x80 :: (List.replicate ((119 - msg.length % 64) % 64) 0 ++ bigEndian 8 (8 * msg.length))

/-- Groups of four bytes as words, most significant byte first; `done` holds the words read so
far, the last one first. -/
def words (done : List UInt32) : Bytes → List UInt32
  | a :: b :: c :: d :: rest =>
    let word := a.toUInt32 <<< 24 ||| b.toUInt32 <<< 16 ||| c.toUInt32 <<< 8 ||| d.toUInt32
    words (word :: done) rest
  | _ => done.reverse

/-! ### The chaining words -/

/-- The eight chaining words. -/
structure State where
  /-- First word. -/
  a : UInt32
  /-- Second word. -/
  b : UInt32
  /-- Third word. -/
  c : UInt32
  /-- Fourth word. -/
  d : UInt32
  /-- Fifth word. -/
  e : UInt32
  /-- Sixth word. -/
  f : UInt32
  /-- Seventh word. -/
  g : UInt32
  /-- Eighth word. -/
  h : UInt32
deriving DecidableEq

namespace State

/-- The words before the first block. -/
def start : State :=
    ⟨0x6a09e667, 0xbb67ae85, 0x3c6ef372, 0xa54ff53a,
      0x510e527f, 0x9b05688c, 0x1f83d9ab, 0x5be0cd19⟩

/-- Word by word sum. -/
def add (s t : State) : State :=
  ⟨s.a + t.a, s.b + t.b, s.c + t.c, s.d + t.d, s.e + t.e, s.f + t.f, s.g + t.g, s.h + t.h⟩

/-- The words in order. -/
def toWords (s : State) : List UInt32 := [s.a, s.b, s.c, s.d, s.e, s.f, s.g, s.h]

/-- The words as bytes, each most significant byte first. -/
def toBytes (s : State) : Hash :=
  ⟨s.toWords.flatMap fun w => bigEndian 4 w.toNat, by simp [toWords]⟩

end State

/-! ### One block -/

/-- Rotation to the right. -/
@[inline] def rotateRight (x : UInt32) (k : UInt32) : UInt32 := (x >>> k) ||| (x <<< (32 - k))

/-- The 64 round constants. -/
def roundConstants : List UInt32 := [
    0x428a2f98, 0x71374491, 0xb5c0fbcf, 0xe9b5dba5, 0x3956c25b, 0x59f111f1, 0x923f82a4, 0xab1c5ed5,
    0xd807aa98, 0x12835b01, 0x243185be, 0x550c7dc3, 0x72be5d74, 0x80deb1fe, 0x9bdc06a7, 0xc19bf174,
    0xe49b69c1, 0xefbe4786, 0x0fc19dc6, 0x240ca1cc, 0x2de92c6f, 0x4a7484aa, 0x5cb0a9dc, 0x76f988da,
    0x983e5152, 0xa831c66d, 0xb00327c8, 0xbf597fc7, 0xc6e00bf3, 0xd5a79147, 0x06ca6351, 0x14292967,
    0x27b70a85, 0x2e1b2138, 0x4d2c6dfc, 0x53380d13, 0x650a7354, 0x766a0abb, 0x81c2c92e, 0x92722c85,
    0xa2bfe8a1, 0xa81a664b, 0xc24b8b70, 0xc76c51a3, 0xd192e819, 0xd6990624, 0xf40e3585, 0x106aa070,
    0x19a4c116, 0x1e376c08, 0x2748774c, 0x34b0bcb5, 0x391c0cb3, 0x4ed8aa4a, 0x5b9cca4f, 0x682e6ff3,
    0x748f82ee, 0x78a5636f, 0x84c87814, 0x8cc70208, 0x90befffa, 0xa4506ceb, 0xbef9a3f7, 0xc67178f2]

/-- Appends the next word of a schedule that already has sixteen words. -/
def extend (w : Array UInt32) : Array UInt32 :=
  let x := w.getD (w.size - 15) 0
  let y := w.getD (w.size - 2) 0
  let s0 := rotateRight x 7 ^^^ rotateRight x 18 ^^^ (x >>> 3)
  let s1 := rotateRight y 17 ^^^ rotateRight y 19 ^^^ (y >>> 10)
  w.push (w.getD (w.size - 16) 0 + s0 + w.getD (w.size - 7) 0 + s1)

/-- Extends a schedule by `k` words. -/
def extendBy : (k : Nat) → Array UInt32 → Array UInt32
  | 0, w => w
  | k + 1, w => extendBy k (extend w)

/-- The 64 words that a block feeds into the rounds. -/
def schedule (block : List UInt32) : List UInt32 := (extendBy 48 block.toArray).toList

/-- One round; `kw` is the round constant plus the word of the schedule. -/
def round (s : State) (kw : UInt32) : State :=
  let s1 := rotateRight s.e 6 ^^^ rotateRight s.e 11 ^^^ rotateRight s.e 25
  let ch := (s.e &&& s.f) ^^^ (~~~s.e &&& s.g)
  let t1 := s.h + s1 + ch + kw
  let s0 := rotateRight s.a 2 ^^^ rotateRight s.a 13 ^^^ rotateRight s.a 22
  let maj := (s.a &&& s.b) ^^^ (s.a &&& s.c) ^^^ (s.b &&& s.c)
  ⟨t1 + (s0 + maj), s.a, s.b, s.c, s.d + t1, s.e, s.f, s.g⟩

/-- The chaining words after a block of sixteen words. -/
def compress (s : State) (block : List UInt32) : State :=
  s.add ((List.zipWith (· + ·) roundConstants (schedule block)).foldl round s)

/-- The chaining words after the given number of blocks, read from the front of `ws`. -/
def absorb : (blocks : Nat) → State → (ws : List UInt32) → State
  | 0, s, _ => s
  | blocks + 1, s, ws => absorb blocks (compress s (ws.take 16)) (ws.drop 16)

end Sha256

/-- The SHA-256 hash of a byte string. -/
def sha256 (msg : Bytes) : Hash :=
  let padded := Sha256.pad msg
  (Sha256.absorb (padded.length / 64) .start (Sha256.words [] padded)).toBytes

end Taproot
