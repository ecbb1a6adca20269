import Taproot.ScriptTree

/-!
# Control blocks

Whoever spends a leaf shows the leaf, and a control block that proves the leaf to belong to the
tree behind the output key: the internal key, the nodes of the path, and one byte that holds the
version of the leaf and, in its lowest bit, the parity of the output key. The check rebuilds the
root from the leaf and the nodes, tweaks the internal key by it, and compares both the result and
the parity with the output key.

A block is 33 bytes and 32 more for each of at most 128 nodes. Reading clears the lowest bit of
the version; writing sets it from the parity, so a block with an odd version is not read back as
it was.

## Main definitions

* `ControlBlock`, `ControlBlock.parse`, `ControlBlock.serialize`: blocks and their bytes;
* `ControlBlock.check`, `ControlBlock.verify`: whether an output key commits to a script;
* `Commitment`, `Branch.commit`: the output key, its locking script and the control block of a
  branch.
-/

namespace Taproot

/-- The proof that a leaf belongs to the tree behind an output key. -/
structure ControlBlock where
  /-- The version of the leaf. -/
  version : UInt8
  /-- Whether the Y coordinate of the output key is odd. -/
  odd : Bool
  /-- The key before the tweak. -/
  internalKey : XOnlyKey
  /-- The nodes of the path from the leaf to the root. -/
  nodes : List Hash
deriving DecidableEq

/-- What a check has found. -/
structure Verdict where
  /-- Whether the output key commits to the script. -/
  valid : Bool
  /-- The hash of the leaf that was checked. -/
  leafHash : Hash
  /-- The number of nodes, if it was too large to check anything. -/
  excess : Option Nat
deriving DecidableEq

/-- The line that a check leaves in the log, if any. -/
def Verdict.warning? (v : Verdict) : Option String :=
  v.excess.map fun count => "control node maximum over. [" ++ toString count ++ "]"

namespace ControlBlock

/-! ### Bytes -/

/-- The smallest size of a block: one byte and a key. -/
def minSize : Nat := 33

/-- The size of a node. -/
def nodeSize : Nat := 32

/-- The bytes of a block. -/
def serialize (c : ControlBlock) : Bytes :=
  (c.version ||| if c.odd then 1 else 0) ::
    (c.internalKey.bytes.toList ++ c.nodes.flatMap FixedBytes.toList)

/-- The first byte, the key and the nodes of a block with the given number of nodes. -/
def partsReader (count : Nat) : Reader (UInt8 × FixedBytes 32 × List Hash) := do
  let head ← Reader.littleEndian 1
  let key ← Reader.fixed 32
  let nodes ← Reader.times (Reader.fixed 32) count
  return (UInt8.ofNat head, key, nodes)

/-- Reads a block. -/
def parse (bs : Bytes) : Except TreeError ControlBlock :=
  let size := bs.length
  let count := (size - minSize) / nodeSize
  if size < minSize ∨ (size - 1) % nodeSize ≠ 0 then .error (.controlSize size)
  else if maxMerges < count then .error (.tooManyNodes count)
  else
    match (partsReader count).whole bs with
    | .error _ => .error (.controlSize size)
    | .ok (head, key, nodes) => do
      let key ← liftKeyError (XOnlyKey.ofFixed key)
      return ⟨head &&& 0xfe, head &&& 1 == 1, key, nodes⟩

/-! ### Checking -/

/-- Merges the nodes of a path into the tree of a leaf. -/
def addNodes (t : ScriptTree) (nodes : List Hash) : Except TreeError ScriptTree :=
  nodes.foldlM (fun t node => t.add (.ofHash node)) t

/-- Checks whether an output key commits to a script through the block. -/
def check (c : ControlBlock) (output : XOnlyKey) (script : Script) : Except TreeError Verdict := do
  let single ← ScriptTree.ofLeaf ⟨c.version, script⟩
  if maxMerges < c.nodes.length then
    return ⟨false, single.leaf.hash, some c.nodes.length⟩
  else
    let t ← addNodes single c.nodes
    return ⟨output.isTweakOf c.internalKey (t.branch.tweak c.internalKey) c.odd,
      single.leaf.hash, none⟩

/-- Whether an output key commits to a script through the block. -/
def verify (c : ControlBlock) (output : XOnlyKey) (script : Script) : Except TreeError Bool := do
  return (← c.check output script).valid

end ControlBlock

/-! ### Making commitments -/

/-- The script that locks to an output key: version one and a push of 32 bytes. -/
def lockingScript (output : XOnlyKey) : Script := 0x51 :: 0x20 :: output.bytes.toList

/-- What is needed to lock to a tree and to spend its leaf later. -/
structure Commitment where
  /-- The proof for the leaf. -/
  control : ControlBlock
  /-- The key after the tweak. -/
  output : XOnlyKey
  /-- The script that locks to the output key. -/
  locking : Script
deriving DecidableEq

/-- Commits a key to the tree of a branch. A branch without a leaf has the version of a leaf that
does not name one, and so has a branch whose leaf has version zero. -/
def Branch.commit (b : Branch) (key : XOnlyKey) : Except TreeError Commitment := do
  let output ← b.outputKey key
  let version := if b.leafVersion = 0 then defaultLeafVersion else b.leafVersion
  return ⟨⟨version, output.odd, key, b.nodes⟩, output.key, lockingScript output.key⟩

end Taproot
