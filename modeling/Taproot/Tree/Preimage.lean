import Taproot.Key.XOnly
import Taproot.TaggedHash
import Taproot.Wire.CompactSize

/-!
# What the hashes of a script tree are taken of

Three kinds of byte strings are hashed, each under its own tag: a leaf, two subtrees side by
side, and a key together with the root of a tree.

A leaf is hashed with its version and with the length of its script in front of the script. Two
subtrees are hashed in the order of their hashes, the smaller first, so which of them was on the
left leaves no trace. A key is hashed with the root behind it, except that the zero root stands
for no tree and is left out.

## Main definitions

* `leafPreimage`, `branchPreimage`, `tweakPreimage`: the byte strings;
* `leafHash`, `joinHash`, `commitmentTweak`: their hashes.

## Main results

* `joinHash_comm`: joining does not depend on the order.
-/

namespace Taproot

/-- The bytes of a script, which are never interpreted. -/
abbrev Script := Bytes

/-! ### Leaves -/

/-- A leaf: its version, and the length and the bytes of its script. -/
def leafPreimage (version : UInt8) (script : Script) : Bytes :=
  version :: (CompactSize.encode script.length ++ script)

/-- The hash of a leaf. -/
def leafHash (version : UInt8) (script : Script) : Hash :=
  Tag.leaf.hash (leafPreimage version script)

/-! ### Pairs of subtrees -/

/-- Two subtrees: their hashes, the smaller one first. -/
def branchPreimage (a b : Hash) : Bytes :=
  if b < a then b.toList ++ a.toList else a.toList ++ b.toList

/-- The hash of two subtrees side by side. -/
def joinHash (a b : Hash) : Hash := Tag.branch.hash (branchPreimage a b)

theorem branchPreimage_comm (a b : Hash) : branchPreimage a b = branchPreimage b a := by
  simp only [branchPreimage]
  split <;> split
  · rename_i h h'
    exact absurd h (List.lt_asymm h')
  · rfl
  · rfl
  · rename_i h h'
    have hab : a.toList = b.toList := List.le_antisymm (List.not_lt.1 h) (List.not_lt.1 h')
    rw [hab]

theorem joinHash_comm (a b : Hash) : joinHash a b = joinHash b a := by
  rw [joinHash, joinHash, branchPreimage_comm]

/-! ### Commitments of keys to trees -/

/-- A key and the root of a tree, which is left out when it is zero. -/
def tweakPreimage (key : XOnlyKey) (root : Hash) : Bytes :=
  key.bytes.toList ++ if root.isZero then [] else root.toList

/-- The tweak that commits a key to a tree. -/
def commitmentTweak (key : XOnlyKey) (root : Hash) : Hash := Tag.tweak.hash (tweakPreimage key root)

end Taproot
