import Taproot.Sha256

/-!
# Tagged hashes

Each use of the hash function has a tag of its own, so that a byte string hashed for one
purpose is never taken for a byte string hashed for another. The hash of a message under a tag
is the hash of `t ++ t ++ message`, where `t` is the hash of the tag's name.

`taggedHash` takes the name as bytes. The names in use are the values of `Tag`; their blocks
`t ++ t` are constants, so that a tagged hash costs no second hash.

## Main definitions

* `Tag`: the six tags in use, with `Tag.name`;
* `taggedHash`, `Tag.hash`: the hash of a message under a name, or under a tag.

## Main results

* `Tag.hash_eq`: hashing under a tag is hashing under its name.
-/

namespace Taproot

/-- The two copies of a name's hash that precede the message. -/
def tagBlock (name : Bytes) : Bytes := (sha256 name).toList ++ (sha256 name).toList

/-- The byte string that is hashed for a message under a name. -/
def taggedPreimage (name msg : Bytes) : Bytes := tagBlock name ++ msg

/-- The hash of a message under a name. -/
def taggedHash (name msg : Bytes) : Hash := sha256 (taggedPreimage name msg)

/-- What a byte string is hashed for. -/
inductive Tag where
  /-- A leaf of a script tree. -/
  | leaf
  /-- Two subtrees of a script tree side by side. -/
  | branch
  /-- The tweak that commits a key to a script tree. -/
  | tweak
  /-- The mask made of auxiliary randomness. -/
  | auxiliary
  /-- The nonce of a signature. -/
  | nonce
  /-- The challenge of a signature. -/
  | challenge
deriving DecidableEq

namespace Tag

/-- The name that stands for a tag. -/
def name : Tag → Bytes
  | .leaf => utf8 "TapLeaf"
  | .branch => utf8 "TapBranch"
  | .tweak => utf8 "TapTweak"
  | .auxiliary => utf8 "BIP0340/aux"
  | .nonce => utf8 "BIP0340/nonce"
  | .challenge => utf8 "BIP0340/challenge"

/-- The block that precedes every message under a tag. -/
def block : Tag → Bytes
  | .leaf => tagBlock (name .leaf)
  | .branch => tagBlock (name .branch)
  | .tweak => tagBlock (name .tweak)
  | .auxiliary => tagBlock (name .auxiliary)
  | .nonce => tagBlock (name .nonce)
  | .challenge => tagBlock (name .challenge)

theorem block_eq (tag : Tag) : tag.block = tagBlock tag.name := by cases tag <;> rfl

/-- The byte string that is hashed for a message under a tag. -/
def preimage (tag : Tag) (msg : Bytes) : Bytes := tag.block ++ msg

/-- The hash of a message under a tag. -/
def hash (tag : Tag) (msg : Bytes) : Hash := sha256 (tag.preimage msg)

theorem preimage_eq (tag : Tag) (msg : Bytes) : tag.preimage msg = taggedPreimage tag.name msg := by
  rw [preimage, block_eq, taggedPreimage]

theorem hash_eq (tag : Tag) (msg : Bytes) : tag.hash msg = taggedHash tag.name msg := by
  rw [hash, preimage_eq, taggedHash]

end Tag

end Taproot
