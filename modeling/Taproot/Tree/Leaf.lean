import Taproot.Tree.Preimage

/-!
# Leaves

A leaf is a script with the version under which it is to be interpreted. A leaf may have any
version byte; which versions are supported is a separate question, asked when a leaf is about to
be spent.

The text of a leaf is `tl(`, the hexadecimal script, a comma and two digits for the version, and
`)`. The usual version `c0` is not written, nor is its comma.

## Main definitions

* `Leaf`, `Leaf.hash`, `Leaf.digits`, `Leaf.text`: leaves, their hashes and their texts;
* `isSupportedVersion`: the versions that can be spent.

## Main results

* `even_of_isSupportedVersion`: a supported version leaves the lowest bit free.
-/

namespace Taproot

/-- The version of a leaf that does not name one. -/
def defaultLeafVersion : UInt8 := 0xc0

/-- The nine supported versions below `c0`. -/
def lowLeafVersions : List UInt8 := [0x66, 0x7e, 0x80, 0x84, 0x96, 0x98, 0xba, 0xbc, 0xbe]

/-- Whether a version is one of nine, or an even one from `c0` to `fe`. -/
def isSupportedVersion (version : UInt8) : Bool :=
  lowLeafVersions.contains version || (version % 2 == 0 && 0xc0 ≤ version && version ≤ 0xfe)

theorem even_of_isSupportedVersion {version : UInt8} (h : isSupportedVersion version = true) :
    version % 2 = 0 := by
  simp only [isSupportedVersion, lowLeafVersions, Bool.or_eq_true, List.contains_iff_mem,
    Bool.and_eq_true, beq_iff_eq] at h
  rcases h with h | h
  · simp only [List.mem_cons, List.not_mem_nil, or_false] at h
    rcases h with rfl | rfl | rfl | rfl | rfl | rfl | rfl | rfl | rfl <;> decide
  · exact h.1.1

/-- A script and its version. -/
structure Leaf where
  /-- The version under which the script is to be interpreted. -/
  version : UInt8
  /-- The script. -/
  script : Script
deriving DecidableEq

namespace Leaf

/-- The leaf of a script with the usual version. -/
def ofScript (script : Script) : Leaf := ⟨defaultLeafVersion, script⟩

/-- The hash of the leaf. -/
def hash (l : Leaf) : Hash := leafHash l.version l.script

/-- The characters of the text of the leaf. -/
def chars (l : Leaf) : List Char :=
  't' :: 'l' :: '(' :: (Hex.digits l.script ++
    ((if l.version = defaultLeafVersion then [] else ',' :: Hex.byteDigits l.version) ++ [')']))

/-- The text of the leaf. -/
def text (l : Leaf) : String := String.ofList l.chars

/-- A description that names both parts. -/
def describe (l : Leaf) : String :=
  "TapLeaf \x7b leaf_version: " ++ toString l.version.toNat ++ ", script: " ++
    Hex.encode l.script ++ " \x7d"

end Leaf

end Taproot
