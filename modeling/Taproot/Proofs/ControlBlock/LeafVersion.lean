import Taproot.Proofs.ControlBlock.Commit

/-!
# Control blocks of leaves of any version

A branch may start from a leaf of any version, and a key can be committed to it all the same. The
control block that comes with the commitment is not right for every version. Version zero is taken
for a branch without a leaf, so the block gets the version of a leaf that does not name one. An odd
version takes up the bit of the parity: the block has it, but the bytes of the block are read as
those of another one, whose version is even and whose parity is odd.

So the block belongs to the leaf unless the version is zero, and is read back unless the version is
odd. A script tree has neither, because its versions are supported.

## Main results

* `Branch.parse_control`: what the bytes of the control block are read as
* `Branch.Reachable.control_of_commit_iff`: for which versions the block is right
* `Branch.control_of_commit_fails`: that it is not right for every version
-/

namespace Taproot

namespace Branch

variable {b : Branch} {l : Leaf} {key : XOnlyKey} {c : Commitment}

theorem leafVersion_eq (hl : b.leaf? = some l) : b.leafVersion = l.version := by
  rw [leafVersion, hl, Option.map_some, Option.getD_some]

/-- The block has the version of the leaf, except that zero is replaced. -/
theorem version_control (hl : b.leaf? = some l) (h : b.commit key = .ok c) :
    c.control.version = if l.version = 0 then defaultLeafVersion else l.version := by
  obtain ⟨output, -, rfl⟩ := commit_eq_ok_iff.mp h
  rw [leafVersion_eq hl]

/-- What replaces zero is even like zero. -/
theorem version_control_mod (hl : b.leaf? = some l) (h : b.commit key = .ok c) :
    c.control.version % 2 = l.version % 2 := by
  rw [version_control hl h]
  split_ifs with hzero
  · rw [hzero]
    decide
  · rfl

/-- **The bytes of the control block are read as a block in any case.** If the version of the leaf
is odd, it is one with an even version and an odd parity. -/
theorem parse_control (hb : b.Sound) (hl : b.leaf? = some l) (h : b.commit key = .ok c) :
    ControlBlock.parse c.control.serialize = .ok { c.control with
      version := c.control.version &&& 0xfe, odd := c.control.odd || l.version % 2 == 1 } := by
  have hset : c.control.internalKey.isSet = true := by
    obtain ⟨output, htweak, rfl⟩ := commit_eq_ok_iff.mp h
    exact XOnlyKey.isSet_of_tweak htweak
  have hnodes : c.control.nodes.length ≤ maxMerges := by
    obtain ⟨output, -, rfl⟩ := commit_eq_ok_iff.mp h
    exact hb.length_nodes_le
  rw [XOnlyKey.isSet, Bool.not_eq_true', ← Bool.not_eq_true] at hset
  rw [ControlBlock.parse_serialize_eq, if_neg (Nat.not_lt.mpr hnodes), if_neg hset,
    version_control_mod hl h]

/-- **The control block belongs to the leaf unless its version is zero, and is read back unless its
version is odd.** -/
theorem Reachable.control_of_commit_iff (hb : b.Reachable) (hl : b.leaf? = some l)
    (h : b.commit key = .ok c) :
    (c.control.version = l.version ↔ l.version ≠ 0) ∧
      (ControlBlock.parse c.control.serialize = .ok c.control ↔ l.version % 2 = 0) ∧
      ControlBlock.parse c.control.serialize = .ok { c.control with
        version := c.control.version &&& 0xfe, odd := c.control.odd || l.version % 2 == 1 } := by
  have hmod := version_control_mod hl h
  have hparse := parse_control hb.sound hl h
  refine ⟨?_, ⟨fun hback => ?_, fun heven => ?_⟩, hparse⟩
  · rw [version_control hl h]
    split_ifs with hzero
    · rw [hzero]
      decide
    · exact iff_of_true rfl hzero
  · exact hmod ▸ (ControlBlock.parse_eq_ok_iff_eq_serialize.mp hback).1.1
  · rw [hparse, heven, ControlBlock.even_iff_and_eq.mp (hmod.trans heven)]
    exact congrArg _ (congrArg (ControlBlock.mk _ · _ _) (Bool.or_false _))

/-- The base point can be committed to a leaf of version zero and to one of an odd version, computed
once. -/
theorem isOk_commit_zero_and_isOk_commit_odd :
    ((ofLeaf ⟨0, [0x51]⟩).commit basePoint.toParityKey.key).isOk = true ∧
      ((ofLeaf ⟨0xc1, [0x51]⟩).commit basePoint.toParityKey.key).isOk = true := by
  decide +kernel

theorem Reachable.control_of_commit_iff_odd : ∃ c,
    (Branch.ofLeaf ⟨0xc1, [0x51]⟩).commit basePoint.toParityKey.key = .ok c ∧
      c.control.version = 0xc1 ∧ ControlBlock.parse c.control.serialize ≠ .ok c.control ∧
      ControlBlock.parse c.control.serialize =
        .ok { c.control with version := 0xc0, odd := true } := by
  obtain ⟨c, hc⟩ := exists_of_isOk isOk_commit_zero_and_isOk_commit_odd.2
  obtain ⟨hversion, hback, hparse⟩ := (Reachable.ofLeaf _).control_of_commit_iff rfl hc
  have hc1 : c.control.version = 0xc1 := hversion.mpr (by decide)
  refine ⟨c, hc, hc1, fun h => absurd (hback.mp h) (by decide), ?_⟩
  rw [hparse, hc1, show ((0xc1 : UInt8) % 2 == 1) = true by decide, Bool.or_true]
  rfl

/-- **The control block of a commitment need not belong to the leaf.** For a leaf of version zero it
has another version. -/
theorem control_of_commit_fails :
    ¬∀ (b : Branch) (l : Leaf) (key : XOnlyKey) (c : Commitment), b.Reachable → b.leaf? = some l →
      b.commit key = .ok c → c.control.version = l.version ∧
        ControlBlock.parse c.control.serialize = .ok c.control := by
  intro h
  obtain ⟨c, hc⟩ := exists_of_isOk isOk_commit_zero_and_isOk_commit_odd.1
  have hversion := (h _ _ _ c (.ofLeaf _) rfl hc).1
  rw [version_control rfl hc] at hversion
  exact absurd hversion (by decide)

end Branch

end Taproot
