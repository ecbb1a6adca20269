import Taproot.Proofs.ControlBlock.Check
import Taproot.Proofs.ControlBlock.Serialize

/-!
# Commitments can be spent

Whoever locks to a script tree has to be able to spend its leaf later, from the bytes of the control
block alone. The control block of a sound script tree leads back to the hash of the tree, so a check
with it tweaks the internal key as the commitment did; and its bytes are read back, because the
versions of script trees are even, because a path has at most 128 nodes, and because a key that was
never set has no point that could have been tweaked.

## Main definitions

* `Tree.pair`: a tree to which a commitment is computed

## Main results

* `XOnlyKey.isSet_of_tweak`: a key that can be tweaked is set
* `Branch.commit_eq_ok_iff`: what a commitment consists of
* `ScriptTree.spendable_of_commit`: a commitment to a script tree can be spent
-/

namespace Taproot

/-! ### Keys that can be tweaked -/

/-- No point has the X coordinate zero, as seven is not a square. -/
theorem XOnlyKey.point?_zero : XOnlyKey.point? ⟨FixedBytes.zero 32⟩ = none := by
  decide +kernel

theorem XOnlyKey.isSet_of_tweak {key : XOnlyKey} {t : FixedBytes 32} {output : ParityKey}
    (h : key.tweak t = .ok output) : key.isSet = true := by
  obtain ⟨bytes⟩ := key
  obtain ⟨s, -, h⟩ := bind_eq_ok_iff.mp h
  by_contra hset
  rw [isSet, Bool.not_eq_true', Bool.not_eq_false, FixedBytes.isZero_iff] at hset
  obtain rfl : bytes = FixedBytes.zero 32 := hset
  rw [tweakPoint?, point?_zero] at h
  cases h

/-! ### A tree of two leaves -/

namespace Tree

/-- Two leaves side by side. -/
def pair : Tree := merge (leaf (.ofScript [0x51])) (leaf (.ofScript [0x52]))

theorem hash_pair :
    pair.hash = joinHash (Leaf.ofScript [0x51]).hash (Leaf.ofScript [0x52]).hash := by
  rw [pair, hash, hash, hash]

/-- The hash of the two leaves and the tweak of the base point by it, computed once. -/
theorem hash_pair_ne_zero_and_isOk_tweak_pair : pair.hash ≠ .zero 32 ∧
    (basePoint.toParityKey.key.tweak
      (commitmentTweak basePoint.toParityKey.key pair.hash)).isOk = true := by
  decide +kernel

theorem hash_pair_ne_zero : pair.hash ≠ .zero 32 := hash_pair_ne_zero_and_isOk_tweak_pair.1

/-- The key of the base point can be committed to the two leaves. -/
theorem exists_tweak_pair : ∃ output,
    basePoint.toParityKey.key.tweak (commitmentTweak basePoint.toParityKey.key pair.hash) =
      .ok output :=
  exists_of_isOk hash_pair_ne_zero_and_isOk_tweak_pair.2

end Tree

/-! ### What a commitment consists of -/

theorem Branch.commit_eq_ok_iff {b : Branch} {key : XOnlyKey} {c : Commitment} :
    b.commit key = .ok c ↔ ∃ output, key.tweak (b.tweak key) = .ok output ∧
      c = ⟨⟨if b.leafVersion = 0 then defaultLeafVersion else b.leafVersion, output.odd, key,
        b.nodes⟩, output.key, lockingScript output.key⟩ := by
  rw [commit, bind_eq_ok_iff]
  refine exists_congr fun output => and_congr liftKeyError_eq_ok_iff ?_
  constructor
  · intro h
    cases h
    rfl
  · rintro rfl
    rfl

namespace ScriptTree

theorem leafVersion_branch (t : ScriptTree) : t.branch.leafVersion = t.leaf.version := by
  rw [Branch.leafVersion, Branch.leaf?, t.base_branch]
  rfl

theorem baseHash_branch (t : ScriptTree) : t.branch.baseHash = t.leaf.hash := by
  rw [Branch.baseHash, t.base_branch]
  rfl

theorem version_ne_zero (t : ScriptTree) : t.leaf.version ≠ 0 := by
  intro hzero
  have hsupported := t.supported
  rw [hzero] at hsupported
  exact absurd hsupported (by decide)

/-- The control block of a sound script tree proves its leaf: the version is the one of the leaf,
and the nodes lead to the hash of the tree. -/
theorem control_of_commit {t : ScriptTree} (ht : t.branch.Sound) {key : XOnlyKey} {c : Commitment}
    (h : t.branch.commit key = .ok c) :
    c.control.version = t.leaf.version ∧ c.control.nodes = t.branch.nodes ∧
      c.control.internalKey = key ∧ c.control.root t.leaf.script = t.branch.hash ∧
      key.tweak (commitmentTweak key t.branch.hash) = .ok ⟨c.output, c.control.odd⟩ := by
  obtain ⟨output, houtput, rfl⟩ := Branch.commit_eq_ok_iff.mp h
  rw [leafVersion_branch, if_neg t.version_ne_zero]
  refine ⟨rfl, rfl, rfl, ?_, houtput⟩
  rw [ht.hash_eq_foldl, baseHash_branch]
  rfl

/-- **A commitment to a script tree can be spent.** The internal key is set, the control block is
read back from its bytes, and with the script of the tree it passes the check against the output
key, which finds the hash of the leaf. -/
theorem spendable_of_commit {t : ScriptTree} (ht : t.Reachable) {key : XOnlyKey} {c : Commitment}
    (h : t.branch.commit key = .ok c) :
    key.isSet = true ∧ ControlBlock.parse c.control.serialize = .ok c.control ∧
      c.control.verify c.output t.leaf.script = .ok true ∧
      c.control.check c.output t.leaf.script = .ok ⟨true, t.leaf.hash, none⟩ := by
  obtain ⟨hversion, hnodes, hkey, hroot, htweak⟩ := control_of_commit ht.sound h
  have hset : key.isSet = true := XOnlyKey.isSet_of_tweak htweak
  have hlength : c.control.nodes.length ≤ maxMerges := hnodes ▸ ht.sound.length_nodes_le
  have hcheck : c.control.check c.output t.leaf.script = .ok ⟨true, t.leaf.hash, none⟩ := by
    rw [ControlBlock.check_eq, hversion, if_pos t.supported, if_neg (by omega), hroot, hkey,
      XOnlyKey.isTweakOf_iff.mpr htweak]
    rfl
  refine ⟨hset, ?_, ?_, hcheck⟩
  · refine ControlBlock.parse_serialize ?_ (hkey ▸ hset) hlength
    rw [hversion]
    exact even_of_isSupportedVersion t.supported
  · rw [ControlBlock.verify, hcheck]
    rfl

theorem spendable_of_commit_pair :
    ∃ t c, (ofScript [0x51]).add (.ofLeaf (.ofScript [0x52])) = .ok t ∧
      t.branch.commit basePoint.toParityKey.key = .ok c ∧
      ControlBlock.parse c.control.serialize = .ok c.control ∧
      c.control.verify c.output [0x51] = .ok true := by
  obtain ⟨output, houtput⟩ := Tree.exists_tweak_pair
  obtain ⟨t, ht, hleaf, hbranch⟩ :=
    (ofScript [0x51]).exists_add (.ofLeaf (.ofScript [0x52])) (by decide)
  obtain ⟨c, hc⟩ : ∃ c, t.branch.commit basePoint.toParityKey.key = .ok c := by
    refine ⟨_, Branch.commit_eq_ok_iff.mpr ⟨output, ?_, rfl⟩⟩
    rw [Tree.hash_pair] at houtput
    rw [Branch.tweak, hbranch, Branch.hash_joined]
    exact houtput
  obtain ⟨-, hparse, hverify, -⟩ :=
    spendable_of_commit (.add (.ofScript [0x51]) (.ofLeaf (.ofScript [0x52])) ht) hc
  rw [hleaf] at hverify
  exact ⟨t, c, ht, hc, hparse, hverify⟩

end ScriptTree

end Taproot
