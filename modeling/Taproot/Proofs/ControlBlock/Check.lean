import Mathlib.Data.Nat.Notation
import Taproot.ControlBlock
import Taproot.Proofs.Branch.Sound
import Taproot.Proofs.Refusal

/-!
# What a check of a control block computes

Checking a control block makes a script tree of the leaf and merges the nodes into it, one at a
time. No merge can be refused, as the number of nodes has been tested before; what remains of the
tree is its hash, which is the hash of the leaf joined with the nodes in order. So a check is an
equation between keys, behind a test of the version and a test of the number of nodes.

## Main definitions

* `ControlBlock.root`: the root of the tree that a block and a script belong to

## Main results

* `ControlBlock.check_eq`: the outcome of a check in every case
* `ControlBlock.check_valid_iff`, `ControlBlock.verify_eq_true_iff`: when a check succeeds
* `ControlBlock.fault_of_verify`: the only fault of a check
-/

namespace Taproot.ControlBlock

/-- The root that the nodes of a block lead to from the leaf of a script. -/
def root (c : ControlBlock) (script : Script) : Hash :=
  c.nodes.foldl joinHash (leafHash c.version script)

/-- Merging nodes succeeds while there is room for them, and joins them to the hash. -/
theorem exists_addNodes (t : ScriptTree) (nodes : List Hash)
    (hroom : t.branch.merged.length + nodes.length ≤ maxMerges) :
    ∃ t', addNodes t nodes = .ok t' ∧ t'.branch.hash = nodes.foldl joinHash t.branch.hash := by
  obtain ⟨t', ht', -, -, hroot⟩ := ScriptTree.exists_foldlM_add (fun node => .ok (.ofHash node)) id
    t (fun node _ => ⟨_, rfl, rfl⟩) hroom
  rw [List.map_id] at hroot
  exact ⟨t', ht', hroot⟩

/-- **The outcome of a check in every case.** -/
theorem check_eq (c : ControlBlock) (output : XOnlyKey) (script : Script) :
    c.check output script =
      if isSupportedVersion c.version then
        .ok <| if maxMerges < c.nodes.length then
          ⟨false, leafHash c.version script, some c.nodes.length⟩
        else
          ⟨output.isTweakOf c.internalKey (commitmentTweak c.internalKey (c.root script)) c.odd,
            leafHash c.version script, none⟩
      else .error (.leafVersion c.version) := by
  by_cases hversion : isSupportedVersion c.version = true
  · obtain ⟨single, hsingle⟩ : ∃ t, ScriptTree.ofLeaf ⟨c.version, script⟩ = .ok t :=
      ⟨_, dif_pos hversion⟩
    have hbranch := ScriptTree.branch_of_ofLeaf hsingle
    have hleaf := ScriptTree.leaf_of_ofLeaf hsingle
    rw [check, hsingle, ok_bind, if_pos hversion, hleaf]
    by_cases hnodes : maxMerges < c.nodes.length
    · rw [if_pos hnodes, if_pos hnodes]
      rfl
    · obtain ⟨t, ht, hroot⟩ := exists_addNodes single c.nodes (by
        rw [hbranch]
        change 0 + _ ≤ _
        omega)
      rw [if_neg hnodes, if_neg hnodes, ht, ok_bind, Branch.tweak, hroot, hbranch]
      rfl
  · rw [check, ScriptTree.ofLeaf, dif_neg hversion, if_neg hversion, error_bind]

/-- **A check succeeds exactly when the output key is the internal key after the tweak by the
root, with the parity of the block.** -/
theorem check_valid_iff {c : ControlBlock} {output : XOnlyKey} {script : Script} :
    (∃ v, c.check output script = .ok v ∧ v.valid = true) ↔
      isSupportedVersion c.version = true ∧ c.nodes.length ≤ maxMerges ∧
        c.internalKey.tweak (commitmentTweak c.internalKey (c.root script)) =
          .ok ⟨output, c.odd⟩ := by
  rw [check_eq, ← XOnlyKey.isTweakOf_iff]
  split_ifs with hversion hnodes
  · simp only [Except.ok.injEq, exists_eq_left', reduceCtorEq, hversion, true_and, false_iff]
    omega
  · simp only [Except.ok.injEq, exists_eq_left', hversion, true_and, iff_and_self]
    omega
  · simp only [reduceCtorEq, false_and, exists_false, hversion]

theorem verify_eq_true_iff {c : ControlBlock} {output : XOnlyKey} {script : Script} :
    c.verify output script = .ok true ↔
      ∃ v, c.check output script = .ok v ∧ v.valid = true := by
  rw [verify, bind_eq_ok_iff]
  exact exists_congr fun v => and_congr_right fun _ => Except.ok.injEq v.valid true ▸ Iff.rfl

/-- The only fault of a check of at most 128 nodes is an unsupported version. -/
theorem fault_of_verify {c : ControlBlock} {output : XOnlyKey} {script : Script}
    {fault : TreeError} (h : c.verify output script = .error fault) :
    fault = .leafVersion c.version := by
  rw [verify, check_eq] at h
  split at h
  · cases h
  · cases h
    rfl

end Taproot.ControlBlock
