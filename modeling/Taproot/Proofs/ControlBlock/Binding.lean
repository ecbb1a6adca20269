import Taproot.Proofs.Collision
import Taproot.Proofs.ControlBlock.Commit
import Taproot.Proofs.Key.Tweak
import Taproot.Proofs.Tree.Places

/-!
# Commitments bind

Whoever has committed a key to a tree can spend the leaves of that tree and nothing else: a control
block that passes the check shows a leaf of the tree, with the nodes of the path to it. Otherwise
two different byte strings with the same hash have been hashed, either to make the commitment or to
check the block.

The argument walks down the tree along the nodes of the block, from the last one, which is next to
the root. At each step two hashes are equal, so what was hashed for them is equal: the same tag, and
the same pair of hashes up to the order. The tags see to it that the walk ends where a leaf is. That
the roots are equal to begin with comes from the tweaks, of which only one leads to the output key.

## Main definitions

* `Tree.Revealed`: a tree of which no part is hidden behind a hash
* `Tree.inputs`, `joinInputs`, `ControlBlock.inputs`: the byte strings that are hashed

## Main results

* `Tree.exists_place_or_collision`: nodes that lead to the root of a tree are those of a leaf
* `ControlBlock.exists_place_of_check`: a block that passes the check shows a leaf of the tree
-/

namespace Taproot

/-! ### What is hashed -/

namespace Tree

/-- No part of the tree is hidden behind a hash. -/
def Revealed : Tree → Prop
  | hidden _ => False
  | leaf _ => True
  | merge left right => left.Revealed ∧ right.Revealed

/-- The byte strings that are hashed for a tree. -/
def inputs : Tree → List Bytes
  | hidden _ => []
  | leaf l => Tag.leaf.inputs (leafPreimage l.version l.script)
  | merge left right =>
    Tag.branch.inputs (branchPreimage left.hash right.hash) ++ (left.inputs ++ right.inputs)

end Tree

/-- The byte strings that are hashed when nodes are joined to a hash, one after the other. -/
def joinInputs : Hash → List Hash → List Bytes
  | _, [] => []
  | h, node :: nodes => Tag.branch.inputs (branchPreimage h node) ++ joinInputs (joinHash h node) nodes

theorem joinInputs_concat (h : Hash) (nodes : List Hash) (node : Hash) :
    joinInputs h (nodes ++ [node]) =
      joinInputs h nodes ++ Tag.branch.inputs (branchPreimage (nodes.foldl joinHash h) node) := by
  induction nodes generalizing h with
  | nil => exact List.append_nil _
  | cons first nodes ih =>
    rw [List.cons_append, joinInputs, joinInputs, ih, List.append_assoc, List.foldl_cons]

/-- The byte strings that are hashed when a block is checked for a script. -/
def ControlBlock.inputs (c : ControlBlock) (script : Script) : List Bytes :=
  Tag.leaf.inputs (leafPreimage c.version script) ++
    (joinInputs (leafHash c.version script) c.nodes ++
      Tag.tweak.inputs (tweakPreimage c.internalKey (c.root script)))

/-! ### The walk down the tree -/

namespace Tree

variable {inputs : List Bytes}

/-- A leaf and a pair have different hashes, or there is a collision. -/
theorem collision_of_leafHash_eq {version : UInt8} {script : Script} {a b : Hash}
    (hleaf : Tag.leaf.inputs (leafPreimage version script) ⊆ inputs)
    (hjoin : Tag.branch.inputs (branchPreimage a b) ⊆ inputs)
    (h : leafHash version script = joinHash a b) : Collision inputs := by
  rcases Tag.hash_inj_or_collision hleaf hjoin h with ⟨htag, -⟩ | hcoll
  · cases htag
  · exact hcoll

theorem leaf_eq_or_collision {l l' : Leaf}
    (hleaf : Tag.leaf.inputs (leafPreimage l.version l.script) ⊆ inputs)
    (hleaf' : Tag.leaf.inputs (leafPreimage l'.version l'.script) ⊆ inputs)
    (h : l.hash = l'.hash) : l = l' ∨ Collision inputs := by
  rcases Tag.hash_inj_or_collision hleaf hleaf' h with ⟨-, hpre⟩ | hcoll
  · obtain ⟨hversion, hscript⟩ := leafPreimage_inj.mp hpre
    cases l
    cases l'
    exact Or.inl (congrArg₂ Leaf.mk hversion hscript)
  · exact Or.inr hcoll

theorem joinHash_inj_or_collision {a b c d : Hash}
    (hjoin : Tag.branch.inputs (branchPreimage a b) ⊆ inputs)
    (hjoin' : Tag.branch.inputs (branchPreimage c d) ⊆ inputs)
    (h : joinHash a b = joinHash c d) :
    (a = c ∧ b = d) ∨ (a = d ∧ b = c) ∨ Collision inputs := by
  rcases Tag.hash_inj_or_collision hjoin hjoin' h with ⟨-, hpre⟩ | hcoll
  · exact (branchPreimage_eq_iff.mp hpre).imp_right Or.inl
  · exact Or.inr (Or.inr hcoll)

/-- **Nodes that lead from a leaf to the root of a tree are those of a place of that leaf**, or
there is a collision. -/
theorem exists_place_or_collision {t : Tree} (ht : t.Revealed) {l : Leaf} {nodes : List Hash}
    (htree : t.inputs ⊆ inputs) (hleaf : Tag.leaf.inputs (leafPreimage l.version l.script) ⊆ inputs)
    (hnodes : joinInputs l.hash nodes ⊆ inputs) (h : nodes.foldl joinHash l.hash = t.hash) :
    (∃ place ∈ t.places, place.subtree = leaf l ∧ place.nodes = nodes) ∨ Collision inputs := by
  induction t generalizing nodes with
  | hidden hash => exact ht.elim
  | leaf l' =>
    rcases List.eq_nil_or_concat' nodes with rfl | ⟨below, node, rfl⟩
    · rcases leaf_eq_or_collision hleaf htree h with rfl | hcoll
      · exact Or.inl ⟨⟨leaf l, []⟩, List.mem_singleton_self _, rfl, rfl⟩
      · exact Or.inr hcoll
    · rw [List.foldl_append, List.foldl_cons, List.foldl_nil] at h
      rw [joinInputs_concat] at hnodes
      exact Or.inr (collision_of_leafHash_eq htree (List.append_subset.mp hnodes).2 h.symm)
  | merge left right ihl ihr =>
    obtain ⟨hroot, hsides⟩ := List.append_subset.mp htree
    obtain ⟨hleft, hright⟩ := List.append_subset.mp hsides
    rcases List.eq_nil_or_concat' nodes with rfl | ⟨below, node, rfl⟩
    · exact Or.inr (collision_of_leafHash_eq hleaf hroot h)
    · rw [List.foldl_append, List.foldl_cons, List.foldl_nil] at h
      rw [joinInputs_concat] at hnodes
      obtain ⟨hbelow, hnode⟩ := List.append_subset.mp hnodes
      -- the last node is the hash of one side, and the others lead to the other side
      rcases joinHash_inj_or_collision hnode hroot h with ⟨hside, rfl⟩ | ⟨hside, rfl⟩ | hcoll
      · rcases ihl ht.1 hleft hbelow hside with ⟨place, hplace, hsubtree, rfl⟩ | hcoll
        · exact Or.inl ⟨place.above [right], mem_places_merge_iff.mpr (Or.inr (Or.inl
            ⟨place, hplace, rfl⟩)), hsubtree, place.nodes_above [right]⟩
        · exact Or.inr hcoll
      · rcases ihr ht.2 hright hbelow hside with ⟨place, hplace, hsubtree, rfl⟩ | hcoll
        · exact Or.inl ⟨place.above [left], mem_places_merge_iff.mpr (Or.inr (Or.inr
            ⟨place, hplace, rfl⟩)), hsubtree, place.nodes_above [left]⟩
        · exact Or.inr hcoll
      · exact Or.inr hcoll

end Tree

/-! ### The check -/

/-- Commitments of one key to two roots lead to one output key only if the roots are equal, or there
is a collision. -/
theorem root_eq_or_collision {inputs : List Bytes} {key : XOnlyKey} {r s : Hash}
    {output : ParityKey} (hr : Tag.tweak.inputs (tweakPreimage key r) ⊆ inputs)
    (hs : Tag.tweak.inputs (tweakPreimage key s) ⊆ inputs)
    (houtput : key.tweak (commitmentTweak key r) = .ok output)
    (houtput' : key.tweak (commitmentTweak key s) = .ok output) : r = s ∨ Collision inputs := by
  have htweak := XOnlyKey.tweak_inj houtput houtput'
  rcases Tag.hash_inj_or_collision hr hs htweak with ⟨-, hpre⟩ | hcoll
  · exact Or.inl (tweakPreimage_inj.mp hpre).2
  · exact Or.inr hcoll

/-- **A block that passes the check shows a leaf of the tree.** The key has been committed to a tree
of which nothing is hidden. Then the version of the block and the script are a leaf of the tree, and
the nodes of the block are the hashes of its siblings; or two different byte strings with the same
hash are among those that were hashed for the tree, for the commitment and for the check. -/
theorem ControlBlock.exists_place_of_check {t : Tree} (ht : t.Revealed) {key output : XOnlyKey}
    {odd : Bool} (hcommit : key.tweak (commitmentTweak key t.hash) = .ok ⟨output, odd⟩)
    {version : UInt8} {script : Script} {nodes : List Hash} {v : Verdict}
    (hcheck : check ⟨version, odd, key, nodes⟩ output script = .ok v) (hvalid : v.valid = true) :
    (∃ place ∈ t.places, place.subtree = .leaf ⟨version, script⟩ ∧ place.nodes = nodes) ∨
      Collision (t.inputs ++ Tag.tweak.inputs (tweakPreimage key t.hash) ++
        inputs ⟨version, odd, key, nodes⟩ script) := by
  obtain ⟨-, -, hblock⟩ := check_valid_iff.mp ⟨v, hcheck, hvalid⟩
  have hsub := List.append_subset.mp (List.Subset.refl (t.inputs ++
    Tag.tweak.inputs (tweakPreimage key t.hash) ++ inputs ⟨version, odd, key, nodes⟩ script))
  obtain ⟨htree, htweak⟩ := List.append_subset.mp hsub.1
  obtain ⟨hleaf, hrest⟩ := List.append_subset.mp hsub.2
  obtain ⟨hnodes, htweak'⟩ := List.append_subset.mp hrest
  rcases root_eq_or_collision htweak' htweak hblock hcommit with hroot | hcoll
  · exact Tree.exists_place_or_collision ht htree hleaf hnodes hroot
  · exact Or.inr hcoll

theorem ControlBlock.exists_place_of_check_pair : ∃ output odd v,
    basePoint.toParityKey.key.tweak (commitmentTweak basePoint.toParityKey.key Tree.pair.hash) =
        .ok ⟨output, odd⟩ ∧
      check ⟨0xc0, odd, basePoint.toParityKey.key, [(Leaf.ofScript [0x52]).hash]⟩ output [0x51] =
        .ok v ∧ v.valid = true ∧
      ((∃ place ∈ Tree.pair.places, place.subtree = .leaf ⟨0xc0, [0x51]⟩ ∧
          place.nodes = [(Leaf.ofScript [0x52]).hash]) ∨
        Collision (Tree.pair.inputs ++
          Tag.tweak.inputs (tweakPreimage basePoint.toParityKey.key Tree.pair.hash) ++
          inputs ⟨0xc0, odd, basePoint.toParityKey.key, [(Leaf.ofScript [0x52]).hash]⟩ [0x51])) := by
  obtain ⟨⟨output, odd⟩, hcommit⟩ := Tree.exists_tweak_pair
  have hroot : root ⟨0xc0, odd, basePoint.toParityKey.key, [(Leaf.ofScript [0x52]).hash]⟩ [0x51] =
      Tree.pair.hash := by
    rw [Tree.hash_pair, root, List.foldl_cons, List.foldl_nil]
    rfl
  obtain ⟨v, hcheck, hvalid⟩ : ∃ v, check ⟨0xc0, odd, basePoint.toParityKey.key,
      [(Leaf.ofScript [0x52]).hash]⟩ output [0x51] = .ok v ∧ v.valid = true := by
    refine check_valid_iff.mpr ⟨(ScriptTree.ofScript [0x51]).supported, ?_, ?_⟩
    · change 1 ≤ maxMerges
      decide
    · rw [hroot]
      exact hcommit
  exact ⟨output, odd, v, hcommit, hcheck, hvalid,
    exists_place_of_check (t := Tree.pair) ⟨trivial, trivial⟩ hcommit hcheck hvalid⟩

end Taproot
