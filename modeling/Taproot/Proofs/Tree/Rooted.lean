import Taproot.Proofs.Branch.Sound
import Taproot.Proofs.Tree.Depth

/-!
# Trees rooted at their places

A tree is rooted at one of its places by making a branch of the subtree there and merging the
siblings into it. Both parts have merges: the subtree as many as it is deep, at most, and one for
each sibling. Their sum is what counts against the limit. It is not more than the depth of the whole
tree, since every sibling stands for a tree that encloses the subtree.

The nodes of such a branch are those of the subtree followed by those of the siblings. So the path
of the place is found at their end, behind a part that is different for every subtree.

## Main results

* `Place.exists_toBranch`: a tree that is not too deep can be rooted at each of its places
* `Place.toBranch_above`: a further sibling is a further merge
-/

namespace Taproot

namespace Place

/-- **A tree that is not too deep can be rooted at each of its places.** The branch goes on where
the branch of the subtree ends, has the siblings as its last nodes, and has the hash of the tree. -/
theorem exists_toBranch {t : Tree} (ht : t.depth ≤ maxMerges) {place : Place}
    (hplace : place ∈ t.places) :
    ∃ b c, place.subtree.toBranch = .ok b ∧ b.hash = place.subtree.hash ∧
      place.toBranch = .ok c ∧ c.base = b.base ∧ c.nodes = b.nodes ++ place.nodes ∧
      c.hash = t.hash := by
  have hdepth := Tree.depth_add_length_le hplace
  obtain ⟨b, hb, hhash, hlength⟩ := @Tree.exists_toBranch place.subtree (by omega)
  have hroom : b.merged.length + place.siblings.length ≤ maxMerges := by omega
  have hsiblings : ∀ s ∈ place.siblings, ∃ other, s.toBranch = .ok other ∧ other.hash = s.hash := by
    intro s hs
    have hle := Tree.depth_le_of_mem_siblings hplace hs
    obtain ⟨other, hother, hhash, -⟩ := Tree.exists_toBranch (Nat.le_trans hle ht)
    exact ⟨other, hother, hhash⟩
  obtain ⟨c, hc, hbase, hnodes, hchash⟩ :=
    b.exists_foldlM_add Tree.toBranch Tree.hash hsiblings hroom
  refine ⟨b, c, hb, hhash, bind_eq_ok_iff.mpr ⟨b, hb, hc⟩, hbase, hnodes, ?_⟩
  rw [hchash, hhash]
  exact Tree.hash_of_mem_places hplace

/-- **A further sibling is a further merge.** -/
theorem toBranch_above (place : Place) (other : Tree) :
    (place.above [other]).toBranch = (do (← place.toBranch).add (← other.toBranch)) := by
  rw [toBranch, toBranch, above, bind_assoc]
  refine bind_congr fun b => ?_
  rw [Branch.addTrees, Branch.addTrees, List.foldlM_append]
  refine bind_congr fun c => ?_
  rw [List.foldlM_cons]
  simp only [List.foldlM_nil, bind_pure]

end Place

end Taproot
