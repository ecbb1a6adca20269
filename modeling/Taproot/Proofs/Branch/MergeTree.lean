import Taproot.Proofs.Branch.Sound
import Taproot.Proofs.Tree.Text

/-!
# The tree of a branch

A branch is a base with branches merged into it, and each of these is again such a branch. Put
together the merges make a tree: the base is its innermost left side, and each merged branch
contributes a tree as the right side of one merge. So a branch is a tree in which the left sides
lead to the base.

The hash of a branch is that of its tree. The text of a branch is written while the merges are gone
through from the base outwards, and it turns out to be a text of its tree as well: again the sides
stand in the order of their hashes, but of two sides with equal hashes the merged one comes first,
and a merged side of which nothing is known is not written at all. As long as everything is written,
the text is the tree as it stands, arranged by that rule.

In the other direction the branch of a tree has that tree, arranged by the rule that decides which
side goes on as the path.

## Main definitions

* `Branch.tree`: the tree of a branch
* `Tree.branchChars`: the text that a branch with the tree has
* `Tree.baseFirst`, `Tree.leads`: which side comes first in a text, and which one goes on
* `Tree.Written`: nothing is missing from the text

## Main results

* `Branch.Built.hash_tree`: a branch has the hash of its tree
* `Branch.Built.chars_eq`: the text of a branch depends on its tree only
* `Tree.branchChars_eq_verbatim`: when it is the text of the arranged tree as it stands
* `Tree.tree_of_toBranch`: the tree of the branch of a tree
-/

namespace Taproot

/-! ### Trees of branches -/

/-- A base as a tree. -/
def Base.tree : Base → Tree
  | bare h => .hidden h
  | leaf l => .leaf l

theorem Base.hash_tree (base : Base) : base.tree.hash = base.hash := by
  cases base with
  | bare h => rfl
  | leaf l => rfl

namespace Branch

mutual

/-- The tree of a branch: the base, and beside it one after the other the trees of the merged
branches. -/
def tree : Branch → Tree
  | mk base merged _ _ => mergedTree base.tree merged

/-- A tree, and beside it one after the other the trees of branches. -/
def mergedTree (t : Tree) : List Branch → Tree
  | [] => t
  | b :: rest => mergedTree (.merge t b.tree) rest

end

variable {b other : Branch}

theorem mergedTree_concat (t : Tree) (merged : List Branch) (other : Branch) :
    mergedTree t (merged ++ [other]) = .merge (mergedTree t merged) other.tree := by
  induction merged generalizing t with
  | nil => rfl
  | cons b merged ih => rw [List.cons_append, mergedTree, mergedTree, ih]

@[simp] theorem tree_ofBase (base : Base) : (ofBase base).tree = base.tree := rfl

@[simp] theorem tree_joined (b other : Branch) :
    (b.joined other).tree = .merge b.tree other.tree := by
  cases b with
  | mk base merged nodes hash =>
    rw [joined, base_mk, merged_mk, tree, tree, mergedTree_concat]

/-- **A branch has the hash of its tree.** -/
theorem Built.hash_tree (h : b.Built) : b.tree.hash = b.hash := by
  induction h with
  | ofBase base => exact base.hash_tree
  | add _ _ h ihb ihother =>
    obtain ⟨-, rfl⟩ := add_eq_ok_iff.mp h
    rw [tree_joined, Tree.hash, ihb, ihother, hash_joined]

end Branch

/-! ### Texts of branches -/

/-- The tree of which there is nothing: its hash is zero, and nothing else is known. -/
def Tree.nothing : Tree := hidden (FixedBytes.zero 32)

theorem Tree.merge_ne_nothing (left right : Tree) : merge left right ≠ nothing := by
  intro h
  cases h

theorem Tree.not_lt_hash_nothing (t : Tree) : ¬t.hash < nothing.hash :=
  t.hash.not_lt_zero

/-- The text of a branch with the tree. The left side of a merge goes on as the path; it comes first
if its hash is smaller. The right side is written as on its own, and on its own nothing is not
written. -/
def Tree.branchChars (alone : Bool) : Tree → List Char
  | hidden h => if alone && h.isZero then [] else Hex.digits h.toList
  | leaf l => l.chars
  | merge left right =>
    if left.hash < right.hash then braced (left.branchChars false) (right.branchChars true)
    else braced (right.branchChars true) (left.branchChars false)

theorem Base.branchChars_tree (alone : Bool) (base : Base) :
    base.tree.branchChars alone = Branch.baseChars alone base := by
  cases base with
  | bare h => rfl
  | leaf l => rfl

namespace Branch

variable {b other : Branch}

/-- The text of a branch that is going to be merged with more. -/
def pathChars : Branch → List Char
  | mk base merged _ _ => mergedChars base.hash (baseChars false base) merged

theorem mergedChars_concat (h : Hash) (cs : List Char) (merged : List Branch) (other : Branch) :
    mergedChars h cs (merged ++ [other]) =
      if (merged.map hash).foldl joinHash h < other.hash then
        braced (mergedChars h cs merged) other.chars
      else braced other.chars (mergedChars h cs merged) := by
  induction merged generalizing h cs with
  | nil => rfl
  | cons b merged ih =>
    rw [List.cons_append, mergedChars, mergedChars, ih, List.map_cons, List.foldl_cons]

theorem pathChars_joined (hb : b.Sound) (other : Branch) :
    (b.joined other).pathChars = if b.hash < other.hash then braced b.pathChars other.chars
      else braced other.chars b.pathChars := by
  have hhash := hb.hash_eq_foldl
  rw [hb.nodes_eq_map] at hhash
  cases b with
  | mk base merged nodes hash =>
    rw [hhash, joined, base_mk, merged_mk, pathChars, pathChars, mergedChars_concat]
    rfl

theorem chars_joined (b other : Branch) : (b.joined other).chars = (b.joined other).pathChars := by
  cases b with
  | mk base merged nodes hash =>
    have hmerged : (merged ++ [other]).isEmpty = false := by cases merged <;> rfl
    rw [joined, base_mk, merged_mk, chars, pathChars, hmerged]

/-- **The text of a branch depends on its tree only.** -/
theorem Built.chars_eq (h : b.Built) :
    b.chars = b.tree.branchChars true ∧ b.pathChars = b.tree.branchChars false := by
  induction h with
  | ofBase base =>
    rw [tree_ofBase, base.branchChars_tree, base.branchChars_tree]
    exact ⟨rfl, rfl⟩
  | @add b other c hb hother h ihb ihother =>
    obtain ⟨-, rfl⟩ := add_eq_ok_iff.mp h
    rw [chars_joined, tree_joined, Tree.branchChars, Tree.branchChars, pathChars_joined hb.sound,
      hb.hash_tree, hother.hash_tree, ihb.2, ihother.1]
    exact ⟨rfl, rfl⟩

end Branch

namespace Tree

variable {t : Tree}

/-- The rule of `Branch.chars`: the left side, which leads to the base, comes first if its hash is
smaller. -/
def baseFirst (left right : Tree) : Bool := decide (left.hash < right.hash)

theorem orderFree_baseFirst : OrderFree baseFirst := by
  intro a a' b b' ha hb
  rw [baseFirst, baseFirst, ha.hash_eq, hb.hash_eq]

theorem baseFirst_of_hash_eq {left right : Tree} (h : left.hash = right.hash) :
    baseFirst left right = false := by
  rw [baseFirst, h]
  exact decide_eq_false fun hlt => FixedBytes.lt_asymm hlt hlt

/-- The right side is written. -/
def Written (_left right : Tree) : Prop := right ≠ nothing

theorem branchChars_true_of_ne (h : t ≠ nothing) : t.branchChars true = t.branchChars false := by
  cases t with
  | hidden hash =>
    have hzero : ¬hash.isZero = true := fun hz => h (congrArg hidden (FixedBytes.isZero_iff.mp hz))
    rw [branchChars, branchChars, Bool.true_and, if_neg hzero]
    rfl
  | leaf l => rfl
  | merge left right => rfl

theorem branchChars_nothing : nothing.branchChars true = [] := by
  have hzero : (FixedBytes.zero 32).isZero = true := FixedBytes.isZero_iff.mpr rfl
  rw [nothing, branchChars, hzero, Bool.and_self, if_pos rfl]

/-- **If everything is written, the text of a branch is the arranged tree as it stands.** -/
theorem branchChars_eq_verbatim (h : t.EveryMerge Written) :
    t.branchChars false = (t.arranged baseFirst).verbatim := by
  induction t with
  | hidden hash => rfl
  | leaf l => rfl
  | merge left right ihl ihr =>
    obtain ⟨hwritten, hleft, hright⟩ := h
    rw [branchChars, branchChars_true_of_ne hwritten, ihl hleft, ihr hright, arranged, baseFirst]
    by_cases hlt : left.hash < right.hash
    · rw [if_pos hlt, if_pos (decide_eq_true hlt), verbatim]
    · rw [if_neg hlt, if_neg (Bool.eq_false_iff.mp (decide_eq_false hlt)), verbatim]

/-! ### Branches of trees -/

/-- Whether there is a leaf in the tree. -/
def hasLeaf : Tree → Bool
  | hidden _ => false
  | leaf _ => true
  | merge left right => left.hasLeaf || right.hasLeaf

theorem Alike.hasLeaf_eq {u : Tree} (h : t.Alike u) : t.hasLeaf = u.hasLeaf := by
  induction h with
  | hidden h => rfl
  | leaf l => rfl
  | merge _ _ ihl ihr => rw [hasLeaf, hasLeaf, ihl, ihr]
  | swap _ _ ihl ihr => rw [hasLeaf, hasLeaf, ihl, ihr, Bool.or_comm]

/-- The rule of `Tree.toBranch`: the left side goes on, unless only the right one has a leaf. -/
def leads (left right : Tree) : Bool := left.hasLeaf || !right.hasLeaf

theorem orderFree_leads : OrderFree leads := by
  intro a a' b b' ha hb
  rw [leads, leads, ha.hasLeaf_eq, hb.hasLeaf_eq]

/-- There is a leaf in two trees side by side if there is one in the side that goes on. -/
theorem hasLeaf_merge (left right : Tree) :
    (merge left right).hasLeaf = if leads left right then left.hasLeaf else right.hasLeaf := by
  rw [hasLeaf, leads]
  cases left.hasLeaf <;> cases right.hasLeaf <;> rfl

/-- **The branch of a tree has that tree**, arranged so that the left sides go on. -/
theorem tree_of_toBranch {b : Branch} (h : t.toBranch = .ok b) :
    b.tree = t.arranged leads ∧ b.leaf?.isSome = t.hasLeaf := by
  induction t generalizing b with
  | hidden hash => cases h; exact ⟨rfl, rfl⟩
  | leaf l => cases h; exact ⟨rfl, rfl⟩
  | merge left right ihl ihr =>
    obtain ⟨bl, hl, h⟩ := bind_eq_ok_iff.mp h
    obtain ⟨br, hr, h⟩ := bind_eq_ok_iff.mp h
    obtain ⟨hltree, hlleaf⟩ := ihl hl
    obtain ⟨hrtree, hrleaf⟩ := ihr hr
    have hside : (bl.leaf?.isNone && br.leaf?.isSome) = !leads left right := by
      rw [← Option.not_isSome, hlleaf, hrleaf, leads, Bool.not_or, Bool.not_not]
    rw [Branch.join, hside] at h
    rw [arranged, hasLeaf_merge]
    cases hleads : leads left right with
    | false =>
      rw [hleads] at h
      obtain ⟨-, rfl⟩ := Branch.add_eq_ok_iff.mp h
      rw [Branch.tree_joined, hltree, hrtree, if_neg Bool.false_ne_true, if_neg Bool.false_ne_true]
      exact ⟨rfl, hrleaf⟩
    | true =>
      rw [hleads] at h
      obtain ⟨-, rfl⟩ := Branch.add_eq_ok_iff.mp h
      rw [Branch.tree_joined, hltree, hrtree, if_pos rfl, if_pos rfl]
      exact ⟨rfl, hlleaf⟩

end Tree

end Taproot
