import Taproot.Branch.Basic
import Taproot.Tree.Parser

/-!
# Branches of trees

A tree becomes a branch by choosing, at each merge, the side that goes on as the path; the other
side becomes a branch of its own and is merged into it. The left side goes on, unless only the
right side leads to a leaf. So the branch of a tree starts from its first leaf, if it has one.

A tree can also be rooted anew at a place of one's choice: the branch of the subtree there, with
the branches of its siblings merged into it from the nearest up to the root.

## Main definitions

* `Tree.toBranch`: the branch of a tree;
* `Place.toBranch`: the branch of a tree, rooted at a place;
* `Branch.ofText`, `Branch.ofTextAt`: the same for texts, the second at the first subtree with a
  given hash.
-/

namespace Taproot

/-- Merges the side that does not go on into the one that does. -/
def Branch.join (left right : Branch) : Except TreeError Branch :=
  if left.leaf?.isNone && right.leaf?.isSome then right.add left else left.add right

/-- The branch of a tree. -/
def Tree.toBranch : Tree → Except TreeError Branch
  | .hidden h => .ok (.ofHash h)
  | .leaf l => .ok (.ofLeaf l)
  | .merge left right => do Branch.join (← left.toBranch) (← right.toBranch)

/-- Merges the branches of trees, in order. -/
def Branch.addTrees (b : Branch) (trees : List Tree) : Except TreeError Branch :=
  trees.foldlM (fun b t => do b.add (← t.toBranch)) b

/-- The branch of a tree, rooted at a place of it. -/
def Place.toBranch (place : Place) : Except TreeError Branch := do
  (← place.subtree.toBranch).addTrees place.siblings

namespace Tree

/-- The first place of a tree whose subtree has the given hash. -/
def placeOfHash? (t : Tree) (target : Hash) : Option Place :=
  t.places.find? fun place => place.subtree.hash = target

/-- The branch of a tree, rooted at the first subtree with the given hash. -/
def toBranchAt (t : Tree) (target : Hash) : Except TreeError Branch := do
  (← orFault .subtreeNotInTree (t.placeOfHash? target)).toBranch

end Tree

namespace Branch

/-- Reads a text as a tree; the empty text is the empty branch. -/
def ofText (text : String) : Except TreeError Branch :=
  if text = "" then .ok empty else do (← Tree.parse text).toBranch

/-- Reads a text as a tree and roots it at the first subtree with the given hash. -/
def ofTextAt (text : String) (target : Hash) : Except TreeError Branch := do
  (← Tree.parse text).toBranchAt target

end Branch

end Taproot
