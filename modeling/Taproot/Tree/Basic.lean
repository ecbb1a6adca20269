import Taproot.Tree.Leaf

/-!
# Script trees

A script tree is a leaf, a subtree of which only the hash is known, or two trees side by side.
Its hash joins the hashes of its parts, so hiding a subtree behind its hash does not change the
hash of the tree, and neither does exchanging two sides.

The text of a tree writes two sides as `{`, the first, a comma, the second and `}`. The side
with the smaller hash is written first. If the hashes are equal the left side is.

A subtree has *siblings*: the trees beside the path from it to the root, the nearest first. The
places of a tree list every subtree with its siblings, each tree before its parts and the left
part before the right one.

## Main definitions

* `Tree`, `Tree.hash`: trees and their hashes;
* `Tree.chars`, `Tree.text`: the text of a tree;
* `Place`, `Tree.places`: the subtrees of a tree with their siblings;
* `Place.nodes`, `Place.hasNodes`: the hashes of the siblings, and whether they are given ones.

## Main results

* `Tree.hash_written`, `Tree.chars_merge`: the text written in one pass is the one described;
* `Place.hasNodes_iff`: comparing the siblings one at a time compares their hashes.
-/

namespace Taproot

/-- The text of two sides, in the given order. -/
def braced (first second : List Char) : List Char :=
  '\x7b' :: (first ++ ',' :: (second ++ ['\x7d']))

/-- A script tree. -/
inductive Tree where
  /-- A subtree known only by its hash. -/
  | hidden (hash : Hash)
  /-- A single leaf. -/
  | leaf (leaf : Leaf)
  /-- Two trees side by side. -/
  | merge (left right : Tree)
deriving DecidableEq

namespace Tree

/-- The hash of a tree. -/
def hash : Tree → Hash
  | hidden h => h
  | leaf l => l.hash
  | merge left right => joinHash left.hash right.hash

/-! ### The text -/

/-- The hash of a tree together with the characters of its text. -/
def written : Tree → Hash × List Char
  | hidden h => (h, Hex.digits h.toList)
  | leaf l => (l.hash, l.chars)
  | merge left right =>
    let a := left.written
    let b := right.written
    (joinHash a.1 b.1, if b.1 < a.1 then braced b.2 a.2 else braced a.2 b.2)

/-- The characters of the text of a tree. -/
def chars (t : Tree) : List Char := t.written.2

/-- The text of a tree. -/
def text (t : Tree) : String := String.ofList t.chars

/-- A description of a tree: its text under a name. -/
def describe (t : Tree) : String := "TapTree(" ++ t.text ++ ")"

theorem hash_written (t : Tree) : t.written.1 = t.hash := by
  induction t with
  | hidden h => rfl
  | leaf l => rfl
  | merge left right ihl ihr => simp only [written, hash, ihl, ihr]

@[simp] theorem chars_hidden (h : Hash) : (hidden h).chars = Hex.digits h.toList := rfl

@[simp] theorem chars_leaf (l : Leaf) : (leaf l).chars = l.chars := rfl

theorem chars_merge (left right : Tree) :
    (merge left right).chars =
      if right.hash < left.hash then braced right.chars left.chars
      else braced left.chars right.chars := by
  simp only [chars, written, hash_written]

/-! ### Subtrees and their siblings -/

end Tree

/-- A subtree of a tree, with its siblings from the nearest one up to the root. -/
structure Place where
  /-- The subtree. -/
  subtree : Tree
  /-- The trees beside the path to the root, the nearest first. -/
  siblings : List Tree
deriving DecidableEq

namespace Tree

/-- The places below a subtree that itself has the given siblings. -/
def placesBelow (siblings : List Tree) : Tree → List Place
  | hidden h => [⟨hidden h, siblings⟩]
  | leaf l => [⟨leaf l, siblings⟩]
  | merge left right =>
    ⟨merge left right, siblings⟩ ::
      (left.placesBelow (right :: siblings) ++ right.placesBelow (left :: siblings))

/-- The places of a tree. -/
def places (t : Tree) : List Place := t.placesBelow []

end Tree

namespace Place

/-- The hashes of the siblings, the nearest first. -/
def nodes (place : Place) : List Hash := place.siblings.map Tree.hash

/-- Whether the siblings have the given hashes. Comparing stops at the first difference, so the
hashes of the siblings further up are often not needed. -/
def hasNodes (place : Place) (nodes : List Hash) : Bool :=
  decide (place.siblings.length = nodes.length) &&
    (place.siblings.zip nodes).all fun pair => decide (pair.1.hash = pair.2)

theorem hasNodes_iff {place : Place} {nodes : List Hash} :
    place.hasNodes nodes = true ↔ place.nodes = nodes := by
  obtain ⟨subtree, siblings⟩ := place
  simp only [hasNodes, Place.nodes]
  induction siblings generalizing nodes with
  | nil => cases nodes <;> simp
  | cons t rest ih => cases nodes with
    | nil => simp
    | cons h hs =>
      have := @ih hs
      simp only [Bool.and_eq_true, decide_eq_true_eq] at this
      simp only [List.length_cons, Nat.add_right_cancel_iff, List.zip_cons_cons, List.all_cons,
        Bool.and_eq_true, decide_eq_true_eq, List.map_cons, List.cons.injEq, ← this]
      exact ⟨fun ⟨hl, ht, ha⟩ => ⟨ht, hl, ha⟩, fun ⟨ht, hl, ha⟩ => ⟨hl, ht, ha⟩⟩

end Place

end Taproot
