import Taproot.Proofs.Branch.Rooting
import Taproot.Proofs.Branch.Subtree

/-!
# The branch of a tree and its first leaf

The branch of a tree is put together from the leaves upwards, and at each merge the left side goes
on unless only the right one leads to a leaf. In the end this amounts to rooting the tree at its
first leaf: where the first leaf is on the left, the left side goes on, and where it is on the right
there is none on the left. So the nodes are the hashes of the siblings of this leaf, and what was
merged into the base are the branches of these siblings. If there is no leaf at all, the first
hidden subtree takes its place, and nothing has to be said about where it is.

Nothing is lost on the way. Unfolded again the branch is the tree up to the order of sides, and has
the same leaves and hidden subtrees, each as often. Nor can there be a lack of room in a tree that
was read from a text, whether it is rooted at the first leaf, at another one or at a subtree.

## Main definitions

* `Tree.firstLeaf?`: the place of the first leaf
* `Tree.ends`: the leaves and the hidden subtrees of a tree
* `TreeError.isExcess`: a refusal for the number of merges or nodes

## Main results

* `Tree.toBranch_of_firstLeaf?`: the branch of a tree is the tree rooted at its first leaf
* `Tree.head?_leafPaths_of_toBranch`: the first leaf and its siblings can be read off the branch
* `Tree.Alike.perm_ends`: exchanging sides moves leaves and hidden subtrees
* `Tree.toBranch_faithful`: what the branch of a tree keeps, and that texts leave room
-/

namespace Taproot

/-! ### The first leaf -/

namespace Place

/-- Whether there is a leaf at the place. -/
def isLeaf (place : Place) : Bool := place.leafPath?.isSome

theorem isLeaf_above (place : Place) (other : Tree) :
    (place.above [other]).isLeaf = place.isLeaf := by
  rw [isLeaf, isLeaf, leafPath?_above, Option.isSome_map]

theorem exists_leaf_of_isLeaf {place : Place} (h : place.isLeaf = true) :
    ∃ l, place.subtree = .leaf l ∧ place.leafPath? = some (l, place.nodes) := by
  obtain ⟨⟨l, nodes⟩, hpath⟩ := Option.isSome_iff_exists.mp h
  obtain ⟨hleaf, rfl⟩ := leafPath?_eq_some_iff.mp hpath
  exact ⟨l, hleaf, hpath⟩

end Place

namespace Tree

variable {t u : Tree} {place : Place} {b : Branch}

/-- The place of the first leaf of a tree. -/
def firstLeaf? (t : Tree) : Option Place := t.places.find? Place.isLeaf

/-- The first leaf of two trees side by side is that of the left one, if it has any. -/
theorem firstLeaf?_merge (left right : Tree) :
    (merge left right).firstLeaf? = (left.firstLeaf?.map (·.above [right])).or
      (right.firstLeaf?.map (·.above [left])) := by
  have hside (t other : Tree) :
      (t.placesBelow [other]).find? Place.isLeaf = t.firstLeaf?.map (·.above [other]) := by
    have hcomp : Place.isLeaf ∘ (·.above [other]) = Place.isLeaf :=
      funext fun place => place.isLeaf_above other
    rw [placesBelow_eq, List.find?_map, hcomp, firstLeaf?]
  have hroot : ¬Place.isLeaf ⟨merge left right, []⟩ = true := Bool.false_ne_true
  rw [firstLeaf?, places, placesBelow, List.find?_cons_of_neg hroot, List.find?_append, hside,
    hside]

theorem isSome_firstLeaf? (t : Tree) : t.firstLeaf?.isSome = t.hasLeaf := by
  induction t with
  | hidden hash => rfl
  | leaf l => rfl
  | merge left right ihl ihr =>
    rw [firstLeaf?_merge, Option.isSome_or, Option.isSome_map, Option.isSome_map, ihl, ihr, hasLeaf]

theorem head?_leafPaths (t : Tree) :
    t.leafPaths.head? = t.firstLeaf?.bind Place.leafPath? := by
  have hhead : t.leafPaths.head? = t.leafPaths.find? fun _ => true := by
    cases t.leafPaths <;> rfl
  rw [hhead, leafPaths_eq, List.find?_filterMap]
  simp only [Option.any_true]
  rfl

/-! ### The branch of a tree -/

/-- The left side goes on if it leads to a leaf. -/
theorem join_of_isSome {left right : Branch} (h : left.leaf?.isSome = true) :
    left.join right = left.add right := by
  rw [Branch.join, Option.isNone_eq_false_iff.mpr h, Bool.false_and, if_neg Bool.false_ne_true]

/-- The right side goes on if only that one does. -/
theorem join_of_isNone {left right : Branch} (hl : left.leaf?.isSome = false)
    (hr : right.leaf?.isSome = true) : left.join right = right.add left := by
  rw [Branch.join, ← Option.not_isSome, hl, hr]
  rfl

/-- **The branch of a tree is the tree rooted at its first leaf.** -/
theorem toBranch_of_firstLeaf? (ht : t.depth ≤ maxMerges) (h : t.firstLeaf? = some place) :
    t.toBranch = place.toBranch := by
  induction t generalizing place with
  | hidden hash => cases h
  | leaf l =>
    cases h
    rfl
  | merge left right ihl ihr =>
    rw [depth] at ht
    have hdl : left.depth ≤ maxMerges := by omega
    have hdr : right.depth ≤ maxMerges := by omega
    obtain ⟨bl, hbl, -⟩ := exists_toBranch hdl
    obtain ⟨br, hbr, -⟩ := exists_toBranch hdr
    have hleft := (tree_of_toBranch hbl).2.trans left.isSome_firstLeaf?.symm
    have hright := (tree_of_toBranch hbr).2.trans right.isSome_firstLeaf?.symm
    rw [firstLeaf?_merge] at h
    rw [toBranch, hbl, hbr, ok_bind, ok_bind]
    cases hfirst : left.firstLeaf? with
    | some p =>
      rw [hfirst] at h hleft
      cases h
      rw [join_of_isSome hleft, Place.toBranch_above, ← ihl hdl hfirst, hbl, hbr, ok_bind, ok_bind]
    | none =>
      rw [hfirst, Option.map_none, Option.none_or] at h
      obtain ⟨p, hp, rfl⟩ := Option.map_eq_some_iff.mp h
      rw [hfirst] at hleft
      rw [hp] at hright
      rw [join_of_isNone hleft hright, Place.toBranch_above, ← ihr hdr hp, hbl, hbr, ok_bind,
        ok_bind]

/-- **The first leaf and its siblings can be read off the branch**, and if the branch has no leaf
there is none in the tree. -/
theorem head?_leafPaths_of_toBranch (ht : t.depth ≤ maxMerges) (hb : t.toBranch = .ok b) :
    t.leafPaths.head? = b.leaf?.map fun l => (l, b.nodes) := by
  rw [head?_leafPaths]
  cases hfirst : t.firstLeaf? with
  | none =>
    have hnone := (tree_of_toBranch hb).2.trans t.isSome_firstLeaf?.symm
    rw [hfirst, Option.isSome_none, Option.isSome_eq_false_iff, Option.isNone_iff_eq_none] at hnone
    rw [hnone]
    rfl
  | some place =>
    obtain ⟨l, hleaf, hpath⟩ := Place.exists_leaf_of_isLeaf (List.find?_some hfirst)
    obtain ⟨b₀, c, hb₀, -, hc, hbase, hnodes, -⟩ :=
      Place.exists_toBranch ht (List.mem_of_find?_eq_some hfirst)
    obtain rfl : c = b := by
      rw [toBranch_of_firstLeaf? ht hfirst, hc] at hb
      exact Except.ok.inj hb
    rw [hleaf] at hb₀
    cases hb₀
    rw [Option.bind_some, hpath, Branch.leaf?, hbase, hnodes]
    rfl

/-! ### Leaves and hidden subtrees -/

/-- The leaves and the hidden subtrees of a tree, from left to right. -/
def ends : Tree → List Base
  | hidden h => [.bare h]
  | leaf l => [.leaf l]
  | merge left right => left.ends ++ right.ends

/-- **Exchanging sides moves leaves and hidden subtrees**, and each stays as often as it was. -/
theorem Alike.perm_ends (h : t.Alike u) : t.ends.Perm u.ends := by
  induction h with
  | hidden h => exact .refl _
  | leaf l => exact .refl _
  | merge _ _ ihl ihr => exact ihl.append ihr
  | swap _ _ ihl ihr => exact (ihl.append ihr).trans List.perm_append_comm

end Tree

/-! ### Room -/

/-- Whether a refusal is one for the number of merges or of nodes. -/
def TreeError.isExcess : TreeError → Bool
  | tooManyMerges _ | depthOutOfRange _ _ | tooManyNodes _ => true
  | _ => false

namespace Tree

variable {text : String} {fault : TreeError}

/-- A text is never refused for a number of merges. -/
theorem isExcess_of_parse (h : parse text = .error fault) : fault.isExcess = false := by
  have hne (t : Tree) : parse text ≠ .ok t := by
    intro ht
    cases ht.symm.trans h
  obtain ⟨fault', _, _, hfault', -, hoffset⟩ := refused_of_ne_ok hne
  obtain rfl : fault' = fault := Except.error.inj (hfault'.symm.trans h)
  -- what a text is refused for has a place in it
  cases fault' with
  | blank offset => rfl
  | text fault offset => rfl
  | _ => cases hoffset

theorem isExcess_of_ofText (h : Branch.ofText text = .error fault) : fault.isExcess = false := by
  cases ht : parse text with
  | error fault' =>
    rw [Branch.ofText, ht] at h
    split at h
    · cases h
    · cases h
      exact isExcess_of_parse ht
  | ok t =>
    obtain ⟨b, hb, -⟩ := exists_toBranch (depth_le_of_parse ht)
    cases ((Branch.ofText_of_parse ht).trans hb).symm.trans h

theorem isExcess_of_ofTextAt {target : Hash} (h : Branch.ofTextAt text target = .error fault) :
    fault.isExcess = false := by
  cases ht : parse text with
  | error fault' =>
    rw [Branch.ofTextAt, ht] at h
    cases h
    exact isExcess_of_parse ht
  | ok t =>
    rcases Branch.ofTextAt_cases ht target with ⟨-, b, -, hb, -⟩ | ⟨-, herror⟩
    · cases hb.symm.trans h
    · cases herror.symm.trans h
      rfl

theorem isExcess_of_search {script : Script} {known : List Hash}
    (h : ScriptTree.ofText text script known = .error fault) : fault.isExcess = false := by
  cases ht : parse text with
  | error fault' =>
    rw [ScriptTree.ofText, ScriptTree.searchText, ht] at h
    cases h
    exact isExcess_of_parse ht
  | ok t =>
    rcases ScriptTree.ofText_known_cases ht script known with ⟨r, hr, -⟩ | ⟨herror, -⟩
    · cases hr.symm.trans h
    · cases herror.symm.trans h
      rfl

/-- **The branch of a tree keeps the tree.** A tree that at most 128 others enclose a part of has a
branch, with the same hash. The branch has a leaf exactly if the tree has one; it then starts from
the first leaf, and its nodes are the hashes of the siblings of that leaf. Unfolded, the branch is
the tree up to the order of sides, so every leaf and every hidden subtree is in it as often as in
the tree. Hence no text is refused for the number of merges, whether it is read as a whole or rooted
at a subtree or a leaf. -/
theorem toBranch_faithful :
    (∀ t : Tree, t.depth ≤ 128 → ∃ b, t.toBranch = .ok b ∧ b.hash = t.hash ∧
        (b.leaf?.isSome = true ↔ ∃ l, l ∈ t.leaves) ∧
        t.leafPaths.head? = b.leaf?.map (fun l => (l, b.nodes)) ∧
        b.tree.Alike t ∧ b.tree.ends.Perm t.ends) ∧
      ∀ text fault,
        (Branch.ofText text = .error fault → fault.isExcess = false) ∧
        (∀ target, Branch.ofTextAt text target = .error fault → fault.isExcess = false) ∧
        ∀ script known, ScriptTree.ofText text script known = .error fault →
          fault.isExcess = false := by
  refine ⟨fun t ht => ?_, fun text fault => ⟨isExcess_of_ofText, fun _ => isExcess_of_ofTextAt,
    fun _ _ => isExcess_of_search⟩⟩
  obtain ⟨b, hb, hhash, -⟩ := exists_toBranch ht
  have hfirst := head?_leafPaths_of_toBranch ht hb
  have halike := Branch.alike_of_toBranch hb
  refine ⟨b, hb, hhash, ?_, hfirst, halike, halike.perm_ends⟩
  have hleaves : t.leaves.head? = b.leaf? := by
    rw [← map_leafPaths, List.head?_map, hfirst, Option.map_map]
    exact Option.map_id'
  rw [← hleaves, List.isSome_head?]
  constructor
  · exact List.exists_mem_of_ne_nil _
  · rintro ⟨l, hl⟩
    exact List.ne_nil_of_mem hl

/-- A tree with its leaves on the right, and a blank text, which is refused for something else. -/
theorem toBranch_faithful_leaves_right :
    (∃ b, (merge (hidden (.ofNat 32 1)) (merge (leaf (.ofScript [0x51]))
          (leaf (.ofScript [0x52])))).toBranch = .ok b ∧
        b.leaf? = some (.ofScript [0x51]) ∧
        b.nodes = [(Leaf.ofScript [0x52]).hash, .ofNat 32 1] ∧
        b.tree.ends.Perm
          [.bare (.ofNat 32 1), .leaf (.ofScript [0x51]), .leaf (.ofScript [0x52])]) ∧
      ∃ fault, Branch.ofText " " = .error fault ∧ Branch.ofTextAt " " (.ofNat 32 1) = .error fault ∧
        ScriptTree.ofText " " [0x51] [] = .error fault ∧ fault.isExcess = false := by
  obtain ⟨hkeeps, hroom⟩ := toBranch_faithful
  have hblank : parse " " = .error (.blank 0) := by
    rw [parse, show " " = String.ofList [' '] from rfl, String.toList_ofList]
    rfl
  have hwhole : Branch.ofText " " = .error (.blank 0) := by
    rw [Branch.ofText, if_neg (by decide), hblank, error_bind]
  have hsubtree : Branch.ofTextAt " " (.ofNat 32 1) = .error (.blank 0) := by
    rw [Branch.ofTextAt, hblank, error_bind]
  have hleaf : ScriptTree.ofText " " [0x51] [] = .error (.blank 0) := by
    rw [ScriptTree.ofText, ScriptTree.searchText, hblank]
  obtain ⟨b, hb, -, -, hfirst, -, hends⟩ := hkeeps (merge (hidden (.ofNat 32 1))
    (merge (leaf (.ofScript [0x51])) (leaf (.ofScript [0x52])))) (by decide)
  have hread : b.leaf?.map (fun l => (l, b.nodes)) =
      some (.ofScript [0x51], [(Leaf.ofScript [0x52]).hash, .ofNat 32 1]) := hfirst.symm
  obtain ⟨l, hl, hpath⟩ := Option.map_eq_some_iff.mp hread
  obtain ⟨rfl, hnodes⟩ := Prod.mk.inj hpath
  exact ⟨⟨b, hb, hl, hnodes, hends⟩, .blank 0, hwhole, hsubtree, hleaf,
    (hroom " " (.blank 0)).1 hwhole⟩

end Tree

end Taproot
