import Mathlib.Data.List.DropRight
import Taproot.Proofs.Tree.Reroot
import Taproot.Proofs.Tree.Text

/-!
# Trees rooted anew at a subtree

A text can be rooted at a subtree of which nothing but the hash is given. What is found there may be
a leaf, a hidden subtree or a merge, and in the last case it brings merges of its own. So the path
of the subtree to the root does not begin at the base of the branch. It begins where the hash that
was looked for has been reached: the branch has this hash after its first merges, and the nodes that
follow are the hashes of the siblings.

Exchanging sides moves the places of a tree, but each place keeps its siblings, and all hashes stay.
So the same hashes are found in both trees. Which of several places with one hash comes first is a
question of order, and so are the siblings of the first one. They are the same in both trees if
there is only one such place.

## Main definitions

* `Branch.RootedAt`: the branch goes from the subtree at a place to the root of a tree

## Main results

* `Branch.rootedAt_of_toBranch`: this is what rooting a tree at a place gives
* `Tree.exists_mem_places_of_alike`: exchanging sides keeps places with their nodes
* `Branch.ofTextAt_cases`: what comes of a text from which a tree was read
* `Branch.ofTextAt_subtree`: the same with all its consequences, and for two texts
-/

namespace Taproot

open Taproot.Tree

/-- **Exchanging sides keeps places**: each has the same nodes as one of the original, with the same
subtree up to the order of sides. -/
theorem Tree.exists_mem_places_of_alike {t u : Tree} (h : t.Alike u) {place : Place}
    (hplace : place ∈ u.places) :
    ∃ p ∈ t.places, p.subtree.Alike place.subtree ∧ p.nodes = place.nodes := by
  have hstep {b b' : Tree} {p p' : Place} (hnodes : p.nodes = p'.nodes) (hb : b.Alike b') :
      (p.above [b]).nodes = (p'.above [b']).nodes := by
    rw [Place.nodes_above, Place.nodes_above, hnodes, List.map_singleton, List.map_singleton,
      hb.hash_eq]
  induction h generalizing place with
  | hidden h => exact ⟨place, hplace, .refl _, rfl⟩
  | leaf l => exact ⟨place, hplace, .refl _, rfl⟩
  | merge hl hr ihl ihr =>
    rcases mem_places_merge_iff.mp hplace with rfl | ⟨p', hp', rfl⟩ | ⟨p', hp', rfl⟩
    · exact ⟨_, mem_places_merge_iff.mpr (Or.inl rfl), .merge hl hr, rfl⟩
    · obtain ⟨p, hp, hsub, hnodes⟩ := ihl hp'
      exact ⟨_, mem_places_merge_iff.mpr (Or.inr (Or.inl ⟨p, hp, rfl⟩)), hsub, hstep hnodes hr⟩
    · obtain ⟨p, hp, hsub, hnodes⟩ := ihr hp'
      exact ⟨_, mem_places_merge_iff.mpr (Or.inr (Or.inr ⟨p, hp, rfl⟩)), hsub, hstep hnodes hl⟩
  | swap hl hr ihl ihr =>
    rcases mem_places_merge_iff.mp hplace with rfl | ⟨p', hp', rfl⟩ | ⟨p', hp', rfl⟩
    · exact ⟨_, mem_places_merge_iff.mpr (Or.inl rfl), .swap hl hr, rfl⟩
    · obtain ⟨p, hp, hsub, hnodes⟩ := ihr hp'
      exact ⟨_, mem_places_merge_iff.mpr (Or.inr (Or.inr ⟨p, hp, rfl⟩)), hsub, hstep hnodes hl⟩
    · obtain ⟨p, hp, hsub, hnodes⟩ := ihl hp'
      exact ⟨_, mem_places_merge_iff.mpr (Or.inr (Or.inl ⟨p, hp, rfl⟩)), hsub, hstep hnodes hr⟩

namespace Branch

variable {text : String} {t : Tree} {target : Hash} {place : Place} {b : Branch}

/-! ### The branch of a place -/

/-- The branch goes from the subtree at the place to the root of the tree: it has had the hash of
the subtree, has gone on with the siblings from the nearest to the root, and has arrived. -/
structure RootedAt (t : Tree) (place : Place) (b : Branch) : Prop where
  length_le : place.siblings.length ≤ b.nodes.length
  hashAt_eq : b.hashAt (b.nodes.length - place.siblings.length) = .ok place.subtree.hash
  rtake_eq : b.nodes.rtake place.siblings.length = place.nodes
  hash_eq : b.hash = t.hash

/-- The hash after as many merges as another branch has is the hash of that branch, if the first
nodes are the same. -/
theorem Sound.hashAt_of_append {b c : Branch} (hb : b.Sound) {nodes : List Hash}
    (hbase : c.base = b.base) (hnodes : c.nodes = b.nodes ++ nodes) :
    c.hashAt (c.nodes.length - nodes.length) = .ok b.hash := by
  have hlength : c.nodes.length - nodes.length = b.nodes.length := by
    rw [hnodes, List.length_append, Nat.add_sub_cancel]
  have hle : b.nodes.length ≤ c.nodes.length := hlength ▸ Nat.sub_le _ _
  rw [hlength, hashAt, if_neg (Nat.not_lt.mpr hle), hnodes, List.take_left, baseHash, hbase,
    hb.hash_eq_foldl]
  rfl

/-- **A tree that is not too deep can be rooted at each of its places.** -/
theorem rootedAt_of_toBranch (ht : t.depth ≤ maxMerges) (hplace : place ∈ t.places) :
    ∃ b, place.toBranch = .ok b ∧ RootedAt t place b := by
  obtain ⟨b, c, hb, hsubtree, hc, hbase, hnodes, hhash⟩ := Place.exists_toBranch ht hplace
  have hlength : place.siblings.length = place.nodes.length := (List.length_map _).symm
  refine ⟨c, hc, ?_, ?_, ?_, hhash⟩
  · rw [hlength, hnodes, List.length_append]
    exact Nat.le_add_left _ _
  · rw [hlength, (built_toBranch hb).sound.hashAt_of_append hbase hnodes, hsubtree]
  · rw [hlength, hnodes, List.rtake, List.length_append, Nat.add_sub_cancel, List.drop_left]

/-! ### Texts -/

theorem ofTextAt_of_parse (ht : parse text = .ok t) (target : Hash) :
    ofTextAt text target =
      match t.places.find? fun place => place.subtree.hash = target with
      | none => .error .subtreeNotInTree
      | some place => place.toBranch := by
  rw [ofTextAt, ht, ok_bind, toBranchAt, placeOfHash?]
  cases t.places.find? fun place => place.subtree.hash = target with
  | none => rfl
  | some place => rfl

/-- **What comes of a text from which a tree was read**: the first subtree with the hash, and the
branch that is rooted there; or there is none. -/
theorem ofTextAt_cases (ht : parse text = .ok t) (target : Hash) :
    (∃ place b, (t.places.find? fun place => place.subtree.hash = target) = some place ∧
        ofTextAt text target = .ok b ∧ RootedAt t place b ∧ place.subtree.hash = target) ∨
      ((∀ place ∈ t.places, place.subtree.hash ≠ target) ∧
        ofTextAt text target = .error .subtreeNotInTree) := by
  rw [ofTextAt_of_parse ht]
  cases hfind : t.places.find? fun place => place.subtree.hash = target with
  | none =>
    refine Or.inr ⟨fun place hplace hhash => ?_, rfl⟩
    exact absurd (decide_eq_true hhash) (List.find?_eq_none.mp hfind place hplace)
  | some place =>
    obtain ⟨b, hb, hrooted⟩ :=
      rootedAt_of_toBranch (depth_le_of_parse ht) (List.mem_of_find?_eq_some hfind)
    have hhash := List.find?_some hfind
    exact Or.inl ⟨place, b, rfl, hb, hrooted, of_decide_eq_true hhash⟩

/-- A branch that a text was rooted to comes from the first subtree with the hash. -/
theorem exists_place_of_ofTextAt (ht : parse text = .ok t) (hb : ofTextAt text target = .ok b) :
    ∃ place, (t.places.find? fun place => place.subtree.hash = target) = some place ∧
      RootedAt t place b ∧ place.subtree.hash = target := by
  rcases ofTextAt_cases ht target with ⟨place, b', hfind, hb', hrooted, hhash⟩ | ⟨-, herror⟩
  · obtain rfl : b' = b := Except.ok.inj (hb'.symm.trans hb)
    exact ⟨place, hfind, hrooted, hhash⟩
  · cases herror.symm.trans hb

/-- A text can be rooted at every hash that its tree has in some place. -/
theorem exists_ofTextAt (ht : parse text = .ok t) (hplace : place ∈ t.places)
    (hhash : place.subtree.hash = target) : ∃ b, ofTextAt text target = .ok b := by
  rcases ofTextAt_cases ht target with ⟨-, b, -, hb, -⟩ | ⟨hnone, -⟩
  · exact ⟨b, hb⟩
  · exact absurd hhash (hnone place hplace)

/-- **Rooting a text anew at a subtree.** A tree was read from the text, and a subtree is given by a
branch that has its hash. This succeeds exactly if some subtree of the tree has that hash; otherwise
the subtree is not found. The branch that comes out is rooted at the first one: it has the hash that
was looked for as many merges before its end as there are siblings, its last nodes are their hashes,
and it has the hash of the tree. If another text has a tree that differs in the order of sides only,
that text can be rooted there too, and leads to the same hash. If besides there is only one subtree
with that hash, the last nodes are the same. -/
theorem ofTextAt_subtree {text : String} {t : Tree} (ht : parse text = .ok t) (subtree : Branch) :
    ((∃ b, ofTextAt text subtree.hash = .ok b) ↔
        ∃ place ∈ t.places, place.subtree.hash = subtree.hash) ∧
      ((∀ place ∈ t.places, place.subtree.hash ≠ subtree.hash) →
        ofTextAt text subtree.hash = .error .subtreeNotInTree) ∧
      (∀ b, ofTextAt text subtree.hash = .ok b → ∃ place,
        (t.places.find? fun place => place.subtree.hash = subtree.hash) = some place ∧
          place.siblings.length ≤ b.nodes.length ∧
          b.hashAt (b.nodes.length - place.siblings.length) = .ok subtree.hash ∧
          b.nodes.rtake place.siblings.length = place.nodes ∧ b.hash = t.hash) ∧
      ∀ text' t' b, parse text' = .ok t' → t.Alike t' → ofTextAt text subtree.hash = .ok b →
        ∃ b', ofTextAt text' subtree.hash = .ok b' ∧ b'.hash = b.hash ∧
          ∀ place ∈ t.places, place.subtree.hash = subtree.hash →
            (∀ other ∈ t.places, other.subtree.hash = subtree.hash → other = place) →
              b'.nodes.rtake place.siblings.length = b.nodes.rtake place.siblings.length := by
  refine ⟨⟨?_, ?_⟩, fun hnone => ?_, fun b hb => ?_, fun text' t' b ht' halike hb => ?_⟩
  · rintro ⟨b, hb⟩
    obtain ⟨place, hfind, -, hhash⟩ := exists_place_of_ofTextAt ht hb
    exact ⟨place, List.mem_of_find?_eq_some hfind, hhash⟩
  · rintro ⟨place, hplace, hhash⟩
    exact exists_ofTextAt ht hplace hhash
  · rcases ofTextAt_cases ht subtree.hash with ⟨place, -, hfind, -, -, hhash⟩ | ⟨-, herror⟩
    · exact absurd hhash (hnone place (List.mem_of_find?_eq_some hfind))
    · exact herror
  · obtain ⟨place, hfind, hrooted, hhash⟩ := exists_place_of_ofTextAt ht hb
    exact ⟨place, hfind, hrooted.length_le, hhash ▸ hrooted.hashAt_eq, hrooted.rtake_eq,
      hrooted.hash_eq⟩
  · obtain ⟨first, hfind, hrooted, hhash⟩ := exists_place_of_ofTextAt ht hb
    have hfirst := List.mem_of_find?_eq_some hfind
    obtain ⟨moved, hmoved, hmovedAlike, -⟩ := exists_mem_places_of_alike halike.symm hfirst
    obtain ⟨b', hb'⟩ := exists_ofTextAt ht' hmoved (hmovedAlike.hash_eq.trans hhash)
    obtain ⟨first', hfind', hrooted', hhash'⟩ := exists_place_of_ofTextAt ht' hb'
    refine ⟨b', hb', ?_, fun place _ _ hunique => ?_⟩
    · rw [hrooted'.hash_eq, hrooted.hash_eq, halike.hash_eq]
    · -- the first place of either tree has the nodes of the only one
      obtain ⟨p, hp, hpAlike, hnodes'⟩ :=
        exists_mem_places_of_alike halike (List.mem_of_find?_eq_some hfind')
      obtain rfl := hunique p hp (hpAlike.hash_eq.trans hhash')
      obtain rfl := hunique first hfirst hhash
      have hlength : first'.siblings.length = first.siblings.length := by
        have := congrArg List.length hnodes'
        rwa [Place.nodes, Place.nodes, List.length_map, List.length_map, eq_comm] at this
      rw [hrooted.rtake_eq, ← hlength, hrooted'.rtake_eq, hnodes']

/-- The second of two leaves, which may come first as well; and a text in which there is nothing but
another hash. -/
theorem ofTextAt_subtree_two_leaves : ∃ b b',
    ofTextAt "\x7btl(51),tl(52)\x7d" (ofLeaf (.ofScript [0x52])).hash = .ok b ∧
      b.hashAt (b.nodes.length - 1) = .ok (ofLeaf (.ofScript [0x52])).hash ∧
      b.nodes.rtake 1 = [(Leaf.ofScript [0x51]).hash] ∧
      ofTextAt "\x7btl(52),tl(51)\x7d" (ofLeaf (.ofScript [0x52])).hash = .ok b' ∧
      b'.hash = b.hash ∧ b'.nodes.rtake 1 = b.nodes.rtake 1 ∧
      ofTextAt (String.ofList (hidden (.ofNat 32 2)).verbatim) (ofHash (.ofNat 32 1)).hash =
        .error .subtreeNotInTree := by
  have hswapped : parse "\x7btl(52),tl(51)\x7d" =
      .ok (.merge (.leaf (.ofScript [0x52])) (.leaf (.ofScript [0x51]))) := by
    rw [← parse_verbatim (by decide)]
    exact congrArg parse (by decide)
  obtain ⟨hiff, -, hfound, hother⟩ :=
    ofTextAt_subtree ScriptTree.parse_two_leaves (ofLeaf (.ofScript [0x52]))
  obtain ⟨b, hb⟩ := hiff.mpr ⟨_, ScriptTree.mem_places_two_leaves, rfl⟩
  obtain ⟨place, hfind, -, hat, hpath, -⟩ := hfound b hb
  have hhash := List.find?_some hfind
  obtain rfl := ScriptTree.eq_of_hash_two_leaves (List.mem_of_find?_eq_some hfind)
    (of_decide_eq_true hhash)
  obtain ⟨b', hb', hsame, hunique⟩ := hother _ _ b hswapped (.swap (.refl _) (.refl _)) hb
  have hnone := (ofTextAt_subtree (parse_verbatim (t := hidden (.ofNat 32 2)) (Nat.zero_le _))
    (ofHash (.ofNat 32 1))).2.1
  refine ⟨b, b', hb, hat, hpath, hb', hsame, ?_, hnone fun place hplace => ?_⟩
  · refine hunique _ ScriptTree.mem_places_two_leaves rfl ?_
    exact fun place => ScriptTree.eq_of_hash_two_leaves
  · rw [List.mem_singleton.mp hplace]
    decide

end Branch

end Taproot
