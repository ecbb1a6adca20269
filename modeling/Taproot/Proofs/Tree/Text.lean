import Taproot.Proofs.Tree.Alike
import Taproot.Proofs.Tree.Parsing

/-!
# The texts of trees

The text of a tree has the two sides of every merge in the order of their hashes. So it is the text
of another tree, the one arranged in this order, written as it stands. What is written as it stands
can be read again, and no two trees have the same such text: both are facts about the grammar. The
rest concerns the order, and is a matter of trees alone.

## Main definitions

* `Tree.verbatim`: the text of a tree as it stands
* `Tree.leftFirst`: the rule by which `Tree.text` orders the sides

## Main results

* `Tree.verbatim_injective`: a tree is determined by its text as it stands
* `Tree.chars_eq_verbatim`: the text of a tree is that of the arranged tree as it stands
* `Tree.text_canonical`: texts as canonical forms of trees that are alike
-/

namespace Taproot

namespace Leaf

/-- The text of a leaf is one of the grammar. -/
theorem leafText_chars (l : Leaf) : LeafText l.chars l := by
  have hversion : VersionText
      (if l.version = defaultLeafVersion then [] else ',' :: Hex.byteDigits l.version)
      l.version := by
    by_cases hdefault : l.version = defaultLeafVersion
    · rw [if_pos hdefault, hdefault]
      exact .omitted
    · have hlt := l.version.toNat_lt
      have htwo := @VersionText.two (l.version.toNat / 16) (l.version.toNat % 16) (by omega)
        (by omega)
      rw [ofNat_toNat_digits] at htwo
      rw [if_neg hdefault]
      exact htwo
  exact .mk (denotes_iff.mpr rfl) hversion

end Leaf

namespace Tree

/-! ### Trees as they stand -/

/-- The text of a tree with the sides of every merge in the order in which they stand. -/
def verbatim : Tree → List Char
  | hidden h => Hex.digits h.toList
  | leaf l => l.chars
  | merge left right => braced left.verbatim right.verbatim

theorem derives_verbatim (t : Tree) : Derives t.verbatim t := by
  induction t with
  | hidden h => exact .hidden (denotes_iff.mpr rfl)
  | leaf l => exact .leaf l.leafText_chars
  | merge left right ihl ihr => exact .merge ihl ihr

/-- **A tree is determined by its text as it stands.** -/
theorem verbatim_injective : Function.Injective verbatim := by
  intro t u h
  have hu := derives_verbatim u
  rw [← h] at hu
  exact (derives_verbatim t).eq_of_eq hu

/-- Reading it gives the tree, if the tree is not too deep. -/
theorem parse_verbatim {t : Tree} (h : t.depth ≤ 128) :
    parse (String.ofList t.verbatim) = .ok t := by
  rw [parse_eq_ok_iff, String.toList_ofList]
  exact ⟨derives_verbatim t, h⟩

/-! ### The text of a tree -/

/-- The rule of `Tree.chars`: the left side comes first unless the right one has a smaller hash. -/
def leftFirst (left right : Tree) : Bool := !decide (right.hash < left.hash)

theorem leftFirst_iff {left right : Tree} :
    leftFirst left right = true ↔ ¬right.hash < left.hash := by
  rw [leftFirst, Bool.not_eq_true', decide_eq_false_iff_not]

theorem orderFree_leftFirst : OrderFree leftFirst := by
  intro a a' b b' ha hb
  rw [leftFirst, leftFirst, ha.hash_eq, hb.hash_eq]

/-- The rule decides between the sides unless their hashes are equal. -/
theorem hash_eq_of_leftFirst_eq {left right : Tree}
    (h : leftFirst left right = leftFirst right left) : left.hash = right.hash := by
  by_cases hlt : left.hash < right.hash
  · have hleft := leftFirst_iff.mpr (FixedBytes.lt_asymm hlt)
    rw [h, leftFirst_iff] at hleft
    exact absurd hlt hleft
  · have hright := leftFirst_iff.mpr hlt
    rw [← h, leftFirst_iff] at hright
    exact FixedBytes.eq_of_not_lt hlt hright

/-- **The text of a tree is the one of the tree arranged by hashes.** -/
theorem chars_eq_verbatim (t : Tree) : t.chars = (t.arranged leftFirst).verbatim := by
  induction t with
  | hidden h => rfl
  | leaf l => rfl
  | merge left right ihl ihr =>
    rw [chars_merge, arranged]
    by_cases hlt : right.hash < left.hash
    · rw [if_pos hlt, if_neg (not_not.mpr hlt ∘ leftFirst_iff.mp), verbatim, ihl, ihr]
    · rw [if_neg hlt, if_pos (leftFirst_iff.mpr hlt), verbatim, ihl, ihr]

theorem arranged_leftFirst_arranged (t : Tree) :
    (t.arranged leftFirst).arranged leftFirst = t.arranged leftFirst := by
  rw [arranged_arranged orderFree_leftFirst]
  refine congrArg t.arranged (funext fun left => funext fun right => ?_)
  by_cases hlt : right.hash < left.hash
  · have hfirst : ¬leftFirst left right = true := not_not.mpr hlt ∘ leftFirst_iff.mp
    rw [if_neg hfirst, leftFirst_iff.mpr (FixedBytes.lt_asymm hlt), Bool.eq_false_iff.mpr hfirst,
      Bool.not_true]
  · rw [leftFirst_iff.mpr hlt, if_pos rfl]

/-- Sides with equal hashes are alike. -/
def TieAlike (left right : Tree) : Prop := left.hash = right.hash → left.Alike right

/-- Trees that are alike have the same text, unless hashes leave the order of two sides open that
are not alike. -/
theorem text_eq_of_alike {t u : Tree} (h : t.Alike u) (hties : t.EveryMerge TieAlike) :
    t.text = u.text := by
  have harranged := arranged_eq_of_alike orderFree_leftFirst
    (hties.imp fun left right htie heq => htie (hash_eq_of_leftFirst_eq heq)) h
  rw [text, text, chars_eq_verbatim, chars_eq_verbatim, harranged]

/-- **The text of a tree is a canonical form** of the trees that are alike. Reading it gives one of
them, with the same hash and the same text. Trees with one text are alike. And trees that are alike
have one text, unless there is a merge that hashes cannot arrange: one of two sides with equal
hashes that are not alike. -/
theorem text_canonical :
    (∀ t : Tree, t.depth ≤ 128 →
        ∃ u, parse t.text = .ok u ∧ u.Alike t ∧ u.hash = t.hash ∧ u.text = t.text) ∧
      (∀ t u : Tree, t.text = u.text → t.Alike u) ∧
      ∀ t u : Tree, t.Alike u → t.EveryMerge TieAlike → t.text = u.text := by
  refine ⟨fun t ht => ?_, fun t u h => ?_, fun t u h hties => text_eq_of_alike h hties⟩
  · have halike := alike_arranged leftFirst t
    refine ⟨t.arranged leftFirst, ?_, halike.symm, halike.hash_eq.symm, ?_⟩
    · rw [text, chars_eq_verbatim, parse_verbatim (halike.depth_eq ▸ ht)]
    · rw [text, text, chars_eq_verbatim, chars_eq_verbatim, arranged_leftFirst_arranged]
  · have hchars := String.ofList_injective h
    rw [chars_eq_verbatim, chars_eq_verbatim] at hchars
    have heq := alike_arranged leftFirst t
    rw [verbatim_injective hchars] at heq
    exact heq.trans (alike_arranged leftFirst u).symm

/-- Two hidden subtrees with different hashes, in either order. -/
theorem text_canonical_hidden :
    ∃ t u : Tree, t ≠ u ∧ t.text = u.text ∧ t.Alike u ∧
      ∃ v, parse t.text = .ok v ∧ v.hash = t.hash ∧ v.text = t.text := by
  have hne : FixedBytes.ofNat 32 1 ≠ FixedBytes.ofNat 32 0 := by decide
  have hties : (merge (hidden (.ofNat 32 1)) (hidden (.ofNat 32 0))).EveryMerge TieAlike :=
    ⟨fun h => absurd h hne, trivial, trivial⟩
  obtain ⟨hread, hunique, hsame⟩ := text_canonical
  have htext := hsame _ _ (.swap (.hidden _) (.hidden _)) hties
  obtain ⟨v, hv, -, hhash, hagain⟩ :=
    hread (merge (hidden (.ofNat 32 1)) (hidden (.ofNat 32 0))) (by decide)
  exact ⟨_, _, fun h => hne (hidden.inj (merge.inj h).1), htext, hunique _ _ htext, v, hv, hhash,
    hagain⟩

end Tree

end Taproot
