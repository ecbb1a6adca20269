import Taproot.Proofs.Tree.Depth

/-!
# Trees that differ in the order of sides

Joining two hashes does not depend on their order, so the sides of a merge can be exchanged without
changing the hash of a tree. Trees are compared here up to such exchanges, at any depth.

What is written as text has the sides in some order, and several parts of the library choose one:
by the hashes of the sides, or by where there is a leaf. Every such choice is a rule that says of
two sides whether the left one comes first, and it looks at nothing that an exchange below could
change. The tree arranged by a rule is like the original; and if the rule decides between the sides
of every merge, all trees that are alike are arranged into the same one.

## Main definitions

* `Tree.Alike`: trees that differ in the order of sides only
* `Tree.OrderFree`: what is said of two trees whatever the order inside them
* `Tree.EveryMerge`: a condition on the two sides of every merge
* `Tree.arranged`: the tree with all sides in the order of a rule

## Main results

* `Tree.Alike.hash_eq`, `Tree.Alike.depth_eq`: what the order does not change
* `Tree.arranged_arranged`: arranging twice is arranging by one rule
* `Tree.arranged_eq_of_alike`: a rule that decides makes trees that are alike equal
-/

namespace Taproot

namespace Tree

/-! ### Exchanging sides -/

/-- The second tree is the first one with the sides of some merges exchanged. -/
inductive Alike : Tree → Tree → Prop
  | hidden (h : Hash) : Alike (hidden h) (hidden h)
  | leaf (l : Leaf) : Alike (leaf l) (leaf l)
  | merge {a b a' b' : Tree} (hl : Alike a a') (hr : Alike b b') :
    Alike (merge a b) (merge a' b')
  | swap {a b a' b' : Tree} (hl : Alike a b') (hr : Alike b a') : Alike (merge a b) (merge a' b')

namespace Alike

variable {t u v : Tree}

theorem refl (t : Tree) : t.Alike t := by
  induction t with
  | hidden h => exact .hidden h
  | leaf l => exact .leaf l
  | merge left right ihl ihr => exact .merge ihl ihr

theorem symm (h : t.Alike u) : u.Alike t := by
  induction h with
  | hidden h => exact .hidden h
  | leaf l => exact .leaf l
  | merge _ _ ihl ihr => exact .merge ihl ihr
  | swap _ _ ihl ihr => exact .swap ihr ihl

theorem trans (h : t.Alike u) (h' : u.Alike v) : t.Alike v := by
  induction h generalizing v with
  | hidden h => exact h'
  | leaf l => exact h'
  | merge _ _ ihl ihr =>
    cases h' with
    | merge hl hr => exact .merge (ihl hl) (ihr hr)
    | swap hl hr => exact .swap (ihl hl) (ihr hr)
  | swap _ _ ihl ihr =>
    cases h' with
    | merge hl hr => exact .swap (ihl hr) (ihr hl)
    | swap hl hr => exact .merge (ihl hr) (ihr hl)

theorem hash_eq (h : t.Alike u) : t.hash = u.hash := by
  induction h with
  | hidden h => rfl
  | leaf l => rfl
  | merge _ _ ihl ihr => rw [hash, hash, ihl, ihr]
  | swap _ _ ihl ihr => rw [hash, hash, ihl, ihr, joinHash_comm]

theorem depth_eq (h : t.Alike u) : t.depth = u.depth := by
  induction h with
  | hidden h => rfl
  | leaf l => rfl
  | merge _ _ ihl ihr => rw [depth, depth, ihl, ihr]
  | swap _ _ ihl ihr => rw [depth, depth, ihl, ihr, Nat.max_comm]

end Alike

/-- What is said of two trees is the same for trees that are alike. -/
def OrderFree {γ : Sort*} (f : Tree → Tree → γ) : Prop :=
  ∀ a a' b b', Alike a a' → Alike b b' → f a b = f a' b'

/-! ### Conditions on merges -/

/-- The two sides of every merge satisfy a condition. -/
def EveryMerge (p : Tree → Tree → Prop) : Tree → Prop
  | hidden _ => True
  | leaf _ => True
  | merge left right => p left right ∧ left.EveryMerge p ∧ right.EveryMerge p

namespace EveryMerge

variable {p q : Tree → Tree → Prop} {t u : Tree}

theorem of_forall (h : ∀ left right, p left right) (t : Tree) : t.EveryMerge p := by
  induction t with
  | hidden h => trivial
  | leaf l => trivial
  | merge left right ihl ihr => exact ⟨h left right, ihl, ihr⟩

theorem imp (h : ∀ left right, p left right → q left right) (ht : t.EveryMerge p) :
    t.EveryMerge q := by
  induction t with
  | hidden h => trivial
  | leaf l => trivial
  | merge left right ihl ihr => exact ⟨h left right ht.1, ihl ht.2.1, ihr ht.2.2⟩

theorem and (hp : t.EveryMerge p) (hq : t.EveryMerge q) :
    t.EveryMerge fun left right => p left right ∧ q left right := by
  induction t with
  | hidden h => trivial
  | leaf l => trivial
  | merge left right ihl ihr =>
    exact ⟨⟨hp.1, hq.1⟩, ihl hp.2.1 hq.2.1, ihr hp.2.2 hq.2.2⟩

/-- A condition in which the sides play the same part passes to trees that are alike. -/
theorem of_alike (hfree : OrderFree p) (hsymm : ∀ left right, p left right → p right left)
    (h : t.Alike u) (ht : t.EveryMerge p) : u.EveryMerge p := by
  induction h with
  | hidden h => trivial
  | leaf l => trivial
  | @merge a b a' b' hl hr ihl ihr =>
    exact ⟨hfree a a' b b' hl hr ▸ ht.1, ihl ht.2.1, ihr ht.2.2⟩
  | @swap a b a' b' hl hr ihl ihr =>
    exact ⟨hfree b a' a b' hr hl ▸ hsymm a b ht.1, ihr ht.2.2, ihl ht.2.1⟩

end EveryMerge

/-! ### Arranging sides -/

/-- The tree with the sides of every merge in the order of a rule, which says whether the left side
comes first. -/
def arranged (first : Tree → Tree → Bool) : Tree → Tree
  | hidden h => hidden h
  | leaf l => leaf l
  | merge left right =>
    if first left right then merge (left.arranged first) (right.arranged first)
    else merge (right.arranged first) (left.arranged first)

variable {first second : Tree → Tree → Bool} {t u : Tree}

theorem alike_arranged (first : Tree → Tree → Bool) (t : Tree) : t.Alike (t.arranged first) := by
  induction t with
  | hidden h => exact .hidden h
  | leaf l => exact .leaf l
  | merge left right ihl ihr =>
    rw [arranged]
    split
    · exact .merge ihl ihr
    · exact .swap ihl ihr

theorem arranged_congr (h : t.EveryMerge fun left right => first left right = second left right) :
    t.arranged first = t.arranged second := by
  induction t with
  | hidden h => rfl
  | leaf l => rfl
  | merge left right ihl ihr =>
    rw [arranged, arranged, h.1, ihl h.2.1, ihr h.2.2]

/-- Arranging twice is arranging by one rule. -/
theorem arranged_arranged (hfree : OrderFree second) (t : Tree) :
    (t.arranged first).arranged second = t.arranged fun left right =>
      if first left right then second left right else !second right left := by
  induction t with
  | hidden h => rfl
  | leaf l => rfl
  | merge left right ihl ihr =>
    have hl := (alike_arranged first left).symm
    have hr := (alike_arranged first right).symm
    rw [arranged, arranged]
    by_cases hfirst : first left right = true
    · rw [if_pos hfirst, if_pos hfirst, arranged, hfree _ _ _ _ hl hr, ihl, ihr]
    · rw [if_neg hfirst, if_neg hfirst, arranged, hfree _ _ _ _ hr hl, ihl, ihr]
      cases second right left <;> rfl

/-- A condition on the sides in their new order is one on the sides in their old order. -/
theorem everyMerge_arranged_iff {p : Tree → Tree → Prop} (hfree : OrderFree p) (t : Tree) :
    (t.arranged first).EveryMerge p ↔ t.EveryMerge fun left right =>
      if first left right then p left right else p right left := by
  induction t with
  | hidden h => exact Iff.rfl
  | leaf l => exact Iff.rfl
  | merge left right ihl ihr =>
    have hl := (alike_arranged first left).symm
    have hr := (alike_arranged first right).symm
    rw [arranged, EveryMerge]
    by_cases hfirst : first left right = true
    · rw [if_pos hfirst, if_pos hfirst, EveryMerge, hfree _ _ _ _ hl hr, ihl, ihr]
    · rw [if_neg hfirst, if_neg hfirst, EveryMerge, hfree _ _ _ _ hr hl, ihl, ihr,
        and_comm (a := left.EveryMerge _)]

/-- **Trees that are alike are arranged alike**, if the rule decides between the sides of every
merge, or there is nothing to decide. -/
theorem arranged_eq_of_alike (hfree : OrderFree first)
    (hties : t.EveryMerge fun left right =>
      first left right = first right left → left.Alike right)
    (h : t.Alike u) : t.arranged first = u.arranged first := by
  induction t generalizing u with
  | hidden h => cases h; rfl
  | leaf l => cases h; rfl
  | merge left right ihl ihr =>
    obtain ⟨htie, hleft, hright⟩ := hties
    cases h with
    | merge hl hr =>
      rw [arranged, arranged, hfree _ _ _ _ hl hr, ihl hleft hl, ihr hright hr]
    | @swap _ _ a' b' hl hr =>
      rw [arranged, arranged, ← hfree _ _ _ _ hr hl, ← ihl hleft hl, ← ihr hright hr]
      by_cases heq : first left right = first right left
      · -- the sides are alike themselves, so it does not matter which comes first
        rw [ihl hleft (htie heq), ite_self, ite_self]
      · cases hfirst : first left right with
        | false =>
          have hother : first right left = true := by
            rw [hfirst] at heq
            exact (Bool.not_eq_false _).mp (Ne.symm heq)
          rw [if_neg Bool.false_ne_true, if_pos hother]
        | true =>
          have hother : ¬first right left = true := by
            rw [hfirst] at heq
            exact Ne.symm heq
          rw [if_pos rfl, if_neg hother]

end Tree

end Taproot
