import Taproot.Branch.OfTree
import Taproot.Proofs.Refusal
import Taproot.Proofs.Taking
import Taproot.Proofs.Tree.Places

/-!
# How deep a tree can be

A branch takes 128 merges. The parser refuses a text before a tree in it is enclosed by more than
128 others, so a tree from a text is not too deep for a branch: the side that goes on as the path
has one merge for each enclosing tree, and a place has one sibling for each.

Both facts are inductions that follow a depth downwards. The parser's budget falls by one for each
enclosing tree, and the depth of what it reads stays below it.

## Main definitions

* `Tree.depth`: the largest number of trees that enclose a part

## Main results

* `Tree.parser_cases`: what the parser can have read
* `Tree.depth_le_of_parse`: trees from texts are at most 128 deep
* `Tree.exists_toBranch`: a tree that is not too deep has a branch, with the hash of the tree
* `Tree.hash_of_mem_places`: the siblings of a place lead to the hash of the tree
* `Tree.depth_add_length_le`, `Tree.depth_le_of_mem_siblings`: how many and how deep they are
-/

namespace Taproot

theorem expect_eq_ok_iff {c : Char} {cs rest : List Char} {u : Unit} :
    expect c cs = .ok u rest ↔ cs = c :: rest := by
  cases cs with
  | nil => simp only [expect, reduceCtorEq]
  | cons d cs =>
    rw [expect]
    by_cases hd : d = c
    · rw [if_pos hd, EStateM.Result.ok.injEq, List.cons.injEq, and_iff_right rfl, and_iff_right hd]
    · rw [if_neg hd, List.cons.injEq]
      exact ⟨nofun, fun h => absurd h.1 hd⟩

namespace Tree

/-- The largest number of trees that enclose a part of the tree. -/
def depth : Tree → ℕ
  | hidden _ => 0
  | leaf _ => 0
  | merge left right => max left.depth right.depth + 1

/-! ### Trees from texts -/

/-- What the parser reads is two trees read with a smaller budget, or a leaf, or a hash. -/
theorem parser_cases {budget : ℕ} {cs rest : List Char} {t : Tree}
    (h : parser (budget + 1) cs = .ok t rest) :
    (∃ left right cs₁ cs₂, t = merge left right ∧ cs = '\x7b' :: cs₁ ∧
        parser budget cs₁ = .ok left (',' :: cs₂) ∧
          parser budget cs₂ = .ok right ('\x7d' :: rest)) ∨
      (∃ l, t = leaf l ∧ Leaf.parser cs = .ok l rest) ∨
        ∃ hash, t = hidden hash ∧ hashParser cs = .ok hash rest := by
  simp only [parser] at h
  split at h
  · cases h
  · rename_i cs₁
    obtain ⟨left, cs₂, hleft, h⟩ := run_bind_eq_ok_iff.mp h
    obtain ⟨_, cs₃, hcomma, h⟩ := run_bind_eq_ok_iff.mp h
    obtain ⟨right, cs₄, hright, h⟩ := run_bind_eq_ok_iff.mp h
    obtain ⟨_, cs₅, hclose, h⟩ := run_bind_eq_ok_iff.mp h
    obtain ⟨rfl, rfl⟩ := run_pure_eq_ok_iff.mp h
    rw [expect_eq_ok_iff] at hcomma hclose
    subst hcomma hclose
    exact Or.inl ⟨left, right, cs₁, cs₃, rfl, rfl, hleft, hright⟩
  · obtain ⟨l, _, hl, h⟩ := run_bind_eq_ok_iff.mp h
    obtain ⟨rfl, rfl⟩ := run_pure_eq_ok_iff.mp h
    exact Or.inr (Or.inl ⟨l, rfl, hl⟩)
  · obtain ⟨hash, _, hhash, h⟩ := run_bind_eq_ok_iff.mp h
    obtain ⟨rfl, rfl⟩ := run_pure_eq_ok_iff.mp h
    exact Or.inr (Or.inr ⟨hash, rfl, hhash⟩)

/-- The depth of a tree that is read stays below the budget. -/
theorem depth_lt_budget {budget : ℕ} {cs rest : List Char} {t : Tree}
    (h : parser budget cs = .ok t rest) : t.depth < budget := by
  induction budget generalizing cs rest t with
  | zero => cases h
  | succ budget ih =>
    obtain ⟨left, right, _, _, rfl, -, hleft, hright⟩ | ⟨l, rfl, -⟩ | ⟨hash, rfl, -⟩ :=
      parser_cases h
    · have hl := ih hleft
      have hr := ih hright
      rw [depth]
      omega
    · exact Nat.succ_pos budget
    · exact Nat.succ_pos budget

/-- **Trees from texts are at most 128 deep.** -/
theorem depth_le_of_parse {text : String} {t : Tree} (h : parse text = .ok t) :
    t.depth ≤ maxMerges := by
  rw [parse] at h
  split at h
  · cases h
  · rw [parseChars] at h
    split at h
    · rename_i hparser
      cases h
      exact Nat.le_of_lt_succ (depth_lt_budget hparser)
    · cases h
    · cases h

/-! ### Branches of trees -/

theorem exists_join {left right : Branch} (hleft : left.merged.length < maxMerges)
    (hright : right.merged.length < maxMerges) :
    ∃ b, left.join right = .ok b ∧ b.hash = joinHash left.hash right.hash ∧
      b.merged.length ≤ max left.merged.length right.merged.length + 1 := by
  rw [Branch.join]
  -- either side may be the one that goes on, but joining hashes does not depend on the order
  split
  · refine ⟨right.joined left, Branch.add_eq_ok_iff.mpr ⟨hright, rfl⟩, ?_, ?_⟩
    · rw [Branch.hash_joined, joinHash_comm]
    · rw [Branch.length_merged_joined]
      omega
  · refine ⟨left.joined right, Branch.add_eq_ok_iff.mpr ⟨hleft, rfl⟩, rfl, ?_⟩
    rw [Branch.length_merged_joined]
    omega

/-- **A tree that is not too deep has a branch, with the hash of the tree.** -/
theorem exists_toBranch {t : Tree} (h : t.depth ≤ maxMerges) :
    ∃ b, t.toBranch = .ok b ∧ b.hash = t.hash ∧ b.merged.length ≤ t.depth := by
  induction t with
  | hidden hash => exact ⟨_, rfl, rfl, Nat.le_refl 0⟩
  | leaf l => exact ⟨_, rfl, rfl, Nat.le_refl 0⟩
  | merge left right ihl ihr =>
    rw [depth] at h
    obtain ⟨bl, hbl, hlhash, hllength⟩ := ihl (by omega)
    obtain ⟨br, hbr, hrhash, hrlength⟩ := ihr (by omega)
    obtain ⟨b, hb, hhash, hlength⟩ := @exists_join bl br (by omega) (by omega)
    refine ⟨b, ?_, ?_, ?_⟩
    · exact bind_eq_ok_iff.mpr ⟨bl, hbl, bind_eq_ok_iff.mpr ⟨br, hbr, hb⟩⟩
    · rw [hhash, hlhash, hrhash, hash]
    · rw [depth]
      omega

/-! ### Siblings -/

/-- Joining the siblings of a place to the subtree there leads to the hash of the tree. -/
theorem hash_of_mem_places {t : Tree} {place : Place} (h : place ∈ t.places) :
    place.nodes.foldl joinHash place.subtree.hash = t.hash := by
  induction t generalizing place with
  | hidden hash => rw [List.mem_singleton.mp h]; rfl
  | leaf l => rw [List.mem_singleton.mp h]; rfl
  | merge left right ihl ihr =>
    rcases mem_places_merge_iff.mp h with rfl | ⟨p, hp, rfl⟩ | ⟨p, hp, rfl⟩
    · rfl
    · rw [Place.nodes_above, List.foldl_append]
      exact congrArg (joinHash · right.hash) (ihl hp)
    · rw [Place.nodes_above, List.foldl_append, hash, joinHash_comm]
      exact congrArg (joinHash · left.hash) (ihr hp)

/-- **A subtree together with its siblings is not deeper than the tree.** -/
theorem depth_add_length_le {t : Tree} {place : Place} (h : place ∈ t.places) :
    place.subtree.depth + place.siblings.length ≤ t.depth := by
  induction t generalizing place with
  | hidden hash => rw [List.mem_singleton.mp h]; exact Nat.le_refl _
  | leaf l => rw [List.mem_singleton.mp h]; exact Nat.le_refl _
  | merge left right ihl ihr =>
    rcases mem_places_merge_iff.mp h with rfl | ⟨p, hp, rfl⟩ | ⟨p, hp, rfl⟩
    · exact Nat.le_refl _
    · have := ihl hp
      rw [Place.above, List.length_append, List.length_singleton, depth]
      dsimp only
      omega
    · have := ihr hp
      rw [Place.above, List.length_append, List.length_singleton, depth]
      dsimp only
      omega

/-- The siblings of a place are not deeper than the tree. -/
theorem depth_le_of_mem_siblings {t s : Tree} {place : Place} (h : place ∈ t.places)
    (hs : s ∈ place.siblings) : s.depth ≤ t.depth := by
  induction t generalizing place with
  | hidden hash => rw [List.mem_singleton.mp h] at hs; exact absurd hs List.not_mem_nil
  | leaf l => rw [List.mem_singleton.mp h] at hs; exact absurd hs List.not_mem_nil
  | merge left right ihl ihr =>
    rw [depth]
    rcases mem_places_merge_iff.mp h with rfl | ⟨p, hp, rfl⟩ | ⟨p, hp, rfl⟩
    · exact absurd hs List.not_mem_nil
    · rcases List.mem_append.mp hs with hs | hs
      · have := ihl hp hs
        omega
      · rw [List.mem_singleton.mp hs]
        omega
    · rcases List.mem_append.mp hs with hs | hs
      · have := ihr hp hs
        omega
      · rw [List.mem_singleton.mp hs]
        omega

end Tree

end Taproot
