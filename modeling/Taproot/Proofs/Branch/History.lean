import Taproot.Proofs.Branch.Sound

/-!
# Branches and the calls that have made them

A branch keeps the history of its merges three times over: the merged branches, their hashes, and
the hash that they have led to. A script tree keeps its leaf a second time. Here it is shown that
the copies stay in step, whatever calls are made and whether they succeed or are refused, and at
every level of nesting.

A history is a run of calls of `Branch.merge` on one branch that starts without merges. The hashes
that the branch has had during the run are the partial joins of its nodes: a merge appends one, and
a call that is refused changes nothing. So the hash after a given number of merges, which is
computed from the nodes, is the hash the branch did have then, whichever run has made it.

## Main definitions

* `Branch.afterMerge`: the branch after one call
* `Branch.History`: a run of calls, with the hashes along it
* `Branch.Within`: one branch occurs in another at some level
* `Branch.InStep`: the copies agree with one another and with the calls

## Main results

* `Branch.merge_eq_error_iff`: when a call is refused, and what it leaves
* `Branch.History.eq_scanl`: the hashes along a run
* `Branch.Reachable.inStep_within`: whatever can be made is in step
-/

namespace Taproot

namespace Branch

variable {b other c : Branch} {hashes : List Hash} {fault : TreeError}

/-! ### One call -/

theorem merge_eq_ok_iff : merge other b = .ok () c ↔ b.add other = .ok c := by
  rw [add]
  cases merge other b with
  | ok _ d => rw [EStateM.Result.ok.injEq, Except.ok.injEq, and_iff_right rfl]
  | error fault d => simp only [reduceCtorEq]

/-- **A call is refused exactly at 128 merges, and leaves the branch as it was.** -/
theorem merge_eq_error_iff (hb : b.merged.length ≤ maxMerges) :
    merge other b = .error fault c ↔
      b.merged.length = maxMerges ∧ fault = .tooManyMerges (maxMerges + 1) ∧ c = b := by
  rw [merge_eq]
  by_cases hfull : maxMerges ≤ b.merged.length
  · have heq : b.merged.length = maxMerges := Nat.le_antisymm hb hfull
    rw [if_pos hfull, heq, EStateM.Result.error.injEq, and_iff_right rfl, eq_comm, @eq_comm _ b]
  · rw [if_neg hfull]
    exact ⟨nofun, fun ⟨heq, _⟩ => absurd (Nat.le_of_eq heq.symm) hfull⟩

/-- The branch after a call, whether it succeeds or is refused. -/
def afterMerge (b other : Branch) : Branch :=
  match merge other b with
  | .ok _ c => c
  | .error _ c => c

theorem afterMerge_eq (b other : Branch) :
    b.afterMerge other = if maxMerges ≤ b.merged.length then b else b.joined other := by
  rw [afterMerge, merge_eq]
  by_cases hfull : maxMerges ≤ b.merged.length
  · rw [if_pos hfull, if_pos hfull]
  · rw [if_neg hfull, if_neg hfull]

/-- What can be made stays so under calls, refused or not. -/
theorem Reachable.afterMerge (hb : b.Reachable) (hother : other.Reachable) :
    (b.afterMerge other).Reachable := by
  rw [afterMerge_eq]
  by_cases hfull : maxMerges ≤ b.merged.length
  · rwa [if_pos hfull]
  · rw [if_neg hfull]
    exact .add hb hother (add_eq_ok_iff.mpr ⟨Nat.not_le.mp hfull, rfl⟩)

/-! ### Runs of calls -/

/-- Calls, of which some may be refused, have led from a branch without merges to this one. The
hashes are those of the branch at the start and right after each merge that succeeded. -/
inductive History : Branch → List Hash → Prop
  | start (base : Base) : History (ofBase base) [base.hash]
  | merged {b other c : Branch} {hashes : List Hash} (h : History b hashes)
    (hc : merge other b = .ok () c) : History c (hashes ++ [c.hash])
  | refused {b other c : Branch} {hashes : List Hash} {fault : TreeError} (h : History b hashes)
    (hc : merge other b = .error fault c) : History c hashes

namespace History

/-- **The hashes along a run are the partial joins of the nodes to the base**, and the last of them
is the hash of the branch. -/
theorem eq_scanl (h : b.History hashes) :
    hashes = b.nodes.scanl joinHash b.baseHash ∧ b.hash = b.nodes.foldl joinHash b.baseHash ∧
      b.merged.length ≤ maxMerges := by
  induction h with
  | start base => exact ⟨rfl, rfl, Nat.zero_le maxMerges⟩
  | merged h hc ih =>
    obtain ⟨rfl, hhash, -⟩ := ih
    obtain ⟨hlt, rfl⟩ := add_eq_ok_iff.mp (merge_eq_ok_iff.mp hc)
    refine ⟨?_, ?_, ?_⟩
    · rw [nodes_joined, baseHash_joined, List.scanl_append, ← hhash]
      rfl
    · rw [hash_joined, nodes_joined, baseHash_joined, List.foldl_append, hhash]
      rfl
    · rw [length_merged_joined]
      exact hlt
  | refused h hc ih =>
    -- the branch is the same, and so are the hashes it has had
    obtain ⟨-, -, rfl⟩ := (merge_eq_error_iff ih.2.2).mp hc
    exact ih

theorem length_eq (h : b.History hashes) : hashes.length = b.nodes.length + 1 := by
  rw [h.eq_scanl.1, List.length_scanl]

/-- **The hash after a number of merges is the one that the branch had then.** -/
theorem hashAt_eq (h : b.History hashes) (depth : ℕ) :
    b.hashAt depth = if hd : depth < hashes.length then .ok hashes[depth]
      else .error (.depthOutOfRange depth b.nodes.length) := by
  have hlength := h.length_eq
  obtain ⟨rfl, -, -⟩ := h.eq_scanl
  rw [hashAt]
  by_cases hdepth : b.nodes.length < depth
  · rw [if_pos hdepth, dif_neg (by omega)]
  · rw [if_neg hdepth, dif_pos (by omega), List.getElem_scanl]

end History

theorem Built.exists_history (h : b.Built) : ∃ hashes, b.History hashes := by
  induction h with
  | ofBase base => exact ⟨_, .start base⟩
  | add _ _ h ih _ =>
    obtain ⟨hashes, hhashes⟩ := ih
    exact ⟨_, hhashes.merged (merge_eq_ok_iff.mpr h)⟩

/-! ### Every level -/

/-- The first branch occurs in the second: it is the same, or occurs in one that was merged. -/
inductive Within : Branch → Branch → Prop
  | self (b : Branch) : Within b b
  | merged {c other b : Branch} (hother : other ∈ b.merged) (hc : Within c other) : Within c b

theorem Within.built (hc : c.Within b) (hb : b.Built) : c.Built := by
  induction hc with
  | self => exact hb
  | merged hother _ ih => exact ih (hb.of_mem_merged hother)

/-- The copies of the history that a branch keeps agree with one another and with the calls that
have made it, and the next call is refused only for lack of room. -/
structure InStep (b : Branch) : Prop where
  length_nodes : b.nodes.length = b.merged.length
  length_le : b.nodes.length ≤ 128
  getElem?_nodes : ∀ i : ℕ, b.nodes[i]? = b.merged[i]?.map hash
  hash_eq : b.hash = b.nodes.foldl joinHash b.baseHash
  exists_history : ∃ hashes, b.History hashes
  hashAt_eq : ∀ hashes, b.History hashes → hashes.length = b.nodes.length + 1 ∧
    ∀ depth, b.hashAt depth = if hd : depth < hashes.length then .ok hashes[depth]
      else .error (.depthOutOfRange depth b.nodes.length)
  refused_iff : ∀ other fault c, merge other b = .error fault c ↔
    b.merged.length = 128 ∧ fault = .tooManyMerges 129 ∧ c = b

theorem Built.inStep (h : b.Built) : b.InStep where
  length_nodes := by rw [h.sound.nodes_eq_map, List.length_map]
  length_le := h.sound.length_nodes_le
  getElem?_nodes i := by rw [h.sound.nodes_eq_map, List.getElem?_map]
  hash_eq := h.sound.hash_eq_foldl
  exists_history := h.exists_history
  hashAt_eq _ hhashes := ⟨hhashes.length_eq, hhashes.hashAt_eq⟩
  refused_iff _ _ _ := merge_eq_error_iff h.sound.length_merged_le

/-- **Whatever can be made is in step**, at every level of nesting, and stays so under every call
with a branch that can be made, refused or not. The branch of a script tree that can be made is one
of them; it starts from the leaf of the tree, and the version of that leaf is supported. -/
theorem Reachable.inStep_within :
    (∀ b : Branch, b.Reachable → ∀ c : Branch, c.Within b → c.InStep) ∧
      (∀ b other : Branch, b.Reachable → other.Reachable → (b.afterMerge other).Reachable) ∧
      ∀ t : ScriptTree, t.Reachable → t.branch.Reachable ∧ t.branch.leaf? = some t.leaf ∧
        isSupportedVersion t.leaf.version = true := by
  refine ⟨fun b hb c hc => (hc.built hb.built).inStep, fun b other => .afterMerge, ?_⟩
  intro t ht
  refine ⟨ht.branch, ?_, t.supported⟩
  rw [leaf?, t.base_branch]
  rfl

/-- There are branches with any number of merges up to 128. -/
theorem exists_reachable {count : ℕ} (hcount : count ≤ maxMerges) :
    ∃ b : Branch, b.Reachable ∧ b.merged.length = count := by
  induction count with
  | zero => exact ⟨.empty, .empty, rfl⟩
  | succ count ih =>
    obtain ⟨b, hb, hlength⟩ := ih (by omega)
    refine ⟨b.joined .empty, .add hb .empty (add_eq_ok_iff.mpr ⟨by omega, rfl⟩), ?_⟩
    rw [length_merged_joined, hlength]

/-- A branch with 128 merges, the same branch merged into another one, and a script tree. -/
theorem Reachable.inStep_within_full : ∃ b c : Branch, b.merged.length = 128 ∧ b.Within c ∧
    b.InStep ∧ b.afterMerge c = b ∧ (b.afterMerge c).Reachable ∧
      (ScriptTree.ofScript [0x51]).branch.leaf? = some (.ofScript [0x51]) := by
  obtain ⟨b, hb, hlength⟩ := exists_reachable (Nat.le_refl maxMerges)
  have hc : (Branch.empty.joined b).Reachable :=
    .add .empty hb (add_eq_ok_iff.mpr ⟨by decide, rfl⟩)
  have hwithin : b.Within (Branch.empty.joined b) :=
    .merged (List.mem_append_right _ (List.mem_singleton_self b)) (.self b)
  refine ⟨b, Branch.empty.joined b, hlength, hwithin, Reachable.inStep_within.1 _ hc b hwithin, ?_,
    Reachable.inStep_within.2.1 b _ hb hc, (Reachable.inStep_within.2.2 _ (.ofScript [0x51])).2.1⟩
  rw [afterMerge_eq, if_pos (Nat.le_of_eq hlength.symm)]

end Branch

end Taproot
