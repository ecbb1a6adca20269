import Mathlib.Data.Sym.Sym2
import Taproot.Proofs.Wire.CompactSize
import Taproot.Tree.Preimage

/-!
# Preimages are unambiguous

The byte strings that are hashed for a leaf, for two subtrees and for a commitment determine what
they were made for. A leaf is found again because the length in front of its script ends by itself.
Two subtrees are found again up to their order, because hashes have a fixed size. A commitment is
found again because the only root that is left out is the zero root, and leaving it out shortens the
byte string.

## Main results

* `leafPreimage_inj`, `branchPreimage_eq_iff`, `tweakPreimage_inj`: the three kinds
* `preimages_unambiguous`: the three kinds together, with what is hashed for them
-/

namespace Taproot

theorem FixedBytes.toList_inj {n : ℕ} {a b : FixedBytes n} : a.toList = b.toList ↔ a = b :=
  ⟨FixedBytes.ext, congrArg FixedBytes.toList⟩

/-- Byte strings of known lengths are found again behind one another. -/
theorem FixedBytes.append_toList_inj {n : ℕ} {a b : FixedBytes n} {xs ys : Bytes}
    (h : a.toList ++ xs = b.toList ++ ys) : a = b ∧ xs = ys := by
  have hlength : a.toList.length = b.toList.length := by rw [a.length_toList, b.length_toList]
  obtain ⟨hab, hxy⟩ := List.append_inj h hlength
  exact ⟨FixedBytes.ext hab, hxy⟩

/-- **A leaf is determined by its preimage.** -/
theorem leafPreimage_inj {v w : UInt8} {r s : Script} :
    leafPreimage v r = leafPreimage w s ↔ v = w ∧ r = s := by
  constructor
  · intro h
    obtain ⟨hversion, hrest⟩ := List.cons.inj h
    exact ⟨hversion, (CompactSize.encode_append_inj hrest).2⟩
  · rintro ⟨rfl, rfl⟩
    rfl

/-- **Two subtrees are determined by their preimage, up to their order.** -/
theorem branchPreimage_eq_iff {a b c d : Hash} :
    branchPreimage a b = branchPreimage c d ↔ (a = c ∧ b = d) ∨ (a = d ∧ b = c) := by
  constructor
  · intro h
    rw [branchPreimage, branchPreimage] at h
    split_ifs at h
    · obtain ⟨hb, ha⟩ := FixedBytes.append_toList_inj h
      exact Or.inl ⟨FixedBytes.toList_inj.mp ha, hb⟩
    · obtain ⟨hb, ha⟩ := FixedBytes.append_toList_inj h
      exact Or.inr ⟨FixedBytes.toList_inj.mp ha, hb⟩
    · obtain ⟨ha, hb⟩ := FixedBytes.append_toList_inj h
      exact Or.inr ⟨ha, FixedBytes.toList_inj.mp hb⟩
    · obtain ⟨ha, hb⟩ := FixedBytes.append_toList_inj h
      exact Or.inl ⟨ha, FixedBytes.toList_inj.mp hb⟩
  · rintro (⟨rfl, rfl⟩ | ⟨rfl, rfl⟩)
    · rfl
    · exact branchPreimage_comm a b

/-- **A commitment is determined by its preimage.** -/
theorem tweakPreimage_inj {k l : XOnlyKey} {r s : Hash} :
    tweakPreimage k r = tweakPreimage l s ↔ k = l ∧ r = s := by
  constructor
  · intro h
    obtain ⟨hkey, hroot⟩ := FixedBytes.append_toList_inj h
    refine ⟨congrArg XOnlyKey.mk hkey, ?_⟩
    -- a root that is not zero is not empty
    have hne (root : Hash) : root.toList ≠ [] := fun hnil => by
      have := root.length_toList
      rw [hnil] at this
      cases this
    split_ifs at hroot with hr hs hs
    · rw [FixedBytes.isZero_iff.mp hr, FixedBytes.isZero_iff.mp hs]
    · exact absurd hroot.symm (hne s)
    · exact absurd hroot (hne r)
    · exact FixedBytes.toList_inj.mp hroot
  · rintro ⟨rfl, rfl⟩
    rfl

/-- Leaving the root out shortens the byte string. -/
theorem length_tweakPreimage (key : XOnlyKey) (root : Hash) :
    (tweakPreimage key root).length = if root = .zero 32 then 32 else 64 := by
  simp only [tweakPreimage, FixedBytes.isZero_iff]
  split_ifs <;> simp

/-- **What is hashed is unambiguous.** The hash of a leaf, of two subtrees and of a commitment is
taken of a preimage behind the block of a tag. A leaf is determined by its preimage, two subtrees
are up to their order, which leaves no trace in it, and a key and a root are, the root that is left
out included: it is the zero root only. -/
theorem preimages_unambiguous :
    (∀ (v w : UInt8) (r s : Script), leafHash v r = sha256 (Tag.leaf.block ++ leafPreimage v r) ∧
      (leafPreimage v r = leafPreimage w s ↔ (v, r) = (w, s))) ∧
    (∀ a b c d : Hash, joinHash a b = sha256 (Tag.branch.block ++ branchPreimage a b) ∧
      branchPreimage a b = branchPreimage b a ∧
      (branchPreimage a b = branchPreimage c d ↔ s(a, b) = s(c, d))) ∧
    ∀ (k l : XOnlyKey) (r s : Hash),
      commitmentTweak k r = sha256 (Tag.tweak.block ++ tweakPreimage k r) ∧
      (tweakPreimage k r).length = (if r = .zero 32 then 32 else 64) ∧
      (tweakPreimage k r = tweakPreimage l s ↔ (k, r) = (l, s)) := by
  refine ⟨fun v w r s => ⟨rfl, ?_⟩, fun a b c d => ⟨rfl, branchPreimage_comm a b, ?_⟩,
    fun k l r s => ⟨rfl, length_tweakPreimage k r, ?_⟩⟩
  · rw [leafPreimage_inj, Prod.mk.injEq]
  · rw [branchPreimage_eq_iff, Sym2.eq_iff]
  · rw [tweakPreimage_inj, Prod.mk.injEq]

end Taproot
