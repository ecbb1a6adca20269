import Mathlib.Data.List.Basic
import Taproot.Proofs.Tree.Preimage

/-!
# Collisions

Nothing is assumed of the hash function. Where an argument would need that equal hashes have equal
preimages, it concludes instead that two different byte strings with one hash are among the byte
strings that were hashed. Those are collected in lists, so that a conclusion names them.

A message is hashed under a tag by hashing two byte strings: the name of the tag, and the message
behind two copies of the hash of the name. Unless there is a collision among the four byte strings
of two such hashes, equal hashes have equal tags and equal messages.

## Main definitions

* `Collision`: two different byte strings of a list have the same hash
* `Tag.inputs`: what is hashed for a message under a tag

## Main results

* `Tag.hash_inj_or_collision`: hashing under tags is injective, or there is a collision
-/

namespace Taproot

/-- Two different byte strings of the list have the same hash. -/
def Collision (inputs : List Bytes) : Prop :=
  ∃ a ∈ inputs, ∃ b ∈ inputs, a ≠ b ∧ sha256 a = sha256 b

theorem eq_or_collision {inputs : List Bytes} {a b : Bytes} (ha : a ∈ inputs) (hb : b ∈ inputs)
    (h : sha256 a = sha256 b) : a = b ∨ Collision inputs := by
  by_cases hab : a = b
  · exact Or.inl hab
  · exact Or.inr ⟨a, ha, b, hb, hab, h⟩

namespace Tag

/-- The byte strings that are hashed for a message under a tag. -/
def inputs (tag : Tag) (msg : Bytes) : List Bytes := [tag.name, tag.preimage msg]

theorem name_injective {tag tag' : Tag} (h : tag.name = tag'.name) : tag = tag' := by
  cases tag <;> cases tag' <;> first | rfl | exact absurd h (by decide)

/-- The message is found again behind the two copies, and so is the hash of the name. -/
theorem preimage_inj {tag tag' : Tag} {msg msg' : Bytes}
    (h : tag.preimage msg = tag'.preimage msg') :
    sha256 tag.name = sha256 tag'.name ∧ msg = msg' := by
  rw [preimage_eq, preimage_eq, taggedPreimage, taggedPreimage, tagBlock, tagBlock,
    List.append_assoc, List.append_assoc] at h
  obtain ⟨hname, h⟩ := FixedBytes.append_toList_inj h
  exact ⟨hname, (FixedBytes.append_toList_inj h).2⟩

/-- **Hashing under tags is injective, or there is a collision.** -/
theorem hash_inj_or_collision {tag tag' : Tag} {msg msg' : Bytes} {inputs : List Bytes}
    (hmem : tag.inputs msg ⊆ inputs) (hmem' : tag'.inputs msg' ⊆ inputs)
    (h : tag.hash msg = tag'.hash msg') : (tag = tag' ∧ msg = msg') ∨ Collision inputs := by
  have hname : tag.name ∈ inputs := hmem List.mem_cons_self
  have hname' : tag'.name ∈ inputs := hmem' List.mem_cons_self
  have hmsg : tag.preimage msg ∈ inputs := hmem (List.mem_cons_of_mem _ List.mem_cons_self)
  have hmsg' : tag'.preimage msg' ∈ inputs := hmem' (List.mem_cons_of_mem _ List.mem_cons_self)
  rcases eq_or_collision hmsg hmsg' h with hpre | hcoll
  · obtain ⟨hblock, rfl⟩ := preimage_inj hpre
    rcases eq_or_collision hname hname' hblock with htag | hcoll
    · exact Or.inl ⟨name_injective htag, rfl⟩
    · exact Or.inr hcoll
  · exact Or.inr hcoll

end Tag

end Taproot
