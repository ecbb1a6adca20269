import Taproot.Proofs.Curve.Order
import Taproot.Proofs.Key.Combine

/-!
# Sums of public keys in another order

The sum of keys in the group does not depend on their order. The sums on the way to it do, and a
list is refused if one of them is infinity. If some of the keys cancel out, the list that begins
with these is refused. There is also a list that is not, unless all of the keys cancel out: a key
that is not the sum of all is put last, and what is left does not cancel out and is arranged in the
same way. If every key is the sum of all, then the keys are equal and all but one of them cancel
out, which takes a multiple of the group order. So there is only one key, unless there are more than
any list can hold.

Hence the order of the keys is irrelevant in two cases only: all of them cancel out, and every list
is refused; or no part of them does, and every list has the same sum.

## Main definitions

* `PublicKey.NoPartCancels`: no part of the keys sums to infinity

## Main results

* `PublicKey.exists_perm_avoidsInfinity`: keys that do not cancel out can be summed in some order
* `PublicKey.noPartCancels_iff`: they can be summed in every order exactly if no part cancels out
* `PublicKey.combine_perm_iff`: when the order is irrelevant
* `PublicKey.combine_perm_fails`: that it is not always
-/

namespace Taproot

open scoped Fin.CommRing Coordinate GroupElement

open GroupElement

/-- Fewer summands than the group order do not cancel out if they are equal. -/
theorem GroupElement.eq_zero_of_nsmul_eq_zero {e : GroupElement} {k : ℕ} (he : e ≠ 0)
    (hk : k < groupOrder) (h : k • e = 0) : k = 0 := by
  have := Fact.mk groupOrder_prime
  have hgroup : groupOrder • e = 0 := by rw [← natCard_eq, card_nsmul_eq_zero']
  rw [← addOrderOf_eq_prime hgroup he] at hk
  exact Nat.eq_zero_of_dvd_of_lt (addOrderOf_dvd_of_nsmul_eq_zero h) hk

namespace PublicKey

variable {pks order : List PublicKey}

/-! ### Sums in the group -/

/-- **The sum in the group does not depend on the order.** -/
theorem total_of_perm (h : order.Perm pks) : total order = total pks := (h.map element).sum_eq

theorem total_erase {pk : PublicKey} (hpk : pk ∈ pks) :
    total pks = pk.element + total (pks.erase pk) := by
  rw [← total_cons, total_of_perm (List.perm_cons_erase hpk)]

theorem total_eq_nsmul {e : GroupElement} (h : ∀ pk ∈ pks, pk.element = e) :
    total pks = pks.length • e := by
  rw [total, List.sum_eq_card_nsmul _ e (List.forall_mem_map.mpr h), List.length_map]

/-! ### An order in which keys can be summed -/

/-- Of keys that do not cancel out one can be left out such that the others, if there are any, do
not cancel out either. -/
theorem exists_erase (hlength : pks.length ≤ groupOrder) (htotal : total pks ≠ 0) :
    ∃ pk ∈ pks, pks.erase pk ≠ [] → total (pks.erase pk) ≠ 0 := by
  by_contra! hall
  -- every key is the sum of all keys, so all but one of them cancel out
  have hequal (pk) (hpk : pk ∈ pks) : pk.element = total pks := by
    rw [total_erase hpk, (hall pk hpk).2, add_zero]
  have hsum := total_eq_nsmul hequal
  cases pks with
  | nil => exact htotal total_nil
  | cons first rest =>
    rw [List.length_cons] at hlength hsum
    rw [succ_nsmul, right_eq_add] at hsum
    have hrest := eq_zero_of_nsmul_eq_zero htotal (by omega) hsum
    refine (hall first List.mem_cons_self).1 ?_
    rw [List.erase_cons_head, List.length_eq_zero_iff.mp hrest]

/-- **Keys that do not cancel out can be summed in some order.** -/
theorem exists_perm_avoidsInfinity (hlength : pks.length ≤ groupOrder)
    (htotal : pks ≠ [] → total pks ≠ 0) : ∃ order, order.Perm pks ∧ AvoidsInfinity order := by
  induction hn : pks.length generalizing pks with
  | zero =>
    obtain rfl := List.length_eq_zero_iff.mp hn
    exact ⟨[], .nil, avoidsInfinity_nil⟩
  | succ n ih =>
    have hne : pks ≠ [] := List.ne_nil_of_length_eq_add_one hn
    obtain ⟨last, hlast, hrest⟩ := exists_erase hlength (htotal hne)
    have hlengthRest : (pks.erase last).length = n := by
      rw [List.length_erase_of_mem hlast, hn, Nat.add_sub_cancel]
    obtain ⟨init, hinit, havoid⟩ := ih (by omega) hrest hlengthRest
    have hperm : (init ++ [last]).Perm pks :=
      ((List.perm_append_singleton last init).trans (hinit.cons last)).trans
        (List.perm_cons_erase hlast).symm
    refine ⟨init ++ [last], hperm, avoidsInfinity_concat_iff.mpr ⟨havoid, ?_⟩⟩
    rw [total_of_perm hperm]
    exact htotal hne

/-! ### Every order -/

/-- No part of the keys, the empty one apart, sums to infinity. -/
def NoPartCancels (pks : List PublicKey) : Prop :=
  ∀ part, part ≠ [] → part.Sublist pks → total part ≠ 0

/-- **Keys can be summed in every order exactly if no part of them cancels out.** -/
theorem noPartCancels_iff : NoPartCancels pks ↔ ∀ order, order.Perm pks → AvoidsInfinity order := by
  constructor
  · intro h order hperm init hne hinit
    obtain ⟨part, hpart, hsublist⟩ := List.exists_perm_sublist hinit.sublist hperm
    rw [← total_of_perm hpart]
    exact h part (fun hnil => hne (List.nil_perm.mp (hnil ▸ hpart))) hsublist
  · intro h part hne hsublist
    obtain ⟨rest, hperm⟩ := hsublist.exists_perm_append
    exact h (part ++ rest) hperm.symm part hne (List.prefix_append part rest)

theorem ne_nil_of_perm (hne : pks ≠ []) (h : order.Perm pks) : order ≠ [] := by
  rintro rfl
  exact hne (List.nil_perm.mp h)

/-- Some order gives the sum in the group, and no order gives anything else. -/
theorem exists_perm_combine_iff {sum : PublicKey} (hlength : pks.length ≤ groupOrder) :
    (∃ order, order.Perm pks ∧ combine order = .ok sum) ↔ sum.element = total pks := by
  constructor
  · rintro ⟨order, hperm, h⟩
    rw [(combine_eq_ok_iff.mp h).2.2, total_of_perm hperm]
  · intro hsum
    have htotal : total pks ≠ 0 := hsum ▸ sum.element_ne_zero
    have hne : pks ≠ [] := by
      rintro rfl
      exact htotal total_nil
    obtain ⟨order, hperm, havoid⟩ := exists_perm_avoidsInfinity hlength fun _ => htotal
    refine ⟨order, hperm, combine_eq_ok_iff.mpr ⟨ne_nil_of_perm hne hperm, havoid, ?_⟩⟩
    rw [hsum, total_of_perm hperm]

/-- Keys that cancel out are refused in every order. -/
theorem combine_of_total_eq_zero (hne : pks ≠ []) (htotal : total pks = 0) :
    combine pks = .error .key :=
  (combine_eq_error_iff hne).mpr ⟨rfl, fun havoid => havoid pks hne List.prefix_rfl htotal⟩

/-- **When the order of keys is irrelevant.** Some order gives their sum in the group, if that is a
point, and no order gives another one. Every order is refused if the keys cancel out. All orders
have one result exactly if all of the keys cancel out or no part of them does. -/
theorem combine_perm_iff (hne : pks ≠ []) (hlength : pks.length ≤ groupOrder) :
    (∀ sum, (∃ order, order.Perm pks ∧ combine order = .ok sum) ↔ sum.element = total pks) ∧
      ((∀ order, order.Perm pks → combine order = .error .key) ↔ total pks = 0) ∧
      ((∀ order, order.Perm pks → combine order = combine pks) ↔
        total pks = 0 ∨ NoPartCancels pks) := by
  have hrefused (htotal : total pks = 0) (order) (hperm : order.Perm pks) :
      combine order = .error .key :=
    combine_of_total_eq_zero (ne_nil_of_perm hne hperm) ((total_of_perm hperm).trans htotal)
  have hordered (htotal : total pks ≠ 0) :
      ∃ order sum, order.Perm pks ∧ combine order = .ok sum := by
    obtain ⟨sum, hsum⟩ := exists_element htotal
    obtain ⟨order, hperm, h⟩ := (exists_perm_combine_iff hlength).mpr hsum
    exact ⟨order, sum, hperm, h⟩
  refine ⟨fun sum => exists_perm_combine_iff hlength, ⟨fun h => ?_, hrefused⟩, fun h => ?_, ?_⟩
  · by_contra htotal
    obtain ⟨order, sum, hperm, hsum⟩ := hordered htotal
    rw [h order hperm] at hsum
    cases hsum
  · by_cases htotal : total pks = 0
    · exact Or.inl htotal
    · obtain ⟨order, sum, hperm, hsum⟩ := hordered htotal
      refine Or.inr (noPartCancels_iff.mpr fun order' hperm' => ?_)
      rw [h order hperm, ← h order' hperm'] at hsum
      exact (combine_eq_ok_iff.mp hsum).2.1
  · rintro (htotal | hparts) order hperm
    · rw [hrefused htotal order hperm, hrefused htotal pks (.refl pks)]
    · have havoid := noPartCancels_iff.mp hparts
      obtain ⟨sum, hsum⟩ := exists_element (hparts pks hne (.refl pks))
      rw [combine_eq_ok_iff.mpr ⟨hne, havoid pks (.refl pks), hsum⟩]
      exact combine_eq_ok_iff.mpr ⟨ne_nil_of_perm hne hperm, havoid order hperm,
        hsum.trans (total_of_perm hperm).symm⟩

/-! ### A key that is cancelled too early -/

/-- The key of the base point. -/
def baseKey : PublicKey := ⟨basePoint⟩

/-- Its negative. -/
def negatedBaseKey : PublicKey := ⟨basePoint.neg⟩

theorem element_negatedBaseKey : negatedBaseKey.element = -baseKey.element := rfl

/-- A list of keys with a beginning that cancels out. -/
def cancellingKeys : List PublicKey := [baseKey, negatedBaseKey, baseKey]

theorem total_cancelling_pair : total [baseKey, negatedBaseKey] = 0 := by
  rw [total_cons, total_singleton, element_negatedBaseKey, add_neg_cancel]

theorem total_cancellingKeys : total cancellingKeys = baseKey.element := by
  rw [cancellingKeys, total_cons, total_cons, total_singleton, element_negatedBaseKey,
    neg_add_cancel, add_zero]

theorem combine_perm_iff_cancelling : cancellingKeys ≠ [] ∧ cancellingKeys.length ≤ groupOrder ∧
    (∃ order, order.Perm cancellingKeys ∧ combine order = .ok baseKey) ∧
      ¬∀ order, order.Perm cancellingKeys → combine order = combine cancellingKeys := by
  have hne : cancellingKeys ≠ [] := List.cons_ne_nil _ _
  have hlength : cancellingKeys.length ≤ groupOrder := by decide
  obtain ⟨hsum, -, hall⟩ := combine_perm_iff hne hlength
  refine ⟨hne, hlength, (hsum baseKey).mpr total_cancellingKeys.symm, fun h => ?_⟩
  rcases hall.mp h with htotal | hparts
  · rw [total_cancellingKeys] at htotal
    exact baseKey.element_ne_zero htotal
  · exact hparts [baseKey, negatedBaseKey] (List.cons_ne_nil _ _)
      (List.prefix_append _ [baseKey]).sublist total_cancelling_pair

theorem combine_cancellingKeys : combine cancellingKeys = .error .key :=
  (combine_eq_error_iff (List.cons_ne_nil _ _)).mpr ⟨rfl, fun havoid =>
    havoid [baseKey, negatedBaseKey] (List.cons_ne_nil _ _) (List.prefix_append _ [baseKey])
      total_cancelling_pair⟩

/-- With the negative at the end nothing cancels out on the way. -/
theorem combine_rearranged : combine [baseKey, baseKey, negatedBaseKey] = .ok baseKey := by
  have hperm : [baseKey, baseKey, negatedBaseKey].Perm cancellingKeys := .cons _ (.swap _ _ _)
  have htotal : total [baseKey, baseKey, negatedBaseKey] = baseKey.element :=
    (total_of_perm hperm).trans total_cancellingKeys
  have htwice : AvoidsInfinity [baseKey, baseKey] := by
    rw [avoidsInfinity_pair_iff, ← two_nsmul]
    exact two_nsmul_ne_zero baseKey.element_ne_zero
  have havoid : AvoidsInfinity ([baseKey, baseKey] ++ [negatedBaseKey]) :=
    avoidsInfinity_concat_iff.mpr ⟨htwice, htotal.trans_ne baseKey.element_ne_zero⟩
  exact combine_eq_ok_iff.mpr ⟨List.cons_ne_nil _ _, havoid, htotal.symm⟩

/-- **The result depends on the order of the keys.** The base point, its negative and the base point
are refused; the base point twice and then its negative have a sum. -/
theorem combine_perm_fails :
    ¬∀ pks order : List PublicKey, pks ≠ [] → order.Perm pks → combine order = combine pks := by
  intro h
  have hequal := h cancellingKeys [baseKey, baseKey, negatedBaseKey] (List.cons_ne_nil _ _)
    (.cons _ (.swap _ _ _))
  rw [combine_rearranged, combine_cancellingKeys] at hequal
  cases hequal

end PublicKey

end Taproot
