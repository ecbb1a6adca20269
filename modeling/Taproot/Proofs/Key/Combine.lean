import Mathlib.Algebra.BigOperators.Group.List.Basic
import Taproot.Proofs.Key.Pair
import Taproot.Proofs.Refusal

/-!
# Sums of public keys

Keys are summed from left to right, and every sum on the way has to be a key again. So a list of
keys can have a sum in the group, and even one that is a point, and still be refused: it is, if the
keys at some beginning of the list cancel out. The sum of a list therefore depends on its order,
though only in whether there is one.

## Main definitions

* `PublicKey.total`: the sum of keys in the group, where infinity is allowed
* `PublicKey.AvoidsInfinity`: no beginning of the list sums to infinity

## Main results

* `PublicKey.avoidsInfinity_concat_iff`: what a key at the end adds to this
* `PublicKey.foldlM_add_eq_ok_iff`: what a run of additions gives, and when
* `PublicKey.combine_eq_ok_iff`, `PublicKey.combine_eq_error_iff`: the same for sums of lists
-/

namespace Taproot

open scoped Fin.CommRing Coordinate GroupElement

open GroupElement

namespace PublicKey

/-- The key as an element of the group. -/
def element (pk : PublicKey) : GroupElement := finite pk.point

theorem element_inj {pk pk' : PublicKey} : pk.element = pk'.element ↔ pk = pk' := by
  cases pk
  cases pk'
  rw [element, element, finite.injEq, PublicKey.mk.injEq]

theorem element_ne_zero (pk : PublicKey) : pk.element ≠ 0 := finite_ne_zero pk.point

theorem exists_element {e : GroupElement} (he : e ≠ 0) : ∃ pk : PublicKey, pk.element = e := by
  cases e with
  | infinity => exact absurd rfl he
  | finite p => exact ⟨⟨p⟩, rfl⟩

/-! ### One addition -/

theorem ofElement_eq_ok_iff {fault : KeyError} {e : GroupElement} {pk : PublicKey} :
    ofElement fault e = .ok pk ↔ pk.element = e := by
  cases e with
  | infinity => simp only [ofElement, point?_infinity, Option.map_none, orFault_none, reduceCtorEq,
      element]
  | finite p =>
    rw [ofElement, point?_finite, Option.map_some, orFault_some, Except.ok.injEq, ← element_inj,
      eq_comm]
    rfl

theorem ofElement_eq_error_iff {fault fault' : KeyError} {e : GroupElement} :
    ofElement fault e = .error fault' ↔ e = 0 ∧ fault' = fault := by
  cases e with
  | infinity =>
    rw [ofElement, point?_infinity, Option.map_none, orFault_none, Except.error.injEq, eq_comm]
    exact (and_iff_right rfl).symm
  | finite p => simp only [ofElement, point?_finite, Option.map_some, orFault_some, reduceCtorEq,
      finite_ne_zero, false_and]

theorem add_eq_ok_iff {p q sum : PublicKey} :
    p.add q = .ok sum ↔ sum.element = p.element + q.element :=
  ofElement_eq_ok_iff

/-- An addition is refused for one reason. -/
theorem fault_of_add {p q : PublicKey} {fault : KeyError} (h : p.add q = .error fault) :
    fault = .key :=
  (ofElement_eq_error_iff.mp h).2

/-! ### Lists of keys -/

/-- The sum of keys in the group. -/
def total (pks : List PublicKey) : GroupElement := (pks.map element).sum

@[simp] theorem total_nil : total [] = 0 := rfl

@[simp] theorem total_cons (pk : PublicKey) (pks : List PublicKey) :
    total (pk :: pks) = pk.element + total pks := by
  rw [total, List.map_cons, List.sum_cons, ← total]

theorem total_singleton (pk : PublicKey) : total [pk] = pk.element := by
  rw [total_cons, total_nil, add_zero]

theorem total_append (as bs : List PublicKey) : total (as ++ bs) = total as + total bs := by
  rw [total, List.map_append, List.sum_append, total, total]

/-- No beginning of the list, the empty one apart, sums to infinity. -/
def AvoidsInfinity (pks : List PublicKey) : Prop :=
  ∀ init, init ≠ [] → init <+: pks → total init ≠ 0

theorem avoidsInfinity_nil : AvoidsInfinity [] := fun _ hne hinit =>
  absurd (List.prefix_nil.mp hinit) hne

/-- A key at the end adds one beginning, the whole list. -/
theorem avoidsInfinity_concat_iff {init : List PublicKey} {last : PublicKey} :
    AvoidsInfinity (init ++ [last]) ↔ AvoidsInfinity init ∧ total (init ++ [last]) ≠ 0 := by
  constructor
  · intro h
    refine ⟨fun part hne hpart => ?_, ?_⟩
    · exact h part hne (hpart.trans (List.prefix_append init [last]))
    · exact h _ (List.append_ne_nil_of_right_ne_nil init (List.cons_ne_nil last [])) List.prefix_rfl
  · rintro ⟨hinit, htotal⟩ part hne hpart
    obtain rfl | hpart := List.prefix_concat_iff.mp hpart
    · exact htotal
    · exact hinit part hne hpart

theorem avoidsInfinity_singleton (pk : PublicKey) : AvoidsInfinity [pk] := by
  refine avoidsInfinity_concat_iff.mpr ⟨avoidsInfinity_nil, ?_⟩
  rw [List.nil_append, total_singleton]
  exact pk.element_ne_zero

theorem avoidsInfinity_pair_iff {p q : PublicKey} :
    AvoidsInfinity [p, q] ↔ p.element + q.element ≠ 0 := by
  rw [← List.singleton_append, avoidsInfinity_concat_iff, total_append, total_singleton,
    total_singleton]
  exact and_iff_right (avoidsInfinity_singleton p)

/-- **A run of additions gives the sum in the group, if no sum on the way is infinity.** -/
theorem foldlM_add_eq_ok_iff {first sum : PublicKey} {rest : List PublicKey} :
    rest.foldlM add first = .ok sum ↔
      AvoidsInfinity (first :: rest) ∧ sum.element = total (first :: rest) := by
  -- from the end of the list, as the key at the end is added last
  induction rest using List.reverseRecOn generalizing sum with
  | nil =>
    rw [List.foldlM_nil, total_singleton, element_inj]
    constructor
    · intro h
      exact ⟨avoidsInfinity_singleton first, (Except.ok.inj h).symm⟩
    · rintro ⟨-, rfl⟩
      rfl
  | append_singleton init last ih =>
    rw [List.foldlM_append, bind_eq_ok_iff, ← List.cons_append, avoidsInfinity_concat_iff,
      total_append, total_singleton]
    simp only [List.foldlM_cons, List.foldlM_nil, bind_pure, add_eq_ok_iff]
    constructor
    · rintro ⟨acc, hacc, hsum⟩
      obtain ⟨havoid, hacc⟩ := ih.mp hacc
      rw [hacc] at hsum
      exact ⟨⟨havoid, hsum ▸ sum.element_ne_zero⟩, hsum⟩
    · rintro ⟨⟨havoid, -⟩, hsum⟩
      obtain ⟨acc, hacc⟩ :=
        exists_element (havoid (first :: init) (List.cons_ne_nil first init) List.prefix_rfl)
      exact ⟨acc, ih.mpr ⟨havoid, hacc⟩, by rw [hsum, hacc]⟩

theorem fault_of_foldlM_add {first : PublicKey} {rest : List PublicKey} {fault : KeyError}
    (h : rest.foldlM add first = .error fault) : fault = .key := by
  induction rest generalizing first with
  | nil => cases h
  | cons pk rest ih =>
    rw [List.foldlM_cons] at h
    cases hacc : first.add pk with
    | error fault' =>
      rw [hacc, error_bind] at h
      rw [← Except.error.inj h]
      exact fault_of_add hacc
    | ok acc =>
      rw [hacc, ok_bind] at h
      exact ih h

/-- **The sum of a list of keys** is its sum in the group, and there is one exactly if no beginning
of the list sums to infinity. -/
theorem combine_eq_ok_iff {pks : List PublicKey} {sum : PublicKey} :
    combine pks = .ok sum ↔ pks ≠ [] ∧ AvoidsInfinity pks ∧ sum.element = total pks := by
  cases pks with
  | nil => simp only [combine, reduceCtorEq, ne_eq, not_true_eq_false, false_and]
  | cons first rest =>
    rw [combine, foldlM_add_eq_ok_iff]
    exact (and_iff_right (List.cons_ne_nil first rest)).symm

theorem fault_of_combine {pks : List PublicKey} {fault : KeyError} (hne : pks ≠ [])
    (h : combine pks = .error fault) : fault = .key := by
  cases pks with
  | nil => exact absurd rfl hne
  | cons first rest => exact fault_of_foldlM_add h

theorem combine_eq_error_iff {pks : List PublicKey} {fault : KeyError} (hne : pks ≠ []) :
    combine pks = .error fault ↔ fault = .key ∧ ¬AvoidsInfinity pks := by
  constructor
  · intro h
    refine ⟨fault_of_combine hne h, fun havoid => ?_⟩
    obtain ⟨sum, hsum⟩ := exists_element (havoid pks hne List.prefix_rfl)
    rw [combine_eq_ok_iff.mpr ⟨hne, havoid, hsum⟩] at h
    cases h
  · rintro ⟨rfl, havoid⟩
    cases h : combine pks with
    | ok sum => exact absurd (combine_eq_ok_iff.mp h).2.1 havoid
    | error fault => rw [fault_of_combine hne h]

end PublicKey

end Taproot
