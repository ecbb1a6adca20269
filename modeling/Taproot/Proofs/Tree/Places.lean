import Mathlib.Data.List.Basic
import Taproot.Tree.Basic

/-!
# Places from the root

The places of a tree are listed by walking down from the root with the siblings met so far. To argue
by induction on the tree it is needed the other way round: the places of two trees side by side are
the places of the left one with the right one as a further sibling, and the places of the right one
with the left one.

A search takes the first place that will do. Which one this is can often be seen without going
through the list: it is the only one, or it was found by a search for something more general.

## Main definitions

* `Place.above`: a place seen from a tree in which there are more siblings above it

## Main results

* `Tree.placesBelow_eq`: the siblings met so far are the last ones
* `Tree.mem_places_merge_iff`: the places of two trees side by side
* `find?_eq_some_of_unique`, `find?_eq_some_of_imp`: what a search finds
-/

namespace Taproot

/-! ### What a search finds -/

section

variable {α : Type} {l : List α} {a : α} {p q : α → Bool}

/-- A search finds what is the only one of its kind. -/
theorem find?_eq_some_of_unique (ha : a ∈ l) (hp : p a = true)
    (hunique : ∀ b ∈ l, p b = true → b = a) : l.find? p = some a := by
  obtain ⟨b, hb⟩ := Option.isSome_iff_exists.mp (List.find?_isSome.mpr ⟨a, ha, hp⟩)
  rw [hb, hunique b (List.mem_of_find?_eq_some hb) (List.find?_some hb)]

/-- What a search has found is found by a narrower search too, if that would take it. -/
theorem find?_eq_some_of_imp (h : l.find? p = some a) (hq : q a = true)
    (himp : ∀ b ∈ l, q b = true → p b = true) : l.find? q = some a := by
  obtain ⟨-, front, rest, rfl, hfront⟩ := List.find?_eq_some_iff_append.mp h
  refine List.find?_eq_some_iff_append.mpr ⟨hq, front, rest, rfl, fun b hb => ?_⟩
  have hnot := hfront b hb
  rw [Bool.not_eq_true'] at hnot ⊢
  by_contra hqb
  rw [himp b (List.mem_append_left _ hb) (Bool.not_eq_false _ ▸ hqb)] at hnot
  cases hnot

end

/-! ### Places seen from further up -/

/-- The place, seen from further up: the given siblings come after its own. -/
def Place.above (place : Place) (siblings : List Tree) : Place :=
  ⟨place.subtree, place.siblings ++ siblings⟩

theorem Place.nodes_above (place : Place) (siblings : List Tree) :
    (place.above siblings).nodes = place.nodes ++ siblings.map Tree.hash := List.map_append

namespace Tree

theorem placesBelow_eq (t : Tree) (siblings : List Tree) :
    t.placesBelow siblings = t.places.map (·.above siblings) := by
  suffices h : ∀ near, t.placesBelow (near ++ siblings) =
      (t.placesBelow near).map (·.above siblings) from h []
  induction t with
  | hidden hash => exact fun near => rfl
  | leaf l => exact fun near => rfl
  | merge left right ihl ihr =>
    intro near
    rw [placesBelow, placesBelow, List.map_cons, List.map_append, ← ihl, ← ihr]
    rfl

/-- The root comes first. -/
theorem exists_places_eq_cons (t : Tree) : ∃ rest, t.places = ⟨t, []⟩ :: rest := by
  cases t with
  | hidden hash => exact ⟨[], rfl⟩
  | leaf l => exact ⟨[], rfl⟩
  | merge left right => exact ⟨_, rfl⟩

/-- **The places of two trees side by side are the root and the places of either side.** -/
theorem mem_places_merge_iff {left right : Tree} {place : Place} :
    place ∈ (merge left right).places ↔ place = ⟨merge left right, []⟩ ∨
      (∃ p ∈ left.places, p.above [right] = place) ∨
        ∃ p ∈ right.places, p.above [left] = place := by
  rw [places, placesBelow, placesBelow_eq left, placesBelow_eq right, List.mem_cons,
    List.mem_append, List.mem_map, List.mem_map]

end Tree

end Taproot
