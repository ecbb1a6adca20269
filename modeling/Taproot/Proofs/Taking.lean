import Mathlib.Data.Nat.Notation

/-!
# Computations that take from what is left

Readers take bytes from the front of what is left, parsers take characters. Both are sequences of
steps each of which sees what the step before it has left, and both fail with the first step that
does. The lemmas below are the counterparts of those for computations that may only be refused: one
runs a step whose outcome is known, the others take a success apart.

## Main results

* `bind_of_eq_ok`: running a step
* `run_bind_eq_ok_iff`, `run_pure_eq_ok_iff`: taking a success apart
-/

namespace Taproot

variable {ε σ α β : Type}

theorem bind_of_eq_ok {x : EStateM ε σ α} {f : α → EStateM ε σ β} {s left : σ} {a : α}
    (h : x s = .ok a left) : (x >>= f) s = f a left := by
  change EStateM.bind x f s = _
  rw [EStateM.bind, h]

theorem run_bind_eq_ok_iff {x : EStateM ε σ α} {f : α → EStateM ε σ β} {s rest : σ} {b : β} :
    (x >>= f) s = .ok b rest ↔ ∃ a left, x s = .ok a left ∧ f a left = .ok b rest := by
  change EStateM.bind x f s = _ ↔ _
  rw [EStateM.bind]
  cases x s with
  | error fault left => simp only [reduceCtorEq, false_and, exists_false]
  | ok a left => simp only [EStateM.Result.ok.injEq, and_assoc, exists_eq_left', exists_and_left]

theorem run_pure_eq_ok_iff {s rest : σ} {a b : α} :
    (pure a : EStateM ε σ α) s = .ok b rest ↔ a = b ∧ s = rest := by
  change EStateM.Result.ok a s = _ ↔ _
  rw [EStateM.Result.ok.injEq]

end Taproot
