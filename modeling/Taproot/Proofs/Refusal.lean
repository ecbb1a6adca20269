import Taproot.Tree.Error

/-!
# Computations that may be refused

Keys, trees and control blocks are made by sequences of steps each of which may be refused. A
sequence succeeds when every step does, and stops at the first refusal. The lemmas below say so for
one step at a time, in the two directions that are needed: running a step whose outcome is known,
and taking a success apart.

## Main results

* `ok_bind`, `error_bind`: running a step
* `bind_eq_ok_iff`, `mapM_cons_eq_ok_iff`, `mapError_eq_ok_iff`, `liftKeyError_eq_ok_iff`: taking a
  success apart
-/

namespace Taproot

variable {ε α β : Type}

@[simp] theorem ok_bind (a : α) (f : α → Except ε β) : (Except.ok a >>= f) = f a := rfl

@[simp] theorem error_bind (fault : ε) (f : α → Except ε β) :
    (Except.error fault >>= f) = Except.error fault := rfl

theorem bind_eq_ok_iff {x : Except ε α} {f : α → Except ε β} {b : β} :
    (x >>= f) = .ok b ↔ ∃ a, x = .ok a ∧ f a = .ok b := by
  cases x with
  | error fault => simp only [error_bind, reduceCtorEq, false_and, exists_false]
  | ok a => simp only [ok_bind, Except.ok.injEq, exists_eq_left']

/-- A list of computations succeeds when every one of them does. -/
theorem mapM_cons_eq_ok_iff {f : α → Except ε β} {a : α} {as : List α} {bs : List β} :
    (a :: as).mapM f = .ok bs ↔
      ∃ b rest, f a = .ok b ∧ as.mapM f = .ok rest ∧ b :: rest = bs := by
  rw [List.mapM_cons, bind_eq_ok_iff]
  simp only [bind_eq_ok_iff, pure, Except.pure, Except.ok.injEq, exists_and_left]

/-- Renaming the fault of a refusal leaves a success as it is. -/
theorem mapError_eq_ok_iff {ε' : Type} {x : Except ε α} {f : ε → ε'} {a : α} :
    x.mapError f = .ok a ↔ x = .ok a := by
  cases x with
  | error fault =>
    change Except.error (f fault) = _ ↔ _
    simp only [reduceCtorEq]
  | ok a' =>
    change Except.ok a' = _ ↔ _
    rw [Except.ok.injEq, Except.ok.injEq]

/-- A computation that was run and not refused has an outcome. -/
theorem exists_of_isOk {x : Except ε α} (h : x.isOk = true) : ∃ a, x = .ok a := by
  cases x with
  | error fault => cases h
  | ok a => exact ⟨a, rfl⟩

@[simp] theorem liftKeyError_error (fault : KeyError) :
    liftKeyError (.error fault : Except KeyError α) = .error (.key fault) := rfl

theorem liftKeyError_eq_ok_iff {x : Except KeyError α} {a : α} :
    liftKeyError x = .ok a ↔ x = .ok a := by
  cases x with
  | error fault => simp only [liftKeyError_error, reduceCtorEq]
  | ok a' => rw [liftKeyError_ok, Except.ok.injEq, Except.ok.injEq]

end Taproot
