import Taproot.Bytes

/-!
# Reading from a byte string

A reader takes bytes from the front of what is left. It either yields a value or fails, and in
both cases it says what is left afterwards: a reader that fails half way keeps what it had
already taken, so a failed read is not undone.

The only primitive is `take`, which is all or nothing. It never walks past the bytes it is asked
for, so reading many short pieces costs no more than reading them at once.

## Main definitions

* `ReadError`: the three ways in which reading fails;
* `Reader`: a computation over the bytes that are left;
* `Reader.take`, `Reader.fixed`: the next bytes;
* `Reader.times`, `Reader.whole`: a value several times over, and a value that must use
  everything up.

## Main results

* `hasAtLeast_iff`: the test behind `take` compares with the length.
-/

namespace Taproot

/-- Whether a list has at least `n` entries; stops after the first `n`. -/
def hasAtLeast {α : Type} : (n : Nat) → List α → Bool
  | 0, _ => true
  | _ + 1, [] => false
  | n + 1, _ :: rest => hasAtLeast n rest

theorem hasAtLeast_iff {α : Type} {n : Nat} {xs : List α} :
    hasAtLeast n xs = true ↔ n ≤ xs.length := by
  induction xs generalizing n with
  | nil => cases n <;> simp [hasAtLeast]
  | cons x xs ih => cases n <;> simp [hasAtLeast, ih]

/-- Why bytes could not be read as a value. -/
inductive ReadError where
  /-- The bytes ended before the value was complete. -/
  | unexpectedEnd
  /-- A count is not in its shortest form, or is larger than the bytes that are left. -/
  | malformed
  /-- Bytes were left after the value. -/
  | unread
deriving DecidableEq

/-- The wording of a failed read. -/
def ReadError.message : ReadError → String
  | .unexpectedEnd => "Unexpected end of data"
  | .malformed => "Malformed data"
  | .unread => "Unread data"

/-- A computation that takes bytes from the front of what is left. -/
abbrev Reader (α : Type) := EStateM ReadError Bytes α

namespace Reader

/-- The next `n` bytes; when fewer are left it fails and takes none. -/
def take (n : Nat) : Reader Bytes := fun rest =>
  if hasAtLeast n rest then .ok (rest.take n) (rest.drop n) else .error .unexpectedEnd rest

/-- The next `n` bytes as a string of that length. -/
def fixed (n : Nat) : Reader (FixedBytes n) := fun rest =>
  if h : hasAtLeast n rest then
    .ok ⟨rest.take n, by simp [hasAtLeast_iff.1 h]⟩ (rest.drop n)
  else .error .unexpectedEnd rest

/-- The next `n` bytes as a number, least significant byte first. -/
def littleEndian (n : Nat) : Reader Nat := do return ofLittleEndian (← take n)

/-- The values of `n` reads; `done` holds the values read before them, the last one first. -/
def collect {α : Type} (item : Reader α) : (n : Nat) → (done : List α) → Reader (List α)
  | 0, done => pure done.reverse
  | n + 1, done => do collect item n ((← item) :: done)

/-- The values of `n` reads, in order. -/
def times {α : Type} (item : Reader α) (n : Nat) : Reader (List α) := collect item n []

/-- The value of a byte string that holds nothing else. -/
def whole {α : Type} (item : Reader α) (bs : Bytes) : Except ReadError α :=
  match item bs with
  | .ok v [] => .ok v
  | .ok _ (_ :: _) => .error .unread
  | .error e _ => .error e

theorem take_append {n : Nat} {bs : Bytes} (h : bs.length = n) (rest : Bytes) :
    take n (bs ++ rest) = .ok bs rest := by
  subst h
  have : hasAtLeast bs.length (bs ++ rest) = true := hasAtLeast_iff.2 (by simp)
  simp [take, this]

theorem take_eq_ok {n : Nat} {bs v rest : Bytes} (h : take n bs = .ok v rest) :
    bs = v ++ rest ∧ v.length = n := by
  simp only [take] at h
  split at h
  · rename_i hle
    have hle := hasAtLeast_iff.1 hle
    cases h
    exact ⟨(List.take_append_drop n bs).symm, by simp [hle]⟩
  · cases h

end Reader

end Taproot
