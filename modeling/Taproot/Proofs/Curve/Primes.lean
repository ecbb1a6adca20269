import Mathlib.NumberTheory.LucasPrimality
import Mathlib.Tactic.NormNum.Prime
import Taproot.Curve.Coordinate
import Taproot.Curve.Scalar

/-!
# The two primes of the curve

The coordinates form a field because `fieldPrime` is prime, and a multiple of the base point
determines its scalar because `groupOrder` is. Both numbers have 256 bits, far beyond trial
division, so each is certified by Lucas's test: some `a` has `a ^ (p - 1) = 1` modulo `p` and
`a ^ ((p - 1) / q) ≠ 1` for every prime `q` that divides `p - 1`. The prime factors of `p - 1`
are certified in the same way until trial division can take over. All these tests form one chain,
which is evaluated once.

The powers of the test are computed along `binaryDigits`, like the powers of coordinates and
the multiples of points. What such a walk computes is settled once, by `foldl_binaryDigits`.

## Main definitions

* `powerMod`: powers modulo a number
* `LucasStep`, `LucasStep.test`, `LucasStep.chain`: Lucas's test with the factors at hand
* `certificate`: the chain for the two primes

## Main results

* `foldl_binaryDigits`: a walk along binary digits doubles a number and adds the digit
* `fieldPrime_prime`, `groupOrder_prime`
-/

namespace Taproot

/-! ### Walking along binary digits -/

/-- **A walk along binary digits.** If a step doubles the number that a value stands for and adds
the digit, then the walk along the digits of `n` appends these digits to that number. -/
theorem foldl_binaryDigits {α : Type} (StandsFor : α → ℕ → Prop) {step : α → Bool → α}
    (hstep : ∀ (x : α) (k : ℕ) (digit : Bool), StandsFor x k →
      StandsFor (step x digit) (2 * k + digit.toNat))
    (width n : ℕ) {x : α} {k : ℕ} (h : StandsFor x k) :
    StandsFor ((binaryDigits width n).foldl step x) (2 ^ width * k + n % 2 ^ width) := by
  induction width generalizing x k with
  | zero => simpa [binaryDigits, Nat.mod_one] using h
  | succ width ih =>
    have hnext := ih (hstep x k (n.testBit width) h)
    have hsplit : n % 2 ^ (width + 1) = n % 2 ^ width + 2 ^ width * (n.testBit width).toNat := by
      rw [pow_succ, Nat.mod_mul, Nat.toNat_testBit]
    rw [binaryDigits, List.foldl_cons, hsplit]
    convert hnext using 1
    ring

/-- The walk from nothing along the digits of a number that fits stands for that number. -/
theorem foldl_binaryDigits_zero {α : Type} (StandsFor : α → ℕ → Prop) {step : α → Bool → α}
    (hstep : ∀ (x : α) (k : ℕ) (digit : Bool), StandsFor x k →
      StandsFor (step x digit) (2 * k + digit.toNat))
    {width n : ℕ} (hn : n < 2 ^ width) {x : α} (h : StandsFor x 0) :
    StandsFor ((binaryDigits width n).foldl step x) n := by
  have := foldl_binaryDigits StandsFor hstep width n h
  rwa [mul_zero, zero_add, Nat.mod_eq_of_lt hn] at this

/-! ### Lucas's test -/

/-- The power `a ^ n` modulo `m`, for exponents below `2 ^ 256`, by squaring. -/
def powerMod (m a n : ℕ) : ℕ :=
  (binaryDigits 256 n).foldl
    (fun acc bit => if bit then acc * acc % m * a % m else acc * acc % m) (1 % m)

theorem powerMod_eq {m a n : ℕ} (hn : n < 2 ^ 256) : powerMod m a n = a ^ n % m := by
  refine foldl_binaryDigits_zero (fun acc k => acc = a ^ k % m) ?_ hn (by simp)
  rintro x k digit rfl
  cases digit with
  | false => simp [two_mul, pow_add, Nat.mul_mod]
  | true => simp [two_mul, pow_add, Nat.mul_mod]

/-- One step of a certificate: a number, a base for the test, and the prime factors of the number
less one, each as often as it divides. -/
structure LucasStep where
  /-- The number to be certified. -/
  number : ℕ
  /-- The base of the powers. -/
  base : ℕ
  /-- The factors. -/
  factors : List ℕ

namespace LucasStep

/-- Lucas's test of a step. -/
def test (step : LucasStep) : Bool :=
  decide (1 < step.number ∧ step.number < 2 ^ 256) && step.factors.prod == step.number - 1 &&
    powerMod step.number step.base (step.number - 1) == 1 &&
      step.factors.all fun q => powerMod step.number step.base ((step.number - 1) / q) != 1

/-- The test of a chain of steps, of which each may use the numbers before it as factors. -/
def chain (known : List ℕ) : List LucasStep → Bool
  | [] => true
  | step :: steps =>
    step.factors.all (known.contains ·) && step.test && chain (step.number :: known) steps

theorem natCast_pow_eq_one_iff {p : ℕ} (hp : 1 < p) (a n : ℕ) :
    (a : ZMod p) ^ n = 1 ↔ a ^ n % p = 1 := by
  rw [← Nat.cast_pow, ← Nat.cast_one, ZMod.natCast_eq_natCast_iff', Nat.mod_eq_of_lt hp]

/-- **A number that passes Lucas's test is prime.** -/
theorem prime_of_test {step : LucasStep} (hfactors : ∀ q ∈ step.factors, q.Prime)
    (h : step.test = true) : step.number.Prime := by
  obtain ⟨p, a, factors⟩ := step
  simp only [test, Bool.and_eq_true, decide_eq_true_eq, beq_iff_eq, List.all_eq_true,
    bne_iff_ne] at h hfactors
  obtain ⟨⟨⟨⟨hp, hlt⟩, hprod⟩, hfull⟩, hpart⟩ := h
  have hpow : ∀ n ≤ p - 1, ((a : ZMod p) ^ n = 1 ↔ powerMod p a n = 1) := fun n hn => by
    rw [natCast_pow_eq_one_iff hp, powerMod_eq (by omega)]
  refine lucas_primality p a ((hpow _ le_rfl).mpr hfull) fun q hq hdvd => ?_
  rw [ne_eq, hpow _ (Nat.div_le_self _ _)]
  -- a prime divisor of the product is one of the listed factors
  obtain ⟨r, hr, hqr⟩ := (Prime.dvd_prod_iff hq.prime).mp (hprod ▸ hdvd)
  rw [(Nat.prime_dvd_prime_iff_eq hq (hfactors r hr)).mp hqr]
  exact hpart r hr

theorem prime_of_chain {known : List ℕ} {steps : List LucasStep} (hknown : ∀ q ∈ known, q.Prime)
    (h : chain known steps = true) : ∀ p ∈ steps.map number, p.Prime := by
  induction steps generalizing known with
  | nil => exact fun p hp => absurd hp List.not_mem_nil
  | cons step steps ih =>
    simp only [chain, Bool.and_eq_true, List.all_eq_true, List.contains_iff_mem] at h
    obtain ⟨⟨hfactors, htest⟩, hsteps⟩ := h
    have hstep : step.number.Prime := prime_of_test (fun q hq => hknown q (hfactors q hq)) htest
    intro p hp
    rcases List.mem_cons.mp hp with rfl | hp
    · exact hstep
    · exact ih (List.forall_mem_cons.mpr ⟨hstep, hknown⟩) hsteps p hp

end LucasStep

/-! ### The certificate -/

/-- The factors that are small enough for trial division. -/
def smallFactors : List ℕ :=
  [2, 3, 5, 7, 11, 17, 29, 31, 41, 59, 109, 149, 293, 461, 631, 1627, 2621, 2657, 4051, 4423, 5323,
    7723, 13441, 16699, 24809, 28181, 41201, 85831, 96557, 120233, 305873, 1627771, 4681609,
    7240687, 13331831, 44706919, 107590001]

theorem prime_of_mem_smallFactors : ∀ q ∈ smallFactors, q.Prime := by
  norm_num [smallFactors]

/-- The steps for the field prime, then those for the group order. -/
def certificate : List LucasStep := [
  ⟨173378833005251801, 6, [2, 2, 2, 5, 5, 2621, 24809, 13331831]⟩,
  ⟨22149492674086928081353, 5, [2, 2, 2, 3, 5323, 173378833005251801]⟩,
  ⟨132896956044521568488119, 6, [2, 3, 22149492674086928081353]⟩,
  ⟨255515944373312847190720520512484175977, 3,
    [2, 2, 2, 7, 7, 11, 1627, 2657, 4423, 41201, 96557, 7240687, 107590001]⟩,
  ⟨205115282021455665897114700593932402728804164701536103180137503955397371, 10,
    [2, 3, 5, 29, 29, 31, 7723, 132896956044521568488119,
      255515944373312847190720520512484175977]⟩,
  ⟨fieldPrime, 3, [2, 3, 7, 13441,
    205115282021455665897114700593932402728804164701536103180137503955397371]⟩,
  ⟨297159362677, 2, [2, 2, 3, 3, 11, 461, 1627771]⟩,
  ⟨545358713, 5, [2, 2, 2, 41, 59, 28181]⟩,
  ⟨29047611873442575647497758179, 2, [2, 293, 305873, 545358713, 297159362677]⟩,
  ⟨341948486974166000522343609283189, 2, [2, 2, 3, 3, 3, 109, 29047611873442575647497758179]⟩,
  ⟨174723607534414371449, 3, [2, 2, 2, 17, 59, 4051, 120233, 44706919]⟩,
  ⟨107361793816595537, 3, [2, 2, 2, 2, 16699, 85831, 4681609]⟩,
  ⟨groupOrder, 7, [2, 2, 2, 2, 2, 2, 3, 149, 631, 107361793816595537, 174723607534414371449,
    341948486974166000522343609283189]⟩]

theorem prime_of_mem_certificate : ∀ p ∈ certificate.map LucasStep.number, p.Prime :=
  LucasStep.prime_of_chain prime_of_mem_smallFactors (by decide +kernel)

/-- **The field prime is prime.** -/
theorem fieldPrime_prime : fieldPrime.Prime :=
  prime_of_mem_certificate fieldPrime (by simp [certificate])

/-- **The group order is prime.** -/
theorem groupOrder_prime : groupOrder.Prime :=
  prime_of_mem_certificate groupOrder (by simp [certificate])

end Taproot
