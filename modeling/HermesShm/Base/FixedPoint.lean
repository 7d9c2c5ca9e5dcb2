import Mathlib.Algebra.Order.Ring.Nat
import Mathlib.Tactic.Ring

/-! # Fixed-point numbers

A number is an integer part and a fraction of which the denominator is `p`. -/
namespace HermesShm.Base

variable {p d n d₁ n₁ d₂ n₂ : ℕ}

/-- `d + n / p`, in units of `1 / p`. -/
def fixed (p d n : ℕ) : ℕ := d * p + n

/-- A fraction `f / p` is carried into the integer part. -/
theorem fixed_carry (p d f : ℕ) : fixed p (d + f / p) (f % p) = d * p + f := by
  rw [fixed, Nat.add_mul, Nat.add_assoc, Nat.div_add_mod']

/-- A quotient rounded down. -/
theorem fixed_div (p a : ℕ) {b : ℕ} (hb : 0 < b) :
    fixed p (a / b) (a % b * p / b) = a * p / b := by
  have ha : a * p = a % b * p + b * (a / b * p) := by
    conv_lhs => rw [← Nat.div_add_mod a b]
    ring
  rw [fixed, ha, Nat.add_mul_div_left _ _ hb, Nat.add_comm]

theorem fixed_mul (k : ℕ) : fixed p d n * k = k * d * p + k * n := by
  rw [fixed]
  ring

/-- Of the product of two only the last of the partial products is rounded. -/
theorem fixed_mul_div (hp : 0 < p) :
    fixed p d₁ n₁ * fixed p d₂ n₂ / p = d₁ * d₂ * p + (d₁ * n₂ + d₂ * n₁ + n₁ * n₂ / p) := by
  have hprod : fixed p d₁ n₁ * fixed p d₂ n₂ =
      n₁ * n₂ + p * (d₁ * d₂ * p + (d₁ * n₂ + d₂ * n₁)) := by
    rw [fixed, fixed]
    ring
  rw [hprod, Nat.add_mul_div_left _ _ hp]
  omega

end HermesShm.Base
