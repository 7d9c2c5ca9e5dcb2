import HermesShm.Base.FixedPoint

/-! # Real numbers

`RealNumber` of `real_number.h`, `decimal + (numerator/65536)` in an unsigned integer of 64
bits and one of 32. Arithmetic wraps. -/
namespace HermesShm.Types
open HermesShm.Base

structure RealNumber where
  decimal_ : UInt64
  numerator_ : UInt32
deriving DecidableEq

namespace RealNumber

def precision : UInt32 := 65536

/-- "Converts numerator / denominator". -/
def ofFraction (numerator denominator : UInt64) : RealNumber :=
  let rem := numerator % denominator
  { decimal_ := numerator / denominator
    numerator_ := (rem * precision.toUInt64 / denominator).toUInt32 }

/-- The default constructor leaves the fields as the memory has them. -/
def uninitialized (memory : RealNumber) : RealNumber := memory

/-- The copy and the move constructor, and the two assignments. -/
def copy (other : RealNumber) : RealNumber :=
  { decimal_ := other.decimal_, numerator_ := other.numerator_ }

instance : HMul RealNumber UInt64 RealNumber where
  hMul x other :=
    let frac := other * x.numerator_.toUInt64
    { decimal_ := other * x.decimal_ + frac / precision.toUInt64
      numerator_ := (frac % precision.toUInt64).toUInt32 }

/-- The product of the numerators is one of 32 bits. -/
instance : Mul RealNumber where
  mul x other :=
    let frac := x.decimal_ * other.numerator_.toUInt64 + other.decimal_ * x.numerator_.toUInt64 +
      (x.numerator_ * other.numerator_ / precision).toUInt64
    { decimal_ := other.decimal_ * x.decimal_ + frac / precision.toUInt64
      numerator_ := (frac % precision.toUInt64).toUInt32 }

/-- `operator*=`, as what the number is afterwards. -/
def mulAssign (x other : RealNumber) : RealNumber := copy (x * other)

def scaleAssign (x : RealNumber) (other : UInt64) : RealNumber := copy (x * other)

def asInt (x : RealNumber) : UInt64 := x.decimal_ + (x.numerator_ / precision).toUInt64

/-! ## Values -/

/-- In units of `1 / 65536`. -/
def value (x : RealNumber) : ℕ := fixed 65536 x.decimal_.toNat x.numerator_.toNat

def Normalized (x : RealNumber) : Prop := x.numerator_.toNat < 65536

instance (x : RealNumber) : Decidable x.Normalized := inferInstanceAs (Decidable (_ < _))

/-- The fraction of the product, in units of `1 / 65536`. -/
def frac (x y : RealNumber) : ℕ :=
  x.decimal_.toNat * y.numerator_.toNat + y.decimal_.toNat * x.numerator_.toNat +
    x.numerator_.toNat * y.numerator_.toNat / 65536

/-- Nothing of the product overflows. -/
structure Fits (x y : RealNumber) : Prop where
  frac_lt : frac x y < 2 ^ 64
  decimal_lt : x.decimal_.toNat * y.decimal_.toNat + frac x y / 65536 < 2 ^ 64

structure FitsScale (x : RealNumber) (k : UInt64) : Prop where
  frac_lt : k.toNat * x.numerator_.toNat < 2 ^ 64
  decimal_lt : k.toNat * x.decimal_.toNat + k.toNat * x.numerator_.toNat / 65536 < 2 ^ 64

variable {x y : RealNumber} {k : UInt64}

theorem mul_def (x y : RealNumber) : x * y =
    { decimal_ := y.decimal_ * x.decimal_ + (x.decimal_ * y.numerator_.toUInt64 +
        y.decimal_ * x.numerator_.toUInt64 +
        (x.numerator_ * y.numerator_ / precision).toUInt64) / precision.toUInt64
      numerator_ := ((x.decimal_ * y.numerator_.toUInt64 + y.decimal_ * x.numerator_.toUInt64 +
        (x.numerator_ * y.numerator_ / precision).toUInt64) % precision.toUInt64).toUInt32 } := rfl

theorem toNat_precision : precision.toNat = 65536 := rfl

/-- What is left of a division by the precision is a numerator. -/
theorem toNat_numerator (f : UInt64) :
    (f % precision.toUInt64).toUInt32.toNat = f.toNat % 65536 := by
  rw [UInt64.toNat_toUInt32, UInt64.toNat_mod, UInt32.toNat_toUInt64, toNat_precision]
  omega

theorem toNat_carry (f : UInt64) : (f / precision.toUInt64).toNat = f.toNat / 65536 := by
  rw [UInt64.toNat_div, UInt32.toNat_toUInt64, toNat_precision]

/-! ## Normal forms -/

theorem normalized_ofFraction {a b : UInt64} (hb : 0 < b.toNat) : (ofFraction a b).Normalized := by
  have hrem : a.toNat % b.toNat < b.toNat := Nat.mod_lt _ hb
  -- where the product wraps, the denominator is at least `2 ^ 48`
  have hwrap : a.toNat % b.toNat * 65536 % 2 ^ 64 < b.toNat * 65536 := by omega
  have hdiv := Nat.div_lt_of_lt_mul hwrap
  simp only [Normalized, ofFraction, UInt64.toNat_toUInt32, UInt64.toNat_div, UInt64.toNat_mul,
    UInt64.toNat_mod, UInt32.toNat_toUInt64, toNat_precision]
  exact (Nat.mod_le _ _).trans_lt hdiv

theorem normalized_scale (x : RealNumber) (k : UInt64) : (x * k).Normalized := by
  have hn := toNat_numerator (k * x.numerator_.toUInt64)
  exact hn.trans_lt (Nat.mod_lt _ (by decide))

theorem normalized_mul (x y : RealNumber) : (x * y).Normalized := by
  rw [mul_def]
  exact (toNat_numerator _).trans_lt (Nat.mod_lt _ (by decide))

/-! ## Exactness -/

theorem value_ofFraction {a b : UInt64} (hb : 0 < b.toNat)
    (h : a.toNat % b.toNat * 65536 < 2 ^ 64) :
    (ofFraction a b).value = a.toNat * 65536 / b.toNat := by
  have hnum : (ofFraction a b).numerator_.toNat = a.toNat % b.toNat * 65536 / b.toNat := by
    have hlt : a.toNat % b.toNat * 65536 / b.toNat < 65536 :=
      Nat.div_lt_of_lt_mul (Nat.mul_lt_mul_of_pos_right (Nat.mod_lt _ hb) (by decide))
    simp only [ofFraction, UInt64.toNat_toUInt32, UInt64.toNat_div, UInt64.toNat_mul,
      UInt64.toNat_mod, UInt32.toNat_toUInt64, toNat_precision]
    rw [Nat.mod_eq_of_lt h, Nat.mod_eq_of_lt (by omega)]
  rw [value, hnum, ofFraction, UInt64.toNat_div, fixed_div _ _ hb]

theorem value_scale (h : FitsScale x k) : (x * k).value = x.value * k.toNat := by
  have hfrac : (k * x.numerator_.toUInt64).toNat = k.toNat * x.numerator_.toNat := by
    rw [UInt64.toNat_mul, UInt32.toNat_toUInt64, Nat.mod_eq_of_lt h.frac_lt]
  have hdec : (x * k).decimal_.toNat =
      k.toNat * x.decimal_.toNat + k.toNat * x.numerator_.toNat / 65536 := by
    have hlt := h.decimal_lt
    change (k * x.decimal_ + k * x.numerator_.toUInt64 / precision.toUInt64).toNat = _
    rw [UInt64.toNat_add, UInt64.toNat_mul, toNat_carry, hfrac,
      Nat.mod_eq_of_lt (show k.toNat * x.decimal_.toNat < 2 ^ 64 by omega), Nat.mod_eq_of_lt hlt]
  have hnum : (x * k).numerator_.toNat = k.toNat * x.numerator_.toNat % 65536 :=
    (toNat_numerator _).trans (by rw [hfrac])
  rw [value, hdec, hnum, fixed_carry, value, fixed_mul]

/-- The product of the numerators of normalized numbers is less than `2 ^ 32`. -/
theorem toNat_frac (hx : x.Normalized) (hy : y.Normalized) (h : Fits x y) :
    (x.decimal_ * y.numerator_.toUInt64 + y.decimal_ * x.numerator_.toUInt64 +
      (x.numerator_ * y.numerator_ / precision).toUInt64).toNat = frac x y := by
  have hmul : x.numerator_.toNat * y.numerator_.toNat < 65536 * 65536 :=
    Nat.mul_lt_mul'' hx hy
  have hlt := h.frac_lt
  unfold frac at hlt ⊢
  rw [UInt64.toNat_add, UInt64.toNat_add, UInt64.toNat_mul, UInt64.toNat_mul,
    UInt32.toNat_toUInt64, UInt32.toNat_toUInt64, UInt32.toNat_toUInt64, UInt32.toNat_div,
    UInt32.toNat_mul, toNat_precision, Nat.mod_eq_of_lt hmul,
    Nat.mod_eq_of_lt (show x.decimal_.toNat * y.numerator_.toNat < 2 ^ 64 by omega),
    Nat.mod_eq_of_lt (show y.decimal_.toNat * x.numerator_.toNat < 2 ^ 64 by omega),
    Nat.mod_eq_of_lt (show x.decimal_.toNat * y.numerator_.toNat +
      y.decimal_.toNat * x.numerator_.toNat < 2 ^ 64 by omega), Nat.mod_eq_of_lt hlt]

theorem value_mul (hx : x.Normalized) (hy : y.Normalized) (h : Fits x y) :
    (x * y).value = x.value * y.value / 65536 := by
  have hfrac := toNat_frac hx hy h
  have hdec : (x * y).decimal_.toNat =
      x.decimal_.toNat * y.decimal_.toNat + frac x y / 65536 := by
    have hlt := h.decimal_lt
    rw [mul_def, UInt64.toNat_add, UInt64.toNat_mul, toNat_carry, hfrac, Nat.mul_comm,
      Nat.mod_eq_of_lt (show x.decimal_.toNat * y.decimal_.toNat < 2 ^ 64 by omega),
      Nat.mod_eq_of_lt hlt]
  have hnum : (x * y).numerator_.toNat = frac x y % 65536 := by
    rw [mul_def, toNat_numerator, hfrac]
  rw [value, hdec, hnum, fixed_carry, value, value, fixed_mul_div (by decide)]
  rfl

theorem mul_comm (x y : RealNumber) : x * y = y * x := by
  rw [mul_def, mul_def, UInt64.mul_comm y.decimal_ x.decimal_,
    UInt64.add_comm (x.decimal_ * y.numerator_.toUInt64), UInt32.mul_comm x.numerator_]

/-! ## What holds of the arithmetic -/

/-- **The arithmetic is exact up to one rounding.** -/
theorem arithmetic_exact :
    (∀ a b : UInt64, 0 < b.toNat → a.toNat % b.toNat * 65536 < 2 ^ 64 →
      (ofFraction a b).value = a.toNat * 65536 / b.toNat) ∧
    (∀ x y : RealNumber, x.Normalized → y.Normalized → Fits x y →
      (x * y).value = x.value * y.value / 65536) ∧
    (∀ (x : RealNumber) (k : UInt64), FitsScale x k → (x * k).value = x.value * k.toNat) ∧
    (∀ a b : UInt64, 0 < b.toNat → (ofFraction a b).Normalized) ∧
    (∀ x : RealNumber, x.Normalized → (copy x).Normalized) ∧
    (∀ x y : RealNumber, (x * y).Normalized ∧ (mulAssign x y).Normalized) ∧
    (∀ (x : RealNumber) (k : UInt64), (x * k).Normalized ∧ (scaleAssign x k).Normalized) ∧
    (∀ x y : RealNumber, x * y = y * x) ∧
    (∀ x x' y y' : RealNumber, x.Normalized → y.Normalized → Fits x y → x'.Normalized →
      y'.Normalized → Fits x' y' → x.value ≤ x'.value → y.value ≤ y'.value →
      (x * y).value ≤ (x' * y').value) ∧
    (∀ (x x' : RealNumber) (k k' : UInt64), FitsScale x k → FitsScale x' k' →
      x.value ≤ x'.value → k.toNat ≤ k'.toNat → (x * k).value ≤ (x' * k').value) := by
  refine ⟨fun _ _ => value_ofFraction, fun _ _ => value_mul, fun _ _ => value_scale,
    fun _ _ => normalized_ofFraction, fun _ hx => hx,
    fun x y => ⟨normalized_mul x y, normalized_mul x y⟩,
    fun x k => ⟨normalized_scale x k, normalized_scale x k⟩, mul_comm,
    fun x x' y y' hx hy h hx' hy' h' hle hle' => ?_, fun x x' k k' h h' hle hk => ?_⟩
  · rw [value_mul hx hy h, value_mul hx' hy' h']
    exact Nat.div_le_div_right (Nat.mul_le_mul hle hle')
  · rw [value_scale h, value_scale h']
    exact Nat.mul_le_mul hle hk

/-- Four fifths of three halves. -/
theorem arithmetic_exact_example :
    (ofFraction 4 5 * ofFraction 3 2).value =
      (ofFraction 4 5).value * (ofFraction 3 2).value / 65536 :=
  arithmetic_exact.2.1 _ _ (by decide) (by decide) ⟨by decide, by decide⟩

/-- A sum of products below `2 ^ 64` that reaches it, an integer part that does, and a number
that nothing has been stored to. -/
theorem not_arithmetic_exact :
    (∃ x y : RealNumber, x.Normalized ∧ y.Normalized ∧
      x.decimal_.toNat * y.decimal_.toNat < 2 ^ 64 ∧
      x.decimal_.toNat * y.numerator_.toNat < 2 ^ 64 ∧
      y.decimal_.toNat * x.numerator_.toNat < 2 ^ 64 ∧
      x.numerator_.toNat * y.numerator_.toNat < 2 ^ 64 ∧
      (x * y).value ≠ x.value * y.value / 65536) ∧
    (∃ (x : RealNumber) (k : UInt64), x.Normalized ∧ k.toNat * x.decimal_.toNat < 2 ^ 64 ∧
      k.toNat * x.numerator_.toNat < 2 ^ 64 ∧ (x * k).value ≠ x.value * k.toNat) ∧
    ∃ memory, ¬ (uninitialized memory).Normalized := by
  refine ⟨⟨⟨281479271743489, 1⟩, ⟨1, 65535⟩, ?_⟩, ⟨⟨1, 1⟩, 18446744073709551615, ?_⟩,
    ⟨0, 65536⟩, ?_⟩
  all_goals decide

end RealNumber

end HermesShm.Types
