import Mathlib.Algebra.Group.Nat.Defs
import Mathlib.Tactic.Common

/-! # Memory of bytes

A memory gives a byte at every address. Numbers are stored least significant
byte first. -/
namespace HermesShm.Base

abbrev ByteMem := Nat → UInt8

namespace ByteMem

/-- The number in the `n` bytes at `a`. -/
def load (m : ByteMem) (a : Nat) : Nat → Nat
  | 0 => 0
  | n + 1 => (m a).toNat + 256 * load m (a + 1) n

/-- The lower `n` bytes of `v` at `a`. -/
def store (m : ByteMem) (a n v : Nat) : ByteMem := fun x =>
  if a ≤ x ∧ x < a + n then UInt8.ofNat (v / 256 ^ (x - a)) else m x

/-- `memcpy`, for ranges that do not overlap. -/
def copy (m : ByteMem) (dst src n : Nat) : ByteMem := fun x =>
  if dst ≤ x ∧ x < dst + n then m (src + (x - dst)) else m x

/-- `m'` has the bytes of `m` in the `n` bytes at `a`. -/
def SameOn (m m' : ByteMem) (a n : Nat) : Prop := ∀ x, a ≤ x → x < a + n → m' x = m x

/-- `m'` has the bytes of `m` outside the `n` bytes at `a`. -/
def SameOff (m m' : ByteMem) (a n : Nat) : Prop := ∀ x, x < a ∨ a + n ≤ x → m' x = m x

variable {m m' m'' : ByteMem} {a b n k v : Nat}

theorem SameOn.refl (m : ByteMem) (a n : Nat) : SameOn m m a n := fun _ _ _ => rfl

theorem SameOn.trans (h : SameOn m m' a n) (h' : SameOn m' m'' a n) : SameOn m m'' a n :=
  fun x ha hn => (h' x ha hn).trans (h x ha hn)

theorem SameOff.trans (h : SameOff m m' a n) (h' : SameOff m' m'' a n) : SameOff m m'' a n :=
  fun x hx => (h' x hx).trans (h x hx)

theorem SameOff.mono (h : SameOff m m' a n) (hb : b ≤ a) (hk : a + n ≤ b + k) :
    SameOff m m' b k := fun x hx => h x (by omega)

/-- What changes in one range only is the same on another. -/
theorem SameOff.sameOn (h : SameOff m m' a n) (hd : a + n ≤ b ∨ b + k ≤ a) : SameOn m m' b k :=
  fun x hb hk => h x (by omega)

theorem load_congr (h : SameOn m m' a n) : load m' a n = load m a n := by
  induction n generalizing a with
  | zero => rfl
  | succ n ih =>
    rw [load, load, h a (Nat.le_refl _) (by omega), ih fun x ha hn => h x (by omega) (by omega)]

theorem load_lt (m : ByteMem) (a n : Nat) : load m a n < 256 ^ n := by
  induction n generalizing a with
  | zero => exact Nat.one_pos
  | succ n ih =>
    have := (m a).toNat_lt
    have := ih (a + 1)
    rw [load, Nat.pow_succ]
    omega

theorem store_sameOff (m : ByteMem) (a n v : Nat) : SameOff m (store m a n v) a n :=
  fun x hx => if_neg (by omega)

theorem load_store (hv : v < 256 ^ n) : load (store m a n v) a n = v := by
  induction n generalizing m a v with
  | zero => simpa [load, Nat.lt_one_iff, eq_comm] using hv
  | succ n ih =>
    have hhead : store m a (n + 1) v a = UInt8.ofNat v := by
      rw [store, if_pos (by omega), Nat.sub_self, Nat.pow_zero, Nat.div_one]
    -- the bytes after the first are those of `v / 256`
    have htail : SameOn (store m (a + 1) n (v / 256)) (store m a (n + 1) v) (a + 1) n := by
      intro x ha hn
      rw [store, if_pos (by omega), store, if_pos (by omega), Nat.div_div_eq_div_mul,
        show x - a = x - (a + 1) + 1 by omega, Nat.pow_succ, Nat.mul_comm]
    rw [load, hhead, load_congr htail, ih, UInt8.toNat_ofNat']
    · omega
    · rw [Nat.pow_succ] at hv
      exact Nat.div_lt_of_lt_mul (by omega)

theorem copy_sameOff (m : ByteMem) (dst src n : Nat) : SameOff m (copy m dst src n) dst n :=
  fun x hx => if_neg (by omega)

theorem copy_apply (m : ByteMem) (dst src : Nat) {i : Nat} (hi : i < n) :
    copy m dst src n (dst + i) = m (src + i) := by
  rw [copy, if_pos (by omega), Nat.add_sub_cancel_left]

end ByteMem
end HermesShm.Base
