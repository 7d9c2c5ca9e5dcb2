import Mathlib.Data.Nat.ModEq

/-! # Unsigned machine arithmetic

Numbers below a modulus `w`, with addition and subtraction that wrap. -/
namespace HermesShm.Base

variable {w a b : Nat}

def wordAdd (w a b : Nat) : Nat := (a + b) % w

/-- For `a` and `b` below `w`. -/
def wordSub (w a b : Nat) : Nat := if b ≤ a then a - b else a + w - b

@[simp] theorem wordAdd_of_lt (h : a + b < w) : wordAdd w a b = a + b := Nat.mod_eq_of_lt h

@[simp] theorem wordSub_of_le (hb : b ≤ a) : wordSub w a b = a - b := if_pos hb

/-- What is added can be taken off. -/
theorem wordSub_wordAdd (ha : a < w) (hb : b ≤ w) : wordSub w (wordAdd w a b) b = a := by
  by_cases hlt : a + b < w
  · rw [wordAdd_of_lt hlt, wordSub_of_le (Nat.le_add_left ..), Nat.add_sub_cancel]
  · rw [wordAdd, Nat.mod_eq_sub_mod (Nat.not_lt.mp hlt), Nat.mod_eq_of_lt (by omega), wordSub]
    split <;> omega

/-- A word stays only where zero is added. -/
theorem wordAdd_eq_left (ha : a < w) (hb : b < w) : wordAdd w a b = a ↔ b = 0 := by
  refine ⟨fun h => ?_, fun h => by rw [h, wordAdd_of_lt ha, Nat.add_zero]⟩
  have hzero := wordSub_wordAdd hb (Nat.le_of_lt ha)
  rw [wordAdd, Nat.add_comm, ← wordAdd, h, wordSub_of_le (Nat.le_refl a), Nat.sub_self] at hzero
  exact hzero.symm

/-- The word that brings `a` to zero. -/
theorem wordAdd_neg (ha : a < w) : wordAdd w a ((w - a) % w) = 0 := by
  rw [wordAdd, Nat.add_mod_mod, Nat.add_sub_cancel' (Nat.le_of_lt ha), Nat.mod_self]

theorem wordAdd_right_inj {c : Nat} (hb : b < w) (hc : c < w) (h : wordAdd w a b = wordAdd w a c) :
    b = c := by
  have h := Nat.ModEq.add_left_cancel' a h
  rwa [Nat.ModEq, Nat.mod_eq_of_lt hb, Nat.mod_eq_of_lt hc] at h

/-- A counter of which the low digits are kept counts up. -/
theorem wordAdd_mod (w n : Nat) : wordAdd w (n % w) 1 = (n + 1) % w := Nat.mod_add_mod n w 1

/-- It counts down as well. -/
theorem wordSub_mod {n : Nat} (hw : 0 < w) (hn : 0 < n) : wordSub w (n % w) 1 = (n - 1) % w := by
  obtain ⟨k, rfl⟩ : ∃ k, n = k + 1 := ⟨n - 1, by omega⟩
  have hk := Nat.mod_lt k hw
  rw [Nat.add_sub_cancel, ← Nat.mod_add_mod k w 1, wordSub]
  by_cases h : k % w + 1 = w
  · rw [h, Nat.mod_self, if_neg (by omega)]
    omega
  · rw [Nat.mod_eq_of_lt (show k % w + 1 < w by omega), if_pos (by omega)]
    omega

/-- An unsigned number converted to a signed one of 32 bits. -/
def toInt (n : Nat) : Int := (n : Int).bmod (2 ^ 32)

/-! ## Residues in a window -/

/-- Two numbers of one window of `d` numbers with one residue are equal. -/
theorem window_eq {h d : Nat} (hab : a % d = b % d) (ha : h ≤ a) (ha' : a < h + d) (hb : h ≤ b)
    (hb' : b < h + d) : a = b := by
  obtain ⟨m, hm⟩ := Nat.exists_eq_add_of_le ha
  obtain ⟨n, hn⟩ := Nat.exists_eq_add_of_le hb
  have hmn : m ≡ n [MOD d] := Nat.ModEq.add_left_cancel' h (by rw [← hm, ← hn]; exact hab)
  have := hmn.eq_of_lt_of_lt (by omega) (by omega)
  omega

theorem window_ne {h d : Nat} (hab : a ≠ b) (ha : h ≤ a) (ha' : a < h + d) (hb : h ≤ b)
    (hb' : b < h + d) : a % d ≠ b % d :=
  fun he => hab (window_eq he ha ha' hb hb')

/-- Two numbers less than half a turn ahead of `o` differ by how far ahead of it they are. -/
theorem bmod_sub_of_halfTurn {x y o : Int} {d : Nat} (hd : 0 < d)
    (hx : 2 * ((x - o) % d) < d) (hy : 2 * ((y - o) % d) < d) :
    (x - y).bmod d = (x - o) % d - (y - o) % d := by
  have hd₀ : (d : Int) ≠ 0 := by omega
  have hx₀ := Int.emod_nonneg (x - o) hd₀
  have hy₀ := Int.emod_nonneg (y - o) hd₀
  have hxy : ((x - o) % d - (y - o) % d).bmod d = (x - y).bmod d := by
    rw [Int.emod_sub_bmod, Int.sub_emod_bmod]
    exact congrArg (fun z => Int.bmod z d) (by omega)
  rw [← hxy, Int.bmod_eq_of_le (by omega) (by omega)]

end HermesShm.Base
