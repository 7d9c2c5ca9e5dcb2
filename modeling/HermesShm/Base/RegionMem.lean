import Mathlib.Data.List.Basic
import Mathlib.Logic.Function.Basic

/-! # Memory in regions

A pointer is a region and an offset in it; nothing is known about how regions lie to
each other. -/
namespace HermesShm.Base

abbrev RegionMem (ρ β : Type*) := ρ → Nat → β

namespace RegionMem

variable {ρ β : Type*} {m m' : RegionMem ρ β} {r r' : ρ} {off off' n k : Nat}

/-- The `n` cells at the offset. -/
def read (m : RegionMem ρ β) (r : ρ) (off n : Nat) : List β :=
  (List.range n).map fun k => m r (off + k)

theorem read_eq_iff :
    read m r off n = read m' r' off' n ↔ ∀ k, k < n → m r (off + k) = m' r' (off' + k) := by
  simp only [read, List.map_inj_left, List.mem_range]

theorem read_congr (h : ∀ k, k < n → m r (off + k) = m' r' (off' + k)) :
    read m r off n = read m' r' off' n := read_eq_iff.mpr h

theorem read_get {bs : List β} (h : read m r off n = bs) (hk : k < n) :
    bs[k]? = some (m r (off + k)) := by
  rw [← h, read, List.getElem?_map, List.getElem?_range hk]
  rfl

/-- The cells of a region are replaced by others. -/
def blit [DecidableEq ρ] (m : RegionMem ρ β) (r : ρ) (off n : Nat) (cells : Nat → β) :
    RegionMem ρ β :=
  Function.update m r fun k => if off ≤ k ∧ k < off + n then cells (k - off) else m r k

variable [DecidableEq ρ] {cells : Nat → β}

theorem blit_of_ne (h : r' ≠ r) : blit m r off n cells r' = m r' := Function.update_of_ne h _ _

theorem blit_apply : blit m r off n cells r k =
    if off ≤ k ∧ k < off + n then cells (k - off) else m r k := by
  rw [blit, Function.update_self]

theorem blit_at (hk : k < n) : blit m r off n cells r (off + k) = cells k := by
  rw [blit_apply, if_pos (by omega), Nat.add_sub_cancel_left]

end RegionMem

end HermesShm.Base
