import HermesShm.Base.ByteMem
import Mathlib.Data.List.Basic

/-! # Arrays of cells in a memory of bytes

A cell is a value of `w` bytes; an array keeps its cells one after the other. -/
namespace HermesShm.Base

abbrev Cell (w : Nat) := Fin w → UInt8

namespace ByteMem

variable {w : Nat} {m m' : ByteMem} {x y i k n : Nat} {c : Cell w} {cs : List (Cell w)}

def readCell (m : ByteMem) (w x : Nat) : Cell w := fun k => m (x + k)

def putCell (m : ByteMem) (x : Nat) (c : Cell w) : ByteMem := fun y =>
  if h : x ≤ y ∧ y - x < w then c ⟨y - x, h.2⟩ else m y

/-- `make i`, and `n` cells in all, from the `i`-th place of the array at `x` on. -/
def fill (m : ByteMem) (x : Nat) (make : Nat → Cell w) (i : Nat) : Nat → ByteMem
  | 0 => m
  | n + 1 => fill (m.putCell (x + i * w) (make i)) x make (i + 1) n

/-- The array at `x` has the cells `cs`. -/
def Cells (m : ByteMem) (x : Nat) (cs : List (Cell w)) : Prop :=
  ∀ i c, cs[i]? = some c → m.readCell w (x + i * w) = c

theorem putCell_sameOff (m : ByteMem) (x : Nat) (c : Cell w) : SameOff m (m.putCell x c) x w :=
  fun y hy => dif_neg fun h => by omega

theorem readCell_putCell (m : ByteMem) (x : Nat) (c : Cell w) :
    (m.putCell x c).readCell w x = c := by
  funext k
  have hk := k.isLt
  rw [readCell, putCell, dif_pos ⟨Nat.le_add_right .., by omega⟩]
  exact congrArg c (Fin.ext (Nat.add_sub_cancel_left ..))

theorem readCell_congr (h : SameOn m m' x w) : m'.readCell w x = m.readCell w x :=
  funext fun k => h (x + k) (Nat.le_add_right ..) (Nat.add_lt_add_left k.isLt x)

/-- The places of an array do not overlap. -/
theorem place_apart (x : Nat) (hik : i < k) : x + i * w + w ≤ x + k * w := by
  have hle : (i + 1) * w ≤ k * w := Nat.mul_le_mul_right w hik
  rw [Nat.succ_mul] at hle
  omega

theorem place_inside (x : Nat) (hi : i < n) : x + i * w + w ≤ x + n * w := place_apart x hi

namespace Cells

theorem nil (m : ByteMem) (x : Nat) : Cells m x ([] : List (Cell w)) := fun _ _ h => nomatch h

theorem congr (h : Cells m x cs) (hm : SameOn m m' x (cs.length * w)) : Cells m' x cs := by
  intro i c hi
  obtain ⟨hlt, -⟩ := List.getElem?_eq_some_iff.mp hi
  rw [← h i c hi]
  refine readCell_congr fun y hy hy' => hm y (by omega) ?_
  have := place_inside (w := w) x hlt
  omega

/-- The bytes of an array at another place. -/
theorem moved (h : Cells m x cs) (hm : ∀ k < cs.length * w, m' (y + k) = m (x + k)) :
    Cells m' y cs := by
  intro i c hi
  obtain ⟨hlt, -⟩ := List.getElem?_eq_some_iff.mp hi
  rw [← h i c hi]
  funext k
  have hk := k.isLt
  have := place_inside (w := w) 0 hlt
  have hbyte := hm (i * w + k) (by omega)
  rw [← Nat.add_assoc, ← Nat.add_assoc] at hbyte
  exact hbyte

theorem take (h : Cells m x cs) (n : Nat) : Cells m x (cs.take n) := by
  intro i c hi
  rw [List.getElem?_take] at hi
  split at hi
  · exact h i c hi
  · cases hi

theorem set (h : Cells m x cs) (i : Nat) (c : Cell w) :
    Cells (m.putCell (x + i * w) c) x (cs.set i c) := by
  intro k d hk
  rw [List.getElem?_set] at hk
  split at hk
  · rename_i hik
    subst hik
    split at hk
    · cases hk
      exact readCell_putCell ..
    · cases hk
  · rename_i hik
    rw [← h k d hk]
    refine readCell_congr ((putCell_sameOff m _ c).sameOn ?_)
    rcases Nat.lt_or_gt_of_ne hik with hlt | hlt
    · exact .inl (place_apart x hlt)
    · exact .inr (place_apart x hlt)

theorem snoc (h : Cells m x cs) (c : Cell w) :
    Cells (m.putCell (x + cs.length * w) c) x (cs ++ [c]) := by
  intro k d hk
  rcases Nat.lt_trichotomy k cs.length with hlt | heq | hgt
  · rw [List.getElem?_append_left hlt] at hk
    rw [← h k d hk]
    exact readCell_congr ((putCell_sameOff m _ c).sameOn (.inr (place_apart x hlt)))
  · subst heq
    rw [List.getElem?_concat_length] at hk
    cases hk
    exact readCell_putCell ..
  · rw [List.getElem?_eq_none (by simp; omega)] at hk
    cases hk

theorem fill {make : Nat → Cell w} (h : Cells m x cs) (n : Nat) :
    Cells (m.fill x make cs.length n) x (cs ++ (List.range' cs.length n).map make) := by
  induction n generalizing m cs with
  | zero => simpa [ByteMem.fill] using h
  | succ n ih =>
    have hnext := ih (h.snoc (make cs.length))
    rw [List.length_append, List.length_singleton] at hnext
    simpa [ByteMem.fill, List.range'_succ] using hnext

end Cells

theorem fill_sameOff (m : ByteMem) (x : Nat) (make : Nat → Cell w) (i n : Nat) :
    SameOff m (m.fill x make i n) (x + i * w) (n * w) := by
  induction n generalizing m i with
  | zero => exact fun y _ => rfl
  | succ n ih =>
    have hstep : x + (i + 1) * w = x + i * w + w := by rw [Nat.succ_mul, Nat.add_assoc]
    have hrest := ih (m.putCell (x + i * w) (make i)) (i + 1)
    rw [hstep] at hrest
    rw [Nat.succ_mul]
    exact ((putCell_sameOff m _ _).mono (Nat.le_refl _) (by omega)).trans
      (hrest.mono (by omega) (by omega))

end ByteMem
end HermesShm.Base
