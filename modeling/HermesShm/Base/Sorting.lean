import Mathlib.Order.Defs.Unbundled
import Mathlib.Logic.Equiv.Basic

/-! # Ranges that are sorted in place

A range holds values at the positions from `lo` up to `hi`. What a sorting algorithm does
to it is told by a permutation of the positions and by the order of the values. -/
namespace HermesShm.Base

variable {α : Type*} {r : α → α → Prop} {m m' m'' : ℕ → α} {lo hi lo' hi' p q : ℕ}

/-! ## Strict weak orders -/

section
variable [IsStrictWeakOrder α r] {a b c : α}

theorem not_rel_symm (h : r a b) : ¬ r b a := fun h' => irrefl_of r a (trans_of r h h')

theorem not_rel_trans (hab : ¬ r a b) (hbc : ¬ r b c) : ¬ r a c := by
  intro hac
  by_cases hba : r b a
  · exact hbc (trans_of r hba hac)
  by_cases hcb : r c b
  · exact hab (trans_of r hac hcb)
  exact (IsStrictWeakOrder.incomp_trans a b c ⟨hab, hba⟩ ⟨hbc, hcb⟩).1 hac

theorem not_rel_of_rel_of_not (hab : r a b) (hcb : ¬ r c b) : ¬ r c a := fun hca =>
  hcb (trans_of r hca hab)

end

/-! ## Rearranging -/

/-- The values of the range are rearranged, and nothing else changes. -/
def Rearranged (lo hi : ℕ) (m m' : ℕ → α) : Prop :=
  ∃ e : Equiv.Perm ℕ, (∀ x, x < lo ∨ hi ≤ x → e x = x) ∧ ∀ x, m' x = m (e x)

namespace Rearranged

theorem refl (lo hi : ℕ) (m : ℕ → α) : Rearranged lo hi m m :=
  ⟨Equiv.refl ℕ, fun _ _ => rfl, fun _ => rfl⟩

theorem trans (h : Rearranged lo hi m m') (h' : Rearranged lo hi m' m'') :
    Rearranged lo hi m m'' := by
  obtain ⟨e, he, hm⟩ := h
  obtain ⟨e', he', hm'⟩ := h'
  refine ⟨e'.trans e, fun x hx => ?_, fun x => ?_⟩
  · rw [Equiv.trans_apply, he' x hx, he x hx]
  · rw [hm', hm, Equiv.trans_apply]

theorem mono (h : Rearranged lo hi m m') (hlo : lo' ≤ lo) (hhi : hi ≤ hi') :
    Rearranged lo' hi' m m' := by
  obtain ⟨e, he, hm⟩ := h
  exact ⟨e, fun x hx => he x (by omega), hm⟩

theorem outside (h : Rearranged lo hi m m') {x : ℕ} (hx : x < lo ∨ hi ≤ x) : m' x = m x := by
  obtain ⟨e, he, hm⟩ := h
  rw [hm, he x hx]

/-- The positions of the range stay in it. -/
theorem exists_perm (h : Rearranged lo hi m m') :
    ∃ e : Equiv.Perm ℕ, (∀ x, lo ≤ x → x < hi → lo ≤ e x ∧ e x < hi) ∧ ∀ x, m' x = m (e x) := by
  obtain ⟨e, he, hm⟩ := h
  refine ⟨e, fun x hlo hhi => ⟨?_, ?_⟩, hm⟩
  · by_contra hlt
    have := e.injective (he (e x) (.inl (by omega)))
    omega
  · by_contra hle
    have := e.injective (he (e x) (.inr (by omega)))
    omega

/-- A value of the range was one before. -/
theorem exists_eq (h : Rearranged lo hi m m') {x : ℕ} (hlo : lo ≤ x) (hhi : x < hi) :
    ∃ y, lo ≤ y ∧ y < hi ∧ m' x = m y := by
  obtain ⟨e, he, hm⟩ := h.exists_perm
  exact ⟨e x, (he x hlo hhi).1, (he x hlo hhi).2, hm x⟩

theorem forall_range (h : Rearranged lo hi m m') {P : α → Prop}
    (hP : ∀ x, lo ≤ x → x < hi → P (m x)) : ∀ x, lo ≤ x → x < hi → P (m' x) := by
  intro x hlo hhi
  obtain ⟨y, hy, hy', he⟩ := h.exists_eq hlo hhi
  rw [he]
  exact hP y hy hy'

theorem symm (h : Rearranged lo hi m m') : Rearranged lo hi m' m := by
  obtain ⟨e, he, hm⟩ := h
  refine ⟨e.symm, fun x hx => ?_, fun x => ?_⟩
  · rw [Equiv.symm_apply_eq, he x hx]
  · rw [hm, Equiv.apply_symm_apply]

end Rearranged

/-- Two values change places. -/
def swapped (m : ℕ → α) (p q : ℕ) : ℕ → α := Function.update (Function.update m p (m q)) q (m p)

@[simp] theorem swapped_left (m : ℕ → α) (p q : ℕ) : swapped m p q p = m q := by
  by_cases h : p = q
  · rw [h, swapped, Function.update_self]
  · rw [swapped, Function.update_of_ne h, Function.update_self]

@[simp] theorem swapped_right (m : ℕ → α) (p q : ℕ) : swapped m p q q = m p :=
  Function.update_self ..

theorem swapped_of_ne {x : ℕ} (hp : x ≠ p) (hq : x ≠ q) : swapped m p q x = m x := by
  rw [swapped, Function.update_of_ne hq, Function.update_of_ne hp]

theorem rearranged_swapped (m : ℕ → α) (hp : lo ≤ p) (hp' : p < hi) (hq : lo ≤ q)
    (hq' : q < hi) : Rearranged lo hi m (swapped m p q) := by
  refine ⟨Equiv.swap p q, fun x hx => Equiv.swap_apply_of_ne_of_ne (by omega) (by omega),
    fun x => ?_⟩
  by_cases hxp : x = p
  · rw [hxp, swapped_left, Equiv.swap_apply_left]
  by_cases hxq : x = q
  · rw [hxq, swapped_right, Equiv.swap_apply_right]
  rw [swapped_of_ne hxp hxq, Equiv.swap_apply_of_ne_of_ne hxp hxq]

/-! ## Order -/

/-- No later value comes before an earlier one. -/
def SortedOn (r : α → α → Prop) (m : ℕ → α) (lo hi : ℕ) : Prop :=
  ∀ i j, lo ≤ i → i < j → j < hi → ¬ r (m j) (m i)

theorem SortedOn.congr (h : SortedOn r m lo hi) (hm : ∀ x, lo ≤ x → x < hi → m' x = m x) :
    SortedOn r m' lo hi := by
  intro i j hi hij hj
  rw [hm i hi (by omega), hm j (by omega) hj]
  exact h i j hi hij hj

theorem sortedOn_of_le (h : hi ≤ lo + 1) : SortedOn r m lo hi := fun i j _ _ _ => by omega

/-- Two sorted parts with a value between them that parts them. -/
theorem SortedOn.join [IsStrictWeakOrder α r] (hl : SortedOn r m lo p)
    (hr : SortedOn r m (p + 1) hi) (hless : ∀ x, lo ≤ x → x < p → r (m x) (m p))
    (hmore : ∀ x, p < x → x < hi → ¬ r (m x) (m p)) : SortedOn r m lo hi := by
  intro i j hlo hij hhi
  by_cases hjp : j < p
  · exact hl i j hlo hij hjp
  by_cases hip : p < i
  · exact hr i j hip hij hhi
  -- the two are on different sides of the value between
  have hip' : i = p ∨ r (m i) (m p) := by
    by_cases he : i = p
    · exact .inl he
    · exact .inr (hless i hlo (by omega))
  have hjp' : j = p ∨ ¬ r (m j) (m p) := by
    by_cases he : j = p
    · exact .inl he
    · exact .inr (hmore j (by omega) hhi)
  rcases hip' with rfl | hip' <;> rcases hjp' with rfl | hjp'
  · omega
  · exact hjp'
  · exact not_rel_symm hip'
  · exact not_rel_of_rel_of_not hip' hjp'

/-- Neighbours in order are enough. -/
theorem sortedOn_iff_neighbours [IsStrictWeakOrder α r] :
    SortedOn r m lo hi ↔ ∀ i, lo ≤ i → i + 1 < hi → ¬ r (m (i + 1)) (m i) := by
  refine ⟨fun h i hlo hhi => h i (i + 1) hlo (by omega) hhi, fun h i j hlo hij hhi => ?_⟩
  obtain ⟨k, rfl⟩ := Nat.exists_eq_add_of_lt hij
  induction k with
  | zero => exact h i hlo hhi
  | succ k ih => exact not_rel_trans (h (i + k + 1) (by omega) hhi) (ih (by omega) (by omega))

end HermesShm.Base
