import Mathlib.Algebra.GroupWithZero.Nat
import Mathlib.Data.List.Nodup
import Mathlib.Logic.Function.Basic
import Mathlib.Order.Interval.Finset.Nat
import Mathlib.Tactic.Common

/-! # Blocks carved from one range

Blocks are named by their address; `len` gives their length. Each block is at one
place of `ι` (in use, in some free list), and no two blocks overlap. -/
namespace HermesShm.Base

variable {ι : Type*}

/-- The blocks at all places, inside `[lo, hi)` and apart. -/
structure Arena (lo hi : Nat) (len : Nat → Nat) (at_ : ι → List Nat) : Prop where
  inside : ∀ i, ∀ p ∈ at_ i, lo ≤ p ∧ p + len p ≤ hi
  pos : ∀ i, ∀ p ∈ at_ i, 0 < len p
  nodup : ∀ i, (at_ i).Nodup
  apart : ∀ i j, ∀ p ∈ at_ i, ∀ q ∈ at_ j, i ≠ j ∨ p ≠ q → p + len p ≤ q ∨ q + len q ≤ p

/-- The places after `p` has moved from `i` to `j`. -/
def moved [DecidableEq ι] (at_ : ι → List Nat) (i j : ι) (p : Nat) : ι → List Nat :=
  Function.update (Function.update at_ i ((at_ i).erase p)) j (p :: at_ j)

namespace Arena

variable {lo hi : Nat} {len : Nat → Nat} {at_ at' : ι → List Nat} {i j : ι} {p q n : Nat}

theorem empty (lo hi : Nat) (len : Nat → Nat) : Arena lo hi len fun _ : ι => [] :=
  ⟨nofun, nofun, fun _ => List.nodup_nil, nofun⟩

/-- A block is at one place. -/
theorem place_eq (h : Arena lo hi len at_) (hp : p ∈ at_ i) (hq : p ∈ at_ j) : i = j := by
  by_contra hij
  have := h.pos i p hp
  have := h.apart i j p hp p hq (.inl hij)
  omega

theorem ne_of_place_ne (h : Arena lo hi len at_) (hp : p ∈ at_ i) (hq : q ∈ at_ j) (hij : i ≠ j) :
    p ≠ q := by
  rintro rfl
  exact hij (h.place_eq hp hq)

theorem apart_of_ne (h : Arena lo hi len at_) (hp : p ∈ at_ i) (hq : q ∈ at_ j) (hpq : p ≠ q) :
    p + len p ≤ q ∨ q + len q ≤ p :=
  h.apart i j p hp q hq (.inr hpq)

/-- A block moves from place `i` to place `j`. -/
theorem move (h : Arena lo hi len at_) (hp : p ∈ at_ i)
    (hmem : ∀ k, ∀ q ∈ at' k, (k = j ∧ q = p) ∨ (q ∈ at_ k ∧ q ≠ p))
    (hnd : ∀ k, (at' k).Nodup) : Arena lo hi len at' where
  inside := fun k q hq => by
    rcases hmem k q hq with ⟨-, rfl⟩ | ⟨hq, -⟩
    · exact h.inside i q hp
    · exact h.inside k q hq
  pos := fun k q hq => by
    rcases hmem k q hq with ⟨-, rfl⟩ | ⟨hq, -⟩
    · exact h.pos i q hp
    · exact h.pos k q hq
  nodup := hnd
  apart := fun k l q hq r hr hne => by
    rcases hmem k q hq with ⟨hk, rfl⟩ | ⟨hq, hqp⟩ <;> rcases hmem l r hr with ⟨hl, rfl⟩ | ⟨hr, hrp⟩
    · rcases hne with hne | hne
      · exact absurd (hk.trans hl.symm) hne
      · exact absurd rfl hne
    · exact h.apart i l q hp r hr (.inr hrp.symm)
    · exact h.apart k i q hq r hp (.inr hqp)
    · exact h.apart k l q hq r hr hne

theorem mem_moved [DecidableEq ι] (h : Arena lo hi len at_) (hp : p ∈ at_ i) (hij : i ≠ j) {k : ι} :
    q ∈ moved at_ i j p k ↔ (k = j ∧ q = p) ∨ (q ∈ at_ k ∧ q ≠ p) := by
  unfold moved
  by_cases hkj : k = j
  · subst hkj
    rw [Function.update_self, List.mem_cons]
    constructor
    · rintro (rfl | hq)
      · exact .inl ⟨rfl, rfl⟩
      · exact .inr ⟨hq, fun he => hij (h.place_eq hp (he ▸ hq))⟩
    · rintro (⟨-, rfl⟩ | ⟨hq, -⟩)
      · exact .inl rfl
      · exact .inr hq
  · rw [Function.update_of_ne hkj]
    by_cases hki : k = i
    · subst hki
      rw [Function.update_self, (h.nodup k).mem_erase_iff]
      exact ⟨fun hq => .inr ⟨hq.2, hq.1⟩, fun hq => (hq.resolve_left fun h => hkj h.1).symm⟩
    · rw [Function.update_of_ne hki]
      exact ⟨fun hq => .inr ⟨hq, h.ne_of_place_ne hq hp hki⟩,
        fun hq => (hq.resolve_left fun h => hkj h.1).1⟩

theorem moved [DecidableEq ι] (h : Arena lo hi len at_) (hp : p ∈ at_ i) (hij : i ≠ j) :
    Arena lo hi len (moved at_ i j p) := by
  refine h.move hp (fun k q hq => (h.mem_moved hp hij).mp hq) fun k => ?_
  unfold Base.moved
  by_cases hkj : k = j
  · subst hkj
    rw [Function.update_self]
    exact List.nodup_cons.mpr ⟨fun hq => hij (h.place_eq hp hq), h.nodup k⟩
  · rw [Function.update_of_ne hkj]
    by_cases hki : k = i
    · subst hki
      rw [Function.update_self]
      exact (h.nodup k).erase p
    · rw [Function.update_of_ne hki]
      exact h.nodup k

/-- A new block of length `n` at the end of the range comes to place `i`. -/
theorem carve (h : Arena lo hi len at_) (hlo : lo ≤ hi) (hp : hi ≤ p) (hn : 0 < n)
    (hmem : ∀ k, ∀ q ∈ at' k, (k = i ∧ q = p) ∨ q ∈ at_ k) (hnd : ∀ k, (at' k).Nodup) :
    Arena lo (p + n) (Function.update len p n) at' := by
  have hold : ∀ k, ∀ q ∈ at_ k, Function.update len p n q = len q ∧ q + len q ≤ p := by
    intro k q hq
    have hin := h.inside k q hq
    have := h.pos k q hq
    exact ⟨Function.update_of_ne (by omega) .., by omega⟩
  refine ⟨fun k q hq => ?_, fun k q hq => ?_, hnd, fun k l q hq r hr hne => ?_⟩
  · rcases hmem k q hq with ⟨-, rfl⟩ | hq
    · rw [Function.update_self]
      omega
    · have hin := h.inside k q hq
      have hq := hold k q hq
      rw [hq.1]
      omega
  · rcases hmem k q hq with ⟨-, rfl⟩ | hq
    · rw [Function.update_self]
      exact hn
    · rw [(hold k q hq).1]
      exact h.pos k q hq
  · rcases hmem k q hq with ⟨hk, rfl⟩ | hq <;> rcases hmem l r hr with ⟨hl, rfl⟩ | hr
    · rcases hne with hne | hne
      · exact absurd (hk.trans hl.symm) hne
      · exact absurd rfl hne
    · have hr := hold l r hr
      rw [hr.1]
      exact .inr hr.2
    · have hq := hold k q hq
      rw [hq.1]
      exact .inl hq.2
    · rw [(hold k q hq).1, (hold l r hr).1]
      exact h.apart k l q hq r hr hne

end Arena
/-! ## The length of what is covered -/

section Cover

variable {α : Type*} {off len : α → Nat} {lo hi : Nat}

/-- What intervals that are apart cover. -/
theorem exists_cover {l : List α}
    (hap : l.Pairwise fun a b => off a + len a ≤ off b ∨ off b + len b ≤ off a) :
    ∃ F : Finset Nat, (∀ x ∈ F, ∃ a ∈ l, off a ≤ x ∧ x < off a + len a) ∧
      F.card = (l.map len).sum := by
  induction l with
  | nil => exact ⟨∅, nofun, rfl⟩
  | cons a l ih =>
    obtain ⟨ha, hl⟩ := List.pairwise_cons.mp hap
    obtain ⟨F, hF, hcard⟩ := ih hl
    have hdisj : Disjoint (Finset.Ico (off a) (off a + len a)) F := by
      refine Finset.disjoint_left.mpr fun x hx hxF => ?_
      obtain ⟨b, hb, hbx, hbx'⟩ := hF x hxF
      obtain ⟨hax, hax'⟩ := Finset.mem_Ico.mp hx
      have := ha b hb
      omega
    refine ⟨Finset.Ico (off a) (off a + len a) ∪ F, fun x hx => ?_, ?_⟩
    · rcases Finset.mem_union.mp hx with hx | hx
      · exact ⟨a, List.mem_cons_self, Finset.mem_Ico.mp hx⟩
      · obtain ⟨b, hb, hbx⟩ := hF x hx
        exact ⟨b, List.mem_cons_of_mem _ hb, hbx⟩
    · rw [Finset.card_union_of_disjoint hdisj, Nat.card_Ico, hcard, Nat.add_sub_cancel_left,
        List.map_cons, List.sum_cons]

/-- Intervals that are apart are together not longer than what they are in. -/
theorem sum_len_le {l : List α} (hin : ∀ a ∈ l, lo ≤ off a ∧ off a + len a ≤ hi)
    (hap : l.Pairwise fun a b => off a + len a ≤ off b ∨ off b + len b ≤ off a) :
    (l.map len).sum ≤ hi - lo := by
  obtain ⟨F, hF, hcard⟩ := exists_cover hap
  rw [← hcard, ← Nat.card_Ico]
  refine Finset.card_le_card fun x hx => ?_
  obtain ⟨a, ha, hax, hax'⟩ := hF x hx
  have := hin a ha
  exact Finset.mem_Ico.mpr (by omega)

end Cover

end HermesShm.Base
