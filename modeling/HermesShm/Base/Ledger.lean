import Mathlib.Algebra.BigOperators.Group.Finset.Basic
import Mathlib.Algebra.Order.Group.Multiset

/-! # Blocks that are taken and given back

A ledger of the blocks that are allocated. Objects own blocks; what they own
together with everybody else's blocks is what the ledger holds, so a call is told
by what it takes and gives while the rest is any frame. -/
namespace HermesShm.Base

/-- The blocks allocated, the calls so far, and the blocks given back that were
not allocated. -/
structure Ledger (β : Type*) where
  live : List β := []
  calls : Nat := 0
  misfreed : List β := []
  /-- All that were given back; nothing reads it. -/
  given : List β := []

namespace Ledger

variable {β : Type*} [DecidableEq β]

def take (l : Ledger β) (b : β) : Ledger β :=
  { l with live := b :: l.live, calls := l.calls + 1 }

def give (l : Ledger β) (b : β) : Ledger β :=
  if b ∈ l.live then
    { l with live := l.live.erase b, calls := l.calls + 1, given := b :: l.given }
  else { l with misfreed := b :: l.misfreed, calls := l.calls + 1, given := b :: l.given }

/-- Exactly the blocks of `m` are allocated, each once, and none was given back
that was not. -/
structure Holds (l : Ledger β) (m : Multiset β) : Prop where
  live : (l.live : Multiset β) = m
  nodup : l.live.Nodup
  misfreed : l.misfreed = []

variable {l : Ledger β} {m m' F : Multiset β} {b : β}

omit [DecidableEq β] in
theorem Holds.empty : Holds ({} : Ledger β) 0 := ⟨rfl, List.nodup_nil, rfl⟩

omit [DecidableEq β] in
theorem Holds.congr (h : l.Holds m) (he : m = m') : l.Holds m' := he ▸ h

omit [DecidableEq β] in
theorem Holds.mem_live (h : l.Holds m) : b ∈ l.live ↔ b ∈ m := by
  rw [← h.live, Multiset.mem_coe]

omit [DecidableEq β] in
/-- Nothing is allocated where nobody owns anything. -/
theorem Holds.live_eq_nil (h : l.Holds 0) : l.live = [] := (Multiset.coe_eq_zero _).mp h.live

omit [DecidableEq β] in
theorem Holds.take (h : l.Holds F) (hb : b ∉ l.live) : (l.take b).Holds ({b} + F) where
  live := by
    have hl := h.live
    simp only [Ledger.take, ← Multiset.cons_coe, hl]
    rfl
  nodup := List.nodup_cons.mpr ⟨hb, h.nodup⟩
  misfreed := h.misfreed

theorem Holds.give (h : l.Holds ({b} + F)) : (l.give b).Holds F := by
  have hb : b ∈ l.live := h.mem_live.mpr (Multiset.mem_cons_self b F)
  simp only [Ledger.give, hb, if_true]
  refine ⟨?_, h.nodup.erase b, h.misfreed⟩
  have hl := h.live
  rw [← Multiset.coe_erase, hl]
  exact Multiset.erase_cons_head b F

/-! ## What is given back -/

/-- Between the two ledgers `m` is given back. -/
def Gives (l : Ledger β) (m : Multiset β) (l' : Ledger β) : Prop :=
  (l'.given : Multiset β) = m + l.given

/-- The block is given back between the two ledgers. -/
def Freed (l l' : Ledger β) (b : β) : Prop := l.given.count b < l'.given.count b

variable {l' l'' : Ledger β}

omit [DecidableEq β] in
theorem Gives.refl (l : Ledger β) : l.Gives 0 l := (zero_add _).symm

omit [DecidableEq β] in
theorem Gives.trans (h : l.Gives m l') (h' : l'.Gives m' l'') : l.Gives (m + m') l'' := by
  rw [Gives, h', h, ← add_assoc, add_comm m']

omit [DecidableEq β] in
theorem Gives.congr (h : l.Gives m l') (he : m = m') : l.Gives m' l' := he ▸ h

omit [DecidableEq β] in
theorem gives_take (l : Ledger β) (b : β) : l.Gives 0 (l.take b) := Gives.refl l

theorem gives_give (l : Ledger β) (b : β) : l.Gives {b} (l.give b) := by
  unfold give
  split <;> exact (Multiset.cons_coe b l.given).symm.trans (Multiset.singleton_add b _).symm

theorem Gives.freed_iff (h : l.Gives m l') : Freed l l' b ↔ b ∈ m := by
  rw [Freed, ← Multiset.coe_count, ← Multiset.coe_count, h, Multiset.count_add,
    ← Multiset.count_pos]
  omega

end Ledger

end HermesShm.Base
