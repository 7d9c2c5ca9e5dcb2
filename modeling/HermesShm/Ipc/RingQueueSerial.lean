import HermesShm.Ipc.RingQueueGrowth

/-! # The ring queue, one call at a time

`emplace` of the queues that do not wait for space and do not grow, for a queue
that is used by one thread, or by several under a lock. -/
namespace HermesShm.Ipc.RingQueue
open HermesShm.Base

variable {α : Type*}

def fixedSpscFlags : RingQueueFlag := RqFlag.kErrorOnNoSpace
def circularSpscFlags : RingQueueFlag := 0
def circularMpmcFlags : RingQueueFlag := RqFlag.kPushAtomic ||| RqFlag.kPopAtomic

/-- `qtok_t(id)`, `none` where `IsNull` tells it null. -/
def qtok (id : Nat) : Option Nat := if id = sizeMod - 1 then none else some id

theorem qtok_of_lt {id : Nat} (h : id + 1 < sizeMod) : qtok id = some id :=
  if_neg (by omega)

namespace Ring

/-- `emplace(v)` without `kWaitForSpace` and `kDynamicResize`. -/
def emplaceSerial (flags : RingQueueFlag) (r : Ring α) (v : α) : Option Nat × Ring α :=
  let head := r.head_
  let tail := r.tail_
  let r := { r with tail_ := wordAdd sizeMod tail 1 }
  if errorOnNoSpace flags && r.depth < spaceFor tail head then
    (none, { r with tail_ := wordSub sizeMod r.tail_ 1 })
  else
    let idx := r.emplaceIdx tail
    (qtok tail, (r.replace idx (some v)).setBits idx 1)

/-- The condition on an emplace: the token counter does not wrap and the slot
index fits its 32 bits. -/
def Fits (r : Ring α) : Prop := r.tail_ + 1 < sizeMod ∧ r.tail_ % r.depth < idxMod

instance (r : Ring α) : Decidable r.Fits := inferInstanceAs (Decidable (_ ∧ _))

variable {r : Ring α} {flags : RingQueueFlag} {v : α}

/-- An emplace that is not turned down. -/
theorem emplaceSerial_accept (hf : r.Fits)
    (hroom : errorOnNoSpace flags = true → spaceFor r.tail_ r.head_ ≤ r.depth) :
    r.emplaceSerial flags v = (some r.tail_,
      (({ r with tail_ := r.tail_ + 1 } : Ring α).replace (r.tail_ % r.depth) (some v)).setBits
        (r.tail_ % r.depth) 1) := by
  obtain ⟨hw, hidx⟩ := hf
  have hnot : ¬ (errorOnNoSpace flags && decide (r.depth < spaceFor r.tail_ r.head_)) = true := by
    intro h
    obtain ⟨he, hlt⟩ := Bool.and_eq_true_iff.mp h
    exact absurd (hroom he) (Nat.not_le.mpr (of_decide_eq_true hlt))
  simp only [emplaceSerial, if_neg hnot, wordAdd_of_lt hw, qtok_of_lt hw, emplaceIdx,
    Nat.mod_eq_of_lt hidx]

/-- An emplace that is turned down leaves the ring as it was. -/
theorem emplaceSerial_reject (hw : r.tail_ < sizeMod) (he : errorOnNoSpace flags = true)
    (hfull : r.depth < spaceFor r.tail_ r.head_) : r.emplaceSerial flags v = (none, r) := by
  simp only [emplaceSerial, he, decide_eq_true hfull, Bool.and_self, if_true,
    wordSub_wordAdd hw (Nat.zero_lt_of_lt hw)]

namespace Holds

variable {xs : List α}

theorem length_lt (h : r.Holds xs) (hf : r.Fits) : xs.length + 1 < sizeMod := by
  have := h.tail
  have := hf.1
  omega

theorem emplaceSerial (flags : RingQueueFlag) (v : α) (h : r.Holds xs)
    (hroom : xs.length < r.depth) (hf : r.Fits) :
    ∃ r', r.emplaceSerial flags v = (some r.tail_, r') ∧ r'.Holds (xs ++ [v]) ∧
      r'.depth = r.depth :=
  ⟨_, emplaceSerial_accept hf fun _ => by rw [h.spaceFor (h.length_lt hf)]; exact hroom,
    h.stored hroom hf.1, rfl⟩

theorem emplaceSerial_full (h : r.Holds xs) (hfull : r.depth ≤ xs.length)
    (hlen : xs.length + 1 < sizeMod) (he : errorOnNoSpace flags = true) :
    r.emplaceSerial flags v = (none, r) :=
  emplaceSerial_reject h.tail_lt he (by rw [h.spaceFor hlen]; omega)

end Holds

/-! ## A ring of more than 2^32 slots -/

/-- `k` values have gone to a ring of 2^32 + 1 slots; no index of 32 bits tells
the last one. -/
structure Long (r : Ring α) (k : Nat) : Prop where
  depth : r.depth = idxMod + 1
  head : r.head_ = 0
  tail : r.tail_ = k
  last : r.queue_ idxMod = {}

theorem Long.emplaceSerial {k : Nat} (h : r.Long k) (hk : k < idxMod + 1) (v : α) :
    ∃ r', r.emplaceSerial fixedSpscFlags v = (some k, r') ∧ r'.Long (k + 1) := by
  have hw : k + 1 < sizeMod := Nat.lt_of_le_of_lt hk (by decide)
  have hroom : ¬ (errorOnNoSpace fixedSpscFlags &&
      decide (r.depth < spaceFor k r.head_)) = true := by
    rw [h.depth, h.head, spaceFor, wordSub_of_le (Nat.zero_le _), wordAdd_of_lt (by omega)]
    simp only [Bool.and_eq_true, decide_eq_true_eq]
    omega
  refine ⟨(({ r with tail_ := k + 1 } : Ring α).replace (k % r.depth % idxMod) (some v)).setBits
    (k % r.depth % idxMod) 1, ?_, h.depth, h.head, rfl, ?_⟩
  · simp only [Ring.emplaceSerial, h.tail, if_neg hroom, wordAdd_of_lt hw, qtok_of_lt hw,
      emplaceIdx]
  · have hne : idxMod ≠ k % r.depth % idxMod := Nat.ne_of_gt (Nat.mod_lt _ (by decide))
    simp only [Ring.setBits, Ring.replace, Ring.write, Function.update_of_ne hne]
    exact h.last

end Ring

end HermesShm.Ipc.RingQueue
