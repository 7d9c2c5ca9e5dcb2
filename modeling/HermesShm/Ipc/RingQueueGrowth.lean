import HermesShm.Ipc.RingQueue
import Mathlib.Tactic.Common

/-! # The growing ring queue

One thread runs `emplace` and `pop` of a queue with `kDynamicResize`. `emplace`
takes its token first and grows the ring after it; `resize` drains the ring into
a new one, whose counters start again at zero, and `emplace` then stores at the
slot of the token it took before. -/
namespace HermesShm.Ipc.RingQueue
open HermesShm.Base

variable {α : Type*}

namespace Ring

/-- `pop(val)`: the token, `none` for the null token, and `val`. -/
def pop (r : Ring α) : Option (Nat × Option α) × Ring α :=
  let head := r.head_
  if r.tail_ ≤ head then (none, r)
  else
    let idx := r.popIdx head
    if r.any idx 1 then
      let (val, r) := r.moveOut idx
      let r := r.clear idx
      (some (head, val), { r with head_ := wordAdd sizeMod r.head_ 1 })
    else (none, r)

/-- The loop of `resize`: pop from `r`, push to `new_queue`. -/
def drain (push : Ring α → Option α → Option (Ring α)) : Nat → Ring α → Ring α → Option (Ring α)
  | 0, _, _ => none
  | fuel + 1, r, new_queue =>
    match r.pop with
    | (none, _) => some new_queue
    | (some (_, val), r) => (push new_queue val).bind fun new_queue => drain push fuel r new_queue

/-- `emplace` of a queue that grows; `fuel` bounds the loop of `resize` and the
depth of the pushes into its new queue. -/
def emplace : Nat → Ring α → Option α → Option (Nat × Ring α)
  | 0, _, _ => none
  | fuel + 1, r, v =>
    let head := r.head_
    let tail := r.tail_
    let r := { r with tail_ := wordAdd sizeMod tail 1 }
    let resized :=
      if r.depth < spaceFor tail head then
        drain (fun q v => (emplace fuel q v).map Prod.snd) fuel r { depth := r.depth * 2 }
      else some r
    resized.map fun r =>
      let idx := r.emplaceIdx tail
      (tail, (r.replace idx v).setBits idx 1)

/-- `GetSize` -/
def size (r : Ring α) : Nat := if r.tail_ < r.head_ then 0 else r.tail_ - r.head_

end Ring

/-- A queue and what was pushed to it and popped from it so far. -/
structure Growing (α : Type*) where
  ring : Ring α
  pushed : List α := []
  popped : List (Option α) := []

inductive GrowingOp (α : Type*)
  | emplace (v : α)
  | pop

namespace Growing

def init (α : Type*) (depth : Nat) : Growing α := { ring := { depth } }

/-- More than `resize` needs: it pops fewer values than tokens were taken. -/
def fuel (r : Ring α) : Nat := r.tail_ + 3

def step (s : Growing α) : GrowingOp α → Option (Growing α)
  | .emplace v => (s.ring.emplace (fuel s.ring) (some v)).map fun (_, ring) =>
    { s with ring, pushed := s.pushed ++ [v] }
  | .pop =>
    match s.ring.pop with
    | (none, ring) => some { s with ring }
    | (some (_, val), ring) => some { s with ring, popped := s.popped ++ [val] }

/-- The condition on an emplace: the ring is not full, the slot index fits its
32 bits and the token counter does not wrap. -/
def RoomLeft (s : Growing α) : GrowingOp α → Prop
  | .emplace _ => s.ring.size < s.ring.depth ∧ s.ring.tail_ % s.ring.depth < idxMod ∧
    s.ring.tail_ + 1 < sizeMod
  | .pop => True

instance (s : Growing α) : ∀ op, Decidable (RoomLeft s op)
  | .emplace _ => inferInstanceAs (Decidable (_ ∧ _ ∧ _))
  | .pop => isTrue trivial

/-- The queue a growing ring is meant to be: what was popped is what was pushed,
in order, the next pop returns the next value, and the size is what is left. -/
structure Fifo (s : Growing α) : Prop where
  popped : s.popped = (s.pushed.take s.popped.length).map some
  next : s.ring.pop.1.map Prod.snd = s.pushed[s.popped.length]?.map some
  size : s.popped.length ≤ s.pushed.length ∧ s.ring.size = s.pushed.length - s.popped.length

end Growing

/-! ## A ring that holds a list of values -/

structure Ring.Holds (r : Ring α) (xs : List α) : Prop where
  depth_pos : 0 < r.depth
  tail : r.tail_ = r.head_ + xs.length
  tail_lt : r.tail_ < sizeMod
  room : xs.length ≤ r.depth
  slot : ∀ i v, xs[i]? = some v → r.queue_ ((r.head_ + i) % r.depth) = ⟨1, some v⟩

namespace Ring.Holds

variable {r : Ring α} {x : α} {xs : List α}

theorem init {depth : Nat} (h : 0 < depth) : Holds ({ depth } : Ring α) [] :=
  ⟨h, rfl, by simp [sizeMod], Nat.zero_le _, nofun⟩

theorem size (h : r.Holds xs) : r.size = xs.length := by
  have := h.tail
  rw [Ring.size, if_neg (by omega)]
  omega

theorem pop_nil (h : r.Holds []) : r.pop = (none, r) := by
  have := h.tail
  rw [Ring.pop]
  exact if_pos (by simp only [List.length_nil] at this; omega)

theorem pop_eq (h : r.Holds (x :: xs)) : r.pop = (some (r.head_, some x),
    { r.write (r.head_ % r.depth) {} with head_ := r.head_ + 1 }) := by
  have htail := h.tail
  have hlt := h.tail_lt
  simp only [List.length_cons] at htail
  have hslot : r.queue_ (r.head_ % r.depth) = ⟨1, some x⟩ := h.slot 0 x rfl
  have hany : r.any (r.head_ % r.depth) 1 = true := by simp [Ring.any, hslot]
  simp only [Ring.pop, if_neg (show ¬ r.tail_ ≤ r.head_ by omega), Ring.popIdx, hany, if_true,
    Ring.moveOut, Ring.clear, Ring.write, hslot, Function.update_idem, Function.update_self,
    wordAdd_of_lt (show r.head_ + 1 < sizeMod by omega)]

/-- The slot of the first value is given up. -/
theorem behead (h : r.Holds (x :: xs)) (e : Slot α) :
    Holds { r.write (r.head_ % r.depth) e with head_ := r.head_ + 1 } xs := by
  have htail := h.tail
  have hroom := h.room
  simp only [List.length_cons] at htail hroom
  refine ⟨h.depth_pos, ?_, h.tail_lt, Nat.le_of_succ_le hroom, fun i v hv => ?_⟩
  · show r.tail_ = r.head_ + 1 + xs.length
    omega
  · -- it is not the slot of a later value
    have hi := (List.getElem?_eq_some_iff.mp hv).1
    have hne : (r.head_ + 1 + i) % r.depth ≠ r.head_ % r.depth :=
      window_ne (h := r.head_) (by omega) (by omega) (by omega) (by omega) (by omega)
    simp only [Ring.write, Function.update_of_ne hne]
    rw [Nat.add_assoc, Nat.add_comm 1 i]
    exact h.slot (i + 1) v hv

theorem pop_cons (h : r.Holds (x :: xs)) :
    ∃ r', r.pop = (some (r.head_, some x), r') ∧ r'.Holds xs ∧ r'.depth = r.depth :=
  ⟨_, h.pop_eq, h.behead {}, rfl⟩

/-- Storing a value under the next token. -/
theorem stored {v : α} (h : r.Holds xs) (hroom : xs.length < r.depth) (hw : r.tail_ + 1 < sizeMod) :
    Holds ((({ r with tail_ := r.tail_ + 1 } : Ring α).replace (r.tail_ % r.depth) (some v)).setBits
      (r.tail_ % r.depth) 1) (xs ++ [v]) := by
  have htail := h.tail
  refine ⟨h.depth_pos, ?_, hw, ?_, fun i w hi => ?_⟩
  · show r.tail_ + 1 = r.head_ + (xs ++ [v]).length
    simp only [List.length_append, List.length_singleton]
    omega
  · simp only [List.length_append, List.length_singleton]
    exact hroom
  · simp only [Ring.setBits, Ring.replace, Ring.write, Function.update_self]
    rw [List.getElem?_append] at hi
    split at hi
    · rename_i hlt
      have hne : (r.head_ + i) % r.depth ≠ r.tail_ % r.depth := fun he => by
        have := window_eq he (h := r.head_) (by omega) (by omega) (by omega) (by omega)
        omega
      show Function.update (Function.update r.queue_ _ _) _ _ ((r.head_ + i) % r.depth) = _
      rw [Function.update_of_ne hne, Function.update_of_ne hne]
      exact h.slot i w hi
    · rename_i hlt
      obtain ⟨hlen, rfl⟩ := List.getElem?_eq_some_iff.mp hi
      simp only [List.length_singleton] at hlen
      have : r.head_ + i = r.tail_ := by omega
      simp [this]

/-- The size test of `emplace` before the token is counted. -/
theorem spaceFor (h : r.Holds xs) (hw : xs.length + 1 < sizeMod) :
    Ring.spaceFor r.tail_ r.head_ = xs.length + 1 := by
  have htail := h.tail
  have hlen : r.tail_ - r.head_ = xs.length := by omega
  rw [Ring.spaceFor, wordSub_of_le (by omega), hlen, wordAdd_of_lt hw]

theorem emplace {v : α} (h : r.Holds xs) (hroom : xs.length < r.depth)
    (hidx : r.tail_ % r.depth < idxMod) (hw : r.tail_ + 1 < sizeMod) :
    ∃ r', (∀ n, r.emplace (n + 1) (some v) = some (r.tail_, r')) ∧ r'.Holds (xs ++ [v]) ∧
      r'.depth = r.depth := by
  have htail := h.tail
  refine ⟨_, fun n => ?_, h.stored (v := v) hroom hw, rfl⟩
  simp only [Ring.emplace, wordAdd_of_lt hw, h.spaceFor (by omega),
    if_neg (show ¬ r.depth < xs.length + 1 by omega), Option.map_some, Ring.emplaceIdx,
    Nat.mod_eq_of_lt hidx]

end Ring.Holds

namespace Growing

/-! ## Runs without growth -/

structure Inv (s : Growing α) : Prop where
  holds : s.ring.Holds (s.pushed.drop s.popped.length)
  popped : s.popped = (s.pushed.take s.popped.length).map some
  le : s.popped.length ≤ s.pushed.length

theorem Inv.fifo {s : Growing α} (h : Inv s) : Fifo s := by
  refine ⟨h.popped, ?_, h.le, by rw [h.holds.size, List.length_drop]⟩
  have hh := h.holds
  rw [← Nat.add_zero s.popped.length, ← List.getElem?_drop]
  generalize s.pushed.drop s.popped.length = xs at hh
  cases xs with
  | nil => rw [hh.pop_nil]; rfl
  | cons x xs =>
    obtain ⟨r', hp, -⟩ := hh.pop_cons
    rw [hp]
    rfl

theorem step_inv {s t : Growing α} {op : GrowingOp α} (hi : Inv s) (hg : RoomLeft s op)
    (h : step s op = some t) : Inv t := by
  cases op with
  | emplace v =>
    obtain ⟨hsize, hidx, hw⟩ := hg
    rw [hi.holds.size] at hsize
    obtain ⟨r', he, hr, -⟩ := hi.holds.emplace (v := v) hsize hidx hw
    simp only [step, fuel, he, Option.map_some] at h
    cases h
    have hle := hi.le
    refine ⟨?_, ?_, Nat.le_trans hle (by simp)⟩
    · simp only [List.drop_append_of_le_length hle]
      exact hr
    · simp only [List.take_append_of_le_length hle]
      exact hi.popped
  | pop =>
    have hh := hi.holds
    rcases Nat.lt_or_ge s.popped.length s.pushed.length with hlt | hge
    · rw [List.drop_eq_getElem_cons hlt] at hh
      obtain ⟨r', hp, hr, -⟩ := hh.pop_cons
      simp only [step, hp] at h
      cases h
      refine ⟨?_, ?_, ?_⟩
      · simpa using hr
      · simp only [List.length_append, List.length_singleton, List.take_add_one,
          List.getElem?_eq_getElem hlt, Option.toList_some, List.map_append, ← hi.popped]
        rfl
      · simp only [List.length_append, List.length_singleton]
        exact hlt
    · rw [List.drop_eq_nil_of_le hge] at hh
      simp only [step, hh.pop_nil] at h
      cases h
      exact hi

/-- **A queue that never has to grow is a FIFO.** In every run in which no
emplace is made on a full ring, and there an emplace always succeeds. -/
theorem unfilled_fifo {depth : Nat} {ops : List (GrowingOp α)} {s : Growing α} (hpos : 0 < depth)
    (h : Run step RoomLeft (init α depth) ops s) :
    Fifo s ∧ ∀ v, RoomLeft s (.emplace v) → ∀ n, (s.ring.emplace (n + 1) (some v)).isSome := by
  have hi : Inv s := h.invariant ⟨.init hpos, rfl, Nat.le_refl _⟩
    fun _ _ _ hi hok hs => step_inv hi hok hs
  refine ⟨hi.fifo, fun v hv n => ?_⟩
  obtain ⟨hsize, hidx, hw⟩ := hv
  rw [hi.holds.size] at hsize
  obtain ⟨r', he, -⟩ := hi.holds.emplace (v := v) hsize hidx hw
  rw [he]
  rfl

/-- Around a ring of two slots and past its end. -/
theorem unfilled_fifo_wraps : ∃ s : Growing Nat,
    s.popped = [some 1, some 2] ∧ s.pushed = [1, 2, 3] ∧ s.ring.tail_ = 3 ∧ Fifo s := by
  have hs : (execOk step RoomLeft (init Nat 2)
      [.emplace 1, .emplace 2, .pop, .emplace 3, .pop]).map
      (fun s => (s.popped, s.pushed, s.ring.tail_)) = some ([some 1, some 2], [1, 2, 3], 3) := by
    decide +kernel
  obtain ⟨s, hs, hv⟩ := Option.map_eq_some_iff.mp hs
  simp only [Prod.mk.injEq] at hv
  obtain ⟨hp, hq, ht⟩ := hv
  exact ⟨s, hp, hq, ht, (unfilled_fifo (by decide) (run_of_execOk hs)).1⟩

/-- **Growth loses the count of the value that caused it.** One slot, and two
pushes: the ring grows to two slots and holds both values, but counts one. -/
theorem growth_miscounts : ¬ ∀ (depth : Nat) (ops : List (GrowingOp Nat)) (s : Growing Nat),
    0 < depth → Run step Unrestricted (init Nat depth) ops s → Fifo s := by
  intro h
  have hs : (exec step (init Nat 1) [.emplace 1, .emplace 2]).map
      (fun s => (s.pushed, s.popped, s.ring.size, s.ring.depth)) = some ([1, 2], [], 1, 2) := by
    decide +kernel
  obtain ⟨s, hs, hv⟩ := Option.map_eq_some_iff.mp hs
  simp only [Prod.mk.injEq] at hv
  obtain ⟨hp, hq, hsize, -⟩ := hv
  have := (h 1 _ s (by decide) (run_iff_exec.mpr hs)).size.2
  rw [hp, hq, hsize] at this
  cases this

end Growing
end HermesShm.Ipc.RingQueue
