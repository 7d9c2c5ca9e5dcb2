import HermesShm.Base.Deque
import HermesShm.Ipc.RingPtrQueue
import HermesShm.Ipc.RingQueueSerial

/-! # The ring queue of pointers, one call at a time

`ring_ptr_queue_base` used by one thread, for every flag. A push stores its
value with the top bit set, and a pop returns the entry with the top bit
cleared: a value comes back with its own top bit lost. -/
namespace HermesShm.Ipc.RingPtrQueue
open HermesShm.Base
open HermesShm.Ipc.RingQueue (RingQueueFlag waitForSpace errorOnNoSpace dynamicSize sizeMod idxMod
  qtok qtok_of_lt Ring.spaceFor)

variable {β : Type*} {w : Nat}

/-! ## The ring -/

structure Ring (β : Type*) (w : Nat) where
  /-- `queue_->size()` -/
  depth : Nat
  queue_ : Nat → Entry β w
  tail_ : Nat := 0
  head_ : Nat := 0

namespace Ring

/-- A ring of value initialized entries; `b` is what else than the word such an
entry has. -/
def make (w : Nat) (b : β) (depth : Nat) : Ring β w := { depth, queue_ := fun _ => ⟨b, 0#w⟩ }

def write (r : Ring β w) (idx : Nat) (e : Entry β w) : Ring β w :=
  { r with queue_ := Function.update r.queue_ idx e }

/-- `pop(val)`: the token, `none` for the null token, and `val`. -/
def pop (r : Ring β w) : Option (Nat × Entry β w) × Ring β w :=
  let head := r.head_
  if r.tail_ ≤ head then (none, r)
  else
    let idx := head % r.depth
    let entry := r.queue_ idx
    if entry.isMarked then
      let r := r.write idx entry.setZero
      (some (head, entry.unmark), { r with head_ := wordAdd sizeMod r.head_ 1 })
    else (none, r)

/-- `pop()` -/
def popDiscard (r : Ring β w) : Option Nat × Ring β w :=
  let head := r.head_
  if r.tail_ ≤ head then (none, r)
  else
    let idx := head % r.depth
    if (r.queue_ idx).isMarked then
      (some head, { r with head_ := wordAdd sizeMod r.head_ 1 })
    else (none, r)

/-- `pop_back(val)` -/
def popBack (r : Ring β w) : Option (Nat × Entry β w) × Ring β w :=
  let head := r.head_
  let tail := r.tail_
  if tail ≤ head then (none, r)
  else
    let tail := wordSub sizeMod tail 1
    let idx := tail % r.depth
    let entry := r.queue_ idx
    if entry.isMarked then
      let r := r.write idx entry.setZero
      (some (tail, entry.unmark), { r with tail_ := wordSub sizeMod r.tail_ 1 })
    else (none, r)

/-- `GetSize` -/
def size (r : Ring β w) : Nat := if r.tail_ < r.head_ then 0 else r.tail_ - r.head_

/-- The end of `emplace`: `Mark(val, queue[idx])`, with an index of 32 bits. -/
def store (r : Ring β w) (tail : Nat) (val : Entry β w) : Option Nat × Ring β w :=
  (qtok tail, r.write (tail % r.depth % idxMod) val.mark)

/-- The loop of `resize`: pop from `r`, push to `new_queue`. -/
def drain (push : Ring β w → Entry β w → Option (Ring β w)) :
    Nat → Ring β w → Ring β w → Option (Ring β w)
  | 0, _, _ => none
  | fuel + 1, r, new_queue =>
    match r.pop with
    | (none, _) => some new_queue
    | (some (_, val), r) => (push new_queue val).bind fun new_queue => drain push fuel r new_queue

/-- `emplace(val)` where no other thread makes room: a full queue with
`kWaitForSpace` waits for ever. `fuel` bounds the loop of `resize` and the depth
of the pushes into its new queue. -/
def emplace (flags : RingQueueFlag) (b : β) :
    Nat → Ring β w → Entry β w → Option (Option Nat × Ring β w)
  | 0, _, _ => none
  | fuel + 1, r, val =>
    let head := r.head_
    let tail := r.tail_
    let r := { r with tail_ := wordAdd sizeMod tail 1 }
    let full := r.depth < Ring.spaceFor tail head
    if waitForSpace flags then
      if full then none else some (r.store tail val)
    else if errorOnNoSpace flags then
      if full then some (none, { r with tail_ := wordSub sizeMod r.tail_ 1 })
      else some (r.store tail val)
    else if dynamicSize flags then
      if full then
        (drain (fun q v => (emplace flags b fuel q v).map Prod.snd) fuel r
          (make w b (r.depth * 2))).map fun r => r.store tail val
      else some (r.store tail val)
    else some (r.store tail val)

/-- More than `resize` needs: it pops fewer values than tokens were taken. -/
def fuel (r : Ring β w) : Nat := r.tail_ + 3

def call (flags : RingQueueFlag) (b : β) (r : Ring β w) :
    Deque.Call (Entry β w) → Option (Deque.Reply (Entry β w) × Ring β w)
  | .pushBack v => (r.emplace flags b r.fuel v).map fun (tok, r) => (.done tok.isSome, r)
  | .popFront => some (.popped (r.pop.1.map Prod.snd), r.pop.2)
  | .dropFront => some (.done r.popDiscard.1.isSome, r.popDiscard.2)
  | .popBack => some (.popped (r.popBack.1.map Prod.snd), r.popBack.2)
  | .size => some (.size r.size, r)

/-- The condition on a push, whatever its value: a ring that neither waits nor
turns calls down has room, and where there is room the token counter does not
wrap and the slot index fits its 32 bits. -/
def CallFits (flags : RingQueueFlag) (r : Ring β w) : Deque.Call (Entry β w) → Prop
  | .pushBack _ =>
    (waitForSpace flags = true ∨ errorOnNoSpace flags = true ∨ r.size < r.depth) ∧
      (r.size < r.depth → r.tail_ + 1 < sizeMod ∧ r.tail_ % r.depth < idxMod)
  | _ => True

instance (flags : RingQueueFlag) (r : Ring β w) : ∀ c, Decidable (r.CallFits flags c)
  | .pushBack _ => inferInstanceAs (Decidable (_ ∧ _))
  | .popFront | .dropFront | .popBack | .size => isTrue trivial

end Ring

/-! ## A ring that stores a list of values -/

structure Ring.Stores (r : Ring β w) (xs : List (Entry β w)) : Prop where
  tail : r.tail_ = r.head_ + xs.length
  tail_lt : r.tail_ < sizeMod
  room : xs.length ≤ r.depth
  slot : ∀ i v, xs[i]? = some v → r.queue_ ((r.head_ + i) % r.depth) = v.mark
  fits : ∀ i < xs.length, (r.head_ + i) % r.depth < idxMod

namespace Ring.Stores

variable {r : Ring β w} {x v : Entry β w} {xs : List (Entry β w)}

theorem make (b : β) (depth : Nat) : (Ring.make w b depth).Stores [] :=
  ⟨rfl, by simp [Ring.make, sizeMod], Nat.zero_le _, nofun, nofun⟩

theorem size (h : r.Stores xs) : r.size = xs.length := by
  have := h.tail
  rw [Ring.size, if_neg (by omega)]
  omega

theorem behead (h : r.Stores (x :: xs)) (e : Entry β w) :
    Stores { r.write (r.head_ % r.depth) e with head_ := r.head_ + 1 } xs := by
  have htail := h.tail
  have hroom := h.room
  simp only [List.length_cons] at htail hroom
  refine ⟨?_, h.tail_lt, Nat.le_of_succ_le hroom, fun i v hv => ?_, fun i hi => ?_⟩
  · show r.tail_ = r.head_ + 1 + xs.length
    omega
  · -- the slot of the first value is not the slot of a later one
    have hi := (List.getElem?_eq_some_iff.mp hv).1
    have hne : (r.head_ + 1 + i) % r.depth ≠ r.head_ % r.depth :=
      window_ne (h := r.head_) (by omega) (by omega) (by omega) (by omega) (by omega)
    simp only [Ring.write, Function.update_of_ne hne]
    rw [Nat.add_assoc, Nat.add_comm 1 i]
    exact h.slot (i + 1) v hv
  · have := h.fits (i + 1) (Nat.succ_lt_succ hi)
    rwa [← Nat.add_assoc, Nat.add_right_comm] at this

theorem skip (h : r.Stores (x :: xs)) : Stores { r with head_ := r.head_ + 1 } xs := by
  have := h.behead (r.queue_ (r.head_ % r.depth))
  rwa [Ring.write, Function.update_eq_self] at this

theorem tail_of_append (h : r.Stores (xs ++ [x])) : r.tail_ = r.head_ + xs.length + 1 := by
  have := h.tail
  rwa [List.length_append, List.length_singleton, ← Nat.add_assoc] at this

theorem unappend (h : r.Stores (xs ++ [x])) (e : Entry β w) :
    Stores { r.write ((r.head_ + xs.length) % r.depth) e with tail_ := r.head_ + xs.length }
      xs := by
  have htail := h.tail_of_append
  have hlt := h.tail_lt
  have hroom := h.room
  simp only [List.length_append, List.length_singleton] at hroom
  refine ⟨rfl, ?_, Nat.le_of_succ_le hroom, fun i v hv => ?_, fun i hi => ?_⟩
  · show r.head_ + xs.length < sizeMod
    omega
  · have hi := (List.getElem?_eq_some_iff.mp hv).1
    have hne : (r.head_ + i) % r.depth ≠ (r.head_ + xs.length) % r.depth :=
      window_ne (h := r.head_) (by omega) (by omega) (by omega) (by omega) (by omega)
    simp only [Ring.write, Function.update_of_ne hne]
    exact h.slot i v (by rw [List.getElem?_append_left hi, hv])
  · exact h.fits i (by rw [List.length_append]; exact Nat.lt_add_right _ hi)

theorem append (h : r.Stores xs) (hroom : xs.length < r.depth) (hw : r.tail_ + 1 < sizeMod)
    (hidx : r.tail_ % r.depth < idxMod) :
    Stores { r.write (r.tail_ % r.depth) v.mark with tail_ := r.tail_ + 1 } (xs ++ [v]) := by
  have htail := h.tail
  have hlen : (xs ++ [v]).length = xs.length + 1 := List.length_append
  refine ⟨?_, hw, ?_, fun i u hu => ?_, fun i hi => ?_⟩
  · show r.tail_ + 1 = r.head_ + (xs ++ [v]).length
    omega
  · show (xs ++ [v]).length ≤ r.depth
    omega
  · rw [List.getElem?_append] at hu
    split at hu
    · rename_i hlt
      have hne : (r.head_ + i) % r.depth ≠ r.tail_ % r.depth :=
        window_ne (h := r.head_) (by omega) (by omega) (by omega) (by omega) (by omega)
      simp only [Ring.write, Function.update_of_ne hne]
      exact h.slot i u hu
    · obtain ⟨hi, rfl⟩ := List.getElem?_eq_some_iff.mp hu
      simp only [List.length_singleton] at hi
      have heq : r.head_ + i = r.tail_ := by omega
      simp [Ring.write, heq]
  · rcases Nat.lt_succ_iff_lt_or_eq.mp (hlen ▸ hi) with hi | rfl
    · exact h.fits i hi
    · show (r.head_ + xs.length) % r.depth < idxMod
      rw [← htail]
      exact hidx

/-- The size test of `emplace`. Where the ring is full, so many slots are not
told by an index of 32 bits that it would wrap. -/
theorem spaceFor (h : r.Stores xs) (hw : xs.length < r.depth → r.tail_ + 1 < sizeMod) :
    Ring.spaceFor r.tail_ r.head_ = xs.length + 1 := by
  have htail := h.tail
  have hlt := h.tail_lt
  have hroom := h.room
  have hlen : xs.length + 1 < sizeMod := by
    by_contra hge
    have hidx : idxMod + 1 < sizeMod := by decide
    have hhead : r.head_ = 0 := by omega
    have hfull : r.depth = xs.length := by omega
    have := h.fits idxMod (by omega)
    rw [hhead, Nat.zero_add, hfull, Nat.mod_eq_of_lt (by omega)] at this
    exact Nat.lt_irrefl _ this
  have hsub : r.tail_ - r.head_ = xs.length := by omega
  rw [RingQueue.Ring.spaceFor, wordSub_of_le (by omega), hsub, wordAdd_of_lt hlen]

/-! ## Replies -/

theorem pop_nil (h : r.Stores []) : r.pop = (none, r) := if_pos (Nat.le_of_eq h.tail)

theorem popDiscard_nil (h : r.Stores []) : r.popDiscard = (none, r) :=
  if_pos (Nat.le_of_eq h.tail)

theorem popBack_nil (h : r.Stores []) : r.popBack = (none, r) := if_pos (Nat.le_of_eq h.tail)

theorem pop_cons (hpos : 0 < w) (h : r.Stores (x :: xs)) :
    r.pop = (some (r.head_, x.unmark),
      { r.write (r.head_ % r.depth) x.mark.setZero with head_ := r.head_ + 1 }) := by
  have htail := h.tail
  have hlt := h.tail_lt
  simp only [List.length_cons] at htail
  have hslot : r.queue_ (r.head_ % r.depth) = x.mark := h.slot 0 x rfl
  simp only [Ring.pop, if_neg (show ¬ r.tail_ ≤ r.head_ by omega), hslot,
    Entry.isMarked_mark hpos, if_true, Entry.mark_unmark, Ring.write,
    wordAdd_of_lt (show r.head_ + 1 < sizeMod by omega)]

theorem popDiscard_cons (hpos : 0 < w) (h : r.Stores (x :: xs)) :
    r.popDiscard = (some r.head_, { r with head_ := r.head_ + 1 }) := by
  have htail := h.tail
  have hlt := h.tail_lt
  simp only [List.length_cons] at htail
  have hslot : r.queue_ (r.head_ % r.depth) = x.mark := h.slot 0 x rfl
  simp only [Ring.popDiscard, if_neg (show ¬ r.tail_ ≤ r.head_ by omega), hslot,
    Entry.isMarked_mark hpos, if_true, wordAdd_of_lt (show r.head_ + 1 < sizeMod by omega)]

theorem popBack_append (hpos : 0 < w) (h : r.Stores (xs ++ [x])) :
    r.popBack = (some (r.head_ + xs.length, x.unmark),
      { r.write ((r.head_ + xs.length) % r.depth) x.mark.setZero with
        tail_ := r.head_ + xs.length }) := by
  have htail := h.tail_of_append
  have hslot : r.queue_ ((r.head_ + xs.length) % r.depth) = x.mark :=
    h.slot xs.length x List.getElem?_concat_length
  have hsub : wordSub sizeMod r.tail_ 1 = r.head_ + xs.length := by
    rw [wordSub_of_le (by omega)]
    omega
  simp only [Ring.popBack, if_neg (show ¬ r.tail_ ≤ r.head_ by omega), hsub, hslot,
    Entry.isMarked_mark hpos, if_true, Entry.mark_unmark, Ring.write]

theorem emplace {flags : RingQueueFlag} {b : β} {n : Nat} {res : Option Nat × Ring β w}
    (h : r.Stores xs) (hf : r.CallFits flags (.pushBack v))
    (hres : r.emplace flags b (n + 1) v = some res) :
    if xs.length < r.depth then
      res.1 = some r.tail_ ∧ res.2.Stores (xs ++ [v]) ∧ res.2.depth = r.depth
    else res = (none, r) := by
  obtain ⟨hflags, hfits⟩ := hf
  rw [h.size] at hflags hfits
  have hspace := h.spaceFor fun hroom => (hfits hroom).1
  simp only [Ring.emplace, hspace] at hres
  split
  · rename_i hroom
    obtain ⟨hw, hidx⟩ := hfits hroom
    have hnot : ¬ r.depth < xs.length + 1 := by omega
    have hstore : some (Ring.store { r with tail_ := wordAdd sizeMod r.tail_ 1 } r.tail_ v) =
        some res := by
      simpa only [if_neg hnot, ite_self] using hres
    cases hstore
    rw [wordAdd_of_lt hw]
    simp only [Ring.store, qtok_of_lt hw, Nat.mod_eq_of_lt hidx, true_and]
    exact ⟨h.append hroom hw hidx, rfl⟩
  · rename_i hfull
    have hlt : r.depth < xs.length + 1 := by omega
    simp only [if_pos hlt] at hres
    split at hres
    · cases hres
    · rename_i hwait
      rw [if_pos ((hflags.resolve_left hwait).resolve_right hfull)] at hres
      cases hres
      rw [wordSub_wordAdd h.tail_lt (Nat.zero_lt_of_lt h.tail_lt)]

/-- **One call.** It gets the reply of a bounded deque, a popped value with its
top bit cleared. -/
theorem call {flags : RingQueueFlag} {b : β} {c : Deque.Call (Entry β w)}
    {rep : Deque.Reply (Entry β w)} {r' : Ring β w} (hpos : 0 < w) (h : r.Stores xs)
    (hf : r.CallFits flags c) (hc : r.call flags b c = some (rep, r')) :
    rep = (Deque.answer r.depth xs c).1.map Entry.unmark ∧
      r'.Stores (Deque.answer r.depth xs c).2 ∧ r'.depth = r.depth := by
  cases c with
  | pushBack v =>
    obtain ⟨res, hres, hrep⟩ := Option.map_eq_some_iff.mp hc
    cases hrep
    have hemp := h.emplace hf hres
    rw [Deque.answer]
    split at hemp
    · rename_i hroom
      rw [if_pos hroom, hemp.1]
      exact ⟨rfl, hemp.2⟩
    · rename_i hfull
      rw [if_neg hfull, hemp]
      exact ⟨rfl, h, rfl⟩
  | popFront =>
    cases hc
    cases xs with
    | nil =>
      rw [h.pop_nil]
      exact ⟨rfl, h, rfl⟩
    | cons x xs =>
      rw [h.pop_cons hpos]
      exact ⟨rfl, h.behead _, rfl⟩
  | dropFront =>
    cases hc
    cases xs with
    | nil =>
      rw [h.popDiscard_nil]
      exact ⟨rfl, h, rfl⟩
    | cons x xs =>
      rw [h.popDiscard_cons hpos]
      exact ⟨rfl, h.skip, rfl⟩
  | popBack =>
    cases hc
    rcases List.eq_nil_or_concat xs with rfl | ⟨ys, y, rfl⟩
    · rw [h.popBack_nil]
      exact ⟨rfl, h, rfl⟩
    · rw [List.concat_eq_append] at h ⊢
      rw [h.popBack_append hpos]
      simp only [Deque.answer, List.getLast?_concat, List.dropLast_concat]
      exact ⟨rfl, h.unappend _, rfl⟩
  | size =>
    cases hc
    rw [h.size]
    exact ⟨rfl, h, rfl⟩

end Ring.Stores

/-! ## Runs -/

/-- A queue and the replies it has given. -/
abbrev Answered (β : Type*) (w : Nat) := Traced (Ring β w) (Deque.Reply (Entry β w))

def Allowed (flags : RingQueueFlag) (u : Answered β w) (c : Deque.Call (Entry β w)) : Prop :=
  u.state.CallFits flags c

instance (flags : RingQueueFlag) (u : Answered β w) (c : Deque.Call (Entry β w)) :
    Decidable (Allowed flags u c) :=
  inferInstanceAs (Decidable (u.state.CallFits flags c))

/-- The replies a queue of `depth` slots is meant to give. -/
def dequeReplies (depth : Nat) (calls : List (Deque.Call (Entry β w))) :
    List (Deque.Reply (Entry β w)) :=
  (Traced.replay (Deque.answer depth) [] calls).replies

/-- In every run whose tokens fit, the replies are those of a deque, each value
popped with its top bit cleared. -/
theorem run_unmarks {flags : RingQueueFlag} {b : β} {depth : Nat}
    {calls : List (Deque.Call (Entry β w))} {u : Answered β w} (hpos : 0 < w)
    (h : Run (Traced.step (Ring.call flags b)) (Allowed flags) { state := .make w b depth }
      calls u) :
    u.replies = (dequeReplies depth calls).map (Deque.Reply.map Entry.unmark) := by
  refine (Traced.refines (R := fun r xs => r.Stores xs ∧ r.depth = depth) h
    ⟨.make b depth, rfl⟩ fun u xs c rep r hr hok hc => ?_).1
  obtain ⟨hst, hd⟩ := hr
  obtain ⟨hrep, hst', hd'⟩ := hst.call hpos hok hc
  rw [hd] at hrep hst' hd'
  exact ⟨hrep, hst', hd'⟩

/-- **Which values the queue carries.** In every run whose tokens fit, for every
element type and all flags: the replies are those of a deque of the pushed
values if and only if no value is popped whose top bit is set. -/
theorem carries_iff {flags : RingQueueFlag} {b : β} {depth : Nat}
    {calls : List (Deque.Call (Entry β w))} {u : Answered β w} (hpos : 0 < w)
    (h : Run (Traced.step (Ring.call flags b)) (Allowed flags) { state := .make w b depth }
      calls u) :
    u.replies = dequeReplies depth calls ↔
      ∀ v, .popped (some v) ∈ dequeReplies depth calls → v.isMarked = false := by
  rw [run_unmarks hpos h]
  nth_rewrite 2 [← List.map_id (dequeReplies depth calls)]
  rw [List.map_inj_left]
  constructor
  · intro heq v hv
    have hself := heq _ hv
    simp only [Deque.Reply.map, Option.map_some, id_eq, Deque.Reply.popped.injEq,
      Option.some.injEq] at hself
    exact Entry.unmark_eq_self.mp hself
  · intro hclear rep hrep
    cases rep with
    | done _ | size _ => rfl
    | popped v =>
      cases v with
      | none => rfl
      | some v => simp only [Deque.Reply.map, Option.map_some, id_eq,
          Entry.unmark_eq_self.mpr (hclear v hrep)]

/-- A queue of two `int8_t`: 127 and 5 come back, from the back and then from the
front. -/
theorem carries_iff_bytes : ∃ u : Answered Unit 8,
    u.replies = [.done true, .done true, .popped (some ⟨(), 5⟩), .popped (some ⟨(), 127⟩)] ∧
    u.replies = dequeReplies 2 [.pushBack ⟨(), 127⟩, .pushBack ⟨(), 5⟩, .popBack, .popFront] := by
  have hs : (execOk (Traced.step (Ring.call RingQueue.spscFlags ()))
      (Allowed RingQueue.spscFlags) { state := Ring.make 8 () 2 }
      [.pushBack ⟨(), 127⟩, .pushBack ⟨(), 5⟩, .popBack, .popFront]).map Traced.replies =
      some [.done true, .done true, .popped (some ⟨(), 5⟩), .popped (some ⟨(), 127⟩)] := by
    decide +kernel
  have hspec : dequeReplies 2
      [.pushBack (⟨(), 127⟩ : Entry Unit 8), .pushBack ⟨(), 5⟩, .popBack, .popFront] =
      [.done true, .done true, .popped (some ⟨(), 5⟩), .popped (some ⟨(), 127⟩)] := by
    decide +kernel
  obtain ⟨u, hu, hv⟩ := Option.map_eq_some_iff.mp hs
  refine ⟨u, hv, (carries_iff (by decide) (run_of_execOk hu)).mpr fun v hmem => ?_⟩
  rw [hspec] at hmem
  simp only [List.mem_cons, reduceCtorEq, Deque.Reply.popped.injEq, Option.some.injEq, false_or,
    List.not_mem_nil, or_false] at hmem
  rcases hmem with rfl | rfl <;> decide

/-- **The null pointer does not come back.** An `OffsetPointer` is null when it is
2^64 - 1; what is popped is 2^63 - 1. -/
theorem null_pointer_changes : ¬ ∀ (w : Nat) (flags : RingQueueFlag) (depth : Nat)
    (calls : List (Deque.Call (Entry Unit w))) (u : Answered Unit w), 0 < w → 0 < depth →
    Run (Traced.step (Ring.call flags ())) Unrestricted { state := .make w () depth } calls u →
    u.replies = dequeReplies depth calls := by
  intro h
  have hs : (exec (Traced.step (Ring.call RingQueue.spscFlags ()))
      { state := Ring.make 64 () 1 } [.pushBack ⟨(), BitVec.allOnes 64⟩, .popFront]).map
      Traced.replies =
      some [.done true, .popped (some ⟨(), BitVec.ofNat 64 (2 ^ 63 - 1)⟩)] := by
    decide +kernel
  obtain ⟨u, hu, hv⟩ := Option.map_eq_some_iff.mp hs
  have hrep := h 64 RingQueue.spscFlags 1 _ u (by decide) (by decide) (run_iff_exec.mpr hu)
  rw [hv] at hrep
  exact absurd hrep (by decide +kernel)

end HermesShm.Ipc.RingPtrQueue
