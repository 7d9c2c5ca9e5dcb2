import HermesShm.Base.Deque
import HermesShm.Ipc.RingQueueSerial

/-! # The ring queue as a bounded deque

One thread runs every operation of a queue that waits for space or turns an
emplace down. `pop_back` takes its token back from `tail_`, so a token may be
given out again. -/
namespace HermesShm.Ipc.RingQueue
open HermesShm.Base

variable {α : Type*}

namespace Ring

/-- `pop()`, `none` for the null token. -/
def popDiscard (r : Ring α) : Option Nat × Ring α :=
  let head := r.head_
  if r.tail_ ≤ head then (none, r)
  else
    let idx := r.popIdx head
    if r.any idx 1 then
      let r := r.clear idx
      (some head, { r with head_ := wordAdd sizeMod r.head_ 1 })
    else (none, r)

/-- `pop_back(val)` -/
def popBack (r : Ring α) : Option (Nat × Option α) × Ring α :=
  let head := r.head_
  let tail := r.tail_
  if tail ≤ head then (none, r)
  else
    let tail := wordSub sizeMod tail 1
    let idx := r.popIdx tail
    if r.any idx 1 then
      let (val, r) := r.moveOut idx
      let r := r.clear idx
      (some (tail, val), { r with tail_ := wordSub sizeMod r.tail_ 1 })
    else (none, r)

/-- `emplace(v)` where no other thread makes room: a full queue with
`kWaitForSpace` waits for ever. -/
def emplaceAlone (flags : RingQueueFlag) (r : Ring α) (v : α) : Option (Option Nat × Ring α) :=
  if waitForSpace flags && r.depth < spaceFor r.tail_ r.head_ then none
  else some (r.emplaceSerial flags v)

def call (flags : RingQueueFlag) (r : Ring α) :
    Deque.Call α → Option (Deque.Reply (Option α) × Ring α)
  | .pushBack v => (r.emplaceAlone flags v).map fun (tok, r) => (.done tok.isSome, r)
  | .popFront => some (.popped (r.pop.1.map Prod.snd), r.pop.2)
  | .dropFront => some (.done r.popDiscard.1.isSome, r.popDiscard.2)
  | .popBack => some (.popped (r.popBack.1.map Prod.snd), r.popBack.2)
  | .size => some (.size r.size, r)

/-- The condition on a call: an emplace on a ring with room is given a token
that fits. -/
def CallFits (r : Ring α) : Deque.Call α → Prop
  | .pushBack _ => r.size < r.depth → r.Fits
  | _ => True

instance (r : Ring α) : ∀ c, Decidable (r.CallFits c)
  | .pushBack _ => inferInstanceAs (Decidable (_ → _))
  | .popFront | .dropFront | .popBack | .size => isTrue trivial

/-- The slots of the values are told by an index of 32 bits, and no other slot
has its ready bit set. -/
structure Stores (r : Ring α) (xs : List α) : Prop extends r.Holds xs where
  fits : ∀ i < xs.length, (r.head_ + i) % r.depth < idxMod
  clean : ∀ j, (∀ i < xs.length, (r.head_ + i) % r.depth ≠ j) → (r.queue_ j).first = 0

namespace Stores

variable {r : Ring α} {x v : α} {xs : List α} {e : Slot α}

theorem init {depth : Nat} (h : 0 < depth) : Stores ({ depth } : Ring α) [] :=
  ⟨.init h, nofun, fun _ _ => rfl⟩

/-! ## What each call leaves -/

theorem behead (h : r.Stores (x :: xs)) (he : e.first = 0) :
    Stores { r.write (r.head_ % r.depth) e with head_ := r.head_ + 1 } xs := by
  refine ⟨h.toHolds.behead e, fun i hi => ?_, fun j hj => ?_⟩
  · have := h.fits (i + 1) (Nat.succ_lt_succ hi)
    rwa [← Nat.add_assoc, Nat.add_right_comm] at this
  · show (Function.update r.queue_ (r.head_ % r.depth) e j).first = 0
    by_cases hne : j = r.head_ % r.depth
    · rw [hne, Function.update_self, he]
    · rw [Function.update_of_ne hne]
      refine h.clean j fun i hi => ?_
      cases i with
      | zero => exact fun he => hne he.symm
      | succ i =>
        rw [Nat.add_comm i 1, ← Nat.add_assoc]
        exact hj i (Nat.lt_of_succ_lt_succ hi)

theorem tail_of_append (h : r.Stores (xs ++ [x])) : r.tail_ = r.head_ + xs.length + 1 := by
  have := h.tail
  rwa [List.length_append, List.length_singleton, ← Nat.add_assoc] at this

theorem last_slot (h : r.Stores (xs ++ [x])) :
    r.queue_ ((r.head_ + xs.length) % r.depth) = ⟨1, some x⟩ :=
  h.slot xs.length x List.getElem?_concat_length

theorem unappend (h : r.Stores (xs ++ [x])) (he : e.first = 0) :
    Stores { r.write ((r.head_ + xs.length) % r.depth) e with tail_ := r.head_ + xs.length }
      xs := by
  have htail := h.tail_of_append
  have hlt := h.tail_lt
  have hroom := h.room
  simp only [List.length_append, List.length_singleton] at hroom
  refine ⟨⟨h.depth_pos, rfl, ?_, Nat.le_of_succ_le hroom, fun i v hv => ?_⟩, fun i hi => ?_,
    fun j hj => ?_⟩
  · show r.head_ + xs.length < sizeMod
    omega
  · have hi := (List.getElem?_eq_some_iff.mp hv).1
    have hne : (r.head_ + i) % r.depth ≠ (r.head_ + xs.length) % r.depth :=
      window_ne (h := r.head_) (by omega) (by omega) (by omega) (by omega) (by omega)
    simp only [Ring.write, Function.update_of_ne hne]
    exact h.slot i v (by rw [List.getElem?_append_left hi, hv])
  · refine h.fits i ?_
    rw [List.length_append]
    exact Nat.lt_add_right _ hi
  · show (Function.update r.queue_ ((r.head_ + xs.length) % r.depth) e j).first = 0
    by_cases hne : j = (r.head_ + xs.length) % r.depth
    · rw [hne, Function.update_self, he]
    · rw [Function.update_of_ne hne]
      refine h.clean j fun i hi => ?_
      rw [List.length_append, List.length_singleton] at hi
      rcases Nat.lt_succ_iff_lt_or_eq.mp hi with hi | rfl
      · exact hj i hi
      · exact fun he => hne he.symm

theorem append (h : r.Stores xs) (hroom : xs.length < r.depth) (hf : r.Fits) :
    Stores ((({ r with tail_ := r.tail_ + 1 } : Ring α).replace (r.tail_ % r.depth)
      (some v)).setBits (r.tail_ % r.depth) 1) (xs ++ [v]) := by
  have htail := h.tail
  refine ⟨h.stored hroom hf.1, fun i hi => ?_, fun j hj => ?_⟩
  · rw [List.length_append, List.length_singleton] at hi
    rcases Nat.lt_succ_iff_lt_or_eq.mp hi with hi | rfl
    · exact h.fits i hi
    · show (r.head_ + xs.length) % r.depth < idxMod
      rw [← htail]
      exact hf.2
  · have hlen : (xs ++ [v]).length = xs.length + 1 := List.length_append
    have hne : j ≠ r.tail_ % r.depth := by
      rw [htail]
      exact fun he => hj xs.length (by omega) he.symm
    simp only [Ring.setBits, Ring.replace, Ring.write, Function.update_of_ne hne]
    exact h.clean j fun i hi => hj i (by omega)

/-- A full ring counts fewer than 2^64 - 1 values: that many slots are not told
by an index of 32 bits. -/
theorem length_lt (h : r.Stores xs) (hfull : r.depth ≤ xs.length) : xs.length + 1 < sizeMod := by
  have htail := h.tail
  have hlt := h.tail_lt
  have hroom := h.room
  by_contra hge
  have hidx : idxMod + 1 < sizeMod := by decide
  have := h.fits idxMod (by omega)
  rw [show r.head_ = 0 by omega, Nat.zero_add, Nat.mod_eq_of_lt (by omega)] at this
  exact Nat.lt_irrefl _ this

/-! ## Replies -/

theorem popDiscard_cons (h : r.Stores (x :: xs)) : r.popDiscard = (some r.head_,
    { r.write (r.head_ % r.depth) ⟨0, some x⟩ with head_ := r.head_ + 1 }) := by
  have htail := h.tail
  have hlt := h.tail_lt
  simp only [List.length_cons] at htail
  have hslot : r.queue_ (r.head_ % r.depth) = ⟨1, some x⟩ := h.slot 0 x rfl
  have hany : r.any (r.head_ % r.depth) 1 = true := by simp [Ring.any, hslot]
  simp only [Ring.popDiscard, if_neg (show ¬ r.tail_ ≤ r.head_ by omega), Ring.popIdx, hany,
    if_true, Ring.clear, Ring.write, hslot, wordAdd_of_lt (show r.head_ + 1 < sizeMod by omega)]

theorem popBack_append (h : r.Stores (xs ++ [x])) :
    r.popBack = (some (r.head_ + xs.length, some x),
      { r.write ((r.head_ + xs.length) % r.depth) {} with tail_ := r.head_ + xs.length }) := by
  have htail := h.tail_of_append
  have hslot := h.last_slot
  have hany : r.any ((r.head_ + xs.length) % r.depth) 1 = true := by simp [Ring.any, hslot]
  have hsub : wordSub sizeMod r.tail_ 1 = r.head_ + xs.length := by
    rw [wordSub_of_le (by omega)]
    omega
  simp only [Ring.popBack, if_neg (show ¬ r.tail_ ≤ r.head_ by omega), hsub, Ring.popIdx, hany,
    if_true, Ring.moveOut, Ring.clear, Ring.write, hslot, Function.update_idem,
    Function.update_self]

theorem popDiscard_nil (h : r.Stores []) : r.popDiscard = (none, r) :=
  if_pos (Nat.le_of_eq h.tail)

theorem popBack_nil (h : r.Stores []) : r.popBack = (none, r) := if_pos (Nat.le_of_eq h.tail)

theorem emplaceAlone {flags : RingQueueFlag} (h : r.Stores xs)
    (hfl : waitForSpace flags = true ∨ errorOnNoSpace flags = true)
    (hf : xs.length < r.depth → r.Fits) {res : Option Nat × Ring α}
    (hres : r.emplaceAlone flags v = some res) :
    if xs.length < r.depth then res.1 = some r.tail_ ∧ res.2.Stores (xs ++ [v]) ∧
      res.2.depth = r.depth ∧ res.2.head_ = r.head_
    else res = (none, r) := by
  rw [Ring.emplaceAlone] at hres
  split at hres
  · cases hres
  rename_i hwait
  cases hres
  split
  · rename_i hroom
    have hspace : spaceFor r.tail_ r.head_ ≤ r.depth := by
      rw [h.spaceFor (h.toHolds.length_lt (hf hroom))]
      exact hroom
    rw [emplaceSerial_accept (hf hroom) fun _ => hspace]
    exact ⟨rfl, h.append hroom (hf hroom), rfl, rfl⟩
  · rename_i hfull
    have hlen := h.length_lt (Nat.le_of_not_lt hfull)
    refine h.emplaceSerial_full (Nat.le_of_not_lt hfull) hlen (hfl.resolve_left fun hw => ?_)
    refine hwait (Bool.and_eq_true_iff.mpr ⟨hw, decide_eq_true ?_⟩)
    rw [h.spaceFor hlen]
    exact Nat.lt_succ_of_le (Nat.le_of_not_lt hfull)

/-- **One call.** It gets the reply of a bounded deque. -/
theorem call {flags : RingQueueFlag} (h : r.Stores xs)
    (hfl : waitForSpace flags = true ∨ errorOnNoSpace flags = true) {c : Deque.Call α}
    (hf : r.CallFits c) {rep : Deque.Reply (Option α)} {r' : Ring α}
    (hc : r.call flags c = some (rep, r')) :
    rep = (Deque.answer r.depth xs c).1.map some ∧ r'.Stores (Deque.answer r.depth xs c).2 ∧
      r'.depth = r.depth := by
  cases c with
  | pushBack v =>
    obtain ⟨res, hres, hrep⟩ := Option.map_eq_some_iff.mp hc
    cases hrep
    have hemp := h.emplaceAlone hfl (by rwa [CallFits, h.size] at hf) hres
    rw [Deque.answer]
    split at hemp
    · rename_i hroom
      obtain ⟨htok, hst, hd, -⟩ := hemp
      rw [if_pos hroom, htok]
      exact ⟨rfl, hst, hd⟩
    · rename_i hfull
      rw [if_neg hfull, hemp]
      exact ⟨rfl, h, rfl⟩
  | popFront =>
    cases hc
    cases xs with
    | nil =>
      rw [h.pop_nil]
      exact ⟨rfl, h, rfl⟩
    | cons x xs =>
      rw [h.pop_eq]
      exact ⟨rfl, h.behead rfl, rfl⟩
  | dropFront =>
    cases hc
    cases xs with
    | nil =>
      rw [h.popDiscard_nil]
      exact ⟨rfl, h, rfl⟩
    | cons x xs =>
      rw [h.popDiscard_cons]
      exact ⟨rfl, h.behead rfl, rfl⟩
  | popBack =>
    cases hc
    rcases List.eq_nil_or_concat xs with rfl | ⟨ys, y, rfl⟩
    · rw [h.popBack_nil]
      exact ⟨rfl, h, rfl⟩
    · rw [List.concat_eq_append] at h ⊢
      rw [h.popBack_append]
      simp only [Deque.answer, List.getLast?_concat, List.dropLast_concat]
      exact ⟨rfl, h.unappend rfl, rfl⟩
  | size =>
    cases hc
    rw [h.size]
    exact ⟨rfl, h, rfl⟩

end Stores

end Ring

/-! ## Runs -/

/-- A queue and the replies it has given. -/
abbrev Answered (α : Type*) := Traced (Ring α) (Deque.Reply (Option α))

def Allowed (u : Answered α) (c : Deque.Call α) : Prop := u.state.CallFits c

instance (u : Answered α) (c : Deque.Call α) : Decidable (Allowed u c) :=
  inferInstanceAs (Decidable (u.state.CallFits c))

/-- What a queue of `depth` slots that turns calls down is meant to be: every
call returns, the replies are those of a deque of at most `depth` values, and an
emplace that is turned down changes nothing. -/
structure AsDeque (flags : RingQueueFlag) (depth : Nat) (calls : List (Deque.Call α))
    (u : Answered α) : Prop where
  returns : ∀ c, (u.state.call flags c).isSome
  replies : u.replies =
    (Traced.replay (Deque.answer depth) [] calls).replies.map (Deque.Reply.map some)
  refused : ∀ v r, Allowed u (.pushBack v) →
    u.state.call flags (.pushBack v) = some (.done false, r) → r = u.state

theorem run_stores {flags : RingQueueFlag} {depth : Nat} {calls : List (Deque.Call α)}
    {u : Answered α} (hfl : waitForSpace flags = true ∨ errorOnNoSpace flags = true)
    (hpos : 0 < depth)
    (h : Run (Traced.step (Ring.call flags)) Allowed { state := { depth } } calls u) :
    u.replies = (Traced.replay (Deque.answer depth) [] calls).replies.map (Deque.Reply.map some) ∧
      u.state.Stores (Traced.replay (Deque.answer depth) [] calls).state ∧
      u.state.depth = depth := by
  refine Traced.refines (R := fun r xs => r.Stores xs ∧ r.depth = depth) h
    ⟨.init hpos, rfl⟩ fun u xs c rep r hr hok hc => ?_
  obtain ⟨hst, hd⟩ := hr
  obtain ⟨hrep, hst', hd'⟩ := hst.call hfl hok hc
  rw [hd] at hrep hst' hd'
  exact ⟨hrep, hst', hd'⟩

/-- **A fixed ring queue is a bounded deque.** In every run whose tokens fit. -/
theorem fixed_refines_deque {flags : RingQueueFlag} {depth : Nat}
    {calls : List (Deque.Call α)} {u : Answered α} (hw : waitForSpace flags = false)
    (he : errorOnNoSpace flags = true) (hpos : 0 < depth)
    (h : Run (Traced.step (Ring.call flags)) Allowed { state := { depth } } calls u) :
    AsDeque flags depth calls u := by
  obtain ⟨hrep, hst, -⟩ := run_stores (.inr he) hpos h
  refine ⟨fun c => ?_, hrep, fun v r hok hc => ?_⟩
  · cases c with
    | pushBack v => simp [Ring.call, Ring.emplaceAlone, hw]
    | popFront | dropFront | popBack | size => rfl
  · obtain ⟨res, hres, hc⟩ := Option.map_eq_some_iff.mp hc
    have hemp := hst.emplaceAlone (.inr he) (by rwa [Allowed, Ring.CallFits, hst.size] at hok) hres
    split at hemp
    · simp only [hemp.1, Option.isSome_some, Prod.mk.injEq, Deque.Reply.done.injEq] at hc
      cases hc.1
    · rw [hemp] at hc
      cases hc
      rfl

/-- Two slots: a third value is turned down, both ends are popped, and the ring
goes round. -/
theorem fixed_refines_deque_wraps : ∃ u : Answered Nat,
    u.replies = [.done true, .done true, .done false, .popped (some (some 1)), .done true,
      .popped (some (some 4)), .size 1, .done true, .popped none] ∧
    AsDeque fixedSpscFlags 2 [.pushBack 1, .pushBack 2, .pushBack 3, .popFront, .pushBack 4,
      .popBack, .size, .dropFront, .popFront] u := by
  have hs : (execOk (Traced.step (Ring.call fixedSpscFlags)) Allowed { state := { depth := 2 } }
      [.pushBack 1, .pushBack 2, .pushBack 3, .popFront, .pushBack 4, .popBack, .size, .dropFront,
        .popFront]).map Traced.replies =
      some [.done true, .done true, .done false, .popped (some (some 1)), .done true,
        .popped (some (some 4)), .size 1, .done true, .popped none] := by
    decide +kernel
  obtain ⟨u, hu, hv⟩ := Option.map_eq_some_iff.mp hs
  exact ⟨u, hv, fixed_refines_deque rfl rfl (by decide) (run_of_execOk hu)⟩

/-! ## A ring of more than 2^32 slots -/

theorem fill_long {k : Nat} (hk : k ≤ idxMod + 1) :
    ∃ u : Answered Nat, exec (Traced.step (Ring.call fixedSpscFlags))
      { state := { depth := idxMod + 1 } } (List.replicate k (.pushBack 7)) = some u ∧
      u.state.Long k := by
  induction k with
  | zero => exact ⟨_, rfl, rfl, rfl, rfl, rfl⟩
  | succ k ih =>
    obtain ⟨u, hu, hlong⟩ := ih (Nat.le_of_succ_le hk)
    obtain ⟨r, he, hlong'⟩ := hlong.emplaceSerial hk 7
    refine ⟨⟨r, u.replies ++ [.done true]⟩, ?_, hlong'⟩
    have hwait : waitForSpace fixedSpscFlags = false := by decide
    rw [List.replicate_succ', exec_append, hu]
    simp only [Option.bind_some, exec, Traced.step, Ring.call, Ring.emplaceAlone, hwait, he,
      Bool.false_and, Bool.false_eq_true, if_false, Option.map_some]
    rfl

theorem replay_pushes {cap k : Nat} (v : α) (hk : k ≤ cap) :
    (Traced.replay (Deque.answer cap) [] (List.replicate k (.pushBack v))).state =
      List.replicate k v := by
  induction k with
  | zero => rfl
  | succ k ih =>
    rw [List.replicate_succ', Traced.replay_snoc, ih (Nat.le_of_succ_le hk), Deque.answer,
      if_pos (by rw [List.length_replicate]; exact hk), List.replicate_succ']

theorem Ring.Long.popBack {r : Ring α} (h : r.Long (idxMod + 1)) : r.popBack = (none, r) := by
  have hsub : wordSub sizeMod (idxMod + 1) 1 = idxMod := by decide
  have hany : r.any idxMod 1 = false := by simp [Ring.any, h.last]
  have hidx : idxMod % r.depth = idxMod := by
    rw [h.depth]
    exact Nat.mod_eq_of_lt (Nat.lt_succ_self _)
  rw [Ring.popBack, h.head, h.tail, if_neg (by decide)]
  simp only [hsub, Ring.popIdx, hidx, hany, Bool.false_eq_true, if_false]

/-- **A long ring loses its last value.** 2^32 + 1 slots and as many pushes: the
index of the last one, cut to 32 bits, is that of the first, and `pop_back`
finds the last slot empty. -/
theorem long_ring_pops_null : ¬ ∀ (depth : Nat) (calls : List (Deque.Call Nat))
    (u : Answered Nat), 0 < depth →
    Run (Traced.step (Ring.call fixedSpscFlags)) Unrestricted { state := { depth } } calls u →
    AsDeque fixedSpscFlags depth calls u := by
  intro h
  obtain ⟨u, hu, hlong⟩ := fill_long (k := idxMod + 1) (Nat.le_refl _)
  have hrun : Run (Traced.step (Ring.call fixedSpscFlags)) Unrestricted
      { state := { depth := idxMod + 1 } }
      (List.replicate (idxMod + 1) (.pushBack 7) ++ [.popBack])
      ⟨u.state, u.replies ++ [.popped none]⟩ := by
    refine .snoc (run_iff_exec.mpr hu) trivial ?_
    rw [Traced.step, Ring.call, hlong.popBack]
    rfl
  have hrep := (h _ _ _ (by decide) hrun).replies
  rw [Traced.replay_snoc, replay_pushes _ (Nat.le_refl _), List.map_append] at hrep
  have hlast := congrArg List.getLast? hrep
  rw [List.replicate_succ'] at hlast
  simp only [Deque.answer, List.getLast?_concat, List.map_cons, List.map_nil,
    Deque.Reply.map] at hlast
  cases hlast

end HermesShm.Ipc.RingQueue
