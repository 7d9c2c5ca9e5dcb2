import HermesShm.Base.Traced
import HermesShm.Base.Word
import HermesShm.Ipc.HipcListSequence
import HermesShm.Ipc.RingQueueSerial

/-! # The queue that changes in size

`dynamic_queue` keeps its elements in a `hipc::list` and counts its tokens
beside it. Each operation runs under `lock_`, so the operations of all threads
are in one order. -/
namespace HermesShm.Ipc
open HermesShm.Base
open HermesShm.Ipc.RingQueue (sizeMod qtok qtok_of_lt)

structure DynamicQueue (α : Type) where
  splits_ : HipcList α := {}
  head_ : Nat := 0
  tail_ : Nat := 0

namespace DynamicQueue

variable {α : Type}

/-- The operations. `entry` is what the allocator returns to `emplace`, `none`
where it has no room and throws. -/
inductive Call (α : Type)
  | emplace (v : α) (entry : Option Ptr)
  | popValue
  | pop

/-- What they return: the token, `none` for the null token, and `val`. -/
inductive Reply (α : Type)
  | emplaced (tok : Option Nat)
  | outOfMemory
  | popped (tok : Option Nat) (val : Option α)
  deriving DecidableEq

/-- `emplace(v)` takes its token before the list allocates the entry. -/
def emplace (q : DynamicQueue α) (v : α) (entry : Option Ptr) :
    Option (Reply α × DynamicQueue α) :=
  let tail := q.tail_
  let q := { q with tail_ := wordAdd sizeMod tail 1 }
  match entry with
  | none => some (.outOfMemory, q)
  | some p => (q.splits_.emplace HipcList.end_ p v).map fun splits_ =>
    (.emplaced (qtok tail), { q with splits_ })

/-- `splits_.erase(splits_.begin())` -/
def eraseFront (q : DynamicQueue α) : Option (DynamicQueue α) := do
  let last ← q.splits_.at_ 1
  let splits_ ← q.splits_.eraseRange q.splits_.begin_ last
  some { q with splits_ }

/-- `pop(val)` -/
def popValue (q : DynamicQueue α) : Option (Reply α × DynamicQueue α) :=
  if 0 < q.splits_.length_ then do
    let ret := qtok q.head_
    let q := { q with head_ := wordAdd sizeMod q.head_ 1 }
    let front ← q.splits_.begin_
    let val ← q.splits_.dataAt front
    let q ← q.eraseFront
    some (.popped ret (some val), q)
  else some (.popped none none, q)

/-- `pop()` -/
def pop (q : DynamicQueue α) : Option (Reply α × DynamicQueue α) :=
  if 0 < q.splits_.length_ then do
    let ret := qtok q.head_
    let q := { q with head_ := wordAdd sizeMod q.head_ 1 }
    let q ← q.eraseFront
    some (.popped ret none, q)
  else some (.popped none none, q)

def getSize (q : DynamicQueue α) : Nat := if q.tail_ < q.head_ then 0 else q.tail_ - q.head_

def call (q : DynamicQueue α) : Call α → Option (Reply α × DynamicQueue α)
  | .emplace v entry => q.emplace v entry
  | .popValue => q.popValue
  | .pop => q.pop

/-! ## What it is meant to be -/

/-- The elements that wait, each with its token, and the next token. -/
structure Fifo (α : Type) where
  waiting : List (α × Nat) := []
  next : Nat := 0

def Fifo.answer (s : Fifo α) : Call α → Reply α × Fifo α
  | .emplace v (some _) =>
    (.emplaced (some s.next), { waiting := s.waiting ++ [(v, s.next)], next := s.next + 1 })
  | .emplace _ none => (.outOfMemory, s)
  | .popValue =>
    (.popped (s.waiting.head?.map Prod.snd) (s.waiting.head?.map Prod.fst),
      { s with waiting := s.waiting.tail })
  | .pop => (.popped (s.waiting.head?.map Prod.snd) none, { s with waiting := s.waiting.tail })

/-- The allocator returns an entry that is not in use. -/
def Fresh (q : DynamicQueue α) : Call α → Prop
  | .emplace _ (some p) => q.splits_.heap p = none
  | _ => True

/-- The condition on a call: the entry of an emplace is allocated, and its token
does not wrap. -/
def Room (q : DynamicQueue α) : Call α → Prop
  | .emplace _ entry => entry.isSome ∧ q.tail_ + 1 < sizeMod
  | _ => True

instance (q : DynamicQueue α) : ∀ c, Decidable (q.Fresh c)
  | .emplace _ (some _) => decidable_of_iff ((q.splits_.heap _).isNone = true)
    Option.isNone_iff_eq_none
  | .emplace _ none | .popValue | .pop => isTrue trivial

instance (q : DynamicQueue α) : ∀ c, Decidable (q.Room c)
  | .emplace _ _ => inferInstanceAs (Decidable (_ ∧ _))
  | .popValue | .pop => isTrue trivial

/-! ## One call -/

/-- The queue holds the elements that wait. -/
structure Holds (q : DynamicQueue α) (s : Fifo α) : Prop where
  list : ∃ ns, HipcList.Represents q.splits_ ns ∧ s.waiting = (ns.map Prod.snd).zipIdx q.head_
  next : s.next = q.tail_
  tail : q.tail_ = q.head_ + s.waiting.length
  tail_lt : q.tail_ < sizeMod

namespace Holds

variable {q : DynamicQueue α} {s : Fifo α}

theorem length (h : Holds q s) : q.splits_.length_ = s.waiting.length := by
  obtain ⟨ns, hr, hw⟩ := h.list
  rw [hr.length, hw, List.length_zipIdx, List.length_map]

theorem emplace (h : Holds q s) {v : α} {p : Ptr} (hp : q.splits_.heap p = none)
    (hw : q.tail_ + 1 < sizeMod) :
    ∃ q', q.emplace v (some p) = some (.emplaced (some s.next), q') ∧
      Holds q' { waiting := s.waiting ++ [(v, s.next)], next := s.next + 1 } := by
  obtain ⟨ns, hr, hwait⟩ := h.list
  have htail := h.tail
  obtain ⟨splits_, hs, hr'⟩ := hr.emplace_end hp v
  refine ⟨{ q with splits_, tail_ := q.tail_ + 1 }, ?_, ⟨ns ++ [(p, v)], hr', ?_⟩, ?_, ?_, hw⟩
  · simp only [DynamicQueue.emplace, hs, Option.map_some, wordAdd_of_lt hw, qtok_of_lt hw, h.next]
  · rw [hwait, List.length_zipIdx] at htail
    simp only [List.map_append, List.zipIdx_append, hwait, h.next, htail]
    rw [Nat.add_comm]
    rfl
  · show s.next + 1 = q.tail_ + 1
    rw [h.next]
  · show q.tail_ + 1 = q.head_ + (s.waiting ++ [(v, s.next)]).length
    rw [List.length_append, List.length_singleton]
    omega

/-- The element at the front is erased, and counted. -/
theorem eraseFront (h : Holds q s) {x : α} {tok : Nat} {rest : List (α × Nat)}
    (hx : s.waiting = (x, tok) :: rest) :
    tok = q.head_ ∧ (q.splits_.begin_.bind q.splits_.dataAt) = some x ∧
      ∃ q', DynamicQueue.eraseFront { q with head_ := wordAdd sizeMod q.head_ 1 } = some q' ∧
        Holds q' { s with waiting := rest } := by
  obtain ⟨ns, hr, hwait⟩ := h.list
  have htail := h.tail
  have hlt := h.tail_lt
  rw [hx] at htail hwait
  simp only [List.length_cons] at htail
  cases ns with
  | nil => cases hwait
  | cons n ns =>
    simp only [List.map_cons, List.zipIdx_cons, List.cons.injEq, Prod.mk.injEq] at hwait
    obtain ⟨⟨rfl, rfl⟩, hrest⟩ := hwait
    obtain ⟨splits_, hs, hr'⟩ := hr.erase_at (Nat.le_succ 0)
    have hbegin := hr.begin_
    have hat := hr.at_ 1
    refine ⟨rfl, ?_, { q with splits_, head_ := q.head_ + 1 }, ?_, ⟨ns, hr', hrest⟩, h.next, ?_,
      hlt⟩
    · rw [hbegin]
      exact hr.data n List.mem_cons_self
    · simp only [DynamicQueue.eraseFront, hat, hbegin, Option.bind_eq_bind, Option.bind_some, hs,
        wordAdd_of_lt (show q.head_ + 1 < sizeMod by omega)]
    · show q.tail_ = q.head_ + 1 + rest.length
      omega

theorem head (h : Holds q s) {e : α × Nat} {rest : List (α × Nat)} (hx : s.waiting = e :: rest) :
    qtok q.head_ = some q.head_ := by
  have htail := h.tail
  have hlt := h.tail_lt
  rw [hx, List.length_cons] at htail
  exact qtok_of_lt (by omega)

/-- **One call.** It returns, with the reply of the elements that wait. -/
theorem call (h : Holds q s) {c : Call α} (hf : q.Fresh c) (hr : q.Room c) :
    ∃ q', q.call c = some ((s.answer c).1, q') ∧ Holds q' (s.answer c).2 := by
  cases c with
  | emplace v entry =>
    obtain ⟨hentry, hw⟩ := hr
    obtain ⟨p, rfl⟩ := Option.isSome_iff_exists.mp hentry
    exact h.emplace hf hw
  | popValue =>
    cases hx : s.waiting with
    | nil =>
      have h0 : ¬ 0 < q.splits_.length_ := by simp [h.length, hx]
      refine ⟨q, ?_, ?_⟩
      · simp only [DynamicQueue.call, popValue, if_neg h0, Fifo.answer, hx]
        rfl
      · obtain ⟨waiting, next⟩ := s
        obtain rfl : waiting = [] := hx
        exact h
    | cons e rest =>
      obtain ⟨x, tok⟩ := e
      have hpos : 0 < q.splits_.length_ := by simp [h.length, hx]
      obtain ⟨rfl, hval, q', he, hq'⟩ := h.eraseFront hx
      obtain ⟨front, hfront, hdata⟩ := Option.bind_eq_some_iff.mp hval
      refine ⟨q', ?_, ?_⟩
      · simp only [DynamicQueue.call, popValue, if_pos hpos, h.head hx, hfront, hdata, he,
          Option.bind_eq_bind, Option.bind_some, Fifo.answer, hx]
        rfl
      · simp only [Fifo.answer, hx]
        exact hq'
  | pop =>
    cases hx : s.waiting with
    | nil =>
      have h0 : ¬ 0 < q.splits_.length_ := by simp [h.length, hx]
      refine ⟨q, ?_, ?_⟩
      · simp only [DynamicQueue.call, DynamicQueue.pop, if_neg h0, Fifo.answer, hx]
        rfl
      · obtain ⟨waiting, next⟩ := s
        obtain rfl : waiting = [] := hx
        exact h
    | cons e rest =>
      obtain ⟨x, tok⟩ := e
      have hpos : 0 < q.splits_.length_ := by simp [h.length, hx]
      obtain ⟨rfl, -, q', he, hq'⟩ := h.eraseFront hx
      refine ⟨q', ?_, ?_⟩
      · simp only [DynamicQueue.call, DynamicQueue.pop, if_pos hpos, h.head hx, he,
          Option.bind_eq_bind, Option.bind_some, Fifo.answer, hx]
        rfl
      · simp only [Fifo.answer, hx]
        exact hq'

end Holds

/-! ## Runs of all threads -/

variable {ι : Type*}

/-- A queue and the replies it has given, each to the thread that called. -/
abbrev Answered (α : Type) := Traced (DynamicQueue α) (Reply α)

def step : Answered α → ι × Call α → Option (Answered α) := Traced.step fun q l => q.call l.2

def FreshCall (u : Answered α) (l : ι × Call α) : Prop := u.state.Fresh l.2

def Guarded (u : Answered α) (l : ι × Call α) : Prop := u.state.Fresh l.2 ∧ u.state.Room l.2

instance (u : Answered α) (l : ι × Call α) : Decidable (FreshCall u l) :=
  inferInstanceAs (Decidable (u.state.Fresh l.2))

instance (u : Answered α) (l : ι × Call α) : Decidable (Guarded u l) :=
  inferInstanceAs (Decidable (_ ∧ _))

/-- What the calls `ls` are meant to have done: the elements left in the order
they entered, under the tokens they entered with, null was returned when none
was left, and the counters, the list and `GetSize` agree. -/
structure InOrder (ls : List (ι × Call α)) (u : Answered α) : Prop where
  replies : u.replies = (Traced.replay (fun s (l : ι × Call α) => Fifo.answer s l.2) {} ls).replies
  counters : wordSub sizeMod u.state.tail_ u.state.head_ = u.state.splits_.length_
  size : u.state.getSize = u.state.splits_.length_

/-- **The queue is first in, first out.** In every order of the operations of all
threads in which each emplace has room for its entry and its token; and there
every operation returns. -/
theorem room_in_order {ls : List (ι × Call α)} {u : Answered α}
    (h : Run step Guarded ({ state := {} } : Answered α) ls u) :
    InOrder ls u ∧ ∀ l : ι × Call α, Guarded u l → (step u l).isSome := by
  obtain ⟨hrep, hholds⟩ := Traced.refines (f := id) (R := Holds)
    (g := fun s (l : ι × Call α) => Fifo.answer s l.2) (t := {}) h
    ⟨⟨[], .init, rfl⟩, rfl, rfl, Nat.two_pow_pos 64⟩ fun u s l r q' hq hok hc => by
      obtain ⟨q'', hcall, hq''⟩ := hq.call hok.1 hok.2
      rw [hcall] at hc
      cases hc
      exact ⟨rfl, hq''⟩
  have hlen := hholds.length
  have htail := hholds.tail
  refine ⟨⟨?_, ?_, ?_⟩, fun l hl => ?_⟩
  · rw [hrep, List.map_id]
  · rw [wordSub_of_le (by omega)]
    omega
  · rw [getSize, if_neg (by omega)]
    omega
  · obtain ⟨q', hcall, -⟩ := hholds.call hl.1 hl.2
    simp only [step, Traced.step, hcall, Option.map_some, Option.isSome_some]

/-- Two threads, down to the empty queue and up again. -/
theorem room_in_order_two : ∃ u : Answered Nat,
    u.replies = [.emplaced (some 0), .emplaced (some 1), .popped (some 0) (some 10),
      .popped (some 1) none, .popped none none, .emplaced (some 2)] ∧ u.state.getSize = 1 ∧
    InOrder [(0, .emplace 10 (some 7)), (1, .emplace 20 (some 8)), (1, .popValue), (0, .pop),
      (1, .popValue), (0, .emplace 30 (some 7))] u := by
  have hs : (execOk step Guarded ({ state := {} } : Answered Nat)
      [(0, .emplace 10 (some 7)), (1, .emplace 20 (some 8)), (1, .popValue), (0, .pop),
        (1, .popValue), (0, .emplace 30 (some 7))]).map (fun u => (u.replies, u.state.getSize)) =
      some ([.emplaced (some 0), .emplaced (some 1), .popped (some 0) (some 10),
        .popped (some 1) none, .popped none none, .emplaced (some 2)], 1) := by
    decide +kernel
  obtain ⟨u, hu, hv⟩ := Option.map_eq_some_iff.mp hs
  obtain ⟨hrep, hsize⟩ := Prod.mk.inj hv
  exact ⟨u, hrep, hsize, (room_in_order (run_of_execOk hu)).1⟩

/-- **A failed emplace is counted.** The token is taken before the entry is
allocated: after one emplace that throws, `GetSize` is 1 and the list is empty. -/
theorem thrown_emplace_counts : ¬ ∀ (ls : List (Nat × Call Nat)) (u : Answered Nat),
    Run step FreshCall { state := {} } ls u → InOrder ls u := by
  intro h
  have hs : (execOk step FreshCall ({ state := {} } : Answered Nat) [(0, .emplace 10 none)]).map
      (fun u => (u.state.getSize, u.state.splits_.length_)) = some (1, 0) := by
    decide +kernel
  obtain ⟨u, hu, hv⟩ := Option.map_eq_some_iff.mp hs
  obtain ⟨hsize, hlen⟩ := Prod.mk.inj hv
  have := (h _ u (run_of_execOk hu)).size
  rw [hsize, hlen] at this
  cases this

end DynamicQueue
end HermesShm.Ipc
