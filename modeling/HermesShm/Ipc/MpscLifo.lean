import HermesShm.Base.Chain
import HermesShm.Base.Lifo
import HermesShm.Base.Pool
import HermesShm.Base.Transition

/-! # The lock-free free list

`mpsc_lifo_list_queue`: any thread enqueues, one dequeues. A node is named by
its offset, `none` is the null offset, and `next_shm_` belongs to the nodes, so
that it is passed beside the list. -/
namespace HermesShm.Ipc
open HermesShm.Base

/-- `count_` is an integer here, so that it could be seen to go below zero. -/
structure MpscLifoListQueue (ν : Type*) where
  tail_shm_ : Option ν := none
  count_ : Int := 0

namespace MpscLifoListQueue

variable {ν : Type*}

/-- The list and the links of all nodes. -/
structure Shared (ν : Type*) where
  queue : MpscLifoListQueue ν := {}
  next_shm_ : ν → Option ν := fun _ => none

/-- Where a thread is, named by its next access; `next` is `next_tail`. -/
inductive Pc (ν : Type*)
  | idle
  -- enqueue
  | loadTail (entry : ν)
  | storeNext (entry : ν) (tail_shm : Option ν)
  | casTail (entry : ν) (tail_shm : Option ν)
  | countUp
  -- dequeue
  | popTail
  | popNext (val : ν)
  | popCas (val : ν) (next : Option ν)
  | countDown (val : ν)
  deriving DecidableEq

/-- An idle thread calls `enqueue` or `dequeue`; any other thread makes its next
access, where `spurious` lets a weak compare-exchange fail on an equal value. -/
inductive Act (ν : Type*)
  | enqueue (entry : ν)
  | dequeue
  | access (spurious : Bool)

variable [DecidableEq ν]

/-- The next access of a thread inside a call. -/
def access (s : Shared ν) (spurious : Bool) : Pc ν → Option (Shared ν × Pc ν)
  | .idle => none
  | .loadTail entry => some (s, .storeNext entry s.queue.tail_shm_)
  | .storeNext entry tail =>
    some ({ s with next_shm_ := Function.update s.next_shm_ entry tail }, .casTail entry tail)
  | .casTail entry tail =>
    if s.queue.tail_shm_ = tail ∧ spurious = false then
      some ({ s with queue := { s.queue with tail_shm_ := some entry } }, .countUp)
    else some (s, .loadTail entry)
  | .countUp => some ({ s with queue := { s.queue with count_ := s.queue.count_ + 1 } }, .idle)
  | .popTail =>
    match s.queue.tail_shm_ with
    | none => some (s, .idle)
    | some val => some (s, .popNext val)
  | .popNext val => some (s, .popCas val (s.next_shm_ val))
  | .popCas val next =>
    if s.queue.tail_shm_ = some val ∧ spurious = false then
      some ({ s with queue := { s.queue with tail_shm_ := next } }, .countDown val)
    else some (s, .popTail)
  | .countDown _ => some ({ s with queue := { s.queue with count_ := s.queue.count_ - 1 } }, .idle)

def act (s : Shared ν) : Pc ν → Act ν → Option (Shared ν × Pc ν)
  | .idle, .enqueue entry => some (s, .storeNext entry s.queue.tail_shm_)
  | .idle, .dequeue => some (s, if s.queue.count_ = 0 then .idle else .popTail)
  | p, .access spurious => access s spurious p
  | _, _ => none

/-! ## Threads on one list -/

/-- The compare-exchange that a thread's move has made, if it succeeded. -/
def event : Pc ν → Pc ν → Option (Lifo.Event ν)
  | .casTail entry _, .countUp => some (.push entry)
  | .popCas val _, .countDown _ => some (.pop val)
  | _, _ => none

/-- The node a call of `dequeue` is about to return. -/
def Pc.popped : Pc ν → Option ν
  | .countDown val => some val
  | _ => none

/-- The threads, and two records of the past: the compare-exchanges that
succeeded, and the nodes that `dequeue` has returned. -/
structure State (ι ν : Type*) where
  pool : Pool ι (Shared ν) (Pc ν)
  events : List (Lifo.Event ν) := []
  returned : List ν := []

/-- An empty list, no thread in it; `next` holds what the nodes held before. -/
def init (ι : Type*) (next : ν → Option ν) : State ι ν :=
  { pool := ⟨{ next_shm_ := next }, fun _ => .idle⟩ }

def step {ι : Type*} [DecidableEq ι] (s : State ι ν) (l : ι × Act ν) : Option (State ι ν) :=
  (s.pool.step act l).map fun t =>
    { pool := t
      events := s.events ++ (event (s.pool.pc l.1) (t.pc l.1)).toList
      returned := s.returned ++ (s.pool.pc l.1).popped.toList }

end MpscLifoListQueue
end HermesShm.Ipc
