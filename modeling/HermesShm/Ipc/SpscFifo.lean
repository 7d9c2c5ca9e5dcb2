import HermesShm.Base.Chain
import HermesShm.Base.Transition
import HermesShm.Base.Word
import Mathlib.Data.List.Basic

/-! # The single-producer single-consumer list queue

`spsc_fifo_list_queue`. A node is named by its offset, `none` is the null
offset. The counters are `nonatomic`: `fetch_add` is a load and a store. -/
namespace HermesShm.Ipc
open HermesShm.Base

structure SpscFifoListQueue (ν : Type*) where
  head_shm_ : Option ν := none
  tail_shm_ : Option ν := none
  head_ : Nat := 0
  tail_ : Nat := 0

namespace SpscFifoListQueue

variable {ν : Type*}

/-- `size_t` is 64 bits wide. -/
def sizeT : Nat := 2 ^ 64

/-- The queue and the links of all nodes. -/
structure Shared (ν : Type*) where
  queue : SpscFifoListQueue ν := {}
  next_shm_ : ν → Option ν

/-- Where the producer is, named by its next access. -/
inductive Producer (ν : Type*)
  | idle
  -- tail_.fetch_add(1)
  | loadCount (entry : ν)
  | storeCount (entry : ν) (tail : Nat)
  -- the link, by what `head_shm_` is
  | loadHead (entry : ν)
  | loadTail (entry : ν)
  | linkTail (entry tail : ν)
  | storeHead (entry : ν)
  | storeTail (entry : ν)
  deriving DecidableEq

/-- Where the consumer is; `size` is its `cur_size`. -/
inductive Consumer (ν : Type*)
  | idle
  | loadTailCount (head : Nat)
  | loadHead (size : Nat)
  | testNext (val : ν) (size : Nat)
  | loadNext (val : ν)
  | storeHead (val : ν) (next : Option ν)
  -- head_.fetch_add(1)
  | loadCount (val : ν)
  | storeCount (val : ν) (head : Nat)
  /-- A null `head_shm_` was converted and dereferenced. -/
  | fault
  deriving DecidableEq

variable [DecidableEq ν]

/-- The next access of the producer inside `enqueue`. -/
def produce (s : Shared ν) : Producer ν → Option (Shared ν × Producer ν)
  | .idle => none
  | .loadCount entry => some (s, .storeCount entry s.queue.tail_)
  | .storeCount entry tail =>
    some ({ s with queue := { s.queue with tail_ := wordAdd sizeT tail 1 } }, .loadHead entry)
  | .loadHead entry =>
    some (s, if s.queue.head_shm_.isNone then .storeHead entry else .loadTail entry)
  | .loadTail entry => s.queue.tail_shm_.map fun tail => (s, .linkTail entry tail)
  | .linkTail entry tail =>
    some ({ s with next_shm_ := Function.update s.next_shm_ tail (some entry) }, .storeTail entry)
  | .storeHead entry =>
    some ({ s with queue := { s.queue with head_shm_ := some entry } }, .storeTail entry)
  | .storeTail entry =>
    some ({ s with queue := { s.queue with tail_shm_ := some entry } }, .idle)

/-- The next access of the consumer inside `dequeue`. -/
def consume (s : Shared ν) : Consumer ν → Option (Shared ν × Consumer ν)
  | .idle | .fault => none
  | .loadTailCount head =>
    let size := if s.queue.tail_ < head then 0 else s.queue.tail_ - head
    some (s, if size = 0 then .idle else .loadHead size)
  | .loadHead size =>
    match s.queue.head_shm_ with
    | none => some (s, .fault)
    | some val => some (s, .testNext val size)
  | .testNext val size =>
    some (s, if (s.next_shm_ val).isNone ∧ size > 1 then .idle else .loadNext val)
  | .loadNext val => some (s, .storeHead val (s.next_shm_ val))
  | .storeHead val next =>
    some ({ s with queue := { s.queue with head_shm_ := next } }, .loadCount val)
  | .loadCount val => some (s, .storeCount val s.queue.head_)
  | .storeCount _ head =>
    some ({ s with queue := { s.queue with head_ := wordAdd sizeT head 1 } }, .idle)

/-! ## The two threads -/

/-- The threads, and two records of the past: the nodes linked, and the nodes
that `dequeue` took off the list. -/
structure State (ν : Type*) where
  shared : Shared ν
  producer : Producer ν := .idle
  consumer : Consumer ν := .idle
  enqueued : List ν := []
  dequeued : List ν := []

/-- A call by an idle thread, or the next access of a thread inside a call. -/
inductive Act (ν : Type*)
  | enqueue (entry : ν)
  | produce
  | dequeue
  | consume

/-- The node that a producer's access has linked. -/
def linked : Producer ν → Option ν
  | .linkTail entry _ | .storeHead entry => some entry
  | _ => none

/-- The node that a consumer's access has taken off the list. -/
def taken : Consumer ν → Option ν
  | .storeHead val _ => some val
  | _ => none

def step (s : State ν) : Act ν → Option (State ν)
  | .enqueue entry =>
    if s.producer = .idle then
      some { s with
        shared := { s.shared with next_shm_ := Function.update s.shared.next_shm_ entry none }
        producer := .loadCount entry }
    else none
  | .produce => (produce s.shared s.producer).map fun (shared, producer) =>
      { s with shared, producer, enqueued := s.enqueued ++ (linked s.producer).toList }
  | .dequeue =>
    if s.consumer = .idle then some { s with consumer := .loadTailCount s.shared.queue.head_ }
    else none
  | .consume => (consume s.shared s.consumer).map fun (shared, consumer) =>
      { s with shared, consumer, dequeued := s.dequeued ++ (taken s.consumer).toList }

/-- An empty queue; `next` holds what the nodes held before. -/
def init (next : ν → Option ν) : State ν := { shared := { next_shm_ := next } }

/-- Enqueued and not yet dequeued. -/
def State.waiting (s : State ν) : List ν := s.enqueued.diff s.dequeued

/-- How the queue may be used: a node is enqueued only while it is not in the queue. -/
def Allowed (s : State ν) : Act ν → Prop
  | .enqueue entry => entry ∉ s.waiting
  | _ => True

/-- The node in `tail_` is not linked yet. -/
def Producer.Counted : Producer ν → Prop
  | .loadHead _ | .loadTail _ | .linkTail _ _ | .storeHead _ => True
  | _ => False

/-- The producer has seen a list that is not empty. -/
def Producer.SawHead : Producer ν → Prop
  | .loadTail _ | .linkTail _ _ => True
  | _ => False

/-- The condition on a step: `dequeue` does not load `head_shm_` while an enqueue
has counted its node but not yet put it into an empty list; and it does not
empty the list while an enqueue links, or has linked, a node to the one taken. -/
def Orderly (s : State ν) : Act ν → Prop
  | .consume =>
    match s.consumer with
    | .loadHead _ => ¬ (s.shared.queue.head_shm_ = none ∧ s.producer.Counted)
    | .storeHead val none => s.shared.next_shm_ val = none ∧ ¬ s.producer.SawHead
    | _ => True
  | _ => True

def Guarded (s : State ν) (a : Act ν) : Prop := Allowed s a ∧ Orderly s a

/-- What the queue promises in a state. -/
structure Sound (s : State ν) : Prop where
  /-- Once at most and in order: what was dequeued comes first in what was enqueued. -/
  fifo : s.enqueued = s.dequeued ++ s.waiting
  reachable : Chain (fun n => some (s.shared.next_shm_ n)) s.shared.queue.head_shm_ s.waiting none
  noFault : s.consumer ≠ .fault

end SpscFifoListQueue
end HermesShm.Ipc
