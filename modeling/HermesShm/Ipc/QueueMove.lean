import HermesShm.Base.Chain
import HermesShm.Base.Transition
import HermesShm.Base.Word
import Mathlib.Data.Fintype.Basic
import Mathlib.Data.List.Perm.Basic

/-! # Queue objects that are moved

`lifo_list_queue`, `mpsc_lifo_list_queue` and `spsc_fifo_list_queue` link nodes
that their callers own. Here are any number of queue objects of one class and one
allocator, filled, emptied and moved by calls that run one after the other. -/
namespace HermesShm.Ipc.QueueMove
open HermesShm.Base

/-- `size_t` is 64 bits wide. -/
def sizeT : Nat := 2 ^ 64

/-- An offset that is not null; the null offset has all bits set. -/
abbrev Offset := Fin (2 ^ 64 - 1)

/-- `next_shm_` of every node; `none` is the null offset. -/
abbrev Links := Offset → Option Offset

/-- The members of a queue class. A call that follows a null pointer has no result. -/
structure Members (Q : Type) where
  /-- After `shm_init`. -/
  new : Q
  enqueue : Links → Q → Offset → Option (Links × Q)
  /-- The node, `none` for a null token. -/
  dequeue : Links → Q → Option (Option Offset × Q)
  size : Q → Nat
  setNull : Q → Q
  /-- `begin()`, in a class that has iterators. -/
  begin_ : Option (Q → Option Offset)

/-- Move construction from a queue of the same allocator and move assignment: the
object is copied byte for byte. The new object and what is left of the old one. -/
def Members.move {Q : Type} (c : Members Q) (other : Q) : Q × Q := (other, c.setNull other)

/-- The nodes that an iterator at `pos` visits, for at most `fuel` of them. -/
def walk (next_shm_ : Links) : Nat → Option Offset → Option (List Offset)
  | _, none => some []
  | 0, some _ => none
  | fuel + 1, some entry => (walk next_shm_ fuel (next_shm_ entry)).map (entry :: ·)

/-! ## `lifo_list_queue` -/

structure LifoListQueue where
  tail_shm_ : Option Offset := none
  length_ : Nat := 0

namespace LifoListQueue

def enqueue (next_shm_ : Links) (q : LifoListQueue) (entry : Offset) :
    Option (Links × LifoListQueue) :=
  some (Function.update next_shm_ entry q.tail_shm_,
    { tail_shm_ := some entry, length_ := wordAdd sizeT q.length_ 1 })

def dequeue (next_shm_ : Links) (q : LifoListQueue) : Option (Option Offset × LifoListQueue) :=
  if q.length_ = 0 then some (none, q)
  else q.tail_shm_.map fun val =>
    (some val, { tail_shm_ := next_shm_ val, length_ := wordSub sizeT q.length_ 1 })

/-- `tail_shm_` stays. -/
def setNull (q : LifoListQueue) : LifoListQueue := { q with length_ := 0 }

def begin_ (q : LifoListQueue) : Option Offset := if q.length_ = 0 then none else q.tail_shm_

def members : Members LifoListQueue where
  new := {}
  enqueue := enqueue
  dequeue := dequeue
  size q := q.length_
  setNull := setNull
  begin_ := some begin_

end LifoListQueue

/-! ## `mpsc_lifo_list_queue` -/

structure MpscLifoListQueue where
  tail_shm_ : Option Offset := none
  count_ : Nat := 0

namespace MpscLifoListQueue

/-- The compare-exchange of a call on its own succeeds in the end. -/
def enqueue (next_shm_ : Links) (q : MpscLifoListQueue) (entry : Offset) :
    Option (Links × MpscLifoListQueue) :=
  some (Function.update next_shm_ entry q.tail_shm_,
    { tail_shm_ := some entry, count_ := wordAdd sizeT q.count_ 1 })

def dequeue (next_shm_ : Links) (q : MpscLifoListQueue) :
    Option (Option Offset × MpscLifoListQueue) :=
  if q.count_ = 0 then some (none, q)
  else match q.tail_shm_ with
    | none => some (none, q)
    | some val =>
      some (some val, { tail_shm_ := next_shm_ val, count_ := wordSub sizeT q.count_ 1 })

def setNull (q : MpscLifoListQueue) : MpscLifoListQueue := q

def members : Members MpscLifoListQueue where
  new := {}
  enqueue := enqueue
  dequeue := dequeue
  size q := q.count_
  setNull := setNull
  begin_ := none

end MpscLifoListQueue

/-! ## `spsc_fifo_list_queue` -/

structure SpscFifoListQueue where
  head_shm_ : Option Offset := none
  tail_shm_ : Option Offset := none
  head_ : Nat := 0
  tail_ : Nat := 0

namespace SpscFifoListQueue

def enqueue (next_shm_ : Links) (q : SpscFifoListQueue) (entry : Offset) :
    Option (Links × SpscFifoListQueue) :=
  let next_shm_ := Function.update next_shm_ entry none
  let q := { q with tail_ := wordAdd sizeT q.tail_ 1 }
  match q.head_shm_ with
  | none => some (next_shm_, { q with head_shm_ := some entry, tail_shm_ := some entry })
  | some _ => q.tail_shm_.map fun tail =>
      (Function.update next_shm_ tail (some entry), { q with tail_shm_ := some entry })

def size (q : SpscFifoListQueue) : Nat := if q.tail_ < q.head_ then 0 else q.tail_ - q.head_

def dequeue (next_shm_ : Links) (q : SpscFifoListQueue) :
    Option (Option Offset × SpscFifoListQueue) :=
  if q.size = 0 then some (none, q)
  else q.head_shm_.map fun val =>
    if (next_shm_ val).isNone ∧ q.size > 1 then (none, q)
    else (some val, { q with head_shm_ := next_shm_ val, head_ := wordAdd sizeT q.head_ 1 })

def setNull (q : SpscFifoListQueue) : SpscFifoListQueue := q

def members : Members SpscFifoListQueue where
  new := {}
  enqueue := enqueue
  dequeue := dequeue
  size := size
  setNull := setNull
  begin_ := none

end SpscFifoListQueue

/-! ## The three classes -/

inductive Kind
  | lifo_list_queue
  | mpsc_lifo_list_queue
  | spsc_fifo_list_queue
  deriving DecidableEq

namespace Kind

def Queue : Kind → Type
  | lifo_list_queue => LifoListQueue
  | mpsc_lifo_list_queue => MpscLifoListQueue
  | spsc_fifo_list_queue => SpscFifoListQueue

def members : (k : Kind) → Members k.Queue
  | lifo_list_queue => LifoListQueue.members
  | mpsc_lifo_list_queue => MpscLifoListQueue.members
  | spsc_fifo_list_queue => SpscFifoListQueue.members

/-- Where a node goes among those that are to be dequeued, first out first. -/
def put : Kind → Offset → List Offset → List Offset
  | lifo_list_queue, n, ns | mpsc_lifo_list_queue, n, ns => n :: ns
  | spsc_fifo_list_queue, n, ns => ns ++ [n]

/-- The counter of an enqueue does not wrap. The other classes count nodes, of which
there are fewer than offsets. -/
def Counts : (k : Kind) → k.Queue → Prop
  | lifo_list_queue, _ | mpsc_lifo_list_queue, _ => True
  | spsc_fifo_list_queue, q => SpscFifoListQueue.tail_ q + 1 < sizeT

instance : (k : Kind) → (q : k.Queue) → Decidable (k.Counts q)
  | lifo_list_queue, _ | mpsc_lifo_list_queue, _ => isTrue trivial
  | spsc_fifo_list_queue, q => inferInstanceAs (Decidable (SpscFifoListQueue.tail_ q + 1 < sizeT))

end Kind

/-! ## Calls -/

/-- A queue object, and what its calls add up to: the nodes that are to be in it,
all that were put into it or were in the queue it was moved from, and those that
its `dequeue` has returned. No call reads the last three. -/
structure Object (k : Kind) where
  queue : k.Queue := k.members.new
  nodes : List Offset := []
  given : List Offset := []
  dequeued : List Offset := []

structure State (ι : Type*) (k : Kind) where
  next_shm_ : Links
  objects : ι → Object k

inductive Call (ι : Type*)
  | enqueue (i : ι) (entry : Offset)
  | dequeue (i : ι)
  /-- `dst` is built from `src`, or assigned from it. -/
  | move (dst src : ι)

variable {ι : Type*} {k : Kind} [DecidableEq ι]

def step (s : State ι k) : Call ι → Option (State ι k)
  | .enqueue i entry =>
    let o := s.objects i
    (k.members.enqueue s.next_shm_ o.queue entry).map fun (next_shm_, queue) =>
      { next_shm_
        objects := Function.update s.objects i
          { o with queue, nodes := k.put entry o.nodes, given := entry :: o.given } }
  | .dequeue i =>
    let o := s.objects i
    (k.members.dequeue s.next_shm_ o.queue).map fun (val, queue) =>
      { s with
        objects := Function.update s.objects i
          { o with queue, nodes := o.nodes.tail, dequeued := val.toList ++ o.dequeued } }
  | .move dst src =>
    if dst = src then some s
    else
      let o := s.objects src
      let (queue, left) := k.members.move o.queue
      some { s with
        objects := Function.update (Function.update s.objects src { queue := left }) dst
          { queue, nodes := o.nodes, given := o.nodes } }

/-- New queues; the nodes hold anything. -/
def init (ι : Type*) (k : Kind) (next_shm_ : Links) : State ι k := ⟨next_shm_, fun _ => {}⟩

/-- A node that is in a queue is not put into one again. -/
def Owned (s : State ι k) : Call ι → Prop
  | .enqueue _ entry => ∀ j, entry ∉ (s.objects j).nodes
  | .dequeue _ | .move _ _ => True

/-- What moves may be made: from a queue that is empty. -/
def Guarded (s : State ι k) : Call ι → Prop
  | .enqueue i entry => (∀ j, entry ∉ (s.objects j).nodes) ∧ k.Counts (s.objects i).queue
  | .dequeue _ => True
  | .move dst src => dst = src ∨ k.members.size (s.objects src).queue = 0

instance [Fintype ι] (s : State ι k) : ∀ l, Decidable (Owned s l)
  | .enqueue _ entry => inferInstanceAs (Decidable (∀ j, entry ∉ (s.objects j).nodes))
  | .dequeue _ | .move _ _ => isTrue trivial

instance [Fintype ι] (s : State ι k) : ∀ l, Decidable (Guarded s l)
  | .enqueue _ _ => inferInstanceAs (Decidable (_ ∧ _))
  | .dequeue _ => isTrue trivial
  | .move _ _ => inferInstanceAs (Decidable (_ ∨ _))

/-! ## What a queue promises -/

/-- The next calls on an object do what its nodes ask for. -/
structure Behaves (next_shm_ : Links) (o : Object k) : Prop where
  enqueue : ∀ entry, (k.members.enqueue next_shm_ o.queue entry).isSome
  dequeue : ∃ q, k.members.dequeue next_shm_ o.queue = some (o.nodes.head?, q)
  size : k.members.size o.queue = o.nodes.length
  iterates : ∀ begin_, k.members.begin_ = some begin_ →
    ∃ fuel, walk next_shm_ fuel (begin_ o.queue) = some o.nodes
  /-- What was put in has been dequeued, once, or is in. -/
  conserved : (o.dequeued ++ o.nodes).Perm o.given

structure Sound (s : State ι k) : Prop where
  behaves : ∀ i, Behaves s.next_shm_ (s.objects i)
  nodup : ∀ i, (s.objects i).nodes.Nodup
  apart : ∀ i j, i ≠ j → ∀ n ∈ (s.objects i).nodes, n ∉ (s.objects j).nodes

end HermesShm.Ipc.QueueMove
