import HermesShm.Base.Chain
import HermesShm.Base.Lifo
import HermesShm.Base.Pool
import Mathlib.Tactic.Common

/-! # The list of large pages, without its lock

`lifo_list_queue` as a `PageAllocator` with `MPMC = false` uses it: any thread
enqueues, the owner walks it in `AllocateMpsc` and takes a page out, and no lock
orders the loads and stores. -/
namespace HermesShm.Memory
open HermesShm.Base
open Lifo (live PopsLive)

/-- `length_` is an integer here, so that it could be seen to go below zero. -/
structure LifoListQueue (ν : Type*) where
  tail_shm_ : Option ν := none
  length_ : Int := 0

namespace LifoListQueue

variable {ι ν : Type*}

structure Shared (ν : Type*) where
  queue : LifoListQueue ν := {}
  next_shm_ : ν → Option ν := fun _ => none

/-- Where a thread is, named by its next access. -/
inductive Pc (ν : Type*)
  | idle
  -- enqueue
  | storeNext (entry : ν) (tail : Option ν)
  | storeTail (entry : ν)
  | loadLength
  | storeLength (length : Int)
  -- AllocateMpsc: `begin()` past its test, then `++it`
  | begin (round : Nat)
  | advance (round : Nat) (entry : ν)
  -- `dequeue(it)` of the first entry, which is `dequeue()`
  | popSize (page : ν)
  | popTail (page : ν)
  | popNext (page val : ν)
  | popStore (page val : ν) (next : Option ν)
  -- `dequeue(it)` of an entry with a prior one
  | unlinkNext (prior page : ν)
  | unlinkStore (prior page : ν) (next : Option ν)
  -- `--length_`
  | downLoad (page : ν)
  | downStore (page : ν) (length : Int)
  deriving DecidableEq

inductive Act (ν : Type*)
  | enqueue (entry : ν)
  | allocate (round : Nat)
  | access

/-- The loop of `AllocateMpsc` at an entry: end, take it, or go on. -/
def look (page_size_ : ν → Nat) (round : Nat) (prior : Option ν) : Option ν → Pc ν
  | none => .idle
  | some page =>
    if page_size_ page ≥ round then
      match prior with
      | none => .popSize page
      | some prior => .unlinkNext prior page
    else .advance round page

variable [DecidableEq ν]

/-- The next access of a thread inside a call; a null tail has no entry to pop. -/
def access (page_size_ : ν → Nat) (s : Shared ν) : Pc ν → Option (Shared ν × Pc ν)
  | .idle => none
  | .storeNext entry tail =>
    some ({ s with next_shm_ := Function.update s.next_shm_ entry tail }, .storeTail entry)
  | .storeTail entry =>
    some ({ s with queue := { s.queue with tail_shm_ := some entry } }, .loadLength)
  | .loadLength => some (s, .storeLength s.queue.length_)
  | .storeLength length => some ({ s with queue := { s.queue with length_ := length + 1 } }, .idle)
  | .begin round => some (s, look page_size_ round none s.queue.tail_shm_)
  | .advance round entry => some (s, look page_size_ round (some entry) (s.next_shm_ entry))
  | .popSize page => some (s, if s.queue.length_ = 0 then .idle else .popTail page)
  | .popTail page => s.queue.tail_shm_.map fun val => (s, .popNext page val)
  | .popNext page val => some (s, .popStore page val (s.next_shm_ val))
  | .popStore page _ next =>
    some ({ s with queue := { s.queue with tail_shm_ := next } }, .downLoad page)
  | .unlinkNext prior page => some (s, .unlinkStore prior page (s.next_shm_ page))
  | .unlinkStore prior page next =>
    some ({ s with next_shm_ := Function.update s.next_shm_ prior next }, .downLoad page)
  | .downLoad page => some (s, .downStore page s.queue.length_)
  | .downStore _ length => some ({ s with queue := { s.queue with length_ := length - 1 } }, .idle)

def act (page_size_ : ν → Nat) (s : Shared ν) : Pc ν → Act ν → Option (Shared ν × Pc ν)
  | .idle, .enqueue entry => some (s, .storeNext entry s.queue.tail_shm_)
  | .idle, .allocate round => some (s, if s.queue.length_ = 0 then .idle else .begin round)
  | p, .access => access page_size_ s p
  | _, _ => none

/-- A page freed into the list, or handed out by `AllocateMpsc`, by a thread's move. -/
def event : Pc ν → Pc ν → Option (Lifo.Event ν)
  | .storeTail entry, _ => some (.push entry)
  | .popSize page, .idle | .popStore page _ _, _ | .unlinkStore _ page _, _ => some (.pop page)
  | _, _ => none

/-- The store that comes next was computed from what is still there, and the
entry that `dequeue()` pops is the one the walk stopped at. -/
def Current (s : Shared ν) : Pc ν → Prop
  | .storeTail entry => s.next_shm_ entry = s.queue.tail_shm_
  | .popTail page => s.queue.tail_shm_ = some page
  | .popStore _ val _ => s.queue.tail_shm_ = some val
  | .storeLength length | .downStore _ length => s.queue.length_ = length
  | _ => True

instance (s : Shared ν) : ∀ p, Decidable (Current s p)
  | .storeTail _ | .popTail _ | .popStore _ _ _ => inferInstanceAs (Decidable (_ = _))
  | .storeLength _ | .downStore _ _ => inferInstanceAs (Decidable (_ = _))
  | .idle | .storeNext _ _ | .loadLength | .begin _ | .advance _ _ | .popSize _ | .popNext _ _
  | .unlinkNext _ _ | .unlinkStore _ _ _ | .downLoad _ => isTrue trivial

/-! ## What a program point says -/

/-- The page a thread is putting into the list. -/
def Pc.entry : Pc ν → Option ν
  | .storeNext n _ | .storeTail n => some n
  | _ => none

/-- Inside `AllocateMpsc`. -/
def Pc.Takes : Pc ν → Prop
  | .idle | .storeNext _ _ | .storeTail _ | .loadLength | .storeLength _ => False
  | _ => True

/-- An enqueue that has linked but not counted. -/
def Pc.Linked : Pc ν → Prop
  | .loadLength | .storeLength _ => True
  | _ => False

/-- A removal that has unlinked but not counted. -/
def Pc.Unlinked : Pc ν → Prop
  | .downLoad _ | .downStore _ _ => True
  | _ => False

/-- What one thread's program point asserts, with `ns` the pages of the list. -/
def Pc.Ok (s : Shared ν) (ns : List ν) : Pc ν → Prop
  | .idle | .loadLength | .storeLength _ => True
  | .storeNext n _ | .storeTail n => n ∉ ns
  | .begin _ | .downLoad _ | .downStore _ _ => 1 ≤ s.queue.length_
  | .advance _ entry | .popSize entry | .popTail entry => 1 ≤ s.queue.length_ ∧ entry ∈ ns
  | .popNext page val => 1 ≤ s.queue.length_ ∧ page ∈ ns ∧ val = page
  | .popStore page val next =>
    1 ≤ s.queue.length_ ∧ page ∈ ns ∧ val = page ∧ s.next_shm_ page = next
  | .unlinkNext prior page =>
    1 ≤ s.queue.length_ ∧ page ∈ ns ∧ prior ∈ ns ∧ s.next_shm_ prior = some page
  | .unlinkStore prior page next =>
    1 ≤ s.queue.length_ ∧ page ∈ ns ∧ prior ∈ ns ∧ s.next_shm_ prior = some page ∧
      s.next_shm_ page = next

end LifoListQueue
end HermesShm.Memory
