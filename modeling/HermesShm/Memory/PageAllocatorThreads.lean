import HermesShm.Ipc.MpscLifoOrder
import HermesShm.Memory.FallbackListInv
import HermesShm.Memory.MpPage

/-! # Freeing into another thread's page allocator

A `PageAllocator` without `MPMC`: its owner allocates, any thread frees. Pages
of a class go through the lock-free lists, larger ones through the list whose
lock is compiled out. A page keeps its size, and with it its list. -/
namespace HermesShm.Memory.PageAllocatorThreads
open HermesShm.Base HermesShm.Ipc
open Lifo (live)

variable {ι ν : Type*}

structure Shared (ν : Type*) where
  free_lists_ : Nat → MpscLifoListQueue ν := fun _ => {}
  fallback_list_ : LifoListQueue ν := {}
  next_shm_ : ν → Option ν

/-- Where a thread is: outside, in a call on a class, or in one on the large pages. -/
inductive Pc (ν : Type*)
  | idle
  | cls (i : Nat) (p : MpscLifoListQueue.Pc ν)
  | fallback (p : LifoListQueue.Pc ν)
  deriving DecidableEq

inductive Act (ν : Type*)
  | free (page : ν)
  | allocate (page_id : PageId)
  | access (spurious : Bool)

def Pc.ofCls (i : Nat) : MpscLifoListQueue.Pc ν → Pc ν
  | .idle => .idle
  | p => .cls i p

def Pc.ofFallback : LifoListQueue.Pc ν → Pc ν
  | .idle => .idle
  | p => .fallback p

def Shared.cls (s : Shared ν) (i : Nat) : MpscLifoListQueue.Shared ν :=
  ⟨s.free_lists_ i, s.next_shm_⟩

def Shared.fallback (s : Shared ν) : LifoListQueue.Shared ν := ⟨s.fallback_list_, s.next_shm_⟩

def Shared.setCls (s : Shared ν) (i : Nat) (t : MpscLifoListQueue.Shared ν) : Shared ν :=
  { s with free_lists_ := Function.update s.free_lists_ i t.queue, next_shm_ := t.next_shm_ }

def Shared.setFallback (s : Shared ν) (t : LifoListQueue.Shared ν) : Shared ν :=
  { s with fallback_list_ := t.queue, next_shm_ := t.next_shm_ }

section
variable [DecidableEq ν]

/-- A step on one class. -/
def actCls (s : Shared ν) (i : Nat) (p : MpscLifoListQueue.Pc ν) (a : MpscLifoListQueue.Act ν) :
    Option (Shared ν × Pc ν) :=
  (MpscLifoListQueue.act (s.cls i) p a).map fun r => (s.setCls i r.1, .ofCls i r.2)

/-- A step on the large pages. -/
def actFallback (page_size_ : ν → Nat) (s : Shared ν) (p : LifoListQueue.Pc ν)
    (a : LifoListQueue.Act ν) : Option (Shared ν × Pc ν) :=
  (LifoListQueue.act page_size_ s.fallback p a).map fun r => (s.setFallback r.1, .ofFallback r.2)

/-- `Free` and `AllocateMpsc` -/
def act (page_size_ : ν → Nat) (s : Shared ν) : Pc ν → Act ν → Option (Shared ν × Pc ν)
  | .idle, .free page =>
    match (PageId.ofSize (page_size_ page)).slot with
    | .cls i => actCls s i .idle (.enqueue page)
    | .fallback => actFallback page_size_ s .idle (.enqueue page)
  | .idle, .allocate page_id =>
    match page_id.slot with
    | .cls i => actCls s i .idle .dequeue
    | .fallback => actFallback page_size_ s .idle (.allocate page_id.round_)
  | .cls i p, .access spurious => actCls s i p (.access spurious)
  | .fallback p, .access _ => actFallback page_size_ s p .access
  | _, _ => none

/-! ## Threads -/

def Pc.onCls (i : Nat) : Pc ν → MpscLifoListQueue.Pc ν
  | .cls j p => if j = i then p else .idle
  | _ => .idle

def Pc.onFallback : Pc ν → LifoListQueue.Pc ν
  | .fallback p => p
  | _ => .idle

/-- What a thread's move has done to the free pages of a slot. -/
def event (p p' : Pc ν) : Slot → Option (Lifo.Event ν)
  | .cls i => MpscLifoListQueue.event (p.onCls i) (p'.onCls i)
  | .fallback => LifoListQueue.event p.onFallback p'.onFallback

/-- The threads, and for every slot the pages freed into it and handed out of it. -/
structure State (ι ν : Type*) where
  pool : Pool ι (Shared ν) (Pc ν)
  events : Slot → List (Lifo.Event ν) := fun _ => []

/-- No free pages, no thread in a call; `next` holds what the headers held before. -/
def init (ι : Type*) (next : ν → Option ν) : State ι ν :=
  { pool := ⟨{ next_shm_ := next }, fun _ => .idle⟩ }

def step [DecidableEq ι] (page_size_ : ν → Nat) (s : State ι ν) (l : ι × Act ν) :
    Option (State ι ν) :=
  (s.pool.step (act page_size_) l).map fun t =>
    { pool := t
      events := fun sl => s.events sl ++ (event (s.pool.pc l.1) (t.pc l.1) sl).toList }

/-- The page a thread is freeing. -/
def Pc.entry : Pc ν → Option ν
  | .idle => none
  | .cls _ p => p.entry
  | .fallback p => p.entry

/-- How the allocator may be used: a page is freed only while it is neither free
nor being freed, and only the owner `d` allocates. -/
def Allowed (page_size_ : ν → Nat) (d : ι) (s : State ι ν) : ι × Act ν → Prop
  | (_, .free page) => page ∉ live (s.events (PageId.ofSize (page_size_ page)).slot) ∧
      ∀ j, (s.pool.pc j).entry ≠ some page
  | (i, .allocate _) => i = d
  | (_, .access _) => True

/-- The condition on a step: it is allowed, and an access to the list of large
pages finds what it was computed from. -/
def Guarded (page_size_ : ν → Nat) (d : ι) (s : State ι ν) (l : ι × Act ν) : Prop :=
  Allowed page_size_ d s l ∧
    LifoListQueue.Current s.pool.shared.fallback (s.pool.pc l.1).onFallback

instance [Fintype ι] [DecidableEq ι] (page_size_ : ν → Nat) (d : ι) (s : State ι ν) :
    ∀ l, Decidable (Allowed page_size_ d s l)
  | (_, .free _) => inferInstanceAs (Decidable (_ ∧ _))
  | (_, .allocate _) => inferInstanceAs (Decidable (_ = _))
  | (_, .access _) => isTrue trivial

instance [Fintype ι] [DecidableEq ι] (page_size_ : ν → Nat) (d : ι) (s : State ι ν)
    (l : ι × Act ν) : Decidable (Guarded page_size_ d s l) :=
  inferInstanceAs (Decidable (_ ∧ _))

/-! ## What is promised -/

def Shared.tail (s : Shared ν) : Slot → Option ν
  | .cls i => (s.free_lists_ i).tail_shm_
  | .fallback => s.fallback_list_.tail_shm_

/-- The pages of a list, from a place on. -/
def Shared.Pages (s : Shared ν) (pos : Option ν) (ps : List ν) : Prop :=
  Chain (fun n => some (s.next_shm_ n)) pos ps none

/-- `fallback_list_->begin()` -/
def Shared.begin_ (s : Shared ν) : Option ν :=
  if s.fallback_list_.length_ = 0 then none else s.fallback_list_.tail_shm_

structure Sound (page_size_ : ν → Nat) (s : State ι ν) : Prop where
  /-- A page is freed into the slot of its size. -/
  home : ∀ sl n, .push n ∈ s.events sl → (PageId.ofSize (page_size_ n)).slot = sl
  /-- It is handed out once at most for each free. -/
  once : ∀ sl n, (s.events sl).count (.pop n) ≤ (s.events sl).count (.push n)
  /-- Freed more often than handed out, it is in its list. -/
  kept : ∀ sl n, (s.events sl).count (.pop n) < (s.events sl).count (.push n) →
    ∃ ps, s.pool.shared.Pages (s.pool.shared.tail sl) ps ∧ n ∈ ps
  /-- With no call on it under way, iterating `fallback_list_` visits `length_` pages. -/
  iterates : (∀ i, (s.pool.pc i).onFallback = .idle) →
    ∃ ps, s.pool.shared.Pages s.pool.shared.begin_ ps ∧
      ps.length = s.pool.shared.fallback_list_.length_

end
end HermesShm.Memory.PageAllocatorThreads
