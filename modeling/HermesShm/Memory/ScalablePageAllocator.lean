import HermesShm.Base.Transition
import HermesShm.Memory.Blocks

/-! # The scalable page allocator

One `PageAllocator` for all threads over the heap of an internal stack allocator.
Every operation is atomic. Addresses are offsets from the allocator's buffer. -/
namespace HermesShm.Memory
open HermesShm.Base MpPage

namespace ScalablePageAllocator

structure State where
  /-- The buffer of `alloc_`. -/
  buf : Nat
  mem : ByteMem
  /-- The heap of `alloc_`. -/
  heap_ : HeapAllocator
  global_ : PageAllocator := {}
  total_alloc_ : Nat := 0
  /-- The blocks in use; no operation reads it. -/
  live : List Block := []

def shmInit (b : Backend) (mem : ByteMem) : State :=
  { buf := b.region_off, mem, heap_ := b.heap.align }

/-- A page from the heap, "Case 3" of `AllocateOffset`. -/
def subAllocate (s : State) (page_id : PageId) : Option Nat × State :=
  let (off, heap_) := s.heap_.allocateOffset page_id.round_
  (off.map (wordAdd sizeT s.buf), { s with heap_ })

/-- "Mark as allocated" -/
def markAllocated (s : State) (page_id : PageId) (page : Nat) : State :=
  { s with
    mem := setAllocated (page_size_.set s.mem page page_id.round_) page
    total_alloc_ := wordAdd sizeT s.total_alloc_ page_id.round_ }

/-- No result where the search of the large pages does not end. -/
def allocateOffset (s : State) (size : Nat) : Option (Except Error Nat × State) := do
  let page_id := requestId size
  let (page, mem, global_) ← s.global_.allocate s.buf s.mem page_id
  let s := { s with mem, global_ }
  let (page, s) := match page with
    | some page => (some page, s)
    | none => subAllocate s page_id
  match page with
  | none => some (.error (.outOfMemory size s.total_alloc_), s)
  | some page => some (.ok (page + mpPage), markAllocated s page_id page)

def freeOffsetNoNullCheck (s : State) (p : Nat) : Except Error State :=
  let hdr := p - mpPage
  if !isAllocated s.mem hdr then .error (.doubleFree (some hdr))
  else
    let mem := unsetAllocated s.mem hdr
    let total_alloc_ := wordSub sizeT s.total_alloc_ (page_size_.get mem hdr)
    let (mem, global_) := s.global_.free s.buf mem hdr
    .ok { s with mem, global_, total_alloc_ }

def reallocateOffsetNoNullCheck (s : State) (p new_size : Nat) :
    Option (Except Error Nat × State) := do
  match ← allocateOffset s new_size with
  | (.error e, s) => some (.error e, s)
  | (.ok new_p, s) =>
    let n := wordSub sizeT (page_size_.get s.mem (p - mpPage)) mpPage
    let s := { s with mem := s.mem.copy new_p p n }
    match freeOffsetNoNullCheck s p with
    | .error e => some (.error e, s)
    | .ok s => some (.ok new_p, s)

/-! ## Runs -/

def step (s : State) : Op → Option State
  | .allocate size => do
    match ← allocateOffset s size with
    | (.error _, s) => some s
    | (.ok p, s) => some { s with live := ⟨p, size⟩ :: s.live }
  | .free p => match freeOffsetNoNullCheck s p with
    | .error _ => some s
    | .ok s => some { s with live := dropBlock s.live p }
  | .reallocate p new_size => do
    match ← reallocateOffsetNoNullCheck s p new_size with
    | (.error _, s) => some s
    | (.ok new_p, s) => some { s with live := ⟨new_p, new_size⟩ :: dropBlock s.live p }
  | .write x byte => some { s with mem := Function.update s.mem x byte }

/-- A size, whose request does not overflow the heap counter if it comes to the heap. -/
def Request (s : State) (size : Nat) : Prop :=
  1 ≤ size ∧ size < sizeT ∧
    ((s.global_.allocate s.buf s.mem (requestId size)).map Prod.fst = some none →
      s.heap_.heap_off_ + (requestId size).round_ < sizeT)

def Live (s : State) (p : Nat) : Prop := ∃ b ∈ s.live, b.off = p

/-- The calls are made with sizes and with blocks in use, and the program stores to
its blocks. -/
def Legal (s : State) : Op → Prop
  | .allocate size => Request s size
  | .free p => Live s p
  | .reallocate p new_size => Live s p ∧ Request s new_size
  | .write x _ => ∃ b ∈ s.live, b.off ≤ x ∧ x < b.off + capacity s.mem b.off

instance (s : State) (p : Nat) : Decidable (Live s p) := by unfold Live; infer_instance

instance (s : State) (size : Nat) : Decidable (Request s size) := by unfold Request; infer_instance

instance (s : State) (op : Op) : Decidable (Legal s op) :=
  match op with
  | .allocate size => inferInstanceAs (Decidable (Request s size))
  | .free p => inferInstanceAs (Decidable (Live s p))
  | .reallocate p new_size => inferInstanceAs (Decidable (Live s p ∧ Request s new_size))
  | .write x _ => inferInstanceAs (Decidable (∃ b ∈ s.live, b.off ≤ x ∧ x < b.off + _))

/-- The block at `p` is not longer than the one that a request is rounded to. -/
def Grows (s : State) (p new_size : Nat) : Prop :=
  page_size_.get s.mem (p - mpPage) ≤ (requestId new_size).round_

def Guarded (s : State) : Op → Prop
  | .allocate size => Request s size ∧ NoWrap size
  | .reallocate p new_size => Live s p ∧ Request s new_size ∧ NoWrap new_size ∧ Grows s p new_size
  | op => Legal s op

instance (s : State) (p new_size : Nat) : Decidable (Grows s p new_size) :=
  inferInstanceAs (Decidable (_ ≤ _))

instance (s : State) (op : Op) : Decidable (Guarded s op) :=
  match op with
  | .allocate size => inferInstanceAs (Decidable (Request s size ∧ NoWrap size))
  | .reallocate p new_size => inferInstanceAs
    (Decidable (Live s p ∧ Request s new_size ∧ NoWrap new_size ∧ Grows s p new_size))
  | .free p => inferInstanceAs (Decidable (Legal s (.free p)))
  | .write x byte => inferInstanceAs (Decidable (Legal s (.write x byte)))

end ScalablePageAllocator
end HermesShm.Memory
