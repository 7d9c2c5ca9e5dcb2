import HermesShm.Memory.StackAllocator

/-! # The thread-local allocator

A `PageAllocator` with a local heap for each thread id, over the heap of an internal
stack allocator. Every operation is atomic and has the id that `GetOrCreateTid`
returns. Addresses are offsets from the allocator's buffer. -/
namespace HermesShm.Memory
open HermesShm.Base MpPage

def PageAllocator.localHeapSize : Nat := 1024

/-- The constructor, which takes the local heap from the stack allocator. -/
def PageAllocator.construct (alloc : StackAllocator.State) :
    Option (PageAllocator × StackAllocator.State) := do
  let (off, alloc) ← StackAllocator.allocateOffset alloc localHeapSize
  some ({ heap_ := .shmInit off localHeapSize }, alloc)

namespace ThreadLocalAllocator

structure State where
  /-- The buffer of `alloc_`. -/
  buf : Nat
  mem : ByteMem
  /-- The heap of `alloc_`. -/
  heap_ : HeapAllocator
  max_threads : Nat
  tls_ : Nat → PageAllocator
  /-- The elements of `tls_` and of `free_tids_`, as offsets of `alloc_`. -/
  tls_vec : Nat
  free_tids_vec : Nat
  total_alloc_ : Nat := 0
  /-- The blocks in use; no operation reads it. -/
  live : List Block := []
  /-- The threads and pages of the requests that local heaps served; no operation reads it. -/
  local_pages : List (Nat × Nat) := []

/-- The elements of `tls_`, in order. -/
def constructTls :
    Nat → StackAllocator.State → Option ((Nat → PageAllocator) × StackAllocator.State)
  | 0, alloc => some (fun _ => {}, alloc)
  | n + 1, alloc => do
    let (tls_, alloc) ← constructTls n alloc
    let (page_alloc, alloc) ← PageAllocator.construct alloc
    some (Function.update tls_ n page_alloc, alloc)

/-- `page_alloc_size` is the size of an element of `tls_`, `max_threads` is positive. -/
def shmInit (b : Backend) (page_alloc_size max_threads : Nat) (mem : ByteMem) : Option State := do
  let alloc := StackAllocator.shmInit b.stack_header (b.data_size_ - b.region_off)
    fun x => mem (b.region_off + x)
  let (tls_vec, alloc) ← StackAllocator.allocateOffset alloc (max_threads * page_alloc_size % sizeT)
  let (tls_, alloc) ← constructTls max_threads alloc
  let (free_tids_vec, alloc) ← StackAllocator.allocateOffset alloc (max_threads * 8 % sizeT)
  some {
    buf := b.region_off
    mem := fun x => if x < b.region_off then mem x else alloc.mem (x - b.region_off)
    heap_ := alloc.heap_.align
    max_threads, tls_, tls_vec, free_tids_vec }

/-- No result past the end of the vector. -/
def pageAlloc (s : State) (tid : Nat) : Option PageAllocator :=
  if tid < s.max_threads then some (s.tls_ tid) else none

def setPageAlloc (s : State) (tid : Nat) (page_alloc : PageAllocator) : State :=
  { s with tls_ := Function.update s.tls_ tid page_alloc }

/-- The header of a page from a heap. -/
def setHeader (s : State) (tid : Nat) (page_id : PageId) (page : Nat) : State :=
  { s with mem := page_size_.set (tid_.set s.mem page tid) page page_id.round_ }

/-- "Case 2" of `AllocateOffset`: the thread's heap. Its offset is one of `alloc_`,
converted with the buffer of this allocator. -/
def allocateHeap (s : State) (tid : Nat) (page_id : PageId) : Option Nat × State :=
  let (page, page_alloc) := (s.tls_ tid).allocateHeap page_id
  let s := setPageAlloc s tid page_alloc
  match page with
  | some page =>
    (some page, setHeader { s with local_pages := (tid, page) :: s.local_pages } tid page_id page)
  | none => (none, s)

/-- "Case 3": the heap of `alloc_`. -/
def subAllocate (s : State) (tid : Nat) (page_id : PageId) : Option Nat × State :=
  let (off, heap_) := s.heap_.allocateOffset page_id.round_
  let s := { s with heap_ }
  match off with
  | some off =>
    let page := wordAdd sizeT s.buf off
    (some page, setHeader s tid page_id page)
  | none => (none, s)

/-- "Mark as allocated" -/
def markAllocated (s : State) (page_id : PageId) (page : Nat) : State :=
  { s with
    mem := setAllocated s.mem page
    total_alloc_ := wordAdd sizeT s.total_alloc_ page_id.round_ }

/-- A page that is used again keeps its size. -/
def allocateOffset (s : State) (tid size : Nat) : Option (Except Error Nat × State) := do
  let page_id := requestId size
  let page_alloc ← pageAlloc s tid
  let (page, mem, page_alloc) ← page_alloc.allocate s.buf s.mem page_id
  let s := setPageAlloc { s with mem } tid page_alloc
  let (page, s) := match page with
    | some page => (some page, s)
    | none => match allocateHeap s tid page_id with
      | (some page, s) => (some page, s)
      | (none, s) => subAllocate s tid page_id
  match page with
  | none => some (.error (.outOfMemory size s.total_alloc_), s)
  | some page => some (.ok (page + mpPage), markAllocated s page_id page)

def freeOffsetNoNullCheck (s : State) (p : Nat) : Option (Except Error State) :=
  let hdr := p - mpPage
  if !isAllocated s.mem hdr then some (.error (.doubleFree (some (page_size_.get s.mem hdr))))
  else do
    let mem := unsetAllocated s.mem hdr
    let total_alloc_ := wordSub sizeT s.total_alloc_ (page_size_.get mem hdr)
    let tid := tid_.get mem hdr
    let page_alloc ← pageAlloc s tid
    let (mem, page_alloc) := page_alloc.free s.buf mem hdr
    some (.ok (setPageAlloc { s with mem, total_alloc_ } tid page_alloc))

def reallocateOffsetNoNullCheck (s : State) (tid p new_size : Nat) :
    Option (Except Error Nat × State) := do
  match ← allocateOffset s tid new_size with
  | (.error e, s) => some (.error e, s)
  | (.ok new_p, s) =>
    let n := wordSub sizeT (page_size_.get s.mem (p - mpPage)) mpPage
    let s := { s with mem := s.mem.copy new_p p n }
    match ← freeOffsetNoNullCheck s p with
    | .error e => some (.error e, s)
    | .ok s => some (.ok new_p, s)

/-! ## Runs -/

/-- A call by the thread `tid`. -/
def step (s : State) : Nat × Op → Option State
  | (tid, .allocate size) => do
    match ← allocateOffset s tid size with
    | (.error _, s) => some s
    | (.ok p, s) => some { s with live := ⟨p, size⟩ :: s.live }
  | (_, .free p) => do
    match ← freeOffsetNoNullCheck s p with
    | .error _ => some s
    | .ok s => some { s with live := dropBlock s.live p }
  | (tid, .reallocate p new_size) => do
    match ← reallocateOffsetNoNullCheck s tid p new_size with
    | (.error _, s) => some s
    | (.ok new_p, s) => some { s with live := ⟨new_p, new_size⟩ :: dropBlock s.live p }
  | (_, .write x byte) => some { s with mem := Function.update s.mem x byte }

/-- The free page that a request finds. -/
def freePage (s : State) (tid size : Nat) : Option Nat :=
  (((s.tls_ tid).allocate s.buf s.mem (requestId size)).map Prod.fst).join

/-- A size and a thread of the vector, and no overflow of the heap counter if the
request comes to the heap. -/
def Request (s : State) (tid size : Nat) : Prop :=
  1 ≤ size ∧ size < sizeT ∧ tid < s.max_threads ∧
    (freePage s tid size = none → s.heap_.heap_off_ + (requestId size).round_ < sizeT)

def Live (s : State) (p : Nat) : Prop := ∃ b ∈ s.live, b.off = p

def Legal (s : State) : Nat × Op → Prop
  | (tid, .allocate size) => Request s tid size
  | (_, .free p) => Live s p
  | (tid, .reallocate p new_size) => Live s p ∧ Request s tid new_size
  | (_, .write x _) => ∃ b ∈ s.live, b.off ≤ x ∧ x < b.off + capacity s.mem b.off

instance (s : State) (p : Nat) : Decidable (Live s p) := by unfold Live; infer_instance

instance (s : State) (tid size : Nat) : Decidable (Request s tid size) := by
  unfold Request
  infer_instance

instance (s : State) (op : Nat × Op) : Decidable (Legal s op) :=
  match op with
  | (tid, .allocate size) => inferInstanceAs (Decidable (Request s tid size))
  | (_, .free p) => inferInstanceAs (Decidable (Live s p))
  | (tid, .reallocate p new_size) => inferInstanceAs
    (Decidable (Live s p ∧ Request s tid new_size))
  | (_, .write x _) => inferInstanceAs (Decidable (∃ b ∈ s.live, b.off ≤ x ∧ x < b.off + _))

/-- The request finds a free page, is larger than the classes, or does not fit the
thread's local heap. -/
def PastLocalHeap (s : State) (tid size : Nat) : Prop :=
  freePage s tid size = none → (requestId size).exp_ < PageId.num_caches_ →
    (s.tls_ tid).heap_.heap_size_ <
      wordAdd sizeT (s.tls_ tid).heap_.heap_off_ (requestId size).round_

/-- The size of the free page that a request finds, or of a new one. -/
def servedSize (s : State) (tid size : Nat) : Nat :=
  ((freePage s tid size).map (page_size_.get s.mem)).getD (requestId size).round_

/-- The block at `p` is not longer than the one that a request gets. -/
def Grows (s : State) (tid p new_size : Nat) : Prop :=
  page_size_.get s.mem (p - mpPage) ≤ servedSize s tid new_size

def Guarded (s : State) : Nat × Op → Prop
  | (tid, .allocate size) => Request s tid size ∧ NoWrap size ∧ PastLocalHeap s tid size
  | (tid, .reallocate p new_size) => Live s p ∧ Request s tid new_size ∧ NoWrap new_size ∧
      PastLocalHeap s tid new_size ∧ Grows s tid p new_size
  | op => Legal s op

instance (s : State) (tid size : Nat) : Decidable (PastLocalHeap s tid size) :=
  inferInstanceAs (Decidable (_ → _ → _))

instance (s : State) (tid p new_size : Nat) : Decidable (Grows s tid p new_size) :=
  inferInstanceAs (Decidable (_ ≤ _))

instance (s : State) (op : Nat × Op) : Decidable (Guarded s op) :=
  match op with
  | (tid, .allocate size) => inferInstanceAs
    (Decidable (Request s tid size ∧ NoWrap size ∧ PastLocalHeap s tid size))
  | (tid, .reallocate p new_size) => inferInstanceAs
    (Decidable (Live s p ∧ Request s tid new_size ∧ NoWrap new_size ∧
      PastLocalHeap s tid new_size ∧ Grows s tid p new_size))
  | (tid, .free p) => inferInstanceAs (Decidable (Legal s (tid, .free p)))
  | (tid, .write x byte) => inferInstanceAs (Decidable (Legal s (tid, .write x byte)))

end ThreadLocalAllocator
end HermesShm.Memory
