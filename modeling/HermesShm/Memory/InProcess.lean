import HermesShm.Base.Mapping
import HermesShm.Memory.AllocatorRegistry
import HermesShm.Memory.ScalablePageAllocator
import HermesShm.Memory.StackAllocator

/-! # The allocators in a process

A process has the shared buffer at an address of its own, and keeps an object for each
allocator it is attached to and a table of them. Headers, counters and free lists are
bytes of the buffer. Every operation is atomic. -/
namespace HermesShm.Memory.InProcess
open HermesShm.Base MpPage
open AllocatorRegistry (AllocatorId Registry registerSubAllocator getAllocator)

def getWord (m : ByteMem) (a : Nat) : Nat := m.load a 8

def setWord (m : ByteMem) (a v : Nat) : ByteMem := m.store a 8 v

/-- `int_` of the union, `major_` in the lower half. -/
def idWord (id : AllocatorId) : Nat :=
  id.major_.toUInt32.toNat + 2 ^ 32 * id.minor_.toUInt32.toNat

def wordId (n : Nat) : AllocatorId :=
  ⟨(UInt32.ofNat n).toInt32, (UInt32.ofNat (n / 2 ^ 32)).toInt32⟩

/-! ## Objects of a process -/

structure MemoryBackend where
  data_ : Nat
  data_size_ : Nat

def MemoryBackend.shift (b : MemoryBackend) (offset : Nat) : MemoryBackend :=
  { data_ := wordAdd sizeT b.data_ offset, data_size_ := wordSub sizeT b.data_size_ offset }

structure Allocator where
  type_ : Nat
  id_ : AllocatorId
  buffer_ : Nat
  buffer_size_ : Nat
  custom_header_ : Nat
  deriving DecidableEq

def Allocator.convert (a : Allocator) (off : Nat) : Option Nat := ListQueue.convert a.buffer_ off

def Allocator.toOffset (a : Allocator) (ptr : Nat) : Nat := ListQueue.toShm a.buffer_ ptr

/-- `header_` and `heap_` are addresses. -/
structure StackAllocator extends Allocator where
  header_ : Nat
  heap_ : Nat
  deriving DecidableEq

structure ScalablePageAllocator extends Allocator where
  header_ : Nat
  alloc_ : StackAllocator

/-- The table of a process, with the internal allocators that it finds there. -/
abbrev Table := Registry StackAllocator

/-! ## The common header

`allocator_type_` at 0, `alloc_id_` at 8, `custom_header_size_` at 16 and `total_alloc_`
at 24. -/

def kStackAllocator : Nat := 1
def kScalablePageAllocator : Nat := 6

/-- `ConstructHeader` -/
def constructHeader (m : ByteMem) (buffer size : Nat) : ByteMem := m.store buffer size 0

def configure (m : ByteMem) (header_ : Nat) (id : AllocatorId) (type custom_header_size : Nat) :
    ByteMem :=
  let m := m.store header_ 4 type
  let m := setWord m (header_ + 8) (idWord id)
  let m := setWord m (header_ + 16) custom_header_size
  setWord m (header_ + 24) 0

def getTotal (m : ByteMem) (header_ : Nat) : Nat := getWord m (header_ + 24)

def addSize (m : ByteMem) (header_ size : Nat) : ByteMem :=
  setWord m (header_ + 24) (wordAdd sizeT (getTotal m header_) size)

def subSize (m : ByteMem) (header_ size : Nat) : ByteMem :=
  setWord m (header_ + 24) (wordSub sizeT (getTotal m header_) size)

/-! ## The heap: `region_off_`, `heap_off_`, `heap_size_` -/

namespace HeapAllocator

def shmInit (m : ByteMem) (heap region_off heap_size : Nat) : ByteMem :=
  setWord (setWord (setWord m heap region_off) (heap + 8) 0) (heap + 16) heap_size

def allocateOffset (m : ByteMem) (heap size : Nat) : Option Nat × ByteMem :=
  let off := getWord m (heap + 8)
  let m := setWord m (heap + 8) (wordAdd sizeT off size)
  if wordAdd sizeT off size > getWord m (heap + 16) then (none, m)
  else (offset? (wordAdd sizeT (getWord m heap) off), m)

end HeapAllocator

/-- What the code returns or throws. -/
inductive Out
  | offset (p : Nat)
  | done
  | error (e : Error)

/-! ## The stack allocator

The header: the common one, `heap_` at 32 and a second `total_alloc_` at 56. -/

namespace StackAllocator

/-- `sizeof(_StackAllocatorHeader)` -/
def headerSize : Nat := 64

def shmInit (id : AllocatorId) (custom_header_size : Nat) (backend : MemoryBackend) (m : ByteMem) :
    StackAllocator × ByteMem :=
  let buffer_ := backend.data_
  let header_ := buffer_
  let m := constructHeader m buffer_ headerSize
  let custom_header_ := header_ + headerSize
  let region_off := wordAdd sizeT (custom_header_ - buffer_) custom_header_size
  let region_size := wordSub sizeT backend.data_size_ region_off
  let m := configure m header_ id kStackAllocator custom_header_size
  let m := HeapAllocator.shmInit m (header_ + 32) region_off region_size
  let m := setWord m (header_ + 56) 0
  ({ type_ := kStackAllocator, id_ := id, buffer_, buffer_size_ := backend.data_size_
     custom_header_, header_, heap_ := header_ + 32 }, m)

def shmDeserialize (backend : MemoryBackend) (m : ByteMem) : StackAllocator :=
  let header_ := backend.data_
  { type_ := m.load header_ 4, id_ := wordId (getWord m (header_ + 8)), buffer_ := backend.data_
    buffer_size_ := backend.data_size_, custom_header_ := header_ + headerSize, header_
    heap_ := header_ + 32 }

def subAllocateOffset (a : StackAllocator) (m : ByteMem) (size : Nat) : Option Nat × ByteMem :=
  HeapAllocator.allocateOffset m a.heap_ size

def align (a : StackAllocator) (m : ByteMem) : ByteMem :=
  let off := getWord m (a.heap_ + 8)
  setWord m (a.heap_ + 8) (wordAdd sizeT off 4095 / 4096 * 4096)

/-- No result where the code writes to the null page of a refused request. -/
def allocateOffset (a : StackAllocator) (m : ByteMem) (size : Nat) : Option (Nat × ByteMem) := do
  let size := wordAdd sizeT size mpPage
  let (p, m) := HeapAllocator.allocateOffset m a.heap_ size
  let p ← p
  let hdr ← a.convert p
  let m := off_.set (page_size_.set (setAllocated m hdr) hdr size) hdr 0
  some (wordAdd sizeT p mpPage, addSize m a.header_ size)

def freeOffsetNoNullCheck (a : StackAllocator) (m : ByteMem) (p : Nat) :
    Option (Except Error ByteMem) := do
  let hdr ← a.convert (wordSub sizeT p mpPage)
  if !isAllocated m hdr then some (.error (.doubleFree none))
  else
    let m := unsetAllocated m hdr
    some (.ok (subSize m a.header_ (page_size_.get m hdr)))

def reallocateOffsetNoNullCheck (a : StackAllocator) (m : ByteMem) (p new_size : Nat) :
    Option (Except Error Nat × ByteMem) := do
  let src ← a.convert p
  let hdr ← a.convert (wordSub sizeT p mpPage)
  let old_size := wordSub sizeT (page_size_.get m hdr) mpPage
  let (new_p, m) ← allocateOffset a m new_size
  let dst ← a.convert new_p
  let m := m.copy dst src old_size
  match ← freeOffsetNoNullCheck a m p with
  | .error e => some (.error e, m)
  | .ok m => some (.ok new_p, m)

/-- The calls, and the stores of the program to its blocks. -/
def call (a : StackAllocator) (m : ByteMem) : Op → Option (Out × ByteMem)
  | .allocate size => (allocateOffset a m size).map fun (p, m) => (.offset p, m)
  | .free p => (freeOffsetNoNullCheck a m p).map fun
    | .error e => (.error e, m)
    | .ok m => (.done, m)
  | .reallocate p new_size => (reallocateOffsetNoNullCheck a m p new_size).map fun
    | (.error e, m) => (.error e, m)
    | (.ok q, m) => (.offset q, m)
  | .write x byte => (a.convert x).map fun ptr => (.done, Function.update m ptr byte)

end StackAllocator

/-! ## Free lists

`alloc_info_` at 0, `tail_shm_` at 8 and `count_`, or `length_`, at 16. -/

namespace ListHeader

def shmInit (m : ByteMem) (q : Nat) (alloc : Allocator) : ByteMem :=
  setWord (setWord (setWord m q (idWord alloc.id_)) (q + 8) nullOff) (q + 16) 0

def get (m : ByteMem) (q : Nat) : ListQueue :=
  { tail_shm_ := getWord m (q + 8), count_ := getWord m (q + 16) }

def set (m : ByteMem) (q : Nat) (l : ListQueue) : ByteMem :=
  setWord (setWord m (q + 8) l.tail_shm_) (q + 16) l.count_

/-- `GetAllocator` of the list, by its id in the table of the process. -/
def getAllocator (t : Table) (m : ByteMem) (q : Nat) : Option StackAllocator :=
  (AllocatorRegistry.getAllocator t (wordId (getWord m q))).map (·.ptr)

def enqueue (t : Table) (m : ByteMem) (q entry : Nat) : Option ByteMem := do
  let alloc ← getAllocator t m q
  let (m, l) := (get m q).enqueue alloc.buffer_ m entry
  some (set m q l)

def pop (t : Table) (m : ByteMem) (q : Nat) : Option (Option Nat × ByteMem) :=
  if (get m q).count_ = 0 then some (none, m)
  else do
    let alloc ← getAllocator t m q
    let (val, l) := (get m q).pop alloc.buffer_ m
    some (val, set m q l)

end ListHeader

/-! ## The mutex: `lock_` and `head_` -/

namespace Mutex

/-- No result where the lock is taken, and the call waits. -/
def lock (m : ByteMem) (a : Nat) : Option ByteMem :=
  let tkt := getWord m a
  let m := setWord m a (wordAdd sizeT tkt 1)
  if tkt = getWord m (a + 8) then some m else none

def unlock (m : ByteMem) (a : Nat) : ByteMem :=
  setWord m (a + 8) (wordAdd sizeT (getWord m (a + 8)) 1)

end Mutex

/-! ## The page allocator

The lists of 24 bytes each, with the fallback list after those of the classes, `tls_info_`
at 480, `heap_` at 496 and `lock_` at 520. -/

namespace PageAllocator

def freeList (pa i : Nat) : Nat := pa + 24 * i

def fallbackList (pa : Nat) : Nat := pa + 456

def initLists (m : ByteMem) (pa : Nat) (alloc : Allocator) : Nat → ByteMem
  | 0 => m
  | n + 1 => ListHeader.shmInit (initLists m pa alloc n) (freeList pa n) alloc

/-- The constructor, without a local heap. -/
def construct (m : ByteMem) (pa : Nat) (alloc : Allocator) : ByteMem :=
  -- `tls_info_`: no allocator, and the null thread
  let m := setWord (setWord m (pa + 480) 0) (pa + 488) (2 ^ 64 - 1)
  let m := HeapAllocator.shmInit m (pa + 496) 0 0
  let m := (setWord (setWord m (pa + 520) 0) (pa + 528) 0).store (pa + 536) 4 0
  let m := initLists m pa alloc PageId.num_caches_
  ListHeader.shmInit m (fallbackList pa) alloc

def allocateMpsc (t : Table) (m : ByteMem) (pa : Nat) (page_id : PageId) :
    Option (Option Nat × ByteMem) :=
  if page_id.exp_ < PageId.num_caches_ then ListHeader.pop t m (freeList pa page_id.exp_)
  else
    let q := fallbackList pa
    let fallback := ListHeader.get m q
    if fallback.count_ = 0 then some (none, m)
    else do
      let alloc ← ListHeader.getAllocator t m q
      match ← ListQueue.findFit alloc.buffer_ m page_id.round_ fallback.count_ none
          (fallback.begin_ alloc.buffer_) with
      | none => some (none, m)
      | some (prior, page) =>
        let (m, l) := fallback.dequeueAt alloc.buffer_ m prior page
        some (some page, ListHeader.set m q l)

def allocate (t : Table) (m : ByteMem) (pa : Nat) (page_id : PageId) :
    Option (Option Nat × ByteMem) := do
  let m ← Mutex.lock m (pa + 520)
  let (page, m) ← allocateMpsc t m pa page_id
  some (page, Mutex.unlock m (pa + 520))

/-- Only the fallback list is locked. -/
def free (t : Table) (m : ByteMem) (pa page : Nat) : Option ByteMem := do
  let page_id := PageId.ofSize (page_size_.get m page)
  if page_id.exp_ < PageId.num_caches_ then
    ListHeader.enqueue t m (freeList pa page_id.exp_) page
  else
    let m ← Mutex.lock m (pa + 520)
    let m ← ListHeader.enqueue t m (fallbackList pa) page
    some (Mutex.unlock m (pa + 520))

end PageAllocator

/-! ## The scalable page allocator

The header: the common one, a second `total_alloc_` at 32 and `global_` at 40. -/

namespace ScalablePageAllocator

/-- `sizeof(_ScalablePageAllocatorHeader)` -/
def headerSize : Nat := 584

/-- No result where registering the internal allocator throws. -/
def shmInit (id : AllocatorId) (custom_header_size : Nat) (backend : MemoryBackend) (t : Table)
    (m : ByteMem) : Option (ScalablePageAllocator × Table × ByteMem) :=
  let buffer_ := backend.data_
  let header_ := buffer_
  let m := constructHeader m buffer_ headerSize
  let custom_header_ := header_ + headerSize
  let region_off := wordAdd sizeT (custom_header_ - buffer_) custom_header_size
  let (alloc_, m) := StackAllocator.shmInit id.sub 0 (backend.shift region_off) m
  match registerSubAllocator t (some ⟨alloc_.id_, alloc_⟩) with
  | (.error _, _) => none
  | (.ok _, t) =>
    let m := configure m header_ id kScalablePageAllocator custom_header_size
    let m := setWord m (header_ + 32) 0
    let m := PageAllocator.construct m (header_ + 40) alloc_.toAllocator
    some ({ type_ := kScalablePageAllocator, id_ := id, buffer_
            buffer_size_ := backend.data_size_, custom_header_, header_, alloc_ }, t,
          alloc_.align m)

def shmDeserialize (backend : MemoryBackend) (t : Table) (m : ByteMem) :
    Option (ScalablePageAllocator × Table) :=
  let buffer_ := backend.data_
  let header_ := buffer_
  let custom_header_ := header_ + headerSize
  let region_off := wordAdd sizeT (custom_header_ - buffer_) (getWord m (header_ + 16))
  let alloc_ := StackAllocator.shmDeserialize (backend.shift region_off) m
  match registerSubAllocator t (some ⟨alloc_.id_, alloc_⟩) with
  | (.error _, _) => none
  | (.ok _, t) =>
    some ({ type_ := m.load header_ 4, id_ := wordId (getWord m (header_ + 8)), buffer_
            buffer_size_ := backend.data_size_, custom_header_, header_, alloc_ }, t)

/-- No result where the search of the large pages does not end. -/
def allocateOffset (a : ScalablePageAllocator) (t : Table) (m : ByteMem) (size : Nat) :
    Option (Except Error Nat × ByteMem) := do
  let page_id := requestId size
  let (page, m) ← PageAllocator.allocate t m (a.header_ + 40) page_id
  let (page, m) := match page with
    | some page => (some page, m)
    | none =>
      let (off, m) := a.alloc_.subAllocateOffset m page_id.round_
      (off.bind a.alloc_.convert, m)
  match page with
  | none => some (.error (.outOfMemory size (getTotal m a.header_)), m)
  | some page =>
    let m := addSize m a.header_ page_id.round_
    let p := a.toOffset page
    let m := setAllocated (page_size_.set m page page_id.round_) page
    some (.ok (wordAdd sizeT p mpPage), m)

def freeOffsetNoNullCheck (a : ScalablePageAllocator) (t : Table) (m : ByteMem) (p : Nat) :
    Option (Except Error ByteMem) := do
  let hdr ← a.convert (wordSub sizeT p mpPage)
  if !isAllocated m hdr then some (.error (.doubleFree (some hdr)))
  else
    let m := unsetAllocated m hdr
    let m := subSize m a.header_ (page_size_.get m hdr)
    let m ← PageAllocator.free t m (a.header_ + 40) hdr
    some (.ok m)

def reallocateOffsetNoNullCheck (a : ScalablePageAllocator) (t : Table) (m : ByteMem)
    (p new_size : Nat) : Option (Except Error Nat × ByteMem) := do
  match ← allocateOffset a t m new_size with
  | (.error e, m) => some (.error e, m)
  | (.ok new_p, m) =>
    let new_ptr ← a.convert new_p
    let old ← a.convert p
    let m := m.copy new_ptr old (wordSub sizeT (page_size_.get m (old - mpPage)) mpPage)
    match ← freeOffsetNoNullCheck a t m p with
    | .error e => some (.error e, m)
    | .ok m => some (.ok new_p, m)

def call (a : ScalablePageAllocator) (t : Table) (m : ByteMem) : Op → Option (Out × ByteMem)
  | .allocate size => (allocateOffset a t m size).map fun
    | (.error e, m) => (.error e, m)
    | (.ok p, m) => (.offset p, m)
  | .free p => (freeOffsetNoNullCheck a t m p).map fun
    | .error e => (.error e, m)
    | .ok m => (.done, m)
  | .reallocate p new_size => (reallocateOffsetNoNullCheck a t m p new_size).map fun
    | (.error e, m) => (.error e, m)
    | (.ok q, m) => (.offset q, m)
  | .write x byte => (a.convert x).map fun ptr => (.done, Function.update m ptr byte)

end ScalablePageAllocator

/-! ## Programs -/

/-- The blocks in use after a call. -/
def record (live : List Block) : Op → Out → List Block
  | .allocate size, .offset p => ⟨p, size⟩ :: live
  | .free p, .done => dropBlock live p
  | .reallocate p new_size, .offset q => ⟨q, new_size⟩ :: dropBlock live p
  | _, _ => live

/-- The call gives the block back, or moves it. -/
def Ends : Op → Block → Prop
  | .free p, b | .reallocate p _, b => p = b.off
  | _, _ => False

/-- The call is a store to the byte at `x`. -/
def Writes : Op → Nat → Prop
  | .write y _, x => y = x
  | _, _ => False

/-- A call leaves the blocks that it does not end or write to. -/
structure Effect (σ : ByteMem) (live : List Block) (c : Op) (o : Out) (σ' : ByteMem) : Prop where
  keeps : ∀ b ∈ live, ¬ Ends c b → b ∈ record live c o ∧ capacity σ' b.off = capacity σ b.off ∧
    ∀ x, b.off ≤ x → x < b.off + capacity σ b.off → ¬ Writes c x → σ' x = σ x
  writes : ∀ x byte, c = .write x byte → σ' x = byte

/-- A stack allocator over a buffer of `size` bytes. -/
def stackProgram (id : AllocatorId) (custom_header_size size : Nat) :
    Program Unit StackAllocator Op Out (List Block) where
  size := size
  init := fun base _ m =>
    let (a, m) := StackAllocator.shmInit id custom_header_size ⟨base, size⟩ m
    some (a, (), m)
  attach := fun base _ m => some (StackAllocator.shmDeserialize ⟨base, size⟩ m, ())
  call := fun _ a m c => a.call m c
  record := record

/-- A scalable page allocator over a buffer of `size` bytes. -/
def scalableProgram (id : AllocatorId) (custom_header_size size : Nat) :
    Program Table ScalablePageAllocator Op Out (List Block) where
  size := size
  init := fun base t m => ScalablePageAllocator.shmInit id custom_header_size ⟨base, size⟩ t m
  attach := fun base t m => ScalablePageAllocator.shmDeserialize ⟨base, size⟩ t m
  call := fun t a m c => a.call t m c
  record := record

end HermesShm.Memory.InProcess
