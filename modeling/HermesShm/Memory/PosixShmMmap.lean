import HermesShm.Base.SharedMemory
import HermesShm.Base.Transition
import HermesShm.Memory.MpPage
import Mathlib.Data.Fintype.Basic

/-! # The shared memory backend

Processes create, attach, detach and destroy backends over shared memory objects. System
calls of different backends interleave; which descriptor and which pages a call gets, and
whether it fails, is in the label. A call that throws leaves the backend as it is then. -/
namespace HermesShm.Memory.PosixShmMmap
open HermesShm.Base

/-- `KILOBYTES(16)` -/
def hdr_size_ : Nat := 16384

/-- `sizeof(MemoryBackendHeader)`: `data_size_` at 0, `type_` at 8, `id_` at 12, `flags_`
at 16, `accel_data_size_` at 24 and `accel_id_` at 32. -/
def headerBytes : Nat := 40

def kPosixShmMmap : Nat := 0

/-- `MEMORY_BACKEND_HAS_ALLOC` -/
def hasAlloc : Nat := 16

/-- Whose pages they are: those of `header_`, or those of `data_`. -/
inductive Tag (κ : Type)
  | header (o : κ)
  | data (o : κ)
  deriving DecidableEq

def Tag.owner {κ : Type} : Tag κ → κ
  | .header o | .data o => o

/-- Where a call stands: what the next system call is. -/
inductive Pc (N : Type)
  | idle
  -- `shm_init`, from `shm_open` on
  | unlinked (id size : Nat) (url : N)
  | created (id size : Nat) (url : N)
  | truncated (id size : Nat)
  | headerMapped (id size : Nat)
  | headerWritten (size : Nat)
  -- `shm_deserialize`, after `shm_open`
  | opened
  | headerFound
  | sizeRead
  | destructed
  deriving DecidableEq

/-- `initialized` and `owned` are bits of `flags_`; a null pointer is 0, and a descriptor
that was not opened `none`. `object` is what `fd_` was opened for, kept by the observer. -/
structure Backend (N : Type) where
  initialized : Bool
  owned : Bool
  header_ : Nat
  data_ : Nat
  data_size_ : Nat
  fd_ : Option Nat
  url_ : N
  pc : Pc N
  object : Nat

abbrev System (ι N κ : Type) := Kernel ι N κ (Tag κ)

structure State (ι N κ : Type) where
  kernel : System ι N κ
  backends : κ → Backend N

inductive Outcome
  | done
  /-- A descriptor, or a page. -/
  | number (n : Nat)
  | failed

inductive Act (N : Type)
  | shmInit (id size : Nat) (url : N)
  | shmDeserialize (url : N) (fd : Option Nat)
  /-- The next system call of the call that is in progress. -/
  | proceed (out : Outcome)
  | shmDetach
  | shmDestroy
  | destruct
  /-- The program stores to `data_[x]`. -/
  | store (x : Nat) (byte : UInt8)
  | setHasAlloc

variable {ι N κ : Type} [DecidableEq ι] [DecidableEq N] [DecidableEq κ]

section

variable (G : Paging) (i : ι) (o : κ) (K : System ι N κ) (b : Backend N)

/-- `_ShmMap`, at page `v` -/
def shmMap (size off v : Nat) (tag : Tag κ) : Option (System ι N κ) := do
  let d ← b.fd_
  let (f, _) ← K.fds i d
  K.mmap G i f size off v tag

/-- `new (header_) MemoryBackendHeader()`, and its fields. -/
def writeHeader (header_ id size : Nat) : Option (System ι N κ) := do
  let K ← K.storeWord G i header_ headerBytes 0
  let K ← K.storeWord G i (header_ + 8) 4 kPosixShmMmap
  let K ← K.storeWord G i (header_ + 12) 4 id
  K.storeWord G i header_ 8 size

/-- The system calls of `shm_init` and `shm_deserialize`. -/
def proceed (out : Outcome) : Option (System ι N κ × Backend N) :=
  match b.pc, out with
  | .unlinked id size url, .number d => do
    let (K, f) := K.create url
    let K ← K.openFd i d f o
    some (K, { b with fd_ := some d, object := f, pc := .created id size url })
  | .unlinked .., .failed => some (K, { b with fd_ := none, pc := .idle })
  | .created id size url, .done => do
    let d ← b.fd_
    let (f, _) ← K.fds i d
    some (K.truncate f (wordAdd sizeT size hdr_size_),
      { b with url_ := url, pc := .truncated id size })
  | .created .., .failed => do
    let d ← b.fd_
    some (K.close i d, { b with pc := .idle })
  | .truncated id size, .number v => do
    let K ← shmMap G i K b hdr_size_ 0 v (.header o)
    some (K, { b with header_ := v * G.bytes, pc := .headerMapped id size })
  | .truncated .., .failed => some (K, { b with pc := .idle })
  | .headerMapped id size, .done => do
    let K ← writeHeader G i K b.header_ id size
    some (K, { b with data_size_ := size, pc := .headerWritten size })
  | .headerWritten size, .number v => do
    let K ← shmMap G i K b size hdr_size_ v (.data o)
    some (K, { b with data_ := v * G.bytes, pc := .idle })
  | .headerWritten .., .failed => some (K, { b with pc := .idle })
  | .opened, .number v => do
    let K ← shmMap G i K b hdr_size_ 0 v (.header o)
    some (K, { b with header_ := v * G.bytes, pc := .headerFound })
  | .opened, .failed => some (K, { b with pc := .idle })
  | .headerFound, .done => do
    let size ← K.loadWord G i b.header_ 8
    some (K, { b with data_size_ := size, pc := .sizeRead })
  | .sizeRead, .number v => do
    let K ← shmMap G i K b b.data_size_ hdr_size_ v (.data o)
    some (K, { b with data_ := v * G.bytes, pc := .idle })
  | .sizeRead, .failed => some (K, { b with pc := .idle })
  | _, _ => none

/-- `CloseSharedMemory` -/
def closeSharedMemory : System ι N κ :=
  match b.fd_ with
  | some d => K.close i d
  | none => K

/-- `_Detach`; of the header, only one page is unmapped. -/
def detach : System ι N κ × Backend N :=
  if b.initialized then
    let K := K.munmap G i b.header_ G.bytes
    let K := K.munmap G i b.data_ b.data_size_
    (closeSharedMemory i K b, { b with initialized := false })
  else (K, b)

/-- `_Destroy` -/
def destroy : System ι N κ × Backend N :=
  if b.initialized then
    let (K, b) := detach G i K b
    (K.unlink b.url_, { b with initialized := false })
  else (K, b)

/-- The destructor. -/
def destruct : System ι N κ × Backend N :=
  let (K, b) := if b.owned then destroy G i K b else detach G i K b
  (K, { b with pc := .destructed })

/-- One step of a backend of process `i`. Calls other than `proceed` are made when none is
in progress. -/
def act : Act N → Option (System ι N κ × Backend N)
  | .proceed out => proceed G i o K b out
  | .shmInit id size url =>
    if b.pc = .idle then some (K.unlink url,
      { b with initialized := true, owned := true, pc := .unlinked id size url })
    else none
  | .shmDeserialize url fd =>
    if b.pc = .idle then
      let b := { b with initialized := true, owned := false, fd_ := fd }
      match fd with
      | none => some (K, b)
      | some d => do
        let f ← K.names url
        let K ← K.openFd i d f o
        some (K, { b with object := f, pc := .opened })
    else none
  | .shmDetach => if b.pc = .idle then some (detach G i K b) else none
  | .shmDestroy => if b.pc = .idle then some (destroy G i K b) else none
  | .destruct => if b.pc = .idle then some (destruct G i K b) else none
  | .store x byte =>
    if b.pc = .idle then (K.store G i (b.data_ + x) byte).map fun K => (K, b) else none
  | .setHasAlloc =>
    if b.pc = .idle then do
      let flags ← K.loadWord G i (b.header_ + 16) 8
      let K ← K.storeWord G i (b.header_ + 16) 8 (flags ||| hasAlloc)
      some (K, b)
    else none

end

/-- Every backend is an object of one process, its `home`. -/
def step (G : Paging) (home : κ → ι) (s : State ι N κ) (l : κ × Act N) : Option (State ι N κ) :=
  (act G (home l.1) l.1 s.kernel (s.backends l.1) l.2).map fun r =>
    ⟨r.1, Function.update s.backends l.1 r.2⟩

/-! ## Runs -/

/-- The call returned true, and the backend was not detached since. -/
def Backend.Ready (b : Backend N) : Prop := b.pc = .idle ∧ b.initialized ∧ b.data_ ≠ 0

/-- `shm_init` has removed the name, and not yet opened it. -/
def Pc.Unlinked (url : N) : Pc N → Prop
  | .unlinked _ _ u => u = url
  | _ => False

/-- What `_Detach` would unmap by mistake is not mapped, where `data_` is null, and the
descriptor that it closes is not one of another backend. -/
def Detachable (G : Paging) (home : κ → ι) (s : State ι N κ) (o : κ) : Prop :=
  (s.backends o).initialized →
    ((s.backends o).data_ = 0 →
      (s.kernel.tables (home o)).Free 0 (G.pagesOf (s.backends o).data_size_)) ∧
    ∀ d ∈ (s.backends o).fd_, ∀ e ∈ s.kernel.fds (home o) d, e.2 = o

/-- A backend is initialized or attached but once; no two processes are at once about to
create the same name. Programs store to backends that are ready. -/
def Ok (G : Paging) (home : κ → ι) (s : State ι N κ) : κ × Act N → Prop
  | (o, .shmInit _ size url) => (s.backends o).header_ = 0 ∧ (s.backends o).data_ = 0 ∧
    size < sizeT ∧ ∀ p, ¬ (s.backends p).pc.Unlinked url
  | (o, .shmDeserialize ..) => (s.backends o).header_ = 0 ∧ (s.backends o).data_ = 0
  | (o, .shmDetach) | (o, .shmDestroy) | (o, .destruct) => Detachable G home s o
  | (o, .store x _) => (s.backends o).Ready ∧ x < (s.backends o).data_size_
  | (o, .setHasAlloc) => (s.backends o).Ready
  | (_, .proceed _) => True

instance (b : Backend N) : Decidable b.Ready := inferInstanceAs (Decidable (_ ∧ _ ∧ _))

instance (url : N) (pc : Pc N) : Decidable (pc.Unlinked url) :=
  match pc with
  | .unlinked _ _ u => inferInstanceAs (Decidable (u = url))
  | .idle | .created .. | .truncated .. | .headerMapped .. | .headerWritten _ | .opened
  | .headerFound | .sizeRead | .destructed => .isFalse fun h => h

instance (G : Paging) (home : κ → ι) (s : State ι N κ) (o : κ) :
    Decidable (Detachable G home s o) := inferInstanceAs (Decidable (_ → _ ∧ _))

instance [Fintype κ] (G : Paging) (home : κ → ι) (s : State ι N κ) (l : κ × Act N) :
    Decidable (Ok G home s l) :=
  match l with
  | (_, .shmInit ..) => inferInstanceAs (Decidable (_ ∧ _ ∧ _ ∧ _))
  | (_, .shmDeserialize ..) => inferInstanceAs (Decidable (_ ∧ _))
  | (o, .shmDetach) | (o, .shmDestroy) | (o, .destruct) =>
    inferInstanceAs (Decidable (Detachable G home s o))
  | (_, .store ..) => inferInstanceAs (Decidable (_ ∧ _))
  | (o, .setHasAlloc) => inferInstanceAs (Decidable (s.backends o).Ready)
  | (_, .proceed _) => .isTrue trivial

/-- No object exists, and backends are as constructed: only the fields that the constructor
sets have known values. -/
structure Initial (s : State ι N κ) : Prop where
  names : ∀ u, s.kernel.names u = none
  count : s.kernel.count = 0
  null : ∀ i, s.kernel.tables i 0 = none
  anon : ∀ i w fr, s.kernel.tables i w = some fr → fr = .anon
  backends : ∀ o, (s.backends o).pc = .idle ∧ (s.backends o).initialized = false ∧
    (s.backends o).header_ = 0 ∧ (s.backends o).data_ = 0

end HermesShm.Memory.PosixShmMmap
