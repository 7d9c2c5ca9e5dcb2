import HermesShm.Memory.AllocatorRegistry

/-! # Allocator objects of one process

`CreateAllocator` makes an allocator object in a backend, and `ScanBackends`
makes one for each backend that has an allocator and is not marked scanned. A
page allocator embeds a stack allocator, which is registered on its own. -/
namespace HermesShm.Memory.MemoryManager
open HermesShm.Base HermesShm.Memory.AllocatorRegistry

def HSHM_MAX_BACKENDS : Nat := 16

inductive AllocatorType
  | kNullAllocator
  | kStackAllocator
  | kGpuStackAllocator
  | kSliceAllocator
  | kMallocAllocator
  | kFixedPageAllocator
  | kScalablePageAllocator
  | kThreadLocalAllocator
  | kTestAllocator
  deriving DecidableEq

/-- The page allocators have a `StackAllocator alloc_`. -/
def AllocatorType.embeds : AllocatorType → Bool
  | .kScalablePageAllocator | .kThreadLocalAllocator | .kTestAllocator => true
  | _ => false

/-- `shm_init` writes the header at the start of the backend's data. The header
of a `MallocAllocator` is in memory of its own. -/
def AllocatorType.writesHeader : AllocatorType → Bool
  | .kStackAllocator | .kGpuStackAllocator => true
  | type_ => type_.embeds

/-- The types with a case in `AllocatorFactory::shm_deserialize`. -/
def AllocatorType.known : AllocatorType → Bool
  | .kNullAllocator | .kSliceAllocator | .kFixedPageAllocator => false
  | _ => true

/-- The header of an embedded allocator has the id derived from this one. -/
structure AllocatorHeader where
  allocator_type_ : AllocatorType
  alloc_id_ : AllocatorId
  deriving DecidableEq

structure Backend where
  /-- What the first bytes of its data say. -/
  md_ : AllocatorHeader
  has_alloc : Bool := false
  /-- In the process's own flags, the others are shared. -/
  scanned : Bool := false

inductive Ref
  | root_alloc_
  | obj (addr : Nat)
  /-- The allocator embedded in the object at `addr`. -/
  | alloc_ (addr : Nat)
  deriving DecidableEq

structure Object where
  addr : Nat
  type_ : AllocatorType
  id_ : AllocatorId
  backend_ : Option Nat
  deriving DecidableEq

structure State where
  registry : Registry Ref := .init .root_alloc_
  backends_ : Nat → Option Backend := fun _ => none
  /-- The live allocator objects. -/
  objects : List Object := []
  fresh : Nat := 0
  /-- What `CreateAllocator` returned, until the allocator is destroyed; no
  operation reads it. -/
  created : List (AllocatorId × Option (Allocator Ref)) := []
  /-- The allocators made or found in each backend, until they are destroyed; no
  operation reads it. -/
  owned : List (Nat × AllocatorId) := []

def init : State := {}

/-- `none`: it throws `TOO_MANY_ALLOCATORS`. -/
def registerNoScan (s : State) (alloc : Allocator Ref) : Option State :=
  match registerAllocatorNoScan s.registry (some alloc) with
  | (.ok _, registry) => some { s with registry }
  | (.error _, _) => none

def setBackend (s : State) (i : Nat) (backend : Backend) : State :=
  { s with backends_ := Function.update s.backends_ i (some backend) }

/-- `NewObj` and then `shm_init` or `shm_deserialize`, which register the
embedded allocator. -/
def newObj (s : State) (type_ : AllocatorType) (id_ : AllocatorId) (backend_ : Option Nat) :
    Option State :=
  let t := { s with objects := ⟨s.fresh, type_, id_, backend_⟩ :: s.objects, fresh := s.fresh + 1 }
  if type_.embeds then registerNoScan t ⟨id_.sub, .alloc_ s.fresh⟩ else some t

/-- `none`: `_MallocAllocator::shm_deserialize` throws. -/
def shmDeserialize (s : State) (i : Nat) (md_ : AllocatorHeader) :
    Option (State × Option (Allocator Ref)) :=
  if md_.allocator_type_.known then
    if md_.allocator_type_ = .kMallocAllocator then none
    else (newObj s md_.allocator_type_ md_.alloc_id_ (some i)).map fun t =>
      (t, some ⟨md_.alloc_id_, .obj s.fresh⟩)
  else some (s, none)

/-- One turn of the loop of `ScanBackends`. -/
def scanBackend (s : State) (i : Nat) : Option State :=
  match s.backends_ i with
  | none => some s
  | some backend =>
    if backend.has_alloc && !backend.scanned then
      (shmDeserialize s i backend.md_).bind fun
        | (s, none) => some s
        | (s, some alloc) => registerNoScan (setBackend s i { backend with scanned := true }) alloc
    else some s

def scanBackends (s : State) : Option State :=
  (List.range HSHM_MAX_BACKENDS).foldlM scanBackend s

def registerAllocator (s : State) (alloc : Allocator Ref) : Option State :=
  (registerNoScan s alloc).bind scanBackends

/-- What the backend's data begins with after `shm_init`. -/
def initHeader (backend : Backend) (type_ : AllocatorType) (id_ : AllocatorId) :
    AllocatorHeader :=
  if type_.writesHeader then ⟨type_, id_⟩ else backend.md_

/-- A new object, initialized and registered. -/
def makeAllocator (s : State) (type_ : AllocatorType) (id_ : AllocatorId)
    (backend_ : Option Nat) : Option State :=
  (newObj s type_ id_ backend_).bind fun t => registerAllocator t ⟨id_, .obj s.fresh⟩

/-- It returns `GetAllocator(id_)`, and null where there is no backend. -/
def createAllocator (s : State) (i : Nat) (type_ : AllocatorType) (id_ : AllocatorId) :
    Option State :=
  if id_ = ⟨-1, -1⟩ then none else
  match s.backends_ i with
  | none => some s
  | some backend =>
    let s := setBackend s i { backend with md_ := initHeader backend type_ id_, has_alloc := true }
    (makeAllocator s type_ id_ (some i)).map fun t =>
      { t with
        created := (id_, getAllocator t.registry id_) :: t.created
        owned := (i, id_) :: t.owned }

/-- `RegisterBackend` throws where there is one already. The data of a new backend
is whatever is in the memory; so is the flag in the header, which
`MallocBackend::shm_init` does not write and which is clear in fresh pages. -/
def createBackend (s : State) (i : Nat) (has_alloc : Bool) (md_ : AllocatorHeader) : State :=
  match s.backends_ i with
  | some _ => s
  | none => setBackend s i { md_, has_alloc }

def attachBackend (s : State) (i : Nat) (has_alloc : Bool) (md_ : AllocatorHeader) :
    Option State :=
  match s.backends_ i with
  | some _ => some s
  | none => (scanBackends (setBackend s i { md_, has_alloc })).map fun t =>
    if has_alloc then { t with owned := (i, md_.alloc_id_) :: t.owned } else t

/-- Only what `NewObj` of the root allocator made can go through `DelObjLocal`. -/
def destroyAllocator (s : State) (id_ : AllocatorId) : Option State :=
  match unregisterAllocator s.registry id_ with
  | (none, registry) => some { s with registry }
  | (some ⟨_, .obj addr⟩, registry) => some { s with
      registry
      objects := s.objects.filter (·.addr ≠ addr)
      created := s.created.filter (·.1 ≠ id_)
      owned := s.owned.filter (·.2 ≠ id_) }
  | (some _, _) => none

/-! ## Runs -/

def Object.ref (o : Object) : Allocator Ref := ⟨o.id_, .obj o.addr⟩

/-- An object and the allocator embedded in it. -/
def Object.refs (o : Object) : List (Allocator Ref) :=
  o.ref :: if o.type_.embeds then [⟨o.id_.sub, .alloc_ o.addr⟩] else []

def rootRef : Allocator Ref := ⟨root_alloc_id_, .root_alloc_⟩

def State.live (s : State) : List (Allocator Ref) := rootRef :: s.objects.flatMap Object.refs

inductive Op
  /-- Of memory where the flag and the header are found. -/
  | createBackend (i : Nat) (has_alloc : Bool) (md_ : AllocatorHeader)
  /-- The memory of another process, with the flag and header found there. -/
  | attachBackend (i : Nat) (has_alloc : Bool) (md_ : AllocatorHeader)
  | createAllocator (i : Nat) (type_ : AllocatorType) (id_ : AllocatorId)
  /-- Of an allocator that is live. -/
  | registerAllocator (alloc : Allocator Ref)
  /-- Of an allocator that the caller made. -/
  | registerNew (type_ : AllocatorType) (id_ : AllocatorId)
  | scanBackends
  | destroyAllocator (id_ : AllocatorId)

/-- `none`: the call throws, or has no defined behaviour. -/
def step (s : State) : Op → Option State
  | .createBackend i has_alloc md_ => some (createBackend s i has_alloc md_)
  | .attachBackend i has_alloc md_ => attachBackend s i has_alloc md_
  | .createAllocator i type_ id_ => createAllocator s i type_ id_
  | .registerAllocator alloc => if alloc ∈ s.live then registerAllocator s alloc else none
  | .registerNew type_ id_ => makeAllocator s type_ id_ none
  | .scanBackends => scanBackends s
  | .destroyAllocator id_ => destroyAllocator s id_

structure Sound (s : State) : Prop where
  table_live : ∀ i a, s.registry.allocators_ i = some a → a ∈ s.live
  default_live : ∃ a ∈ s.live, s.registry.default_allocator_ = some a
  one_object : ∀ p ∈ s.owned, ∃ o ∈ s.objects, (o.backend_ = some p.1 ∧ o.id_ = p.2) ∧
    ∀ o' ∈ s.objects, o'.backend_ = some p.1 → o' = o
  same_object : ∀ p ∈ s.created, p.2 ≠ none ∧ getAllocator s.registry p.1 = p.2 ∧
    ∀ a, s.registry.default_allocator_ = some a → a.id_ = p.1 → some a = p.2

/-! ## The calls considered -/

/-- The slots of a new object are in the table, and of no live allocator. -/
def Fits (s : State) (type_ : AllocatorType) (id_ : AllocatorId) : Prop :=
  ∀ a ∈ Object.refs ⟨s.fresh, type_, id_, none⟩, a.id_.toIndex < HSHM_MAX_ALLOCATORS ∧
    ∀ b ∈ s.live, b.id_.toIndex ≠ a.id_.toIndex

/-- Ids are in range, and different allocators have different slots. -/
def Distinct (s : State) : Op → Prop
  | .createBackend i _ _ => i < HSHM_MAX_BACKENDS
  | .attachBackend i has_alloc md_ => i < HSHM_MAX_BACKENDS ∧
    (has_alloc = true → (s.backends_ i).isNone → Fits s md_.allocator_type_ md_.alloc_id_)
  | .createAllocator i type_ id_ => i < HSHM_MAX_BACKENDS ∧ Fits s type_ id_
  | .registerNew type_ id_ => Fits s type_ id_
  | .destroyAllocator id_ => ∀ a ∈ s.live, getAllocator s.registry id_ = some a → a.id_ = id_
  | .registerAllocator _ | .scanBackends => True

/-- A scan finds nothing in a new backend; an attached one that has an allocator
can be deserialized; an allocator is created in a backend without a live one,
where a scan finds nothing then; an allocator with an embedded one is not
destroyed. -/
def Single (s : State) : Op → Prop
  | .createBackend i has_alloc md_ => has_alloc = true → (s.backends_ i).isNone →
    md_.allocator_type_.known = false
  | .attachBackend i has_alloc md_ => has_alloc = true → (s.backends_ i).isNone →
    md_.allocator_type_.known = true
  | .createAllocator i type_ id_ => (∀ o ∈ s.objects, o.backend_ ≠ some i) ∧
    ∀ backend ∈ s.backends_ i, backend.scanned = true ∨
      (initHeader backend type_ id_).allocator_type_.known = false
  | .destroyAllocator id_ => ∀ o ∈ s.objects, getAllocator s.registry id_ = some o.ref →
    o.type_.embeds = false
  | _ => True

def Guarded (s : State) (op : Op) : Prop := Distinct s op ∧ Single s op

instance (s : State) (type_ : AllocatorType) (id_ : AllocatorId) : Decidable (Fits s type_ id_) :=
  inferInstanceAs (Decidable (∀ a ∈ Object.refs _, _ ∧ ∀ b ∈ s.live, _ ≠ _))

instance (s : State) (op : Op) : Decidable (Distinct s op) :=
  match op with
  | .createBackend _ _ _ => inferInstanceAs (Decidable (_ < _))
  | .attachBackend _ _ _ => inferInstanceAs (Decidable (_ ∧ (_ → _ → _)))
  | .createAllocator _ _ _ => inferInstanceAs (Decidable (_ ∧ _))
  | .registerNew type_ id_ => inferInstanceAs (Decidable (Fits s type_ id_))
  | .destroyAllocator _ => inferInstanceAs (Decidable (∀ a ∈ s.live, _ → _))
  | .registerAllocator _ | .scanBackends => .isTrue trivial

instance (s : State) (op : Op) : Decidable (Single s op) :=
  match op with
  | .createBackend _ _ _ | .attachBackend _ _ _ => inferInstanceAs (Decidable (_ → _ → _))
  | .createAllocator i _ _ => inferInstanceAs
    (Decidable ((∀ o ∈ s.objects, _ ≠ _) ∧ ∀ backend ∈ s.backends_ i, _ ∨ _))
  | .destroyAllocator _ => inferInstanceAs (Decidable (∀ o ∈ s.objects, _ → _))
  | .registerAllocator _ | .registerNew _ _ | .scanBackends => .isTrue trivial

instance (s : State) (op : Op) : Decidable (Guarded s op) :=
  inferInstanceAs (Decidable (_ ∧ _))

end HermesShm.Memory.MemoryManager
