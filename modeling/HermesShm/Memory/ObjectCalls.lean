import HermesShm.Base.Cells
import HermesShm.Memory.Blocks

/-! # Arrays of objects

The calls of `BaseAllocator` that allocate and construct arrays of objects, move them to more
memory, and destruct and free them, over any core allocator. Objects are bytes at addresses of the
process; the memory of the core allocator is told by offsets from `buffer_`. -/
namespace HermesShm.Memory.ObjectCalls
open HermesShm.Base MpPage

/-- The core allocator; `ctx` is the `tid_` of the `MemContext`. A call that throws has an error;
no result where it does not end or writes through a null address. -/
structure CoreAllocT (σ : Type) where
  mem : σ → ByteMem
  /-- The stores of the program. -/
  setMem : σ → ByteMem → σ
  allocateOffset : σ → Nat → Nat → Option (Except Error Nat × σ)
  reallocateOffsetNoNullCheck : σ → Nat → Nat → Nat → Option (Except Error Nat × σ)
  freeOffsetNoNullCheck : σ → Nat → Option (Except Error σ)

inductive Thrown
  | core (e : Error)
  | invalidFree

/-- The type of the objects: its size, and what its destructor leaves of one. -/
structure ObjType where
  sizeof_ : Nat
  destruct : Cell sizeof_ → Cell sizeof_

/-- An address and its pointer. -/
structure FullPtr where
  ptr_ : Nat
  shm_ : Nat
  deriving DecidableEq

section
variable {σ : Type} (A : CoreAllocT σ) (T : ObjType) (buffer_ : Nat)

/-- The offset of `*(ptr + i)`. -/
def place (ptr i : Nat) : Nat := wordSub sizeT (wordAdd sizeT ptr (i * T.sizeof_)) buffer_

def constructLoop (m : ByteMem) (ptr : Nat) (make : Nat → Cell T.sizeof_) (i : Nat) : Nat → ByteMem
  | 0 => m
  | n + 1 => constructLoop (m.putCell (place T buffer_ ptr i) (make i)) ptr make (i + 1) n

/-- `make i` is object `i` as its constructor leaves it: arguments that are moved from are
forwarded to every object. -/
def constructObjs (m : ByteMem) (ptr old_count new_count : Nat) (make : Nat → Cell T.sizeof_) :
    ByteMem :=
  if ptr = 0 then m else constructLoop T buffer_ m ptr make old_count (new_count - old_count)

def destructLoop (m : ByteMem) (ptr i : Nat) : Nat → ByteMem
  | 0 => m
  | n + 1 =>
    let x := place T buffer_ ptr i
    destructLoop (m.putCell x (T.destruct (m.readCell T.sizeof_ x))) ptr (i + 1) n

def destructObjs (m : ByteMem) (ptr count : Nat) : ByteMem :=
  if ptr = 0 then m else destructLoop T buffer_ m ptr 0 count

/-- `Convert` both ways; the pointers are `OffsetPointer`s. -/
def convert (p : Nat) : Nat := if p = nullOff then 0 else wordAdd sizeT buffer_ p
def toOffset (ptr : Nat) : Nat := if ptr = 0 then nullOff else wordSub sizeT ptr buffer_

/-- `count * sizeof(T)` -/
def bytes (count : Nat) : Nat := count * T.sizeof_ % sizeT

def allocateObjs (s : σ) (ctx count : Nat) : Option (Except Thrown FullPtr × σ) := do
  match ← A.allocateOffset s ctx (bytes T count) with
  | (.error e, s) => some (.error (.core e), s)
  | (.ok p, s) => some (.ok ⟨convert buffer_ p, p⟩, s)

/-- `NewObjs` and `NewObjsLocal` are `AllocateConstructObjs`. -/
def newObjs (s : σ) (ctx count : Nat) (make : Nat → Cell T.sizeof_) :
    Option (Except Thrown FullPtr × σ) := do
  match ← allocateObjs A T buffer_ s ctx count with
  | (.error e, s) => some (.error e, s)
  | (.ok p, s) =>
    some (.ok p, A.setMem s (constructObjs T buffer_ (A.mem s) p.ptr_ 0 count make))

def reallocate (s : σ) (ctx p new_size : Nat) : Option (Except Error Nat × σ) :=
  if p = nullOff then A.allocateOffset s ctx new_size
  else A.reallocateOffsetNoNullCheck s ctx p new_size

def reallocateObjs (s : σ) (ctx p new_count : Nat) : Option (Except Thrown FullPtr × σ) := do
  match ← reallocate A s ctx p (bytes T new_count) with
  | (.error e, s) => some (.error (.core e), s)
  | (.ok p, s) => some (.ok ⟨convert buffer_ p, p⟩, s)

def reallocateConstructObjs (s : σ) (ctx p old_count new_count : Nat)
    (make : Nat → Cell T.sizeof_) : Option (Except Thrown FullPtr × σ) := do
  match ← reallocateObjs A T buffer_ s ctx p new_count with
  | (.error e, s) => some (.error e, s)
  | (.ok p, s) =>
    some (.ok p, A.setMem s (constructObjs T buffer_ (A.mem s) p.ptr_ old_count new_count make))

def free (s : σ) (p : Nat) : Option (Except Thrown Unit × σ) := do
  if p = nullOff then some (.error .invalidFree, s)
  else match ← A.freeOffsetNoNullCheck s p with
    | .error e => some (.error (.core e), s)
    | .ok s => some (.ok (), s)

/-- `DelObjs` -/
def freeDestructObjs (s : σ) (ptr count : Nat) : Option (Except Thrown Unit × σ) :=
  free A (A.setMem s (destructObjs T buffer_ (A.mem s) ptr count)) (toOffset buffer_ ptr)

/-- `DelObjsLocal` -/
def freeDestructObjsLocal (s : σ) (p : FullPtr) (count : Nat) : Option (Except Thrown Unit × σ) :=
  free A (A.setMem s (destructObjs T buffer_ (A.mem s) p.ptr_ count)) p.shm_

end

/-! ## Runs -/

/-- An array in use, and what its constructors and the assignments of the program have given its
objects. The program knows how many there are; no call reads them here. -/
structure ObjArray (T : ObjType) where
  p : FullPtr
  objs : List (Cell T.sizeof_)

structure State (σ : Type) (T : ObjType) where
  core : σ
  arrays : List (ObjArray T) := []
  constructed : Nat := 0
  destructed : Nat := 0
  /-- The objects that a reallocation left behind the end of their array. -/
  dropped : Nat := 0

/-- The calls, and an assignment to object `i` of an array; `shm_` names the array. -/
inductive Op (T : ObjType)
  | newObjs (count : Nat) (make : Nat → Cell T.sizeof_)
  | reallocateConstructObjs (shm_ new_count : Nat) (make : Nat → Cell T.sizeof_)
  | assign (shm_ i : Nat) (obj : Cell T.sizeof_)
  | delObjs (shm_ : Nat)
  | delObjsLocal (shm_ : Nat)

def drop {T : ObjType} (arrays : List (ObjArray T)) (shm_ : Nat) : List (ObjArray T) :=
  arrays.filter (·.p.shm_ ≠ shm_)

section
variable {σ : Type} (A : CoreAllocT σ) (T : ObjType) (buffer_ : Nat)

/-- What is left when an array has been deleted. -/
def deleted (s : State σ T) (a : ObjArray T) (r : Except Thrown Unit × σ) : State σ T :=
  match r with
  | (.error _, core) => { s with core, destructed := s.destructed + a.objs.length }
  | (.ok (), core) =>
    { s with
      core
      arrays := drop s.arrays a.p.shm_
      destructed := s.destructed + a.objs.length }

def step (s : State σ T) : Nat × Op T → Option (State σ T)
  | (ctx, .newObjs count make) => do
    match ← newObjs A T buffer_ s.core ctx count make with
    | (.error _, core) => some { s with core }
    | (.ok p, core) =>
      some { s with
        core
        arrays := ⟨p, (List.range' 0 count).map make⟩ :: s.arrays
        constructed := s.constructed + count }
  | (ctx, .reallocateConstructObjs shm_ new_count make) => do
    let a ← s.arrays.find? (·.p.shm_ = shm_)
    let old_count := a.objs.length
    match ← reallocateConstructObjs A T buffer_ s.core ctx shm_ old_count new_count make with
    | (.error _, core) => some { s with core }
    | (.ok p, core) =>
      let new := (List.range' old_count (new_count - old_count)).map make
      some { s with
        core
        arrays := ⟨p, a.objs.take new_count ++ new⟩ :: drop s.arrays shm_
        constructed := s.constructed + (new_count - old_count)
        dropped := s.dropped + (old_count - new_count) }
  | (_, .assign shm_ i obj) => do
    let a ← s.arrays.find? (·.p.shm_ = shm_)
    some { s with
      core := A.setMem s.core ((A.mem s.core).putCell (place T buffer_ a.p.ptr_ i) obj)
      arrays := s.arrays.map fun b => if b.p.shm_ = shm_ then { b with objs := b.objs.set i obj }
        else b }
  | (_, .delObjs shm_) => do
    let a ← s.arrays.find? (·.p.shm_ = shm_)
    let r ← freeDestructObjs A T buffer_ s.core a.p.ptr_ a.objs.length
    some (deleted T s a r)
  | (_, .delObjsLocal shm_) => do
    let a ← s.arrays.find? (·.p.shm_ = shm_)
    let r ← freeDestructObjsLocal A T buffer_ s.core a.p a.objs.length
    some (deleted T s a r)

end
end HermesShm.Memory.ObjectCalls
