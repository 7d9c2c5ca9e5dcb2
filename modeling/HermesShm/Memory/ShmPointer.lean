import HermesShm.Memory.AllocatorRegistry

/-! # Pointers of the shared memory

An `OffsetPointer` is an offset into the buffer of an allocator that is known, a `Pointer`
has the id of the allocator too. -/
namespace HermesShm.Memory.AllocatorRegistry

def AllocatorId.getNull : AllocatorId := ⟨-1, -1⟩

/-- The type of the offsets, with the one that is null. -/
class Offset (ω : Type) where
  getNull : ω

structure OffsetPointer (ω : Type) where
  off_ : ω
  deriving DecidableEq

structure Pointer (ω : Type) where
  alloc_id_ : AllocatorId
  off_ : ω
  deriving DecidableEq

/-- What is used of the type of a pointer. -/
class ShmPointer (ω : outParam Type) (P : Type) where
  /-- The full constructor. -/
  ofOffset : AllocatorId → ω → P
  getNull : P
  isNull : P → Bool
  load : P → ω
  store : P → ω → P
  load_ofOffset : ∀ id off, load (ofOffset id off) = off

variable {ω : Type} [DecidableEq ω] [Offset ω]

/-- It has no id. -/
instance : ShmPointer ω (OffsetPointer ω) where
  ofOffset _ off := ⟨off⟩
  getNull := ⟨Offset.getNull⟩
  isNull p := p.off_ = Offset.getNull
  load p := p.off_
  store _ off := ⟨off⟩
  load_ofOffset _ _ := rfl

/-- Null by the id alone. -/
instance : ShmPointer ω (Pointer ω) where
  ofOffset id off := ⟨id, off⟩
  getNull := ⟨.getNull, Offset.getNull⟩
  isNull p := p.alloc_id_ = AllocatorId.getNull
  load p := p.off_
  store p off := { p with off_ := off }
  load_ofOffset _ _ := rfl

end HermesShm.Memory.AllocatorRegistry
