import HermesShm.Memory.MpPage

/-! # The bump allocator

`HeapAllocator` hands out a region from its start to its end and takes nothing
back. The counter moves for a refused request too. -/
namespace HermesShm.Memory
open HermesShm.Base

/-- The null `OffsetPointer` -/
def nullOff : Nat := 2 ^ 64 - 1

def offset? (off : Nat) : Option Nat := if off = nullOff then none else some off

/-- `len` bytes from `off` on. -/
structure Region where
  off : Nat
  len : Nat
  deriving DecidableEq

def Region.Apart (r r' : Region) : Prop := r.off + r.len ≤ r'.off ∨ r'.off + r'.len ≤ r.off

structure HeapAllocator where
  region_off_ : Nat := 0
  heap_off_ : Nat := 0
  heap_size_ : Nat := 0

namespace HeapAllocator

def shmInit (region_off heap_size : Nat) : HeapAllocator :=
  { region_off_ := region_off, heap_off_ := 0, heap_size_ := heap_size }

def allocateOffset (h : HeapAllocator) (size : Nat) : Option Nat × HeapAllocator :=
  let off := h.heap_off_
  let h := { h with heap_off_ := wordAdd sizeT off size }
  if wordAdd sizeT off size > h.heap_size_ then (none, h)
  else (offset? (wordAdd sizeT h.region_off_ off), h)

/-- `Align` of the stack allocator, to 4096 bytes. -/
def align (h : HeapAllocator) : HeapAllocator :=
  { h with heap_off_ := wordAdd sizeT h.heap_off_ 4095 / 4096 * 4096 }

variable {h : HeapAllocator} {size : Nat}

/-- A request without overflow is refused, or served from the counter on. -/
theorem allocateOffset_spec (hpos : 0 < size) (hlt : h.heap_off_ + size < sizeT)
    (hfit : h.region_off_ + h.heap_size_ < sizeT) :
    (h.heap_size_ < h.heap_off_ + size ∧
      h.allocateOffset size = (none, { h with heap_off_ := h.heap_off_ + size })) ∨
    (h.heap_off_ + size ≤ h.heap_size_ ∧
      h.allocateOffset size =
        (some (h.region_off_ + h.heap_off_), { h with heap_off_ := h.heap_off_ + size })) := by
  simp only [allocateOffset, wordAdd_of_lt hlt]
  by_cases hroom : h.heap_off_ + size > h.heap_size_
  · exact .inl ⟨hroom, if_pos hroom⟩
  · have hnull : ¬ h.region_off_ + h.heap_off_ = nullOff := by
      unfold nullOff
      unfold sizeT at hfit
      omega
    refine .inr ⟨Nat.not_lt.mp hroom, ?_⟩
    rw [if_neg hroom, wordAdd_of_lt (by omega), offset?, if_neg hnull]

theorem le_align (h : HeapAllocator) (hlt : h.heap_off_ + 4095 < sizeT) :
    h.heap_off_ ≤ h.align.heap_off_ := by
  unfold align
  rw [wordAdd_of_lt hlt]
  simp only
  omega

end HeapAllocator

/-- A backend, with the sizes of the headers in it, which fit. -/
structure Backend where
  header : Nat
  stack_header : Nat
  custom_header_size : Nat
  data_size_ : Nat
  fits : header + custom_header_size + stack_header ≤ data_size_
  size_lt : data_size_ < sizeT

/-- Where the buffer of the internal stack allocator starts. -/
def Backend.region_off (b : Backend) : Nat := b.header + b.custom_header_size

/-- The heap that `shm_init` of the internal stack allocator makes. -/
def Backend.heap (b : Backend) : HeapAllocator :=
  .shmInit b.stack_header (b.data_size_ - b.region_off - b.stack_header)

end HermesShm.Memory
