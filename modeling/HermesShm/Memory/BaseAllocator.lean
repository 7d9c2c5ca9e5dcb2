import HermesShm.Memory.FailedAllocation
import HermesShm.Memory.ShmPointer

/-! # The calls of an allocator that is exhausted

`BaseAllocator` wraps the offsets of a core allocator: into pointers of a kind, into
addresses, and into both. Null is another value in each of them. -/
namespace HermesShm.Memory.BaseAllocator
open HermesShm.Base MpPage AllocatorRegistry

/-! ## Pointers -/

instance : Offset Nat := ⟨nullOff⟩

open ShmPointer

/-- An address with its pointer; the null address is zero. -/
structure FullPtr (P : Type) where
  ptr_ : Nat
  shm_ : P

def FullPtr.isNull {P : Type} (p : FullPtr P) : Bool := p.ptr_ = 0

/-! ## Calls -/

/-- A core allocator; `memcpy` takes addresses. -/
structure Core (σ : Type) where
  id_ : AllocatorId
  buffer_ : Nat
  /-- No result where the code writes through a null address. -/
  allocateOffset : σ → Nat → Option (Nat × σ)
  /-- The length of the block at an offset. -/
  blockSize : σ → Nat → Nat
  memcpy : σ → Nat → Nat → Nat → σ
  /-- No result where the code throws. -/
  freeOffsetNoNullCheck : σ → Nat → Option σ
  buffer_lt : buffer_ < sizeT
  /-- No buffer starts right after the null address. -/
  buffer_ne : buffer_ ≠ 1
  memcpy_zero : ∀ s dst src, memcpy s dst src 0 = s
  /-- A block that is freed is not as it was. -/
  free_ne : ∀ s p s', freeOffsetNoNullCheck s p = some s' → s' ≠ s

section
variable {σ P : Type} [ShmPointer Nat P] (A : Core σ)

def convert (p : P) : Nat := if isNull p then 0 else wordAdd sizeT A.buffer_ (load p)

def allocate (P : Type) [ShmPointer Nat P] (s : σ) (size : Nat) : Option (P × σ) := do
  let (off, s) ← A.allocateOffset s size
  some (ofOffset A.id_ off, s)

/-- Without an alignment. -/
def allocatePtr (P : Type) [ShmPointer Nat P] (s : σ) (size : Nat) : Option (Nat × P × σ) := do
  let (p, s) ← allocate A P s size
  if isNull p then some (0, p, s)
  else some (wordAdd sizeT A.buffer_ (load p), p, s)

def allocateLocalPtr (P : Type) [ShmPointer Nat P] (s : σ) (size : Nat) :
    Option (FullPtr P × σ) := do
  let (ptr_, shm_, s) ← allocatePtr A P s size
  some ({ ptr_, shm_ }, s)

/-- `count` objects of `sizeof_` bytes. -/
def allocateObjs (P : Type) [ShmPointer Nat P] (s : σ) (count sizeof_ : Nat) :
    Option (Nat × P × σ) :=
  allocatePtr A P s (count * sizeof_ % sizeT)

/-- Of the stack allocator; the page allocators have the same. No result where bytes are
copied to the null address, or where the old block is not freed. -/
def reallocateOffsetNoNullCheck (s : σ) (p new_size : Nat) : Option (Nat × σ) := do
  let src := wordAdd sizeT A.buffer_ p
  let old_size := A.blockSize s p
  let (dst, new_p, s) ← allocatePtr A (OffsetPointer Nat) s new_size
  if dst = 0 ∧ old_size ≠ 0 then none
  else
    let s ← A.freeOffsetNoNullCheck (A.memcpy s dst src old_size) p
    some (new_p.off_, s)

def reallocate (s : σ) (p : P) (new_size : Nat) : Option (Bool × P × σ) := do
  if isNull p then
    let (p, s) ← allocate A P s new_size
    some (true, p, s)
  else
    let (new_p, s) ← reallocateOffsetNoNullCheck A s (load p) new_size
    some (new_p = load p, store p new_p, s)

def reallocatePtr (s : σ) (p : P) (new_size : Nat) : Option (Nat × P × σ) := do
  let (_, p, s) ← reallocate A s p new_size
  some (convert A p, p, s)

end

/-- A call that asks for memory. -/
inductive Call (P : Type)
  | allocateOffset (size : Nat)
  | allocate (size : Nat)
  | allocatePtr (size : Nat)
  | allocateLocalPtr (size : Nat)
  | allocateObjs (count sizeof_ : Nat)
  | reallocatePtr (p : P) (new_size : Nat)

namespace Call

variable {σ P : Type} [ShmPointer Nat P]

/-- The bytes that come to the core allocator. -/
def size : Call P → Nat
  | allocateOffset size | allocate size | allocatePtr size | allocateLocalPtr size => size
  | allocateObjs count sizeof_ => count * sizeof_ % sizeT
  | reallocatePtr _ new_size => new_size

/-- Whether the caller gets a null, and the state after the call. -/
def answer (A : Core σ) (s : σ) : Call P → Option (Bool × σ)
  | allocateOffset size => (A.allocateOffset s size).map fun (off, s) => (off = nullOff, s)
  | allocate size => (BaseAllocator.allocate A P s size).map fun (p, s) => (isNull p, s)
  | allocatePtr size => (BaseAllocator.allocatePtr A P s size).map fun (ptr, _, s) => (ptr = 0, s)
  | allocateLocalPtr size =>
    (BaseAllocator.allocateLocalPtr A P s size).map fun (p, s) => (p.isNull, s)
  | allocateObjs count sizeof_ =>
    (BaseAllocator.allocateObjs A P s count sizeof_).map fun (ptr, _, s) => (ptr = 0, s)
  | reallocatePtr p new_size =>
    (BaseAllocator.reallocatePtr A s p new_size).map fun (ptr, _, s) => (ptr = 0, s)

/-- The call moves a block that there is. -/
def Moves : Call P → Prop
  | reallocatePtr p _ => isNull p = false
  | _ => False

def IsOffset : Call P → Prop
  | allocateOffset _ => True
  | _ => False

end Call

/-! ## A null offset -/

variable {σ P : Type} [ShmPointer Nat P] {A : Core σ} {s s' : σ} {size : Nat}

/-- The address at the null offset is not null. -/
theorem buffer_nullOff (A : Core σ) : wordAdd sizeT A.buffer_ nullOff ≠ 0 := by
  have hlt := A.buffer_lt
  have hne := A.buffer_ne
  unfold wordAdd nullOff
  unfold sizeT at hlt ⊢
  omega

theorem allocate_null (h : A.allocateOffset s size = some (nullOff, s')) :
    allocate A P s size = some (ofOffset A.id_ nullOff, s') := by
  simp only [allocate, h, Option.bind_eq_bind, Option.bind_some]

/-- The address is null where the pointer tells so. -/
theorem convert_null (A : Core σ) : decide (convert A (ofOffset A.id_ nullOff : P) = 0) =
    isNull (ofOffset A.id_ nullOff : P) := by
  unfold convert
  split
  · rw [‹isNull _ = true›]
    rfl
  · rw [load_ofOffset, decide_eq_false (buffer_nullOff A), eq_comm]
    simpa using ‹¬ isNull _ = true›

theorem allocatePtr_null (h : A.allocateOffset s size = some (nullOff, s')) :
    allocatePtr A P s size =
      some (convert A (ofOffset A.id_ nullOff : P), ofOffset A.id_ nullOff, s') := by
  simp only [allocatePtr, allocate_null h, Option.bind_eq_bind, Option.bind_some, convert]
  split <;> rfl

/-- Without a new block, a block is not kept: the bytes are copied to the null address, or
there are none and the old block is freed. -/
theorem reallocateOffset_null {p new_size : Nat} {r : Nat × σ}
    (h : A.allocateOffset s new_size = some (nullOff, s')) :
    reallocateOffsetNoNullCheck A s p new_size = some r → r.2 ≠ s' := by
  have hp : (convert A (ofOffset A.id_ nullOff : OffsetPointer Nat)) = 0 := rfl
  simp only [reallocateOffsetNoNullCheck, allocatePtr_null h, Option.bind_eq_bind, Option.bind_some,
    hp, true_and, ne_eq]
  split
  · nofun
  · rename_i hzero
    have hzero : A.blockSize s p = 0 := by simpa using hzero
    rw [hzero, A.memcpy_zero]
    intro hr
    obtain ⟨s'', hs, hr⟩ := Option.bind_eq_some_iff.mp hr
    cases hr
    exact A.free_ne _ _ _ hs

/-- A call that neither is for an offset nor moves a block tells the null as its pointer
does. -/
theorem answer_null {c : Call P} (h : A.allocateOffset s c.size = some (nullOff, s'))
    (ho : ¬ c.IsOffset) (hm : ¬ c.Moves) :
    c.answer A s = some (isNull (ofOffset A.id_ nullOff : P), s') := by
  cases c with
  | allocateOffset size => exact absurd trivial ho
  | allocate size =>
    replace h : A.allocateOffset s size = some (nullOff, s') := h
    simp only [Call.answer, allocate_null h, Option.map_some]
  | allocatePtr size =>
    replace h : A.allocateOffset s size = some (nullOff, s') := h
    simp only [Call.answer, allocatePtr_null h, Option.map_some, convert_null]
  | allocateLocalPtr size =>
    replace h : A.allocateOffset s size = some (nullOff, s') := h
    simp only [Call.answer, allocateLocalPtr, allocatePtr_null h, Option.bind_eq_bind,
      Option.bind_some, Option.map_some, FullPtr.isNull, convert_null]
  | allocateObjs count sizeof_ =>
    replace h : A.allocateOffset s (count * sizeof_ % sizeT) = some (nullOff, s') := h
    simp only [Call.answer, allocateObjs, allocatePtr_null h, Option.map_some, convert_null]
  | reallocatePtr p new_size =>
    replace h : A.allocateOffset s new_size = some (nullOff, s') := h
    have hp : isNull p = true := by simpa [Call.Moves] using hm
    simp only [Call.answer, reallocatePtr, reallocate, hp, if_true, allocate_null h,
      Option.bind_eq_bind, Option.bind_some, Option.map_some, convert_null]

/-- A call that moves a block does not end with the block as it was. -/
theorem answer_moves {c : Call P} {b : Bool} (h : A.allocateOffset s c.size = some (nullOff, s'))
    (hm : c.Moves) : c.answer A s ≠ some (b, s') := by
  intro he
  cases c with
  | reallocatePtr p new_size =>
    have hp : isNull p = false := hm
    obtain ⟨⟨ptr, q, s₁⟩, hptr, he⟩ := Option.map_eq_some_iff.mp he
    obtain ⟨⟨b', q', s₂⟩, hmove, hq⟩ := Option.bind_eq_some_iff.mp hptr
    simp only [reallocate, hp, Bool.false_eq_true, if_false] at hmove
    obtain ⟨r, hr, hq'⟩ := Option.bind_eq_some_iff.mp hmove
    cases hq'
    cases hq
    exact reallocateOffset_null (show A.allocateOffset s new_size = _ from h) hr
      (congrArg Prod.snd he)
  | _ => exact hm

/-- After a null offset the caller gets a null and nothing else is done, where the type of
the pointer tells the null and no block is moved. -/
theorem answer_iff {c : Call P} (h : A.allocateOffset s c.size = some (nullOff, s')) :
    c.answer A s = some (true, s') ↔
      c.IsOffset ∨ isNull (ofOffset A.id_ nullOff : P) = true ∧ ¬ c.Moves := by
  by_cases ho : c.IsOffset
  · refine iff_of_true ?_ (.inl ho)
    cases c with
    | allocateOffset size =>
      replace h : A.allocateOffset s size = some (nullOff, s') := h
      simp only [Call.answer, h, Option.map_some, decide_true]
    | _ => exact ho.elim
  · by_cases hm : c.Moves
    · refine iff_of_false (answer_moves h hm) fun hc => ?_
      rcases hc with hc | ⟨-, hc⟩
      · exact ho hc
      · exact hc hm
    · rw [answer_null h ho hm]
      simp only [Option.some.injEq, Prod.mk.injEq, and_true, ho, hm, not_false_eq_true, false_or]

/-- A call crashes with the core allocator. -/
theorem answer_none {c : Call P} (h : A.allocateOffset s c.size = none) : c.answer A s = none := by
  have hptr : ∀ (P : Type) [ShmPointer Nat P], allocatePtr A P s c.size = none := fun P _ => by
    simp only [allocatePtr, allocate, h, Option.bind_eq_bind, Option.bind_none]
  cases c with
  | allocateOffset size =>
    simp only [Call.answer, show A.allocateOffset s size = none from h, Option.map_none]
  | allocate size =>
    replace h : A.allocateOffset s size = none := h
    simp only [Call.answer, allocate, h, Option.bind_eq_bind, Option.bind_none, Option.map_none]
  | allocatePtr size =>
    simp only [Call.answer, show allocatePtr A P s size = none from hptr P, Option.map_none]
  | allocateLocalPtr size =>
    simp only [Call.answer, allocateLocalPtr, show allocatePtr A P s size = none from hptr P,
      Option.bind_eq_bind, Option.bind_none, Option.map_none]
  | allocateObjs count sizeof_ =>
    simp only [Call.answer, allocateObjs,
      show allocatePtr A P s (count * sizeof_ % sizeT) = none from hptr P, Option.map_none]
  | reallocatePtr p new_size =>
    replace h : A.allocateOffset s new_size = none := h
    have hmove : reallocateOffsetNoNullCheck A s (load p) new_size = none := by
      simp only [reallocateOffsetNoNullCheck,
        show allocatePtr A (OffsetPointer Nat) s new_size = none from hptr (OffsetPointer Nat),
        Option.bind_eq_bind, Option.bind_none]
    simp only [Call.answer, reallocatePtr, reallocate, allocate, h, hmove, Option.bind_eq_bind,
      Option.bind_none, ite_self, Option.map_none]

/-! ## Core allocators -/

theorem stack_freeOffset_ok {s s' : StackAllocator.State} {p : Nat}
    (h : (StackAllocator.freeOffsetNoNullCheck s p).toOption = some s') :
    isAllocated s.mem (p - mpPage) = true ∧ s'.mem = unsetAllocated s.mem (p - mpPage) := by
  simp only [StackAllocator.freeOffsetNoNullCheck] at h
  split at h
  · cases h
  · cases h
    rename_i hset
    exact ⟨by simpa using hset, rfl⟩

/-- `StackAllocator` -/
def stackCore (id_ : AllocatorId) (buffer_ : Nat) (buffer_lt : buffer_ < sizeT)
    (buffer_ne : buffer_ ≠ 1) : Core StackAllocator.State where
  id_ := id_
  buffer_ := buffer_
  allocateOffset := StackAllocator.allocateOffset
  blockSize s p := wordSub sizeT (page_size_.get s.mem (p - mpPage)) mpPage
  memcpy s dst src n :=
    { s with mem := s.mem.copy (wordSub sizeT dst buffer_) (wordSub sizeT src buffer_) n }
  freeOffsetNoNullCheck s p := (StackAllocator.freeOffsetNoNullCheck s p).toOption
  buffer_lt := buffer_lt
  buffer_ne := buffer_ne
  memcpy_zero s dst src := by
    have hcopy := s.mem.copy_sameOff (wordSub sizeT dst buffer_) (wordSub sizeT src buffer_) 0
    have hsame : s.mem.copy (wordSub sizeT dst buffer_) (wordSub sizeT src buffer_) 0 = s.mem :=
      funext fun x => hcopy x (Nat.lt_or_ge ..)
    rw [hsame]
  free_ne s p s' h he := by
    rw [he] at h
    obtain ⟨hset, hmem⟩ := stack_freeOffset_ok h
    have hunset := congrArg (isAllocated · (p - mpPage)) hmem
    simp only [isAllocated_unsetAllocated, hset, Bool.true_eq_false] at hunset

/-- `GpuStackAllocator`, which has no page headers; its `Free` and its reallocation throw. -/
def gpuStackCore (id_ : AllocatorId) (buffer_ : Nat) (buffer_lt : buffer_ < sizeT)
    (buffer_ne : buffer_ ≠ 1) : Core (HeapAllocator × Nat) where
  id_ := id_
  buffer_ := buffer_
  allocateOffset s size :=
    let (off, heap_) := s.1.allocateOffset size
    some (off.getD nullOff, (heap_, wordAdd sizeT s.2 size))
  blockSize _ _ := 0
  memcpy s _ _ _ := s
  freeOffsetNoNullCheck _ _ := none
  buffer_lt := buffer_lt
  buffer_ne := buffer_ne
  memcpy_zero _ _ _ := rfl
  free_ne := nofun

/-- **A null is told after a refused request** only by an offset pointer or an allocator
with the null id, and never where a block is moved or by the stack allocator, which crashes. -/
theorem exhausted_null_iff {σ : Type} (A : Core σ) (s s' : σ) (t : StackAllocator.State) :
    (∀ c : Call (OffsetPointer Nat), A.allocateOffset s c.size = some (nullOff, s') →
      (c.answer A s = some (true, s') ↔ ¬ c.Moves)) ∧
    (∀ c : Call (Pointer Nat), A.allocateOffset s c.size = some (nullOff, s') →
      (c.answer A s = some (true, s') ↔
        c.IsOffset ∨ A.id_ = AllocatorId.getNull ∧ ¬ c.Moves)) ∧
    ∀ id_ buffer_ hlt hne,
      (∀ c : Call (OffsetPointer Nat), StackAllocator.Refused t c.size →
        c.answer (stackCore id_ buffer_ hlt hne) t = none) ∧
      ∀ c : Call (Pointer Nat), StackAllocator.Refused t c.size →
        c.answer (stackCore id_ buffer_ hlt hne) t = none := by
  refine ⟨fun c h => ?_, fun c h => ?_, fun id_ buffer_ hlt hne =>
    ⟨fun c h => answer_none (StackAllocator.refused_no_result h),
      fun c h => answer_none (StackAllocator.refused_no_result h)⟩⟩
  · rw [answer_iff h]
    refine ⟨fun hc => ?_, fun hm => .inr ⟨rfl, hm⟩⟩
    rcases hc with hc | ⟨-, hc⟩
    · cases c <;> first | exact hc.elim | exact id
    · exact hc
  · rw [answer_iff h]
    simp only [isNull, ofOffset, decide_eq_true_eq]

/-- A heap of 100 bytes: the null is told by an offset pointer, not by a pointer. -/
theorem exhausted_null_iff_small :
    (Call.allocatePtr 200 : Call (OffsetPointer Nat)).answer
      (gpuStackCore ⟨1, 0⟩ 4096 (by decide) (by decide)) (.shmInit 0 100, 0) =
        some (true, (⟨0, 200, 100⟩, 200)) ∧
    (Call.allocatePtr 200 : Call (Pointer Nat)).answer
      (gpuStackCore ⟨1, 0⟩ 4096 (by decide) (by decide)) (.shmInit 0 100, 0) ≠
        some (true, (⟨0, 200, 100⟩, 200)) := by
  let A := gpuStackCore ⟨1, 0⟩ 4096 (by decide) (by decide)
  obtain ⟨hoff, hptr, -⟩ := exhausted_null_iff A (.shmInit 0 100, 0) (⟨0, 200, 100⟩, 200)
    (StackAllocator.shmInit 112 4096 fun _ => 0)
  refine ⟨(hoff (.allocatePtr 200) rfl).mpr id, fun hc => ?_⟩
  rcases (hptr (.allocatePtr 200) rfl).mp hc with hc | ⟨hc, -⟩
  · exact hc
  · exact absurd hc (by decide)

/-- **A refused request gives the address before the buffer**, in an allocator with an id
of its own; the stack allocator writes to the null page. -/
theorem refused_address_wild :
    ¬ (∀ (σ : Type) (A : Core σ) (s s' : σ) (c : Call (Pointer Nat)),
      A.allocateOffset s c.size = some (nullOff, s') → c.answer A s = some (true, s')) ∧
    ¬ ∀ (s : StackAllocator.State) (size : Nat), StackAllocator.Refused s size →
      ∃ s', StackAllocator.allocateOffset s size = some (nullOff, s') := by
  refine ⟨fun h => ?_, fun h => ?_⟩
  · have hwild : allocatePtr (gpuStackCore ⟨1, 0⟩ 4096 (by decide) (by decide)) (Pointer Nat)
        (.shmInit 0 100, 0) 200 = some (4095, ⟨⟨1, 0⟩, nullOff⟩, (⟨0, 200, 100⟩, 200)) := rfl
    have hc := h _ (gpuStackCore ⟨1, 0⟩ 4096 (by decide) (by decide)) (.shmInit 0 100, 0)
      (⟨0, 200, 100⟩, 200) (.allocatePtr 200) rfl
    simp only [Call.answer, hwild, Option.map_some] at hc
    cases hc
  · have href : StackAllocator.Refused (StackAllocator.shmInit 112 4096 fun _ => 0) 8192 := by
      unfold StackAllocator.Refused
      decide
    obtain ⟨s', hs⟩ := h _ 8192 href
    rw [StackAllocator.refused_no_result href] at hs
    cases hs

end HermesShm.Memory.BaseAllocator
