import HermesShm.Memory.NearestAllocator
import HermesShm.Memory.ShmPointer

/-! # Pointers of a process and pointers of the shared memory

A pointer of the shared memory is the id of an allocator and an offset into its
buffer. A pointer of the process is an address, with 0 for null. -/
namespace HermesShm.Memory.AllocatorRegistry
open HermesShm.Base

instance : Offset UInt64 := ⟨sizeMax⟩

section
variable {P : Type} [ShmPointer UInt64 P]

/-- The address of `p`. -/
def Allocator.convert (a : Allocator Object) (p : P) : UInt64 :=
  if ShmPointer.isNull p then 0 else a.ptr.buffer_ + ShmPointer.load p

variable (P) in
/-- The pointer to the address `ptr`. -/
def Allocator.convertPtr (a : Allocator Object) (ptr : UInt64) : P :=
  if ptr = 0 then ShmPointer.getNull else ShmPointer.ofOffset a.id_ (ptr - a.ptr.buffer_)

variable (P) in
/-- Nothing is returned where the id finds no allocator. -/
def convertPtrOf (r : Registry Object) (allocator_id : AllocatorId) (ptr : UInt64) : Option P :=
  (getAllocator r allocator_id).map (·.convertPtr P ptr)

end

/-- Nothing is returned where the id of `p` finds no allocator. -/
def convert (r : Registry Object) (p : Pointer UInt64) : Option UInt64 :=
  if ShmPointer.isNull p then some 0 else (getAllocator r p.alloc_id_).map (·.convert p)

def convertPtr (r : Registry Object) (ptr : UInt64) : Pointer UInt64 :=
  match findNearestAllocator r ptr with
  | some best_alloc => best_alloc.convertPtr (Pointer UInt64) ptr
  | none => ShmPointer.getNull

/-- The address `ptr` is converted to a pointer, and this one back. -/
def RawRoundTrip (r : Registry Object) (ptr : UInt64) : Prop :=
  ShmPointer.isNull (convertPtr r ptr) = false ∧ convert r (convertPtr r ptr) = some ptr

/-- The offset `off` is converted to an address, and this one back, by the allocator and
by its id. -/
def OffsetRoundTrip (P : Type) [ShmPointer UInt64 P] (r : Registry Object) (a : Allocator Object)
    (off : UInt64) : Prop :=
  a.convertPtr P (a.convert (ShmPointer.ofOffset a.id_ off : P)) = ShmPointer.ofOffset a.id_ off ∧
    convertPtrOf P r a.id_ (a.convert (ShmPointer.ofOffset a.id_ off : P)) =
      some (ShmPointer.ofOffset a.id_ off)

/-! ## Slots -/

/-- Every allocator is in the slot that its id maps to. -/
def Placed (r : Registry Object) : Prop :=
  ∀ i a, r.allocators_ i = some a → a.id_.toIndex = i

variable {r : Registry Object} {a : Allocator Object} {s t : State Object}

theorem Placed.setSlot {i : Nat} {v : Option (Allocator Object)} (h : Placed r)
    (hv : ∀ a, v = some a → a.id_.toIndex = i) : Placed (r.setSlot i v) := by
  intro j b hb
  have hslots : (r.setSlot i v).allocators_ = Function.update r.allocators_ i v := rfl
  rw [hslots] at hb
  by_cases hj : j = i
  · subst hj
    exact hv b (by rwa [Function.update_self] at hb)
  · exact h j b (by rwa [Function.update_of_ne hj] at hb)

theorem Placed.updateDefault (h : Placed r) : Placed (r.updateDefault a) := by
  intro i b hb
  rw [updateDefault_allocators] at hb
  exact h i b hb

theorem Placed.register (h : Placed r) (alloc : Option (Allocator Object)) :
    Placed (registerAllocatorNoScan r alloc).2 := by
  cases alloc with
  | none => exact h
  | some a =>
    obtain ⟨-, he⟩ | ⟨-, he⟩ := register_cases r a <;> rw [he]
    · exact h.updateDefault
    · refine h.updateDefault.setSlot fun b hb => ?_
      cases hb
      rfl

theorem Placed.unregister (h : Placed r) (id : AllocatorId) :
    Placed (unregisterAllocator r id).2 := by
  intro i b hb
  rw [unregister_allocators] at hb
  exact h.setSlot (v := none) nofun i b hb

theorem init_placed (root : Object) : Placed (init root).registry :=
  Placed.register (r := { allocators_ := fun _ => none, default_allocator_ := _, root_alloc_ := _ })
    nofun _

/-- Bookkeeping leaves the table that a registration makes. -/
theorem record_registry (s : State Object) (res : Except Error (Option (Allocator Object)))
    (r : Registry Object) : (record s (res, r)).2.registry = r := by
  unfold record
  split <;> simp_all

theorem Placed.step {op : Op Object} (h : Placed s.registry) (hs : step s op = some t) :
    Placed t.registry := by
  have hreg : ∀ (s : State Object) alloc, Placed s.registry →
      Placed (AllocatorRegistry.register s alloc).2.registry := fun s alloc h => by
    rw [AllocatorRegistry.register, record_registry]
    exact h.register alloc
  cases op with
  | registerNoScan alloc | registerSub alloc =>
    cases hs
    exact hreg s alloc h
  | registerPage a sub =>
    have hsub := hreg s (some ⟨a.id_.sub, sub⟩) h
    rw [AllocatorRegistry.step, registerSub, registerSubAllocator,
      ← AllocatorRegistry.register] at hs
    split at hs <;> rename_i he <;> cases hs <;> rw [he] at hsub
    · exact hsub
    · exact hreg _ _ hsub
  | unregister id =>
    cases hs
    exact h.unregister id

/-- A registered allocator is found by its id. -/
theorem Placed.getAllocator (h : Placed r) (ha : r.Registered a) :
    AllocatorRegistry.getAllocator r a.id_ = some a := by
  obtain ⟨i, -, hi⟩ := ha
  rw [AllocatorRegistry.getAllocator, h i a hi, hi]

/-- No slot is that of the null id. -/
theorem Placed.id_ne (h : Placed r) (ha : r.Registered a) : a.id_ ≠ .getNull := by
  obtain ⟨i, hlt, hi⟩ := ha
  intro he
  have hidx := h i a hi
  rw [he] at hidx
  have : AllocatorId.getNull.toIndex = 2 ^ 32 - 3 := by decide
  have : HSHM_MAX_ALLOCATORS = 64 := rfl
  omega

/-! ## Round trips -/

theorem Placed.raw_round_trip {ptr : UInt64} (h : Placed r) (hne : ptr ≠ 0)
    (hc : ∃ a, r.Registered a ∧ a.ptr.containsPtr ptr = true) : RawRoundTrip r ptr := by
  obtain ⟨hnull, hfound⟩ := findNearestAllocator_sound r ptr
  obtain ⟨a, ha, has⟩ := hc
  cases he : findNearestAllocator r ptr with
  | none =>
    rw [hnull.mp he a ha] at has
    cases has
  | some b =>
    obtain ⟨hb, -⟩ := hfound b he
    have hp : convertPtr r ptr = ⟨b.id_, ptr - b.ptr.buffer_⟩ := by
      rw [convertPtr, he]
      exact if_neg hne
    have hid : ShmPointer.isNull (⟨b.id_, ptr - b.ptr.buffer_⟩ : Pointer UInt64) = false :=
      decide_eq_false (h.id_ne hb)
    have hback : b.convert (⟨b.id_, ptr - b.ptr.buffer_⟩ : Pointer UInt64) = ptr := by
      simp only [Allocator.convert, hid, Bool.false_eq_true, if_false, ShmPointer.load]
      rw [UInt64.add_comm, UInt64.sub_add_cancel]
    rw [RawRoundTrip, hp, convert, hid]
    exact ⟨rfl, by simp only [Bool.false_eq_true, if_false, h.getAllocator hb, Option.map_some,
      hback]⟩

theorem Placed.offset_round_trip {P : Type} [ShmPointer UInt64 P] {off : UInt64} (h : Placed r)
    (ha : r.Registered a) (hnull : ShmPointer.isNull (ShmPointer.ofOffset a.id_ off : P) = false)
    (hne : a.ptr.buffer_ + off ≠ 0) : OffsetRoundTrip P r a off := by
  have hraw : a.convert (ShmPointer.ofOffset a.id_ off : P) = a.ptr.buffer_ + off := by
    rw [Allocator.convert, hnull, ShmPointer.load_ofOffset]
    rfl
  have hback : a.convertPtr P (a.ptr.buffer_ + off) = ShmPointer.ofOffset a.id_ off := by
    rw [Allocator.convertPtr, if_neg hne, UInt64.add_comm, UInt64.add_sub_cancel]
  rw [OffsetRoundTrip, hraw, convertPtrOf, h.getAllocator ha, Option.map_some, hback]
  exact ⟨rfl, rfl⟩

/-- **Conversions go back.** In every run each address but null inside a registered
allocator, and each offset into one at another address than null, comes back. -/
theorem conversions_go_back {root : Object} {ops : List (Op Object)}
    (hr : Run step Unrestricted (init root) ops s) :
    (∀ ptr, ptr ≠ 0 → (∃ a, s.registry.Registered a ∧ a.ptr.containsPtr ptr = true) →
      RawRoundTrip s.registry ptr) ∧
    ∀ a, s.registry.Registered a → ∀ off, off < a.ptr.buffer_size_ → a.ptr.buffer_ + off ≠ 0 →
      OffsetRoundTrip (Pointer UInt64) s.registry a off ∧
        OffsetRoundTrip (OffsetPointer UInt64) s.registry a off := by
  have hp : Placed s.registry := hr.invariant (I := fun s => Placed s.registry)
    (init_placed root) fun _ _ _ h _ hs => h.step hs
  refine ⟨fun ptr hne hc => hp.raw_round_trip hne hc, fun a ha off hlt hne => ⟨?_, ?_⟩⟩
  · exact hp.offset_round_trip ha (decide_eq_false (hp.id_ne ha)) hne
  · have hoff : off ≠ sizeMax := by
      rintro rfl
      exact UInt64.lt_irrefl _ (UInt64.lt_of_lt_of_le hlt (le_sizeMax _))
    exact hp.offset_round_trip ha (decide_eq_false hoff) hne

/-- A `MallocAllocator`: its buffer is all the memory of the process. -/
def processMemory : Allocator Object :=
  { id_ := ⟨4, 0⟩, ptr := { addr := 3, buffer_ := 0, buffer_size_ := sizeMax } }

/-- An address in the memory of the process and in an internal allocator. -/
theorem conversions_go_back_page : ∃ s : State Object,
    Run step Unrestricted (init smallRoot) [.registerNoScan (some processMemory),
      .registerPage smallPage smallSub, .unregister ⟨1, 0⟩] s ∧
    RawRoundTrip s.registry 135424 ∧
      OffsetRoundTrip (Pointer UInt64) s.registry processMemory 135424 := by
  have hex : (exec step (init smallRoot) [.registerNoScan (some processMemory),
      .registerPage smallPage smallSub, .unregister ⟨1, 0⟩]).map (·.registry.allocators_ 8) =
      some (some processMemory) := by
    decide +kernel
  obtain ⟨s, hs, hslot⟩ := Option.map_eq_some_iff.mp hex
  have hrun := run_iff_exec.mpr hs
  have hreg : s.registry.Registered processMemory := ⟨8, by decide, hslot⟩
  exact ⟨s, hrun, (conversions_go_back hrun).1 _ (by decide) ⟨_, hreg, by decide⟩,
    ((conversions_go_back hrun).2 _ hreg _ (by decide) (by decide)).1⟩

/-- **Null is not converted to an offset.** It is offset 0 of an allocator of all the
memory of the process. -/
theorem null_not_converted : ¬ ∀ (root : Object) (ops : List (Op Object)) (s : State Object),
    Run step Unrestricted (init root) ops s →
    (∀ ptr, (∃ a, s.registry.Registered a ∧ a.ptr.containsPtr ptr = true) →
      RawRoundTrip s.registry ptr) ∧
    ∀ a, s.registry.Registered a → ∀ off, off < a.ptr.buffer_size_ →
      OffsetRoundTrip (Pointer UInt64) s.registry a off ∧
        OffsetRoundTrip (OffsetPointer UInt64) s.registry a off := by
  intro h
  have hex : (exec step (init smallRoot) [.registerNoScan (some processMemory)]).map
      (fun s => s.registry.allocators_ 8) = some (some processMemory) := by
    decide +kernel
  obtain ⟨s, hs, hslot⟩ := Option.map_eq_some_iff.mp hex
  have hreg : s.registry.Registered processMemory := ⟨8, by decide, hslot⟩
  have hoff := ((h _ _ s (run_iff_exec.mpr hs)).2 processMemory hreg 0 (by decide)).2.1
  exact absurd hoff (by decide)

end HermesShm.Memory.AllocatorRegistry
