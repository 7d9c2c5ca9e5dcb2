import HermesShm.Base.Transition
import Mathlib.Logic.Function.Basic

/-! # The allocator table of the memory manager

An allocator is found by its id, through the slot of `allocators_` that the id
maps to. A page allocator registers its internal stack allocator too. -/
namespace HermesShm.Memory.AllocatorRegistry
open HermesShm.Base

structure AllocatorId where
  major_ : Int32
  minor_ : Int32
  deriving DecidableEq

def AllocatorId.toIndex (id : AllocatorId) : Nat := (id.major_ * 2 + id.minor_).toUInt32.toNat

/-- The id of the internal allocator of a page allocator. -/
def AllocatorId.sub (id : AllocatorId) : AllocatorId := ⟨id.major_, id.minor_ + 1⟩

theorem AllocatorId.toIndex_sub_ne (id : AllocatorId) : id.sub.toIndex ≠ id.toIndex := by
  intro h
  have hu := UInt32.toNat_inj.mp h
  have hb := congrArg UInt32.toBitVec hu
  simp only [sub, Int32.toBitVec_toUInt32, Int32.toBitVec_add, Int32.toBitVec_mul] at hb
  rw [← BitVec.add_assoc, BitVec.add_right_eq_self] at hb
  exact absurd hb (by decide)

def HSHM_MAX_ALLOCATORS : Nat := 64

/-- A pointer to an allocator, with the id the object answers to `GetId`. -/
structure Allocator (α : Type) where
  id_ : AllocatorId
  ptr : α
  deriving DecidableEq

structure Registry (α : Type) where
  /-- The words from `allocators_` on: those from `HSHM_MAX_ALLOCATORS` on are
  not of the table. -/
  allocators_ : Nat → Option (Allocator α)
  default_allocator_ : Option (Allocator α)
  root_alloc_ : Allocator α

inductive Error
  | TOO_MANY_ALLOCATORS
  deriving DecidableEq

variable {α : Type}

/-- `minor_ == 0` keeps internal allocators from becoming the default. -/
def Registry.updateDefault [DecidableEq α] (r : Registry α) (a : Allocator α) : Registry α :=
  if (r.default_allocator_.map (·.ptr) = none ∨
      r.default_allocator_.map (·.ptr) = some r.root_alloc_.ptr) ∧ a.id_.minor_ = 0 then
    { r with default_allocator_ := some a }
  else r

def Registry.setSlot (r : Registry α) (idx : Nat) (a : Option (Allocator α)) : Registry α :=
  { r with allocators_ := Function.update r.allocators_ idx a }

/-- The default is updated before the bound test, also when the test fails. -/
def registerAllocatorNoScan [DecidableEq α] (r : Registry α) :
    Option (Allocator α) → Except Error (Option (Allocator α)) × Registry α
  | none => (.ok none, r)
  | some a =>
    let r := r.updateDefault a
    let idx := a.id_.toIndex
    if idx > HSHM_MAX_ALLOCATORS then (.error .TOO_MANY_ALLOCATORS, r)
    else (.ok (some a), r.setSlot idx (some a))

def registerSubAllocator [DecidableEq α] (r : Registry α) (a : Option (Allocator α)) :
    Except Error (Option (Allocator α)) × Registry α :=
  registerAllocatorNoScan r a

def unregisterAllocator (r : Registry α) (id : AllocatorId) :
    Option (Allocator α) × Registry α :=
  let r := if r.default_allocator_.map (·.id_) = some id then
    { r with default_allocator_ := some r.root_alloc_ } else r
  (r.allocators_ id.toIndex, r.setSlot id.toIndex none)

def getAllocator (r : Registry α) (id : AllocatorId) : Option (Allocator α) :=
  r.allocators_ id.toIndex

def root_alloc_id_ : AllocatorId := ⟨0, 0⟩

/-- The root allocator is the default, then registered. -/
def Registry.init [DecidableEq α] (root : α) : Registry α :=
  let root_alloc_ : Allocator α := ⟨root_alloc_id_, root⟩
  (registerAllocatorNoScan
    { allocators_ := fun _ => none, default_allocator_ := some root_alloc_, root_alloc_ }
    (some root_alloc_)).2

section
variable [DecidableEq α] {r : Registry α} {a : Allocator α}

@[simp] theorem updateDefault_allocators : (r.updateDefault a).allocators_ = r.allocators_ := by
  unfold Registry.updateDefault
  split <;> rfl

@[simp] theorem updateDefault_root : (r.updateDefault a).root_alloc_ = r.root_alloc_ := by
  unfold Registry.updateDefault
  split <;> rfl

theorem register_cases (r : Registry α) (a : Allocator α) :
    (a.id_.toIndex > HSHM_MAX_ALLOCATORS ∧
      registerAllocatorNoScan r (some a) = (.error .TOO_MANY_ALLOCATORS, r.updateDefault a)) ∨
    (a.id_.toIndex ≤ HSHM_MAX_ALLOCATORS ∧ registerAllocatorNoScan r (some a) =
      (.ok (some a), (r.updateDefault a).setSlot a.id_.toIndex (some a))) := by
  by_cases h : a.id_.toIndex > HSHM_MAX_ALLOCATORS
  · exact .inl ⟨h, if_pos h⟩
  · exact .inr ⟨Nat.not_lt.mp h, if_neg h⟩

end

@[simp] theorem unregister_allocators (r : Registry α) (id : AllocatorId) :
    (unregisterAllocator r id).2.allocators_ = Function.update r.allocators_ id.toIndex none := by
  unfold unregisterAllocator Registry.setSlot
  dsimp only
  split <;> rfl

theorem unregister_root (r : Registry α) (id : AllocatorId) :
    (unregisterAllocator r id).2.root_alloc_ = r.root_alloc_ := by
  unfold unregisterAllocator Registry.setSlot
  dsimp only
  split <;> rfl

theorem unregister_fst (r : Registry α) (id : AllocatorId) :
    (unregisterAllocator r id).1 = getAllocator r id := by
  unfold unregisterAllocator getAllocator
  dsimp only
  split <;> rfl

theorem unregister_default (r : Registry α) (id : AllocatorId) :
    (unregisterAllocator r id).2.default_allocator_ =
      if r.default_allocator_.map (·.id_) = some id then some r.root_alloc_
      else r.default_allocator_ := by
  unfold unregisterAllocator Registry.setSlot
  dsimp only
  split <;> rfl

/-! ## Runs -/

inductive Op (α : Type)
  | registerNoScan (a : Option (Allocator α))
  | registerSub (a : Option (Allocator α))
  /-- `shm_init` of a page allocator with its internal allocator at `sub`. -/
  | registerPage (a : Allocator α) (sub : α)
  | unregister (id : AllocatorId)

/-- The ids that a call registers or unregisters. -/
def Op.ids : Op α → List AllocatorId
  | .registerNoScan a | .registerSub a => (a.map (·.id_)).toList
  | .registerPage a _ => [a.id_.sub, a.id_]
  | .unregister id => [id]

structure State (α : Type) where
  registry : Registry α
  /-- The allocator last accepted under each id, if not since unregistered; no
  operation reads it. -/
  accepted : List (Allocator α)
  /-- The slots that accepted registrations wrote; no operation reads it. -/
  written : List Nat

/-- The ids other than `id`. -/
def others (accepted : List (Allocator α)) (id : AllocatorId) : List (Allocator α) :=
  accepted.filter (·.id_ ≠ id)

section
variable [DecidableEq α]

def init (root : α) : State α where
  registry := .init root
  accepted := [⟨root_alloc_id_, root⟩]
  written := [root_alloc_id_.toIndex]

def record (s : State α) : Except Error (Option (Allocator α)) × Registry α →
    Except Error (Option (Allocator α)) × State α
  | (.ok (some a), r) =>
    (.ok (some a), ⟨r, a :: others s.accepted a.id_, a.id_.toIndex :: s.written⟩)
  | (res, r) => (res, { s with registry := r })

def register (s : State α) (a : Option (Allocator α)) :
    Except Error (Option (Allocator α)) × State α :=
  record s (registerAllocatorNoScan s.registry a)

def registerSub (s : State α) (a : Option (Allocator α)) :
    Except Error (Option (Allocator α)) × State α :=
  record s (registerSubAllocator s.registry a)

/-- The page allocator is registered unless registering its internal one throws. -/
def step (s : State α) : Op α → Option (State α)
  | .registerNoScan a => some (register s a).2
  | .registerSub a => some (registerSub s a).2
  | .registerPage a sub => match registerSub s (some ⟨a.id_.sub, sub⟩) with
    | (.error _, s) => some s
    | (.ok _, s) => some (register s (some a)).2
  | .unregister id =>
    some { s with
      registry := (unregisterAllocator s.registry id).2
      accepted := others s.accepted id }

end

structure Sound (s : State α) : Prop where
  lookup : ∀ a ∈ s.accepted, getAllocator s.registry a.id_ = some a
  inside : ∀ i ∈ s.written, i < HSHM_MAX_ALLOCATORS

/-- No other accepted id shares the slot of `id`. -/
def Clear (accepted : List (Allocator α)) (id : AllocatorId) : Prop :=
  ∀ a ∈ accepted, a.id_ ≠ id → a.id_.toIndex ≠ id.toIndex

/-- What registering `id` asks for: an index past the table other than its
length is rejected. -/
def Registrable (accepted : List (Allocator α)) (id : AllocatorId) : Prop :=
  id.toIndex ≠ HSHM_MAX_ALLOCATORS ∧ Clear accepted id

def Allowed (s : State α) : Op α → Prop
  | .registerNoScan none | .registerSub none => True
  | .registerNoScan (some a) | .registerSub (some a) => Registrable s.accepted a.id_
  | .registerPage a _ => Registrable s.accepted a.id_.sub ∧
    (a.id_.sub.toIndex < HSHM_MAX_ALLOCATORS → Registrable s.accepted a.id_)
  | .unregister id => id.toIndex < HSHM_MAX_ALLOCATORS ∧ Clear s.accepted id

instance (accepted : List (Allocator α)) (id : AllocatorId) :
    Decidable (Registrable accepted id) :=
  inferInstanceAs (Decidable (_ ∧ ∀ a ∈ accepted, _ → _))

instance (s : State α) (op : Op α) : Decidable (Allowed s op) :=
  match op with
  | .registerNoScan none | .registerSub none => .isTrue trivial
  | .registerNoScan (some a) | .registerSub (some a) =>
    inferInstanceAs (Decidable (Registrable s.accepted a.id_))
  | .registerPage _ _ => inferInstanceAs (Decidable (_ ∧ _))
  | .unregister _ => inferInstanceAs (Decidable (_ ∧ ∀ a ∈ s.accepted, _ → _))

/-! ## The invariant -/

structure Inv (s : State α) : Prop extends Sound s where
  lt : ∀ a ∈ s.accepted, a.id_.toIndex < HSHM_MAX_ALLOCATORS

theorem mem_others {accepted : List (Allocator α)} {id : AllocatorId} {a : Allocator α} :
    a ∈ others accepted id ↔ a ∈ accepted ∧ a.id_ ≠ id := by
  simp [others]

/-- The lookups of the ids outside `ids` are as before, and these stay accepted. -/
def Frame (ids : List AllocatorId) (s t : State α) : Prop :=
  ∀ a ∈ s.accepted, a.id_ ∉ ids →
    a ∈ t.accepted ∧ getAllocator t.registry a.id_ = getAllocator s.registry a.id_

theorem Frame.refl {ids : List AllocatorId} {s t : State α} (ha : t.accepted = s.accepted)
    (hr : t.registry.allocators_ = s.registry.allocators_) : Frame ids s t := by
  intro a hm _
  refine ⟨ha ▸ hm, ?_⟩
  unfold getAllocator
  rw [hr]

theorem Frame.trans {ids ids' : List AllocatorId} {s t u : State α} (h : Frame ids s t)
    (h' : Frame ids' t u) : Frame (ids ++ ids') s u := by
  intro a hm hn
  obtain ⟨hl, hr⟩ := not_or.mp (mt List.mem_append.mpr hn)
  obtain ⟨hmt, ht⟩ := h a hm hl
  obtain ⟨hmu, hu⟩ := h' a hmt hr
  exact ⟨hmu, hu.trans ht⟩

/-- Writing the slot of an id that shares it with no other accepted one. -/
theorem Frame.slot {s t : State α} {id : AllocatorId} {v : Option (Allocator α)}
    (hc : Clear s.accepted id) (ha : ∀ a ∈ others s.accepted id, a ∈ t.accepted)
    (hr : t.registry.allocators_ =
      Function.update s.registry.allocators_ id.toIndex v) : Frame [id] s t := by
  intro a hm hn
  have hne : a.id_ ≠ id := fun he => hn (List.mem_singleton.mpr he)
  refine ⟨ha a (mem_others.mpr ⟨hm, hne⟩), ?_⟩
  unfold getAllocator
  rw [hr, Function.update_of_ne (hc a hm hne)]

section
variable [DecidableEq α] {s t : State α} {a : Allocator α}

theorem init_inv (root : α) : Inv (init root) := by
  have hlt : root_alloc_id_.toIndex < HSHM_MAX_ALLOCATORS := by decide
  refine ⟨⟨?_, ?_⟩, ?_⟩
  · intro a hm
    rw [List.mem_singleton.mp hm]
    rfl
  · intro i hm
    exact List.mem_singleton.mp hm ▸ hlt
  · intro a hm
    exact List.mem_singleton.mp hm ▸ hlt

theorem Inv.register (hi : Inv s) (hc : Registrable s.accepted a.id_) :
    Inv (register s (some a)).2 ∧ Frame [a.id_] s (register s (some a)).2 := by
  unfold AllocatorRegistry.register record
  obtain ⟨hidx, h⟩ | ⟨hidx, h⟩ := register_cases s.registry a <;> rw [h]
  · have hr := updateDefault_allocators (r := s.registry) (a := a)
    refine ⟨⟨⟨?_, hi.inside⟩, hi.lt⟩, .refl rfl hr⟩
    intro b hm
    unfold getAllocator
    rw [hr]
    exact hi.lookup b hm
  · have hlt : a.id_.toIndex < HSHM_MAX_ALLOCATORS := Nat.lt_of_le_of_ne hidx hc.1
    have hf : Frame [a.id_] s
        ⟨(s.registry.updateDefault a).setSlot a.id_.toIndex (some a),
          a :: others s.accepted a.id_, a.id_.toIndex :: s.written⟩ :=
      .slot hc.2 (fun b hm => List.mem_cons_of_mem _ hm) (v := some a)
        (by rw [Registry.setSlot, updateDefault_allocators])
    refine ⟨⟨⟨?_, ?_⟩, ?_⟩, hf⟩
    · intro b hm
      rcases List.mem_cons.mp hm with rfl | hm
      · exact Function.update_self ..
      · obtain ⟨hm, hne⟩ := mem_others.mp hm
        rw [(hf b hm (by simpa using hne)).2]
        exact hi.lookup b hm
    · intro i hm
      rcases List.mem_cons.mp hm with rfl | hm
      · exact hlt
      · exact hi.inside i hm
    · intro b hm
      rcases List.mem_cons.mp hm with rfl | hm
      · exact hlt
      · exact hi.lt b (mem_others.mp hm).1

theorem register_ok {v : Option (Allocator α)} (h : register s (some a) = (.ok v, t)) :
    a.id_.toIndex ≤ HSHM_MAX_ALLOCATORS ∧ t.accepted = a :: others s.accepted a.id_ := by
  unfold AllocatorRegistry.register record at h
  obtain ⟨hidx, hr⟩ | ⟨hidx, hr⟩ := register_cases s.registry a <;> rw [hr] at h <;> cases h
  exact ⟨hidx, rfl⟩

theorem Inv.unregister {id : AllocatorId} (hi : Inv s) (hc : Clear s.accepted id)
    (h : step s (.unregister id) = some t) : Inv t ∧ Frame [id] s t := by
  cases h
  have hf : Frame [id] s
      ⟨(unregisterAllocator s.registry id).2, others s.accepted id, s.written⟩ :=
    .slot hc (fun _ hm => hm) (v := none) (unregister_allocators ..)
  refine ⟨⟨⟨?_, hi.inside⟩, fun a hm => hi.lt a (mem_others.mp hm).1⟩, hf⟩
  intro a hm
  obtain ⟨hm, hne⟩ := mem_others.mp hm
  rw [(hf a hm (by simpa using hne)).2]
  exact hi.lookup a hm

theorem Inv.step {op : Op α} (hi : Inv s) (ha : Allowed s op) (h : step s op = some t) :
    Inv t ∧ Frame op.ids s t := by
  cases op with
  | unregister id => exact hi.unregister ha.2 h
  | registerNoScan a | registerSub a =>
    cases h
    cases a with
    | none => exact ⟨hi, .refl rfl rfl⟩
    | some a => exact hi.register ha
  | registerPage a sub =>
    have hsub : Inv (registerSub s (some ⟨a.id_.sub, sub⟩)).2 ∧
        Frame [a.id_.sub] s (registerSub s (some ⟨a.id_.sub, sub⟩)).2 :=
      hi.register ha.1
    simp only [AllocatorRegistry.step] at h
    split at h
    · rename_i e u hu
      cases h
      rw [hu] at hsub
      refine ⟨hsub.1, fun b hm hn => hsub.2 b hm fun hb => hn ?_⟩
      exact List.mem_cons.mpr (.inl (List.mem_singleton.mp hb))
    · rename_i v u hu
      cases h
      rw [hu] at hsub
      obtain ⟨hidx, hacc⟩ := register_ok hu
      have hr := ha.2 (Nat.lt_of_le_of_ne hidx ha.1.1)
      have hmain : Registrable u.accepted a.id_ := by
        refine ⟨hr.1, ?_⟩
        intro b hm hne
        rcases List.mem_cons.mp (hacc ▸ hm) with rfl | hm
        · exact a.id_.toIndex_sub_ne
        · exact hr.2 b (mem_others.mp hm).1 hne
      have h := hsub.1.register hmain
      exact ⟨h.1, hsub.2.trans h.2⟩

/-- **Registration in runs.** Where every id registered or unregistered shares
its slot with no other accepted id and has not the index just past the table,
each accepted id finds the allocator last registered under it, other ids keep
their lookups, and nothing is written past the table. -/
theorem clear_sound {root : α} {ops : List (Op α)}
    (hr : Run step Allowed (init root) ops s) :
    Sound s ∧ ∀ op t, Allowed s op → step s op = some t → Frame op.ids s t := by
  have hi : Inv s := hr.invariant (init_inv root) fun _ _ _ hi ha h => (hi.step ha h).1
  exact ⟨hi.toSound, fun op t ha h => (hi.step ha h).2⟩

end

/-- A page allocator, a second one that takes its slots after it is
unregistered, and an index that is rejected. -/
theorem clear_sound_page :
    ∃ s : State Nat, Run step Allowed (init 0)
        [.registerPage ⟨⟨1, 0⟩, 1⟩ 2, .unregister ⟨1, 0⟩, .unregister ⟨1, 1⟩,
          .registerPage ⟨⟨0, 2⟩, 3⟩ 4, .registerNoScan (some ⟨⟨33, 0⟩, 5⟩)] s ∧
      s.accepted = [⟨⟨0, 2⟩, 3⟩, ⟨⟨0, 3⟩, 4⟩, ⟨⟨0, 0⟩, 0⟩] ∧
      Sound s ∧ ∀ op t, Allowed s op → step s op = some t → Frame op.ids s t := by
  have h : (execOk step Allowed (init 0)
      [.registerPage ⟨⟨1, 0⟩, 1⟩ 2, .unregister ⟨1, 0⟩, .unregister ⟨1, 1⟩,
        .registerPage ⟨⟨0, 2⟩, 3⟩ 4, .registerNoScan (some ⟨⟨33, 0⟩, 5⟩)]).map
      (·.accepted) = some [⟨⟨0, 2⟩, 3⟩, ⟨⟨0, 3⟩, 4⟩, ⟨⟨0, 0⟩, 0⟩] := by decide +kernel
  obtain ⟨s, hs, hacc⟩ := Option.map_eq_some_iff.mp h
  have hr := run_of_execOk hs
  exact ⟨s, hr, hacc, clear_sound hr⟩

/-- The internal allocator of `(1, 0)` loses its slot to `(0, 3)`, and `(32, 0)`
is accepted for the slot past the table. -/
theorem shared_slot_unsound :
    (∃ s : State Nat, Run step Unrestricted (init 0)
      [.registerPage ⟨⟨1, 0⟩, 1⟩ 2, .registerNoScan (some ⟨⟨0, 3⟩, 3⟩)] s ∧
      ⟨⟨1, 1⟩, 2⟩ ∈ s.accepted ∧ getAllocator s.registry ⟨1, 1⟩ = some ⟨⟨0, 3⟩, 3⟩ ∧ ¬ Sound s) ∧
    ∃ s : State Nat, Run step Unrestricted (init 0) [.registerNoScan (some ⟨⟨32, 0⟩, 1⟩)] s ∧
      ⟨⟨32, 0⟩, 1⟩ ∈ s.accepted ∧ 64 ∈ s.written ∧ ¬ Sound s := by
  constructor
  · have h : (exec step (init 0)
        [.registerPage ⟨⟨1, 0⟩, 1⟩ 2, .registerNoScan (some ⟨⟨0, 3⟩, 3⟩)]).map
        (fun s => (s.accepted, getAllocator s.registry ⟨1, 1⟩)) =
          some ([⟨⟨0, 3⟩, 3⟩, ⟨⟨1, 0⟩, 1⟩, ⟨⟨1, 1⟩, 2⟩, ⟨⟨0, 0⟩, 0⟩], some ⟨⟨0, 3⟩, 3⟩) := by
      decide +kernel
    obtain ⟨s, hs, hv⟩ := Option.map_eq_some_iff.mp h
    obtain ⟨hacc, hget⟩ := Prod.mk.inj hv
    have hm : ⟨⟨1, 1⟩, 2⟩ ∈ s.accepted := by rw [hacc]; decide +kernel
    refine ⟨s, run_iff_exec.mpr hs, hm, hget, fun hsound => ?_⟩
    have hlookup := hsound.lookup ⟨⟨1, 1⟩, 2⟩ hm
    rw [hget] at hlookup
    exact absurd hlookup (by decide)
  · have h : (exec step (init 0) [.registerNoScan (some ⟨⟨32, 0⟩, 1⟩)]).map
        (fun s => (s.accepted, s.written)) =
          some ([⟨⟨32, 0⟩, 1⟩, ⟨⟨0, 0⟩, 0⟩], [64, 0]) := by decide +kernel
    obtain ⟨s, hs, hv⟩ := Option.map_eq_some_iff.mp h
    obtain ⟨hacc, hw⟩ := Prod.mk.inj hv
    have hm : 64 ∈ s.written := by rw [hw]; decide
    refine ⟨s, run_iff_exec.mpr hs, by rw [hacc]; decide +kernel, hm, fun hsound => ?_⟩
    exact absurd (hsound.inside _ hm) (by decide)

end HermesShm.Memory.AllocatorRegistry
