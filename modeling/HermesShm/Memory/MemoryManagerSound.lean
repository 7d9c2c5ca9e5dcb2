import HermesShm.Memory.MemoryManager
import Mathlib.Tactic.Common

/-! # The table and the allocator objects stay in step -/
namespace HermesShm.Memory.MemoryManager
open HermesShm.Base HermesShm.Memory.AllocatorRegistry

variable {s t : State} {pending : Option Nat} {o : Object} {a : Allocator Ref}
  {type_ : AllocatorType} {id_ : AllocatorId} {i : Nat}

/-! ## Live allocators -/

theorem mem_live : a ∈ s.live ↔ a = rootRef ∨ ∃ o ∈ s.objects, a ∈ o.refs := by
  simp [State.live, List.mem_flatMap]

theorem mem_refs : a ∈ o.refs ↔
    a = o.ref ∨ (o.type_.embeds = true ∧ a = ⟨o.id_.sub, .alloc_ o.addr⟩) := by
  unfold Object.refs
  split <;> simp_all

theorem root_live : rootRef ∈ s.live := List.mem_cons_self

theorem ref_live (h : o ∈ s.objects) : o.ref ∈ s.live :=
  mem_live.mpr (.inr ⟨o, h, List.mem_cons_self⟩)

theorem live_mono (h : ∀ o ∈ s.objects, o ∈ t.objects) (ha : a ∈ s.live) : a ∈ t.live := by
  rcases mem_live.mp ha with rfl | ⟨o, hm, ha⟩
  · exact root_live
  · exact mem_live.mpr (.inr ⟨o, h o hm, ha⟩)

/-- An object without an embedded allocator goes alone. -/
theorem live_without (he : o.type_.embeds = false) (h : ∀ o' ∈ s.objects, o' ≠ o → o' ∈ t.objects)
    (ha : a ∈ s.live) (hne : a ≠ o.ref) : a ∈ t.live := by
  rcases mem_live.mp ha with rfl | ⟨o', hm, ha⟩
  · exact root_live
  · refine mem_live.mpr (.inr ⟨o', h o' hm ?_, ha⟩)
    rintro rfl
    rcases mem_refs.mp ha with ha | ⟨he', -⟩
    · exact hne ha
    · cases he.symm.trans he'

/-- An object pointer that is live is that of a live object. -/
theorem object_of_live {addr : Nat} (h : a ∈ s.live) (ha : a.ptr = .obj addr) :
    ∃ o ∈ s.objects, a = o.ref ∧ o.addr = addr := by
  rcases mem_live.mp h with rfl | ⟨o, hm, h⟩
  · cases ha
  · rcases mem_refs.mp h with rfl | ⟨_, rfl⟩
    · exact ⟨o, hm, rfl, Ref.obj.inj ha⟩
    · cases ha

/-! ## The invariant -/

/-- The object at `pending` is not registered yet. -/
structure Inv (pending : Option Nat) (s : State) : Prop where
  fresh : ∀ o ∈ s.objects, o.addr < s.fresh
  addr : ∀ o ∈ s.objects, ∀ o' ∈ s.objects, o.addr = o'.addr → o = o'
  slot : ∀ a ∈ s.live, ∀ b ∈ s.live, a.id_.toIndex = b.id_.toIndex → a = b
  lt : ∀ a ∈ s.live, a.id_.toIndex < HSHM_MAX_ALLOCATORS
  root : s.registry.root_alloc_ = rootRef
  table : ∀ i a, s.registry.allocators_ i = some a → a ∈ s.live ∧ a.id_.toIndex = i
  default : ∃ a ∈ s.live, s.registry.default_allocator_ = some a
  registered : ∀ o ∈ s.objects, some o.addr ≠ pending →
    getAllocator s.registry o.id_ = some o.ref
  created : ∀ p ∈ s.created, ∃ o ∈ s.objects, p = (o.id_, some o.ref)
  owned : ∀ p ∈ s.owned, ∃ o ∈ s.objects, o.backend_ = some p.1 ∧ o.id_ = p.2
  placed : ∀ o ∈ s.objects, ∀ i, o.backend_ = some i → (s.backends_ i).isSome
  single : ∀ o ∈ s.objects, ∀ o' ∈ s.objects, ∀ i, o.backend_ = some i →
    o'.backend_ = some i → o = o'

/-- Where a new object can go. -/
def Vacant (s : State) (backend_ : Option Nat) : Prop :=
  ∀ i, backend_ = some i → (s.backends_ i).isSome ∧ ∀ o ∈ s.objects, o.backend_ ≠ some i

theorem init_inv : Inv none init := by
  have hlive : ∀ a ∈ init.live, a = rootRef := fun a h => List.mem_singleton.mp h
  refine ⟨nofun, nofun, ?_, ?_, rfl, ?_, ⟨_, root_live, rfl⟩, nofun, nofun, nofun, nofun, nofun⟩
  · intro a ha b hb _
    rw [hlive a ha, hlive b hb]
  · intro a ha
    rw [hlive a ha]
    decide
  · intro i a h
    by_cases hi : i = root_alloc_id_.toIndex
    · subst hi
      cases h
      exact ⟨root_live, rfl⟩
    · cases (Function.update_of_ne hi ..).symm.trans h

theorem setBackend_self {backend : Backend} : (setBackend s i backend).backends_ i = some backend :=
  Function.update_self ..

theorem setBackend_of_ne {backend : Backend} {j : Nat} (h : j ≠ i) :
    (setBackend s i backend).backends_ j = s.backends_ j :=
  Function.update_of_ne h ..

namespace Inv

theorem mem_others (hi : Inv pending s) (hm : o ∈ s.objects) {o' : Object} :
    o' ∈ s.objects.filter (·.addr ≠ o.addr) ↔ o' ∈ s.objects ∧ o' ≠ o := by
  simp only [List.mem_filter, ne_eq, decide_not, Bool.not_eq_true', decide_eq_false_iff_not]
  refine and_congr_right fun hm' => ⟨fun h ho => h (congrArg _ ho), fun h ho => h ?_⟩
  exact hi.addr o' hm' o hm ho

theorem sound (hi : Inv none s) : Sound s where
  table_live := fun i a h => (hi.table i a h).1
  default_live := hi.default
  one_object := by
    intro p hp
    obtain ⟨o, hm, hb, hid⟩ := hi.owned p hp
    exact ⟨o, hm, ⟨hb, hid⟩, fun o' hm' hb' => hi.single o' hm' o hm p.1 hb' hb⟩
  same_object := by
    intro p hp
    obtain ⟨o, hm, rfl⟩ := hi.created p hp
    refine ⟨nofun, hi.registered o hm nofun, ?_⟩
    intro a ha hid
    obtain ⟨d, hd, hda⟩ := hi.default
    cases hda.symm.trans ha
    exact congrArg some (hi.slot _ hd _ (ref_live hm) (congrArg AllocatorId.toIndex hid))

theorem setBackend (hi : Inv pending s) (i : Nat) (backend : Backend) :
    Inv pending (setBackend s i backend) := by
  refine ⟨hi.fresh, hi.addr, hi.slot, hi.lt, hi.root, hi.table, hi.default, hi.registered,
    hi.created, hi.owned, ?_, hi.single⟩
  intro o hm j hj
  by_cases hji : j = i
  · rw [hji, setBackend_self]
    rfl
  · rw [setBackend_of_ne hji]
    exact hi.placed o hm j hj

/-- No object is in a backend that is not there. -/
theorem vacant (hi : Inv pending s) (h : s.backends_ i = none) (backend : Backend) :
    Vacant (MemoryManager.setBackend s i backend) (some i) := by
  rintro _ ⟨⟩
  refine ⟨?_, fun o hm hb => ?_⟩
  · rw [setBackend_self]
    rfl
  · have hsome := hi.placed o hm i hb
    rw [h] at hsome
    cases hsome

/-- Registering a live allocator. -/
theorem registerNoScan (hi : Inv pending s) (ha : a ∈ s.live) :
    ∃ registry, registerNoScan s a = some { s with registry } ∧
      Inv pending { s with registry } ∧ getAllocator registry a.id_ = some a := by
  have hlt := hi.lt a ha
  obtain ⟨hidx, h⟩ | ⟨hidx, h⟩ := register_cases s.registry a
  · omega
  refine ⟨(s.registry.updateDefault a).setSlot a.id_.toIndex (some a), ?_, ?_,
    Function.update_self ..⟩
  · unfold MemoryManager.registerNoScan
    rw [h]
  have halloc : ((s.registry.updateDefault a).setSlot a.id_.toIndex (some a)).allocators_ =
      Function.update s.registry.allocators_ a.id_.toIndex (some a) := by
    rw [Registry.setSlot, updateDefault_allocators]
  refine ⟨hi.fresh, hi.addr, hi.slot, hi.lt, updateDefault_root.trans hi.root, ?_, ?_, ?_,
    hi.created, hi.owned, hi.placed, hi.single⟩
  · intro i b hb
    dsimp only at hb
    rw [halloc] at hb
    by_cases hib : i = a.id_.toIndex
    · subst hib
      rw [Function.update_self] at hb
      cases hb
      exact ⟨ha, rfl⟩
    · rw [Function.update_of_ne hib] at hb
      exact hi.table i b hb
  · change ∃ b ∈ s.live, (s.registry.updateDefault a).default_allocator_ = some b
    unfold Registry.updateDefault
    split
    · exact ⟨a, ha, rfl⟩
    · exact hi.default
  · intro o hm hne
    unfold getAllocator
    dsimp only
    rw [halloc]
    by_cases hio : o.id_.toIndex = a.id_.toIndex
    · rw [hio, Function.update_self, hi.slot a ha o.ref (ref_live hm) hio.symm]
    · rw [Function.update_of_ne hio]
      exact hi.registered o hm hne

/-- The new object with its embedded allocator, before anything is registered. -/
theorem allocate {backend_ : Option Nat} (hi : Inv none s) (hf : Fits s type_ id_)
    (hv : Vacant s backend_) : Inv (some s.fresh) { s with
      objects := ⟨s.fresh, type_, id_, backend_⟩ :: s.objects
      fresh := s.fresh + 1 } := by
  let o : Object := ⟨s.fresh, type_, id_, backend_⟩
  have hlive : ∀ a, a ∈ rootRef :: (o :: s.objects).flatMap Object.refs ↔
      a ∈ o.refs ∨ a ∈ s.live := by
    intro a
    simp only [State.live, List.flatMap_cons, List.mem_cons, List.mem_append]
    tauto
  have hnew : ∀ a ∈ o.refs, ∀ b ∈ o.refs, a.id_.toIndex = b.id_.toIndex → a = b := by
    intro a ha b hb hab
    rcases mem_refs.mp ha with rfl | ⟨_, rfl⟩ <;> rcases mem_refs.mp hb with rfl | ⟨_, rfl⟩
    · rfl
    · exact absurd hab.symm (AllocatorId.toIndex_sub_ne _)
    · exact absurd hab (AllocatorId.toIndex_sub_ne _)
    · rfl
  refine ⟨?_, ?_, ?_, ?_, hi.root, ?_, ?_, ?_, ?_, ?_, ?_, ?_⟩
  · intro o' hm
    rcases List.mem_cons.mp hm with rfl | hm
    · exact Nat.lt_succ_self _
    · exact Nat.lt_succ_of_lt (hi.fresh o' hm)
  · intro o₁ h₁ o₂ h₂ he
    rcases List.mem_cons.mp h₁ with rfl | h₁ <;> rcases List.mem_cons.mp h₂ with rfl | h₂
    · rfl
    · exact absurd he.symm (Nat.ne_of_lt (hi.fresh o₂ h₂))
    · exact absurd he (Nat.ne_of_lt (hi.fresh o₁ h₁))
    · exact hi.addr o₁ h₁ o₂ h₂ he
  · intro a ha b hb hab
    rcases (hlive a).mp ha with ha | ha <;> rcases (hlive b).mp hb with hb | hb
    · exact hnew a ha b hb hab
    · exact absurd hab.symm ((hf a ha).2 b hb)
    · exact absurd hab ((hf b hb).2 a ha)
    · exact hi.slot a ha b hb hab
  · intro a ha
    rcases (hlive a).mp ha with ha | ha
    · exact (hf a ha).1
    · exact hi.lt a ha
  · intro i a h
    obtain ⟨ha, hidx⟩ := hi.table i a h
    exact ⟨(hlive a).mpr (.inr ha), hidx⟩
  · obtain ⟨a, ha, h⟩ := hi.default
    exact ⟨a, (hlive a).mpr (.inr ha), h⟩
  · intro o' hm hne
    rcases List.mem_cons.mp hm with rfl | hm
    · exact absurd rfl hne
    · exact hi.registered o' hm nofun
  · intro p hp
    obtain ⟨o', hm, h⟩ := hi.created p hp
    exact ⟨o', List.mem_cons_of_mem _ hm, h⟩
  · intro p hp
    obtain ⟨o', hm, h⟩ := hi.owned p hp
    exact ⟨o', List.mem_cons_of_mem _ hm, h⟩
  · intro o' hm j hj
    rcases List.mem_cons.mp hm with rfl | hm
    · exact (hv j hj).1
    · exact hi.placed o' hm j hj
  · intro o₁ h₁ o₂ h₂ j hj₁ hj₂
    rcases List.mem_cons.mp h₁ with rfl | h₁ <;> rcases List.mem_cons.mp h₂ with rfl | h₂
    · rfl
    · exact absurd hj₂ ((hv j hj₁).2 o₂ h₂)
    · exact absurd hj₁ ((hv j hj₂).2 o₁ h₁)
    · exact hi.single o₁ h₁ o₂ h₂ j hj₁ hj₂

theorem newObj {backend_ : Option Nat} (hi : Inv none s) (hf : Fits s type_ id_)
    (hv : Vacant s backend_) :
    ∃ registry, newObj s type_ id_ backend_ = some { s with
        registry
        objects := ⟨s.fresh, type_, id_, backend_⟩ :: s.objects
        fresh := s.fresh + 1 } ∧
      Inv (some s.fresh) { s with
        registry
        objects := ⟨s.fresh, type_, id_, backend_⟩ :: s.objects
        fresh := s.fresh + 1 } := by
  have ht := hi.allocate hf hv
  unfold MemoryManager.newObj
  split
  · rename_i hembeds
    have hm : (⟨id_.sub, .alloc_ s.fresh⟩ : Allocator Ref) ∈
        (⟨s.fresh, type_, id_, backend_⟩ : Object).refs := mem_refs.mpr (.inr ⟨hembeds, rfl⟩)
    obtain ⟨registry, h, hr, _⟩ :=
      ht.registerNoScan (mem_live.mpr (.inr ⟨_, List.mem_cons_self, hm⟩))
    exact ⟨registry, h, hr⟩
  · exact ⟨s.registry, rfl, ht⟩

/-- Registering the pending object completes it. -/
theorem complete (hi : Inv (some o.addr) s) (hm : o ∈ s.objects) :
    ∃ registry, MemoryManager.registerNoScan s o.ref = some { s with registry } ∧
      Inv none { s with registry } := by
  obtain ⟨registry, h, hr, hget⟩ := hi.registerNoScan (ref_live hm)
  refine ⟨registry, h, ⟨hr.fresh, hr.addr, hr.slot, hr.lt, hr.root, hr.table, hr.default, ?_,
    hr.created, hr.owned, hr.placed, hr.single⟩⟩
  intro o' hm' _
  by_cases ho : o'.addr = o.addr
  · rw [hi.addr o' hm' o hm ho]
    exact hget
  · exact hr.registered o' hm' fun he => ho (Option.some.inj he)

end Inv

/-! ## Scans -/

theorem foldlM_fixed {σ ι : Type*} {f : σ → ι → Option σ} {s : σ} {l : List ι}
    (h : ∀ j ∈ l, f s j = some s) : l.foldlM f s = some s := by
  induction l with
  | nil => rfl
  | cons j l ih =>
    rw [List.foldlM_cons, h j List.mem_cons_self]
    exact ih fun k hk => h k (List.mem_cons_of_mem _ hk)

/-- Only the turn for `i` does anything, and none does after it. -/
theorem foldlM_single {σ ι : Type*} [DecidableEq ι] {f : σ → ι → Option σ} {s : σ} {i : ι}
    {l : List ι} (hm : i ∈ l) (hs : ∀ j, j ≠ i → f s j = some s)
    (ht : ∀ t, f s i = some t → ∀ j, f t j = some t) : l.foldlM f s = f s i := by
  induction l with
  | nil => cases hm
  | cons j l ih =>
    rw [List.foldlM_cons]
    by_cases hj : j = i
    · rw [hj]
      cases h : f s i with
      | none => rfl
      | some t => exact foldlM_fixed fun k _ => ht t h k
    · rw [hs j hj]
      exact ih ((List.mem_cons.mp hm).resolve_left (Ne.symm hj))

/-- A scan does nothing with the backend. -/
def Backend.Quiet (backend : Backend) : Prop :=
  backend.has_alloc = true → backend.scanned = true ∨
    backend.md_.allocator_type_.known = false

def Quiet (s : State) : Prop := ∀ i backend, s.backends_ i = some backend → backend.Quiet

theorem scanBackend_quiet (h : ∀ backend, s.backends_ i = some backend → backend.Quiet) :
    scanBackend s i = some s := by
  unfold scanBackend
  split
  · rfl
  · rename_i backend hb
    split
    · rename_i hc
      obtain ⟨ha, hs⟩ := Bool.and_eq_true_iff.mp hc
      have hk : backend.md_.allocator_type_.known = false :=
        (h backend hb ha).resolve_left (by simpa using hs)
      simp [shmDeserialize, hk]
    · rfl

theorem Quiet.scan (hq : Quiet s) : scanBackends s = some s :=
  foldlM_fixed fun i _ => scanBackend_quiet (hq i)

def QuietBut (i : Nat) (s : State) : Prop :=
  ∀ j backend, j ≠ i → s.backends_ j = some backend → backend.Quiet

theorem Quiet.but (hq : Quiet s) {backend : Backend} : QuietBut i (setBackend s i backend) := by
  intro j b hj h
  rw [setBackend_of_ne hj] at h
  exact hq j b h

theorem QuietBut.setBackend (hq : QuietBut i s) {backend : Backend} (hb : backend.Quiet) :
    Quiet (setBackend s i backend) := by
  intro j b h
  by_cases hj : j = i
  · subst hj
    rw [setBackend_self] at h
    cases h
    exact hb
  · rw [setBackend_of_ne hj] at h
    exact hq j b hj h

theorem Quiet.setBackend (hq : Quiet s) {backend : Backend} (hb : backend.Quiet) :
    Quiet (setBackend s i backend) :=
  QuietBut.setBackend (fun j b _ => hq j b) hb

/-! ## The calls -/

theorem Inv.makeAllocator {backend_ : Option Nat} (hi : Inv none s) (hq : Quiet s)
    (hf : Fits s type_ id_) (hv : Vacant s backend_) :
    ∃ registry, makeAllocator s type_ id_ backend_ = some { s with
        registry
        objects := ⟨s.fresh, type_, id_, backend_⟩ :: s.objects
        fresh := s.fresh + 1 } ∧
      Inv none { s with
        registry
        objects := ⟨s.fresh, type_, id_, backend_⟩ :: s.objects
        fresh := s.fresh + 1 } := by
  obtain ⟨r, hnew, hr⟩ := hi.newObj hf hv
  obtain ⟨registry, hreg, hinv⟩ :=
    Inv.complete (o := ⟨s.fresh, type_, id_, backend_⟩) hr List.mem_cons_self
  refine ⟨registry, ?_, hinv⟩
  rw [MemoryManager.makeAllocator, hnew, Option.bind_some, registerAllocator]
  exact (congrArg (Option.bind · scanBackends) hreg).trans (Quiet.scan hq)

theorem Inv.createAllocator (hi : Inv none s) (hq : Quiet s) (hf : Fits s type_ id_)
    (hno : ∀ o ∈ s.objects, o.backend_ ≠ some i)
    (hb : ∀ backend ∈ s.backends_ i, backend.scanned = true ∨
      (initHeader backend type_ id_).allocator_type_.known = false)
    (h : createAllocator s i type_ id_ = some t) : Inv none t ∧ Quiet t := by
  unfold MemoryManager.createAllocator at h
  split at h
  · cases h
  split at h
  · cases h
    exact ⟨hi, hq⟩
  rename_i backend hback
  have hq' : Quiet (MemoryManager.setBackend s i
      { backend with md_ := initHeader backend type_ id_, has_alloc := true }) :=
    hq.setBackend fun _ => hb backend hback
  have hv : Vacant (MemoryManager.setBackend s i
      { backend with md_ := initHeader backend type_ id_, has_alloc := true }) (some i) := by
    rintro _ ⟨⟩
    rw [setBackend_self]
    exact ⟨rfl, hno⟩
  obtain ⟨registry, hmake, hm⟩ := (hi.setBackend i _).makeAllocator hq' hf hv
  dsimp only at h
  rw [hmake, Option.map_some] at h
  cases h
  have hget : getAllocator registry id_ = some ⟨id_, .obj s.fresh⟩ :=
    hm.registered ⟨s.fresh, type_, id_, some i⟩ List.mem_cons_self nofun
  refine ⟨⟨hm.fresh, hm.addr, hm.slot, hm.lt, hm.root, hm.table, hm.default, hm.registered,
    ?_, ?_, hm.placed, hm.single⟩, hq'⟩
  · intro p hp
    rcases List.mem_cons.mp hp with rfl | hp
    · exact ⟨⟨s.fresh, type_, id_, some i⟩, List.mem_cons_self, congrArg (Prod.mk id_) hget⟩
    · exact hm.created p hp
  · intro p hp
    rcases List.mem_cons.mp hp with rfl | hp
    · exact ⟨⟨s.fresh, type_, id_, some i⟩, List.mem_cons_self, rfl, rfl⟩
    · exact hm.owned p hp

/-- The turn of a scan for the backend just attached. -/
theorem Inv.scanAttached {md_ : AllocatorHeader} (hi : Inv none s) (hq : Quiet s)
    (hnone : s.backends_ i = none) (hk : md_.allocator_type_.known = true)
    (hf : Fits s md_.allocator_type_ md_.alloc_id_)
    (h : scanBackend (MemoryManager.setBackend s i { md_, has_alloc := true }) i = some t) :
    Inv none t ∧ Quiet t ∧ ∃ o ∈ t.objects, o.backend_ = some i ∧ o.id_ = md_.alloc_id_ := by
  unfold scanBackend at h
  rw [setBackend_self] at h
  simp only [Bool.not_false, Bool.and_self, if_true, shmDeserialize, hk] at h
  split at h
  · cases h
  obtain ⟨r, hnew, hr⟩ := (hi.setBackend i { md_, has_alloc := true }).newObj hf
    (hi.vacant hnone _)
  rw [hnew, Option.map_some, Option.bind_some] at h
  obtain ⟨registry, hreg, hinv⟩ := Inv.complete
    (o := ⟨s.fresh, md_.allocator_type_, md_.alloc_id_, some i⟩)
    (hr.setBackend i { md_, has_alloc := true, scanned := true })
    List.mem_cons_self
  cases hreg.symm.trans h
  refine ⟨hinv, ?_, ⟨s.fresh, md_.allocator_type_, md_.alloc_id_, some i⟩, List.mem_cons_self,
    rfl, rfl⟩
  exact QuietBut.setBackend (s := MemoryManager.setBackend s i { md_, has_alloc := true })
    hq.but fun _ => .inl rfl

theorem Inv.attachBackend {has_alloc : Bool} {md_ : AllocatorHeader} (hi : Inv none s)
    (hq : Quiet s) (hlt : i < HSHM_MAX_BACKENDS)
    (hk : has_alloc = true → (s.backends_ i).isNone → md_.allocator_type_.known = true)
    (hf : has_alloc = true → (s.backends_ i).isNone → Fits s md_.allocator_type_ md_.alloc_id_)
    (h : attachBackend s i has_alloc md_ = some t) : Inv none t ∧ Quiet t := by
  unfold MemoryManager.attachBackend at h
  split at h
  · cases h
    exact ⟨hi, hq⟩
  rename_i hnone
  cases has_alloc with
  | false =>
    have hq' : Quiet (MemoryManager.setBackend s i { md_ }) := hq.setBackend nofun
    rw [hq'.scan] at h
    cases h
    exact ⟨hi.setBackend i _, hq'⟩
  | true =>
    have hturn := fun u => hi.scanAttached hq hnone (hk rfl (by rw [hnone]; rfl))
      (hf rfl (by rw [hnone]; rfl)) (i := i) (t := u)
    rw [scanBackends, foldlM_single (List.mem_range.mpr hlt)
      (fun j hj => scanBackend_quiet fun b => hq.but j b hj)
      (fun u hu j => scanBackend_quiet ((hturn u hu).2.1 j))] at h
    obtain ⟨u, hu, hut⟩ := Option.map_eq_some_iff.mp h
    obtain ⟨hinv, hqu, ho⟩ := hturn u hu
    cases hut
    refine ⟨⟨hinv.fresh, hinv.addr, hinv.slot, hinv.lt, hinv.root, hinv.table, hinv.default,
      hinv.registered, hinv.created, ?_, hinv.placed, hinv.single⟩, hqu⟩
    intro p hp
    rcases List.mem_cons.mp hp with rfl | hp
    · exact ho
    · exact hinv.owned p hp

theorem Inv.registerLive (hi : Inv none s) (hq : Quiet s) (ha : a ∈ s.live)
    (h : registerAllocator s a = some t) : Inv none t ∧ Quiet t := by
  obtain ⟨registry, hreg, hinv, _⟩ := hi.registerNoScan ha
  have hq' : Quiet { s with registry } := hq
  unfold registerAllocator at h
  rw [hreg, Option.bind_some, hq'.scan] at h
  cases h
  exact ⟨hinv, hq⟩

theorem Inv.unregister_default (hi : Inv none s) (id_ : AllocatorId) :
    ∃ a, (unregisterAllocator s.registry id_).2.default_allocator_ = some a ∧
      (a = rootRef ∨ (a ∈ s.live ∧ a.id_ ≠ id_)) := by
  obtain ⟨a, ha, hd⟩ := hi.default
  rw [AllocatorRegistry.unregister_default, hd, hi.root]
  split
  · exact ⟨rootRef, rfl, .inl rfl⟩
  · rename_i hne
    exact ⟨a, rfl, .inr ⟨ha, fun he => hne (congrArg some he)⟩⟩

/-- Unregistering an id that is not there. -/
theorem Inv.unregisterAbsent (hi : Inv none s) (h : getAllocator s.registry id_ = none) :
    Inv none { s with registry := (unregisterAllocator s.registry id_).2 } := by
  have halloc : (unregisterAllocator s.registry id_).2.allocators_ = s.registry.allocators_ := by
    rw [unregister_allocators, ← h]
    exact Function.update_eq_self ..
  refine ⟨hi.fresh, hi.addr, hi.slot, hi.lt, (unregister_root ..).trans hi.root, ?_, ?_, ?_,
    hi.created, hi.owned, hi.placed, hi.single⟩
  · intro i a ha
    dsimp only at ha
    rw [halloc] at ha
    exact hi.table i a ha
  · obtain ⟨a, hd, ha⟩ := hi.unregister_default id_
    refine ⟨a, ?_, hd⟩
    rcases ha with rfl | ⟨ha, _⟩
    · exact root_live
    · exact ha
  · intro o hm hne
    unfold getAllocator
    dsimp only
    rw [halloc]
    exact hi.registered o hm hne

/-- Taking an object without an embedded allocator out of everything. -/
theorem Inv.destroyObject (hi : Inv none s) (hm : o ∈ s.objects) (he : o.type_.embeds = false) :
    Inv none { s with
      registry := (unregisterAllocator s.registry o.id_).2
      objects := s.objects.filter (·.addr ≠ o.addr)
      created := s.created.filter (·.1 ≠ o.id_)
      owned := s.owned.filter (·.2 ≠ o.id_) } := by
  have hobj : ∀ o', o' ∈ s.objects.filter (·.addr ≠ o.addr) ↔ o' ∈ s.objects ∧ o' ≠ o :=
    fun o' => hi.mem_others hm
  let t : State := { s with objects := s.objects.filter (·.addr ≠ o.addr) }
  have hsub : ∀ a ∈ t.live, a ∈ s.live := fun a => live_mono fun o' hm' => ((hobj o').mp hm').1
  have hkeep : ∀ a ∈ s.live, a ≠ o.ref → a ∈ t.live := fun a =>
    live_without he fun o' hm' hne => (hobj o').mpr ⟨hm', hne⟩
  refine ⟨fun o' hm' => hi.fresh o' ((hobj o').mp hm').1, ?_, ?_, fun a ha => hi.lt a (hsub a ha),
    (unregister_root ..).trans hi.root, ?_, ?_, ?_, ?_, ?_,
    fun o' hm' => hi.placed o' ((hobj o').mp hm').1, ?_⟩
  · intro o₁ h₁ o₂ h₂
    exact hi.addr o₁ ((hobj o₁).mp h₁).1 o₂ ((hobj o₂).mp h₂).1
  · intro a ha b hb
    exact hi.slot a (hsub a ha) b (hsub b hb)
  · intro i a ha
    dsimp only at ha
    rw [unregister_allocators] at ha
    by_cases hidx : i = o.id_.toIndex
    · subst hidx
      rw [Function.update_self] at ha
      cases ha
    · rw [Function.update_of_ne hidx] at ha
      obtain ⟨hlive, rfl⟩ := hi.table i a ha
      exact ⟨hkeep a hlive fun h => hidx (by rw [h]; rfl), rfl⟩
  · obtain ⟨a, hd, ha⟩ := hi.unregister_default o.id_
    refine ⟨a, ?_, hd⟩
    rcases ha with rfl | ⟨ha, hid⟩
    · exact root_live
    · exact hkeep a ha fun h => hid (by rw [h]; rfl)
  · intro o' hm' hne
    obtain ⟨hm', hoo⟩ := (hobj o').mp hm'
    have hidx : o'.id_.toIndex ≠ o.id_.toIndex := by
      intro h
      have href := hi.slot _ (ref_live hm') _ (ref_live hm) h
      exact hoo (hi.addr o' hm' o hm (Ref.obj.inj (congrArg Allocator.ptr href)))
    unfold getAllocator
    dsimp only
    rw [unregister_allocators, Function.update_of_ne hidx]
    exact hi.registered o' hm' hne
  · intro p hp
    obtain ⟨hp, hid⟩ := List.mem_filter.mp hp
    obtain ⟨o', hm', rfl⟩ := hi.created p hp
    refine ⟨o', (hobj o').mpr ⟨hm', ?_⟩, rfl⟩
    rintro rfl
    simp at hid
  · intro p hp
    obtain ⟨hp, hid⟩ := List.mem_filter.mp hp
    obtain ⟨o', hm', hb, hid'⟩ := hi.owned p hp
    refine ⟨o', (hobj o').mpr ⟨hm', ?_⟩, hb, hid'⟩
    rintro rfl
    simp [hid'] at hid
  · intro o₁ h₁ o₂ h₂
    exact hi.single o₁ ((hobj o₁).mp h₁).1 o₂ ((hobj o₂).mp h₂).1

theorem Inv.destroyAllocator (hi : Inv none s) (hg : Guarded s (.destroyAllocator id_))
    (h : destroyAllocator s id_ = some t) : Inv none t ∧ t.backends_ = s.backends_ := by
  have hfst := unregister_fst s.registry id_
  unfold MemoryManager.destroyAllocator at h
  split at h
  · rename_i registry hu
    cases h
    rw [hu] at hfst
    have hr := hi.unregisterAbsent hfst.symm
    rw [hu] at hr
    exact ⟨hr, rfl⟩
  · rename_i id addr registry hu
    cases h
    rw [hu] at hfst
    have hlive := (hi.table _ _ hfst.symm).1
    obtain ⟨o, hm, ho, rfl⟩ := object_of_live hlive rfl
    have hid : o.id_ = id_ := by
      rw [← hg.1 _ hlive hfst.symm, ho]
      rfl
    subst hid
    have hr := hi.destroyObject hm (hg.2 o hm (hfst.symm.trans (congrArg some ho)))
    rw [hu] at hr
    exact ⟨hr, rfl⟩
  · cases h

/-- **One call.** -/
theorem Inv.step {op : Op} (hi : Inv none s) (hq : Quiet s) (hg : Guarded s op)
    (h : step s op = some t) : Inv none t ∧ Quiet t := by
  cases op with
  | createBackend i has_alloc md_ =>
    cases h
    unfold createBackend
    split
    · exact ⟨hi, hq⟩
    · rename_i hnone
      refine ⟨hi.setBackend i _, hq.setBackend fun hhas => .inr (hg.2 hhas ?_)⟩
      rw [hnone]
      rfl
  | attachBackend i has_alloc md_ => exact hi.attachBackend hq hg.1.1 hg.2 hg.1.2 h
  | createAllocator i type_ id_ => exact hi.createAllocator hq hg.1.2 hg.2.1 hg.2.2 h
  | registerAllocator alloc =>
    simp only [MemoryManager.step] at h
    split at h
    · rename_i hlive
      exact hi.registerLive hq hlive h
    · cases h
  | registerNew type_ id_ =>
    have hvacant : Vacant s none := nofun
    obtain ⟨registry, hmake, hinv⟩ := hi.makeAllocator hq hg.1 hvacant
    cases hmake.symm.trans h
    exact ⟨hinv, hq⟩
  | scanBackends =>
    cases hq.scan.symm.trans h
    exact ⟨hi, hq⟩
  | destroyAllocator id_ =>
    obtain ⟨hinv, hb⟩ := hi.destroyAllocator hg h
    refine ⟨hinv, ?_⟩
    unfold Quiet
    rw [hb]
    exact hq

/-- Two objects of one backend. -/
theorem not_sound_of_two {o' : Object} {rest : List (Nat × AllocatorId)}
    (howned : s.owned = (i, id_) :: rest) (hobj : s.objects = [o, o']) (hne : o ≠ o')
    (hb : o.backend_ = some i) (hb' : o'.backend_ = some i) : ¬ Sound s := by
  intro hsound
  have hp : (i, id_) ∈ s.owned := howned ▸ List.mem_cons_self
  obtain ⟨o₁, -, -, hall⟩ := hsound.one_object _ hp
  rw [hobj] at hall
  exact hne ((hall o List.mem_cons_self hb).trans
    (hall o' (List.mem_cons_of_mem _ List.mem_cons_self) hb').symm)

/-- **The records stay in step.** -/
theorem records_in_step {ops : List Op} (hr : Run step Guarded init ops s) : Sound s := by
  have hi := hr.invariant (I := fun s => Inv none s ∧ Quiet s) ⟨init_inv, nofun⟩
    fun _ _ _ hi hg h => hi.1.step hi.2 hg h
  exact hi.1.sound

/-- A page allocator found in an attached backend, an allocator that leaves the
backend's header alone, and one that is destroyed and made again in a backend
scanned before. -/
theorem records_in_step_mixed :
    ∃ s, Run step Guarded init
      [.attachBackend 1 true ⟨.kScalablePageAllocator, ⟨1, 0⟩⟩,
        .createBackend 2 false ⟨.kNullAllocator, ⟨0, 0⟩⟩,
        .createAllocator 2 .kMallocAllocator ⟨2, 0⟩,
        .attachBackend 3 true ⟨.kStackAllocator, ⟨3, 0⟩⟩, .destroyAllocator ⟨3, 0⟩,
        .createAllocator 3 .kScalablePageAllocator ⟨3, 0⟩, .scanBackends] s ∧
      s.owned = [(3, ⟨3, 0⟩), (2, ⟨2, 0⟩), (1, ⟨1, 0⟩)] ∧ Sound s := by
  have h : (execOk step Guarded init
      [.attachBackend 1 true ⟨.kScalablePageAllocator, ⟨1, 0⟩⟩,
        .createBackend 2 false ⟨.kNullAllocator, ⟨0, 0⟩⟩,
        .createAllocator 2 .kMallocAllocator ⟨2, 0⟩,
        .attachBackend 3 true ⟨.kStackAllocator, ⟨3, 0⟩⟩, .destroyAllocator ⟨3, 0⟩,
        .createAllocator 3 .kScalablePageAllocator ⟨3, 0⟩, .scanBackends]).map (·.owned) =
      some [(3, ⟨3, 0⟩), (2, ⟨2, 0⟩), (1, ⟨1, 0⟩)] := by decide +kernel
  obtain ⟨s, hs, howned⟩ := Option.map_eq_some_iff.mp h
  have hr := run_of_execOk hs
  exact ⟨s, hr, howned, records_in_step hr⟩

/-- `CreateAllocator` makes two objects for its backend, and the default is the
one that `GetAllocator` does not return. Where a backend was scanned, a second
allocator is created over the first. Destroying a page allocator leaves the slot
of its embedded allocator behind. -/
theorem scan_doubles :
    (∃ s, Run step Distinct init [.createBackend 1 false ⟨.kNullAllocator, ⟨0, 0⟩⟩,
        .createAllocator 1 .kStackAllocator ⟨1, 0⟩] s ∧
      s.objects = [⟨1, .kStackAllocator, ⟨1, 0⟩, some 1⟩, ⟨0, .kStackAllocator, ⟨1, 0⟩, some 1⟩] ∧
      getAllocator s.registry ⟨1, 0⟩ = some ⟨⟨1, 0⟩, .obj 1⟩ ∧
      s.registry.default_allocator_ = some ⟨⟨1, 0⟩, .obj 0⟩ ∧ ¬ Sound s) ∧
    (∃ s, Run step Distinct init [.attachBackend 1 true ⟨.kStackAllocator, ⟨1, 0⟩⟩,
        .createAllocator 1 .kStackAllocator ⟨2, 0⟩] s ∧
      s.objects = [⟨1, .kStackAllocator, ⟨2, 0⟩, some 1⟩, ⟨0, .kStackAllocator, ⟨1, 0⟩, some 1⟩] ∧
      ¬ Sound s) ∧
    ∃ s, Run step Distinct init [.attachBackend 1 true ⟨.kScalablePageAllocator, ⟨1, 0⟩⟩,
        .destroyAllocator ⟨1, 0⟩] s ∧
      s.objects = [] ∧ getAllocator s.registry ⟨1, 1⟩ = some ⟨⟨1, 1⟩, .alloc_ 0⟩ ∧ ¬ Sound s := by
  refine ⟨?_, ?_, ?_⟩
  · let ops : List Op := [.createBackend 1 false ⟨.kNullAllocator, ⟨0, 0⟩⟩,
      .createAllocator 1 .kStackAllocator ⟨1, 0⟩]
    have h : (execOk step Distinct init ops).map (·.objects) = some
        [⟨1, .kStackAllocator, ⟨1, 0⟩, some 1⟩, ⟨0, .kStackAllocator, ⟨1, 0⟩, some 1⟩] := by
      decide +kernel
    have howned : (execOk step Distinct init ops).map (·.owned) = some [(1, ⟨1, 0⟩)] := by
      decide +kernel
    have hdef : (execOk step Distinct init ops).map (·.registry.default_allocator_) =
        some (some ⟨⟨1, 0⟩, .obj 0⟩) := by decide +kernel
    have hget : (execOk step Distinct init ops).map (getAllocator ·.registry ⟨1, 0⟩) =
        some (some ⟨⟨1, 0⟩, .obj 1⟩) := by decide +kernel
    obtain ⟨s, hs, hobj⟩ := Option.map_eq_some_iff.mp h
    rw [hs] at hdef hget howned
    refine ⟨s, run_of_execOk hs, hobj, Option.some.inj hget, Option.some.inj hdef, ?_⟩
    exact not_sound_of_two (i := 1) (Option.some.inj howned) hobj (by decide) rfl rfl
  · let ops : List Op := [.attachBackend 1 true ⟨.kStackAllocator, ⟨1, 0⟩⟩,
      .createAllocator 1 .kStackAllocator ⟨2, 0⟩]
    have h : (execOk step Distinct init ops).map (·.objects) = some
        [⟨1, .kStackAllocator, ⟨2, 0⟩, some 1⟩, ⟨0, .kStackAllocator, ⟨1, 0⟩, some 1⟩] := by
      decide +kernel
    have howned : (execOk step Distinct init ops).map (·.owned) =
        some [(1, ⟨2, 0⟩), (1, ⟨1, 0⟩)] := by decide +kernel
    obtain ⟨s, hs, hobj⟩ := Option.map_eq_some_iff.mp h
    rw [hs] at howned
    refine ⟨s, run_of_execOk hs, hobj, ?_⟩
    exact not_sound_of_two (i := 1) (Option.some.inj howned) hobj (by decide) rfl rfl
  · have h : (execOk step Distinct init
        [.attachBackend 1 true ⟨.kScalablePageAllocator, ⟨1, 0⟩⟩, .destroyAllocator ⟨1, 0⟩]).map
        (fun s => (s.objects, getAllocator s.registry ⟨1, 1⟩)) =
        some ([], some ⟨⟨1, 1⟩, .alloc_ 0⟩) := by decide +kernel
    obtain ⟨s, hs, hv⟩ := Option.map_eq_some_iff.mp h
    obtain ⟨hobj, hget⟩ := Prod.mk.inj hv
    refine ⟨s, run_of_execOk hs, hobj, hget, ?_⟩
    intro hsound
    have hlive := hsound.table_live _ _ hget
    rw [State.live, hobj] at hlive
    exact absurd hlive (by decide)

end HermesShm.Memory.MemoryManager
