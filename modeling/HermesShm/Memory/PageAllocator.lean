import HermesShm.Base.Arena
import HermesShm.Memory.ListQueue

/-! # The page allocator

`PageAllocator`: free pages by class, the larger ones in one list, and a heap of
its own for `LOCAL_HEAP`. Its lists live in the buffer of the stack allocator,
at `buf` in the buffer of the allocator that owns it. -/
namespace HermesShm.Memory
open HermesShm.Base MpPage

structure PageAllocator where
  free_lists_ : Nat → ListQueue := fun _ => {}
  fallback_list_ : ListQueue := {}
  heap_ : HeapAllocator := {}

namespace PageAllocator

/-- `AllocateMpsc` -/
def allocate (buf : Nat) (m : ByteMem) (pa : PageAllocator) (page_id : PageId) :
    Option (Option Nat × ByteMem × PageAllocator) :=
  if page_id.exp_ < PageId.num_caches_ then
    let (page, q) := (pa.free_lists_ page_id.exp_).pop buf m
    some (page, m, { pa with free_lists_ := Function.update pa.free_lists_ page_id.exp_ q })
  else do
    let fallback := pa.fallback_list_
    match ← ListQueue.findFit buf m page_id.round_ fallback.count_ none (fallback.begin_ buf) with
    | none => some (none, m, pa)
    | some (prior, page) =>
      let (m, q) := fallback.dequeueAt buf m prior page
      some (some page, m, { pa with fallback_list_ := q })

/-- The offset is one of the stack allocator, converted with the buffer of the owner. -/
def allocateHeap (pa : PageAllocator) (page_id : PageId) : Option Nat × PageAllocator :=
  if page_id.exp_ < PageId.num_caches_ then
    let (shm, heap_) := pa.heap_.allocateOffset page_id.round_
    (shm, { pa with heap_ })
  else (none, pa)

def free (buf : Nat) (m : ByteMem) (pa : PageAllocator) (page : Nat) : ByteMem × PageAllocator :=
  let page_id := PageId.ofSize (page_size_.get m page)
  if page_id.exp_ < PageId.num_caches_ then
    let (m, q) := (pa.free_lists_ page_id.exp_).enqueue buf m page
    (m, { pa with free_lists_ := Function.update pa.free_lists_ page_id.exp_ q })
  else
    let (m, q) := pa.fallback_list_.enqueue buf m page
    (m, { pa with fallback_list_ := q })

/-! ## Slots -/

def list (pa : PageAllocator) : Slot → ListQueue
  | .cls i => pa.free_lists_ i
  | .fallback => pa.fallback_list_

def setList (pa : PageAllocator) (sl : Slot) (q : ListQueue) : PageAllocator :=
  match sl with
  | .cls i => { pa with free_lists_ := Function.update pa.free_lists_ i q }
  | .fallback => { pa with fallback_list_ := q }

variable {buf : Nat} {m : ByteMem} {pa : PageAllocator} {page_id : PageId} {ps : List Nat}

theorem list_setList (pa : PageAllocator) (sl : Slot) (q : ListQueue) :
    (pa.setList sl q).list = Function.update pa.list sl q := by
  funext sl'
  by_cases h : sl' = sl
  · subst h
    rw [Function.update_self]
    cases sl' with
    | cls i => exact Function.update_self ..
    | fallback => rfl
  · rw [Function.update_of_ne h]
    cases sl <;> cases sl' <;> first | rfl | exact absurd rfl h | skip
    exact Function.update_of_ne (fun hi => h (congrArg Slot.cls hi)) ..

@[simp] theorem heap_setList (pa : PageAllocator) (sl : Slot) (q : ListQueue) :
    (pa.setList sl q).heap_ = pa.heap_ := by
  cases sl <;> rfl

/-- What a change of one link writes: nothing, or the link to `p` of a page of `as`. -/
def Unlinked (buf : Nat) (m m' : ByteMem) (as : List Nat) (p : Nat) : Prop :=
  m' = m ∨ ∃ r ∈ as, ListQueue.nextPage buf m r = some p ∧
    m' = next_shm_.set m r (next_shm_.get m p)

/-- A page comes out of the slot of the request, or the slot has none that fits. -/
theorem allocate_spec (hr : ((pa.list page_id.slot).Represents buf m ps))
    (hapart : ∀ r ∈ ps, ∀ s ∈ ps, r ≠ s → r + mpPage ≤ s ∨ s + mpPage ≤ r) :
    (∃ q, pa.allocate buf m page_id = some (none, m, pa.setList page_id.slot q) ∧
      q.Represents buf m ps ∧ ∀ p ∈ ps, page_size_.get m p < page_id.round_) ∨
    ∃ as p cs m' q, pa.allocate buf m page_id = some (some p, m', pa.setList page_id.slot q) ∧
      ps = as ++ p :: cs ∧ q.Represents buf m' (as ++ cs) ∧
      (page_id.slot = .fallback → page_id.round_ ≤ page_size_.get m p) ∧
      Unlinked buf m m' as p := by
  unfold PageId.slot at hr ⊢
  by_cases h : page_id.exp_ < PageId.num_caches_
  · simp only [if_pos h, allocate, list] at hr ⊢
    cases ps with
    | nil =>
      rw [hr.pop_nil]
      exact .inl ⟨_, rfl, hr, nofun⟩
    | cons p ps =>
      obtain ⟨q', hq', hr'⟩ := hr.pop_cons
      rw [hq']
      exact .inr ⟨[], p, ps, m, q', rfl, rfl, hr', nofun, .inl rfl⟩
  · simp only [if_neg h, allocate, list] at hr ⊢
    have hfind := ListQueue.Represents.findFit_spec page_id.round_ none hr.next
      (Nat.le_of_eq hr.count.symm)
    rw [hr.next.head_none, ← hr.begin_] at hfind
    rcases hfind with ⟨he, hall⟩ | ⟨as, p, cs, he, rfl, hfit⟩
    · refine .inl ⟨pa.fallback_list_, ?_, hr, hall⟩
      exact (congrArg (Option.bind · _) he).trans rfl
    · obtain ⟨m', q', hd, hr', hm'⟩ := hr.dequeueAt hapart
      refine .inr ⟨as, p, cs, m', q', ?_, rfl, hr', fun _ => hfit, ?_⟩
      · refine (congrArg (Option.bind · _) he).trans ?_
        simp only [Option.bind_some, Option.or_none]
        exact congrArg (fun d : ByteMem × ListQueue =>
          some (some p, d.1, { pa with fallback_list_ := d.2 })) hd
      · rcases hm' with ⟨-, rfl⟩ | hm'
        · exact .inl rfl
        · exact .inr hm'

/-- Where no page is found, nothing changes. -/
theorem allocate_none {m' : ByteMem} {pa' : PageAllocator}
    (h : pa.allocate buf m page_id = some (none, m', pa')) : m' = m ∧ pa' = pa := by
  unfold allocate at h
  by_cases hexp : page_id.exp_ < PageId.num_caches_
  · rw [if_pos hexp] at h
    generalize hpop : (pa.free_lists_ page_id.exp_).pop buf m = r at h
    obtain ⟨page, q⟩ := r
    simp only [Option.some.injEq, Prod.mk.injEq] at h
    obtain ⟨rfl, rfl, rfl⟩ := h
    rw [ListQueue.pop_none hpop, Function.update_eq_self]
    exact ⟨rfl, rfl⟩
  · rw [if_neg hexp] at h
    obtain ⟨r, -, h⟩ := Option.bind_eq_some_iff.mp h
    cases r <;> cases h
    exact ⟨rfl, rfl⟩

/-- A local heap without room serves no request, and the lists stay. -/
theorem allocateHeap_refused (h : page_id.exp_ < PageId.num_caches_ →
      pa.heap_.heap_size_ < wordAdd sizeT pa.heap_.heap_off_ page_id.round_) :
    ∃ pa', pa.allocateHeap page_id = (none, pa') ∧ pa'.list = pa.list := by
  unfold allocateHeap
  by_cases hexp : page_id.exp_ < PageId.num_caches_
  · have hfull := h hexp
    simp only [if_pos hexp, HeapAllocator.allocateOffset, gt_iff_lt, if_pos hfull]
    exact ⟨_, rfl, by funext sl; cases sl <;> rfl⟩
  · exact ⟨pa, if_neg hexp, rfl⟩

theorem free_spec (buf : Nat) (pa : PageAllocator) {p : Nat} {sl : Slot}
    (hs : PageSize (page_size_.get m p) sl) :
    pa.free buf m p = (((pa.list sl).enqueue buf m p).1,
      pa.setList sl ((pa.list sl).enqueue buf m p).2) := by
  have hslot := PageId.slot_pageSize hs
  unfold PageId.slot at hslot
  unfold free
  by_cases h : (PageId.ofSize (page_size_.get m p)).exp_ < PageId.num_caches_
  · rw [if_pos h] at hslot
    subst hslot
    exact if_pos h
  · rw [if_neg h] at hslot
    subst hslot
    exact if_neg h

end PageAllocator
end HermesShm.Memory
