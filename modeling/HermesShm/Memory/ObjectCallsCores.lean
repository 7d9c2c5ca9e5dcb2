import HermesShm.Memory.ObjectCallsSound
import HermesShm.Memory.Reallocate

/-! # Objects over the allocators

The stack allocator, the scalable page allocator and the thread-local allocator as core
allocators. -/
namespace HermesShm.Memory
open HermesShm.Base MpPage ObjectCalls

/-- A new page and the header of a freed one leave the data of the blocks. -/
theorem Reallocated.keeps {Linked : Nat → Prop} {m m' : ByteMem} {live : List Block} {p q n : Nat}
    (h : Reallocated Linked m m' live p q n) (hfit : ∀ b ∈ live, b.size ≤ capacity m b.off) :
    ∀ b ∈ dropBlock live p, m.SameOn m' b.off b.size := by
  intro b hb x hx hx'
  obtain ⟨hb, hne⟩ := List.mem_filter.mp hb
  have := hfit b hb
  exact h.others b hb (by simpa using hne) x (by omega) (by omega)

namespace StackAllocator

def core : CoreAllocT State where
  mem := State.mem
  setMem s m := { s with mem := m }
  allocateOffset s _ n := (allocateOffset s n).map fun r => (.ok r.1, r.2)
  reallocateOffsetNoNullCheck s _ p n := reallocateOffsetNoNullCheck s p n
  freeOffsetNoNullCheck s p := some (freeOffsetNoNullCheck s p)

/-- The blocks are inside the buffer, which ends at `top`. -/
structure Inside (top : Nat) (s : State) (live : List Block) : Prop where
  inv : Inv s live
  heap_end : s.heap_.region_off_ + s.heap_.heap_size_ = top
  below : ∀ b ∈ live, b.off + b.size ≤ top

variable {top n p q : Nat} {s s' s₁ : State} {live : List Block} {b c : Block}

theorem Inside.allocate (h : Inside top s live) (hr : Request s n)
    (ha : allocateOffset s n = some (p, s')) :
    Inside top s' (⟨p, n⟩ :: live) ∧ core.Keeps live s s' := by
  obtain ⟨hi, -, hm, -, hp, hbelow⟩ := h.inv.allocate hr ha
  obtain ⟨hroom, hpe, hs'⟩ := allocateOffset_eq hr.2.1 hr.2.2 h.inv.end_lt ha
  have hend := h.heap_end
  refine ⟨⟨hi, by rw [hs']; exact hend, fun b hb => ?_⟩, fun b hb => hm.sameOn ?_⟩
  · rcases List.mem_cons.mp hb with rfl | hb
    · simp only
      omega
    · exact h.below b hb
  · have := hbelow b hb
    omega

theorem free_heap (he : freeOffsetNoNullCheck s p = .ok s') : s'.heap_ = s.heap_ := by
  simp only [freeOffsetNoNullCheck] at he
  split at he
  · cases he
  · cases he
    rfl

theorem Inside.free (h : Inside top s live) (hb : b ∈ live) :
    ∃ s', freeOffsetNoNullCheck s b.off = .ok s' ∧ Inside top s' (dropBlock live b.off) ∧
      core.Keeps (dropBlock live b.off) s s' := by
  obtain ⟨s', he, -, hi, hm⟩ := h.inv.free hb
  refine ⟨s', he, ⟨hi, by rw [free_heap he]; exact h.heap_end, fun c hc => ?_⟩,
    fun c hc => hm.sameOn ?_⟩
  · exact h.below c (List.mem_filter.mp hc).1
  · obtain ⟨hc, hne⟩ := List.mem_filter.mp hc
    have hne : c.off ≠ b.off := by simpa using hne
    have := h.inv.apart b hb c hc hne.symm
    have := h.inv.off_le b hb
    omega

/-- The request inside a reallocation that returns. -/
theorem reallocate_allocates {r : Except Error Nat}
    (he : reallocateOffsetNoNullCheck s p n = some (r, s')) :
    ∃ q s₁, allocateOffset s n = some (q, s₁) ∧ s'.heap_ = s₁.heap_ := by
  obtain ⟨⟨q, s₁⟩, ha, he⟩ := Option.bind_eq_some_iff.mp he
  refine ⟨q, s₁, ha, ?_⟩
  dsimp only at he
  split at he
  · cases he
    rfl
  · rename_i hf
    cases he
    have hheap := free_heap hf
    exact hheap

theorem Inside.reallocate (h : Inside top s live) (hb : b ∈ live) (hr : Request s n)
    (hg : Grows s b.off n) {r : Except Error Nat}
    (he : reallocateOffsetNoNullCheck s b.off n = some (r, s')) :
    ∃ q, r = .ok q ∧ Inside top s' (⟨q, n⟩ :: dropBlock live b.off) ∧
      core.Keeps (dropBlock live b.off) s s' ∧
      ∀ k < min b.size n, s'.mem (q + k) = s.mem (b.off + k) := by
  obtain ⟨q, s₁, ha, hheap⟩ := reallocate_allocates he
  obtain ⟨s₂, he₂, -, hi, hm⟩ := h.inv.reallocate hb hr hg ha
  rw [he] at he₂
  cases he₂
  obtain ⟨hin, -⟩ := h.allocate hr ha
  refine ⟨q, rfl, ⟨hi, by rw [hheap]; exact hin.heap_end, fun c hc => ?_⟩, ?_, fun k hk => ?_⟩
  · rcases List.mem_cons.mp hc with rfl | hc
    · exact hin.below _ List.mem_cons_self
    · exact h.below c (List.mem_filter.mp hc).1
  · exact hm.keeps fun c hc => Nat.le_of_eq (h.inv.capacity_eq hc).symm
  · exact hm.data k (by rwa [h.inv.capacity_eq hb])

def lawful (top : Nat) (htop : top < sizeT) : core.Lawful where
  Inv := Inside top
  Request s _ n := Request s n
  Grows s _ p n := Grows s p n
  top := top
  top_lt := htop
  mem_setMem _ _ := rfl
  request_pos _ _ _ h := h.1
  inside _ _ b h hb := h.below b hb
  apart _ _ b c h hb hc hne := by
    have := h.inv.apart b hb c hc hne
    omega
  nodup _ _ h := h.inv.nodup
  write _ _ _ _ h hb hm := { h with inv := h.inv.write hb hm }
  allocate s live ctx n r s' h hr ha := by
    obtain ⟨⟨p, s₁⟩, ha', he⟩ := Option.map_eq_some_iff.mp ha
    cases he
    obtain ⟨hin, hk⟩ := h.allocate hr ha'
    exact ⟨hk, .inr ⟨p, rfl, hin⟩⟩
  reallocate s live b ctx n r s' h hb hr hg he := .inr (h.reallocate hb hr hg he)
  free s live b h hb := by
    obtain ⟨s', he, hin, hk⟩ := h.free hb
    exact ⟨s', congrArg some he, hin, hk⟩

instance (htop : top < sizeT) (s : State) (ctx n : Nat) :
    Decidable ((lawful top htop).Request s ctx n) := inferInstanceAs (Decidable (Request s n))

instance (htop : top < sizeT) (s : State) (ctx p n : Nat) :
    Decidable ((lawful top htop).Grows s ctx p n) := inferInstanceAs (Decidable (Grows s p n))

theorem init_inside {region_off data_size : Nat} (hr : region_off ≤ data_size)
    (hd : data_size < sizeT) (mem : ByteMem) :
    Inside data_size (shmInit region_off data_size mem) [] := by
  refine ⟨init_inv hr hd mem, ?_, nofun⟩
  simp only [shmInit, HeapAllocator.shmInit, wordSub_of_le hr]
  omega

end StackAllocator

/-! ## The allocators with pages -/

namespace Blocks

variable {κ : Type} {buf lo hi lo' hi' : Nat} {heap heap' : HeapAllocator} {m m' : ByteMem}
  {pas pas' : κ → PageAllocator} {live : List Block} {len len' : Nat → Nat}
  {at_ at' : Place κ → List Nat} {k : κ} {b c : Block}

/-- A new block leaves the data of the others. -/
theorem keeps (h : Blocks buf lo heap m pas live hi len at_)
    (h' : Blocks buf lo' heap' m' pas' (c :: live) hi' len' at')
    (ht : Taken buf m m' (pas k) (c.off - mpPage)) : ∀ b ∈ live, m.SameOn m' b.off b.size := by
  intro b hb x hx hx'
  have hin := h.inside hb
  exact (h.taken_same h' ht hb).2 x (by omega) (by omega)

/-- So does the header of a page, when its block is freed. -/
theorem keeps_free (h : Blocks buf lo heap m pas live hi len at_) (hb : b ∈ live)
    (hm : m.SameOff m' (b.off - mpPage) mpPage) :
    ∀ c ∈ dropBlock live b.off, m.SameOn m' c.off c.size := by
  intro c hc
  have hc := (List.mem_filter.mp hc).1
  have hin := h.inside hc
  have hapart := h.header_apart hc (h.page hb)
  exact hm.sameOn (by omega)

end Blocks

namespace ScalablePageAllocator

def core : CoreAllocT State where
  mem := State.mem
  setMem s m := { s with mem := m }
  allocateOffset s _ n := allocateOffset s n
  reallocateOffsetNoNullCheck s _ p n := reallocateOffsetNoNullCheck s p n
  freeOffsetNoNullCheck s p := some (freeOffsetNoNullCheck s p)

def heapEnd (s : State) : Nat := s.buf + s.heap_.region_off_ + s.heap_.heap_size_

/-- The heap ends at `top`. -/
structure Inside (top : Nat) (s : State) (live : List Block) : Prop where
  inv : Inv s live
  heap_end : heapEnd s = top

variable {top n p q : Nat} {s s' s₁ : State} {live : List Block} {b c : Block}
  {r : Except Error Nat}

theorem allocate_heapEnd (hi : Inv s live) (hr : Request s n) (hn : NoWrap n)
    (ha : allocateOffset s n = some (r, s')) : heapEnd s' = heapEnd s := by
  obtain ⟨hi', len, at_, hb⟩ := hi
  obtain ⟨r', s₁, he, -, hbuf, ho⟩ := allocateOffset_cases hb hr hn
  rw [ha] at he
  cases he
  cases ho with
  | refused _ _ hheap => rw [heapEnd, hbuf, hheap, heapEnd]
  | fresh _ _ hheap => rw [heapEnd, hbuf, hheap, heapEnd]
  | reused _ hheap => rw [heapEnd, hbuf, hheap, heapEnd]

theorem free_heapEnd (he : freeOffsetNoNullCheck s p = .ok s') : heapEnd s' = heapEnd s := by
  simp only [freeOffsetNoNullCheck] at he
  split at he
  · cases he
  · cases he
    rfl

/-- The request inside a reallocation that returns. -/
theorem reallocate_allocates (he : reallocateOffsetNoNullCheck s p n = some (r, s')) :
    ∃ r₁ s₁, allocateOffset s n = some (r₁, s₁) ∧ heapEnd s' = heapEnd s₁ := by
  obtain ⟨⟨r₁, s₁⟩, ha, he⟩ := Option.bind_eq_some_iff.mp he
  refine ⟨r₁, s₁, ha, ?_⟩
  dsimp only at he
  split at he
  · rename_i heq
    cases heq
    cases he
    rfl
  · rename_i heq
    cases heq
    split at he
    · cases he
      rfl
    · rename_i hf
      cases he
      have hend := free_heapEnd hf
      exact hend

def lawful (top : Nat) (htop : top < sizeT) : core.Lawful where
  Inv := Inside top
  Request s _ n := Request s n ∧ NoWrap n
  Grows s _ p n := Grows s p n
  top := top
  top_lt := htop
  mem_setMem _ _ := rfl
  request_pos _ _ _ h := h.1.1
  inside s live b h hb := by
    obtain ⟨hi', len, at_, hbs⟩ := h.inv
    have hin := hbs.inside hb
    have hle := hbs.hi_end
    have hend := h.heap_end
    unfold heapEnd at hend
    omega
  apart s live b c h hb hc hne := by
    obtain ⟨hi', len, at_, hbs⟩ := h.inv
    have hin := hbs.inside hb
    have hin' := hbs.inside hc
    have hapart := hbs.apart hb hc hne
    omega
  nodup s live h := by
    obtain ⟨hi', len, at_, hbs⟩ := h.inv
    exact hbs.live_nodup
  write s live b m h hb hm := by
    obtain ⟨hi', len, at_, hbs⟩ := h.inv
    have hin := hbs.inside hb
    exact ⟨⟨hi', len, at_, hbs.write hb (hm.mono (Nat.le_refl _) (by omega))⟩, h.heap_end⟩
  allocate s live ctx n r s' h hr ha := by
    have hend := allocate_heapEnd h.inv hr.1 hr.2 ha
    obtain ⟨r', s₁, he, ⟨e, rfl, hi₁, -⟩ | ⟨p, rfl, ha₁⟩⟩ := allocateOffset_spec h.inv hr.1 hr.2
    · cases ha.symm.trans he
      refine ⟨fun b hb => ?_, .inl ⟨e, rfl, hi₁, hend.trans h.heap_end⟩⟩
      change s.mem.SameOn s'.mem b.off b.size
      rw [allocateOffset_refused h.inv hr.1 hr.2 ha]
      exact ByteMem.SameOn.refl _ _ _
    · cases ha.symm.trans he
      obtain ⟨hi', len, at_, hbs⟩ := h.inv
      obtain ⟨hi₁, len₁, at₁, hbs₁⟩ := ha₁.inv
      have htaken := ha₁.taken
      rw [ha₁.buf] at hbs₁
      exact ⟨hbs.keeps (k := ()) (c := ⟨p, n⟩) hbs₁ htaken,
        .inr ⟨p, rfl, ha₁.inv, hend.trans h.heap_end⟩⟩
  reallocate s live b ctx n r s' h hb hr hg he := by
    obtain ⟨r₁, s₁, ha, hend⟩ := reallocate_allocates he
    have hend' := hend.trans ((allocate_heapEnd h.inv hr.1 hr.2 ha).trans h.heap_end)
    obtain ⟨r', s₂, he', -, ⟨e, rfl, hi', ha'⟩ | ⟨q, s₂', rfl, hi', -, hmoved⟩⟩ :=
      reallocateOffset_spec h.inv hb hr.1 hr.2 hg
    · cases he.symm.trans he'
      cases ha.symm.trans ha'
      refine .inl ⟨e, rfl, ⟨hi', hend'⟩, fun c hc => ?_⟩
      change s.mem.SameOn s'.mem c.off c.size
      rw [allocateOffset_refused h.inv hr.1 hr.2 ha']
      exact ByteMem.SameOn.refl _ _ _
    · cases he.symm.trans he'
      obtain ⟨hi, len, at_, hbs⟩ := h.inv
      refine .inr ⟨q, rfl, ⟨hi', hend'⟩, hmoved.keeps fun c hc => (hbs.inside hc).2.2,
        fun k hk => hmoved.data k ?_⟩
      have hin := hbs.inside hb
      omega
  free s live b h hb := by
    obtain ⟨s', he, -, hi', hm⟩ := freeOffset_spec h.inv hb
    obtain ⟨hi, len, at_, hbs⟩ := h.inv
    exact ⟨s', congrArg some he, ⟨hi', (free_heapEnd he).trans h.heap_end⟩, hbs.keeps_free hb hm⟩

instance (htop : top < sizeT) (s : State) (ctx n : Nat) :
    Decidable ((lawful top htop).Request s ctx n) :=
  inferInstanceAs (Decidable (Request s n ∧ NoWrap n))

instance (htop : top < sizeT) (s : State) (ctx p n : Nat) :
    Decidable ((lawful top htop).Grows s ctx p n) := inferInstanceAs (Decidable (Grows s p n))

theorem init_inside (b : Backend) (mem : ByteMem) : Inside b.data_size_ (shmInit b mem) [] := by
  refine ⟨init_inv b mem, ?_⟩
  have hfits := b.fits
  simp only [heapEnd, shmInit, HeapAllocator.align, Backend.heap, HeapAllocator.shmInit,
    Backend.region_off]
  omega

end ScalablePageAllocator

namespace ThreadLocalAllocator

def core : CoreAllocT State where
  mem := State.mem
  setMem s m := { s with mem := m }
  allocateOffset := allocateOffset
  reallocateOffsetNoNullCheck := reallocateOffsetNoNullCheck
  freeOffsetNoNullCheck := freeOffsetNoNullCheck

variable {b : Backend} {page_alloc_size n p q tid : Nat} {s s' s₁ : State} {live : List Block}
  {c : Block}

/-- A request that fails leaves the memory. -/
theorem allocate_error (hi : Inv b page_alloc_size s live) (hr : Request s tid n) (hn : NoWrap n)
    (hpast : PastLocalHeap s tid n) {e : Error}
    (ha : allocateOffset s tid n = some (.error e, s')) : s'.mem = s.mem := by
  obtain ⟨lo, hi', len, at_, hb, -⟩ := hi.blocks
  have hid := requestId_eq hn
  have hpa : pageAlloc s tid = some (s.tls_ tid) := if_pos hr.2.2.1
  rcases hb.allocate tid hn with ⟨pa', he, hh, -⟩ | ⟨sl, p, m₁, pa', he, -⟩
  · have hfree : freePage s tid n = none := by
      rw [freePage, hid, he]
      rfl
    obtain ⟨tls_, hl, -⟩ := allocateHeap_past hh (hpast hfree)
    rw [hid] at hl
    simp only [allocateOffset, hid, hpa, he, Option.bind_eq_bind, Option.bind_some, hl,
      subAllocate] at ha
    split at ha
    · cases ha
      rename_i hsub
      split at hsub
      · cases hsub
      · cases hsub
        rfl
    · cases ha
  · simp only [allocateOffset, hid, hpa, he, Option.bind_eq_bind, Option.bind_some] at ha
    cases ha

def lawful (b : Backend) (page_alloc_size : Nat) : core.Lawful where
  Inv := Inv b page_alloc_size
  Request s tid n := Request s tid n ∧ NoWrap n ∧ PastLocalHeap s tid n
  Grows := Grows
  top := b.data_size_
  top_lt := b.size_lt
  mem_setMem _ _ := rfl
  request_pos _ _ _ h := h.1.1
  inside s live c h hc := by
    obtain ⟨lo, hi', len, at_, hbs, -⟩ := h.blocks
    have hin := hbs.inside hc
    have hle := hbs.hi_end
    have hend := h.heap_end
    omega
  apart s live c d h hc hd hne := by
    obtain ⟨lo, hi', len, at_, hbs, -⟩ := h.blocks
    have hin := hbs.inside hc
    have hin' := hbs.inside hd
    have hapart := hbs.apart hc hd hne
    omega
  nodup s live h := by
    obtain ⟨lo, hi', len, at_, hbs, -⟩ := h.blocks
    exact hbs.live_nodup
  write s live c m h hc hm := by
    obtain ⟨lo, hi', len, at_, hbs, ht, hmeta⟩ := h.blocks
    have hin := hbs.inside hc
    have hm : s.mem.SameOff m c.off (capacity s.mem c.off) :=
      hm.mono (Nat.le_refl _) (by omega)
    have htids : ∀ i, ∀ p ∈ at_ i, tid_.get m p = tid_.get s.mem p := fun i p hp =>
      tid_.get_congr (hm.sameOn (hbs.header_apart hc hp).symm)
    exact { h with blocks := ⟨lo, hi', len, at_, hbs.write hc hm, ht.congr htids, hmeta⟩ }
  allocate s live tid n r s' h hr ha := by
    obtain ⟨hr, hn, hpast⟩ := hr
    obtain ⟨r', s₁, he, ⟨e, rfl, hi₁, -⟩ | ⟨p, rfl, ha₁⟩⟩ := allocateOffset_spec h hr hn hpast
    · cases ha.symm.trans he
      refine ⟨fun c hc => ?_, .inl ⟨e, rfl, hi₁⟩⟩
      change s.mem.SameOn s'.mem c.off c.size
      rw [allocate_error h hr hn hpast ha]
      exact ByteMem.SameOn.refl _ _ _
    · cases ha.symm.trans he
      obtain ⟨lo, hi', len, at_, hbs, -⟩ := h.blocks
      obtain ⟨lo₁, hi₁, len₁, at₁, hbs₁, -⟩ := ha₁.inv.blocks
      have htaken := ha₁.taken
      rw [ha₁.buf] at hbs₁
      exact ⟨hbs.keeps (k := tid) (c := ⟨p, n⟩) hbs₁ htaken, .inr ⟨p, rfl, ha₁.inv⟩⟩
  reallocate s live c tid n r s' h hc hr hg he := by
    obtain ⟨hr, hn, hpast⟩ := hr
    obtain ⟨r', s₂, he', -, ⟨e, rfl, hi', ha⟩ | ⟨q, s₂', rfl, hi', -, hmoved⟩⟩ :=
      reallocateOffset_spec h hc hr hn hpast hg
    · cases he.symm.trans he'
      refine .inl ⟨e, rfl, hi', fun d hd => ?_⟩
      change s.mem.SameOn s'.mem d.off d.size
      rw [allocate_error h hr hn hpast ha]
      exact ByteMem.SameOn.refl _ _ _
    · cases he.symm.trans he'
      obtain ⟨lo, hi, len, at_, hbs, -⟩ := h.blocks
      refine .inr ⟨q, rfl, hi', hmoved.keeps fun d hd => (hbs.inside hd).2.2,
        fun k hk => hmoved.data k ?_⟩
      have hin := hbs.inside hc
      omega
  free s live c h hc := by
    obtain ⟨s', he, -, hi', hm⟩ := freeOffset_spec h hc
    obtain ⟨lo, hi, len, at_, hbs, -⟩ := h.blocks
    exact ⟨s', he, hi', hbs.keeps_free hc hm⟩

instance (s : State) (tid n : Nat) : Decidable ((lawful b page_alloc_size).Request s tid n) :=
  inferInstanceAs (Decidable (Request s tid n ∧ NoWrap n ∧ PastLocalHeap s tid n))

instance (s : State) (tid p n : Nat) : Decidable ((lawful b page_alloc_size).Grows s tid p n) :=
  inferInstanceAs (Decidable (Grows s tid p n))

theorem init_live {max_threads : Nat} {mem : ByteMem}
    (h : shmInit b page_alloc_size max_threads mem = some s) : s.live = [] := by
  obtain ⟨⟨tls_vec, alloc₁⟩, h₁, h⟩ := Option.bind_eq_some_iff.mp h
  obtain ⟨⟨tls_, alloc₂⟩, h₂, h⟩ := Option.bind_eq_some_iff.mp h
  obtain ⟨⟨free_tids_vec, alloc₃⟩, h₃, h⟩ := Option.bind_eq_some_iff.mp h
  cases h
  rfl

end ThreadLocalAllocator

namespace ObjectCalls

/-- **Objects are kept.** Over each of the allocators, in every run of calls for arrays in use
whose requests the allocator is fit for, objects read as they were given, in arrays that are apart,
and each is destructed once or is in use or was cut off by a shorter reallocation. -/
theorem objects_kept (T : ObjType) (buffer_ : Nat) (mem : ByteMem) (ops : List (Nat × Op T)) :
    (∀ region_off data_size (hd : data_size < sizeT) s, region_off ≤ data_size →
      Mapped (StackAllocator.lawful data_size hd) buffer_ →
      Run (step StackAllocator.core T buffer_) (Guarded (StackAllocator.lawful data_size hd))
        { core := StackAllocator.shmInit region_off data_size mem } ops s →
      Sound StackAllocator.core T buffer_ s) ∧
    (∀ (b : Backend) s, Mapped (ScalablePageAllocator.lawful b.data_size_ b.size_lt) buffer_ →
      Run (step ScalablePageAllocator.core T buffer_)
        (Guarded (ScalablePageAllocator.lawful b.data_size_ b.size_lt))
        { core := ScalablePageAllocator.shmInit b mem } ops s →
      Sound ScalablePageAllocator.core T buffer_ s) ∧
    (∀ (b : Backend) page_alloc_size max_threads core s,
      Mapped (ThreadLocalAllocator.lawful b page_alloc_size) buffer_ →
      ThreadLocalAllocator.shmInit b page_alloc_size max_threads mem = some core →
      ThreadLocalAllocator.NoOverflow b page_alloc_size max_threads →
      Run (step ThreadLocalAllocator.core T buffer_)
        (Guarded (ThreadLocalAllocator.lawful b page_alloc_size)) { core } ops s →
      Sound ThreadLocalAllocator.core T buffer_ s) := by
  refine ⟨fun region_off data_size hd s hr hbuf h => ?_, fun b s hbuf h => ?_,
    fun b page_alloc_size max_threads core s hbuf h₀ hf h => ?_⟩
  · exact sound_of_lawful hbuf (StackAllocator.init_inside hr hd mem) h
  · exact sound_of_lawful hbuf (ScalablePageAllocator.init_inside b mem) h
  · have hi := ThreadLocalAllocator.init_inv h₀ hf
    rw [ThreadLocalAllocator.init_live h₀] at hi
    exact sound_of_lawful hbuf hi h

/-- Objects of 8 bytes, which their destructor clears. -/
def words : ObjType where
  sizeof_ := 8
  destruct _ := fun _ => 0

def filled (byte : UInt8) : Nat → Cell words.sizeof_ := fun _ _ => byte

/-- An array grows and is cut again; another is deleted, by its address or by its pointer. -/
theorem objects_kept_words :
    (∃ s, Run (step StackAllocator.core words 4096)
      (Guarded (StackAllocator.lawful 65536 ThreadLocalAllocator.small_size_lt))
      { core := StackAllocator.shmInit 112 65536 fun _ => 0 }
      [(0, .newObjs 4 (filled 1)), (0, .newObjs 2 (filled 2)),
        (0, .reallocateConstructObjs 144 5 (filled 3)), (0, .assign 256 3 (filled 9 0)),
        (0, .delObjs 208)] s ∧ Sound StackAllocator.core words 4096 s ∧
      s.arrays.map (·.objs) = [[1, 1, 1, 9, 3].map (filled · 0)]) ∧
    (∃ s, Run (step ScalablePageAllocator.core words 4096)
      (Guarded (ScalablePageAllocator.lawful 65536 ThreadLocalAllocator.small_size_lt))
      { core := ScalablePageAllocator.shmInit ScalablePageAllocator.smallBackend fun _ => 0 }
      [(0, .newObjs 4 (filled 1)), (0, .newObjs 2 (filled 2)),
        (0, .reallocateConstructObjs 4304 5 (filled 3)), (0, .assign 4496 3 (filled 9 0)),
        (0, .reallocateConstructObjs 4496 4 (filled 4)), (0, .delObjs 4400)] s ∧
      Sound ScalablePageAllocator.core words 4096 s ∧
      s.arrays.map (·.objs) = [[1, 1, 1, 9].map (filled · 0)] ∧ s.dropped = 1) ∧
    (∃ core s, ThreadLocalAllocator.shmInit ThreadLocalAllocator.smallBackend 2048 4
        (fun _ => 0) = some core ∧
      Run (step ThreadLocalAllocator.core words 4096)
        (Guarded (ThreadLocalAllocator.lawful ThreadLocalAllocator.smallBackend 2048)) { core }
        [(0, .newObjs 125 (filled 1)), (0, .newObjs 2 (filled 2)),
          (0, .reallocateConstructObjs 17104 130 (filled 3)), (1, .delObjsLocal 18256)] s ∧
      Sound ThreadLocalAllocator.core words 4096 s ∧
      s.arrays.map (·.objs) = [[2, 2].map (filled · 0)]) := by
  have hex₁ : (execOk (step StackAllocator.core words 4096)
      (Guarded (StackAllocator.lawful 65536 ThreadLocalAllocator.small_size_lt))
      { core := StackAllocator.shmInit 112 65536 fun _ => 0 }
      [(0, .newObjs 4 (filled 1)), (0, .newObjs 2 (filled 2)),
        (0, .reallocateConstructObjs 144 5 (filled 3)), (0, .assign 256 3 (filled 9 0)),
        (0, .delObjs 208)]).map (fun s => s.arrays.map (·.objs)) =
      some [[1, 1, 1, 9, 3].map (filled · 0)] := by
    decide +kernel
  have hex₂ : (execOk (step ScalablePageAllocator.core words 4096)
      (Guarded (ScalablePageAllocator.lawful 65536 ThreadLocalAllocator.small_size_lt))
      { core := ScalablePageAllocator.shmInit ScalablePageAllocator.smallBackend fun _ => 0 }
      [(0, .newObjs 4 (filled 1)), (0, .newObjs 2 (filled 2)),
        (0, .reallocateConstructObjs 4304 5 (filled 3)), (0, .assign 4496 3 (filled 9 0)),
        (0, .reallocateConstructObjs 4496 4 (filled 4)), (0, .delObjs 4400)]).map
          (fun s => (s.arrays.map (·.objs), s.dropped)) =
      some ([[1, 1, 1, 9].map (filled · 0)], 1) := by
    decide +kernel
  have hex₃ : ((ThreadLocalAllocator.shmInit ThreadLocalAllocator.smallBackend 2048 4
      fun _ => 0).bind fun core => execOk (step ThreadLocalAllocator.core words 4096)
        (Guarded (ThreadLocalAllocator.lawful ThreadLocalAllocator.smallBackend 2048)) { core }
        [(0, .newObjs 125 (filled 1)), (0, .newObjs 2 (filled 2)),
          (0, .reallocateConstructObjs 17104 130 (filled 3)), (1, .delObjsLocal 18256)]).map
            (fun s => s.arrays.map (·.objs)) = some [[2, 2].map (filled · 0)] := by
    decide +kernel
  obtain ⟨s₁, hs₁, ho₁⟩ := Option.map_eq_some_iff.mp hex₁
  obtain ⟨s₂, hs₂, ho₂⟩ := Option.map_eq_some_iff.mp hex₂
  obtain ⟨s₃, hs₃, ho₃⟩ := Option.map_eq_some_iff.mp hex₃
  obtain ⟨core, h₀, hs₃⟩ := Option.bind_eq_some_iff.mp hs₃
  obtain ⟨ho₂, hdropped⟩ := Prod.mk.inj ho₂
  have hrun₁ := run_of_execOk hs₁
  have hrun₂ := run_of_execOk hs₂
  have hrun₃ := run_of_execOk hs₃
  have hmapped : 0 < 4096 ∧ 4096 + 65536 ≤ sizeT := by decide
  have hf : ThreadLocalAllocator.NoOverflow ThreadLocalAllocator.smallBackend 2048 4 := by
    unfold ThreadLocalAllocator.NoOverflow
    decide
  refine ⟨⟨s₁, hrun₁, ?_, ho₁⟩, ⟨s₂, hrun₂, ?_, ho₂, hdropped⟩,
    ⟨core, s₃, h₀, hrun₃, ?_, ho₃⟩⟩
  · exact (objects_kept words 4096 (fun _ => 0) _).1 112 65536 _ s₁ (by decide) hmapped hrun₁
  · exact (objects_kept words 4096 (fun _ => 0) _).2.1 ScalablePageAllocator.smallBackend s₂
      hmapped hrun₂
  · exact (objects_kept words 4096 (fun _ => 0) _).2.2 ThreadLocalAllocator.smallBackend 2048 _
      core s₃ hmapped h₀ hf hrun₃

end ObjectCalls
end HermesShm.Memory
