import HermesShm.Memory.PageBytes

/-! # The scalable page allocator in all processes

With the internal allocator found in the table of each process, a call takes the same page
and writes the same bytes in all of them: those of the state that the call leads to. -/
namespace HermesShm.Memory.InProcess.ScalablePageAllocator
open HermesShm.Base MpPage
open AllocatorRegistry (AllocatorId getAllocator)
open Memory.ScalablePageAllocator (State Inv Request)

variable {id : AllocatorId} {custom size n x lock head : Nat} {σ outer : ByteMem}
  {live : List Block} {b : Block} {sl : Slot} {q : ListQueue} {p : Mapping} {t : Table}
  {s : State} {page_id : PageId} {ps : List Nat}

/-! ## Lists -/

theorem getAllocator_eq (h : Layout id custom size σ) (ht : Registered id custom size p.base t)
    (hsl : InHeader sl) :
    ListHeader.getAllocator t (p.view size σ) (p.base + slotOff sl) =
      some (attachedSub id custom size p.base) := by
  have hoff := slotOff_bounds hsl
  have hfits := h.fits
  have hpages : pagesOff custom = 584 + custom + 64 := rfl
  unfold Registered at ht
  unfold ListHeader.getAllocator
  rw [getWord_view (by omega), h.list_id sl hsl, wordId_idWord, ht]
  rfl

theorem Holds.list_eq (h : Holds id custom size outer s lock head σ) (hsl : InHeader sl) :
    s.global_.list sl = ListHeader.get σ (slotOff sl) := by
  rw [h.global, list_lists hsl]

/-- Where a process has the buffer of the internal allocator. -/
theorem Holds.sub_buffer (h : Holds id custom size outer s lock head σ) (base : Nat) :
    (attachedSub id custom size base).buffer_ = base + s.buf := by
  rw [h.buf]
  rfl

/-- The header of a list lies in the buffer. -/
theorem Holds.list_inside (h : Holds id custom size outer s lock head σ) (hsl : InHeader sl) :
    slotOff sl + 24 ≤ size := by
  have hoff := slotOff_bounds hsl
  have hfits := h.layout.fits
  have hpages : pagesOff custom = 584 + custom + 64 := rfl
  omega

/-- The pages lie where pages can be. -/
def Inside (custom size : Nat) (ps : List Nat) : Prop :=
  ∀ x ∈ ps, pagesOff custom ≤ x ∧ x + mpPage ≤ size

theorem Holds.within_list (h : Holds id custom size outer s lock head σ)
    (hin : Inside custom size ps) : Within size s.buf ps := fun x hx => by
  have hx := hin x hx
  have hbuf := h.buf
  have hpages : pagesOff custom = regionOff custom + 64 := rfl
  omega

/-- Where blocks are apart, so are the pages of a list. -/
theorem Holds.list_pages (h : Holds id custom size outer s lock head σ) (hi : Inv s live)
    (sl : Slot) : ∃ ps, (s.global_.list sl).Represents s.buf s.mem ps ∧ Inside custom size ps ∧
      ps.length + 1 < size := by
  obtain ⟨hi', len, at_, hb⟩ := hi
  have hin : Inside custom size (at_ (.free () sl)) := fun x hx => h.page_inside hb hx
  have hfits := h.layout.fits
  have hpages : pagesOff custom = 584 + custom + 64 := rfl
  have h32 : mpPage = 32 := rfl
  have hsub : at_ (.free () sl) ⊆ List.range (size - mpPage + 1) := fun x hx => by
    have := hin x hx
    rw [List.mem_range]
    omega
  have hlen := (List.subperm_of_subset (hb.pages.arena.nodup (.free () sl)) hsub).length_le
  rw [List.length_range] at hlen
  exact ⟨_, hb.pages.lists () sl, hin, by omega⟩

theorem pop_bounds (hq : q.tail_shm_ < sizeT) (hc : q.count_ < sizeT) (buf : Nat) (m : ByteMem) :
    (q.pop buf m).2.tail_shm_ < sizeT ∧ (q.pop buf m).2.count_ < sizeT := by
  unfold ListQueue.pop
  split
  · exact ⟨hq, hc⟩
  · split
    · exact ⟨hq, hc⟩
    · exact ⟨next_shm_.get_lt m _, Nat.lt_of_le_of_lt (Nat.sub_le ..) hc⟩

theorem dequeueAt_bounds (hq : q.tail_shm_ < sizeT) (hc : q.count_ < sizeT) (buf : Nat)
    (m : ByteMem) (prior : Option Nat) (x : Nat) :
    (q.dequeueAt buf m prior x).2.tail_shm_ < sizeT ∧
      (q.dequeueAt buf m prior x).2.count_ < sizeT := by
  cases prior with
  | none => exact pop_bounds hq hc buf m
  | some r => exact ⟨hq, Nat.lt_of_le_of_lt (Nat.sub_le ..) hc⟩

theorem Holds.list_bounds (h : Holds id custom size outer s lock head σ) (hsl : InHeader sl) :
    (s.global_.list sl).tail_shm_ < sizeT ∧ (s.global_.list sl).count_ < sizeT := by
  rw [h.list_eq hsl]
  exact ⟨getWord_lt σ _, getWord_lt σ _⟩

/-! ## The search for a page -/

/-- The page that a search takes, and what it writes, are the same in all processes. -/
def Searched (id : AllocatorId) (custom size : Nat) (outer : ByteMem) (s : State)
    (lock head : Nat) (σ : ByteMem) (page_id : PageId) : Prop :=
  ∃ page m₁ pa' σ₁, s.global_.allocate s.buf s.mem page_id = some (page, m₁, pa') ∧
    Holds id custom size outer { s with mem := m₁, global_ := pa' } lock head σ₁ ∧
    ∀ (p : Mapping) t, Mappable size p.base → Registered id custom size p.base t →
      PageAllocator.allocateMpsc t (p.view size σ) (p.base + 40) page_id =
        some (page.map (p.base + ·), p.view size σ₁)

theorem search_class (h : Holds id custom size outer s lock head σ)
    (hexp : page_id.exp_ < PageId.num_caches_)
    (hr : (s.global_.list (.cls page_id.exp_)).Represents s.buf s.mem ps)
    (hin : Inside custom size ps) : Searched id custom size outer s lock head σ page_id := by
  have hsl : InHeader (.cls page_id.exp_) := hexp
  have h24 := h.list_inside hsl
  have hwithin := h.within_list hin
  have hsame : ∀ x ∈ ps, s.mem.SameOn σ x mpPage := fun x hx => h.mem.sameOn (hin x hx).1
  have hpop := ListQueue.Represents.pop_congr hr hsame
  obtain ⟨hq, hc⟩ := h.list_bounds hsl
  obtain ⟨hq', hc'⟩ := pop_bounds hq hc s.buf s.mem
  refine ⟨((s.global_.list (.cls page_id.exp_)).pop s.buf s.mem).1, s.mem, _,
    ListHeader.set σ (slotOff (.cls page_id.exp_))
      ((s.global_.list (.cls page_id.exp_)).pop s.buf s.mem).2, ?_, h.setList hsl hq' hc',
    fun p t hm ht => ?_⟩
  · unfold Memory.PageAllocator.allocate
    rw [if_pos hexp]
    rfl
  · have hoff : PageAllocator.freeList (p.base + 40) page_id.exp_ =
        p.base + slotOff (.cls page_id.exp_) := Nat.add_assoc ..
    have hbuf := h.sub_buffer p.base
    unfold PageAllocator.allocateMpsc ListHeader.pop
    rw [if_pos hexp, hoff, listHeader_get_view h24, ← h.list_eq hsl]
    by_cases h0 : (s.global_.list (.cls page_id.exp_)).count_ = 0
    · have hnone : (s.global_.list (.cls page_id.exp_)).pop s.buf s.mem =
          (none, s.global_.list (.cls page_id.exp_)) := if_pos h0
      rw [if_pos h0, hnone]
      simp only [h.list_eq hsl, listHeader_set_get]
      rfl
    · rw [if_neg h0, getAllocator_eq h.layout ht hsl, Option.bind_eq_bind, Option.bind_some, hbuf,
        pop_view hm (hr.congr hsame) hwithin, hpop]
      simp only [listHeader_set_view h24]

/-- A page is taken out of the list of the large pages, behind `prior`. -/
theorem Holds.dequeueAt {prior : Option Nat} (h : Holds id custom size outer s lock head σ)
    (hr : s.global_.fallback_list_.Represents s.buf s.mem ps) (hin : Inside custom size ps)
    (hx : x ∈ ps) (hprior : ∀ r, prior = some r → r ∈ ps) :
    ∃ σ₁ q₁, s.global_.fallback_list_.dequeueAt s.buf σ prior x = (σ₁, q₁) ∧
      (s.global_.fallback_list_.dequeueAt s.buf s.mem prior x).2 = q₁ ∧
      Holds id custom size outer
        { s with mem := (s.global_.fallback_list_.dequeueAt s.buf s.mem prior x).1 }
        lock head σ₁ := by
  have hsame : ∀ y ∈ ps, s.mem.SameOn σ y mpPage := fun y hy => h.mem.sameOn (hin y hy).1
  cases prior with
  | none =>
    have hpop := ListQueue.Represents.pop_congr hr hsame
    exact ⟨σ, _, rfl, (congrArg Prod.snd hpop).symm, h⟩
  | some r =>
    have hr' := hin r (hprior r rfl)
    refine ⟨_, _, rfl, rfl, h.within hr'.1 hr'.2 (next_shm_.set_sameOff σ r _) ?_⟩
    rw [next_shm_.get_congr (hsame x hx)]
    exact h.mem.field_set next_shm_

/-- What a process finds from the first large page on. -/
theorem Holds.findFit_call (h : Holds id custom size outer s lock head σ)
    (hr : s.global_.fallback_list_.Represents s.buf s.mem ps) (hin : Inside custom size ps)
    (h0 : ¬ s.global_.fallback_list_.count_ = 0) (n : Nat) (hm : Mappable size p.base) :
    ListQueue.findFit (p.base + s.buf) (p.view size σ) n s.global_.fallback_list_.count_ none
        (s.global_.fallback_list_.begin_ (p.base + s.buf)) =
      (ListQueue.findFit s.buf s.mem n s.global_.fallback_list_.count_ none
        (s.global_.fallback_list_.begin_ s.buf)).map fun r =>
          r.map fun e => (e.1.map (p.base + ·), p.base + e.2) := by
  have hsl : InHeader .fallback := trivial
  have hwithin := h.within_list hin
  have hsame : ∀ y ∈ ps, s.mem.SameOn σ y mpPage := fun y hy => h.mem.sameOn (hin y hy).1
  have hbegin : s.global_.fallback_list_.begin_ s.buf =
      ListQueue.convert s.buf s.global_.fallback_list_.tail_shm_ := if_neg h0
  have hbegin' : s.global_.fallback_list_.begin_ (p.base + s.buf) =
      (ListQueue.convert s.buf s.global_.fallback_list_.tail_shm_).map (p.base + ·) := by
    refine (if_neg h0).trans (convert_link hm hwithin (h.list_bounds hsl).1 rfl fun y hy => ?_)
    rw [hr.next.head_none] at hy
    exact List.mem_of_mem_head? hy
  rw [hbegin, hbegin', ← ListQueue.Represents.findFit_congr n _ none hr.next hsame]
  exact findFit_view none s.global_.fallback_list_.count_ hm (hr.congr hsame).next hwithin

/-- No large page is long enough. -/
theorem Holds.search_missed (h : Holds id custom size outer s lock head σ)
    (hexp : ¬ page_id.exp_ < PageId.num_caches_)
    (hr : s.global_.fallback_list_.Represents s.buf s.mem ps) (hin : Inside custom size ps)
    (he : ListQueue.findFit s.buf s.mem page_id.round_ s.global_.fallback_list_.count_ none
      (s.global_.fallback_list_.begin_ s.buf) = some none) :
    Searched id custom size outer s lock head σ page_id := by
  have hsl : InHeader .fallback := trivial
  have h24 := h.list_inside hsl
  have hget : ListHeader.get σ (slotOff .fallback) = s.global_.fallback_list_ :=
    (h.list_eq hsl).symm
  refine ⟨none, s.mem, s.global_, σ, ?_, h, fun p t hm ht => ?_⟩
  · unfold Memory.PageAllocator.allocate
    rw [if_neg hexp]
    simp only [he, Option.bind_eq_bind, Option.bind_some]
  have hoff : PageAllocator.fallbackList (p.base + 40) = p.base + slotOff .fallback :=
    Nat.add_assoc ..
  unfold PageAllocator.allocateMpsc
  by_cases h0 : s.global_.fallback_list_.count_ = 0
  · simp only [if_neg hexp, hoff, listHeader_get_view h24, hget, if_pos h0, Option.map_none]
  · have hbuf := h.sub_buffer p.base
    have hcall := h.findFit_call hr hin h0 page_id.round_ hm
    rw [he] at hcall
    simp only [if_neg hexp, hoff, listHeader_get_view h24, hget, if_neg h0,
      getAllocator_eq h.layout ht hsl, Option.bind_eq_bind, Option.bind_some, hbuf, hcall,
      Option.map_some, Option.map_none]

theorem search_large (h : Holds id custom size outer s lock head σ)
    (hexp : ¬ page_id.exp_ < PageId.num_caches_)
    (hr : s.global_.fallback_list_.Represents s.buf s.mem ps) (hin : Inside custom size ps) :
    Searched id custom size outer s lock head σ page_id := by
  have hfind := ListQueue.Represents.findFit_spec page_id.round_ none hr.next
    (Nat.le_of_eq hr.count.symm)
  rw [hr.next.head_none, ← hr.begin_] at hfind
  rcases hfind with ⟨he, -⟩ | ⟨as, y, cs, he, hps, -⟩
  · exact h.search_missed hexp hr hin he
  rw [Option.or_none] at he
  have hsl : InHeader .fallback := trivial
  have h24 := h.list_inside hsl
  have hsame : ∀ y ∈ ps, s.mem.SameOn σ y mpPage := fun y hy => h.mem.sameOn (hin y hy).1
  have hget : ListHeader.get σ (slotOff .fallback) = s.global_.fallback_list_ :=
    (h.list_eq hsl).symm
  have h0 : ¬ s.global_.fallback_list_.count_ = 0 := by
    rw [hr.count, hps]
    simp
  have hy : y ∈ ps := by simp [hps]
  have hprior : ∀ r, as.getLast? = some r → r ∈ ps := fun r hr' => by
    rw [hps]
    exact List.mem_append_left _ (List.mem_of_getLast? hr')
  obtain ⟨σ₁, q₁, hd, hq₁, h₁⟩ := h.dequeueAt hr hin hy hprior
  obtain ⟨hq, hc⟩ := h.list_bounds hsl
  have hbounds := dequeueAt_bounds hq hc s.buf σ as.getLast? y
  rw [show s.global_.list .fallback = s.global_.fallback_list_ from rfl, hd] at hbounds
  refine ⟨some y, (s.global_.fallback_list_.dequeueAt s.buf s.mem as.getLast? y).1, _,
    ListHeader.set σ₁ (slotOff .fallback) q₁, ?_, h₁.setList hsl hbounds.1 hbounds.2,
    fun p t hm ht => ?_⟩
  · unfold Memory.PageAllocator.allocate
    rw [if_neg hexp]
    simp only [he, Option.bind_eq_bind, Option.bind_some]
    rw [← hq₁]
    rfl
  · have hoff : PageAllocator.fallbackList (p.base + 40) = p.base + slotOff .fallback :=
      Nat.add_assoc ..
    have hbuf := h.sub_buffer p.base
    have hcall := h.findFit_call hr hin h0 page_id.round_ hm
    rw [he] at hcall
    have hdeq := dequeueAt_view hm (hr.congr hsame) (h.within_list hin) hy hprior
    rw [hd] at hdeq
    unfold PageAllocator.allocateMpsc
    simp only [if_neg hexp, hoff, listHeader_get_view h24, hget, if_neg h0,
      getAllocator_eq h.layout ht hsl, Option.bind_eq_bind, Option.bind_some, hbuf, hcall,
      Option.map_some, hdeq, listHeader_set_view h24]

theorem search (h : Holds id custom size outer s lock head σ)
    (hr : (s.global_.list page_id.slot).Represents s.buf s.mem ps) (hin : Inside custom size ps) :
    Searched id custom size outer s lock head σ page_id := by
  unfold PageId.slot at hr
  by_cases hexp : page_id.exp_ < PageId.num_caches_
  · rw [if_pos hexp] at hr
    exact search_class h hexp hr hin
  · rw [if_neg hexp] at hr
    exact search_large h hexp hr hin

/-! ## The lock around it -/

theorem wordAdd_lt_sizeT (a b : Nat) : wordAdd sizeT a b < sizeT := Nat.mod_lt _ (by decide)

theorem wordSub_lt_sizeT {a : Nat} (ha : a < sizeT) (b : Nat) : wordSub sizeT a b < sizeT := by
  unfold wordSub
  split <;> omega

theorem Holds.mutex_inside (h : Holds id custom size outer s lock head σ) : 560 + 16 ≤ size := by
  have hfits := h.layout.fits
  have hpages : pagesOff custom = 584 + custom + 64 := rfl
  omega

theorem Holds.lock_call (h : Holds id custom size outer s lock lock σ) :
    ∃ σ₁, Holds id custom size outer s (wordAdd sizeT lock 1) lock σ₁ ∧
      ∀ p : Mapping, Mutex.lock (p.view size σ) (p.base + 40 + 520) = some (p.view size σ₁) := by
  refine ⟨_, h.setLock (wordAdd_lt_sizeT lock 1), fun p => ?_⟩
  have hhead : getWord (setWord σ 560 (wordAdd sizeT lock 1)) (560 + 8) = lock :=
    (getWord_setWord_apart (by omega)).trans h.head_
  rw [Nat.add_assoc, lock_view h.mutex_inside]
  simp only [Mutex.lock, h.lock_, hhead, if_true, Option.map_some]

theorem Holds.unlock_call (h : Holds id custom size outer s lock head σ) :
    ∃ σ₁, Holds id custom size outer s lock (wordAdd sizeT head 1) σ₁ ∧
      ∀ p : Mapping, Mutex.unlock (p.view size σ) (p.base + 40 + 520) = p.view size σ₁ := by
  refine ⟨_, h.setHead (wordAdd_lt_sizeT head 1), fun p => ?_⟩
  have hhead : getWord σ (560 + 8) = head := h.head_
  rw [Nat.add_assoc, unlock_view h.mutex_inside]
  simp only [Mutex.unlock, hhead]

/-- `Allocate` of the page allocator. -/
theorem allocate_page (h : Holds id custom size outer s lock lock σ)
    (hr : (s.global_.list page_id.slot).Represents s.buf s.mem ps) (hin : Inside custom size ps) :
    ∃ page m₁ pa' lock' σ', s.global_.allocate s.buf s.mem page_id = some (page, m₁, pa') ∧
      Holds id custom size outer { s with mem := m₁, global_ := pa' } lock' lock' σ' ∧
      ∀ (p : Mapping) t, Mappable size p.base → Registered id custom size p.base t →
        PageAllocator.allocate t (p.view size σ) (p.base + 40) page_id =
          some (page.map (p.base + ·), p.view size σ') := by
  obtain ⟨σ₁, h₁, hlock⟩ := h.lock_call
  obtain ⟨page, m₁, pa', σ₂, he, h₂, hsearch⟩ := search h₁ hr hin
  obtain ⟨σ₃, h₃, hunlock⟩ := h₂.unlock_call
  refine ⟨page, m₁, pa', _, σ₃, he, h₃, fun p t hm ht => ?_⟩
  simp only [PageAllocator.allocate, hlock, Option.bind_eq_bind, Option.bind_some,
    hsearch p t hm ht, hunlock]

/-! ## Requests -/

/-- A page of the heap of the internal allocator. -/
theorem Holds.subAllocate_call (h : Holds id custom size outer s lock head σ) (n : Nat) :
    ∃ σ', Holds id custom size outer { s with heap_ := (s.heap_.allocateOffset n).2 } lock head σ' ∧
      ∀ p : Mapping, (attachedSub id custom size p.base).subAllocateOffset (p.view size σ) n =
        ((s.heap_.allocateOffset n).1, p.view size σ') := by
  have hpages : pagesOff custom = regionOff custom + 64 := rfl
  have hin : regionOff custom + 32 + 24 ≤ size := by
    have := h.layout.fits
    omega
  have hheap : s.heap_.allocateOffset n = ((s.heap_.allocateOffset n).1,
      { s.heap_ with heap_off_ := wordAdd sizeT s.heap_.heap_off_ n }) := by
    unfold Memory.HeapAllocator.allocateOffset
    dsimp only
    split <;> rfl
  have hoff : s.heap_.heap_off_ = getWord σ (regionOff custom + 32 + 8) := by rw [h.heap]; rfl
  rw [hoff] at hheap
  refine ⟨_, by rw [hheap]; exact h.setHeapOff (wordAdd_lt_sizeT ..), fun p => ?_⟩
  have haddr : (attachedSub id custom size p.base).heap_ = p.base + (regionOff custom + 32) :=
    Nat.add_assoc ..
  rw [StackAllocator.subAllocateOffset, haddr, heap_allocateOffset_view hin,
    StackAllocator.heap_allocateOffset_eq, ← h.heap]

theorem heap_region (heap : Memory.HeapAllocator) (n : Nat) :
    (heap.allocateOffset n).2.region_off_ = heap.region_off_ := by
  unfold Memory.HeapAllocator.allocateOffset
  dsimp only
  split <;> rfl

theorem heap_size (heap : Memory.HeapAllocator) (n : Nat) :
    (heap.allocateOffset n).2.heap_size_ = heap.heap_size_ := by
  unfold Memory.HeapAllocator.allocateOffset
  dsimp only
  split <;> rfl

theorem heap_off_lt {heap : Memory.HeapAllocator} {o : Nat}
    (h : (heap.allocateOffset n).1 = some o) : offset? o = some o ∧ o < sizeT := by
  unfold Memory.HeapAllocator.allocateOffset at h
  dsimp only at h
  split at h
  · cases h
  · unfold offset? at h ⊢
    split at h
    · cases h
    · rename_i hnull
      obtain rfl := Option.some.inj h
      exact ⟨if_neg hnull, wordAdd_lt_sizeT ..⟩

/-- The page and the counter that a served request writes. -/
theorem Holds.mark (h : Holds id custom size outer s lock head σ) (hx : pagesOff custom ≤ x)
    (hx' : x + mpPage ≤ size) (page_id : PageId) :
    ∃ σ', Holds id custom size outer
        (Memory.ScalablePageAllocator.markAllocated s page_id x) lock head σ' ∧
      ∀ p : Mapping, setAllocated (page_size_.set (addSize (p.view size σ) p.base page_id.round_)
        (p.base + x) page_id.round_) (p.base + x) = p.view size σ' := by
  have hin : 32 ≤ size := by
    have := h.mutex_inside
    omega
  have h₁ := h.setTotal (wordAdd_lt_sizeT s.total_alloc_ page_id.round_)
  have h₂ := h₁.within hx hx' (page_size_.set_sameOff _ x page_id.round_)
    (h₁.mem.field_set page_size_)
  have h₃ := h₂.within hx hx' (setAllocated_sameOff _ x) (h₂.mem.setAllocated hx)
  refine ⟨_, h₃, fun p => ?_⟩
  rw [addSize_view hin, field_set_view _ hx', setAllocated_view hx', addSize, getTotal, h.total]

theorem toOffset_attached (p : Mapping) (x : Nat) :
    (attached id custom size p.base).toOffset (p.base + x) = x := by
  have h := wordSub_of_le (w := sizeT) (Nat.le_add_right p.base x)
  rw [Nat.add_sub_cancel_left] at h
  exact h

/-- The block of a page begins in the buffer, or at its end. -/
theorem wordAdd_page (hm : Mappable size p.base) (hx : x + mpPage ≤ size) :
    wordAdd sizeT x mpPage = x + mpPage := by
  unfold Mappable at hm
  exact wordAdd_of_lt (by omega)

/-- The internal allocator converts what its heap gives. -/
theorem Holds.convert_page (h : Holds id custom size outer s lock head σ) {o : Nat}
    (ho : (s.heap_.allocateOffset n).1 = some o) (hm : Mappable size p.base)
    (hx : pagesOff custom ≤ wordAdd sizeT s.buf o) (hx' : wordAdd sizeT s.buf o + mpPage ≤ size) :
    (attachedSub id custom size p.base).convert o = some (p.base + wordAdd sizeT s.buf o) := by
  obtain ⟨hnull, hlt⟩ := heap_off_lt ho
  have hpages : pagesOff custom = regionOff custom + 64 := rfl
  have hregion : ListQueue.convert (regionOff custom) o = some (wordAdd sizeT s.buf o) := by
    rw [ListQueue.convert, hnull, h.buf]
    rfl
  unfold Mappable at hm
  exact convert_base hregion hlt (by omega) (by omega)

/-- A request that takes its page from the buffer. -/
theorem allocate_within {r : Except Error Nat} {s' : State}
    (h : Holds id custom size outer s lock lock σ)
    (hr : (s.global_.list (requestId n).slot).Represents s.buf s.mem ps)
    (hin : Inside custom size ps)
    (hs : Memory.ScalablePageAllocator.allocateOffset s n = some (r, s'))
    (hq : ∀ q, r = .ok q → s'.buf + s'.heap_.region_off_ + mpPage ≤ q ∧
      q ≤ s'.buf + s'.heap_.region_off_ + s'.heap_.heap_size_) :
    ∃ lock' σ', Holds id custom size outer s' lock' lock' σ' ∧
      ∀ (p : Mapping) t, Mappable size p.base → Registered id custom size p.base t →
        allocateOffset (attached id custom size p.base) t (p.view size σ) n =
          some (r, p.view size σ') := by
  obtain ⟨page, m₁, pa', lock', σ₁, hfound, h₁, hcall⟩ := allocate_page h hr hin
  have hlo := h.lo_eq
  have hend := h.end_eq
  have hmutex := h.mutex_inside
  have hheader : ∀ p : Mapping, (attached id custom size p.base).header_ = p.base := fun _ => rfl
  unfold Memory.ScalablePageAllocator.allocateOffset at hs
  simp only [hfound, Option.bind_eq_bind, Option.bind_some] at hs
  cases page with
  | some x =>
    simp only [Option.some.injEq, Prod.mk.injEq] at hs
    obtain ⟨rfl, rfl⟩ := hs
    have hx := hq _ rfl
    simp only [Memory.ScalablePageAllocator.markAllocated] at hx
    have hin' : x + mpPage ≤ size := by omega
    obtain ⟨σ', h', hmark⟩ := h₁.mark (x := x) (by omega) hin' (requestId n)
    refine ⟨lock', σ', h', fun p t hm ht => ?_⟩
    simp only [allocateOffset, hheader, hcall p t hm ht, Option.map_some, Option.bind_eq_bind,
      Option.bind_some, hmark, toOffset_attached, wordAdd_page hm hin']
  | none =>
    obtain ⟨σ₂, h₂, hsub⟩ := h₁.subAllocate_call (requestId n).round_
    have halloc : ∀ p : Mapping, (attached id custom size p.base).alloc_ =
        attachedSub id custom size p.base := fun _ => rfl
    simp only [Memory.ScalablePageAllocator.subAllocate] at hs
    cases ho : (s.heap_.allocateOffset (requestId n).round_).1 with
    | none =>
      simp only [ho, Option.map_none, Option.some.injEq, Prod.mk.injEq] at hs
      obtain ⟨rfl, rfl⟩ := hs
      refine ⟨lock', σ₂, h₂, fun p t hm ht => ?_⟩
      have htotal : getTotal (p.view size σ₂) p.base = s.total_alloc_ :=
        (getWord_view (by omega)).trans h₂.total.symm
      simp only [allocateOffset, hheader, hcall p t hm ht, Option.map_none, Option.bind_eq_bind,
        Option.bind_some, halloc, hsub, ho, Option.bind_none, htotal]
    | some o =>
      simp only [ho, Option.map_some, Option.some.injEq, Prod.mk.injEq] at hs
      obtain ⟨rfl, rfl⟩ := hs
      have hx := hq _ rfl
      simp only [Memory.ScalablePageAllocator.markAllocated, heap_region, heap_size] at hx
      have hlo' : pagesOff custom ≤ wordAdd sizeT s.buf o := by omega
      have hin' : wordAdd sizeT s.buf o + mpPage ≤ size := by omega
      obtain ⟨σ', h', hmark⟩ := h₂.mark hlo' hin' (requestId n)
      refine ⟨lock', σ', h', fun p t hm ht => ?_⟩
      simp only [allocateOffset, hheader, hcall p t hm ht, Option.map_none, Option.bind_eq_bind,
        Option.bind_some, halloc, hsub, ho, h.convert_page ho hm hlo' hin', hmark,
        toOffset_attached, wordAdd_page hm hin']

theorem allocate_holds (h : Holds id custom size outer s lock lock σ) (hi : Inv s live)
    (hr : Request s n) (hn : NoWrap n) :
    ∃ r s' lock' σ', Memory.ScalablePageAllocator.allocateOffset s n = some (r, s') ∧
      Holds id custom size outer s' lock' lock' σ' ∧
      ∀ (p : Mapping) t, Mappable size p.base → Registered id custom size p.base t →
        allocateOffset (attached id custom size p.base) t (p.view size σ) n =
          some (r, p.view size σ') := by
  obtain ⟨r, s', he, hout⟩ := Memory.ScalablePageAllocator.allocateOffset_spec hi hr hn
  obtain ⟨ps, hps, hin, -⟩ := h.list_pages hi (requestId n).slot
  obtain ⟨lock', σ', h', hcall⟩ := allocate_within h hps hin he fun q hq => by
    subst hq
    rcases hout with ⟨e, he, -⟩ | ⟨y, hy, ha⟩
    · cases he
    · cases hy
      have := ha.inv.inside List.mem_cons_self
      simp only at this
      omega
  exact ⟨r, s', lock', σ', he, h', hcall⟩

/-! ## Frees -/

/-- A page goes to the front of a list. -/
theorem Holds.enqueue_call (h : Holds id custom size outer s lock head σ) (hsize : size < sizeT)
    (hsl : InHeader sl) (hx : pagesOff custom ≤ x) (hx' : x + mpPage ≤ size)
    (hc : (s.global_.list sl).count_ + 1 < size) :
    ∃ σ', Holds id custom size outer { s with
          mem := ((s.global_.list sl).enqueue s.buf s.mem x).1
          global_ := s.global_.setList sl ((s.global_.list sl).enqueue s.buf s.mem x).2 }
        lock head σ' ∧
      ∀ (p : Mapping) t, Registered id custom size p.base t →
        ListHeader.enqueue t (p.view size σ) (p.base + slotOff sl) (p.base + x) =
          some (p.view size σ') := by
  have hpages : pagesOff custom = regionOff custom + 64 := rfl
  have hbuf := h.buf
  have h24 := h.list_inside hsl
  have htail : ListQueue.toShm s.buf x < sizeT := by
    rw [ListQueue.toShm, wordSub_of_le (by omega)]
    omega
  have h₁ := h.within hx hx' (next_shm_.set_sameOff σ x (s.global_.list sl).tail_shm_)
    (h.mem.field_set next_shm_)
  refine ⟨_, h₁.setList hsl htail (Nat.lt_trans hc hsize), fun p t ht => ?_⟩
  have hsub := h.sub_buffer p.base
  have henq := enqueue_view (p := p) (σ := σ) (q := s.global_.list sl)
    (show s.buf ≤ x by omega) hx'
  simp only [ListHeader.enqueue, getAllocator_eq h.layout ht hsl, Option.bind_eq_bind,
    Option.bind_some, hsub, listHeader_get_view h24, ← h.list_eq hsl, henq,
    listHeader_set_view h24]
  rfl

/-- The slot that a free page goes to. -/
def slotOf (m : ByteMem) (x : Nat) : Slot := (PageId.ofSize (page_size_.get m x)).slot

/-- `Free` of the page allocator. -/
theorem Holds.free_page (h : Holds id custom size outer s lock lock σ) (hsize : size < sizeT)
    (hx : pagesOff custom ≤ x) (hx' : x + mpPage ≤ size)
    (hc : (s.global_.list (slotOf s.mem x)).count_ + 1 < size) :
    ∃ lock' σ', Holds id custom size outer { s with
          mem := (s.global_.free s.buf s.mem x).1
          global_ := (s.global_.free s.buf s.mem x).2 } lock' lock' σ' ∧
      ∀ (p : Mapping) t, Registered id custom size p.base t →
        PageAllocator.free t (p.view size σ) (p.base + 40) (p.base + x) =
          some (p.view size σ') := by
  have hpage : ∀ p : Mapping, page_size_.get (p.view size σ) (p.base + x) =
      page_size_.get s.mem x := fun p =>
    (field_get_view page_size_ hx').trans (page_size_.get_congr (h.mem.sameOn hx))
  unfold slotOf PageId.slot at hc
  by_cases hexp : (PageId.ofSize (page_size_.get s.mem x)).exp_ < PageId.num_caches_
  · rw [if_pos hexp] at hc
    have hsl : InHeader (.cls (PageId.ofSize (page_size_.get s.mem x)).exp_) := hexp
    obtain ⟨σ', h', hcall⟩ := h.enqueue_call hsize hsl hx hx' hc
    refine ⟨lock, σ', ?_, fun p t ht => ?_⟩
    · unfold Memory.PageAllocator.free
      simp only [if_pos hexp]
      exact h'
    · have hoff : PageAllocator.freeList (p.base + 40)
          (PageId.ofSize (page_size_.get s.mem x)).exp_ =
          p.base + slotOff (.cls (PageId.ofSize (page_size_.get s.mem x)).exp_) :=
        Nat.add_assoc ..
      unfold PageAllocator.free
      simp only [hpage, if_pos hexp, hoff, hcall p t ht]
  · rw [if_neg hexp] at hc
    obtain ⟨σ₁, h₁, hlock⟩ := h.lock_call
    have hsl : InHeader .fallback := trivial
    obtain ⟨σ₂, h₂, hcall⟩ := h₁.enqueue_call hsize hsl hx hx' hc
    obtain ⟨σ₃, h₃, hunlock⟩ := h₂.unlock_call
    refine ⟨wordAdd sizeT lock 1, σ₃, ?_, fun p t ht => ?_⟩
    · unfold Memory.PageAllocator.free
      simp only [if_neg hexp]
      exact h₃
    · have hoff : PageAllocator.fallbackList (p.base + 40) = p.base + slotOff .fallback :=
        Nat.add_assoc ..
      unfold PageAllocator.free
      simp only [hpage, if_neg hexp, hlock, hoff, Option.bind_eq_bind, Option.bind_some,
        hcall p t ht, hunlock]

theorem convert_attached (hm : Mappable size p.base) (hx : x ≤ size) :
    (attached id custom size p.base).convert x = some (p.base + x) := by
  have hnull : nullOff = sizeT - 1 := rfl
  unfold Mappable at hm
  simp only [Allocator.convert, attached, ListQueue.convert, offset?,
    if_neg (show ¬ x = nullOff by omega), Option.map_some,
    wordAdd_of_lt (show p.base + x < sizeT by omega)]

/-- A page of the buffer, with room in the count of its list. -/
theorem free_within {q : Nat} (h : Holds id custom size outer s lock lock σ) (hsize : size < sizeT)
    (hq : pagesOff custom + mpPage ≤ q) (hq' : q ≤ size)
    (halloc : isAllocated s.mem (q - mpPage) = true)
    (hc : (s.global_.list (slotOf s.mem (q - mpPage))).count_ + 1 < size) :
    ∃ s' lock' σ', Memory.ScalablePageAllocator.freeOffsetNoNullCheck s q = .ok s' ∧
      Holds id custom size outer s' lock' lock' σ' ∧
      ∀ (p : Mapping) t, Mappable size p.base → Registered id custom size p.base t →
        freeOffsetNoNullCheck (attached id custom size p.base) t (p.view size σ) q =
          some (.ok (p.view size σ')) := by
  obtain ⟨x, hx⟩ : ∃ x, x = q - mpPage := ⟨_, rfl⟩
  rw [← hx] at halloc hc
  have hxlo : pagesOff custom ≤ x := by omega
  have hxin : x + mpPage ≤ size := by omega
  have h32 : 32 ≤ size := Nat.le_trans (by decide) h.mutex_inside
  have hsize_ : page_size_.get (unsetAllocated s.mem x) x = page_size_.get s.mem x := by
    unfold unsetAllocated
    exact Field.get_set_apart (by decide)
  have h₁ := h.within hxlo hxin (unsetAllocated_sameOff σ x) (h.mem.unsetAllocated (x := x))
  have htotal : s.total_alloc_ < sizeT := h.total ▸ getWord_lt σ 24
  have h₂ := h₁.setTotal (wordSub_lt_sizeT htotal (page_size_.get (unsetAllocated s.mem x) x))
  obtain ⟨lock', σ', h₃, hcall⟩ := h₂.free_page hsize hxlo hxin
    (by simp only [slotOf, hsize_]; exact hc)
  refine ⟨_, lock', σ', ?_, h₃, fun p t hm ht => ?_⟩
  · unfold Memory.ScalablePageAllocator.freeOffsetNoNullCheck
    simp only [← hx, halloc, Bool.not_true, Bool.false_eq_true, if_false]
  · have hsub : wordSub sizeT q mpPage = x := by
      rw [hx]
      exact wordSub_of_le (by omega)
    have hheader : (attached id custom size p.base).header_ = p.base := rfl
    have halloc' : isAllocated σ x = true :=
      (isAllocated_congr (h.mem.sameOn hxlo)).trans halloc
    have hpage : page_size_.get (unsetAllocated σ x) x =
        page_size_.get (unsetAllocated s.mem x) x := page_size_.get_congr (h₁.mem.sameOn hxlo)
    have hget : getTotal (unsetAllocated σ x) 0 = s.total_alloc_ := h₁.total.symm
    have hword : subSize (unsetAllocated σ x) 0 (page_size_.get (unsetAllocated s.mem x) x) =
        setWord (unsetAllocated σ x) 24 (wordSub sizeT s.total_alloc_
          (page_size_.get (unsetAllocated s.mem x) x)) := by
      unfold subSize
      rw [hget]
    simp only [freeOffsetNoNullCheck, hsub, convert_attached hm (show x ≤ size by omega),
      Option.bind_eq_bind, Option.bind_some, isAllocated_view hxin, halloc', Bool.not_true,
      Bool.false_eq_true, if_false, unsetAllocated_view hxin, field_get_view page_size_ hxin, hpage,
      hheader, subSize_view h32, hword, hcall p t ht]

theorem free_holds (h : Holds id custom size outer s lock lock σ) (hsize : size < sizeT)
    (hi : Inv s live) (hb : b ∈ live) :
    ∃ s' lock' σ', Memory.ScalablePageAllocator.freeOffsetNoNullCheck s b.off = .ok s' ∧
      Holds id custom size outer s' lock' lock' σ' ∧
      ∀ (p : Mapping) t, Mappable size p.base → Registered id custom size p.base t →
        freeOffsetNoNullCheck (attached id custom size p.base) t (p.view size σ) b.off =
          some (.ok (p.view size σ')) := by
  obtain ⟨hlo, hin⟩ := h.block_inside hi hb
  obtain ⟨ps, hps, -, hlt⟩ := h.list_pages hi (slotOf s.mem (b.off - mpPage))
  obtain ⟨hi', len, at_, hbs⟩ := hi
  exact free_within h hsize hlo (Nat.le_of_add_right_le hin) (hbs.pages.live _ (hbs.page hb))
    (hps.count ▸ hlt)

/-! ## Reallocations and stores -/

/-- The bytes of a block are changed, in the bytes as in the state. -/
theorem Holds.copy (h : Holds id custom size outer s lock head σ) {dst src : Nat}
    (hd : pagesOff custom ≤ dst) (hd' : dst + n ≤ size) (hs : pagesOff custom ≤ src) :
    Holds id custom size outer { s with mem := s.mem.copy dst src n } lock head
      (σ.copy dst src n) := by
  refine h.within hd hd' (σ.copy_sameOff dst src n) fun x hx => ?_
  unfold ByteMem.copy
  rw [h.mem x hx, h.mem (src + (x - dst)) (by omega)]

theorem Holds.write (h : Holds id custom size outer s lock head σ) (byte : UInt8)
    (hx : pagesOff custom ≤ x) (hx' : x < size) :
    Holds id custom size outer { s with mem := Function.update s.mem x byte } lock head
      (Function.update σ x byte) := by
  refine h.within (a := x) (n := 1) hx hx' (fun y hy => Function.update_of_ne (by omega) ..)
    fun y hy => ?_
  by_cases hyx : y = x
  · rw [hyx, Function.update_self, Function.update_self]
  · rw [Function.update_of_ne hyx, Function.update_of_ne hyx]
    exact h.mem y hy

theorem reallocate_holds (h : Holds id custom size outer s lock lock σ) (hsize : size < sizeT)
    (hi : Inv s live) (hb : b ∈ live) (hr : Request s n) (hn : NoWrap n)
    (hg : Memory.ScalablePageAllocator.Grows s b.off n) :
    ∃ r s' lock' σ', Memory.ScalablePageAllocator.reallocateOffsetNoNullCheck s b.off n =
        some (r, s') ∧ Holds id custom size outer s' lock' lock' σ' ∧
      ∀ (p : Mapping) t, Mappable size p.base → Registered id custom size p.base t →
        reallocateOffsetNoNullCheck (attached id custom size p.base) t (p.view size σ) b.off n =
          some (r, p.view size σ') := by
  obtain ⟨r, s₁, lock₁, σ₁, he, h₁, hcall₁⟩ := allocate_holds h hi hr hn
  obtain ⟨r', s₁', he', hout⟩ := Memory.ScalablePageAllocator.allocateOffset_spec hi hr hn
  rw [he, Option.some.injEq, Prod.mk.injEq] at he'
  obtain ⟨rfl, rfl⟩ := he'
  rcases hout with ⟨e, rfl, -⟩ | ⟨q, rfl, ha⟩
  · refine ⟨.error e, s₁, lock₁, σ₁, ?_, h₁, fun p t hm ht => ?_⟩
    · simp only [Memory.ScalablePageAllocator.reallocateOffsetNoNullCheck, he,
        Option.bind_eq_bind, Option.bind_some]
    · simp only [reallocateOffsetNoNullCheck, hcall₁ p t hm ht, Option.bind_eq_bind,
        Option.bind_some]
  have hgrow : capacity s.mem b.off ≤ capacity s₁.mem q := by
    rw [capacity, capacity, ha.page_size]
    exact Nat.sub_le_sub_right hg mpPage
  obtain ⟨hcap, hi₂⟩ := hi.copied hb ha hgrow
  obtain ⟨hblo, hbin⟩ := h.block_inside hi hb
  obtain ⟨hqlo, hqin⟩ := h₁.block_inside ha.inv List.mem_cons_self
  simp only at hqlo hqin
  have h₂ := h₁.copy (show pagesOff custom ≤ q by omega)
    (show q + capacity s.mem b.off ≤ size by omega) (show pagesOff custom ≤ b.off by omega)
  obtain ⟨s₃, lock₃, σ₃, he₃, h₃, hcall₃⟩ := free_holds h₂ hsize hi₂ (List.mem_cons_of_mem _ hb)
  refine ⟨.ok q, s₃, lock₃, σ₃, ?_, h₃, fun p t hm ht => ?_⟩
  · simp only [Memory.ScalablePageAllocator.reallocateOffsetNoNullCheck, he, Option.bind_eq_bind,
      Option.bind_some, hcap, he₃]
  · have hhdr : p.base + b.off - mpPage = p.base + (b.off - mpPage) := by omega
    have hsame : page_size_.get σ₁ (b.off - mpPage) = page_size_.get s₁.mem (b.off - mpPage) :=
      page_size_.get_congr (h₁.mem.sameOn (by omega))
    simp only [reallocateOffsetNoNullCheck, hcall₁ p t hm ht, Option.bind_eq_bind,
      Option.bind_some, convert_attached hm (show q ≤ size by omega),
      convert_attached hm (show b.off ≤ size by omega), hhdr,
      field_get_view page_size_ (show b.off - mpPage + mpPage ≤ size by omega), hsame, hcap,
      Mapping.copy_view (show q + capacity s.mem b.off ≤ size by omega) hbin,
      hcall₃ p t hm ht]

end HermesShm.Memory.InProcess.ScalablePageAllocator
