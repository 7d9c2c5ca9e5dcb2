import HermesShm.Memory.PageProcesses

/-! # The scalable page allocator is made, and attached to

`shm_init` leaves empty lists, a free lock and the heap of the internal allocator in the
buffer, the same bytes in all processes. A process that attaches finds them, and enters
its internal allocator in its table. -/
namespace HermesShm.Memory.InProcess
open HermesShm.Base MpPage
open AllocatorRegistry (AllocatorId Registry registerSubAllocator getAllocator)

variable {size x n : Nat} {σ m : ByteMem} {p : Mapping} {alloc : Allocator}

/-! ## Lists -/

namespace ListHeader

theorem shmInit_sameOff (m : ByteMem) (q : Nat) (alloc : Allocator) :
    m.SameOff (shmInit m q alloc) q 24 :=
  (((setWord_sameOff m q _).mono (Nat.le_refl _) (by omega)).trans
    ((setWord_sameOff _ (q + 8) _).mono (by omega) (by omega))).trans
    ((setWord_sameOff _ (q + 16) _).mono (by omega) (by omega))

/-- A new list is empty, and has the id of its allocator. -/
theorem shmInit_words (m : ByteMem) (q : Nat) (alloc : Allocator) :
    getWord (shmInit m q alloc) q = idWord alloc.id_ ∧ get (shmInit m q alloc) q = {} := by
  have hnull : nullOff < sizeT := by decide
  have hzero : 0 < sizeT := by decide
  simp only [shmInit, get]
  refine ⟨?_, ?_⟩
  · rw [getWord_setWord_apart (by omega), getWord_setWord_apart (by omega),
      getWord_setWord _ _ (idWord_lt _)]
  · rw [getWord_setWord_apart (by omega), getWord_setWord _ _ hnull, getWord_setWord _ _ hzero]

theorem shmInit_view (h : x + 24 ≤ size) :
    shmInit (p.view size σ) (p.base + x) alloc = p.view size (shmInit σ x alloc) := by
  unfold shmInit
  rw [setWord_view (by omega), setWord_view_add (by omega), setWord_view_add (by omega)]

/-- What a list is made of, in other bytes. -/
theorem words_congr {m' : ByteMem} {q w : Nat} {l : ListQueue}
    (h : getWord m q = w ∧ get m q = l) (hm : m.SameOn m' q 24) :
    getWord m' q = w ∧ get m' q = l := by
  obtain ⟨hid, hget⟩ := h
  refine ⟨(getWord_congr fun y hy hy' => hm y hy (by omega)).trans hid, ?_⟩
  rw [← hget, get, get, getWord_congr fun y hy hy' => hm y (by omega) (by omega),
    getWord_congr fun y hy hy' => hm y (by omega) (by omega)]

end ListHeader

/-! ## The page allocator -/

namespace PageAllocator

theorem initLists_sameOff (m : ByteMem) (pa : Nat) (alloc : Allocator) (n : Nat) :
    m.SameOff (initLists m pa alloc n) pa (24 * n) := by
  induction n with
  | zero => exact fun x _ => rfl
  | succ n ih =>
    have hlast := ListHeader.shmInit_sameOff (initLists m pa alloc n) (freeList pa n) alloc
    unfold freeList at hlast
    exact (ih.mono (Nat.le_refl _) (by omega)).trans (hlast.mono (by omega) (by omega))

theorem initLists_words (m : ByteMem) (pa : Nat) (alloc : Allocator) {i n : Nat} (hi : i < n) :
    getWord (initLists m pa alloc n) (freeList pa i) = idWord alloc.id_ ∧
      ListHeader.get (initLists m pa alloc n) (freeList pa i) = {} := by
  induction n with
  | zero => cases hi
  | succ n ih =>
    rcases Nat.lt_succ_iff_lt_or_eq.mp hi with hlt | rfl
    · have hlast := ListHeader.shmInit_sameOff (initLists m pa alloc n) (freeList pa n) alloc
      refine ListHeader.words_congr (ih hlt) (hlast.sameOn (.inr ?_))
      unfold freeList
      omega
    · exact ListHeader.shmInit_words _ _ _

theorem initLists_view (h : x + 24 * n ≤ size) :
    initLists (p.view size σ) (p.base + x) alloc n = p.view size (initLists σ x alloc n) := by
  induction n with
  | zero => rfl
  | succ n ih =>
    have hoff : freeList (p.base + x) n = p.base + freeList x n := Nat.add_assoc ..
    rw [initLists, initLists, ih (by omega), hoff, ListHeader.shmInit_view]
    unfold freeList
    omega

/-- The members before the lists, where `construct` writes first. -/
def constructHead (m : ByteMem) (pa : Nat) : ByteMem :=
  let m := setWord (setWord m (pa + 480) 0) (pa + 488) (2 ^ 64 - 1)
  let m := HeapAllocator.shmInit m (pa + 496) 0 0
  (setWord (setWord m (pa + 520) 0) (pa + 528) 0).store (pa + 536) 4 0

theorem construct_eq (m : ByteMem) (pa : Nat) (alloc : Allocator) :
    construct m pa alloc = ListHeader.shmInit
      (initLists (constructHead m pa) pa alloc PageId.num_caches_) (fallbackList pa) alloc := rfl

theorem constructHead_sameOff (m : ByteMem) (pa : Nat) :
    m.SameOff (constructHead m pa) (pa + 480) 60 :=
  ((((((setWord_sameOff m (pa + 480) _).mono (Nat.le_refl _) (by omega)).trans
    ((setWord_sameOff _ (pa + 488) _).mono (by omega) (by omega))).trans
    ((StackAllocator.heap_shmInit_sameOff _ (pa + 496) 0 0).mono (by omega) (by omega))).trans
    ((setWord_sameOff _ (pa + 520) _).mono (by omega) (by omega))).trans
    ((setWord_sameOff _ (pa + 528) _).mono (by omega) (by omega))).trans
    ((ByteMem.store_sameOff _ (pa + 536) 4 0).mono (by omega) (by omega))

theorem constructHead_view (h : x + 540 ≤ size) :
    constructHead (p.view size σ) (p.base + x) = p.view size (constructHead σ x) := by
  have hheap (τ : ByteMem) : HeapAllocator.shmInit (p.view size τ) (p.base + x + 496) 0 0 =
      p.view size (HeapAllocator.shmInit τ (x + 496) 0 0) := by
    rw [Nat.add_assoc, StackAllocator.heap_shmInit_view (by omega)]
  have hstore (τ : ByteMem) : (p.view size τ).store (p.base + x + 536) 4 0 =
      p.view size (τ.store (x + 536) 4 0) := by
    rw [Nat.add_assoc, Mapping.store_view (by omega)]
  simp only [constructHead, setWord_view_add (show x + 480 + 8 ≤ size by omega),
    setWord_view_add (show x + 488 + 8 ≤ size by omega), hheap,
    setWord_view_add (show x + 520 + 8 ≤ size by omega),
    setWord_view_add (show x + 528 + 8 ≤ size by omega), hstore]

theorem construct_view (h : x + 540 ≤ size) :
    construct (p.view size σ) (p.base + x) alloc = p.view size (construct σ x alloc) := by
  have h19 : PageId.num_caches_ = 19 := rfl
  have hoff : fallbackList (p.base + x) = p.base + fallbackList x := Nat.add_assoc ..
  rw [construct_eq, construct_eq, constructHead_view h, initLists_view (by omega), hoff,
    ListHeader.shmInit_view]
  unfold fallbackList
  omega

theorem construct_sameOff (m : ByteMem) (pa : Nat) (alloc : Allocator) :
    m.SameOff (construct m pa alloc) pa 540 := by
  have h19 : PageId.num_caches_ = 19 := rfl
  have hlists := initLists_sameOff (constructHead m pa) pa alloc PageId.num_caches_
  have hlast := ListHeader.shmInit_sameOff
    (initLists (constructHead m pa) pa alloc PageId.num_caches_) (fallbackList pa) alloc
  unfold fallbackList at hlast
  rw [construct_eq]
  exact (((constructHead_sameOff m pa).mono (by omega) (by omega)).trans
    (hlists.mono (Nat.le_refl _) (by omega))).trans (hlast.mono (by omega) (by omega))

/-- Past the lists, the bytes are those of the members before. -/
theorem construct_after (m : ByteMem) (pa : Nat) (alloc : Allocator) {y : Nat}
    (hy : pa + 480 ≤ y) : construct m pa alloc y = constructHead m pa y := by
  have h19 : PageId.num_caches_ = 19 := rfl
  have hlists := initLists_sameOff (constructHead m pa) pa alloc PageId.num_caches_
  have hlast := ListHeader.shmInit_sameOff
    (initLists (constructHead m pa) pa alloc PageId.num_caches_) (fallbackList pa) alloc
  unfold fallbackList at hlast
  rw [construct_eq]
  exact (hlast y (by omega)).trans (hlists y (by omega))

theorem construct_lock (m : ByteMem) (pa : Nat) (alloc : Allocator) :
    getWord (construct m pa alloc) (pa + 520) = 0 ∧
      getWord (construct m pa alloc) (pa + 528) = 0 := by
  have hzero : 0 < sizeT := by decide
  have hstore (τ : ByteMem) : τ.SameOff (τ.store (pa + 536) 4 0) (pa + 536) 4 :=
    τ.store_sameOff _ _ _
  have hafter (y : Nat) (hy : pa + 480 ≤ y) :
      getWord (construct m pa alloc) y = getWord (constructHead m pa) y :=
    getWord_congr fun z hz _ => construct_after m pa alloc (Nat.le_trans hy hz)
  rw [hafter _ (by omega), hafter _ (by omega)]
  simp only [constructHead]
  refine ⟨?_, ?_⟩
  · rw [getWord_congr ((hstore _).sameOn (by omega)), getWord_setWord_apart (by omega),
      getWord_setWord _ _ hzero]
  · rw [getWord_congr ((hstore _).sameOn (by omega)), getWord_setWord _ _ hzero]

theorem construct_words (m : ByteMem) (pa : Nat) (alloc : Allocator) {q : Nat}
    (hq : (∃ i < PageId.num_caches_, q = freeList pa i) ∨ q = fallbackList pa) :
    getWord (construct m pa alloc) q = idWord alloc.id_ ∧
      ListHeader.get (construct m pa alloc) q = {} := by
  have h19 : PageId.num_caches_ = 19 := rfl
  rw [construct_eq]
  rcases hq with ⟨i, hi, rfl⟩ | rfl
  · have hlast := ListHeader.shmInit_sameOff
      (initLists (constructHead m pa) pa alloc PageId.num_caches_) (fallbackList pa) alloc
    refine ListHeader.words_congr (initLists_words _ _ _ hi) (hlast.sameOn (.inr ?_))
    unfold freeList fallbackList
    omega
  · exact ListHeader.shmInit_words _ _ _

end PageAllocator

/-! ## The allocator -/

namespace ScalablePageAllocator

open Memory.ScalablePageAllocator (Inv)

variable {id : AllocatorId} {custom : Nat} {t : Table} {live : List Block}

theorem wordAdd_region (hfit : pagesOff custom ≤ size) (hsize : size < sizeT) :
    wordAdd sizeT headerSize custom = regionOff custom := by
  have hpages : pagesOff custom = regionOff custom + 64 := rfl
  have hreg : regionOff custom = headerSize + custom := rfl
  exact wordAdd_of_lt (by omega)

/-- Where the process has the internal allocator. -/
theorem shift_region (hm : Mappable size p.base) (hfit : pagesOff custom ≤ size) :
    MemoryBackend.shift ⟨p.base, size⟩ (regionOff custom) =
      ⟨p.base + regionOff custom, size - regionOff custom⟩ := by
  have hpages : pagesOff custom = regionOff custom + 64 := rfl
  unfold Mappable at hm
  simp only [MemoryBackend.shift, wordSub_of_le (show regionOff custom ≤ size by omega),
    wordAdd_of_lt (show p.base + regionOff custom < sizeT by omega)]

/-- The internal allocator is entered in the table. -/
theorem register (custom size : Nat)
    (hid : id.sub.toIndex ≤ AllocatorRegistry.HSHM_MAX_ALLOCATORS) (t : Table) (base : Nat) :
    ∃ t', registerSubAllocator t (some ⟨id.sub, attachedSub id custom size base⟩) =
        (.ok (some ⟨id.sub, attachedSub id custom size base⟩), t') ∧
      Registered id custom size base t' := by
  rcases AllocatorRegistry.register_cases t
      (⟨id.sub, attachedSub id custom size base⟩ : AllocatorRegistry.Allocator StackAllocator) with
    ⟨hlt, -⟩ | ⟨-, he⟩
  · exact absurd hid (Nat.not_le.mpr hlt)
  · exact ⟨_, he, Function.update_self ..⟩

/-- A process that attaches has the object of the others, for its own base. -/
theorem shmDeserialize_eq (hm : Mappable size p.base)
    (hid : id.sub.toIndex ≤ AllocatorRegistry.HSHM_MAX_ALLOCATORS)
    (h : Layout id custom size σ) (t : Table) :
    ∃ t', shmDeserialize ⟨p.base, size⟩ t (p.view size σ) =
        some (attached id custom size p.base, t') ∧ Registered id custom size p.base t' := by
  have hfit := h.fits
  have hpages : pagesOff custom = 584 + custom + 64 := rfl
  have hreg : regionOff custom = 584 + custom := rfl
  have hsize : size < sizeT := by
    unfold Mappable at hm
    omega
  have hcustom : getWord (p.view size σ) (p.base + 16) = custom :=
    (getWord_view (by omega)).trans h.custom_header_size
  have htype : (p.view size σ).load p.base 4 = kScalablePageAllocator :=
    (Mapping.load_view (x := 0) (by omega)).trans h.type
  have hword : getWord (p.view size σ) (p.base + 8) = idWord id :=
    (getWord_view (by omega)).trans h.alloc_id
  have hsub : StackAllocator.shmDeserialize ⟨p.base + regionOff custom, size - regionOff custom⟩
      (p.view size σ) = attachedSub id custom size p.base :=
    StackAllocator.shmDeserialize_eq h.sub.type h.sub.id (by
      unfold StackAllocator.headerSize
      omega)
  have hsubid : (attachedSub id custom size p.base).id_ = id.sub := rfl
  obtain ⟨t', ht', hreg'⟩ := register custom size hid t p.base
  refine ⟨t', ?_, hreg'⟩
  simp only [shmDeserialize, Nat.add_sub_cancel_left, hcustom, wordAdd_region hfit hsize,
    shift_region hm hfit, hsub, hsubid, ht', htype, hword, wordId_idWord]
  rfl

/-- The bytes that `shm_init` leaves, told of the buffer alone. -/
def initBytes (id : AllocatorId) (custom size : Nat) (σ : ByteMem) : ByteMem :=
  let m := constructHeader σ 0 headerSize
  let m := (StackAllocator.shmInit id.sub 0 ⟨regionOff custom, size - regionOff custom⟩ m).2
  let m := setWord (configure m 0 id kScalablePageAllocator custom) 32 0
  let m := PageAllocator.construct m 40 (attachedSub id custom size 0).toAllocator
  setWord m (regionOff custom + 40)
    (wordAdd sizeT (getWord m (regionOff custom + 40)) 4095 / 4096 * 4096)

/-- A list knows its allocator by the id, which is the same in all processes. -/
theorem construct_base (m : ByteMem) (pa base base' : Nat) :
    PageAllocator.construct m pa (attachedSub id custom size base).toAllocator =
      PageAllocator.construct m pa (attachedSub id custom size base').toAllocator := by
  have hinit (m : ByteMem) (q : Nat) :
      ListHeader.shmInit m q (attachedSub id custom size base).toAllocator =
        ListHeader.shmInit m q (attachedSub id custom size base').toAllocator := rfl
  have hlists (m : ByteMem) (n : Nat) :
      PageAllocator.initLists m pa (attachedSub id custom size base).toAllocator n =
        PageAllocator.initLists m pa (attachedSub id custom size base').toAllocator n := by
    induction n with
    | zero => rfl
    | succ n ih => rw [PageAllocator.initLists, PageAllocator.initLists, ih, hinit]
  rw [PageAllocator.construct_eq, PageAllocator.construct_eq, hlists, hinit]

theorem shmInit_view (hm : Mappable size p.base) (hfit : pagesOff custom ≤ size)
    (hid : id.sub.toIndex ≤ AllocatorRegistry.HSHM_MAX_ALLOCATORS) (t : Table) :
    ∃ t', shmInit id custom ⟨p.base, size⟩ t (p.view size σ) =
        some (attached id custom size p.base, t', p.view size (initBytes id custom size σ)) ∧
      Registered id custom size p.base t' := by
  have hpages : pagesOff custom = 584 + custom + 64 := rfl
  have hreg : regionOff custom = 584 + custom := rfl
  have h584 : headerSize = 584 := rfl
  have hsize : size < sizeT := by
    unfold Mappable at hm
    omega
  have hheader : constructHeader (p.view size σ) p.base headerSize =
      p.view size (constructHeader σ 0 headerSize) := Mapping.store_view (x := 0) (by omega)
  have hsub (τ : ByteMem) : StackAllocator.shmInit id.sub 0
      ⟨p.base + regionOff custom, size - regionOff custom⟩ (p.view size τ) =
        (attachedSub id custom size p.base, p.view size (StackAllocator.shmInit id.sub 0
          ⟨regionOff custom, size - regionOff custom⟩ τ).2) :=
    StackAllocator.shmInit_view (by
      unfold StackAllocator.headerSize
      omega)
  have hconfigure (τ : ByteMem) :
      configure (p.view size τ) p.base id kScalablePageAllocator custom =
        p.view size (configure τ 0 id kScalablePageAllocator custom) :=
    StackAllocator.configure_view (y := 0) (by omega)
  have halign (τ : ByteMem) : (attachedSub id custom size p.base).align (p.view size τ) =
      p.view size (setWord τ (regionOff custom + 40)
        (wordAdd sizeT (getWord τ (regionOff custom + 40)) 4095 / 4096 * 4096)) := by
    have haddr : (attachedSub id custom size p.base).heap_ + 8 =
        p.base + (regionOff custom + 40) := by
      simp only [attachedSub, StackAllocator.attached]
      omega
    simp only [StackAllocator.align, haddr, getWord_view (show regionOff custom + 40 + 8 ≤ size by
      omega), setWord_view (show regionOff custom + 40 + 8 ≤ size by omega)]
  have hsubid : (attachedSub id custom size p.base).id_ = id.sub := rfl
  obtain ⟨t', ht', hreg'⟩ := register custom size hid t p.base
  refine ⟨t', ?_, hreg'⟩
  simp only [shmInit, Nat.add_sub_cancel_left, wordAdd_region hfit hsize, shift_region hm hfit,
    hheader, hsub, hsubid, ht', hconfigure, setWord_view (show 32 + 8 ≤ size by omega),
    PageAllocator.construct_view (show 40 + 540 ≤ size by omega), halign,
    construct_base _ 40 p.base 0]
  rfl

/-- The lists of the header are all empty. -/
theorem lists_empty (h : ∀ sl, InHeader sl → ListHeader.get σ (slotOff sl) = {}) :
    lists σ = {} := by
  unfold lists
  congr 1
  · funext i
    split
    · rename_i hi
      exact h (.cls i) hi
    · rfl
  · exact h .fallback trivial

/-- Without pages, and with nothing taken from the heap. -/
theorem empty_inv (hfit : pagesOff custom ≤ size) (hsize : size < sizeT)
    (hsub : StackAllocator.Header id.sub σ (regionOff custom) StackAllocator.headerSize
      (size - regionOff custom - StackAllocator.headerSize))
    (hoff : getWord σ (regionOff custom + 40) = 0) (hlists : lists σ = {}) :
    Inv (state custom σ []) [] := by
  have hpages : pagesOff custom = regionOff custom + 64 := rfl
  have h64 : StackAllocator.headerSize = 64 := rfl
  have hregion := hsub.region_off
  have hlen := hsub.heap_size
  have hheap : StackAllocator.heapAt σ (regionOff custom + 32) =
      { region_off_ := 64, heap_off_ := 0, heap_size_ := size - regionOff custom - 64 } := by
    simp only [StackAllocator.heapAt, Nat.add_assoc, Nat.reduceAdd, hregion, hoff, hlen, h64]
  refine ⟨pagesOff custom, fun _ => 0, fun _ => [], ?_⟩
  simp only [state, hlists, hheap]
  refine Blocks.empty (Nat.le_add_right ..) (Nat.le_refl _) ?_ ?_ _ _
  · simp only
    omega
  · simp only
    omega

/-- Both headers are written, and no list is made yet. -/
theorem headers_written (id : AllocatorId) (σ : ByteMem) (hfit : pagesOff custom ≤ size)
    (hsize : size < sizeT) :
    ∃ τ, configure (StackAllocator.shmInit id.sub 0 ⟨regionOff custom, size - regionOff custom⟩
        (constructHeader σ 0 headerSize)).2 0 id kScalablePageAllocator custom = τ ∧
      τ.load 0 4 = kScalablePageAllocator ∧ getWord τ 8 = idWord id ∧ getWord τ 16 = custom ∧
      StackAllocator.Header id.sub τ (regionOff custom) StackAllocator.headerSize
        (size - regionOff custom - StackAllocator.headerSize) ∧
      getWord τ (regionOff custom + 40) = 0 ∧ ∀ x, size ≤ x → τ x = σ x := by
  have hpages : pagesOff custom = regionOff custom + 64 := rfl
  have hreg : regionOff custom = 584 + custom := rfl
  have h64 : StackAllocator.headerSize = 64 := rfl
  have h584 : headerSize = 584 := rfl
  have h₁ : σ.SameOff (constructHeader σ 0 headerSize) 0 584 := σ.store_sameOff 0 headerSize 0
  generalize constructHeader σ 0 headerSize = σ₁ at h₁ ⊢
  obtain ⟨hsub, hzero, h₂⟩ := StackAllocator.shmInit_header id.sub σ₁ (y := regionOff custom)
    (show StackAllocator.headerSize + 0 ≤ size - regionOff custom by omega)
    (show size - regionOff custom < sizeT by omega)
  generalize (StackAllocator.shmInit id.sub 0 ⟨regionOff custom, size - regionOff custom⟩ σ₁).2 =
    σ₂ at hsub hzero h₂ ⊢
  obtain ⟨htype, hid, hcustom⟩ := StackAllocator.configure_words σ₂ id (y := 0)
    (show kScalablePageAllocator < 256 ^ 4 by decide) (show custom < sizeT by omega)
  have h₃ : σ₂.SameOff (configure σ₂ 0 id kScalablePageAllocator custom) 0 32 :=
    StackAllocator.configure_sameOff σ₂ 0 kScalablePageAllocator custom
  refine ⟨_, rfl, htype, hid, hcustom, hsub.congr fun x hx _ _ => h₃ x (by omega),
    (getWord_congr fun x hx _ => h₃ x (by omega)).trans hzero, fun x hx => ?_⟩
  rw [h₃ x (by omega), h₂ x (by omega), h₁ x (by omega)]

/-- What the bytes hold when `shm_init` returns. -/
theorem initBytes_good (id : AllocatorId) (σ : ByteMem) (hfit : pagesOff custom ≤ size)
    (hsize : size < sizeT) :
    Good id custom size (initBytes id custom size σ) [] ∧
      ∀ x, size ≤ x → initBytes id custom size σ x = σ x := by
  have hpages : pagesOff custom = regionOff custom + 64 := rfl
  have hreg : regionOff custom = 584 + custom := rfl
  have h64 : StackAllocator.headerSize = 64 := rfl
  obtain ⟨σ₃, he, htype, hid, hcustom, hsub, hzero, h₃⟩ := headers_written id σ hfit hsize
  simp only [initBytes, he]
  have h₄ := setWord_sameOff σ₃ 32 0
  generalize setWord σ₃ 32 0 = σ₄ at h₄ ⊢
  have hlock := PageAllocator.construct_lock σ₄ 40 (attachedSub id custom size 0).toAllocator
  have hwords (sl : Slot) (hsl : InHeader sl) := PageAllocator.construct_words σ₄ 40
    (attachedSub id custom size 0).toAllocator (q := slotOff sl) (by
      cases sl with
      | cls i => exact .inl ⟨i, hsl, rfl⟩
      | fallback => exact .inr rfl)
  have h₅ := PageAllocator.construct_sameOff σ₄ 40 (attachedSub id custom size 0).toAllocator
  generalize PageAllocator.construct σ₄ 40 (attachedSub id custom size 0).toAllocator = σ₅
    at hlock hwords h₅ ⊢
  -- the lists lie between the words of the header and those of the internal allocator
  have hafter : ∀ x, x < 32 ∨ 584 ≤ x → σ₅ x = σ₃ x := fun x hx =>
    (h₅ x (by omega)).trans (h₄ x (by omega))
  have hoff : getWord σ₅ (regionOff custom + 40) = 0 :=
    (getWord_congr fun x hx _ => hafter x (by omega)).trans hzero
  have halign : wordAdd sizeT (getWord σ₅ (regionOff custom + 40)) 4095 / 4096 * 4096 = 0 := by
    rw [hoff]
    decide
  rw [halign]
  have h₆ := setWord_sameOff σ₅ (regionOff custom + 40) 0
  have hself : getWord (setWord σ₅ (regionOff custom + 40) 0) (regionOff custom + 40) = 0 :=
    getWord_setWord _ _ (by decide)
  generalize setWord σ₅ (regionOff custom + 40) 0 = σ₆ at h₆ hself ⊢
  have hsub₆ : StackAllocator.Header id.sub σ₆ (regionOff custom) StackAllocator.headerSize
      (size - regionOff custom - StackAllocator.headerSize) :=
    hsub.congr fun x hx hx' _ => (h₆ x (by omega)).trans (hafter x (by omega))
  have hlists (sl : Slot) (hsl : InHeader sl) : getWord σ₆ (slotOff sl) = idWord id.sub ∧
      ListHeader.get σ₆ (slotOff sl) = {} := by
    have hb := slotOff_bounds hsl
    exact ListHeader.words_congr (hwords sl hsl) (h₆.sameOn (by omega))
  have hword₃ (a : Nat) (ha : a + 8 ≤ 32) : getWord σ₆ a = getWord σ₃ a :=
    getWord_congr fun x _ _ => (h₆ x (by omega)).trans (hafter x (by omega))
  have hword₅ (a : Nat) (ha : a + 8 ≤ 584) : getWord σ₆ a = getWord σ₅ a :=
    getWord_congr fun x _ _ => h₆ x (by omega)
  refine ⟨⟨⟨hfit, ?_, ?_, ?_, hsub₆, fun sl hsl => (hlists sl hsl).1⟩, ?_, ?_⟩, fun x hx => ?_⟩
  · exact (ByteMem.load_congr fun x _ _ => (h₆ x (by omega)).trans
      (hafter x (by omega))).trans htype
  · exact (hword₃ 8 (by omega)).trans hid
  · exact (hword₃ 16 (by omega)).trans hcustom
  · rw [hword₅ 560 (by omega), hword₅ 568 (by omega)]
    exact hlock.1.trans hlock.2.symm
  · exact empty_inv hfit hsize hsub₆ hself (lists_empty fun sl hsl => (hlists sl hsl).2)
  · rw [h₆ x (by omega), hafter x (by omega), h₃ x hx]

end ScalablePageAllocator

end HermesShm.Memory.InProcess
