import HermesShm.Memory.ScalablePageAllocatorSound
import HermesShm.Memory.StackProcesses

/-! # The bytes of a scalable page allocator

The header holds nothing but ids and offsets, of the buffer or of that of the internal
allocator. `Holds` tells what state the bytes are of; there is one lemma for each word and
field that a call writes. -/
namespace HermesShm.Memory.InProcess.ScalablePageAllocator
open HermesShm.Base MpPage
open AllocatorRegistry (AllocatorId getAllocator)
open Memory.ScalablePageAllocator (State Inv Guarded)

/-- Where the buffer of the internal allocator starts. -/
def regionOff (custom : Nat) : Nat := headerSize + custom

/-- Where pages can be. -/
def pagesOff (custom : Nat) : Nat := regionOff custom + StackAllocator.headerSize

/-- The internal allocator that a process has, for the buffer at `base`. -/
def attachedSub (id : AllocatorId) (custom size base : Nat) : StackAllocator :=
  .attached id.sub (size - regionOff custom) (base + regionOff custom)

/-- The object that a process has, for the buffer at `base`. -/
def attached (id : AllocatorId) (custom size base : Nat) : ScalablePageAllocator :=
  { type_ := kScalablePageAllocator, id_ := id, buffer_ := base, buffer_size_ := size
    custom_header_ := base + headerSize, header_ := base
    alloc_ := attachedSub id custom size base }

/-- The table finds the internal allocator. -/
def Registered (id : AllocatorId) (custom size base : Nat) (t : Table) : Prop :=
  getAllocator t id.sub = some ⟨id.sub, attachedSub id custom size base⟩

/-! ## What the bytes of the buffer hold -/

/-- The slots that have a list in the header. -/
def InHeader : Slot → Prop
  | .cls i => i < PageId.num_caches_
  | .fallback => True

/-- Where the list of a slot is. -/
def slotOff : Slot → Nat
  | .cls i => PageAllocator.freeList 40 i
  | .fallback => PageAllocator.fallbackList 40

def lists (σ : ByteMem) : Memory.PageAllocator :=
  { free_lists_ := fun i =>
      if i < PageId.num_caches_ then ListHeader.get σ (PageAllocator.freeList 40 i) else {}
    fallback_list_ := ListHeader.get σ (PageAllocator.fallbackList 40) }

/-- The parts of the headers that no call changes. -/
structure Layout (id : AllocatorId) (custom size : Nat) (σ : ByteMem) : Prop where
  fits : pagesOff custom ≤ size
  type : σ.load 0 4 = kScalablePageAllocator
  alloc_id : getWord σ 8 = idWord id
  custom_header_size : getWord σ 16 = custom
  sub : StackAllocator.Header id.sub σ (regionOff custom) StackAllocator.headerSize
    (size - regionOff custom - StackAllocator.headerSize)
  list_id : ∀ sl, InHeader sl → getWord σ (slotOff sl) = idWord id.sub

/-- The bytes hold the state `s`, with a mutex of `lock` and `head`; past the buffer, they
are those of `outer`. -/
structure Holds (id : AllocatorId) (custom size : Nat) (outer : ByteMem) (s : State)
    (lock head : Nat) (σ : ByteMem) : Prop where
  layout : Layout id custom size σ
  buf : s.buf = regionOff custom
  heap : s.heap_ = StackAllocator.heapAt σ (regionOff custom + 32)
  global : s.global_ = lists σ
  total : s.total_alloc_ = getWord σ 24
  lock_ : getWord σ 560 = lock
  head_ : getWord σ 568 = head
  mem : SameFrom (pagesOff custom) s.mem σ
  beyond : ∀ x, size ≤ x → σ x = outer x

variable {id : AllocatorId} {custom size n lock head : Nat} {σ σ' m outer : ByteMem}
  {live live' : List Block} {b : Block} {sl : Slot} {q : ListQueue} {p : Mapping} {t : Table}
  {s : State}

/-! ## The lists of the header -/

theorem slotOff_bounds (h : InHeader sl) :
    40 ≤ slotOff sl ∧ slotOff sl + 24 ≤ 520 ∧ (slotOff sl - 40) % 24 = 0 := by
  have h19 : PageId.num_caches_ = 19 := rfl
  cases sl with
  | cls i =>
    have hi : i < 19 := h
    simp only [slotOff, PageAllocator.freeList]
    omega
  | fallback => exact ⟨by decide, by decide, by decide⟩

theorem slotOff_inj {sl' : Slot} (h : InHeader sl) (h' : InHeader sl')
    (he : slotOff sl = slotOff sl') : sl = sl' := by
  have h19 : PageId.num_caches_ = 19 := rfl
  cases sl <;> cases sl' <;>
    simp only [InHeader, slotOff, PageAllocator.freeList, PageAllocator.fallbackList] at h h' he <;>
    first | rfl | omega | skip
  congr 1
  omega

theorem list_lists (h : InHeader sl) : (lists σ).list sl = ListHeader.get σ (slotOff sl) := by
  cases sl with
  | cls i => exact if_pos h
  | fallback => rfl

theorem listHeader_get_set (hq : q.tail_shm_ < sizeT) (hc : q.count_ < sizeT) (m : ByteMem)
    (y : Nat) : ListHeader.get (ListHeader.set m y q) y = q := by
  simp only [ListHeader.get, ListHeader.set]
  rw [getWord_setWord_apart (by omega), getWord_setWord _ _ hq, getWord_setWord _ _ hc]

theorem listHeader_set_get (m : ByteMem) (y : Nat) :
    ListHeader.set m y (ListHeader.get m y) = m := by
  have h : setWord m (y + 8) (getWord m (y + 8)) = m := m.store_load (y + 8) 8
  simp only [ListHeader.get, ListHeader.set, h]
  exact m.store_load (y + 16) 8

theorem listHeader_set_sameOff (m : ByteMem) (y : Nat) (q : ListQueue) :
    m.SameOff (ListHeader.set m y q) (y + 8) 16 :=
  ((setWord_sameOff m (y + 8) _).mono (Nat.le_refl _) (by omega)).trans
    ((setWord_sameOff _ (y + 16) _).mono (by omega) (by omega))

theorem listHeader_get_congr {y : Nat} (h : σ.SameOn σ' (y + 8) 16) :
    ListHeader.get σ' y = ListHeader.get σ y := by
  simp only [ListHeader.get]
  rw [getWord_congr fun x hx hx' => h x hx (by omega),
    getWord_congr fun x hx hx' => h x (by omega) (by omega)]

theorem lists_congr (h : σ.SameOn σ' 40 480) : lists σ' = lists σ := by
  have hget : ∀ sl, InHeader sl → ListHeader.get σ' (slotOff sl) = ListHeader.get σ (slotOff sl) :=
    fun sl hsl => by
      have := slotOff_bounds hsl
      exact listHeader_get_congr fun x hx hx' => h x (by omega) (by omega)
  unfold lists
  congr 1
  · funext i
    by_cases hi : i < PageId.num_caches_
    · rw [if_pos hi, if_pos hi]
      exact hget (.cls i) hi
    · rw [if_neg hi, if_neg hi]
  · exact hget .fallback trivial

theorem lists_set (h : InHeader sl) (hq : q.tail_shm_ < sizeT) (hc : q.count_ < sizeT) :
    lists (ListHeader.set σ (slotOff sl) q) = (lists σ).setList sl q := by
  have hself := listHeader_get_set hq hc σ (slotOff sl)
  have hother : ∀ sl', InHeader sl' → sl' ≠ sl →
      ListHeader.get (ListHeader.set σ (slotOff sl) q) (slotOff sl') =
        ListHeader.get σ (slotOff sl') := fun sl' hsl' hne => by
    have := slotOff_bounds h
    have := slotOff_bounds hsl'
    have hoff : slotOff sl' ≠ slotOff sl := fun he => hne (slotOff_inj hsl' h he)
    exact listHeader_get_congr ((listHeader_set_sameOff σ _ q).sameOn (by omega))
  have hcls : ∀ j, slotOff (.cls j) = PageAllocator.freeList 40 j := fun _ => rfl
  have hfb : slotOff .fallback = PageAllocator.fallbackList 40 := rfl
  have hfallback := hother .fallback trivial
  cases sl with
  | cls i =>
    rw [hcls] at hself hother hfallback ⊢
    simp only [lists, Memory.PageAllocator.setList, Memory.PageAllocator.mk.injEq, and_true]
    refine ⟨?_, hfallback nofun⟩
    funext j
    by_cases hj : j = i
    · rw [hj, Function.update_self, if_pos (show i < PageId.num_caches_ from h)]
      exact hself
    · rw [Function.update_of_ne hj]
      by_cases hj' : j < PageId.num_caches_
      · rw [if_pos hj', if_pos hj']
        exact hother (.cls j) hj' fun he => hj (Slot.cls.inj he)
      · rw [if_neg hj', if_neg hj']
  | fallback =>
    rw [hfb] at hself hother ⊢
    simp only [lists, Memory.PageAllocator.setList, Memory.PageAllocator.mk.injEq, and_true]
    refine ⟨?_, hself⟩
    funext j
    by_cases hj' : j < PageId.num_caches_
    · rw [if_pos hj', if_pos hj']
      exact hother (.cls j) hj' nofun
    · rw [if_neg hj', if_neg hj']

/-! ## Words of the headers -/

theorem heapAt_congr {y : Nat} (h : σ.SameOn σ' y 24) :
    StackAllocator.heapAt σ' y = StackAllocator.heapAt σ y := by
  have hword : ∀ a, y ≤ a → a + 8 ≤ y + 24 → getWord σ' a = getWord σ a := fun a ha ha' =>
    getWord_congr fun x hx hx' => h x (by omega) (by omega)
  simp only [StackAllocator.heapAt, hword y (by omega) (by omega),
    hword (y + 8) (by omega) (by omega), hword (y + 16) (by omega) (by omega)]

theorem Layout.congr (h : Layout id custom size σ) (hσ : ∀ x, x < 24 ∨
      (40 ≤ x ∧ x < 520 ∧ (x - 40) % 24 < 8) ∨ (regionOff custom ≤ x ∧
        (x < regionOff custom + 40 ∨ regionOff custom + 48 ≤ x) ∧ x < pagesOff custom) →
      σ' x = σ x) : Layout id custom size σ' where
  fits := h.fits
  type := (ByteMem.load_congr fun x _ _ => hσ x (by omega)).trans h.type
  alloc_id := (getWord_congr fun x _ _ => hσ x (by omega)).trans h.alloc_id
  custom_header_size :=
    (getWord_congr fun x _ _ => hσ x (by omega)).trans h.custom_header_size
  sub := h.sub.congr fun x hx hx' hx'' => hσ x (.inr (.inr ⟨hx, hx', hx''⟩))
  list_id := fun sl hsl => by
    have := slotOff_bounds hsl
    exact (getWord_congr fun x _ _ => hσ x (by omega)).trans (h.list_id sl hsl)

/-- The words that calls write, besides those of the lists. -/
def Counter (custom a : Nat) : Prop := a = 24 ∨ a = 560 ∨ a = 568 ∨ a = regionOff custom + 40

theorem Counter.bounds {a : Nat} (h : Counter custom a) :
    (a = 24 ∨ 560 ≤ a) ∧ a + 8 ≤ pagesOff custom ∧ (a < 576 ∨ a = regionOff custom + 40) ∧
      584 ≤ regionOff custom ∧ pagesOff custom = regionOff custom + 64 := by
  have h1 : regionOff custom = 584 + custom := rfl
  have h2 : pagesOff custom = regionOff custom + 64 := rfl
  unfold Counter at h
  omega

/-- What a counter does not change. -/
theorem Holds.counter {a v : Nat} (h : Holds id custom size outer s lock head σ)
    (ha : Counter custom a) :
    Layout id custom size (setWord σ a v) ∧ lists (setWord σ a v) = lists σ ∧
      SameFrom (pagesOff custom) s.mem (setWord σ a v) ∧
      ∀ x, size ≤ x → setWord σ a v x = outer x := by
  obtain ⟨h1, h2, h3, h4, h5⟩ := ha.bounds
  have hfits := h.layout.fits
  have hoff := setWord_sameOff σ a v
  refine ⟨h.layout.congr fun x hx => hoff x (by omega),
    lists_congr (hoff.sameOn (by omega)), h.mem.trans (.setWord σ v h2), fun x hx => ?_⟩
  exact (hoff x (by omega)).trans (h.beyond x hx)

theorem Holds.setLock (h : Holds id custom size outer s lock head σ) {v : Nat} (hv : v < sizeT) :
    Holds id custom size outer s v head (setWord σ 560 v) := by
  obtain ⟨hl, hg, hm, ho⟩ := h.counter (v := v) (.inr (.inl rfl))
  have hreg : 584 ≤ regionOff custom := Nat.le_add_right ..
  exact { h with
    layout := hl
    heap := h.heap.trans (heapAt_congr ((setWord_sameOff σ 560 v).sameOn (by omega))).symm
    global := h.global.trans hg.symm
    total := h.total.trans (getWord_setWord_apart (by omega)).symm
    lock_ := getWord_setWord σ 560 hv
    head_ := (getWord_setWord_apart (by omega)).trans h.head_
    mem := hm
    beyond := ho }

theorem Holds.setHead (h : Holds id custom size outer s lock head σ) {v : Nat} (hv : v < sizeT) :
    Holds id custom size outer s lock v (setWord σ 568 v) := by
  obtain ⟨hl, hg, hm, ho⟩ := h.counter (v := v) (.inr (.inr (.inl rfl)))
  have hreg : 584 ≤ regionOff custom := Nat.le_add_right ..
  exact { h with
    layout := hl
    heap := h.heap.trans (heapAt_congr ((setWord_sameOff σ 568 v).sameOn (by omega))).symm
    global := h.global.trans hg.symm
    total := h.total.trans (getWord_setWord_apart (by omega)).symm
    lock_ := (getWord_setWord_apart (by omega)).trans h.lock_
    head_ := getWord_setWord σ 568 hv
    mem := hm
    beyond := ho }

theorem Holds.setTotal (h : Holds id custom size outer s lock head σ) {v : Nat} (hv : v < sizeT) :
    Holds id custom size outer { s with total_alloc_ := v } lock head (setWord σ 24 v) := by
  obtain ⟨hl, hg, hm, ho⟩ := h.counter (v := v) (.inl rfl)
  have hreg : 584 ≤ regionOff custom := Nat.le_add_right ..
  exact { h with
    layout := hl
    heap := h.heap.trans (heapAt_congr ((setWord_sameOff σ 24 v).sameOn (by omega))).symm
    global := h.global.trans hg.symm
    total := (getWord_setWord σ 24 hv).symm
    lock_ := (getWord_setWord_apart (by omega)).trans h.lock_
    head_ := (getWord_setWord_apart (by omega)).trans h.head_
    mem := hm
    beyond := ho }

theorem Holds.setHeapOff (h : Holds id custom size outer s lock head σ) {v : Nat}
    (hv : v < sizeT) :
    Holds id custom size outer { s with heap_ := { s.heap_ with heap_off_ := v } } lock head
      (setWord σ (regionOff custom + 32 + 8) v) := by
  obtain ⟨hl, hg, hm, ho⟩ := h.counter (v := v) (.inr (.inr (.inr rfl)))
  have hreg : 584 ≤ regionOff custom := Nat.le_add_right ..
  exact { h with
    layout := hl
    heap := by
      simp only [h.heap, StackAllocator.heapAt, getWord_setWord _ _ hv,
        getWord_setWord_apart (show regionOff custom + 32 + 8 ≤ regionOff custom + 32 + 8 ∨ _ from
          .inl (Nat.le_refl _)),
        getWord_setWord_apart (show _ ∨ regionOff custom + 32 + 8 + 8 ≤ regionOff custom + 32 + 16
          from .inr (by omega))]
    global := h.global.trans hg.symm
    total := h.total.trans (getWord_setWord_apart (by omega)).symm
    lock_ := (getWord_setWord_apart (by omega)).trans h.lock_
    head_ := (getWord_setWord_apart (by omega)).trans h.head_
    mem := hm
    beyond := ho }

/-- The list of a slot is written. -/
theorem Holds.setList (h : Holds id custom size outer s lock head σ) (hsl : InHeader sl)
    (hq : q.tail_shm_ < sizeT) (hc : q.count_ < sizeT) :
    Holds id custom size outer { s with global_ := s.global_.setList sl q } lock head
      (ListHeader.set σ (slotOff sl) q) := by
  have hb := slotOff_bounds hsl
  have hreg : 584 ≤ regionOff custom := Nat.le_add_right ..
  have hpages : pagesOff custom = regionOff custom + 64 := rfl
  have hfits := h.layout.fits
  have hoff := listHeader_set_sameOff σ (slotOff sl) q
  exact { h with
    layout := h.layout.congr fun x hx => hoff x (by omega)
    heap := h.heap.trans (heapAt_congr (hoff.sameOn (by omega))).symm
    global := by
      simp only [lists_set hsl hq hc, h.global]
    total := h.total.trans (getWord_congr (hoff.sameOn (by omega))).symm
    lock_ := (getWord_congr (hoff.sameOn (by omega))).trans h.lock_
    head_ := (getWord_congr (hoff.sameOn (by omega))).trans h.head_
    mem := h.mem.trans (.of_sameOff hoff (by omega))
    beyond := fun x hx => (hoff x (by omega)).trans (h.beyond x hx) }

/-! ## Bytes of pages -/

/-- What is written where pages can be changes the memory of the state only. -/
theorem Holds.pages (h : Holds id custom size outer s lock head σ)
    (hσ : ∀ x, x < pagesOff custom ∨ size ≤ x → σ' x = σ x)
    (hm : SameFrom (pagesOff custom) m σ') :
    Holds id custom size outer { s with mem := m } lock head σ' := by
  have hreg : 584 ≤ regionOff custom := Nat.le_add_right ..
  have hpages : pagesOff custom = regionOff custom + 64 := rfl
  have hword : ∀ a, a + 8 ≤ pagesOff custom → getWord σ' a = getWord σ a := fun a ha =>
    getWord_congr fun x _ _ => hσ x (by omega)
  exact { h with
    layout := h.layout.congr fun x hx => hσ x (by omega)
    heap := h.heap.trans (heapAt_congr fun x _ _ => hσ x (by omega)).symm
    global := h.global.trans (lists_congr fun x _ _ => hσ x (by omega)).symm
    total := h.total.trans (hword 24 (by omega)).symm
    lock_ := (hword 560 (by omega)).trans h.lock_
    head_ := (hword 568 (by omega)).trans h.head_
    mem := hm
    beyond := fun x hx => (hσ x (.inr hx)).trans (h.beyond x hx) }

/-- A change within the pages, the same in the bytes and in the state. -/
theorem Holds.within {a : Nat} (h : Holds id custom size outer s lock head σ)
    (ha : pagesOff custom ≤ a) (hn : a + n ≤ size) (hoff : σ.SameOff σ' a n)
    (hm : SameFrom (pagesOff custom) m σ') :
    Holds id custom size outer { s with mem := m } lock head σ' :=
  h.pages (fun x hx => hoff x (by omega)) hm

/-! ## States that are sound -/

def state (custom : Nat) (σ : ByteMem) (live : List Block) : State :=
  { buf := regionOff custom, mem := σ
    heap_ := StackAllocator.heapAt σ (regionOff custom + 32)
    global_ := lists σ, total_alloc_ := getWord σ 24, live }

structure Good (id : AllocatorId) (custom size : Nat) (σ : ByteMem) (live : List Block) : Prop where
  layout : Layout id custom size σ
  unlocked : getWord σ 560 = getWord σ 568
  inv : Inv (state custom σ live) live

theorem Good.holds (h : Good id custom size σ live) :
    Holds id custom size σ (state custom σ live) (getWord σ 560) (getWord σ 560) σ :=
  ⟨h.layout, rfl, rfl, rfl, rfl, rfl, h.unlocked.symm, .refl _ _, fun _ _ => rfl⟩

/-- The pages begin after the header of the internal allocator. -/
theorem Holds.lo_eq (h : Holds id custom size outer s lock head σ) :
    s.buf + s.heap_.region_off_ = pagesOff custom := by
  rw [h.buf, h.heap, pagesOff]
  exact congrArg _ h.layout.sub.region_off

/-- The pages end with the buffer. -/
theorem Holds.end_eq (h : Holds id custom size outer s lock head σ) :
    pagesOff custom + s.heap_.heap_size_ = size := by
  have hfits := h.layout.fits
  have hsize : s.heap_.heap_size_ = size - regionOff custom - StackAllocator.headerSize := by
    rw [h.heap]
    exact h.layout.sub.heap_size
  unfold pagesOff at hfits ⊢
  omega

/-- The allocator looks at the headers of pages. -/
theorem blocks_congr {κ : Type} {buf lo hi : Nat} {heap : Memory.HeapAllocator} {m m' : ByteMem}
    {pas : κ → Memory.PageAllocator} {len : Nat → Nat} {at_ : Place κ → List Nat}
    (h : Blocks buf lo heap m pas live hi len at_) (hm : SameFrom lo m m') :
    Blocks buf lo heap m' pas live hi len at_ := by
  have hsame : ∀ j, ∀ q ∈ at_ j, m.SameOn m' q mpPage := fun j q hq =>
    hm.sameOn (h.pages.arena.inside j q hq).1
  refine { h with
    pages := { h.pages with
      lists := fun k sl => (h.pages.lists k sl).congr fun q hq => hsame _ q hq
      size := fun j q hq => ?_
      size_le := fun j q hq => ?_
      live := fun q hq => (isAllocated_congr (hsame _ q hq)).trans (h.pages.live q hq)
      free := fun k sl q hq => (isAllocated_congr (hsame _ q hq)).trans (h.pages.free k sl q hq) }
    fits := fun c hc => ?_ }
  · rw [page_size_.get_congr (hsame j q hq)]
    exact h.pages.size j q hq
  · rw [page_size_.get_congr (hsame j q hq)]
    exact h.pages.size_le j q hq
  · rw [page_size_.get_congr (hsame _ _ (h.page hc))]
    exact h.fits c hc

theorem Holds.good (h : Holds id custom size outer s lock lock σ) (hi : Inv s live) :
    Good id custom size σ live := by
  refine ⟨h.layout, h.lock_.trans h.head_.symm, ?_⟩
  have hmem := h.mem
  rw [← h.lo_eq] at hmem
  obtain ⟨hi', len, at_, hb⟩ := hi
  have hb' := blocks_congr hb hmem
  rw [h.buf, h.heap, h.global] at hb'
  exact ⟨hi', len, at_, hb'⟩

/-- A page lies where pages can be, with its header. -/
theorem Holds.page_inside {hi x : Nat} {len : Nat → Nat} {at_ : Place Unit → List Nat}
    {i : Place Unit} (h : Holds id custom size outer s lock head σ)
    (hb : Blocks s.buf (s.buf + s.heap_.region_off_) s.heap_ s.mem (fun _ : Unit => s.global_)
      live hi len at_) (hx : x ∈ at_ i) : pagesOff custom ≤ x ∧ x + mpPage ≤ size := by
  have hlo := h.lo_eq
  have hend := h.end_eq
  have := hb.pages.arena.inside i x hx
  have := hb.pages.size_le i x hx
  have := hb.pages.header_le hx
  have := hb.hi_end
  omega

/-- The header of a block lies there too. -/
theorem Holds.block_inside (h : Holds id custom size outer s lock head σ) (hi : Inv s live)
    (hb : b ∈ live) : pagesOff custom + mpPage ≤ b.off ∧ b.off + capacity s.mem b.off ≤ size := by
  have hlo := h.lo_eq
  have hend := h.end_eq
  have := hi.inside hb
  omega

end HermesShm.Memory.InProcess.ScalablePageAllocator
