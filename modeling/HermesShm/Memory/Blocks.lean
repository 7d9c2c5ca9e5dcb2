import HermesShm.Memory.Pages

/-! # Blocks over one heap

The blocks in use of an allocator that takes new pages from one heap, from the
address `lo` on, and reuses freed pages. A block is the data of its page. -/
namespace HermesShm.Memory
open HermesShm.Base MpPage

/-- A block in use, with the size that was asked for. -/
structure Block where
  off : Nat
  size : Nat
  deriving DecidableEq

/-- The usable length of the block at `p`, by its header. -/
def capacity (m : ByteMem) (p : Nat) : Nat := page_size_.get m (p - mpPage) - mpPage

inductive Error
  | outOfMemory (size currently_allocated : Nat)
  | doubleFree (arg : Option Nat)

/-- The calls of an allocator, and the stores of the program to its blocks. -/
inductive Op
  | allocate (size : Nat)
  | free (p : Nat)
  | reallocate (p new_size : Nat)
  | write (x : Nat) (byte : UInt8)

def dropBlock (live : List Block) (p : Nat) : List Block := live.filter (·.off ≠ p)

variable {κ : Type}

structure Blocks (buf lo : Nat) (heap : HeapAllocator) (m : ByteMem) (pas : κ → PageAllocator)
    (live : List Block) (hi : Nat) (len : Nat → Nat) (at_ : Place κ → List Nat) : Prop where
  pages : Pages buf lo hi m pas len at_
  hi_off : hi ≤ buf + heap.region_off_ + heap.heap_off_
  hi_end : hi ≤ buf + heap.region_off_ + heap.heap_size_
  end_lt : buf + heap.region_off_ + heap.heap_size_ < sizeT
  off_lo : lo ≤ buf + heap.region_off_ + heap.heap_off_
  live_iff : ∀ q, q ∈ at_ .live ↔ ∃ b ∈ live, b.off = q + mpPage
  off_le : ∀ b ∈ live, mpPage ≤ b.off
  live_nodup : (live.map (·.off)).Nodup
  fits : ∀ b ∈ live, b.size + mpPage ≤ page_size_.get m (b.off - mpPage)

/-- The page `r` is in a free list of `pa`, before the page `p`. -/
def LinkTo (buf : Nat) (m : ByteMem) (pa : PageAllocator) (p r : Nat) : Prop :=
  ∃ sl ps, (pa.list sl).Represents buf m ps ∧ r ∈ ps ∧ ListQueue.nextPage buf m r = some p

/-- Taking the page `p` writes its header, and the link to it in a free list. -/
def Taken (buf : Nat) (m m' : ByteMem) (pa : PageAllocator) (p : Nat) : Prop :=
  ∀ x, x < p ∨ p + mpPage ≤ x →
    (∀ r, LinkTo buf m pa p r → x < r ∨ r + next_shm_.width ≤ x) → m' x = m x

theorem Taken.of_sameOff {buf p : Nat} {m m' : ByteMem} {pa : PageAllocator}
    (h : m.SameOff m' p mpPage) : Taken buf m m' pa p := fun x hx _ => h x hx

/-- What a reallocation of the block at `p` to `new_size` bytes at `q` leaves in memory;
`Linked` tells the pages of a free list whose link to the new page is cut. -/
structure Reallocated (Linked : Nat → Prop) (m m' : ByteMem) (live : List Block)
    (p q new_size : Nat) : Prop where
  data : ∀ i < min (capacity m p) new_size, m' (q + i) = m (p + i)
  fits : new_size ≤ capacity m' q
  others : ∀ b ∈ live, b.off ≠ p → ∀ x, b.off - mpPage ≤ x → x < b.off + capacity m b.off →
    m' x = m x
  /-- Outside the new page, the header of the old one and the link, nothing changes. -/
  frame : ∀ x, x < q - mpPage ∨ q + capacity m' q ≤ x → x < p - mpPage ∨ p ≤ x →
    (∀ r, Linked r → x < r ∨ r + next_shm_.width ≤ x) → m' x = m x

/-- Copying the block `b` to a new block at `q` and freeing it, where pages are apart:
`m₁` is the memory after the allocation, `m'` after the copy and the free. -/
theorem Reallocated.of_copy {Linked : Nat → Prop} {m m₁ m' : ByteMem} {live : List Block}
    {b : Block} {q n : Nat} (hb : b ∈ live) (hoff : ∀ c ∈ live, mpPage ≤ c.off) (hq : mpPage ≤ q)
    (hold : ∀ c ∈ live, ∀ x, c.off - mpPage ≤ x → x < c.off + capacity m c.off → m₁ x = m x)
    (hnew : ∀ c ∈ live, q + capacity m₁ q ≤ c.off - mpPage ∨ c.off + capacity m c.off ≤ q - mpPage)
    (hapart : ∀ c ∈ live, c.off ≠ b.off →
      c.off + capacity m c.off ≤ b.off - mpPage ∨ b.off + capacity m b.off ≤ c.off - mpPage)
    (hframe : ∀ x, x < q - mpPage ∨ q ≤ x →
      (∀ r, Linked r → x < r ∨ r + next_shm_.width ≤ x) → m₁ x = m x)
    (hgrow : capacity m b.off ≤ capacity m₁ q) (hfit : n ≤ capacity m₁ q)
    (hfree : (m₁.copy q b.off (capacity m b.off)).SameOff m' (b.off - mpPage) mpPage) :
    Reallocated Linked m m' live b.off q n := by
  have hbo := hoff b hb
  have hnb := hnew b hb
  have hcopy := m₁.copy_sameOff q b.off (capacity m b.off)
  have hcap : capacity m' q = capacity m₁ q := by
    unfold capacity
    rw [page_size_.get_congr (hfree.sameOn (by omega)),
      page_size_.get_congr (hcopy.sameOn (by omega))]
  refine ⟨fun i hi => ?_, ?_, fun c hc hcb x hx hx' => ?_, fun x hx hx' hr => ?_⟩
  · rw [hfree _ (by omega), ByteMem.copy_apply _ _ _ (by omega)]
    exact hold b hb _ (by omega) (by omega)
  · rw [hcap]
    exact hfit
  · have hco := hoff c hc
    have hnc := hnew c hc
    have hcc := hapart c hc hcb
    rw [hfree _ (by omega), hcopy _ (by omega)]
    exact hold c hc x hx hx'
  · rw [hcap] at hx
    rw [hfree _ (by omega), hcopy _ (by omega)]
    exact hframe x (by omega) hr

namespace Blocks

variable {buf lo hi : Nat} {heap : HeapAllocator} {m m' : ByteMem} {pas : κ → PageAllocator}
  {live : List Block} {len : Nat → Nat} {at_ : Place κ → List Nat} {i : Place κ} {k : κ}
  {b c : Block} {p q : Nat}

theorem empty (hb : buf ≤ lo) (hlo : lo ≤ buf + heap.region_off_ + heap.heap_off_)
    (hend : lo ≤ buf + heap.region_off_ + heap.heap_size_)
    (hlt : buf + heap.region_off_ + heap.heap_size_ < sizeT) (m : ByteMem) (len : Nat → Nat) :
    Blocks buf lo heap m (fun _ : κ => {}) [] lo len fun _ => [] where
  pages := .empty hb (Nat.le_refl lo) (Nat.lt_of_le_of_lt hend hlt) m len
  hi_off := hlo
  hi_end := hend
  end_lt := hlt
  off_lo := hlo
  live_iff := by simp
  off_le := nofun
  live_nodup := List.nodup_nil
  fits := nofun

/-- The page of a block in use. -/
theorem page (h : Blocks buf lo heap m pas live hi len at_) (hb : b ∈ live) :
    b.off - mpPage ∈ at_ .live :=
  (h.live_iff _).mpr ⟨b, hb, (Nat.sub_add_cancel (h.off_le b hb)).symm⟩

theorem capacity_eq (h : Blocks buf lo heap m pas live hi len at_) (hb : b ∈ live) :
    mpPage + capacity m b.off = page_size_.get m (b.off - mpPage) :=
  Nat.add_sub_cancel' (h.pages.header_le (h.page hb))

/-- A block is inside the heap, and as long as was asked for. -/
theorem inside (h : Blocks buf lo heap m pas live hi len at_) (hb : b ∈ live) :
    lo + mpPage ≤ b.off ∧ b.off + capacity m b.off ≤ hi ∧ b.size ≤ capacity m b.off := by
  have hin := h.pages.arena.inside _ _ (h.page hb)
  have hlen := h.pages.size_le _ _ (h.page hb)
  have hcap := h.capacity_eq hb
  have hoff := h.off_le b hb
  have hfit := h.fits b hb
  omega

/-- A block and the header of any page are apart. -/
theorem header_apart (h : Blocks buf lo heap m pas live hi len at_) (hb : b ∈ live)
    (hq : q ∈ at_ i) : q + mpPage ≤ b.off ∨ b.off + capacity m b.off ≤ q := by
  have hcap := h.capacity_eq hb
  have hoff := h.off_le b hb
  by_cases hqb : q = b.off - mpPage
  · omega
  · have := h.pages.arena.apart_of_ne (h.page hb) hq (Ne.symm hqb)
    have := h.pages.size_le _ _ (h.page hb)
    have := h.pages.size_le _ _ hq
    have := h.pages.header_le hq
    omega

/-- Two blocks are apart, with their headers. -/
theorem apart (h : Blocks buf lo heap m pas live hi len at_) (hb : b ∈ live) (hc : c ∈ live)
    (hne : b.off ≠ c.off) :
    b.off + capacity m b.off + mpPage ≤ c.off ∨ c.off + capacity m c.off + mpPage ≤ b.off := by
  have hbo := h.off_le b hb
  have hco := h.off_le c hc
  have := h.pages.arena.apart_of_ne (h.page hb) (h.page hc) (by omega)
  have := h.pages.size_le _ _ (h.page hb)
  have := h.pages.size_le _ _ (h.page hc)
  have := h.capacity_eq hb
  have := h.capacity_eq hc
  omega

/-- The pages in use are together shorter than the heap. -/
theorem sum_page_size_lt (h : Blocks buf lo heap m pas live hi len at_) :
    (live.map fun b => page_size_.get m (b.off - mpPage)).sum < sizeT := by
  have hin : ∀ b ∈ live, lo ≤ b.off - mpPage ∧
      b.off - mpPage + page_size_.get m (b.off - mpPage) ≤ hi := fun b hb => by
    have := h.inside hb
    have := h.capacity_eq hb
    omega
  have hend := h.hi_end
  have hlt := h.end_lt
  refine Nat.lt_of_le_of_lt (sum_len_le hin ?_) (by omega)
  have hnd := h.live_nodup
  rw [List.Nodup, List.pairwise_map] at hnd
  refine hnd.imp_of_mem fun hb hc hne => ?_
  have := h.apart hb hc hne
  have := h.capacity_eq hb
  have := h.capacity_eq hc
  have := h.off_le _ hb
  have := h.off_le _ hc
  omega

/-- The heap counter moves on without a new page. -/
theorem advance (h : Blocks buf lo heap m pas live hi len at_) (n : Nat) :
    Blocks buf lo { heap with heap_off_ := heap.heap_off_ + n } m pas live hi len at_ :=
  { h with
    hi_off := Nat.le_trans h.hi_off (Nat.add_le_add_left (Nat.le_add_right ..) _)
    off_lo := Nat.le_trans h.off_lo (Nat.add_le_add_left (Nat.le_add_right ..) _) }

/-- The owner of a block writes to it. -/
theorem write (h : Blocks buf lo heap m pas live hi len at_) (hb : b ∈ live)
    (hm : m.SameOff m' b.off (capacity m b.off)) :
    Blocks buf lo heap m' pas live hi len at_ := by
  have hcap := h.capacity_eq hb
  have hoff := h.off_le b hb
  have hlen := h.pages.size_le _ _ (h.page hb)
  refine { h with
    pages := h.pages.write (h.page hb) (hm.mono (by omega) (by omega))
    fits := fun c hc => ?_ }
  rw [page_size_.get_congr (hm.sameOn (h.header_apart hb (h.page hc)).symm)]
  exact h.fits c hc

theorem taken {sl : Slot} {m₁ : ByteMem} (h : Blocks buf lo heap m pas live hi len at_)
    (hu : PageAllocator.Unlinked buf m m₁ (at_ (.free k sl)) p) (hm : m₁.SameOff m' p mpPage) :
    Taken buf m m' (pas k) p := by
  intro x hx hr
  rw [hm x hx]
  rcases hu with rfl | ⟨r, hmem, hnext, rfl⟩
  · rfl
  · have := hr r ⟨sl, _, h.pages.lists k sl, hmem, hnext⟩
    exact Field.set_sameOff_field next_shm_ m r _ x (by simpa [next_shm_] using this)

theorem linkTo (h : Blocks buf lo heap m pas live hi len at_) {r : Nat}
    (hr : LinkTo buf m (pas k) p r) : ∃ sl, r ∈ at_ (.free k sl) := by
  obtain ⟨sl, ps, hps, hmem, -⟩ := hr
  rw [hps.next.unique (h.pages.lists k sl).next] at hmem
  exact ⟨sl, hmem⟩

/-- Taking a new page leaves the blocks in use and their headers. -/
theorem taken_same {heap' : HeapAllocator} {pas' : κ → PageAllocator} {lo' hi' : Nat}
    {len' : Nat → Nat} {at' : Place κ → List Nat} (h : Blocks buf lo heap m pas live hi len at_)
    (h' : Blocks buf lo' heap' m' pas' (c :: live) hi' len' at')
    (ht : Taken buf m m' (pas k) (c.off - mpPage)) (hb : b ∈ live) :
    capacity m' b.off = capacity m b.off ∧
      ∀ x, b.off - mpPage ≤ x → x < b.off + capacity m b.off → m' x = m x := by
  have hbc : b.off ≠ c.off := fun he => (List.nodup_cons.mp h'.live_nodup).1
    (List.mem_map.mpr ⟨b, hb, he⟩)
  have hb' : b ∈ c :: live := List.mem_cons_of_mem _ hb
  have hbo := h.off_le b hb
  have hco := h'.off_le c List.mem_cons_self
  have hlink : ∀ r, LinkTo buf m (pas k) (c.off - mpPage) r →
      r + mpPage ≤ b.off - mpPage ∨ b.off + capacity m b.off ≤ r := fun r hr => by
    obtain ⟨sl, hr⟩ := h.linkTo hr
    have hne : b.off - mpPage ≠ r := h.pages.arena.ne_of_place_ne (h.page hb) hr nofun
    have := h.pages.headers_apart (h.page hb) hr hne
    have := h.header_apart hb hr
    omega
  have hw : next_shm_.width ≤ mpPage := by decide
  have hhdr := h'.pages.headers_apart (h'.page hb') (h'.page List.mem_cons_self) (by omega)
  have hsize : page_size_.get m' (b.off - mpPage) = page_size_.get m (b.off - mpPage) := by
    have hcap := h.capacity_eq hb
    have := h.pages.header_le (h.page hb)
    refine page_size_.get_congr fun x hx hx' => ht x (by omega) fun r hr => ?_
    have := hlink r hr
    omega
  have hcap : capacity m' b.off = capacity m b.off := by
    unfold capacity
    rw [hsize]
  refine ⟨hcap, fun x hx hx' => ht x ?_ fun r hr => ?_⟩
  · have := h'.header_apart hb' (h'.page List.mem_cons_self)
    omega
  · have := hlink r hr
    omega

/-- The page allocators may change in all but their lists. -/
theorem relist {pas' : κ → PageAllocator} (h : Blocks buf lo heap m pas live hi len at_)
    (hl : ∀ k, (pas' k).list = (pas k).list) : Blocks buf lo heap m pas' live hi len at_ :=
  { h with pages := { h.pages with lists := fun k sl => (hl k).symm ▸ h.pages.lists k sl } }

/-- Copying a block to a new one that is not shorter. -/
theorem copied {heap' : HeapAllocator} {pas' : κ → PageAllocator} {lo' hi' : Nat}
    {len' : Nat → Nat} {at' : Place κ → List Nat} {m₁ : ByteMem}
    (h : Blocks buf lo heap m pas live hi len at_)
    (h' : Blocks buf lo' heap' m₁ pas' (c :: live) hi' len' at')
    (ht : Taken buf m m₁ (pas k) (c.off - mpPage)) (hb : b ∈ live)
    (hgrow : capacity m b.off ≤ capacity m₁ c.off) :
    wordSub sizeT (page_size_.get m₁ (b.off - mpPage)) mpPage = capacity m b.off ∧
      Blocks buf lo' heap' (m₁.copy c.off b.off (capacity m b.off)) pas' (c :: live) hi' len'
        at' := by
  have hhdr := h'.pages.header_le (h'.page (List.mem_cons_of_mem _ hb))
  refine ⟨(wordSub_of_le hhdr).trans (h.taken_same h' ht hb).1, h'.write List.mem_cons_self ?_⟩
  exact (m₁.copy_sameOff c.off b.off (capacity m b.off)).mono (Nat.le_refl _)
    (Nat.add_le_add_left hgrow _)

theorem reallocated {heap' : HeapAllocator} {pas' : κ → PageAllocator} {lo' hi' : Nat}
    {len' : Nat → Nat} {at' : Place κ → List Nat} {m₁ : ByteMem}
    (h : Blocks buf lo heap m pas live hi len at_)
    (h' : Blocks buf lo' heap' m₁ pas' (c :: live) hi' len' at')
    (ht : Taken buf m m₁ (pas k) (c.off - mpPage)) (hb : b ∈ live)
    (hgrow : capacity m b.off ≤ capacity m₁ c.off)
    (hfree : (m₁.copy c.off b.off (capacity m b.off)).SameOff m' (b.off - mpPage) mpPage) :
    Reallocated (LinkTo buf m (pas k) (c.off - mpPage)) m m' live b.off c.off c.size := by
  have hc : c ∈ c :: live := List.mem_cons_self
  have hco := h'.off_le c hc
  refine .of_copy hb h.off_le hco (fun d hd => (h.taken_same h' ht hd).2) (fun d hd => ?_)
    (fun d hd hdb => ?_) (fun x hx hr => ht x (by omega) hr) hgrow (h'.inside hc).2.2 hfree
  · have hdc : d.off ≠ c.off := fun he => (List.nodup_cons.mp h'.live_nodup).1
      (List.mem_map.mpr ⟨d, hd, he⟩)
    have := h'.apart hc (List.mem_cons_of_mem _ hd) hdc.symm
    have := (h.taken_same h' ht hd).1
    have := h.off_le d hd
    omega
  · have := h.apart hd hb hdb
    have := h.off_le d hd
    have := h.off_le b hb
    omega

variable [DecidableEq κ] {size : Nat}

/-- A request takes no page from the slot of its class, or one that is long enough;
the header is then written, with the rounded size or the one it had. -/
theorem allocate (h : Blocks buf lo heap m pas live hi len at_) (k : κ)
    (hs : size + mpPage < sizeT) :
    (∃ pa', (pas k).allocate buf m (.ofSize (size + mpPage)) = some (none, m, pa') ∧
      pa'.heap_ = (pas k).heap_ ∧
      Blocks buf lo heap m (Function.update pas k pa') live hi len at_) ∨
    ∃ sl p m₁ pa', (pas k).allocate buf m (.ofSize (size + mpPage)) = some (some p, m₁, pa') ∧
      pa'.heap_ = (pas k).heap_ ∧ p ∈ at_ (.free k sl) ∧
      PageAllocator.Unlinked buf m m₁ (at_ (.free k sl)) p ∧
      (PageId.ofSize (size + mpPage)).round_ ≤ page_size_.get m p ∧
      page_size_.get m₁ p = page_size_.get m p ∧
      ∀ m', m₁.SameOff m' p mpPage → isAllocated m' p = true →
        (page_size_.get m' p = (PageId.ofSize (size + mpPage)).round_ ∨
          page_size_.get m' p = page_size_.get m p) →
        Blocks buf lo heap m' (Function.update pas k pa') (⟨p + mpPage, size⟩ :: live) hi len
          (moved at_ (.free k sl) .live p) := by
  obtain ⟨hround, hle, hslot⟩ := PageId.ofSize_request hs
  generalize PageId.ofSize (size + mpPage) = page_id at hround hle hslot ⊢
  rcases h.pages.allocate k page_id with ⟨pa', he, hh, hp⟩ |
    ⟨p, m₁, pa', he, hh, hp, hfit, hu, hn, hw⟩
  · exact .inl ⟨pa', he, hh, { h with pages := hp }⟩
  obtain ⟨sl, hps, hsl⟩ := h.pages.size _ p hp
  have hsize : page_id.round_ ≤ page_size_.get m p := by
    by_cases hf : page_id.slot = .fallback
    · exact hfit hf
    · exact hslot _ (hsl k _ rfl ▸ hps) hf
  refine .inr ⟨_, p, m₁, pa', he, hh, hp, hu, hsize, hn, fun m' hm' ha hn' => ?_⟩
  have hlen := h.pages.size_le _ p hp
  have hn'' : (∃ sl, PageSize (page_size_.get m' p) sl) ∧ page_size_.get m' p ≤ len p := by
    rcases hn' with he | he <;> rw [he]
    · exact ⟨hround, by omega⟩
    · exact ⟨⟨sl, hps⟩, hlen⟩
  have hpage := hw m' hm' hn''.1 hn''.2 ha
  have hne : Place.free k page_id.slot ≠ .live := nofun
  have hmem := fun q => h.pages.arena.mem_moved (k := .live) (q := q) hp hne
  have hpl : ∀ b ∈ live, b.off - mpPage ≠ p := fun b hb =>
    h.pages.arena.ne_of_place_ne (h.page hb) hp nofun
  refine { h with
    pages := hpage
    live_iff := fun q => ?_
    off_le := fun b hb => ?_
    live_nodup := ?_
    fits := fun b hb => ?_ }
  · rw [hmem, h.live_iff]
    constructor
    · rintro (⟨-, rfl⟩ | ⟨⟨b, hb, hq⟩, -⟩)
      · exact ⟨_, List.mem_cons_self, rfl⟩
      · exact ⟨b, List.mem_cons_of_mem _ hb, hq⟩
    · rintro ⟨b, hb, hq⟩
      rcases List.mem_cons.mp hb with rfl | hb
      · exact .inl ⟨rfl, (Nat.add_right_cancel hq).symm⟩
      · have := hpl b hb
        exact .inr ⟨⟨b, hb, hq⟩, by omega⟩
  · rcases List.mem_cons.mp hb with rfl | hb
    · exact Nat.le_add_left ..
    · exact h.off_le b hb
  · rw [List.map_cons, List.nodup_cons]
    refine ⟨fun hb => ?_, h.live_nodup⟩
    obtain ⟨b, hb, hoff⟩ := List.mem_map.mp hb
    have hoff : b.off = p + mpPage := hoff
    have := hpl b hb
    omega
  · rcases List.mem_cons.mp hb with rfl | hb
    · simp only [Nat.add_sub_cancel]
      omega
    · have hsame := hm'.sameOn (h.pages.headers_apart hp (h.page hb) (hpl b hb).symm)
      rw [page_size_.get_congr hsame,
        (h.pages.unlinked hu (fun r hr => hr) (h.page hb)).1 _ (by decide)]
      exact h.fits b hb

/-- A request is served from the heap; the header of the new page is then written. -/
theorem fresh (h : Blocks buf lo heap m pas live hi len at_) (hs : size + mpPage < sizeT)
    (hp : p = buf + heap.region_off_ + heap.heap_off_)
    (hroom : heap.heap_off_ + (PageId.ofSize (size + mpPage)).round_ ≤ heap.heap_size_)
    (hm : m.SameOff m' p mpPage) (ha : isAllocated m' p = true)
    (hn : page_size_.get m' p = (PageId.ofSize (size + mpPage)).round_) :
    ∃ hi' len',
      Blocks buf lo { heap with
        heap_off_ := heap.heap_off_ + (PageId.ofSize (size + mpPage)).round_ } m' pas
        (⟨p + mpPage, size⟩ :: live) hi' len'
        (Function.update at_ .live (p :: at_ .live)) := by
  obtain ⟨hround, hle, -⟩ := PageId.ofSize_request hs
  generalize PageId.ofSize (size + mpPage) = page_id at hround hle hroom hn ⊢
  have hoff := h.hi_off
  have hend := h.end_lt
  have hpage := h.pages.carve (n := page_id.round_) (p := p) (by omega) (by omega) hm
    (hn ▸ hround) (Nat.le_of_eq hn) ha
  have hpl : ∀ b ∈ live, b.off - mpPage + mpPage ≤ p := fun b hb => by
    have := h.pages.arena.inside _ _ (h.page hb)
    have := h.pages.size_le _ _ (h.page hb)
    have := h.pages.header_le (h.page hb)
    omega
  refine ⟨_, _, ⟨hpage, by simp only; omega, by simp only; omega, hend, ?_, fun q => ?_,
    fun b hb => ?_, ?_, fun b hb => ?_⟩⟩
  · have := h.off_lo
    simp only
    omega
  · rw [Function.update_self, List.mem_cons, h.live_iff]
    constructor
    · rintro (rfl | ⟨b, hb, hq⟩)
      · exact ⟨_, List.mem_cons_self, rfl⟩
      · exact ⟨b, List.mem_cons_of_mem _ hb, hq⟩
    · rintro ⟨b, hb, hq⟩
      rcases List.mem_cons.mp hb with rfl | hb
      · exact .inl (Nat.add_right_cancel hq).symm
      · exact .inr ⟨b, hb, hq⟩
  · rcases List.mem_cons.mp hb with rfl | hb
    · exact Nat.le_add_left ..
    · exact h.off_le b hb
  · rw [List.map_cons, List.nodup_cons]
    refine ⟨fun hb => ?_, h.live_nodup⟩
    obtain ⟨b, hb, hoff⟩ := List.mem_map.mp hb
    have hoff : b.off = p + mpPage := hoff
    have := hpl b hb
    have : mpPage = 32 := rfl
    omega
  · rcases List.mem_cons.mp hb with rfl | hb
    · simp only [Nat.add_sub_cancel]
      omega
    · rw [page_size_.get_congr (hm.sameOn (.inr (hpl b hb)))]
      exact h.fits b hb

/-- Freeing a block writes the flags and the link of its page only. -/
theorem release (h : Blocks buf lo heap m pas live hi len at_) (hb : b ∈ live) (k : κ) :
    ∃ sl m' pa', (pas k).free buf (unsetAllocated m (b.off - mpPage)) (b.off - mpPage) = (m', pa') ∧
      m.SameOff m' (b.off - mpPage) mpPage ∧
      (∀ f : Field, f.Apart next_shm_ → f.Apart flags_ →
        f.get m' (b.off - mpPage) = f.get m (b.off - mpPage)) ∧
      Blocks buf lo heap m' (Function.update pas k pa') (dropBlock live b.off) hi len
        (moved at_ .live (.free k sl) (b.off - mpPage)) := by
  have hp := h.page hb
  obtain ⟨sl, m', pa', he, hm, hkeep, hpage⟩ := h.pages.release hp k
  have hne : Place.live ≠ .free k sl := nofun
  have hmem := fun q => h.pages.arena.mem_moved (k := .live) (q := q) hp hne
  have hbo := h.off_le b hb
  refine ⟨sl, m', pa', he, hm, hkeep, { h with
    pages := hpage
    live_iff := fun q => ?_
    off_le := fun c hc => h.off_le c (List.mem_of_mem_filter hc)
    live_nodup := h.live_nodup.sublist (List.filter_sublist.map _)
    fits := fun c hc => ?_ }⟩
  · rw [hmem, h.live_iff]
    constructor
    · rintro (⟨h, -⟩ | ⟨⟨c, hc, hq⟩, hne⟩)
      · cases h
      · exact ⟨c, List.mem_filter.mpr ⟨hc, by simp only [ne_eq, decide_eq_true_eq]; omega⟩, hq⟩
    · rintro ⟨c, hc, hq⟩
      obtain ⟨hc, hne⟩ := List.mem_filter.mp hc
      simp only [ne_eq, decide_eq_true_eq] at hne
      exact .inr ⟨⟨c, hc, hq⟩, by omega⟩
  · obtain ⟨hc, hne⟩ := List.mem_filter.mp hc
    have hco := h.off_le c hc
    simp only [ne_eq, decide_eq_true_eq] at hne
    rw [page_size_.get_congr (hm.sameOn (h.pages.headers_apart hp (h.page hc) (by omega)))]
    exact h.fits c hc

end Blocks
end HermesShm.Memory
