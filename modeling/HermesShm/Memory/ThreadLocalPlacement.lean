import HermesShm.Memory.ThreadLocalAllocator

/-! # Placement of the thread-local allocator

The blocks in use stay inside the backend and off the metadata, in every run where no
request is served by a thread's local heap. -/
namespace HermesShm.Memory
open HermesShm.Base MpPage

namespace ThreadLocalAllocator

/-- Both allocator headers, and the elements of the vectors. -/
def metadata (b : Backend) (page_alloc_size : Nat) (s : State) : List Region :=
  [⟨0, b.header⟩, ⟨s.buf, b.stack_header⟩, ⟨s.buf + s.tls_vec, s.max_threads * page_alloc_size⟩,
    ⟨s.buf + s.free_tids_vec, s.max_threads * 8⟩]

/-- The headers of the pages name threads of `tls_`. -/
def Tids (n : Nat) (m : ByteMem) (at_ : Place Nat → List Nat) : Prop :=
  ∀ i, ∀ p ∈ at_ i, tid_.get m p < n

namespace Tids

variable {n : Nat} {m m' : ByteMem} {at_ : Place Nat → List Nat} {i j : Place Nat} {p : Nat}

theorem congr (h : Tids n m at_) (hm : ∀ i, ∀ q ∈ at_ i, tid_.get m' q = tid_.get m q) :
    Tids n m' at_ := fun i q hq => by
  rw [hm i q hq]
  exact h i q hq

theorem moved {lo hi : Nat} {len : Nat → Nat} (h : Tids n m at_) (ha : Arena lo hi len at_)
    (hp : p ∈ at_ i) (hij : i ≠ j) : Tids n m (moved at_ i j p) := fun l q hq => by
  rcases (ha.mem_moved hp hij).mp hq with ⟨-, rfl⟩ | ⟨hq, -⟩
  · exact h i q hp
  · exact h l q hq

theorem cons (h : Tids n m at_) (hp : tid_.get m p < n) :
    Tids n m (Function.update at_ i (p :: at_ i)) := fun j q hq => by
  by_cases hj : j = i
  · subst hj
    rw [Function.update_self] at hq
    rcases List.mem_cons.mp hq with rfl | hq
    · exact hp
    · exact h j q hq
  · rw [Function.update_of_ne hj] at hq
    exact h j q hq

end Tids

/-- With `live` in use, blocks and free pages are apart, behind the metadata. -/
structure Inv (b : Backend) (page_alloc_size : Nat) (s : State) (live : List Block) : Prop where
  threads_lt : s.max_threads < sizeT
  local_pages : s.local_pages = []
  heap_end : s.buf + s.heap_.region_off_ + s.heap_.heap_size_ ≤ b.data_size_
  blocks : ∃ lo hi len at_, Blocks s.buf lo s.heap_ s.mem s.tls_ live hi len at_ ∧
    Tids s.max_threads s.mem at_ ∧ ∀ r ∈ metadata b page_alloc_size s, r.off + r.len ≤ lo

variable {b : Backend} {page_alloc_size max_threads : Nat} {mem : ByteMem} {s s' : State}
  {live : List Block} {c : Block} {tid size p : Nat}

/-- The record of the blocks in use is no part of the allocator. -/
theorem Inv.record (hi : Inv b page_alloc_size s live) (l : List Block) :
    Inv b page_alloc_size { s with live := l } live := { hi with }

/-- What a successful request does to the state. -/
structure Allocated (b : Backend) (page_alloc_size : Nat) (s : State) (live : List Block)
    (tid size : Nat) (p : Nat) (s' : State) : Prop where
  inv : Inv b page_alloc_size s' (⟨p, size⟩ :: live)
  live : s'.live = s.live
  buf : s'.buf = s.buf
  page_size : page_size_.get s'.mem (p - mpPage) = servedSize s tid size
  taken : Taken s.buf s.mem s'.mem (s.tls_ tid) (p - mpPage)

/-- The header that a request writes to a page from the heap. -/
theorem setHeader_written (s : State) (page_id : PageId) (page : Nat) (ht : tid < sizeT)
    (hn : page_id.round_ < sizeT) :
    s.mem.SameOff (setAllocated (setHeader s tid page_id page).mem page) page mpPage ∧
      isAllocated (setAllocated (setHeader s tid page_id page).mem page) page = true ∧
      page_size_.get (setAllocated (setHeader s tid page_id page).mem page) page =
        page_id.round_ ∧
      tid_.get (setAllocated (setHeader s tid page_id page).mem page) page = tid := by
  refine ⟨((tid_.set_sameOff s.mem page tid).trans (page_size_.set_sameOff _ page _)).trans
    (setAllocated_sameOff _ page), isAllocated_setAllocated, ?_, ?_⟩
  · rw [setAllocated, setHeader, Field.get_set_apart (by decide), Field.get_set hn]
  · rw [setAllocated, setHeader, Field.get_set_apart (by decide), Field.get_set_apart (by decide),
      Field.get_set ht]

/-- Past the local heap, "Case 2" changes no list. -/
theorem allocateHeap_past {page_id : PageId} {page_alloc : PageAllocator}
    (hh : page_alloc.heap_ = (s.tls_ tid).heap_)
    (hpast : page_id.exp_ < PageId.num_caches_ → (s.tls_ tid).heap_.heap_size_ <
      wordAdd sizeT (s.tls_ tid).heap_.heap_off_ page_id.round_) :
    ∃ tls_, allocateHeap (setPageAlloc s tid page_alloc) tid page_id = (none, { s with tls_ }) ∧
      ∀ k, (tls_ k).list = (Function.update s.tls_ tid page_alloc k).list := by
  rw [← hh] at hpast
  obtain ⟨pa', he, hl⟩ := PageAllocator.allocateHeap_refused hpast
  refine ⟨Function.update s.tls_ tid pa', ?_, fun k => ?_⟩
  · simp only [allocateHeap, setPageAlloc, Function.update_self, he, Function.update_idem]
  · by_cases hk : k = tid
    · subst hk
      rw [Function.update_self, Function.update_self, hl]
    · rw [Function.update_of_ne hk, Function.update_of_ne hk]

theorem allocateOffset_spec (hi : Inv b page_alloc_size s live) (hr : Request s tid size)
    (hn : NoWrap size) (hpast : PastLocalHeap s tid size) :
    ∃ r s', allocateOffset s tid size = some (r, s') ∧
      ((∃ e, r = .error e ∧ Inv b page_alloc_size s' live ∧ s'.live = s.live) ∨
        ∃ p, r = .ok p ∧ Allocated b page_alloc_size s live tid size p s') := by
  obtain ⟨lo, hi', len, at_, hb, ht, hmeta⟩ := hi.blocks
  obtain ⟨hpos, -, htid, hheap⟩ := hr
  have hid := requestId_eq hn
  have hpa : pageAlloc s tid = some (s.tls_ tid) := if_pos htid
  obtain ⟨⟨rsl, hround⟩, hle, -⟩ := PageId.ofSize_request hn
  have htlt := Nat.lt_trans htid hi.threads_lt
  rcases hb.allocate tid hn with
    ⟨pa', he, hh, hb'⟩ | ⟨sl, p, m₁, pa', he, hh, hp, hu, hfit, hsz, hw⟩
  · have hfree : freePage s tid size = none := by
      rw [freePage, hid, he]
      rfl
    have hserved : servedSize s tid size = (requestId size).round_ := by
      rw [servedSize, hfree]
      rfl
    obtain ⟨tls_, hl, hlist⟩ := allocateHeap_past hh (hpast hfree)
    have hoff := hheap hfree
    rw [hid] at hl hoff
    have hb' := hb'.relist hlist
    have hend := hb.end_lt
    let s₁ : State := { s with
      tls_
      heap_ := { s.heap_ with
        heap_off_ := s.heap_.heap_off_ + (PageId.ofSize (size + mpPage)).round_ } }
    rcases HeapAllocator.allocateOffset_spec (by omega) hoff (by omega) with ⟨-, ha⟩ | ⟨hroom, ha⟩
    · refine ⟨_, s₁, ?_, .inl ⟨.outOfMemory size s.total_alloc_, rfl, { hi with
        blocks := ⟨lo, hi', len, at_, hb'.advance _, ht, hmeta⟩ }, rfl⟩⟩
      simp only [allocateOffset, hid, hpa, he, Option.bind_eq_bind, Option.bind_some, hl,
        subAllocate, ha, s₁]
    · let p := s.buf + s.heap_.region_off_ + s.heap_.heap_off_
      have hsum : wordAdd sizeT s.buf (s.heap_.region_off_ + s.heap_.heap_off_) = p := by
        rw [wordAdd_of_lt (by omega), ← Nat.add_assoc]
      obtain ⟨hsame, halloc, hsize, htid'⟩ := setHeader_written s₁ (.ofSize (size + mpPage)) p htlt
        hround.lt
      obtain ⟨hi'', len', hb''⟩ := hb'.fresh hn rfl hroom hsame halloc hsize
      have hbelow : ∀ i, ∀ q ∈ at_ i, tid_.get _ q = tid_.get s.mem q := fun i q hq => by
        have := hb.pages.arena.inside i q hq
        have := hb.pages.size_le i q hq
        have := hb.pages.header_le hq
        have := hb.hi_off
        exact tid_.get_congr (hsame.sameOn (.inr (by omega)))
      refine ⟨_, markAllocated (setHeader s₁ tid (.ofSize (size + mpPage)) p)
        (.ofSize (size + mpPage)) p, ?_, .inr ⟨p + mpPage, rfl, ⟨{ hi with
          blocks := ⟨lo, hi'', len', _, hb'', (ht.congr hbelow).cons (htid'.symm ▸ htid),
            hmeta⟩ }, rfl, rfl, ?_, ?_⟩⟩⟩
      · simp only [allocateOffset, hid, hpa, he, Option.bind_eq_bind, Option.bind_some, hl,
          subAllocate, ha, hsum, s₁]
      · rw [Nat.add_sub_cancel, hserved, hid]
        exact hsize
      · rw [Nat.add_sub_cancel]
        exact .of_sameOff hsame
  · have hserved : servedSize s tid size = page_size_.get s.mem p := by
      rw [servedSize, freePage, hid, he]
      rfl
    have hsame := setAllocated_sameOff m₁ p
    have hsize : page_size_.get (setAllocated m₁ p) p = page_size_.get s.mem p := by
      rw [setAllocated, Field.get_set_apart (by decide), hsz]
    have hb' := hw _ hsame isAllocated_setAllocated (.inr hsize)
    have htids : ∀ i, ∀ q ∈ at_ i, tid_.get (setAllocated m₁ p) q = tid_.get s.mem q := by
      intro i q hq
      rw [← (hb.pages.unlinked hu (fun r hr => hr) hq).1 tid_ (by decide)]
      by_cases hqp : q = p
      · subst hqp
        exact Field.get_set_apart (by decide)
      · exact tid_.get_congr (hsame.sameOn (hb.pages.headers_apart hp hq (Ne.symm hqp)))
    refine ⟨_, markAllocated (setPageAlloc { s with mem := m₁ } tid pa')
      (.ofSize (size + mpPage)) p, ?_, .inr ⟨p + mpPage, rfl, ⟨{ hi with
        blocks := ⟨lo, hi', len, _, hb', (ht.congr htids).moved hb.pages.arena hp (by simp),
          hmeta⟩ },
      rfl, rfl, ?_, ?_⟩⟩⟩
    · simp only [allocateOffset, hid, hpa, he, Option.bind_eq_bind, Option.bind_some]
    · rw [Nat.add_sub_cancel, hserved]
      exact hsize
    · rw [Nat.add_sub_cancel]
      exact hb.taken hu hsame

theorem freeOffset_spec (hi : Inv b page_alloc_size s live) (hc : c ∈ live) :
    ∃ s', freeOffsetNoNullCheck s c.off = some (.ok s') ∧ s'.live = s.live ∧
      Inv b page_alloc_size s' (dropBlock live c.off) ∧
      s.mem.SameOff s'.mem (c.off - mpPage) mpPage := by
  obtain ⟨lo, hi', len, at_, hb, ht, hmeta⟩ := hi.blocks
  have hp := hb.page hc
  have halloc := hb.pages.live _ hp
  have htid : tid_.get (unsetAllocated s.mem (c.off - mpPage)) (c.off - mpPage) =
      tid_.get s.mem (c.off - mpPage) := Field.get_set_apart (by decide)
  have hpa : pageAlloc s (tid_.get s.mem (c.off - mpPage)) =
      some (s.tls_ (tid_.get s.mem (c.off - mpPage))) := if_pos (ht _ _ hp)
  obtain ⟨sl, m', pa', he, hm, hkeep, hb'⟩ := hb.release hc (tid_.get s.mem (c.off - mpPage))
  have htids : ∀ i, ∀ q ∈ at_ i, tid_.get m' q = tid_.get s.mem q := by
    intro i q hq
    by_cases hqp : q = c.off - mpPage
    · subst hqp
      exact hkeep tid_ (by decide) (by decide)
    · exact tid_.get_congr (hm.sameOn (hb.pages.headers_apart hp hq (Ne.symm hqp)))
  refine ⟨setPageAlloc { s with
    mem := m'
    total_alloc_ := wordSub sizeT s.total_alloc_
      (page_size_.get (unsetAllocated s.mem (c.off - mpPage)) (c.off - mpPage)) }
      (tid_.get s.mem (c.off - mpPage)) pa', ?_, rfl, { hi with
    blocks := ⟨lo, hi', len, _, hb', (ht.congr htids).moved hb.pages.arena hp (by simp),
          hmeta⟩ }, hm⟩
  simp only [freeOffsetNoNullCheck, halloc, Bool.not_true, Bool.false_eq_true, if_false, htid, hpa,
    Option.bind_eq_bind, Option.bind_some, he, setPageAlloc]

/-- The copy of a reallocation stays inside the new block. -/
theorem Inv.copied {n q : Nat} {s₁ : State} (hi : Inv b page_alloc_size s live) (hc : c ∈ live)
    (ha : Allocated b page_alloc_size s live tid n q s₁)
    (hgrow : capacity s.mem c.off ≤ capacity s₁.mem q) :
    wordSub sizeT (page_size_.get s₁.mem (c.off - mpPage)) mpPage = capacity s.mem c.off ∧
      Inv b page_alloc_size { s₁ with mem := s₁.mem.copy q c.off (capacity s.mem c.off) }
        (⟨q, n⟩ :: live) := by
  obtain ⟨lo, hi', len, at_, hb, -⟩ := hi.blocks
  obtain ⟨lo₁, hi₁, len₁, at₁, hb₁, ht₁, hmeta₁⟩ := ha.inv.blocks
  rw [ha.buf] at hb₁
  obtain ⟨hcap, hb₂⟩ := hb.copied (k := tid) (c := ⟨q, n⟩) hb₁ ha.taken hc hgrow
  have hcopied : ∀ i, ∀ p ∈ at₁ i,
      tid_.get (s₁.mem.copy q c.off (capacity s.mem c.off)) p = tid_.get s₁.mem p := by
    intro i p hp
    have : p + mpPage ≤ q ∨ q + capacity s₁.mem q ≤ p :=
      hb₁.header_apart (b := ⟨q, n⟩) List.mem_cons_self hp
    exact tid_.get_congr ((s₁.mem.copy_sameOff q c.off (capacity s.mem c.off)).sameOn (by omega))
  exact ⟨hcap, { ha.inv with
    blocks := ⟨lo₁, hi₁, len₁, at₁, by simp only [ha.buf]; exact hb₂, ht₁.congr hcopied, hmeta₁⟩ }⟩

/-- A guarded reallocation copies the block and frees the old one, if there is memory. -/
theorem reallocateOffset_spec {n : Nat} (hi : Inv b page_alloc_size s live) (hc : c ∈ live)
    (hr : Request s tid n) (hn : NoWrap n) (hpast : PastLocalHeap s tid n)
    (hg : Grows s tid c.off n) :
    ∃ r s', reallocateOffsetNoNullCheck s tid c.off n = some (r, s') ∧ s'.live = s.live ∧
      ((∃ e, r = .error e ∧ Inv b page_alloc_size s' live ∧
          allocateOffset s tid n = some (.error e, s')) ∨
        ∃ q s₁, r = .ok q ∧ Inv b page_alloc_size s' (⟨q, n⟩ :: dropBlock live c.off) ∧
          allocateOffset s tid n = some (.ok q, s₁) ∧
          Reallocated (LinkTo s.buf s.mem (s.tls_ tid) (q - mpPage)) s.mem s'.mem live c.off q
            n) := by
  obtain ⟨r, s₁, he, ⟨e, rfl, hi₁, hl₁⟩ | ⟨q, rfl, ha⟩⟩ := allocateOffset_spec hi hr hn hpast
  · refine ⟨_, s₁, ?_, hl₁, .inl ⟨e, rfl, hi₁, he⟩⟩
    simp only [reallocateOffsetNoNullCheck, he, Option.bind_eq_bind, Option.bind_some]
  obtain ⟨lo, hi', len, at_, hb, -⟩ := hi.blocks
  obtain ⟨lo₁, hi₁, len₁, at₁, hb₁, -⟩ := ha.inv.blocks
  rw [ha.buf] at hb₁
  have hc₁ : c ∈ (⟨q, n⟩ : Block) :: live := List.mem_cons_of_mem _ hc
  have hne : q ≠ c.off := fun he => (List.nodup_cons.mp hb₁.live_nodup).1
    (List.mem_map.mpr ⟨c, hc, he.symm⟩)
  have hgrow : capacity s.mem c.off ≤ capacity s₁.mem q := by
    rw [capacity, capacity, ha.page_size]
    exact Nat.sub_le_sub_right hg mpPage
  obtain ⟨hcap, hi₂⟩ := hi.copied hc ha hgrow
  obtain ⟨s₃, he₃, hl₃, hi₃, hm₃⟩ := freeOffset_spec hi₂ hc₁
  rw [dropBlock, List.filter_cons_of_pos (by simpa using hne)] at hi₃
  refine ⟨.ok q, s₃, ?_, hl₃.trans ha.live, .inr ⟨q, s₁, rfl, hi₃, he,
    hb.reallocated (k := tid) (c := ⟨q, n⟩) hb₁ ha.taken hc hgrow hm₃⟩⟩
  simp only [reallocateOffsetNoNullCheck, he, Option.bind_eq_bind, Option.bind_some, hcap, he₃]

/-- A guarded operation is not stuck and keeps the invariant. -/
theorem step_inv {op : Nat × Op} (hi : Inv b page_alloc_size s s.live) (hg : Guarded s op) :
    ∃ s', step s op = some s' ∧ Inv b page_alloc_size s' s'.live := by
  obtain ⟨tid, op⟩ := op
  cases op with
  | allocate size =>
    obtain ⟨hr, hn, hpast⟩ := hg
    obtain ⟨r, s', he, ⟨e, rfl, hi', hl⟩ | ⟨p, rfl, ha⟩⟩ := allocateOffset_spec hi hr hn hpast
    · exact ⟨s', by simp only [step, he, Option.bind_eq_bind, Option.bind_some], hl ▸ hi'⟩
    · refine ⟨{ s' with live := ⟨p, size⟩ :: s'.live }, ?_, ?_⟩
      · simp only [step, he, Option.bind_eq_bind, Option.bind_some]
      · rw [ha.live]
        exact ha.inv.record _
  | free p =>
    obtain ⟨c, hc, rfl⟩ := hg
    obtain ⟨s', he, hl, hi', -⟩ := freeOffset_spec hi hc
    refine ⟨{ s' with live := dropBlock s'.live c.off }, ?_, ?_⟩
    · simp only [step, he, Option.bind_eq_bind, Option.bind_some]
    · rw [hl]
      exact hi'.record _
  | reallocate p n =>
    obtain ⟨⟨c, hc, rfl⟩, hr, hn, hpast, hgrow⟩ := hg
    obtain ⟨r, s', he, hl, ⟨e, rfl, hi', -⟩ | ⟨q, -, rfl, hi', -⟩⟩ :=
      reallocateOffset_spec hi hc hr hn hpast hgrow
    · exact ⟨s', by simp only [step, he, Option.bind_eq_bind, Option.bind_some], hl ▸ hi'⟩
    · refine ⟨{ s' with live := ⟨q, n⟩ :: dropBlock s'.live c.off }, ?_, ?_⟩
      · simp only [step, he, Option.bind_eq_bind, Option.bind_some]
      · rw [hl]
        exact hi'.record _
  | write x byte =>
    obtain ⟨c, hc, hx, hx'⟩ := hg
    obtain ⟨lo, hi', len, at_, hb, ht, hmeta⟩ := hi.blocks
    have hm : s.mem.SameOff (Function.update s.mem x byte) c.off (capacity s.mem c.off) :=
      fun y hy => Function.update_of_ne (by omega) ..
    have htids : ∀ i, ∀ p ∈ at_ i,
        tid_.get (Function.update s.mem x byte) p = tid_.get s.mem p := fun i p hp =>
      tid_.get_congr (hm.sameOn (hb.header_apart hc hp).symm)
    exact ⟨_, rfl, { hi with blocks := ⟨lo, hi', len, at_, hb.write hc hm, ht.congr htids, hmeta⟩ }⟩

/-! ## The layout of `shm_init` -/

/-- The sizes that `shm_init` computes do not overflow. -/
def NoOverflow (b : Backend) (page_alloc_size max_threads : Nat) : Prop :=
  b.data_size_ < 2 ^ 63 ∧ max_threads * page_alloc_size + mpPage < sizeT

theorem constructTls_spec {n : Nat} {alloc alloc' : StackAllocator.State}
    {tls_ : Nat → PageAllocator} (h : constructTls n alloc = some (tls_, alloc'))
    (hle : alloc.heap_.heap_off_ ≤ alloc.heap_.heap_size_)
    (hend : alloc.heap_.region_off_ + alloc.heap_.heap_size_ < 2 ^ 63) :
    alloc'.heap_ = { alloc.heap_ with
      heap_off_ := alloc.heap_.heap_off_ + n * (PageAllocator.localHeapSize + mpPage) } ∧
      alloc.heap_.heap_off_ + n * (PageAllocator.localHeapSize + mpPage) ≤
        alloc.heap_.heap_size_ ∧
      ∀ k, (tls_ k).list = ({} : PageAllocator).list := by
  induction n generalizing tls_ alloc' with
  | zero =>
    obtain ⟨rfl, rfl⟩ := Prod.mk.inj (Option.some.inj h)
    rw [Nat.zero_mul, Nat.add_zero]
    exact ⟨rfl, hle, fun _ => rfl⟩
  | succ n ih =>
    obtain ⟨⟨tls', alloc₁⟩, h₁, h⟩ := Option.bind_eq_some_iff.mp h
    obtain ⟨⟨page_alloc, alloc₂⟩, h₂, h⟩ := Option.bind_eq_some_iff.mp h
    unfold PageAllocator.construct at h₂
    obtain ⟨⟨off, alloc₃⟩, h₃, h₂⟩ := Option.bind_eq_some_iff.mp h₂
    obtain ⟨rfl, rfl⟩ := Prod.mk.inj (Option.some.inj h)
    obtain ⟨rfl, rfl⟩ := Prod.mk.inj (Option.some.inj h₂)
    obtain ⟨hheap, hle₁, hlist⟩ := ih h₁
    have hsize : PageAllocator.localHeapSize + mpPage = 1056 := rfl
    have hlt : sizeT = 2 ^ 64 := rfl
    have hwrap : PageAllocator.localHeapSize + mpPage < sizeT := by omega
    obtain ⟨hroom, -, rfl⟩ := StackAllocator.allocateOffset_eq hwrap
      (by rw [hheap]; simp only; omega) (by rw [hheap]; simp only; omega) h₃
    rw [hheap] at hroom
    refine ⟨?_, ?_, fun k => ?_⟩
    · simp only [hheap, Nat.succ_mul, Nat.add_assoc]
    · rwa [Nat.succ_mul, ← Nat.add_assoc]
    · by_cases hk : k = n
      · subst hk
        rw [Function.update_self]
        funext sl
        cases sl <;> rfl
      · rw [Function.update_of_ne hk]
        exact hlist k

theorem init_inv (h : shmInit b page_alloc_size max_threads mem = some s)
    (hf : NoOverflow b page_alloc_size max_threads) : Inv b page_alloc_size s s.live := by
  obtain ⟨hdata, hvec⟩ := hf
  have hfits := b.fits
  have hreg : b.region_off = b.header + b.custom_header_size := rfl
  have hlt : sizeT = 2 ^ 64 := rfl
  have hsize : PageAllocator.localHeapSize + mpPage = 1056 := rfl
  have hheader : mpPage = 32 := rfl
  obtain ⟨⟨tls_vec, alloc₁⟩, h₁, h⟩ := Option.bind_eq_some_iff.mp h
  obtain ⟨⟨tls_, alloc₂⟩, h₂, h⟩ := Option.bind_eq_some_iff.mp h
  obtain ⟨⟨free_tids_vec, alloc₃⟩, h₃, h⟩ := Option.bind_eq_some_iff.mp h
  obtain rfl := Option.some.inj h
  have hheap₀ : (StackAllocator.shmInit b.stack_header (b.data_size_ - b.region_off)
      fun x => mem (b.region_off + x)).heap_ = b.heap := by
    simp only [StackAllocator.shmInit, Backend.heap]
    rw [wordSub_of_le (by omega)]
  -- the elements of `tls_`
  rw [Nat.mod_eq_of_lt (by omega)] at h₁
  obtain ⟨hroom₁, htls, he₁⟩ := StackAllocator.allocateOffset_eq hvec
    (by rw [hheap₀]; simp only [Backend.heap, HeapAllocator.shmInit]; omega)
    (by rw [hheap₀]; simp only [Backend.heap, HeapAllocator.shmInit]; omega) h₁
  have hheap₁ := congrArg StackAllocator.State.heap_ he₁
  simp only [hheap₀, Backend.heap, HeapAllocator.shmInit, Nat.zero_add, Nat.add_zero]
    at hroom₁ htls hheap₁
  -- the local heaps
  obtain ⟨hheap₂, hroom₂, hlist⟩ := constructTls_spec h₂ (by rw [hheap₁]; exact hroom₁)
    (by rw [hheap₁]; simp only; omega)
  simp only [hheap₁, hsize] at hheap₂ hroom₂
  -- the elements of `free_tids_`
  rw [Nat.mod_eq_of_lt (by omega)] at h₃
  obtain ⟨hroom₃, htids, he₃⟩ := StackAllocator.allocateOffset_eq (by omega)
    (by rw [hheap₂]; simp only; omega) (by rw [hheap₂]; simp only; omega) h₃
  have hheap₃ := congrArg StackAllocator.State.heap_ he₃
  simp only [hheap₂] at hroom₃ htids hheap₃
  have halign := alloc₃.heap_.le_align (by rw [hheap₃]; simp only; omega)
  have hoff : alloc₃.heap_.heap_off_ = max_threads * page_alloc_size + mpPage +
      max_threads * 1056 + (max_threads * 8 + mpPage) := by rw [hheap₃]
  have hregion : alloc₃.heap_.align.region_off_ = b.stack_header := by
    rw [HeapAllocator.align, hheap₃]
  have hend : alloc₃.heap_.align.heap_size_ = b.data_size_ - b.region_off - b.stack_header := by
    rw [HeapAllocator.align, hheap₃]
  have hlo : b.region_off ≤ b.region_off + b.stack_header + alloc₃.heap_.heap_off_ := by omega
  let lo := b.region_off + b.stack_header + alloc₃.heap_.heap_off_
  have hblocks : Blocks b.region_off lo alloc₃.heap_.align
      (fun x => if x < b.region_off then mem x else alloc₃.mem (x - b.region_off))
      (fun _ : Nat => {}) [] lo (fun _ => 0) fun _ => [] :=
    .empty hlo (by omega) (by omega) (by omega) _ _
  refine ⟨by simp only; omega, rfl, by simp only; omega, lo, lo, _, _, hblocks.relist hlist,
    fun _ p hp => absurd hp List.not_mem_nil, ?_⟩
  intro r hr
  simp only [metadata, List.mem_cons, List.not_mem_nil, or_false] at hr
  rcases hr with rfl | rfl | rfl | rfl <;> simp only <;> omega

theorem run_inv {s₀ : State} {ops : List (Nat × Op)}
    (h₀ : shmInit b page_alloc_size max_threads mem = some s₀)
    (hf : NoOverflow b page_alloc_size max_threads) (h : Run step Guarded s₀ ops s) :
    Inv b page_alloc_size s s.live := by
  refine h.invariant (I := fun s => Inv b page_alloc_size s s.live) (init_inv h₀ hf)
    fun s op s' hi hg hs => ?_
  obtain ⟨s₁, he, hi'⟩ := step_inv hi hg
  rw [hs] at he
  cases he
  exact hi'

/-! ## Placement -/

/-- The page of a block, with its header. -/
def page (s : State) (c : Block) : Region := ⟨c.off - mpPage, mpPage + capacity s.mem c.off⟩

structure Placed (b : Backend) (page_alloc_size : Nat) (s : State) : Prop where
  in_buffer : ∀ c ∈ s.live, mpPage ≤ c.off ∧ c.off + capacity s.mem c.off ≤ b.data_size_
  disjoint : s.live.Pairwise fun c d =>
    c.off + capacity s.mem c.off ≤ d.off ∨ d.off + capacity s.mem d.off ≤ c.off
  off_metadata : ∀ c ∈ s.live, ∀ r ∈ metadata b page_alloc_size s, (page s c).Apart r
  /-- A page of a local heap is in the region that the constructor reserved for it. -/
  local_heap : ∀ tid page, (tid, page) ∈ s.local_pages →
    s.buf + (s.tls_ tid).heap_.region_off_ ≤ page ∧ page + page_size_.get s.mem page ≤
      s.buf + (s.tls_ tid).heap_.region_off_ + (s.tls_ tid).heap_.heap_size_

theorem Inv.placed (hi : Inv b page_alloc_size s s.live) : Placed b page_alloc_size s := by
  obtain ⟨lo, hi', len, at_, hb, -, hmeta⟩ := hi.blocks
  have hend := hi.heap_end
  refine ⟨fun c hc => ⟨hb.off_le c hc, ?_⟩, ?_, fun c hc r hr => ?_, ?_⟩
  · have := hb.inside hc
    have := hb.hi_end
    omega
  · have hnd := hb.live_nodup
    rw [List.Nodup, List.pairwise_map] at hnd
    refine hnd.imp_of_mem fun hc hd hne => ?_
    have := hb.apart hc hd hne
    omega
  · have := hb.inside hc
    have := hmeta r hr
    exact .inr (by simp only [page]; omega)
  · rw [hi.local_pages]
    nofun

/-- **Guarded runs place blocks well.** Where no request is served by a thread's local
heap, no size wraps around and no block is reallocated to a smaller one, the blocks are
in the backend, apart, and off the metadata. -/
theorem guarded_placed {s₀ : State} {ops : List (Nat × Op)}
    (h₀ : shmInit b page_alloc_size max_threads mem = some s₀)
    (hf : NoOverflow b page_alloc_size max_threads) (h : Run step Guarded s₀ ops s) :
    Placed b page_alloc_size s := (run_inv h₀ hf h).placed

theorem small_size_lt : 65536 < sizeT := by decide

def smallBackend : Backend :=
  { header := 512, stack_header := 112, custom_header_size := 64, data_size_ := 65536
    fits := by decide, size_lt := small_size_lt }

/-- A thread whose first request is longer than its local heap gets all its pages from
the common heap; a page that another thread frees goes back to it. -/
theorem guarded_placed_reuse : ∃ s₀ s, shmInit smallBackend 2048 4 (fun _ => 0) = some s₀ ∧
    Run step Guarded s₀ [(0, .allocate 1000), (0, .allocate 10), (1, .allocate 600),
      (1, .free 17104), (0, .reallocate 18160 700)] s ∧
    Placed smallBackend 2048 s ∧ s.live = [⟨17104, 700⟩, ⟨18256, 600⟩] := by
  have hex : ((shmInit smallBackend 2048 4 fun _ => 0).bind fun s₀ => execOk step Guarded s₀
      [(0, .allocate 1000), (0, .allocate 10), (1, .allocate 600), (1, .free 17104),
        (0, .reallocate 18160 700)]).map (·.live) = some [⟨17104, 700⟩, ⟨18256, 600⟩] := by
    decide +kernel
  obtain ⟨s, hs, hl⟩ := Option.map_eq_some_iff.mp hex
  obtain ⟨s₀, h₀, hs⟩ := Option.bind_eq_some_iff.mp hs
  have hrun := run_of_execOk hs
  exact ⟨s₀, s, h₀, hrun, guarded_placed h₀ (by unfold NoOverflow; decide) hrun, hl⟩

/-- **A local heap is misplaced.** The first request of a thread gets a page over the
elements of `tls_`. -/
theorem local_page_on_tls : ¬ ∀ (ops : List (Nat × Op)) (s₀ s : State),
    shmInit smallBackend 2048 4 (fun _ => 0) = some s₀ → Run step Legal s₀ ops s →
      Placed smallBackend 2048 s := by
  intro h
  have hex : ((shmInit smallBackend 2048 4 fun _ => 0).bind fun s₀ => execOk step Legal s₀
      [(0, .allocate 1)]).map (fun s => (s.live.map (page s), s.buf + s.tls_vec, s.max_threads)) =
      some ([⟨8368, 96⟩], 720, 4) := by
    decide +kernel
  obtain ⟨s, hs, hl⟩ := Option.map_eq_some_iff.mp hex
  obtain ⟨s₀, h₀, hs⟩ := Option.bind_eq_some_iff.mp hs
  obtain ⟨hpages, htls, hn⟩ : s.live.map (page s) = [⟨8368, 96⟩] ∧ s.buf + s.tls_vec = 720 ∧
      s.max_threads = 4 := by simpa only [Prod.mk.injEq] using hl
  obtain ⟨c, hc, hpage⟩ := List.mem_map.mp (hpages ▸ List.mem_singleton_self _ :
    (⟨8368, 96⟩ : Region) ∈ s.live.map (page s))
  have hmem : (⟨s.buf + s.tls_vec, s.max_threads * 2048⟩ : Region) ∈
      metadata smallBackend 2048 s := by simp [metadata]
  have := (h _ s₀ s h₀ (run_of_execOk hs)).off_metadata c hc _ hmem
  rw [hpage, htls, hn, Region.Apart] at this
  simp only at this
  omega

end ThreadLocalAllocator
end HermesShm.Memory
