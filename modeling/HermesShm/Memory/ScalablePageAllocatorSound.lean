import HermesShm.Memory.ScalablePageAllocator

/-! # The scalable page allocator keeps blocks apart

Blocks, free pages and headers stay apart in every run without a wrapped size. -/
namespace HermesShm.Memory
open HermesShm.Base MpPage

namespace ScalablePageAllocator

/-- With `live` in use, blocks and free pages are apart, in the heap. -/
def Inv (s : State) (live : List Block) : Prop :=
  ∃ hi len at_, Blocks s.buf (s.buf + s.heap_.region_off_) s.heap_ s.mem (fun _ : Unit => s.global_)
    live hi len at_

variable {s s' : State} {live : List Block} {b : Block} {size p : Nat}

/-- At the start there are no pages. -/
theorem init_blocks (b : Backend) (mem : ByteMem) :
    Blocks (shmInit b mem).buf ((shmInit b mem).buf + (shmInit b mem).heap_.region_off_)
      (shmInit b mem).heap_ mem (fun _ : Unit => {}) []
      ((shmInit b mem).buf + (shmInit b mem).heap_.region_off_) (fun _ => 0) fun _ => [] := by
  have := b.fits
  have := b.size_lt
  have hreg : b.region_off = b.header + b.custom_header_size := rfl
  refine Blocks.empty (Nat.le_add_right ..) (Nat.le_add_right ..) (Nat.le_add_right ..) ?_ mem _
  simp only [shmInit, HeapAllocator.align, Backend.heap, HeapAllocator.shmInit]
  omega

theorem init_inv (b : Backend) (mem : ByteMem) : Inv (shmInit b mem) [] :=
  ⟨_, _, _, init_blocks b mem⟩

/-- A block is inside the heap, behind its header. -/
theorem Inv.inside (hi : Inv s live) (hb : b ∈ live) :
    s.buf + s.heap_.region_off_ + mpPage ≤ b.off ∧
      b.off + capacity s.mem b.off ≤ s.buf + s.heap_.region_off_ + s.heap_.heap_size_ := by
  obtain ⟨hi', len, at_, h⟩ := hi
  have := h.inside hb
  have := h.hi_end
  omega

theorem update_unit (pa pa' : PageAllocator) :
    Function.update (fun _ : Unit => pa) () pa' = fun _ => pa' := by
  funext
  exact Function.update_self ..

/-- What a successful request does to the state. -/
structure Allocated (s : State) (live : List Block) (size : Nat) (p : Nat) (s' : State) : Prop where
  inv : Inv s' (⟨p, size⟩ :: live)
  live : s'.live = s.live
  buf : s'.buf = s.buf
  header : mpPage ≤ p
  page_size : page_size_.get s'.mem (p - mpPage) = (requestId size).round_
  taken : Taken s.buf s.mem s'.mem s.global_ (p - mpPage)

/-- The header that a request writes. -/
theorem written (m : ByteMem) {p n : Nat} (hn : n < sizeT) :
    m.SameOff (setAllocated (page_size_.set m p n) p) p mpPage ∧
      isAllocated (setAllocated (page_size_.set m p n) p) p = true ∧
      page_size_.get (setAllocated (page_size_.set m p n) p) p = n := by
  refine ⟨(page_size_.set_sameOff m p n).trans (setAllocated_sameOff _ p), isAllocated_setAllocated,
    ?_⟩
  rw [setAllocated, Field.get_set_apart (by decide), Field.get_set hn]

/-- How a request ends, with the blocks and pages of `s'`. -/
inductive Outcome (s : State) (live : List Block) (size : Nat) (at_ : Place Unit → List Nat)
    (s' : State) : Except Error Nat → Prop
  /-- No page is free, and the heap has no room. -/
  | refused {pa' : PageAllocator} {hi : Nat} {len : Nat → Nat}
      (none_free : s.global_.allocate s.buf s.mem (requestId size) = some (none, s.mem, pa'))
      (heap : s.heap_.allocateOffset (requestId size).round_ = (none, s'.heap_))
      (heap_off : s'.heap_ =
        { s.heap_ with heap_off_ := s.heap_.heap_off_ + (requestId size).round_ })
      (full : s.heap_.heap_size_ < s.heap_.heap_off_ + (requestId size).round_)
      (mem : s'.mem = s.mem)
      (blocks : Blocks s'.buf (s'.buf + s'.heap_.region_off_) s'.heap_ s'.mem
        (fun _ : Unit => s'.global_) live hi len at_) :
      Outcome s live size at_ s' (.error (.outOfMemory size s.total_alloc_))
  /-- No page is free; the heap gives the page `p`, after all others. -/
  | fresh {pa' : PageAllocator} {p off hi : Nat} {len : Nat → Nat}
      (none_free : s.global_.allocate s.buf s.mem (requestId size) = some (none, s.mem, pa'))
      (heap : s.heap_.allocateOffset (requestId size).round_ = (some off, s'.heap_))
      (heap_off : s'.heap_ =
        { s.heap_ with heap_off_ := s.heap_.heap_off_ + (requestId size).round_ })
      (after : ∀ i, ∀ q ∈ at_ i, q + mpPage ≤ p)
      (header : s.mem.SameOff s'.mem p mpPage)
      (page_size : page_size_.get s'.mem p = (requestId size).round_)
      (blocks : Blocks s'.buf (s'.buf + s'.heap_.region_off_) s'.heap_ s'.mem
        (fun _ : Unit => s'.global_) (⟨p + mpPage, size⟩ :: live) hi len
        (Function.update at_ .live (p :: at_ .live))) :
      Outcome s live size at_ s' (.ok (p + mpPage))
  /-- The page `p` was free. -/
  | reused {pa' : PageAllocator} {m₁ : ByteMem} {sl : Slot} {p hi : Nat} {len : Nat → Nat}
      (found : s.global_.allocate s.buf s.mem (requestId size) = some (some p, m₁, pa'))
      (heap_eq : s'.heap_ = s.heap_)
      (free : p ∈ at_ (.free () sl))
      (unlinked : PageAllocator.Unlinked s.buf s.mem m₁ (at_ (.free () sl)) p)
      (header : m₁.SameOff s'.mem p mpPage)
      (page_size : page_size_.get s'.mem p = (requestId size).round_)
      (blocks : Blocks s'.buf (s'.buf + s'.heap_.region_off_) s'.heap_ s'.mem
        (fun _ : Unit => s'.global_) (⟨p + mpPage, size⟩ :: live) hi len
        (moved at_ (.free () sl) .live p)) :
      Outcome s live size at_ s' (.ok (p + mpPage))

theorem allocateOffset_cases {hi : Nat} {len : Nat → Nat} {at_ : Place Unit → List Nat}
    (hb : Blocks s.buf (s.buf + s.heap_.region_off_) s.heap_ s.mem (fun _ : Unit => s.global_)
      live hi len at_) (hr : Request s size) (hn : NoWrap size) :
    ∃ r s', allocateOffset s size = some (r, s') ∧ s'.live = s.live ∧ s'.buf = s.buf ∧
      Outcome s live size at_ s' r := by
  obtain ⟨hpos, -, hheap⟩ := hr
  have hid := requestId_eq hn
  obtain ⟨⟨rsl, hround⟩, hle, -⟩ := PageId.ofSize_request hn
  have hrlt := hround.lt
  rcases hb.allocate () hn with
    ⟨pa', he, -, hb'⟩ | ⟨sl, p, m₁, pa', he, -, hp, hu, hfit, hsz, hw⟩
  · -- no free page: the heap
    rw [update_unit] at hb'
    rw [← hid] at he hround hle hrlt
    have hoff := hheap (by rw [he]; rfl)
    have hend := hb.end_lt
    let s₁ : State := { s with
      global_ := pa'
      heap_ := { s.heap_ with heap_off_ := s.heap_.heap_off_ + (requestId size).round_ } }
    rcases HeapAllocator.allocateOffset_spec (by omega) hoff (by omega) with
      ⟨hfull, ha⟩ | ⟨hroom, ha⟩
    · refine ⟨_, s₁, ?_, rfl, rfl, .refused he ha rfl hfull rfl (hb'.advance _)⟩
      simp only [allocateOffset, subAllocate, he, Option.bind_eq_bind, Option.bind_some, ha,
        Option.map_none, s₁]
    · let p := s.buf + s.heap_.region_off_ + s.heap_.heap_off_
      have hsum : wordAdd sizeT s.buf (s.heap_.region_off_ + s.heap_.heap_off_) = p := by
        rw [wordAdd_of_lt (by omega), ← Nat.add_assoc]
      obtain ⟨hsame, halloc, hsize⟩ := written s.mem (p := p) hrlt
      rw [hid] at hroom hsame halloc hsize
      obtain ⟨hi', len', hb''⟩ := hb'.fresh hn rfl hroom hsame halloc hsize
      rw [← hid] at hb'' hsame hsize
      refine ⟨_, markAllocated s₁ (requestId size) p, ?_, rfl, rfl,
        .fresh he ha rfl (fun i q hq => ?_) hsame hsize hb''⟩
      · simp only [allocateOffset, subAllocate, he, Option.bind_eq_bind, Option.bind_some, ha,
          Option.map_some, hsum, s₁]
      · have := hb.pages.arena.inside i q hq
        have := hb.pages.size_le i q hq
        have := hb.pages.header_le hq
        have := hb.hi_off
        omega
  · rw [update_unit] at hw
    rw [← hid] at he hrlt hw
    obtain ⟨hsame, halloc, hsize⟩ := written m₁ (p := p) hrlt
    let s₁ : State := { s with mem := m₁, global_ := pa' }
    refine ⟨_, markAllocated s₁ (requestId size) p, ?_, rfl, rfl,
      .reused he rfl hp hu hsame hsize (hw _ hsame halloc (.inl hsize))⟩
    simp only [allocateOffset, he, Option.bind_eq_bind, Option.bind_some, s₁]

theorem allocateOffset_spec (hi : Inv s live) (hr : Request s size) (hn : NoWrap size) :
    ∃ r s', allocateOffset s size = some (r, s') ∧
      ((∃ e, r = .error e ∧ Inv s' live ∧ s'.live = s.live) ∨
        ∃ p, r = .ok p ∧ Allocated s live size p s') := by
  obtain ⟨hi', len, at_, hb⟩ := hi
  obtain ⟨r, s', he, hl, hbuf, ho⟩ := allocateOffset_cases hb hr hn
  refine ⟨r, s', he, ?_⟩
  cases ho with
  | refused _ _ _ _ _ hb' => exact .inl ⟨_, rfl, ⟨_, _, _, hb'⟩, hl⟩
  | @fresh _ p _ _ _ _ _ _ _ hsame hsize hb' =>
    refine .inr ⟨_, rfl, ⟨_, _, _, hb'⟩, hl, hbuf, Nat.le_add_left .., ?_, ?_⟩
    · rw [Nat.add_sub_cancel]
      exact hsize
    · rw [Nat.add_sub_cancel]
      exact .of_sameOff hsame
  | reused _ _ hp hu hsame hsize hb' =>
    refine .inr ⟨_, rfl, ⟨_, _, _, hb'⟩, hl, hbuf, Nat.le_add_left .., ?_, ?_⟩
    · rw [Nat.add_sub_cancel]
      exact hsize
    · rw [Nat.add_sub_cancel]
      exact hb.taken hu hsame

/-- A request that fails leaves the memory. -/
theorem allocateOffset_refused (hi : Inv s live) (hr : Request s size) (hn : NoWrap size)
    {e : Error} (ha : allocateOffset s size = some (.error e, s')) : s'.mem = s.mem := by
  obtain ⟨hi', len, at_, hb⟩ := hi
  obtain ⟨r, s₁, he, -, -, ho⟩ := allocateOffset_cases hb hr hn
  cases ha.symm.trans he
  cases ho with
  | refused _ _ _ _ hmem => exact hmem

theorem freeOffset_spec (hi : Inv s live) (hb : b ∈ live) :
    ∃ s', freeOffsetNoNullCheck s b.off = .ok s' ∧ s'.live = s.live ∧
      Inv s' (dropBlock live b.off) ∧ s.mem.SameOff s'.mem (b.off - mpPage) mpPage := by
  obtain ⟨hi', len, at_, hbs⟩ := hi
  obtain ⟨sl, m', pa', he, hm, -, hbs'⟩ := hbs.release hb ()
  rw [update_unit] at hbs'
  have halloc := hbs.pages.live _ (hbs.page hb)
  refine ⟨{ s with
    mem := m', global_ := pa'
    total_alloc_ := wordSub sizeT s.total_alloc_
      (page_size_.get (unsetAllocated s.mem (b.off - mpPage)) (b.off - mpPage)) },
    ?_, rfl, ⟨hi', len, _, hbs'⟩, hm⟩
  simp only [freeOffsetNoNullCheck, halloc, Bool.not_true, Bool.false_eq_true, if_false, he]

/-- The copy of a reallocation stays inside the new block. -/
theorem Inv.copied {n q : Nat} {s₁ : State} (hi : Inv s live) (hb : b ∈ live)
    (ha : Allocated s live n q s₁) (hgrow : capacity s.mem b.off ≤ capacity s₁.mem q) :
    wordSub sizeT (page_size_.get s₁.mem (b.off - mpPage)) mpPage = capacity s.mem b.off ∧
      Inv { s₁ with mem := s₁.mem.copy q b.off (capacity s.mem b.off) } (⟨q, n⟩ :: live) := by
  obtain ⟨hi', len, at_, hbs⟩ := hi
  obtain ⟨hi₁, len₁, at₁, hbs₁⟩ := ha.inv
  rw [ha.buf] at hbs₁
  obtain ⟨hcap, hbs₂⟩ := hbs.copied (k := ()) (c := ⟨q, n⟩) hbs₁ ha.taken hb hgrow
  exact ⟨hcap, hi₁, len₁, at₁, by simp only [ha.buf]; exact hbs₂⟩

/-- A guarded reallocation copies the block and frees the old one, if there is memory. -/
theorem reallocateOffset_spec {n : Nat} (hi : Inv s live) (hb : b ∈ live) (hr : Request s n)
    (hn : NoWrap n) (hg : Grows s b.off n) :
    ∃ r s', reallocateOffsetNoNullCheck s b.off n = some (r, s') ∧ s'.live = s.live ∧
      ((∃ e, r = .error e ∧ Inv s' live ∧ allocateOffset s n = some (.error e, s')) ∨
        ∃ q s₁, r = .ok q ∧ Inv s' (⟨q, n⟩ :: dropBlock live b.off) ∧
          allocateOffset s n = some (.ok q, s₁) ∧
          Reallocated (LinkTo s.buf s.mem s.global_ (q - mpPage)) s.mem s'.mem live b.off q n) := by
  obtain ⟨r, s₁, he, ⟨e, rfl, hi₁, hl₁⟩ | ⟨q, rfl, ha⟩⟩ := allocateOffset_spec hi hr hn
  · refine ⟨_, s₁, ?_, hl₁, .inl ⟨e, rfl, hi₁, he⟩⟩
    simp only [reallocateOffsetNoNullCheck, he, Option.bind_eq_bind, Option.bind_some]
  have hcopied := hi.copied hb ha
  obtain ⟨hi', len, at_, hbs⟩ := hi
  obtain ⟨hi₁, len₁, at₁, hbs₁⟩ := ha.inv
  rw [ha.buf] at hbs₁
  have hb₁ : b ∈ (⟨q, n⟩ : Block) :: live := List.mem_cons_of_mem _ hb
  have hne : q ≠ b.off := fun he => (List.nodup_cons.mp hbs₁.live_nodup).1
    (List.mem_map.mpr ⟨b, hb, he.symm⟩)
  have hgrow : capacity s.mem b.off ≤ capacity s₁.mem q := by
    rw [capacity, capacity, ha.page_size]
    exact Nat.sub_le_sub_right hg mpPage
  obtain ⟨hcap, hi₂⟩ := hcopied hgrow
  obtain ⟨s₃, he₃, hl₃, hi₃, hm₃⟩ := freeOffset_spec hi₂ hb₁
  rw [dropBlock, List.filter_cons_of_pos (by simpa using hne)] at hi₃
  refine ⟨.ok q, s₃, ?_, hl₃.trans ha.live, .inr ⟨q, s₁, rfl, hi₃, he,
    hbs.reallocated (k := ()) (c := ⟨q, n⟩) hbs₁ ha.taken hb hgrow hm₃⟩⟩
  simp only [reallocateOffsetNoNullCheck, he, Option.bind_eq_bind, Option.bind_some, hcap, he₃]

/-- A guarded operation is not stuck and keeps the invariant. -/
theorem step_inv {op : Op} (hi : Inv s s.live) (hg : Guarded s op) :
    ∃ s', step s op = some s' ∧ Inv s' s'.live := by
  cases op with
  | allocate size =>
    obtain ⟨r, s', he, ⟨e, rfl, hi', hl⟩ | ⟨p, rfl, ha⟩⟩ := allocateOffset_spec hi hg.1 hg.2
    · exact ⟨s', by simp only [step, he, Option.bind_eq_bind, Option.bind_some], hl ▸ hi'⟩
    · refine ⟨{ s' with live := ⟨p, size⟩ :: s'.live }, ?_, ?_⟩
      · simp only [step, he, Option.bind_eq_bind, Option.bind_some]
      · exact ha.live ▸ ha.inv
  | free p =>
    obtain ⟨b, hb, rfl⟩ := hg
    obtain ⟨s', he, hl, hi', -⟩ := freeOffset_spec hi hb
    refine ⟨{ s' with live := dropBlock s'.live b.off }, by simp only [step, he], ?_⟩
    exact hl ▸ hi'
  | reallocate p n =>
    obtain ⟨⟨b, hb, rfl⟩, hr, hn, hgrow⟩ := hg
    obtain ⟨r, s', he, hl, ⟨e, rfl, hi', -⟩ | ⟨q, -, rfl, hi', -⟩⟩ :=
      reallocateOffset_spec hi hb hr hn hgrow
    · exact ⟨s', by simp only [step, he, Option.bind_eq_bind, Option.bind_some], hl ▸ hi'⟩
    · refine ⟨{ s' with live := ⟨q, n⟩ :: dropBlock s'.live b.off }, ?_, ?_⟩
      · simp only [step, he, Option.bind_eq_bind, Option.bind_some]
      · exact hl ▸ hi'
  | write x byte =>
    obtain ⟨b, hb, hx, hx'⟩ := hg
    obtain ⟨hi', len, at_, hbs⟩ := hi
    refine ⟨_, rfl, hi', len, at_, hbs.write hb fun y hy => Function.update_of_ne ?_ ..⟩
    omega

theorem run_inv {b : Backend} {mem : ByteMem} {ops : List Op}
    (h : Run step Guarded (shmInit b mem) ops s) : Inv s s.live := by
  refine h.invariant (I := fun s => Inv s s.live) (init_inv b mem) fun s op s' hi hg hs => ?_
  obtain ⟨s₁, he, hi'⟩ := step_inv hi hg
  rw [hs] at he
  cases he
  exact hi'

/-! ## Soundness -/

/-- The free lists, with pages `free`, beside the blocks in use. -/
structure FreePages (s : State) (free : Slot → List Nat) : Prop where
  lists : ∀ sl, (s.global_.list sl).Represents s.buf s.mem (free sl)
  once : ∀ sl, (free sl).Nodup
  one_list : ∀ sl sl' p, p ∈ free sl → p ∈ free sl' → sl = sl'
  not_live : ∀ sl, ∀ p ∈ free sl, ∀ b ∈ s.live, b.off ≠ p + mpPage
  /-- No block overlaps the header of a page. -/
  headers : ∀ b ∈ s.live, ∀ p, (∃ sl, p ∈ free sl) ∨ (∃ c ∈ s.live, c.off = p + mpPage) →
    p + mpPage ≤ b.off ∨ b.off + capacity s.mem b.off ≤ p
  class_size : ∀ i < PageId.num_caches_, ∀ p ∈ free (.cls i),
    page_size_.get s.mem p = 2 ^ (i + 6) + mpPage
  large_size : ∀ p ∈ free .fallback, 2 ^ 24 + mpPage < page_size_.get s.mem p

structure Sound (s : State) : Prop where
  disjoint : s.live.Pairwise fun b c =>
    b.off + capacity s.mem b.off ≤ c.off ∨ c.off + capacity s.mem c.off ≤ b.off
  in_heap : ∀ b ∈ s.live, s.buf + s.heap_.region_off_ ≤ b.off ∧
    b.off + capacity s.mem b.off ≤ s.buf + s.heap_.region_off_ + s.heap_.heap_size_
  usable : ∀ b ∈ s.live, b.size ≤ capacity s.mem b.off
  pages : ∃ free, FreePages s free

theorem Inv.sound (hi : Inv s s.live) : Sound s := by
  obtain ⟨hi', len, at_, h⟩ := hi
  have hclass : ∀ sl, ∀ p ∈ at_ (.free () sl), PageSize (page_size_.get s.mem p) sl := by
    intro sl p hp
    obtain ⟨sl', hs, hsl⟩ := h.pages.size _ p hp
    rwa [hsl () sl rfl]
  refine ⟨?_, fun b hb => ?_, fun b hb => (h.inside hb).2.2, fun sl => at_ (.free () sl), ?_⟩
  · have hnd := h.live_nodup
    rw [List.Nodup, List.pairwise_map] at hnd
    refine hnd.imp_of_mem fun hb hc hne => ?_
    have := h.apart hb hc hne
    omega
  · have := h.inside hb
    have := h.hi_end
    omega
  · refine ⟨fun sl => h.pages.lists () sl, fun sl => h.pages.arena.nodup _,
      fun sl sl' p hp hp' => ?_, fun sl p hp b hb he => ?_, fun b hb p hp => ?_,
      fun i hi p hp => ?_, fun p hp => ?_⟩
    · injection h.pages.arena.place_eq hp hp'
    · have := h.pages.arena.place_eq hp ((h.live_iff p).mpr ⟨b, hb, he⟩)
      cases this
    · rcases hp with ⟨sl, hp⟩ | hp
      · exact h.header_apart hb hp
      · exact h.header_apart hb ((h.live_iff p).mpr hp)
    · have hs := hclass _ p hp
      generalize page_size_.get s.mem p = n at hs ⊢
      cases hs
      rfl
    · have hs := hclass _ p hp
      generalize page_size_.get s.mem p = n at hs ⊢
      cases hs
      assumption

/-- **Guarded runs keep blocks apart.** Where no size wraps around with its header,
and no block is reallocated to a smaller one, every state is sound. -/
theorem guarded_sound {b : Backend} {mem : ByteMem} {ops : List Op} {s : State}
    (h : Run step Guarded (shmInit b mem) ops s) : Sound s := (run_inv h).sound

def smallBackend : Backend :=
  { header := 4096, stack_header := 112, custom_header_size := 64, data_size_ := 65536
    fits := by decide, size_lt := by decide }

/-- A freed page is reused for a request of its class, and a block grows. -/
theorem guarded_sound_reuse : ∃ s, Run step Guarded (shmInit smallBackend fun _ => 0)
    [.allocate 100, .allocate 40, .write 4464 7, .free 4304, .allocate 70, .reallocate 4464 500]
      s ∧ Sound s ∧ s.live = [⟨4560, 500⟩, ⟨4304, 70⟩] := by
  have hex : (execOk step Guarded (shmInit smallBackend fun _ => 0)
      [.allocate 100, .allocate 40, .write 4464 7, .free 4304, .allocate 70,
        .reallocate 4464 500]).map (·.live) = some [⟨4560, 500⟩, ⟨4304, 70⟩] := by
    decide +kernel
  obtain ⟨s, hs, hl⟩ := Option.map_eq_some_iff.mp hex
  have hrun := run_of_execOk hs
  exact ⟨s, hrun, guarded_sound hrun, hl⟩

/-- **A wrapped size is served.** The request for `2 ^ 64 - 1` bytes wraps around to
one of 31 bytes, header included, and succeeds. -/
theorem wrapped_size_served : ¬ ∀ (ops : List Op) (s : State),
    Run step Legal (shmInit smallBackend fun _ => 0) ops s → Sound s := by
  intro h
  have hex : (execOk step Legal (shmInit smallBackend fun _ => 0) [.allocate (2 ^ 64 - 1)]).map
      (fun s => s.live.map fun b => (b.size, capacity s.mem b.off)) =
      some [(2 ^ 64 - 1, 0)] := by
    decide +kernel
  obtain ⟨s, hs, hl⟩ := Option.map_eq_some_iff.mp hex
  obtain ⟨b, hb, hbc⟩ := List.mem_map.mp (hl ▸ List.mem_singleton_self _ :
    (2 ^ 64 - 1, 0) ∈ s.live.map fun b => (b.size, capacity s.mem b.off))
  obtain ⟨hsize, hcap⟩ := Prod.mk.inj hbc
  have := (h _ s (run_of_execOk hs)).usable b hb
  omega

end ScalablePageAllocator
end HermesShm.Memory
