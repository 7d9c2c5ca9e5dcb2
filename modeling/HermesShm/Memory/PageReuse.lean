import HermesShm.Memory.Accounting

/-! # Free pages are used again

Runs of the scalable page allocator whose requests are all of one size. A page for
them is freed to the list of its own size, which is the one that the requests search
unless they are smaller than the smallest class. -/
namespace HermesShm.Memory
open HermesShm.Base MpPage

namespace ScalablePageAllocator

/-- The request comes to the heap, and is served there. -/
def takesPage (s : State) (size : Nat) : Bool :=
  match s.global_.allocate s.buf s.mem (requestId size) with
  | some (none, mem, global_) => (subAllocate { s with mem, global_ } (requestId size)).1.isSome
  | _ => false

def Succeeds (s : State) : Op → Prop
  | .allocate size => ∃ p s', allocateOffset s size = some (.ok p, s')
  | .free p => ∃ s', freeOffsetNoNullCheck s p = .ok s'
  | .reallocate p new_size => ∃ q s', reallocateOffsetNoNullCheck s p new_size = some (.ok q, s')
  | .write .. => True

/-- The allocator, with the number of pages that came from the heap. -/
structure Metered where
  alloc : State
  /-- No operation reads it. -/
  taken : Nat := 0

namespace Metered

def start (b : Backend) (mem : ByteMem) : Metered := { alloc := shmInit b mem }

def step (s : Metered) (op : Op) : Option Metered := do
  let alloc ← ScalablePageAllocator.step s.alloc op
  let pages := match op with
    | .allocate size | .reallocate _ size => (takesPage s.alloc size).toNat
    | _ => 0
  some { alloc, taken := s.taken + pages }

/-- Requests for `size` bytes, where at most `n` blocks are in use at any time. -/
def Legal (size n : Nat) (s : Metered) : Op → Prop
  | .allocate size' => size' = size ∧ s.alloc.live.length < n
  | .reallocate .. => False
  | op => ScalablePageAllocator.Legal s.alloc op

/-- No request overflows the counter of the heap. -/
def Guarded (size n : Nat) (s : Metered) (op : Op) : Prop :=
  Legal size n s op ∧ ScalablePageAllocator.Legal s.alloc op

instance (size n : Nat) (s : Metered) (op : Op) : Decidable (Legal size n s op) :=
  match op with
  | .allocate size' => inferInstanceAs (Decidable (size' = size ∧ s.alloc.live.length < n))
  | .reallocate .. => inferInstanceAs (Decidable False)
  | .free p => inferInstanceAs (Decidable (ScalablePageAllocator.Legal s.alloc (.free p)))
  | .write x byte => inferInstanceAs
    (Decidable (ScalablePageAllocator.Legal s.alloc (.write x byte)))

instance (size n : Nat) (s : Metered) (op : Op) : Decidable (Guarded size n s op) := by
  unfold Guarded
  infer_instance

end Metered

/-- The list to which pages for requests of `size` bytes are freed. -/
def home (size : Nat) : Slot := (PageId.ofSize (requestId size).round_).slot

/-- The pages serve requests for `size` bytes: they are all of one length, and those not
in use are in one list. -/
structure Pool (size : Nat) (m : ByteMem) (live : List Block) (at_ : Place Unit → List Nat)
    (taken : Nat) : Prop where
  page_size : ∀ i, ∀ p ∈ at_ i, page_size_.get m p = (requestId size).round_
  elsewhere : ∀ sl, sl ≠ home size → at_ (.free () sl) = []
  count : taken = live.length + (at_ (.free () (home size))).length

def Pooled (size : Nat) (s : State) (live : List Block) (taken : Nat) : Prop :=
  ∃ hi len at_, Blocks s.buf (s.buf + s.heap_.region_off_) s.heap_ s.mem (fun _ : Unit => s.global_)
    live hi len at_ ∧ Pool size s.mem live at_ taken

variable {s s' : State} {live : List Block} {b : Block} {size taken p : Nat}

theorem init_pooled (b : Backend) (mem : ByteMem) (size : Nat) :
    Pooled size (shmInit b mem) [] 0 :=
  ⟨_, _, _, init_blocks b mem, nofun, fun _ _ => rfl, rfl⟩

/-- Requests that are no smaller than the smallest class search the list of their pages. -/
theorem slot_requestId (hn : NoWrap size) (h : 32 < size) : (requestId size).slot = home size := by
  rw [home, requestId_eq hn, PageId.slot_round h]

/-- A page goes to the list of its size. -/
theorem slot_eq_home {sl : Slot} (h : PageSize (requestId size).round_ sl) : sl = home size :=
  (PageId.slot_pageSize h).symm

namespace Pool

variable {m m' : ByteMem} {at_ : Place Unit → List Nat}

/-- Where a request finds no page, all pages are in use. -/
theorem none_free {buf lo hi : Nat} {pas : Unit → PageAllocator} {len : Nat → Nat}
    {pa' : PageAllocator} (h : Pool size m live at_ taken) (hp : Pages buf lo hi m pas len at_)
    (hslot : (requestId size).slot = home size)
    (he : (pas ()).allocate buf m (requestId size) = some (none, m', pa')) :
    taken = live.length := by
  have hshort := hp.none_fits he
  rw [hslot] at hshort
  have hnil : at_ (.free () (home size)) = [] := by
    refine List.eq_nil_iff_forall_not_mem.mpr fun p hp => ?_
    have := hshort p hp
    have := h.page_size _ p hp
    omega
  rw [h.count, hnil]
  rfl

/-- A page goes into use. -/
theorem reuse {sl : Slot} {len : Nat → Nat} {lo hi : Nat} (h : Pool size m live at_ taken)
    (ha : Arena lo hi len at_) (hp : p ∈ at_ (.free () sl))
    (hsize : page_size_.get m' p = (requestId size).round_)
    (hkeep : ∀ i, ∀ q ∈ at_ i, q ≠ p → page_size_.get m' q = page_size_.get m q) (b : Block) :
    Pool size m' (b :: live) (moved at_ (.free () sl) .live p) taken := by
  have hhome : sl = home size := by
    by_contra hne
    rw [h.elsewhere sl hne] at hp
    cases hp
  rw [hhome] at hp ⊢
  have hne : Place.free () (home size) ≠ .live := nofun
  refine ⟨fun i q hq => ?_, fun sl hsl => ?_, ?_⟩
  · rcases (ha.mem_moved hp hne).mp hq with ⟨-, rfl⟩ | ⟨hq, hqp⟩
    · exact hsize
    · exact (hkeep i q hq hqp).trans (h.page_size i q hq)
  · rw [moved, Function.update_of_ne (by simp), Function.update_of_ne (by simpa using hsl)]
    exact h.elsewhere sl hsl
  · have hpos := List.length_pos_of_mem hp
    rw [moved, Function.update_of_ne hne, Function.update_self, List.length_erase_of_mem hp,
      List.length_cons, h.count]
    omega

/-- A page comes from the heap. -/
theorem fresh (h : Pool size m live at_ taken)
    (hsize : page_size_.get m' p = (requestId size).round_)
    (hkeep : ∀ i, ∀ q ∈ at_ i, page_size_.get m' q = page_size_.get m q) (b : Block) :
    Pool size m' (b :: live) (Function.update at_ .live (p :: at_ .live)) (taken + 1) := by
  have hfree : ∀ sl, Function.update at_ Place.live (p :: at_ .live) (.free () sl) =
      at_ (.free () sl) := fun sl => Function.update_of_ne (by simp) ..
  refine ⟨fun i q hq => ?_, fun sl hsl => (hfree sl).trans (h.elsewhere sl hsl), ?_⟩
  · by_cases hi : i = .live
    · subst hi
      rw [Function.update_self] at hq
      rcases List.mem_cons.mp hq with rfl | hq
      · exact hsize
      · exact (hkeep _ q hq).trans (h.page_size _ q hq)
    · rw [Function.update_of_ne hi] at hq
      exact (hkeep i q hq).trans (h.page_size i q hq)
  · rw [hfree, List.length_cons, h.count]
    omega

/-- A block is freed. -/
theorem free {live' : List Block} {len : Nat → Nat} {lo hi : Nat} (h : Pool size m live at_ taken)
    (ha : Arena lo hi len at_) (hp : p ∈ at_ .live)
    (hsame : ∀ i, ∀ q ∈ at_ i, page_size_.get m' q = page_size_.get m q)
    (hlive : live.length = live'.length + 1) :
    Pool size m' live' (moved at_ .live (.free () (home size)) p) taken := by
  have hne : Place.live ≠ Place.free () (home size) := nofun
  refine ⟨fun i q hq => ?_, fun sl hsl => ?_, ?_⟩
  · rcases (ha.mem_moved hp hne).mp hq with ⟨-, rfl⟩ | ⟨hq, -⟩
    · exact (hsame _ q hp).trans (h.page_size _ q hp)
    · exact (hsame i q hq).trans (h.page_size i q hq)
  · rw [moved, Function.update_of_ne (by simpa using hsl), Function.update_of_ne (by simp)]
    exact h.elsewhere sl hsl
  · rw [moved, Function.update_self, List.length_cons, h.count]
    omega

/-- The headers keep their sizes. -/
theorem congr (h : Pool size m live at_ taken)
    (hsame : ∀ i, ∀ q ∈ at_ i, page_size_.get m' q = page_size_.get m q) :
    Pool size m' live at_ taken :=
  { h with page_size := fun i q hq => (hsame i q hq).trans (h.page_size i q hq) }

end Pool

/-! ## Operations -/

/-- What a request does to the pages. -/
theorem Pooled.allocate (h : Pooled size s live taken) (hr : Request s size) (hn : NoWrap size) :
    ∃ r s', allocateOffset s size = some (r, s') ∧ s'.live = s.live ∧
      ((∃ p, r = .ok p ∧ takesPage s size = false ∧ s'.heap_ = s.heap_ ∧
          Pooled size s' (⟨p, size⟩ :: live) taken) ∨
        ((requestId size).slot = home size → taken = live.length) ∧
          s'.heap_ = { s.heap_ with heap_off_ := s.heap_.heap_off_ + (requestId size).round_ } ∧
          ((∃ p, r = .ok p ∧ takesPage s size = true ∧
              Pooled size s' (⟨p, size⟩ :: live) (taken + 1)) ∨
            ∃ e, r = .error e ∧ takesPage s size = false ∧ Pooled size s' live taken ∧
              s.heap_.heap_size_ < s.heap_.heap_off_ + (requestId size).round_)) := by
  obtain ⟨hi, len, at_, hb, hpool⟩ := h
  obtain ⟨r, s', he, hl, -, ho⟩ := allocateOffset_cases hb hr hn
  refine ⟨r, s', he, hl, ?_⟩
  cases ho with
  | refused hnone ha hheap hfull hsame hb' =>
    refine .inr ⟨fun hslot => hpool.none_free hb.pages hslot hnone, hheap, .inr ⟨_, rfl, ?_,
      ⟨_, _, _, hb', hsame ▸ hpool⟩, hfull⟩⟩
    simp only [takesPage, hnone, subAllocate, ha, Option.map_none, Option.isSome_none]
  | @fresh pa' p off hi' len' hnone ha hheap hafter hsame hsize hb' =>
    have hkeep : ∀ i, ∀ q ∈ at_ i, page_size_.get s'.mem q = page_size_.get s.mem q :=
      fun i q hq => page_size_.get_congr (hsame.sameOn (.inr (hafter i q hq)))
    refine .inr ⟨fun hslot => hpool.none_free hb.pages hslot hnone, hheap, .inl ⟨_, rfl, ?_,
      ⟨hi', len', _, hb', hpool.fresh hsize hkeep _⟩⟩⟩
    simp only [takesPage, hnone, subAllocate, ha, Option.map_some, Option.isSome_some]
  | @reused pa' m₁ sl p hi' len' hfound hheap hp hu hsame hsize hb' =>
    have hkeep : ∀ i, ∀ q ∈ at_ i, q ≠ p → page_size_.get s'.mem q = page_size_.get s.mem q := by
      intro i q hq hqp
      rw [page_size_.get_congr (hsame.sameOn (hb.pages.headers_apart hp hq hqp.symm)),
        (hb.pages.unlinked hu (fun r hr => hr) hq).1 _ (by decide)]
    refine .inl ⟨_, rfl, ?_, hheap, ⟨hi', len', _, hb',
      hpool.reuse hb.pages.arena hp hsize hkeep _⟩⟩
    simp only [takesPage, hfound]

theorem length_dropBlock (hnd : (live.map (·.off)).Nodup) (hb : b ∈ live) :
    live.length = (dropBlock live b.off).length + 1 :=
  (perm_dropBlock hnd hb).length_eq

/-- A block that is freed goes to the list of its size. -/
theorem Pooled.free (h : Pooled size s live taken) (hb : b ∈ live) :
    ∃ s', freeOffsetNoNullCheck s b.off = .ok s' ∧ s'.live = s.live ∧ s'.heap_ = s.heap_ ∧
      Pooled size s' (dropBlock live b.off) taken := by
  obtain ⟨hi, len, at_, hbs, hpool⟩ := h
  obtain ⟨sl, m', pa', he, hm, hkeep, hbs'⟩ := hbs.release hb ()
  rw [update_unit] at hbs'
  have hp := hbs.page hb
  have halloc := hbs.pages.live _ hp
  have hsame : ∀ i, ∀ q ∈ at_ i, page_size_.get m' q = page_size_.get s.mem q := by
    intro i q hq
    by_cases hqp : q = b.off - mpPage
    · rw [hqp]
      exact hkeep page_size_ (by decide) (by decide)
    · exact page_size_.get_congr (hm.sameOn (hbs.pages.headers_apart hp hq (Ne.symm hqp)))
  have hsl : sl = home size := by
    have hmem : b.off - mpPage ∈ moved at_ .live (.free () sl) (b.off - mpPage) (.free () sl) := by
      rw [moved, Function.update_self]
      exact List.mem_cons_self
    obtain ⟨sl', hs, hsl⟩ := hbs'.pages.size _ _ hmem
    rw [hsame _ _ hp, hpool.page_size _ _ hp] at hs
    rw [hsl () sl rfl]
    exact slot_eq_home hs
  rw [hsl] at hbs'
  refine ⟨{ s with
    mem := m', global_ := pa'
    total_alloc_ := wordSub sizeT s.total_alloc_
      (page_size_.get (unsetAllocated s.mem (b.off - mpPage)) (b.off - mpPage)) },
    ?_, rfl, rfl, hi, len, _, hbs',
    hpool.free hbs.pages.arena hp hsame (length_dropBlock hbs.live_nodup hb)⟩
  simp only [freeOffsetNoNullCheck, halloc, Bool.not_true, Bool.false_eq_true, if_false, he]

theorem Pooled.write (h : Pooled size s live taken) (hb : b ∈ live) {m' : ByteMem}
    (hm : s.mem.SameOff m' b.off (capacity s.mem b.off)) :
    Pooled size { s with mem := m' } live taken := by
  obtain ⟨hi, len, at_, hbs, hpool⟩ := h
  refine ⟨hi, len, at_, hbs.write hb hm, hpool.congr fun i q hq => ?_⟩
  exact page_size_.get_congr (hm.sameOn (hbs.header_apart hb hq).symm)

/-! ## Runs -/

namespace Metered

/-- A run with at most `n` blocks in use, in a heap of `total` bytes, has taken at most `n`
pages; where these fit, the heap was not asked for more. -/
structure Steady (size n total : Nat) (s : Metered) : Prop where
  pooled : Pooled size s.alloc s.alloc.live s.taken
  bound : s.taken ≤ n
  heap_size : s.alloc.heap_.heap_size_ = total
  heap_off : n * (requestId size).round_ ≤ total →
    s.alloc.heap_.heap_off_ = s.taken * (requestId size).round_

variable {s s' : Metered} {n total : Nat} {op : Op}

theorem start_steady (b : Backend) (mem : ByteMem) (size n : Nat) :
    Steady size n b.heap.heap_size_ (start b mem) := by
  have hoff : (shmInit b mem).heap_.heap_off_ = 0 := show wordAdd sizeT 0 4095 / 4096 * 4096 = 0 by
    decide
  exact ⟨init_pooled b mem size, Nat.zero_le n, rfl, fun _ => hoff.trans (Nat.zero_mul _).symm⟩

namespace Steady

/-- A page more fits where the pages taken are all in use. -/
theorem room (h : Steady size n total s) (hroom : n * (requestId size).round_ ≤ total)
    (hlen : s.alloc.live.length < n) (hall : s.taken = s.alloc.live.length) :
    s.alloc.heap_.heap_off_ + (requestId size).round_ ≤ total := by
  rw [h.heap_off hroom, ← Nat.succ_mul]
  exact Nat.le_trans (Nat.mul_le_mul_right _ (hall ▸ hlen)) hroom

/-- Where `n` pages fit, no request overflows the counter of the heap. -/
theorem guarded (h : Steady size n total s) (hpos : 1 ≤ size) (hn : NoWrap size)
    (hslot : (requestId size).slot = home size) (hroom : n * (requestId size).round_ ≤ total)
    (hl : Legal size n s op) : Guarded size n s op := by
  refine ⟨hl, ?_⟩
  cases op with
  | allocate size' =>
    obtain ⟨rfl, hlen⟩ := hl
    obtain ⟨hi, len, at_, hb, hpool⟩ := h.pooled
    refine ⟨hpos, Nat.lt_of_le_of_lt (Nat.le_add_right ..) hn, fun hnone => ?_⟩
    obtain ⟨⟨page, m', pa'⟩, he, hpage⟩ := Option.map_eq_some_iff.mp hnone
    obtain rfl : page = none := hpage
    have hfit := h.room hroom hlen (hpool.none_free hb.pages hslot he)
    have := hb.end_lt
    have := h.heap_size
    omega
  | free p => exact hl
  | reallocate p new_size => exact hl.elim
  | write x byte => exact hl

theorem step (h : Steady size n total s) (hn : NoWrap size)
    (hslot : (requestId size).slot = home size) (hg : Guarded size n s op) :
    ∃ s', Metered.step s op = some s' ∧ Steady size n total s' ∧
      (n * (requestId size).round_ ≤ total → Succeeds s.alloc op) := by
  cases op with
  | allocate size' =>
    obtain ⟨⟨rfl, hlen⟩, hr⟩ := hg
    obtain ⟨r, a, he, hl, ⟨p, rfl, ht, hheap, hp⟩ | ⟨hall, hheap, ⟨p, rfl, ht, hp⟩ |
      ⟨e, rfl, ht, hp, hfull⟩⟩⟩ := h.pooled.allocate hr hn
    · refine ⟨⟨{ a with live := ⟨p, size'⟩ :: a.live }, s.taken⟩, ?_,
        ⟨hl ▸ hp, h.bound, hheap ▸ h.heap_size, hheap ▸ h.heap_off⟩, fun _ => ⟨p, a, he⟩⟩
      simp only [Metered.step, ScalablePageAllocator.step, he, ht, Option.bind_eq_bind,
        Option.bind_some, Bool.toNat_false, Nat.add_zero]
    · refine ⟨⟨{ a with live := ⟨p, size'⟩ :: a.live }, s.taken + 1⟩, ?_,
        ⟨hl ▸ hp, hall hslot ▸ hlen, hheap ▸ h.heap_size, fun hroom => ?_⟩, fun _ => ⟨p, a, he⟩⟩
      · simp only [Metered.step, ScalablePageAllocator.step, he, ht, Option.bind_eq_bind,
          Option.bind_some, Bool.toNat_true]
      · simp only [hheap]
        rw [h.heap_off hroom, Nat.succ_mul]
    · -- a refusal
      have hnot : ¬ n * (requestId size').round_ ≤ total := fun hroom => by
        have := h.room hroom hlen (hall hslot)
        have := h.heap_size
        omega
      refine ⟨⟨a, s.taken⟩, ?_, ⟨hl ▸ hp, h.bound, hheap ▸ h.heap_size,
        fun hroom => absurd hroom hnot⟩, fun hroom => absurd hroom hnot⟩
      simp only [Metered.step, ScalablePageAllocator.step, he, ht, Option.bind_eq_bind,
        Option.bind_some, Bool.toNat_false, Nat.add_zero]
  | free p =>
    obtain ⟨⟨b, hb, rfl⟩, -⟩ := hg
    obtain ⟨a, he, hl, hheap, hp⟩ := h.pooled.free hb
    refine ⟨⟨{ a with live := dropBlock a.live b.off }, s.taken⟩, ?_,
      ⟨hl ▸ hp, h.bound, hheap ▸ h.heap_size, hheap ▸ h.heap_off⟩, fun _ => ⟨a, he⟩⟩
    simp only [Metered.step, ScalablePageAllocator.step, he, Option.bind_eq_bind, Option.bind_some,
      Nat.add_zero]
  | reallocate p new_size => exact hg.1.elim
  | write x byte =>
    obtain ⟨⟨b, hb, hx, hx'⟩, -⟩ := hg
    refine ⟨⟨{ s.alloc with mem := Function.update s.alloc.mem x byte }, s.taken⟩, rfl,
      ⟨h.pooled.write hb fun y hy => Function.update_of_ne ?_ .., h.bound, h.heap_size,
        h.heap_off⟩, fun _ => trivial⟩
    omega

end Steady

/-- The pages that runs with `size` take are as few as the blocks in use, and where these
fit into the heap, no call of a run fails. -/
structure Reuses (b : Backend) (mem : ByteMem) (size n : Nat) : Prop where
  bounded : ∀ ops s, Run step (Guarded size n) (start b mem) ops s → s.taken ≤ n
  served : n * (requestId size).round_ ≤ b.heap.heap_size_ → ∀ ops s,
    Run step (Legal size n) (start b mem) ops s →
      s.taken ≤ n ∧ ∀ op, Legal size n s op → Succeeds s.alloc op

theorem reuses (b : Backend) (mem : ByteMem) (n : Nat) (hn : NoWrap size) (h : 32 < size) :
    Reuses b mem size n := by
  have hslot := slot_requestId hn h
  have hkeep : ∀ s op s', Steady size n b.heap.heap_size_ s → Guarded size n s op →
      step s op = some s' → Steady size n b.heap.heap_size_ s' := fun s op s' hs hg hstep => by
    obtain ⟨s₁, he, hs₁, -⟩ := hs.step hn hslot hg
    rw [hstep] at he
    cases he
    exact hs₁
  refine ⟨fun ops s hr => (hr.invariant (start_steady b mem size n) hkeep).bound,
    fun hroom ops s hr => ?_⟩
  have hpos : 1 ≤ size := by omega
  have hs := hr.invariant (start_steady b mem size n) fun s op s' hs hl =>
    hkeep s op s' hs (hs.guarded hpos hn hslot hroom hl)
  refine ⟨hs.bound, fun op hl => ?_⟩
  obtain ⟨-, -, -, hok⟩ := hs.step hn hslot (hs.guarded hpos hn hslot hroom hl)
  exact hok hroom

/-- Requests below the smallest class take a second page, where the first one is free. -/
theorem small_takes_two : ∀ size < 33, 1 ≤ size →
    (execOk step (Guarded size 1) (start smallBackend fun _ => 0)
      [.allocate size, .free 4304, .allocate size]).map (·.taken) = some 2 := by
  decide +kernel

/-- **Free pages are used again** exactly by requests that are not below the smallest class. -/
theorem reuses_iff (hpos : 1 ≤ size) (hn : NoWrap size) :
    (∀ b mem n, Reuses b mem size n) ↔ 32 < size := by
  refine ⟨fun h => ?_, fun h b mem n => reuses b mem n hn h⟩
  by_contra hsmall
  obtain ⟨s, hs, htaken⟩ := Option.map_eq_some_iff.mp (small_takes_two size (by omega) hpos)
  have := (h smallBackend (fun _ => 0) 1).bounded _ s (run_of_execOk hs)
  omega

theorem reuses_iff_forty : ¬ (∀ b mem n, Reuses b mem 1 n) ∧ ∀ b mem n, Reuses b mem 40 n := by
  have hn1 : NoWrap 1 := by
    unfold NoWrap
    decide
  have hn40 : NoWrap 40 := by
    unfold NoWrap
    decide
  exact ⟨fun h => absurd ((reuses_iff (Nat.le_refl 1) hn1).mp h) (by decide),
    (reuses_iff (by decide) hn40).mpr (by decide)⟩

/-- **A small page is not used again.** With one block in use at a time, requests for one
byte take a second page. -/
theorem one_byte_takes_two : ¬ ∀ b mem size n, 1 ≤ size → ∀ ops s,
    Run step (Legal size n) (start b mem) ops s → s.taken ≤ n := by
  intro h
  obtain ⟨s, hs, htaken⟩ := Option.map_eq_some_iff.mp (small_takes_two 1 (by decide) (by decide))
  have := h smallBackend (fun _ => 0) 1 1 (by decide) _ s
    ((run_of_execOk hs).mono fun _ _ hg => hg.1)
  omega

end Metered
end ScalablePageAllocator
end HermesShm.Memory
