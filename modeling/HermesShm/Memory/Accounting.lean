import HermesShm.Memory.ScalablePageAllocatorSound
import HermesShm.Memory.ThreadLocalPlacement

/-! # The allocated size

With `HSHM_ALLOC_TRACK_SIZE`, an allocation adds the rounded size of its request to
`total_alloc_`, and freeing a block subtracts the size in its header. -/
namespace HermesShm.Memory
open HermesShm.Base MpPage

/-- What was added for the blocks in use. -/
def addedSize (live : List Block) : Nat := (live.map fun b => (requestId b.size).round_).sum

/-- The headers of the blocks in use have the sizes that were added, and `total` is
their sum. -/
structure Booked (m : ByteMem) (live : List Block) (total : Nat) : Prop where
  page_size : ∀ b ∈ live, page_size_.get m (b.off - mpPage) = (requestId b.size).round_
  total : total = addedSize live

/-- The block at the offset of `b` is `b`. -/
theorem perm_dropBlock {live : List Block} {b : Block} (hnd : (live.map (·.off)).Nodup)
    (hb : b ∈ live) : live.Perm (b :: dropBlock live b.off) := by
  induction live with
  | nil => cases hb
  | cons c live ih =>
    obtain ⟨hc, hnd⟩ := List.nodup_cons.mp hnd
    rw [dropBlock, List.filter_cons]
    rcases List.mem_cons.mp hb with rfl | hb
    · have hrest : live.filter (·.off ≠ b.off) = live := by
        refine List.filter_eq_self.mpr fun d hd => decide_eq_true fun he => ?_
        exact hc (List.mem_map.mpr ⟨d, hd, he⟩)
      rw [if_neg (by simp), hrest]
    · have hne : c.off ≠ b.off := fun he => hc (List.mem_map.mpr ⟨b, hb, he.symm⟩)
      rw [if_pos (by simpa using hne)]
      exact ((ih hnd hb).cons c).trans (.swap b c _)

namespace Booked

variable {κ : Type} {buf lo hi : Nat} {heap : HeapAllocator} {m m' : ByteMem}
  {pas : κ → PageAllocator} {live : List Block} {len : Nat → Nat} {at_ : Place κ → List Nat}
  {b : Block} {total p size : Nat}

theorem empty (m : ByteMem) : Booked m [] 0 := ⟨nofun, rfl⟩

/-- The headers are as they were. -/
theorem congr (h : Booked m live total)
    (hm : ∀ b ∈ live, page_size_.get m' (b.off - mpPage) = page_size_.get m (b.off - mpPage)) :
    Booked m' live total :=
  { h with page_size := fun b hb => (hm b hb).trans (h.page_size b hb) }

/-- A block is allocated. The sum does not wrap, as all pages are in one heap. -/
theorem add (h : Booked m live total)
    (hb : Blocks buf lo heap m' pas (⟨p, size⟩ :: live) hi len at_)
    (hm : ∀ b ∈ live, page_size_.get m' (b.off - mpPage) = page_size_.get m (b.off - mpPage))
    (hp : page_size_.get m' (p - mpPage) = (requestId size).round_) :
    Booked m' (⟨p, size⟩ :: live) (wordAdd sizeT total (requestId size).round_) := by
  have hsize : ∀ b ∈ (⟨p, size⟩ : Block) :: live,
      page_size_.get m' (b.off - mpPage) = (requestId b.size).round_ := fun b hb => by
    rcases List.mem_cons.mp hb with rfl | hb
    · exact hp
    · exact (hm b hb).trans (h.page_size b hb)
  have hsum : addedSize (⟨p, size⟩ :: live) = total + (requestId size).round_ := by
    rw [h.total, Nat.add_comm]
    rfl
  have hlt := hb.sum_page_size_lt
  rw [List.map_congr_left hsize] at hlt
  have hlt : total + (requestId size).round_ < sizeT := hsum ▸ hlt
  exact ⟨hsize, (wordAdd_of_lt hlt).trans hsum.symm⟩

/-- A block is freed. -/
theorem drop (h : Booked m live total) (hnd : (live.map (·.off)).Nodup) (hb : b ∈ live)
    (hm : ∀ c ∈ dropBlock live b.off,
      page_size_.get m' (c.off - mpPage) = page_size_.get m (c.off - mpPage)) :
    Booked m' (dropBlock live b.off)
      (wordSub sizeT total (page_size_.get m (b.off - mpPage))) where
  page_size c hc := (hm c hc).trans (h.page_size c (List.mem_of_mem_filter hc))
  total := by
    have hsum : addedSize live = (requestId b.size).round_ + addedSize (dropBlock live b.off) :=
      ((perm_dropBlock hnd hb).map _).sum_eq
    rw [h.page_size b hb, h.total, hsum, wordSub_of_le (Nat.le_add_right ..),
      Nat.add_sub_cancel_left]

end Booked

namespace Blocks

variable {κ : Type} {buf lo hi : Nat} {heap : HeapAllocator} {m m' : ByteMem}
  {pas : κ → PageAllocator} {live : List Block} {len : Nat → Nat} {at_ : Place κ → List Nat}
  {b c : Block} {k : κ}

/-- Freeing a block leaves the headers of the others. -/
theorem header_free (h : Blocks buf lo heap m pas live hi len at_) (hb : b ∈ live)
    (hm : m.SameOff m' (b.off - mpPage) mpPage) (hc : c ∈ dropBlock live b.off) :
    page_size_.get m' (c.off - mpPage) = page_size_.get m (c.off - mpPage) := by
  obtain ⟨hc, hne⟩ := List.mem_filter.mp hc
  have hne : c.off ≠ b.off := by simpa using hne
  have := h.off_le b hb
  have := h.off_le c hc
  exact page_size_.get_congr
    (hm.sameOn (h.pages.headers_apart (h.page hb) (h.page hc) (by omega)))

/-- A new block leaves the headers of the others. -/
theorem header_taken {heap' : HeapAllocator} {pas' : κ → PageAllocator} {lo' hi' : Nat}
    {len' : Nat → Nat} {at' : Place κ → List Nat} (h : Blocks buf lo heap m pas live hi len at_)
    (h' : Blocks buf lo' heap' m' pas' (c :: live) hi' len' at')
    (ht : Taken buf m m' (pas k) (c.off - mpPage)) (hb : b ∈ live) :
    page_size_.get m' (b.off - mpPage) = page_size_.get m (b.off - mpPage) := by
  have hoff := h.off_le b hb
  exact page_size_.get_congr fun x hx hx' => (h.taken_same h' ht hb).2 x hx (by omega)

/-- Writing to a block leaves all headers. -/
theorem header_write (h : Blocks buf lo heap m pas live hi len at_) (hb : b ∈ live)
    (hm : m.SameOff m' b.off (capacity m b.off)) (hc : c ∈ live) :
    page_size_.get m' (c.off - mpPage) = page_size_.get m (c.off - mpPage) :=
  page_size_.get_congr (hm.sameOn (h.header_apart hb (h.page hc)).symm)

end Blocks

/-! ## The scalable page allocator -/

namespace ScalablePageAllocator

def getCurrentlyAllocatedSize (s : State) : Nat := s.total_alloc_

/-- The invariant with `live` in use, and its sizes. -/
def Books (s : State) (live : List Block) : Prop :=
  Inv s live ∧ Booked s.mem live s.total_alloc_

variable {s s' : State} {live : List Block} {b : Block} {size p n : Nat}

/-- An allocation that succeeds adds the rounded size. -/
theorem allocateOffset_ok (h : allocateOffset s size = some (.ok p, s')) :
    s'.total_alloc_ = wordAdd sizeT s.total_alloc_ (requestId size).round_ := by
  obtain ⟨⟨page, mem, global_⟩, -, h⟩ := Option.bind_eq_some_iff.mp h
  cases page with
  | some page =>
    cases h
    rfl
  | none =>
    simp only [subAllocate] at h
    split at h <;> cases h
    rfl

/-- One that fails changes nothing but the counter of the heap. -/
theorem allocateOffset_error {e : Error} (h : allocateOffset s size = some (.error e, s')) :
    (s.heap_.allocateOffset (requestId size).round_).1 = none ∧
      s' = { s with heap_ := (s.heap_.allocateOffset (requestId size).round_).2 } := by
  obtain ⟨⟨page, mem, global_⟩, ha, h⟩ := Option.bind_eq_some_iff.mp h
  cases page with
  | some page => cases h
  | none =>
    obtain ⟨rfl, rfl⟩ := PageAllocator.allocate_none ha
    simp only [subAllocate] at h
    split at h
    · rename_i hnone
      cases h
      exact ⟨Option.map_eq_none_iff.mp hnone, rfl⟩
    · cases h

/-- Freeing a block subtracts the size in its header. -/
theorem freeOffset_total (h : freeOffsetNoNullCheck s p = .ok s') :
    s'.total_alloc_ = wordSub sizeT s.total_alloc_ (page_size_.get s.mem (p - mpPage)) := by
  simp only [freeOffsetNoNullCheck] at h
  split at h
  · cases h
  · cases h
    simp only [unsetAllocated]
    rw [Field.get_set_apart (by decide)]

namespace Books

theorem allocate (h : Books s live) (hr : Request s size) (hn : NoWrap size) :
    ∃ r s', allocateOffset s size = some (r, s') ∧ s'.live = s.live ∧
      ((∃ e, r = .error e ∧ Books s' live) ∨
        ∃ p, r = .ok p ∧ Allocated s live size p s' ∧ Books s' (⟨p, size⟩ :: live)) := by
  obtain ⟨r, s', he, ⟨e, rfl, hi', hl⟩ | ⟨p, rfl, ha⟩⟩ := allocateOffset_spec h.1 hr hn
  · obtain ⟨-, rfl⟩ := allocateOffset_error he
    exact ⟨_, _, he, hl, .inl ⟨e, rfl, hi', h.2⟩⟩
  · obtain ⟨hi, len, at_, hbs⟩ := h.1
    obtain ⟨hi', len', at', hbs'⟩ := ha.inv
    rw [ha.buf] at hbs'
    refine ⟨_, s', he, ha.live, .inr ⟨p, rfl, ha, ha.inv, ?_⟩⟩
    rw [allocateOffset_ok he]
    exact h.2.add hbs' (fun c hc => hbs.header_taken (k := ()) (c := ⟨p, size⟩) hbs' ha.taken hc)
      ha.page_size

theorem free (h : Books s live) (hb : b ∈ live) :
    ∃ s', freeOffsetNoNullCheck s b.off = .ok s' ∧ s'.live = s.live ∧
      Books s' (dropBlock live b.off) := by
  obtain ⟨s', he, hl, hi', hm⟩ := freeOffset_spec h.1 hb
  obtain ⟨hi, len, at_, hbs⟩ := h.1
  refine ⟨s', he, hl, hi', ?_⟩
  rw [freeOffset_total he]
  exact h.2.drop hbs.live_nodup hb fun c hc => hbs.header_free hb hm hc

theorem reallocate (h : Books s live) (hb : b ∈ live) (hr : Request s n) (hn : NoWrap n)
    (hg : Grows s b.off n) :
    ∃ r s', reallocateOffsetNoNullCheck s b.off n = some (r, s') ∧ s'.live = s.live ∧
      ((∃ e, r = .error e ∧ Books s' live) ∨
        ∃ q, r = .ok q ∧ Books s' (⟨q, n⟩ :: dropBlock live b.off)) := by
  obtain ⟨r, s₁, he, hl₁, ⟨e, rfl, h₁⟩ | ⟨q, rfl, ha, h₁⟩⟩ := h.allocate hr hn
  · refine ⟨_, s₁, ?_, hl₁, .inl ⟨e, rfl, h₁⟩⟩
    simp only [reallocateOffsetNoNullCheck, he, Option.bind_eq_bind, Option.bind_some]
  obtain ⟨hi₁, len₁, at₁, hbs₁⟩ := ha.inv
  have hgrow : capacity s.mem b.off ≤ capacity s₁.mem q := by
    rw [capacity, capacity, ha.page_size]
    exact Nat.sub_le_sub_right hg mpPage
  obtain ⟨hcap, hi₂⟩ := h.1.copied hb ha hgrow
  have hcopy := (s₁.mem.copy_sameOff q b.off (capacity s.mem b.off)).mono (Nat.le_refl _)
    (Nat.add_le_add_left hgrow _)
  have h₂ : Books { s₁ with mem := s₁.mem.copy q b.off (capacity s.mem b.off) }
      (⟨q, n⟩ :: live) :=
    ⟨hi₂, h₁.2.congr fun c hc => hbs₁.header_write (b := ⟨q, n⟩) List.mem_cons_self hcopy hc⟩
  have hne : q ≠ b.off := fun he => (List.nodup_cons.mp hbs₁.live_nodup).1
    (List.mem_map.mpr ⟨b, hb, he.symm⟩)
  obtain ⟨s₃, he₃, hl₃, h₃⟩ := h₂.free (List.mem_cons_of_mem _ hb)
  rw [dropBlock, List.filter_cons_of_pos (by simpa using hne)] at h₃
  refine ⟨.ok q, s₃, ?_, hl₃.trans hl₁, .inr ⟨q, rfl, h₃⟩⟩
  simp only [reallocateOffsetNoNullCheck, he, Option.bind_eq_bind, Option.bind_some, hcap, he₃]

theorem step {op : Op} (h : Books s s.live) (hg : Guarded s op)
    (hs : ScalablePageAllocator.step s op = some s') : Books s' s'.live := by
  cases op with
  | allocate size =>
    obtain ⟨r, s₁, he, hl, ⟨e, rfl, h₁⟩ | ⟨p, rfl, -, h₁⟩⟩ := h.allocate hg.1 hg.2
    · simp only [ScalablePageAllocator.step, he, Option.bind_eq_bind, Option.bind_some,
        Option.some.injEq] at hs
      exact hs ▸ hl ▸ h₁
    · simp only [ScalablePageAllocator.step, he, Option.bind_eq_bind, Option.bind_some,
        Option.some.injEq] at hs
      subst hs
      rw [hl]
      exact h₁
  | free p =>
    obtain ⟨b, hb, rfl⟩ := hg
    obtain ⟨s₁, he, hl, h₁⟩ := h.free hb
    simp only [ScalablePageAllocator.step, he, Option.some.injEq] at hs
    subst hs
    rw [hl]
    exact h₁
  | reallocate p n =>
    obtain ⟨⟨b, hb, rfl⟩, hr, hn, hgrow⟩ := hg
    obtain ⟨r, s₁, he, hl, ⟨e, rfl, h₁⟩ | ⟨q, rfl, h₁⟩⟩ := h.reallocate hb hr hn hgrow
    · simp only [ScalablePageAllocator.step, he, Option.bind_eq_bind, Option.bind_some,
        Option.some.injEq] at hs
      exact hs ▸ hl ▸ h₁
    · simp only [ScalablePageAllocator.step, he, Option.bind_eq_bind, Option.bind_some,
        Option.some.injEq] at hs
      subst hs
      rw [hl]
      exact h₁
  | write x byte =>
    obtain ⟨b, hb, hx, hx'⟩ := hg
    obtain ⟨hi, len, at_, hbs⟩ := h.1
    cases hs
    have hm : s.mem.SameOff (Function.update s.mem x byte) b.off (capacity s.mem b.off) :=
      fun y hy => Function.update_of_ne (by omega) ..
    exact ⟨⟨hi, len, at_, hbs.write hb hm⟩, h.2.congr fun c hc => hbs.header_write hb hm hc⟩

end Books

theorem run_books {b : Backend} {mem : ByteMem} {ops : List Op}
    (h : Run step Guarded (shmInit b mem) ops s) : Books s s.live :=
  h.invariant (I := fun s => Books s s.live) ⟨init_inv b mem, .empty mem⟩
    fun _ _ _ h hg hs => h.step hg hs

end ScalablePageAllocator

/-! ## The thread-local allocator -/

namespace ThreadLocalAllocator

def getCurrentlyAllocatedSize (s : State) : Nat := s.total_alloc_

/-- The page that serves a request has the rounded size in its header. -/
def InStep (s : State) (tid size : Nat) : Prop := servedSize s tid size = (requestId size).round_

/-- The condition on a call, beside that for blocks that are placed well. -/
def Exact (s : State) : Nat × Op → Prop
  | (tid, .allocate size) => Guarded s (tid, .allocate size) ∧ InStep s tid size
  | (tid, .reallocate p new_size) =>
    Guarded s (tid, .reallocate p new_size) ∧ InStep s tid new_size
  | op => Guarded s op

instance (s : State) (tid size : Nat) : Decidable (InStep s tid size) :=
  inferInstanceAs (Decidable (_ = _))

instance (s : State) (op : Nat × Op) : Decidable (Exact s op) :=
  match op with
  | (tid, .allocate size) => inferInstanceAs
    (Decidable (Guarded s (tid, .allocate size) ∧ InStep s tid size))
  | (tid, .reallocate p new_size) => inferInstanceAs
    (Decidable (Guarded s (tid, .reallocate p new_size) ∧ InStep s tid new_size))
  | (tid, .free p) => inferInstanceAs (Decidable (Guarded s (tid, .free p)))
  | (tid, .write x byte) => inferInstanceAs (Decidable (Guarded s (tid, .write x byte)))

/-- The invariant with `live` in use, and its sizes. -/
def Books (b : Backend) (page_alloc_size : Nat) (s : State) (live : List Block) : Prop :=
  Inv b page_alloc_size s live ∧ Booked s.mem live s.total_alloc_

variable {b : Backend} {page_alloc_size max_threads : Nat} {mem : ByteMem} {s s' : State}
  {live : List Block} {c : Block} {tid size p n : Nat}

/-- Neither heap books its page, and a refused request changes no header. -/
theorem allocateHeap_kept (s : State) (tid : Nat) (page_id : PageId) :
    (allocateHeap s tid page_id).2.total_alloc_ = s.total_alloc_ ∧
      ((allocateHeap s tid page_id).1 = none → (allocateHeap s tid page_id).2.mem = s.mem) := by
  unfold allocateHeap
  cases h : ((s.tls_ tid).allocateHeap page_id).1 with
  | some page => simp only [h]; exact ⟨rfl, nofun⟩
  | none => simp only [h]; exact ⟨rfl, fun _ => rfl⟩

theorem subAllocate_kept (s : State) (tid : Nat) (page_id : PageId) :
    (subAllocate s tid page_id).2.total_alloc_ = s.total_alloc_ ∧
      ((subAllocate s tid page_id).1 = none → (subAllocate s tid page_id).2.mem = s.mem) := by
  unfold subAllocate
  cases h : (s.heap_.allocateOffset page_id.round_).1 with
  | some off => simp only [h]; exact ⟨rfl, nofun⟩
  | none => simp only [h]; exact ⟨trivial, fun _ => trivial⟩

/-- An allocation that succeeds adds the rounded size, and one that fails changes no
header and adds nothing. -/
theorem allocateOffset_kept {r : Except Error Nat} (h : allocateOffset s tid size = some (r, s')) :
    (∀ p, r = .ok p → s'.total_alloc_ = wordAdd sizeT s.total_alloc_ (requestId size).round_) ∧
      ∀ e, r = .error e → s'.mem = s.mem ∧ s'.total_alloc_ = s.total_alloc_ := by
  obtain ⟨page_alloc, -, h⟩ := Option.bind_eq_some_iff.mp h
  obtain ⟨⟨page, mem, page_alloc'⟩, ha, h⟩ := Option.bind_eq_some_iff.mp h
  cases page with
  | some page =>
    cases h
    exact ⟨fun _ _ => rfl, nofun⟩
  | none =>
    obtain ⟨rfl, -⟩ := PageAllocator.allocate_none ha
    obtain ⟨ht₁, hm₁⟩ := allocateHeap_kept (setPageAlloc s tid page_alloc') tid (requestId size)
    generalize hh : allocateHeap (setPageAlloc s tid page_alloc') tid (requestId size) = g at *
    obtain ⟨page₁, s₁⟩ := g
    cases page₁ with
    | some page =>
      simp only [hh] at h
      cases h
      exact ⟨fun _ _ => congrArg (wordAdd sizeT · _) ht₁, nofun⟩
    | none =>
      obtain ⟨ht₂, hm₂⟩ := subAllocate_kept s₁ tid (requestId size)
      generalize hsub : subAllocate s₁ tid (requestId size) = g at *
      obtain ⟨page₂, s₂⟩ := g
      cases page₂ with
      | some page =>
        simp only [hh, hsub] at h
        cases h
        exact ⟨fun _ _ => congrArg (wordAdd sizeT · _) (ht₂.trans ht₁), nofun⟩
      | none =>
        simp only [hh, hsub] at h
        cases h
        exact ⟨nofun, fun _ _ => ⟨(hm₂ rfl).trans (hm₁ rfl), ht₂.trans ht₁⟩⟩

/-- Freeing a block subtracts the size in its header. -/
theorem freeOffset_total (h : freeOffsetNoNullCheck s p = some (.ok s')) :
    s'.total_alloc_ = wordSub sizeT s.total_alloc_ (page_size_.get s.mem (p - mpPage)) := by
  simp only [freeOffsetNoNullCheck] at h
  split at h
  · cases h
  · obtain ⟨page_alloc, -, h⟩ := Option.bind_eq_some_iff.mp h
    cases h
    simp only [setPageAlloc, unsetAllocated]
    rw [Field.get_set_apart (by decide)]

namespace Books

theorem allocate (h : Books b page_alloc_size s live) (hr : Request s tid size) (hn : NoWrap size)
    (hpast : PastLocalHeap s tid size) (hstep : InStep s tid size) :
    ∃ r s', allocateOffset s tid size = some (r, s') ∧ s'.live = s.live ∧
      ((∃ e, r = .error e ∧ Books b page_alloc_size s' live) ∨
        ∃ p, r = .ok p ∧ Allocated b page_alloc_size s live tid size p s' ∧
          Books b page_alloc_size s' (⟨p, size⟩ :: live)) := by
  obtain ⟨r, s', he, ⟨e, rfl, hi', hl⟩ | ⟨p, rfl, ha⟩⟩ := allocateOffset_spec h.1 hr hn hpast
  · obtain ⟨hm, ht⟩ := (allocateOffset_kept he).2 e rfl
    refine ⟨_, s', he, hl, .inl ⟨e, rfl, hi', ?_⟩⟩
    rw [hm, ht]
    exact h.2
  · obtain ⟨lo, hi, len, at_, hb, -⟩ := h.1.blocks
    obtain ⟨lo', hi', len', at', hb', -⟩ := ha.inv.blocks
    rw [ha.buf] at hb'
    refine ⟨_, s', he, ha.live, .inr ⟨p, rfl, ha, ha.inv, ?_⟩⟩
    rw [(allocateOffset_kept he).1 p rfl]
    exact h.2.add hb' (fun c hc => hb.header_taken (k := tid) (c := ⟨p, size⟩) hb' ha.taken hc)
      (ha.page_size.trans hstep)

theorem free (h : Books b page_alloc_size s live) (hc : c ∈ live) :
    ∃ s', freeOffsetNoNullCheck s c.off = some (.ok s') ∧ s'.live = s.live ∧
      Books b page_alloc_size s' (dropBlock live c.off) := by
  obtain ⟨s', he, hl, hi', hm⟩ := freeOffset_spec h.1 hc
  obtain ⟨lo, hi, len, at_, hb, -⟩ := h.1.blocks
  refine ⟨s', he, hl, hi', ?_⟩
  rw [freeOffset_total he]
  exact h.2.drop hb.live_nodup hc fun d hd => hb.header_free hc hm hd

theorem reallocate (h : Books b page_alloc_size s live) (hc : c ∈ live) (hr : Request s tid n)
    (hn : NoWrap n) (hpast : PastLocalHeap s tid n) (hg : Grows s tid c.off n)
    (hstep : InStep s tid n) :
    ∃ r s', reallocateOffsetNoNullCheck s tid c.off n = some (r, s') ∧ s'.live = s.live ∧
      ((∃ e, r = .error e ∧ Books b page_alloc_size s' live) ∨
        ∃ q, r = .ok q ∧ Books b page_alloc_size s' (⟨q, n⟩ :: dropBlock live c.off)) := by
  obtain ⟨r, s₁, he, hl₁, ⟨e, rfl, h₁⟩ | ⟨q, rfl, ha, h₁⟩⟩ := h.allocate hr hn hpast hstep
  · refine ⟨_, s₁, ?_, hl₁, .inl ⟨e, rfl, h₁⟩⟩
    simp only [reallocateOffsetNoNullCheck, he, Option.bind_eq_bind, Option.bind_some]
  obtain ⟨lo₁, hi₁, len₁, at₁, hb₁, -⟩ := ha.inv.blocks
  have hgrow : capacity s.mem c.off ≤ capacity s₁.mem q := by
    rw [capacity, capacity, ha.page_size]
    exact Nat.sub_le_sub_right hg mpPage
  obtain ⟨hcap, hi₂⟩ := h.1.copied hc ha hgrow
  have hcopy := (s₁.mem.copy_sameOff q c.off (capacity s.mem c.off)).mono (Nat.le_refl _)
    (Nat.add_le_add_left hgrow _)
  have h₂ : Books b page_alloc_size
      { s₁ with mem := s₁.mem.copy q c.off (capacity s.mem c.off) } (⟨q, n⟩ :: live) :=
    ⟨hi₂, h₁.2.congr fun d hd => hb₁.header_write (b := ⟨q, n⟩) List.mem_cons_self hcopy hd⟩
  have hne : q ≠ c.off := fun he => (List.nodup_cons.mp hb₁.live_nodup).1
    (List.mem_map.mpr ⟨c, hc, he.symm⟩)
  obtain ⟨s₃, he₃, hl₃, h₃⟩ := h₂.free (List.mem_cons_of_mem _ hc)
  rw [dropBlock, List.filter_cons_of_pos (by simpa using hne)] at h₃
  refine ⟨.ok q, s₃, ?_, hl₃.trans hl₁, .inr ⟨q, rfl, h₃⟩⟩
  simp only [reallocateOffsetNoNullCheck, he, Option.bind_eq_bind, Option.bind_some, hcap, he₃]

theorem step {op : Nat × Op} (h : Books b page_alloc_size s s.live) (hg : Exact s op)
    (hs : ThreadLocalAllocator.step s op = some s') : Books b page_alloc_size s' s'.live := by
  obtain ⟨tid, op⟩ := op
  cases op with
  | allocate size =>
    obtain ⟨⟨hr, hn, hpast⟩, hstep⟩ := hg
    obtain ⟨r, s₁, he, hl, ⟨e, rfl, h₁⟩ | ⟨p, rfl, -, h₁⟩⟩ := h.allocate hr hn hpast hstep
    · simp only [ThreadLocalAllocator.step, he, Option.bind_eq_bind, Option.bind_some,
        Option.some.injEq] at hs
      exact hs ▸ hl ▸ h₁
    · simp only [ThreadLocalAllocator.step, he, Option.bind_eq_bind, Option.bind_some,
        Option.some.injEq] at hs
      subst hs
      rw [hl]
      exact ⟨h₁.1.record _, h₁.2⟩
  | free p =>
    obtain ⟨c, hc, rfl⟩ := hg
    obtain ⟨s₁, he, hl, h₁⟩ := h.free hc
    simp only [ThreadLocalAllocator.step, he, Option.bind_eq_bind, Option.bind_some,
      Option.some.injEq] at hs
    subst hs
    rw [hl]
    exact ⟨h₁.1.record _, h₁.2⟩
  | reallocate p n =>
    obtain ⟨⟨⟨c, hc, rfl⟩, hr, hn, hpast, hgrow⟩, hstep⟩ := hg
    obtain ⟨r, s₁, he, hl, ⟨e, rfl, h₁⟩ | ⟨q, rfl, h₁⟩⟩ :=
      h.reallocate hc hr hn hpast hgrow hstep
    · simp only [ThreadLocalAllocator.step, he, Option.bind_eq_bind, Option.bind_some,
        Option.some.injEq] at hs
      exact hs ▸ hl ▸ h₁
    · simp only [ThreadLocalAllocator.step, he, Option.bind_eq_bind, Option.bind_some,
        Option.some.injEq] at hs
      subst hs
      rw [hl]
      exact ⟨h₁.1.record _, h₁.2⟩
  | write x byte =>
    have hw : Guarded s (tid, .write x byte) := hg
    obtain ⟨t, ht, hi'⟩ := step_inv h.1 hw
    obtain ⟨c, hc, hx, hx'⟩ := hw
    obtain ⟨lo, hi, len, at_, hb, -⟩ := h.1.blocks
    rw [hs] at ht
    cases ht
    cases hs
    have hm : s.mem.SameOff (Function.update s.mem x byte) c.off (capacity s.mem c.off) :=
      fun y hy => Function.update_of_ne (by omega) ..
    exact ⟨hi', h.2.congr fun d hd => hb.header_write hc hm hd⟩

end Books

/-- Nothing is booked by `shm_init`. -/
theorem shmInit_books {s₀ : State} (h₀ : shmInit b page_alloc_size max_threads mem = some s₀)
    (hf : NoOverflow b page_alloc_size max_threads) : Books b page_alloc_size s₀ s₀.live := by
  refine ⟨init_inv h₀ hf, ?_⟩
  obtain ⟨⟨tls_vec, alloc₁⟩, -, h⟩ := Option.bind_eq_some_iff.mp h₀
  obtain ⟨⟨tls_, alloc₂⟩, -, h⟩ := Option.bind_eq_some_iff.mp h
  obtain ⟨⟨free_tids_vec, alloc₃⟩, -, h⟩ := Option.bind_eq_some_iff.mp h
  cases h
  exact .empty _

theorem run_books {s₀ : State} {ops : List (Nat × Op)}
    (h₀ : shmInit b page_alloc_size max_threads mem = some s₀)
    (hf : NoOverflow b page_alloc_size max_threads) (h : Run step Exact s₀ ops s) :
    Books b page_alloc_size s s.live :=
  h.invariant (I := fun s => Books b page_alloc_size s s.live) (shmInit_books h₀ hf)
    fun _ _ _ h hg hs => h.step hg hs

end ThreadLocalAllocator

/-! ## Runs -/

/-- **The allocated size is what the blocks in use have added.** In guarded runs of the
scalable page allocator; and of the thread-local one, where every request that is served
by a free page finds one of its rounded size. -/
theorem guarded_accounts (mem : ByteMem) :
    (∀ b ops s, Run ScalablePageAllocator.step ScalablePageAllocator.Guarded
      (ScalablePageAllocator.shmInit b mem) ops s →
      ScalablePageAllocator.getCurrentlyAllocatedSize s = addedSize s.live) ∧
    (∀ b page_alloc_size max_threads s₀ ops s,
      ThreadLocalAllocator.shmInit b page_alloc_size max_threads mem = some s₀ →
      ThreadLocalAllocator.NoOverflow b page_alloc_size max_threads →
      Run ThreadLocalAllocator.step ThreadLocalAllocator.Exact s₀ ops s →
      ThreadLocalAllocator.getCurrentlyAllocatedSize s = addedSize s.live) :=
  ⟨fun _ _ _ h => (ScalablePageAllocator.run_books h).2.total,
    fun _ _ _ _ _ _ h₀ hf h => (ThreadLocalAllocator.run_books h₀ hf h).2.total⟩

/-- A free page is used again, for a smaller request by the scalable page allocator, for
one of its size by the thread-local one. -/
theorem guarded_accounts_reuse :
    (∃ s, Run ScalablePageAllocator.step ScalablePageAllocator.Guarded
      (ScalablePageAllocator.shmInit ScalablePageAllocator.smallBackend fun _ => 0)
      [.allocate 4096, .free 4304, .allocate 10] s ∧
      s.live = [⟨4304, 10⟩] ∧
      ScalablePageAllocator.getCurrentlyAllocatedSize s = addedSize s.live) ∧
    (∃ s₀ s, ThreadLocalAllocator.shmInit ThreadLocalAllocator.smallBackend 2048 4 (fun _ => 0) =
      some s₀ ∧ Run ThreadLocalAllocator.step ThreadLocalAllocator.Exact s₀
      [(0, .allocate 1000), (0, .allocate 10), (1, .free 17104), (0, .reallocate 18160 700)] s ∧
      s.live = [⟨17104, 700⟩] ∧
      ThreadLocalAllocator.getCurrentlyAllocatedSize s = addedSize s.live) := by
  have hex₁ : (execOk ScalablePageAllocator.step ScalablePageAllocator.Guarded
      (ScalablePageAllocator.shmInit ScalablePageAllocator.smallBackend fun _ => 0)
      [.allocate 4096, .free 4304, .allocate 10]).map (·.live) = some [⟨4304, 10⟩] := by
    decide +kernel
  have hex₂ : ((ThreadLocalAllocator.shmInit ThreadLocalAllocator.smallBackend 2048 4
      fun _ => 0).bind fun s₀ => execOk ThreadLocalAllocator.step ThreadLocalAllocator.Exact s₀
      [(0, .allocate 1000), (0, .allocate 10), (1, .free 17104), (0, .reallocate 18160 700)]).map
        (·.live) = some [⟨17104, 700⟩] := by
    decide +kernel
  obtain ⟨s₁, hs₁, hl₁⟩ := Option.map_eq_some_iff.mp hex₁
  obtain ⟨s₂, hs₂, hl₂⟩ := Option.map_eq_some_iff.mp hex₂
  obtain ⟨s₀, h₀, hs₂⟩ := Option.bind_eq_some_iff.mp hs₂
  have hrun₁ := run_of_execOk hs₁
  have hrun₂ := run_of_execOk hs₂
  have hf : ThreadLocalAllocator.NoOverflow ThreadLocalAllocator.smallBackend 2048 4 := by
    unfold ThreadLocalAllocator.NoOverflow
    decide
  exact ⟨⟨s₁, hrun₁, hl₁, (guarded_accounts _).1 _ _ _ hrun₁⟩,
    ⟨s₀, s₂, h₀, hrun₂, hl₂, (guarded_accounts _).2 _ _ _ _ _ _ h₀ hf hrun₂⟩⟩

/-- **The allocated size wraps below zero.** A page for 4096 bytes serves a request for
10, for which 96 bytes are added; when it is freed, 4128 are subtracted. -/
theorem reuse_unbooks : ¬ ∀ (ops : List (Nat × Op)) (s₀ s : ThreadLocalAllocator.State),
    ThreadLocalAllocator.shmInit ThreadLocalAllocator.smallBackend 2048 4 (fun _ => 0) = some s₀ →
    Run ThreadLocalAllocator.step ThreadLocalAllocator.Legal s₀ ops s →
    ThreadLocalAllocator.getCurrentlyAllocatedSize s = addedSize s.live := by
  intro h
  have hex : ((ThreadLocalAllocator.shmInit ThreadLocalAllocator.smallBackend 2048 4
      fun _ => 0).bind fun s₀ => execOk ThreadLocalAllocator.step ThreadLocalAllocator.Legal s₀
      [(0, .allocate 4096), (0, .free 17104), (0, .allocate 10), (0, .free 17104)]).map
        (fun s => (s.live, s.total_alloc_)) = some ([], 2 ^ 64 - 4032) := by
    decide +kernel
  obtain ⟨s, hs, hv⟩ := Option.map_eq_some_iff.mp hex
  obtain ⟨s₀, h₀, hs⟩ := Option.bind_eq_some_iff.mp hs
  obtain ⟨hl, ht⟩ := Prod.mk.inj hv
  have he := h _ s₀ s h₀ (run_of_execOk hs)
  rw [ThreadLocalAllocator.getCurrentlyAllocatedSize, ht, hl] at he
  exact absurd he (by decide)

end HermesShm.Memory
