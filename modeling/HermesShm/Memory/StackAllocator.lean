import HermesShm.Base.Transition
import HermesShm.Memory.Blocks

/-! # The stack allocator

Every request is served from the heap, and freed pages are not used again.
Addresses are offsets from the allocator's buffer. -/
namespace HermesShm.Memory
open HermesShm.Base MpPage

namespace StackAllocator

structure State where
  mem : ByteMem
  heap_ : HeapAllocator
  total_alloc_ : Nat := 0
  /-- The blocks in use; no operation reads it. -/
  live : List Block := []

/-- `region_off` is the length of both headers. -/
def shmInit (region_off data_size : Nat) (mem : ByteMem) : State :=
  { mem, heap_ := .shmInit region_off (wordSub sizeT data_size region_off) }

/-- No result where the code writes to the null page of a refused request. -/
def allocateOffset (s : State) (size : Nat) : Option (Nat × State) := do
  let size := wordAdd sizeT size mpPage
  let (p, heap_) := s.heap_.allocateOffset size
  let hdr ← p
  let mem := off_.set (page_size_.set (setAllocated s.mem hdr) hdr size) hdr 0
  some (hdr + mpPage, { s with mem, heap_, total_alloc_ := wordAdd sizeT s.total_alloc_ size })

def freeOffsetNoNullCheck (s : State) (p : Nat) : Except Error State :=
  let hdr := p - mpPage
  if !isAllocated s.mem hdr then .error (.doubleFree none)
  else
    let mem := unsetAllocated s.mem hdr
    .ok { s with mem, total_alloc_ := wordSub sizeT s.total_alloc_ (page_size_.get mem hdr) }

def reallocateOffsetNoNullCheck (s : State) (p new_size : Nat) :
    Option (Except Error Nat × State) := do
  let old_size := wordSub sizeT (page_size_.get s.mem (p - mpPage)) mpPage
  let (new_p, s) ← allocateOffset s new_size
  let s := { s with mem := s.mem.copy new_p p old_size }
  match freeOffsetNoNullCheck s p with
  | .error e => some (.error e, s)
  | .ok s => some (.ok new_p, s)

/-! ## Runs -/

def step (s : State) : Op → Option State
  | .allocate size => do
    let (p, s) ← allocateOffset s size
    some { s with live := ⟨p, size⟩ :: s.live }
  | .free p => match freeOffsetNoNullCheck s p with
    | .error _ => some s
    | .ok s => some { s with live := dropBlock s.live p }
  | .reallocate p new_size => do
    match ← reallocateOffsetNoNullCheck s p new_size with
    | (.error _, s) => some s
    | (.ok new_p, s) => some { s with live := ⟨new_p, new_size⟩ :: dropBlock s.live p }
  | .write x byte => some { s with mem := Function.update s.mem x byte }

/-- A size whose request does not overflow, with its header or in the heap counter. -/
def Request (s : State) (size : Nat) : Prop :=
  1 ≤ size ∧ size + mpPage < sizeT ∧ s.heap_.heap_off_ + (size + mpPage) < sizeT

def Live (s : State) (p : Nat) : Prop := ∃ b ∈ s.live, b.off = p

/-- The block at `p` is not longer than `new_size`. -/
def Grows (s : State) (p new_size : Nat) : Prop :=
  page_size_.get s.mem (p - mpPage) ≤ new_size + mpPage

def Guarded (s : State) : Op → Prop
  | .allocate size => Request s size
  | .free p => Live s p
  | .reallocate p new_size => Live s p ∧ Request s new_size ∧ Grows s p new_size
  | .write x _ => ∃ b ∈ s.live, b.off ≤ x ∧ x < b.off + capacity s.mem b.off

instance (s : State) (size : Nat) : Decidable (Request s size) :=
  inferInstanceAs (Decidable (_ ∧ _ ∧ _))

instance (s : State) (p : Nat) : Decidable (Live s p) :=
  inferInstanceAs (Decidable (∃ b ∈ s.live, b.off = p))

instance (s : State) (p new_size : Nat) : Decidable (Grows s p new_size) :=
  inferInstanceAs (Decidable (_ ≤ _))

instance (s : State) (op : Op) : Decidable (Guarded s op) :=
  match op with
  | .allocate size => inferInstanceAs (Decidable (Request s size))
  | .free p => inferInstanceAs (Decidable (Live s p))
  | .reallocate p new_size => inferInstanceAs
    (Decidable (Live s p ∧ Request s new_size ∧ Grows s p new_size))
  | .write x _ => inferInstanceAs (Decidable (∃ b ∈ s.live, b.off ≤ x ∧ x < b.off + _))

/-! ## The invariant -/

/-- With `live` in use, pages have the requested sizes and are apart, in the heap. -/
structure Inv (s : State) (live : List Block) : Prop where
  off_le : ∀ b ∈ live, s.heap_.region_off_ + mpPage ≤ b.off
  page_size : ∀ b ∈ live, page_size_.get s.mem (b.off - mpPage) = b.size + mpPage
  allocated : ∀ b ∈ live, isAllocated s.mem (b.off - mpPage) = true
  below : ∀ b ∈ live, b.off + b.size ≤ s.heap_.region_off_ + s.heap_.heap_off_
  apart : ∀ b ∈ live, ∀ c ∈ live, b.off ≠ c.off →
    b.off + b.size + mpPage ≤ c.off ∨ c.off + c.size + mpPage ≤ b.off
  nodup : (live.map (·.off)).Nodup
  end_lt : s.heap_.region_off_ + s.heap_.heap_size_ < sizeT

variable {s s' : State} {live : List Block} {b c : Block} {size p q n : Nat} {m' : ByteMem}

theorem init_inv {region_off data_size : Nat} (hr : region_off ≤ data_size)
    (hd : data_size < sizeT) (mem : ByteMem) : Inv (shmInit region_off data_size mem) [] := by
  refine ⟨nofun, nofun, nofun, nofun, nofun, List.nodup_nil, ?_⟩
  simp only [shmInit, HeapAllocator.shmInit, wordSub_of_le hr]
  omega

/-- A request that succeeds without overflow takes the next page of the heap. -/
theorem allocateOffset_eq (hwrap : size + mpPage < sizeT)
    (hoff : s.heap_.heap_off_ + (size + mpPage) < sizeT)
    (hend : s.heap_.region_off_ + s.heap_.heap_size_ < sizeT)
    (ha : allocateOffset s size = some (p, s')) :
    s.heap_.heap_off_ + (size + mpPage) ≤ s.heap_.heap_size_ ∧
      p = s.heap_.region_off_ + s.heap_.heap_off_ + mpPage ∧ s' =
        { s with
          mem := off_.set (page_size_.set (setAllocated s.mem (p - mpPage)) (p - mpPage)
            (size + mpPage)) (p - mpPage) 0
          heap_ := { s.heap_ with heap_off_ := s.heap_.heap_off_ + (size + mpPage) }
          total_alloc_ := wordAdd sizeT s.total_alloc_ (size + mpPage) } := by
  rw [allocateOffset] at ha
  simp only [wordAdd_of_lt hwrap] at ha
  have hpos : 0 < size + mpPage := Nat.lt_of_lt_of_le (by decide) (Nat.le_add_left ..)
  rcases HeapAllocator.allocateOffset_spec hpos hoff hend with ⟨-, he⟩ | ⟨hroom, he⟩
  · simp only [he, Option.bind_eq_bind, Option.bind_none, reduceCtorEq] at ha
  · simp only [he, Option.bind_eq_bind, Option.bind_some, Option.some.injEq,
      Prod.mk.injEq] at ha
    obtain ⟨rfl, rfl⟩ := ha
    exact ⟨hroom, rfl, by simp only [Nat.add_sub_cancel]⟩

namespace Inv

theorem capacity_eq (hi : Inv s live) (hb : b ∈ live) : capacity s.mem b.off = b.size := by
  rw [capacity, hi.page_size b hb, Nat.add_sub_cancel]

/-- The record of the blocks in use is no part of the allocator. -/
theorem record (hi : Inv s live) : Inv { s with live := live } live := { hi with }

/-- A change inside the data of a block. -/
theorem write (hi : Inv s live) (hb : b ∈ live) (hm : s.mem.SameOff m' b.off b.size) :
    Inv { s with mem := m' } live := by
  have hsame : ∀ c ∈ live, s.mem.SameOn m' (c.off - mpPage) mpPage := fun c hc => by
    have hbo := hi.off_le b hb
    have hco := hi.off_le c hc
    by_cases hbc : b.off = c.off
    · exact hm.sameOn (by omega)
    · have := hi.apart b hb c hc hbc
      exact hm.sameOn (by omega)
  exact { hi with
    page_size := fun c hc => (page_size_.get_congr (hsame c hc)).trans (hi.page_size c hc)
    allocated := fun c hc => (isAllocated_congr (hsame c hc)).trans (hi.allocated c hc) }

theorem free (hi : Inv s live) (hb : b ∈ live) :
    ∃ s', freeOffsetNoNullCheck s b.off = .ok s' ∧ s'.live = s.live ∧
      Inv s' (dropBlock live b.off) ∧ s.mem.SameOff s'.mem (b.off - mpPage) mpPage := by
  have hm := unsetAllocated_sameOff s.mem (b.off - mpPage)
  have hbo := hi.off_le b hb
  have hkeep : ∀ c ∈ dropBlock live b.off, c ∈ live ∧ b.off ≠ c.off ∧
      s.mem.SameOn (unsetAllocated s.mem (b.off - mpPage)) (c.off - mpPage) mpPage :=
    fun c hc => by
      obtain ⟨hc, hne⟩ := List.mem_filter.mp hc
      have hne : c.off ≠ b.off := by simpa using hne
      have hco := hi.off_le c hc
      have := hi.apart b hb c hc hne.symm
      exact ⟨hc, hne.symm, hm.sameOn (by omega)⟩
  let mem := unsetAllocated s.mem (b.off - mpPage)
  refine ⟨{ s with
    mem, total_alloc_ := wordSub sizeT s.total_alloc_ (page_size_.get mem (b.off - mpPage)) },
    ?_, rfl, ⟨fun c hc => hi.off_le c (hkeep c hc).1, fun c hc => ?_,
    fun c hc => ?_, fun c hc => hi.below c (hkeep c hc).1,
    fun c hc d hd => hi.apart c (hkeep c hc).1 d (hkeep d hd).1,
    hi.nodup.sublist (List.filter_sublist.map _), hi.end_lt⟩, hm⟩
  · simp only [freeOffsetNoNullCheck, hi.allocated b hb, Bool.not_true, Bool.false_eq_true,
      if_false, mem]
  · obtain ⟨hcl, -, hsame⟩ := hkeep c hc
    exact (page_size_.get_congr hsame).trans (hi.page_size c hcl)
  · obtain ⟨hcl, -, hsame⟩ := hkeep c hc
    exact (isAllocated_congr hsame).trans (hi.allocated c hcl)

/-- A request that succeeds takes the next page of the heap and writes its header. -/
theorem allocate_of_lt (hi : Inv s live) (hwrap : size + mpPage < sizeT)
    (hoff : s.heap_.heap_off_ + (size + mpPage) < sizeT) {r : Nat × State}
    (ha : allocateOffset s size = some r) :
    Inv r.2 (⟨r.1, size⟩ :: live) ∧ r.2.live = s.live ∧
      s.mem.SameOff r.2.mem (r.1 - mpPage) mpPage ∧ capacity r.2.mem r.1 = size ∧
      mpPage ≤ r.1 ∧ ∀ b ∈ live, b.off + b.size + mpPage ≤ r.1 := by
  obtain ⟨q, s₁⟩ := r
  obtain ⟨hroom, rfl, rfl⟩ := allocateOffset_eq hwrap hoff hi.end_lt ha
  simp only [Nat.add_sub_cancel]
  generalize hp : s.heap_.region_off_ + s.heap_.heap_off_ = p
  have hm : s.mem.SameOff
      (off_.set (page_size_.set (setAllocated s.mem p) p (size + mpPage)) p 0) p mpPage :=
    ((setAllocated_sameOff s.mem p).trans (page_size_.set_sameOff _ p _)).trans
      (off_.set_sameOff _ p 0)
  have hsize : page_size_.get
      (off_.set (page_size_.set (setAllocated s.mem p) p (size + mpPage)) p 0) p =
      size + mpPage := by
    rw [Field.get_set_apart (by decide), Field.get_set hwrap]
  have halloc : isAllocated
      (off_.set (page_size_.set (setAllocated s.mem p) p (size + mpPage)) p 0) p = true := by
    rw [isAllocated_set_apart (by decide), isAllocated_set_apart (by decide)]
    exact isAllocated_setAllocated
  have hbelow : ∀ b ∈ live, b.off + b.size ≤ p := fun b hb => by
    have := hi.below b hb
    omega
  have hsame : ∀ b ∈ live, s.mem.SameOn
      (off_.set (page_size_.set (setAllocated s.mem p) p (size + mpPage)) p 0)
      (b.off - mpPage) mpPage := fun b hb => by
    have := hbelow b hb
    have := hi.off_le b hb
    exact hm.sameOn (by omega)
  refine ⟨⟨fun b hb => ?_, fun b hb => ?_, fun b hb => ?_, fun b hb => ?_, fun b hb c hc hne => ?_,
    ?_, hi.end_lt⟩, trivial, ?_, ?_, Nat.le_add_left .., fun b hb => ?_⟩
  · rcases List.mem_cons.mp hb with rfl | hb
    · simp only
      omega
    · exact hi.off_le b hb
  · rcases List.mem_cons.mp hb with rfl | hb
    · simp only [Nat.add_sub_cancel]
      exact hsize
    · exact (page_size_.get_congr (hsame b hb)).trans (hi.page_size b hb)
  · rcases List.mem_cons.mp hb with rfl | hb
    · simp only [Nat.add_sub_cancel]
      exact halloc
    · exact (isAllocated_congr (hsame b hb)).trans (hi.allocated b hb)
  · rcases List.mem_cons.mp hb with rfl | hb
    · simp only
      omega
    · have := hbelow b hb
      simp only
      omega
  · rcases List.mem_cons.mp hb with rfl | hb <;> rcases List.mem_cons.mp hc with rfl | hc
    · exact absurd rfl hne
    · have := hbelow c hc
      simp only
      omega
    · have := hbelow b hb
      simp only
      omega
    · exact hi.apart b hb c hc hne
  · rw [List.map_cons, List.nodup_cons]
    refine ⟨fun hb => ?_, hi.nodup⟩
    obtain ⟨b, hb, hoff⟩ := List.mem_map.mp hb
    have hoff : b.off = p + mpPage := hoff
    have := hbelow b hb
    have : mpPage = 32 := rfl
    omega
  · exact hm
  · rw [capacity, Nat.add_sub_cancel, hsize, Nat.add_sub_cancel]
  · have := hbelow b hb
    omega

theorem allocate (hi : Inv s live) (hr : Request s size) {r : Nat × State}
    (ha : allocateOffset s size = some r) :
    Inv r.2 (⟨r.1, size⟩ :: live) ∧ r.2.live = s.live ∧
      s.mem.SameOff r.2.mem (r.1 - mpPage) mpPage ∧ capacity r.2.mem r.1 = size ∧
      mpPage ≤ r.1 ∧ ∀ b ∈ live, b.off + b.size + mpPage ≤ r.1 :=
  hi.allocate_of_lt hr.2.1 hr.2.2 ha

/-- A reallocation that gets memory copies the block and frees the old one. -/
theorem reallocate (hi : Inv s live) (hb : b ∈ live) (hr : Request s n) (hg : Grows s b.off n)
    {s₁ : State} (he : allocateOffset s n = some (q, s₁)) :
    ∃ s', reallocateOffsetNoNullCheck s b.off n = some (.ok q, s') ∧ s'.live = s.live ∧
      Inv s' (⟨q, n⟩ :: dropBlock live b.off) ∧
      Reallocated (fun _ => False) s.mem s'.mem live b.off q n := by
  obtain ⟨hi₁, hl₁, hm₁, hcap₁, hq, hbelow⟩ := hi.allocate hr he
  have hcap : wordSub sizeT (page_size_.get s.mem (b.off - mpPage)) mpPage =
      capacity s.mem b.off := by
    rw [wordSub_of_le (by rw [hi.page_size b hb]; exact Nat.le_add_left ..)]
    rfl
  have hgrow : b.size ≤ n := by
    rw [Grows, hi.page_size b hb] at hg
    exact Nat.le_of_add_le_add_right hg
  have hne : q ≠ b.off := by
    have := hbelow b hb
    have : mpPage = 32 := rfl
    omega
  have hi₂ := hi₁.write List.mem_cons_self
    ((s₁.mem.copy_sameOff q b.off b.size).mono (Nat.le_refl _) (Nat.add_le_add_left hgrow _))
  obtain ⟨s₃, he₃, hl₃, hi₃, hm₃⟩ := hi₂.free (List.mem_cons_of_mem _ hb)
  rw [dropBlock, List.filter_cons_of_pos (by simpa using hne)] at hi₃
  refine ⟨s₃, ?_, hl₃.trans hl₁, hi₃, ?_⟩
  · simp only [reallocateOffsetNoNullCheck, he, Option.bind_eq_bind, Option.bind_some, hcap,
      hi.capacity_eq hb, he₃]
  refine .of_copy hb (fun c hc => ?_) hq (fun c hc x _ hx => ?_) (fun c hc => ?_)
    (fun c hc hcb => ?_) (fun x hx _ => hm₁ x (by omega)) ?_ (Nat.le_of_eq hcap₁.symm) ?_
  · have := hi.off_le c hc
    omega
  · have := hbelow c hc
    rw [hi.capacity_eq hc] at hx
    exact hm₁ x (by omega)
  · have := hbelow c hc
    rw [hi.capacity_eq hc]
    omega
  · have := hi.apart c hc b hb hcb
    have := hi.off_le b hb
    have := hi.off_le c hc
    rw [hi.capacity_eq hc, hi.capacity_eq hb]
    omega
  · rw [hi.capacity_eq hb, hcap₁]
    exact hgrow
  · rw [hi.capacity_eq hb]
    exact hm₃

theorem step {op : Op} (hi : Inv s s.live) (hg : Guarded s op)
    (hs : StackAllocator.step s op = some s') : Inv s' s'.live := by
  cases op with
  | allocate size =>
    obtain ⟨⟨p, s₁⟩, ha, hs⟩ := Option.bind_eq_some_iff.mp hs
    obtain ⟨hi₁, hl, -⟩ := hi.allocate hg ha
    cases hs
    rw [hl]
    exact hi₁.record
  | free p =>
    obtain ⟨b, hb, rfl⟩ := hg
    obtain ⟨s₁, he, hl, hi₁, -⟩ := hi.free hb
    simp only [StackAllocator.step, he, Option.some.injEq] at hs
    subst hs
    rw [hl]
    exact hi₁.record
  | reallocate p n =>
    obtain ⟨⟨b, hb, rfl⟩, hr, hgrow⟩ := hg
    obtain ⟨r, ha, hs⟩ := Option.bind_eq_some_iff.mp hs
    obtain ⟨⟨q, s₂⟩, he, -⟩ := Option.bind_eq_some_iff.mp ha
    obtain ⟨s₁, ha', hl, hi₁, -⟩ := hi.reallocate hb hr hgrow he
    rw [ha'] at ha
    cases ha
    cases hs
    rw [hl]
    exact hi₁.record
  | write x byte =>
    obtain ⟨b, hb, hx, hx'⟩ := hg
    cases hs
    rw [hi.capacity_eq hb] at hx'
    exact hi.write hb fun y hy => Function.update_of_ne (by omega) ..

end Inv

theorem run_inv {region_off data_size : Nat} (hr : region_off ≤ data_size) (hd : data_size < sizeT)
    {mem : ByteMem} {ops : List Op}
    (h : Run StackAllocator.step Guarded (shmInit region_off data_size mem) ops s) :
    Inv s s.live :=
  h.invariant (I := fun s => Inv s s.live) (init_inv hr hd mem) fun _ _ _ hi hg hs => hi.step hg hs

end StackAllocator
end HermesShm.Memory
