import HermesShm.Memory.ScalablePageAllocatorSound

/-! # Freeing a block twice

Runs of the scalable page allocator in which a block may be freed again. Every block
that was in use keeps its page, in use or in a free list, and the flag of the page
tells which. -/
namespace HermesShm.Memory
open HermesShm.Base MpPage

namespace ScalablePageAllocator

/-- The allocator, with all blocks that were in use at some time. -/
structure Handed where
  alloc : State
  /-- No operation reads it. -/
  given : List Nat := []

namespace Handed

def start (b : Backend) (mem : ByteMem) : Handed := { alloc := shmInit b mem }

def step (s : Handed) (op : Op) : Option Handed := do
  let alloc ← ScalablePageAllocator.step s.alloc op
  some { alloc, given := alloc.live.map (·.off) ++ s.given }

/-- Any block that was in use may be freed, once more as well. -/
def Legal (s : Handed) : Op → Prop
  | .free p => p ∈ s.given
  | op => ScalablePageAllocator.Legal s.alloc op

def Guarded (s : Handed) : Op → Prop
  | .free p => p ∈ s.given
  | op => ScalablePageAllocator.Guarded s.alloc op

instance (s : Handed) (op : Op) : Decidable (Legal s op) :=
  match op with
  | .free p => inferInstanceAs (Decidable (p ∈ s.given))
  | .allocate size => inferInstanceAs
    (Decidable (ScalablePageAllocator.Legal s.alloc (.allocate size)))
  | .reallocate p size => inferInstanceAs
    (Decidable (ScalablePageAllocator.Legal s.alloc (.reallocate p size)))
  | .write x byte => inferInstanceAs
    (Decidable (ScalablePageAllocator.Legal s.alloc (.write x byte)))

instance (s : Handed) (op : Op) : Decidable (Guarded s op) :=
  match op with
  | .free p => inferInstanceAs (Decidable (p ∈ s.given))
  | .allocate size => inferInstanceAs
    (Decidable (ScalablePageAllocator.Guarded s.alloc (.allocate size)))
  | .reallocate p size => inferInstanceAs
    (Decidable (ScalablePageAllocator.Guarded s.alloc (.reallocate p size)))
  | .write x byte => inferInstanceAs
    (Decidable (ScalablePageAllocator.Guarded s.alloc (.write x byte)))

/-- The flags tell the blocks in use, and a free of another one is refused, without
effect. -/
structure Refuses (s : Handed) : Prop where
  flag : ∀ p ∈ s.given, isAllocated s.alloc.mem (p - mpPage) = true ↔ Live s.alloc p
  double_free : ∀ p ∈ s.given, ¬ Live s.alloc p →
    freeOffsetNoNullCheck s.alloc p = .error (.doubleFree (some (p - mpPage))) ∧
      ScalablePageAllocator.step s.alloc (.free p) = some s.alloc

end Handed

/-! ## Pages are not lost -/

/-- The blocks `given` have pages, in use or free. -/
def Paged (at_ : Place Unit → List Nat) (given : List Nat) : Prop :=
  ∀ p ∈ given, ∃ i, ∃ q ∈ at_ i, p = q + mpPage

/-- `Inv`, where the blocks `given` have pages. -/
def Kept (s : State) (live : List Block) (given : List Nat) : Prop :=
  ∃ hi len at_, Blocks s.buf (s.buf + s.heap_.region_off_) s.heap_ s.mem (fun _ : Unit => s.global_)
    live hi len at_ ∧ Paged at_ given

variable {s s' : State} {live : List Block} {given : List Nat} {b : Block} {size p n : Nat}
  {at_ at' : Place Unit → List Nat}

theorem Paged.mono (h : Paged at_ given) (ha : ∀ i, ∀ q ∈ at_ i, ∃ j, q ∈ at' j) :
    Paged at' given := by
  intro p hp
  obtain ⟨i, q, hq, rfl⟩ := h p hp
  obtain ⟨j, hj⟩ := ha i q hq
  exact ⟨j, q, hj, rfl⟩

/-- A page that changes its place is not lost. -/
theorem Paged.moved {lo hi : Nat} {len : Nat → Nat} {i j : Place Unit} (h : Paged at_ given)
    (ha : Arena lo hi len at_) (hp : p ∈ at_ i) (hne : i ≠ j) :
    Paged (Base.moved at_ i j p) given := by
  refine h.mono fun k q hq => ?_
  by_cases hqp : q = p
  · exact ⟨j, (ha.mem_moved hp hne).mpr (.inl ⟨rfl, hqp⟩)⟩
  · exact ⟨k, (ha.mem_moved hp hne).mpr (.inr ⟨hq, hqp⟩)⟩

theorem init_kept (b : Backend) (mem : ByteMem) : Kept (shmInit b mem) [] [] :=
  ⟨_, _, _, init_blocks b mem, nofun⟩

/-- The blocks in use have pages. -/
theorem Kept.add_live (h : Kept s live given) : Kept s live (live.map (·.off) ++ given) := by
  obtain ⟨hi, len, at_, hb, hp⟩ := h
  refine ⟨hi, len, at_, hb, fun p h => ?_⟩
  rcases List.mem_append.mp h with h | h
  · obtain ⟨b, hbl, rfl⟩ := List.mem_map.mp h
    exact ⟨.live, _, hb.page hbl, (Nat.sub_add_cancel (hb.off_le b hbl)).symm⟩
  · exact hp p h

/-- A page is in use or in a free list, and is flagged accordingly. -/
theorem Kept.flag (h : Kept s live given) (hp : p ∈ given) :
    isAllocated s.mem (p - mpPage) = true ↔ ∃ b ∈ live, b.off = p := by
  obtain ⟨hi, len, at_, hb, hpg⟩ := h
  obtain ⟨i, q, hq, rfl⟩ := hpg p hp
  rw [Nat.add_sub_cancel, ← hb.live_iff]
  cases i with
  | live => exact iff_of_true (hb.pages.live q hq) hq
  | free k sl =>
    refine iff_of_false ?_ fun hl => ?_
    · rw [hb.pages.free k sl q hq]
      exact Bool.false_ne_true
    · have := hb.pages.arena.place_eq hq hl
      cases this

/-! ## Calls -/

theorem allocateOffset_kept (h : Kept s live given) (hr : Request s size) (hn : NoWrap size) :
    ∃ r s', allocateOffset s size = some (r, s') ∧ s'.live = s.live ∧
      ((∃ e, r = .error e ∧ Kept s' live given) ∨
        ∃ p, r = .ok p ∧ Allocated s live size p s' ∧ Kept s' (⟨p, size⟩ :: live) given) := by
  obtain ⟨hi', len, at_, hb, hp⟩ := h
  obtain ⟨r, s', he, hl, -, ho⟩ := allocateOffset_cases hb hr hn
  obtain ⟨r₂, s₂, he₂, hspec⟩ := allocateOffset_spec ⟨hi', len, at_, hb⟩ hr hn
  rw [he, Option.some.injEq, Prod.mk.injEq] at he₂
  obtain ⟨rfl, rfl⟩ := he₂
  refine ⟨r, s', he, hl, ?_⟩
  cases ho with
  | refused _ _ _ _ _ hb' => exact .inl ⟨_, rfl, _, _, _, hb', hp⟩
  | fresh _ _ _ _ _ _ hb' =>
    obtain ⟨e, hok, -⟩ | ⟨q, hok, ha⟩ := hspec
    · cases hok
    cases hok
    refine .inr ⟨_, rfl, ha, _, _, _, hb', hp.mono fun i q hq => ⟨i, ?_⟩⟩
    by_cases hi : i = .live
    · subst hi
      rw [Function.update_self]
      exact List.mem_cons_of_mem _ hq
    · rw [Function.update_of_ne hi]
      exact hq
  | reused _ _ hfree _ _ _ hb' =>
    obtain ⟨e, hok, -⟩ | ⟨q, hok, ha⟩ := hspec
    · cases hok
    cases hok
    exact .inr ⟨_, rfl, ha, _, _, _, hb', hp.moved hb.pages.arena hfree nofun⟩

theorem freeOffset_kept (h : Kept s live given) (hb : b ∈ live) :
    ∃ s', freeOffsetNoNullCheck s b.off = .ok s' ∧ s'.live = s.live ∧
      Kept s' (dropBlock live b.off) given := by
  obtain ⟨hi', len, at_, hbs, hp⟩ := h
  obtain ⟨sl, m', pa', he, -, -, hbs'⟩ := hbs.release hb ()
  rw [update_unit] at hbs'
  have halloc := hbs.pages.live _ (hbs.page hb)
  refine ⟨{ s with
    mem := m', global_ := pa'
    total_alloc_ := wordSub sizeT s.total_alloc_
      (page_size_.get (unsetAllocated s.mem (b.off - mpPage)) (b.off - mpPage)) },
    ?_, rfl, hi', len, _, hbs', hp.moved hbs.pages.arena (hbs.page hb) nofun⟩
  simp only [freeOffsetNoNullCheck, halloc, Bool.not_true, Bool.false_eq_true, if_false, he]

/-- Copying to a new block that is not shorter leaves the pages. -/
theorem Kept.copied {s₁ : State} {q : Nat} (h : Kept s live given) (hb : b ∈ live)
    (ha : Allocated s live n q s₁) (h₁ : Kept s₁ (⟨q, n⟩ :: live) given) (hg : Grows s b.off n) :
    Kept { s₁ with
      mem := s₁.mem.copy q b.off
        (wordSub sizeT (page_size_.get s₁.mem (b.off - mpPage)) mpPage) }
      (⟨q, n⟩ :: live) given := by
  obtain ⟨hi', len, at_, hbs, -⟩ := h
  obtain ⟨hi₁, len₁, at₁, hbs₁, hp₁⟩ := h₁
  have hgrow : capacity s.mem b.off ≤ capacity s₁.mem q := by
    rw [capacity, capacity, ha.page_size]
    exact Nat.sub_le_sub_right hg mpPage
  rw [ha.buf] at hbs₁
  obtain ⟨hcap, hbs₂⟩ := hbs.copied (k := ()) (c := ⟨q, n⟩) hbs₁ ha.taken hb hgrow
  rw [hcap]
  exact ⟨hi₁, len₁, at₁, by simp only [ha.buf]; exact hbs₂, hp₁⟩

theorem reallocateOffset_kept (h : Kept s live given) (hb : b ∈ live) (hr : Request s n)
    (hn : NoWrap n) (hg : Grows s b.off n) :
    ∃ r s', reallocateOffsetNoNullCheck s b.off n = some (r, s') ∧ s'.live = s.live ∧
      ((∃ e, r = .error e ∧ Kept s' live given) ∨
        ∃ q, r = .ok q ∧ Kept s' (⟨q, n⟩ :: dropBlock live b.off) given) := by
  obtain ⟨r, s₁, he, hl, ⟨e, rfl, h₁⟩ | ⟨q, rfl, ha, h₁⟩⟩ := allocateOffset_kept h hr hn
  · refine ⟨_, s₁, ?_, hl, .inl ⟨e, rfl, h₁⟩⟩
    simp only [reallocateOffsetNoNullCheck, he, Option.bind_eq_bind, Option.bind_some]
  have h₂ := h.copied hb ha h₁ hg
  obtain ⟨s₃, he₃, hl₃, h₃⟩ := freeOffset_kept h₂ (List.mem_cons_of_mem _ hb)
  have hne : q ≠ b.off := by
    obtain ⟨hi₁, len₁, at₁, hbs₁⟩ := ha.inv
    exact fun he => (List.nodup_cons.mp hbs₁.live_nodup).1 (List.mem_map.mpr ⟨b, hb, he.symm⟩)
  rw [dropBlock, List.filter_cons_of_pos (by simpa using hne)] at h₃
  refine ⟨_, s₃, ?_, hl₃.trans hl, .inr ⟨q, rfl, h₃⟩⟩
  simp only [reallocateOffsetNoNullCheck, he, Option.bind_eq_bind, Option.bind_some, he₃]

/-! ## Runs -/

namespace Handed

variable {s s' : Handed} {op : Op}

/-- A block that is not in use is not freed again. -/
theorem free_refused (h : Kept s.alloc s.alloc.live s.given) (hp : p ∈ s.given)
    (hl : ¬ Live s.alloc p) :
    freeOffsetNoNullCheck s.alloc p = .error (.doubleFree (some (p - mpPage))) := by
  have hflag : isAllocated s.alloc.mem (p - mpPage) = false :=
    Bool.eq_false_iff.mpr fun he => hl ((h.flag hp).mp he)
  rw [freeOffsetNoNullCheck, hflag, Bool.not_false, if_pos rfl]

theorem alloc_kept (h : Kept s.alloc s.alloc.live s.given) (hg : Guarded s op) :
    ∃ s', ScalablePageAllocator.step s.alloc op = some s' ∧ Kept s' s'.live s.given := by
  cases op with
  | allocate size =>
    obtain ⟨r, s', he, hl, ⟨e, rfl, h'⟩ | ⟨p, rfl, -, h'⟩⟩ := allocateOffset_kept h hg.1 hg.2
    · exact ⟨s', by simp only [ScalablePageAllocator.step, he, Option.bind_eq_bind,
        Option.bind_some], hl ▸ h'⟩
    · refine ⟨{ s' with live := ⟨p, size⟩ :: s'.live }, ?_, ?_⟩
      · simp only [ScalablePageAllocator.step, he, Option.bind_eq_bind, Option.bind_some]
      · exact hl ▸ h'
  | free p =>
    by_cases hl : Live s.alloc p
    · obtain ⟨b, hb, rfl⟩ := hl
      obtain ⟨s', he, hl', h'⟩ := freeOffset_kept h hb
      refine ⟨{ s' with live := dropBlock s'.live b.off }, ?_, hl' ▸ h'⟩
      simp only [ScalablePageAllocator.step, he]
    · exact ⟨s.alloc, by simp only [ScalablePageAllocator.step, free_refused h hg hl], h⟩
  | reallocate p n =>
    obtain ⟨⟨b, hb, rfl⟩, hr, hn, hgrow⟩ := hg
    obtain ⟨r, s', he, hl, ⟨e, rfl, h'⟩ | ⟨q, rfl, h'⟩⟩ := reallocateOffset_kept h hb hr hn hgrow
    · exact ⟨s', by simp only [ScalablePageAllocator.step, he, Option.bind_eq_bind,
        Option.bind_some], hl ▸ h'⟩
    · refine ⟨{ s' with live := ⟨q, n⟩ :: dropBlock s'.live b.off }, ?_, ?_⟩
      · simp only [ScalablePageAllocator.step, he, Option.bind_eq_bind, Option.bind_some]
      · exact hl ▸ h'
  | write x byte =>
    obtain ⟨b, hb, hx, hx'⟩ := hg
    obtain ⟨hi', len, at_, hbs, hp⟩ := h
    refine ⟨_, rfl, hi', len, at_, hbs.write hb fun y hy => Function.update_of_ne ?_ .., hp⟩
    omega

theorem run_kept {b : Backend} {mem : ByteMem} {ops : List Op}
    (h : Run step Guarded (start b mem) ops s) : Kept s.alloc s.alloc.live s.given := by
  refine h.invariant (I := fun s => Kept s.alloc s.alloc.live s.given) (init_kept b mem)
    fun s op s' hi hg hs => ?_
  obtain ⟨alloc, he, hk⟩ := alloc_kept hi hg
  rw [step, he] at hs
  cases hs
  exact hk.add_live

end Handed

/-- **A second free is refused.** Where no size wraps around with its header, and no
block is reallocated to a smaller one, the flags of the pages tell the blocks in use,
and freeing a block that is not in use throws and changes nothing. -/
theorem guarded_refuses {b : Backend} {mem : ByteMem} {ops : List Op} {s : Handed}
    (h : Run Handed.step Handed.Guarded (Handed.start b mem) ops s) : s.Refuses := by
  have hk := Handed.run_kept h
  refine ⟨fun p hp => hk.flag hp, fun p hp hl => ?_⟩
  have he := Handed.free_refused hk hp hl
  exact ⟨he, by simp only [step, he]⟩

/-- A block is freed twice, before and after another block takes its page. -/
theorem guarded_refuses_twice : ∃ s, Run Handed.step Handed.Guarded
    (Handed.start smallBackend fun _ => 0)
    [.allocate 100, .allocate 40, .free 4304, .free 4304, .reallocate 4464 100, .free 4464] s ∧
    s.Refuses ∧ s.alloc.live = [⟨4304, 100⟩] := by
  have hex : (execOk Handed.step Handed.Guarded (Handed.start smallBackend fun _ => 0)
      [.allocate 100, .allocate 40, .free 4304, .free 4304, .reallocate 4464 100,
        .free 4464]).map (·.alloc.live) = some [⟨4304, 100⟩] := by
    decide +kernel
  obtain ⟨s, hs, hl⟩ := Option.map_eq_some_iff.mp hex
  have hrun := run_of_execOk hs
  exact ⟨s, hrun, guarded_refuses hrun, hl⟩

/-- **A shrinking reallocation clears a flag.** The copy of a block of 128 bytes into one
of 64 bytes overwrites the header after it, and the block in use there can not be freed. -/
theorem shrinking_clears_flag : ¬ ∀ (ops : List Op) (s : Handed),
    Run Handed.step Handed.Legal (Handed.start smallBackend fun _ => 0) ops s → s.Refuses := by
  intro h
  have hex : (execOk Handed.step Handed.Legal (Handed.start smallBackend fun _ => 0)
      [.allocate 128, .allocate 64, .allocate 64, .free 4464, .reallocate 4304 64]).map (fun s =>
        (decide (4560 ∈ s.given), decide (Live s.alloc 4560),
          isAllocated s.alloc.mem (4560 - mpPage))) = some (true, true, false) := by
    decide +kernel
  obtain ⟨s, hs, he⟩ := Option.map_eq_some_iff.mp hex
  simp only [Prod.mk.injEq, decide_eq_true_eq] at he
  obtain ⟨hgiven, hlive, hflag⟩ := he
  have := ((h _ s (run_of_execOk hs)).flag 4560 hgiven).mpr hlive
  rw [hflag] at this
  cases this

end ScalablePageAllocator
end HermesShm.Memory
