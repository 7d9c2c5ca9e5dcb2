import HermesShm.Memory.ScalablePageAllocatorSound
import HermesShm.Memory.ThreadLocalPlacement

/-! # Reallocation in the three allocators

A reallocation copies the whole old block, so that it needs a new block that is not
shorter. -/
namespace HermesShm.Memory
open HermesShm.Base MpPage

namespace ScalablePageAllocator

/-- Where the request succeeds, the reallocation does, and moves the block. -/
def Moves (s : State) (p n : Nat) : Prop :=
  ∀ q s₁, allocateOffset s n = some (.ok q, s₁) →
    ∃ s', reallocateOffsetNoNullCheck s p n = some (.ok q, s') ∧
      Reallocated (LinkTo s.buf s.mem s.global_ (q - mpPage)) s.mem s'.mem s.live p q n

theorem Inv.moves {s : State} {p n : Nat} (hi : Inv s s.live) (hg : Guarded s (.reallocate p n)) :
    Moves s p n := by
  intro q s₁ ha
  obtain ⟨⟨b, hb, rfl⟩, hr, hn, hgrow⟩ := hg
  obtain ⟨r, s', he, -, ⟨e, -, -, ha'⟩ | ⟨q', s₁', rfl, -, ha', hm⟩⟩ :=
    reallocateOffset_spec hi hb hr hn hgrow
  · rw [ha] at ha'
    cases ha'
  · rw [ha] at ha'
    cases ha'
    exact ⟨s', he, hm⟩

end ScalablePageAllocator

namespace ThreadLocalAllocator

/-- Where the request succeeds, the reallocation does, and moves the block. -/
def Moves (s : State) (tid p n : Nat) : Prop :=
  ∀ q s₁, allocateOffset s tid n = some (.ok q, s₁) →
    ∃ s', reallocateOffsetNoNullCheck s tid p n = some (.ok q, s') ∧
      Reallocated (LinkTo s.buf s.mem (s.tls_ tid) (q - mpPage)) s.mem s'.mem s.live p q n

theorem Inv.moves {b : Backend} {page_alloc_size tid p n : Nat} {s : State}
    (hi : Inv b page_alloc_size s s.live) (hg : Guarded s (tid, .reallocate p n)) :
    Moves s tid p n := by
  intro q s₁ ha
  obtain ⟨⟨c, hc, rfl⟩, hr, hn, hpast, hgrow⟩ := hg
  obtain ⟨r, s', he, -, ⟨e, -, -, ha'⟩ | ⟨q', s₁', rfl, -, ha', hm⟩⟩ :=
    reallocateOffset_spec hi hc hr hn hpast hgrow
  · rw [ha] at ha'
    cases ha'
  · rw [ha] at ha'
    cases ha'
    exact ⟨s', he, hm⟩

end ThreadLocalAllocator

namespace StackAllocator

/-- Where the request succeeds, the reallocation does, and moves the block. -/
def Moves (s : State) (p n : Nat) : Prop :=
  ∀ q s₁, allocateOffset s n = some (q, s₁) →
    ∃ s', reallocateOffsetNoNullCheck s p n = some (.ok q, s') ∧
      Reallocated (fun _ => False) s.mem s'.mem s.live p q n

theorem Inv.moves {s : State} {p n : Nat} (hi : Inv s s.live) (hg : Guarded s (.reallocate p n)) :
    Moves s p n := by
  intro q s₁ ha
  obtain ⟨⟨b, hb, rfl⟩, hr, hgrow⟩ := hg
  obtain ⟨s', he, -, -, hm⟩ := hi.reallocate hb hr hgrow ha
  exact ⟨s', he, hm⟩

end StackAllocator

/-- **A reallocation that does not shrink moves the block.** In guarded runs the data
of the block is kept, and nothing else changes but the new block, the header of the
old one and a link of a free list. -/
theorem guarded_moves (mem : ByteMem) (p n : Nat) :
    (∀ b ops s, Run ScalablePageAllocator.step ScalablePageAllocator.Guarded
      (ScalablePageAllocator.shmInit b mem) ops s →
      ScalablePageAllocator.Guarded s (.reallocate p n) → ScalablePageAllocator.Moves s p n) ∧
    (∀ b page_alloc_size max_threads s₀ ops s tid,
      ThreadLocalAllocator.shmInit b page_alloc_size max_threads mem = some s₀ →
      ThreadLocalAllocator.NoOverflow b page_alloc_size max_threads →
      Run ThreadLocalAllocator.step ThreadLocalAllocator.Guarded s₀ ops s →
      ThreadLocalAllocator.Guarded s (tid, .reallocate p n) →
      ThreadLocalAllocator.Moves s tid p n) ∧
    (∀ region_off data_size ops s, region_off ≤ data_size → data_size < sizeT →
      Run StackAllocator.step StackAllocator.Guarded
        (StackAllocator.shmInit region_off data_size mem) ops s →
      StackAllocator.Guarded s (.reallocate p n) → StackAllocator.Moves s p n) := by
  refine ⟨fun b ops s h hg => ?_, fun b page_alloc_size max_threads s₀ ops s tid h₀ hf h hg => ?_,
    fun region_off data_size ops s hr hd h hg => ?_⟩
  · exact (ScalablePageAllocator.run_inv h).moves hg
  · exact (ThreadLocalAllocator.run_inv h₀ hf h).moves hg
  · exact (StackAllocator.run_inv hr hd h).moves hg

/-- One block grows in each of the allocators. -/
theorem guarded_moves_grow :
    (∃ s, Run ScalablePageAllocator.step ScalablePageAllocator.Guarded
      (ScalablePageAllocator.shmInit ScalablePageAllocator.smallBackend fun _ => 0)
      [.allocate 64] s ∧ ScalablePageAllocator.Moves s 4304 128) ∧
    (∃ s₀ s, ThreadLocalAllocator.shmInit ThreadLocalAllocator.smallBackend 2048 4 (fun _ => 0) =
      some s₀ ∧ Run ThreadLocalAllocator.step ThreadLocalAllocator.Guarded s₀
      [(0, .allocate 1000)] s ∧ ThreadLocalAllocator.Moves s 0 17104 2000) ∧
    (∃ s, Run StackAllocator.step StackAllocator.Guarded
      (StackAllocator.shmInit 112 65536 fun _ => 0) [.allocate 64] s ∧
      StackAllocator.Moves s 144 128) := by
  have hex₁ : (execOk ScalablePageAllocator.step ScalablePageAllocator.Guarded
      (ScalablePageAllocator.shmInit ScalablePageAllocator.smallBackend fun _ => 0)
      [.allocate 64]).map (fun s => decide (ScalablePageAllocator.Guarded s
        (.reallocate 4304 128))) = some true := by
    decide +kernel
  have hex₂ : ((ThreadLocalAllocator.shmInit ThreadLocalAllocator.smallBackend 2048 4
      fun _ => 0).bind fun s₀ => execOk ThreadLocalAllocator.step ThreadLocalAllocator.Guarded s₀
      [(0, .allocate 1000)]).map (fun s => decide (ThreadLocalAllocator.Guarded s
        (0, .reallocate 17104 2000))) = some true := by
    decide +kernel
  have hex₃ : (execOk StackAllocator.step StackAllocator.Guarded
      (StackAllocator.shmInit 112 65536 fun _ => 0) [.allocate 64]).map (fun s =>
        decide (StackAllocator.Guarded s (.reallocate 144 128))) = some true := by
    decide +kernel
  obtain ⟨s₁, hs₁, hg₁⟩ := Option.map_eq_some_iff.mp hex₁
  obtain ⟨s₂, hs₂, hg₂⟩ := Option.map_eq_some_iff.mp hex₂
  obtain ⟨s₀, h₀, hs₂⟩ := Option.bind_eq_some_iff.mp hs₂
  obtain ⟨s₃, hs₃, hg₃⟩ := Option.map_eq_some_iff.mp hex₃
  have hrun₁ := run_of_execOk hs₁
  have hrun₂ := run_of_execOk hs₂
  have hrun₃ := run_of_execOk hs₃
  have hf : ThreadLocalAllocator.NoOverflow ThreadLocalAllocator.smallBackend 2048 4 := by
    unfold ThreadLocalAllocator.NoOverflow
    decide
  exact ⟨⟨s₁, hrun₁, (guarded_moves _ _ _).1 _ _ _ hrun₁ (of_decide_eq_true hg₁)⟩,
    ⟨s₀, s₂, h₀, hrun₂, (guarded_moves _ _ _).2.1 _ _ _ _ _ _ _ h₀ hf hrun₂
      (of_decide_eq_true hg₂)⟩,
    ⟨s₃, hrun₃, (guarded_moves _ _ _).2.2 _ _ _ _ (by decide) (by decide) hrun₃
      (of_decide_eq_true hg₃)⟩⟩

/-- **Shrinking writes over the next block.** A freed block of 64 bytes is reused for
a block of 128 bytes, which is copied whole, over the header after it. -/
theorem shrinking_overwrites : ¬ ∀ (ops : List Op) (s : ScalablePageAllocator.State) (p n : Nat),
    Run ScalablePageAllocator.step ScalablePageAllocator.Legal
      (ScalablePageAllocator.shmInit ScalablePageAllocator.smallBackend fun _ => 0) ops s →
    ScalablePageAllocator.Legal s (.reallocate p n) → ScalablePageAllocator.Moves s p n := by
  intro h
  have hex : (execOk ScalablePageAllocator.step ScalablePageAllocator.Legal
      (ScalablePageAllocator.shmInit ScalablePageAllocator.smallBackend fun _ => 0)
      [.allocate 128, .allocate 64, .allocate 64, .free 4464]).map (fun s =>
        (decide (ScalablePageAllocator.Legal s (.reallocate 4304 64)), s.live.map (·.off),
          [some (capacity s.mem 4560), some (s.mem 4552).toNat,
            (ScalablePageAllocator.allocateOffset s 64).bind (·.1.toOption),
            (ScalablePageAllocator.reallocateOffsetNoNullCheck s 4304 64).map
              fun r => (r.2.mem 4552).toNat])) =
      some (true, [4560, 4304], [some 64, some 96, some 4464, some 0]) := by
    decide +kernel
  obtain ⟨s, hs, he⟩ := Option.map_eq_some_iff.mp hex
  simp only [Prod.mk.injEq, List.cons.injEq, Option.some.injEq, and_true] at he
  obtain ⟨hg, hlive, hcap, hold, halloc, hnew⟩ := he
  obtain ⟨⟨r, s₁⟩, ha, hr⟩ := Option.bind_eq_some_iff.mp halloc
  obtain ⟨b, hb, hoff⟩ := List.mem_map.mp (hlive ▸ List.mem_cons_self : 4560 ∈ s.live.map (·.off))
  cases r with
  | error e => cases hr
  | ok q =>
    cases hr
    obtain ⟨s', he', hm⟩ := h _ s 4304 64 (run_of_execOk hs) (of_decide_eq_true hg) _ s₁ ha
    rw [he', Option.map_some, Option.some.injEq] at hnew
    have hsame := hm.others b hb (by omega) 4552 (by rw [hoff]; decide) (by rw [hoff]; omega)
    rw [hsame, hold] at hnew
    cases hnew

end HermesShm.Memory
