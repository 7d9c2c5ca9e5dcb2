import HermesShm.Base.Traced
import HermesShm.Memory.Accounting
import HermesShm.Memory.StackAllocator

/-! # What a failed request leaves behind

The heap moves its counter before it looks whether the request fits, so that a failed
request is told by what later ones are given. -/
namespace HermesShm.Memory
open HermesShm.Base MpPage

namespace HeapAllocator

variable {ω : Type*} {h : HeapAllocator} {off : Nat}

def call (h : HeapAllocator) (size : Fin sizeT) : Option (Option Nat × HeapAllocator) :=
  some (h.allocateOffset size)

theorem allocateOffset_snd (h : HeapAllocator) (size : Nat) :
    (h.allocateOffset size).2 = { h with heap_off_ := wordAdd sizeT h.heap_off_ size } := by
  simp only [allocateOffset]
  split <;> rfl

/-- Adding zero is the only request that leaves the heap as it was. -/
theorem allocateOffset_snd_eq (hoff : h.heap_off_ < sizeT) {size : Nat} (hs : size < sizeT) :
    (h.allocateOffset size).2 = h ↔ size = 0 := by
  rw [allocateOffset_snd, ← wordAdd_eq_left hoff hs]
  exact ⟨fun he => congrArg heap_off_ he, fun he => by rw [he]⟩

/-- The request that brings the counter to zero is served with the place of the counter,
which a heap with another counter does not give. -/
theorem told_apart_of (hoff : h.heap_off_ < sizeT) (hlt : off < sizeT) (hne : h.heap_off_ ≠ off)
    (hnull : wordAdd sizeT h.region_off_ h.heap_off_ ≠ nullOff) :
    ∃ k : Fin sizeT, (h.allocateOffset k).1 ≠
      (({ h with heap_off_ := off } : HeapAllocator).allocateOffset k).1 := by
  refine ⟨⟨(sizeT - h.heap_off_) % sizeT, Nat.mod_lt _ (by decide)⟩, ?_⟩
  have hserved : (h.allocateOffset ((sizeT - h.heap_off_) % sizeT)).1 =
      some (wordAdd sizeT h.region_off_ h.heap_off_) := by
    simp only [allocateOffset, wordAdd_neg hoff, gt_iff_lt, Nat.not_lt_zero, if_false, offset?,
      if_neg hnull]
  rw [hserved]
  simp only [allocateOffset]
  split
  · simp
  · simp only [offset?]
    split
    · simp
    · intro he
      exact hne (wordAdd_right_inj hoff hlt (Option.some.inj he))

/-- Some request tells two counters apart. -/
theorem told_apart (hoff : h.heap_off_ < sizeT) (hlt : off < sizeT) (hne : h.heap_off_ ≠ off) :
    ∃ k : Fin sizeT, (h.allocateOffset k).1 ≠
      (({ h with heap_off_ := off } : HeapAllocator).allocateOffset k).1 := by
  by_cases hnull : wordAdd sizeT h.region_off_ h.heap_off_ = nullOff
  · have hnull' : wordAdd sizeT h.region_off_ off ≠ nullOff := fun he =>
      hne (wordAdd_right_inj hoff hlt (hnull.trans he.symm))
    obtain ⟨k, hk⟩ := told_apart_of (h := { h with heap_off_ := off }) hlt hoff hne.symm hnull'
    exact ⟨k, hk.symm⟩
  · exact told_apart_of hoff hlt hne hnull

/-- Later calls go as if a request had not been made exactly if it was for no bytes. -/
theorem alike_iff (hoff : h.heap_off_ < sizeT) (size : Fin sizeT) (obs : HeapAllocator → ω) :
    Traced.Alike call obs h (h.allocateOffset size).2 ↔ size.val = 0 := by
  refine ⟨fun ha => ?_, fun h0 => ?_⟩
  · by_contra hne
    rw [allocateOffset_snd] at ha
    have hmoved : h.heap_off_ ≠ wordAdd sizeT h.heap_off_ size := fun he =>
      hne ((wordAdd_eq_left hoff size.isLt).mp he.symm)
    obtain ⟨k, hk⟩ := told_apart hoff (Nat.mod_lt _ (by decide)) hmoved
    exact hk (Option.some.inj (ha.reply_eq k))
  · rw [(allocateOffset_snd_eq hoff size.isLt).mpr h0]
    exact .refl call obs h

end HeapAllocator
namespace StackAllocator

inductive Call
  | subAllocate (size : Fin sizeT)
  | allocate (size : Fin sizeT)

variable {ω : Type*} {s : State}

def subAllocateOffset (s : State) (size : Nat) : Option Nat × State :=
  let (off, heap_) := s.heap_.allocateOffset size
  (off, { s with heap_ })

/-- No result where the code writes to the null page. -/
def call (s : State) : Call → Option (Option Nat × State)
  | .subAllocate size => some (subAllocateOffset s size)
  | .allocate size => (allocateOffset s size).map fun (p, s) => (some p, s)

/-- The heap refuses the request and its header. -/
def Refused (s : State) (size : Nat) : Prop :=
  (s.heap_.allocateOffset (wordAdd sizeT size mpPage)).1 = none

/-- Later calls go as if a request of the heap had not been made exactly if it was for no
bytes. -/
theorem alike_iff (hoff : s.heap_.heap_off_ < sizeT) (size : Fin sizeT) (obs : State → ω) :
    Traced.Alike call obs s (subAllocateOffset s size).2 ↔ size.val = 0 := by
  refine ⟨fun ha => ?_, fun h0 => ?_⟩
  · by_contra hne
    have hmoved : s.heap_.heap_off_ ≠ wordAdd sizeT s.heap_.heap_off_ size := fun he =>
      hne ((wordAdd_eq_left hoff size.isLt).mp he.symm)
    obtain ⟨k, hk⟩ := HeapAllocator.told_apart hoff (Nat.mod_lt _ (by decide)) hmoved
    have hreply := ha.reply_eq (.subAllocate k)
    simp only [call, subAllocateOffset, Option.map_some, Option.some.injEq,
      HeapAllocator.allocateOffset_snd] at hreply
    exact hk hreply
  · have hsame : (subAllocateOffset s size).2 = s := by
      simp only [subAllocateOffset, (HeapAllocator.allocateOffset_snd_eq hoff size.isLt).mpr h0]
    rw [hsame]
    exact .refl call obs s

/-- A request with a header that is refused has no result, nor a state for later calls. -/
theorem refused_no_result {size : Nat} (h : Refused s size) : allocateOffset s size = none := by
  unfold Refused at h
  simp only [allocateOffset, h, Option.bind_eq_bind, Option.bind_none]

end StackAllocator

namespace ScalablePageAllocator

variable {s s' : State} {size : Nat} {e : Error}

def call (s : State) (size : Fin sizeT) : Option (Except Error Nat × State) :=
  allocateOffset s size

/-- A request is rounded to a class, or it is as long as it was, with its header. -/
theorem round_cases (size : Nat) :
    (∃ e ≤ 24, (requestId size).round_ = 2 ^ e + mpPage) ∨
      (requestId size).round_ = wordAdd sizeT size mpPage ∧
        24 < ceilLog2 (wordSub sizeT (wordAdd sizeT size mpPage) mpPage) := by
  unfold requestId PageId.ofSize
  by_cases h1 : ceilLog2 (wordSub sizeT (wordAdd sizeT size mpPage) mpPage) <
      PageId.min_cached_size_exp_
  · simp only [if_pos h1]
    exact .inl ⟨6, by decide, rfl⟩
  · by_cases h2 : ceilLog2 (wordSub sizeT (wordAdd sizeT size mpPage) mpPage) >
        PageId.max_cached_size_exp_
    · simp only [if_neg h1, if_pos h2]
      exact .inr ⟨trivial, h2⟩
    · simp only [if_neg h1, if_neg h2]
      exact .inl ⟨_, Nat.not_lt.mp h2, rfl⟩

theorem round_lt (size : Nat) : (requestId size).round_ < sizeT := by
  rcases round_cases size with ⟨e, he, hr⟩ | ⟨hr, -⟩
  · have := Nat.pow_le_pow_right (n := 2) (by decide) he
    rw [hr]
    exact Nat.lt_of_le_of_lt (Nat.add_le_add_right this mpPage) (by decide)
  · rw [hr]
    exact Nat.mod_lt _ (by decide)

/-- The one size that is rounded to no bytes, as it wraps around with its header. -/
theorem round_eq_zero (hs : size < sizeT) :
    (requestId size).round_ = 0 ↔ size = sizeT - mpPage := by
  have hw : mpPage < sizeT := by decide
  constructor
  · intro h
    rcases round_cases size with ⟨e, -, hr⟩ | ⟨hr, -⟩
    · have := Nat.two_pow_pos e
      omega
    · rw [h, wordAdd] at hr
      by_cases hlt : size + mpPage < sizeT
      · rw [Nat.mod_eq_of_lt hlt] at hr
        have : mpPage = 32 := rfl
        omega
      · rw [Nat.mod_eq_sub_mod (Nat.not_lt.mp hlt), Nat.mod_eq_of_lt (by omega)] at hr
        omega
  · rintro rfl
    decide +kernel

/-- After a request without a page, the lists are as they were and later calls use the same
space of the heap exactly if the request was rounded to no bytes. -/
theorem alike_iff (hoff : s.heap_.heap_off_ < sizeT) (hs : size < sizeT)
    (h : allocateOffset s size = some (.error e, s')) :
    Traced.Alike call (·.heap_.heap_off_) s s' ↔ size = sizeT - mpPage := by
  obtain ⟨-, rfl⟩ := allocateOffset_error h
  rw [← round_eq_zero hs]
  rw [← HeapAllocator.allocateOffset_snd_eq hoff (round_lt size)]
  refine ⟨fun ha => ?_, fun he => ?_⟩
  · have hused := ha.obs_eq
    simp only [HeapAllocator.allocateOffset_snd] at hused ⊢
    rw [← hused]
  · rw [he]
    exact .refl call _ s

end ScalablePageAllocator

/-- **A failed request is seen later**, but for one whose bytes do not move the counter of
the heap: later calls and their use of the heap go as if it had not been made. -/
theorem failed_unseen_iff (h : HeapAllocator) (s : StackAllocator.State)
    (t : ScalablePageAllocator.State) (size : Fin sizeT) :
    (h.heap_off_ < sizeT → (h.allocateOffset size).1 = none →
      (Traced.Alike HeapAllocator.call (·.heap_off_) h (h.allocateOffset size).2 ↔
        size.val = 0)) ∧
    (s.heap_.heap_off_ < sizeT → (StackAllocator.subAllocateOffset s size).1 = none →
      (Traced.Alike StackAllocator.call (·.heap_.heap_off_) s
        (StackAllocator.subAllocateOffset s size).2 ↔ size.val = 0)) ∧
    (StackAllocator.Refused s size →
      ¬ ∃ p s', StackAllocator.allocateOffset s size = some (p, s') ∧
        Traced.Alike StackAllocator.call (·.heap_.heap_off_) s s') ∧
    (t.heap_.heap_off_ < sizeT → ∀ e t',
      ScalablePageAllocator.allocateOffset t size = some (.error e, t') →
      (Traced.Alike ScalablePageAllocator.call (·.heap_.heap_off_) t t' ↔
        size.val = sizeT - mpPage)) := by
  refine ⟨fun hoff _ => HeapAllocator.alike_iff hoff size _,
    fun hoff _ => StackAllocator.alike_iff hoff size _, ?_,
    fun hoff e t' he => ScalablePageAllocator.alike_iff hoff size.isLt he⟩
  rintro href ⟨p, s', he, -⟩
  rw [StackAllocator.refused_no_result href] at he
  cases he

/-- Requests for no bytes, and one that wraps around to none, where the heap is used up. -/
theorem failed_unseen_iff_zero :
    (Traced.Alike HeapAllocator.call (·.heap_off_) ⟨0, 101, 100⟩
      ((⟨0, 101, 100⟩ : HeapAllocator).allocateOffset 0).2) ∧
    ¬ Traced.Alike HeapAllocator.call (·.heap_off_) ⟨0, 0, 100⟩
      ((⟨0, 0, 100⟩ : HeapAllocator).allocateOffset 200).2 := by
  let s := StackAllocator.shmInit 112 4096 fun _ => 0
  let t := ScalablePageAllocator.shmInit ScalablePageAllocator.smallBackend fun _ => 0
  refine ⟨((failed_unseen_iff ⟨0, 101, 100⟩ s t ⟨0, by decide⟩).1 (by decide) (by decide)).mpr rfl,
    fun ha => ?_⟩
  have := ((failed_unseen_iff ⟨0, 0, 100⟩ s t ⟨200, by decide⟩).1 (by decide) (by decide)).mp ha
  cases this

/-- **A request that is too large uses up the heap.** After it, one for 100 bytes fails that
would be served without it. -/
theorem too_large_uses_up : ¬ ∀ (ops : List Op) (s s' : ScalablePageAllocator.State)
    (size : Fin sizeT) (e : Error),
    Run ScalablePageAllocator.step ScalablePageAllocator.Legal
      (ScalablePageAllocator.shmInit ScalablePageAllocator.smallBackend fun _ => 0) ops s →
    ScalablePageAllocator.allocateOffset s size = some (.error e, s') →
    Traced.Alike ScalablePageAllocator.call (·.heap_.heap_off_) s s' := by
  intro h
  let s := ScalablePageAllocator.shmInit ScalablePageAllocator.smallBackend fun _ => 0
  have hex : (ScalablePageAllocator.allocateOffset s (2 ^ 40)).map (fun r =>
      (r.1.isOk, (ScalablePageAllocator.allocateOffset r.2 100).map (·.1.isOk))) =
      some (false, some false) := by
    decide +kernel
  have hok : (ScalablePageAllocator.allocateOffset s 100).map (·.1.isOk) = some true := by
    decide +kernel
  obtain ⟨⟨r, s'⟩, hr, hlater⟩ := Option.map_eq_some_iff.mp hex
  obtain ⟨hfail, hlater⟩ := Prod.mk.inj hlater
  cases r with
  | ok p => cases hfail
  | error e =>
    have halike := (h [] s s' ⟨2 ^ 40, by decide⟩ e .nil hr).reply_eq ⟨100, by decide⟩
    have hmap := congrArg (Option.map Except.isOk) halike
    rw [Option.map_map, Option.map_map] at hmap
    have hsame : some true = some false := hok.symm.trans (hmap.trans hlater)
    cases hsame

end HermesShm.Memory
