import HermesShm.Base.Pool
import HermesShm.Base.Transition
import HermesShm.Memory.HeapAllocator

/-! # Threads on one bump allocator

`AllocateOffset` has one access to shared memory, the `fetch_add` of `heap_off_`; the
bound test and the result come later. As long as the counter does not wrap around, the
results are apart and inside the heap. -/
namespace HermesShm.Memory
open HermesShm.Base

namespace HeapAllocator

def fetchAdd (h : HeapAllocator) (size : Nat) : HeapAllocator :=
  { h with heap_off_ := wordAdd sizeT h.heap_off_ size }

/-- The result of a request whose `fetch_add` returned `off`. -/
def result (h : HeapAllocator) (off size : Nat) : Option Nat :=
  if wordAdd sizeT off size > h.heap_size_ then none
  else offset? (wordAdd sizeT h.region_off_ off)

/-- Without overflow, a region that is returned lies in the heap. -/
theorem result_spec {h : HeapAllocator} {off size p : Nat} (hlt : off + size < sizeT)
    (hend : h.region_off_ + h.heap_size_ < sizeT) (hr : h.result off size = some p) :
    off + size ≤ h.heap_size_ ∧ p = h.region_off_ + off := by
  unfold result at hr
  rw [wordAdd_of_lt hlt] at hr
  split at hr
  · cases hr
  rename_i hfit
  have hfit := Nat.not_lt.mp hfit
  rw [wordAdd_of_lt (by omega), offset?] at hr
  split at hr
  · cases hr
  · exact ⟨hfit, (Option.some.inj hr).symm⟩

end HeapAllocator

namespace HeapThreads

/-- The allocator, and the regions returned so far, the newest first. -/
structure Shared where
  heap : HeapAllocator
  results : List Region := []

/-- A thread inside `AllocateOffset` has the old counter. -/
inductive Pc
  | idle
  | fetched (off size : Nat)

inductive Act
  | allocateOffset (size : Nat)
  | return_

def exec (m : Shared) : Pc → Act → Option (Shared × Pc)
  | .idle, .allocateOffset size =>
    some ({ m with heap := m.heap.fetchAdd size }, .fetched m.heap.heap_off_ size)
  | .fetched off size, .return_ =>
    some ({ m with results := match m.heap.result off size with
      | some p => ⟨p, size⟩ :: m.results
      | none => m.results }, .idle)
  | _, _ => none

variable {ι : Type*}

def init (ι : Type*) (region_off heap_size : Nat) : Pool ι Shared Pc :=
  ⟨{ heap := .shmInit region_off heap_size }, fun _ => .idle⟩

def step [DecidableEq ι] : Pool ι Shared Pc → ι × Act → Option (Pool ι Shared Pc) := Pool.step exec

/-- Requests have a 64-bit size. -/
def Legal (_ : Pool ι Shared Pc) : ι × Act → Prop
  | (_, .allocateOffset size) => size < sizeT
  | (_, .return_) => True

instance (s : Pool ι Shared Pc) : ∀ l, Decidable (Legal s l)
  | (_, .allocateOffset _) => inferInstanceAs (Decidable (_ < _))
  | (_, .return_) => isTrue trivial

/-- The counter does not wrap around. -/
def NoWrap (s : Pool ι Shared Pc) : ι × Act → Prop
  | (_, .allocateOffset size) => s.shared.heap.heap_off_ + size < sizeT
  | (_, .return_) => True

instance (s : Pool ι Shared Pc) : ∀ l, Decidable (NoWrap s l)
  | (_, .allocateOffset _) => inferInstanceAs (Decidable (_ < _))
  | (_, .return_) => isTrue trivial

/-- The results are apart, and in the heap. -/
structure Placed (region_off heap_size : Nat) (results : List Region) : Prop where
  inside : ∀ r ∈ results, region_off ≤ r.off ∧ r.off + r.len ≤ region_off + heap_size
  apart : results.Pairwise Region.Apart

/-- What the requests have taken: results and requests under way are below the counter,
and apart. -/
def taken (region_off heap_size : Nat) : Assertion Shared Pc where
  shared m := m.heap.region_off_ = region_off ∧ m.heap.heap_size_ = heap_size ∧
    Placed region_off heap_size m.results ∧
    ∀ r ∈ m.results, r.off + r.len ≤ region_off + m.heap.heap_off_
  each m p := ∀ off size, p = .fetched off size →
    off + size ≤ m.heap.heap_off_ ∧ m.heap.heap_off_ < sizeT ∧
      ∀ r ∈ m.results, Region.Apart ⟨region_off + off, size⟩ r
  pair p q := ∀ off size off' size', p = .fetched off size → q = .fetched off' size' →
    Region.Apart ⟨off, size⟩ ⟨off', size'⟩

variable {region_off heap_size : Nat} {s s' : Pool ι Shared Pc}

theorem init_taken : (taken region_off heap_size).Holds (init ι region_off heap_size).shared
    (init ι region_off heap_size).pc :=
  ⟨⟨rfl, rfl, ⟨nofun, .nil⟩, nofun⟩, nofun, nofun⟩

/-- A request takes the range from the counter on. -/
theorem fetch_taken [DecidableEq ι] {i : ι} {size : Nat}
    (h : (taken region_off heap_size).Holds s.shared s.pc)
    (hw : s.shared.heap.heap_off_ + size < sizeT) :
    (taken region_off heap_size).Holds
      { s.shared with heap := s.shared.heap.fetchAdd size }
      (Function.update s.pc i (.fetched s.shared.heap.heap_off_ size)) := by
  obtain ⟨hreg, hsize, hplaced, hbelow⟩ := h.shared
  have hoff : (s.shared.heap.fetchAdd size).heap_off_ = s.shared.heap.heap_off_ + size :=
    wordAdd_of_lt hw
  refine h.update ⟨hreg, hsize, hplaced, fun r hr => ?_⟩ (fun off n he => ?_) fun j hj =>
    ⟨fun off n he => ?_, fun off n off' n' he he' => ?_, fun off n off' n' he he' => ?_⟩
  · have := hbelow r hr
    rw [hoff]
    omega
  · cases he
    rw [hoff]
    exact ⟨Nat.le_refl _, hw, fun r hr => .inr (hbelow r hr)⟩
  · obtain ⟨hle, -, hap⟩ := h.each j off n he
    rw [hoff]
    exact ⟨Nat.le_add_right_of_le hle, hw, hap⟩
  · cases he
    exact .inr (h.each j off' n' he').1
  · cases he'
    exact .inl (h.each j off n he).1

/-- The range of a request becomes a result. -/
theorem return_taken [DecidableEq ι] {i : ι} {off size : Nat}
    (h : (taken region_off heap_size).Holds s.shared s.pc) (hp : s.pc i = .fetched off size)
    (hfit : off + size ≤ heap_size) :
    (taken region_off heap_size).Holds
      { s.shared with results := ⟨region_off + off, size⟩ :: s.shared.results }
      (Function.update s.pc i .idle) := by
  obtain ⟨hreg, hsize, hplaced, hbelow⟩ := h.shared
  obtain ⟨hle, -, hap⟩ := h.each i off size hp
  refine h.update ⟨hreg, hsize, ⟨?_, hplaced.apart.cons fun r hr => hap r hr⟩, ?_⟩ nofun
    fun j hj => ⟨fun off' n' he => ?_, nofun, nofun⟩
  · intro r hr
    rcases List.mem_cons.mp hr with rfl | hr
    · simp only
      omega
    · exact hplaced.inside r hr
  · intro r hr
    rcases List.mem_cons.mp hr with rfl | hr
    · simp only
      omega
    · exact hbelow r hr
  · obtain ⟨hle', hlt', hap'⟩ := h.each j off' n' he
    refine ⟨hle', hlt', fun r hr => ?_⟩
    rcases List.mem_cons.mp hr with rfl | hr
    · have := h.pair j i hj off' n' off size he hp
      unfold Region.Apart at this ⊢
      simp only at this ⊢
      omega
    · exact hap' r hr

theorem step_taken [DecidableEq ι] {l : ι × Act} (hsum : region_off + heap_size < sizeT)
    (h : (taken region_off heap_size).Holds s.shared s.pc) (hw : NoWrap s l)
    (hs : step s l = some s') : (taken region_off heap_size).Holds s'.shared s'.pc := by
  obtain ⟨m, p, he, rfl⟩ := Pool.step_cases hs
  obtain ⟨i, a⟩ := l
  obtain ⟨hreg, hsize, -, -⟩ := h.shared
  generalize hp : s.pc i = pc at he
  cases pc with
  | idle =>
    cases a with
    | return_ => cases he
    | allocateOffset size =>
      cases he
      exact fetch_taken h hw
  | fetched off size =>
    cases a with
    | allocateOffset size => cases he
    | return_ =>
      cases he
      obtain ⟨hle, hlt, -⟩ := h.each i off size hp
      cases hr : s.shared.heap.result off size with
      | none => exact h.update h.shared nofun fun j _ => ⟨h.each j, nofun, nofun⟩
      | some p =>
        obtain ⟨hfit, rfl⟩ := HeapAllocator.result_spec (by omega) (by omega) hr
        rw [hreg]
        exact return_taken h hp (hsize ▸ hfit)

/-- **Without a wrap the results are apart.** As long as no `fetch_add` takes the counter
past 64 bits, the regions handed out are apart and in the heap. -/
theorem placed_of_noWrap [DecidableEq ι] (hsum : region_off + heap_size < sizeT)
    {ops : List (ι × Act)} (h : Run step (fun s l => Legal s l ∧ NoWrap s l)
      (init ι region_off heap_size) ops s) :
    Placed region_off heap_size s.shared.results := by
  have := h.invariant (I := fun s => (taken region_off heap_size).Holds s.shared s.pc) init_taken
    fun s l s' hi ⟨_, hw⟩ hs => step_taken hsum hi hw hs
  exact this.shared.2.2.1

/-- Two threads fetch before one of them returns; a request too long is refused. -/
theorem placed_of_noWrap_two : ∃ s : Pool (Fin 2) Shared Pc,
    Placed 64 100 s.shared.results ∧ s.shared.results = [⟨104, 30⟩, ⟨64, 40⟩] := by
  let ops : List (Fin 2 × Act) := [(0, .allocateOffset 40), (1, .allocateOffset 30), (0, .return_),
    (0, .allocateOffset 500), (1, .return_), (0, .return_)]
  have hs : (execOk step (fun s l => Legal s l ∧ NoWrap s l) (init (Fin 2) 64 100) ops).map
      (·.shared.results) = some [⟨104, 30⟩, ⟨64, 40⟩] := by decide +kernel
  obtain ⟨s, hs, hr⟩ := Option.map_eq_some_iff.mp hs
  exact ⟨s, placed_of_noWrap (by decide) (run_of_execOk hs), hr⟩

/-- **A refused request lets the counter wrap around.** After the request for `2 ^ 64 - 1`
bytes, which is refused, the next one gets a region before the heap. -/
theorem wrapped_before_heap : ¬ ∀ (ops : List (Unit × Act)) (s : Pool Unit Shared Pc),
    Run step Legal (init Unit 64 100) ops s → Placed 64 100 s.shared.results := by
  intro h
  let ops : List (Unit × Act) := [((), .allocateOffset (2 ^ 64 - 1)), ((), .return_),
    ((), .allocateOffset 10), ((), .return_)]
  have hs : (execOk step Legal (init Unit 64 100) ops).map (·.shared.results) =
      some [⟨63, 10⟩] := by decide +kernel
  obtain ⟨s, hs, hr⟩ := Option.map_eq_some_iff.mp hs
  have := ((h ops s (run_of_execOk hs)).inside ⟨63, 10⟩ (by rw [hr]; simp)).1
  simp at this

end HeapThreads
end HermesShm.Memory
