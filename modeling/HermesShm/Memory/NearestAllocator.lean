import HermesShm.Memory.AllocatorRegistry

/-! # The allocator nearest to a pointer

`FindNearestAllocator` looks in the table for the shortest buffer that has the
pointer. It stops at the first one, whatever comes after it. -/
namespace HermesShm.Memory.AllocatorRegistry
open HermesShm.Base

/-- `std::numeric_limits<size_t>::max()` -/
def sizeMax : UInt64 := 0xFFFFFFFFFFFFFFFF

/-- An allocator object, with its buffer. -/
structure Object where
  addr : Nat
  buffer_ : UInt64
  buffer_size_ : UInt64
  deriving DecidableEq

def Object.containsPtr (a : Object) (ptr : UInt64) : Bool :=
  a.buffer_ ≤ ptr && ptr < a.buffer_ + a.buffer_size_

/-- The loop of `FindNearestAllocator` from some slot on. -/
def nearest (ptr : UInt64) : List (Option (Allocator Object)) → UInt64 →
    Option (Allocator Object) → Option (Allocator Object)
  | [], _, best_alloc => best_alloc
  | alloc :: allocators, range, best_alloc =>
    let (range, best_alloc) := match alloc with
      | some a =>
        if a.ptr.containsPtr ptr && a.ptr.buffer_size_ ≤ range then (a.ptr.buffer_size_, some a)
        else (range, best_alloc)
      | none => (range, best_alloc)
    if range < sizeMax then best_alloc else nearest ptr allocators range best_alloc

/-- The slots of the table. -/
def Registry.table (r : Registry Object) : List (Option (Allocator Object)) :=
  (List.range HSHM_MAX_ALLOCATORS).map r.allocators_

def findNearestAllocator (r : Registry Object) (ptr : UInt64) : Option (Allocator Object) :=
  nearest ptr r.table sizeMax none

def Registry.Registered (r : Registry Object) (a : Allocator Object) : Prop :=
  ∃ i < HSHM_MAX_ALLOCATORS, r.allocators_ i = some a

/-- `alloc` is a registered allocator of least length that has the pointer, if there
is one at all. -/
structure Nearest (r : Registry Object) (ptr : UInt64) (alloc : Option (Allocator Object)) :
    Prop where
  null_iff : alloc = none ↔ ∀ a, r.Registered a → a.ptr.containsPtr ptr = false
  found : ∀ a, alloc = some a → r.Registered a ∧ a.ptr.containsPtr ptr = true
  least : ∀ a, alloc = some a → ∀ b, r.Registered b → b.ptr.containsPtr ptr = true →
    a.ptr.buffer_size_ ≤ b.ptr.buffer_size_

/-- `a` in slot `i` has the pointer, and is the first such that is shorter than `sizeMax`. -/
structure First (r : Registry Object) (ptr : UInt64) (i : Nat) (a : Allocator Object) : Prop where
  lt : i < HSHM_MAX_ALLOCATORS
  slot : r.allocators_ i = some a
  has : a.ptr.containsPtr ptr = true
  size_lt : a.ptr.buffer_size_ < sizeMax
  before : ∀ k < i, ∀ b, r.allocators_ k = some b → b.ptr.containsPtr ptr = true →
    b.ptr.buffer_size_ = sizeMax

/-- No later slot has a shorter buffer around the pointer than the first one. -/
def FirstShortest (r : Registry Object) (ptr : UInt64) : Prop :=
  ∀ i a, First r ptr i a → ∀ j, i < j → j < HSHM_MAX_ALLOCATORS → ∀ b, r.allocators_ j = some b →
    b.ptr.containsPtr ptr = true → a.ptr.buffer_size_ ≤ b.ptr.buffer_size_

variable {r : Registry Object} {ptr n : UInt64} {a b : Allocator Object}

theorem le_sizeMax (n : UInt64) : n ≤ sizeMax := by
  have hlt := n.toNat_lt
  have hmax : sizeMax.toNat = 2 ^ 64 - 1 := rfl
  rw [UInt64.le_iff_toNat_le]
  omega

theorem eq_sizeMax (h : ¬ n < sizeMax) : n = sizeMax :=
  UInt64.le_antisymm (le_sizeMax n) (UInt64.not_lt.mp h)

/-! ## The loop -/

/-- How the loop ends: at the first buffer shorter than `sizeMax`, or at the last one. -/
inductive Scan (ptr : UInt64) (xs : List (Option (Allocator Object)))
    (best_alloc : Option (Allocator Object)) : Option (Allocator Object) → Prop
  | stopped {ys zs : List (Option (Allocator Object))} {a : Allocator Object}
      (split : xs = ys ++ some a :: zs) (has : a.ptr.containsPtr ptr = true)
      (size_lt : a.ptr.buffer_size_ < sizeMax)
      (before : ∀ b, some b ∈ ys → b.ptr.containsPtr ptr = true →
        b.ptr.buffer_size_ = sizeMax) : Scan ptr xs best_alloc (some a)
  | last {a : Allocator Object} (mem : some a ∈ xs) (has : a.ptr.containsPtr ptr = true)
      (all : ∀ b, some b ∈ xs → b.ptr.containsPtr ptr = true → b.ptr.buffer_size_ = sizeMax) :
      Scan ptr xs best_alloc (some a)
  | none (none : ∀ b, some b ∈ xs → b.ptr.containsPtr ptr = false) :
      Scan ptr xs best_alloc best_alloc

/-- A slot whose buffer does not end the loop. -/
theorem Scan.cons {xs : List (Option (Allocator Object))} {x best_alloc best_alloc' res :
    Option (Allocator Object)} (h : Scan ptr xs best_alloc' res)
    (hx : ∀ a, x = some a → a.ptr.containsPtr ptr = true → a.ptr.buffer_size_ = sizeMax)
    (hbest : best_alloc' = best_alloc ∧ (∀ a, x = some a → a.ptr.containsPtr ptr = false) ∨
      best_alloc' = x ∧ ∃ a, x = some a ∧ a.ptr.containsPtr ptr = true) :
    Scan ptr (x :: xs) best_alloc res := by
  cases h with
  | @stopped ys zs a split has size_lt before =>
    have hsplit : x :: xs = (x :: ys) ++ some a :: zs := by rw [split, List.cons_append]
    refine .stopped hsplit has size_lt ?_
    intro b hb
    rcases List.mem_cons.mp hb with rfl | hb
    · exact hx b rfl
    · exact before b hb
  | last mem has all =>
    refine .last (List.mem_cons_of_mem _ mem) has fun b hb => ?_
    rcases List.mem_cons.mp hb with rfl | hb
    · exact hx b rfl
    · exact all b hb
  | none hnone =>
    rcases hbest with ⟨rfl, hmiss⟩ | ⟨rfl, a, rfl, has⟩
    · refine .none fun b hb => ?_
      rcases List.mem_cons.mp hb with rfl | hb
      · exact hmiss b rfl
      · exact hnone b hb
    · refine .last List.mem_cons_self has fun b hb hbh => ?_
      rcases List.mem_cons.mp hb with hb | hb
      · exact hx b hb.symm hbh
      · rw [hnone b hb] at hbh
        cases hbh

theorem nearest_scan (ptr : UInt64) (xs : List (Option (Allocator Object)))
    (best_alloc : Option (Allocator Object)) :
    Scan ptr xs best_alloc (nearest ptr xs sizeMax best_alloc) := by
  induction xs generalizing best_alloc with
  | nil => exact .none nofun
  | cons x xs ih =>
    have hirr : ¬ sizeMax < sizeMax := UInt64.lt_irrefl _
    cases x with
    | none =>
      simp only [nearest, if_neg hirr]
      exact (ih best_alloc).cons nofun (.inl ⟨rfl, nofun⟩)
    | some a =>
      by_cases has : a.ptr.containsPtr ptr = true
      · simp only [nearest, has, le_sizeMax, decide_true, Bool.and_self, if_true]
        by_cases hlt : a.ptr.buffer_size_ < sizeMax
        · rw [if_pos hlt]
          have hsplit : some a :: xs = [] ++ some a :: xs := rfl
          exact .stopped hsplit has hlt nofun
        · rw [if_neg hlt, eq_sizeMax hlt]
          refine (ih (some a)).cons (fun b hb _ => ?_) (.inr ⟨rfl, a, rfl, has⟩)
          cases hb
          exact eq_sizeMax hlt
      · have has := Bool.eq_false_iff.mpr has
        simp only [nearest, has, Bool.false_and, Bool.false_eq_true, if_false, if_neg hirr]
        refine (ih best_alloc).cons (fun b hb hbh => ?_) (.inl ⟨rfl, fun b hb => ?_⟩)
        · cases hb
          rw [has] at hbh
          cases hbh
        · cases hb
          exact has

/-! ## The table -/

theorem mem_table : some a ∈ r.table ↔ r.Registered a := by
  simp [Registry.table, Registry.Registered]

/-- A slot of the table, by what is before it. -/
theorem table_split {ys zs : List (Option (Allocator Object))}
    (h : r.table = ys ++ some a :: zs) :
    ys.length < HSHM_MAX_ALLOCATORS ∧ r.allocators_ ys.length = some a ∧
      ∀ k < ys.length, ∀ b, r.allocators_ k = some b → some b ∈ ys := by
  have hlen : r.table.length = HSHM_MAX_ALLOCATORS := by simp [Registry.table]
  have hlt : ys.length < HSHM_MAX_ALLOCATORS := by
    rw [← hlen, h, List.length_append, List.length_cons]
    omega
  have hget : ∀ k < HSHM_MAX_ALLOCATORS, r.table[k]? = some (r.allocators_ k) := fun k hk => by
    simp [Registry.table, hk]
  refine ⟨hlt, ?_, fun k hk b hb => ?_⟩
  · have hself := hget _ hlt
    rw [h, List.getElem?_append_right (Nat.le_refl _), Nat.sub_self,
      List.getElem?_cons_zero] at hself
    exact (Option.some.inj hself).symm
  · have hk' := hget k (Nat.lt_trans hk hlt)
    rw [h, List.getElem?_append_left hk, hb] at hk'
    exact List.mem_of_getElem? hk'

/-- The first buffer is the only one that can be returned. -/
theorem First.eq {i j : Nat} (h : First r ptr i a) (h' : First r ptr j b) : i = j ∧ a = b := by
  have hij : i = j := by
    rcases Nat.lt_trichotomy i j with hlt | heq | hlt
    · have hsize := h'.before i hlt a h.slot h.has
      exact absurd (hsize ▸ h.size_lt) (UInt64.lt_irrefl _)
    · exact heq
    · have hsize := h.before j hlt b h'.slot h'.has
      exact absurd (hsize ▸ h'.size_lt) (UInt64.lt_irrefl _)
  subst hij
  exact ⟨rfl, Option.some.inj (h.slot.symm.trans h'.slot)⟩

/-- What is returned: the first buffer shorter than `sizeMax`, or else one that is not. -/
theorem findNearestAllocator_cases (r : Registry Object) (ptr : UInt64) :
    (∃ i a, First r ptr i a ∧ findNearestAllocator r ptr = some a) ∨
    (∀ b, r.Registered b → b.ptr.containsPtr ptr = true → b.ptr.buffer_size_ = sizeMax) ∧
      ((∃ a, r.Registered a ∧ a.ptr.containsPtr ptr = true ∧
          findNearestAllocator r ptr = some a) ∨
        (∀ b, r.Registered b → b.ptr.containsPtr ptr = false) ∧
          findNearestAllocator r ptr = none) := by
  have hs := nearest_scan ptr r.table none
  rw [← findNearestAllocator] at hs
  generalize findNearestAllocator r ptr = res at hs ⊢
  cases hs with
  | @stopped ys zs a split has size_lt before =>
    obtain ⟨hlt, hslot, hys⟩ := table_split split
    exact .inl ⟨_, a, ⟨hlt, hslot, has, size_lt, fun k hk b hb => before b (hys k hk b hb)⟩, rfl⟩
  | last mem has all =>
    exact .inr ⟨fun b hb => all b (mem_table.mpr hb), .inl ⟨_, mem_table.mp mem, has, rfl⟩⟩
  | none hnone =>
    have hnone : ∀ b, r.Registered b → b.ptr.containsPtr ptr = false :=
      fun b hb => hnone b (mem_table.mpr hb)
    refine .inr ⟨fun b hb hbh => ?_, .inr ⟨hnone, rfl⟩⟩
    rw [hnone b hb] at hbh
    cases hbh

/-- Nothing is returned where no registered allocator has the pointer, and else one that
has it. -/
theorem findNearestAllocator_sound (r : Registry Object) (ptr : UInt64) :
    (findNearestAllocator r ptr = none ↔ ∀ a, r.Registered a → a.ptr.containsPtr ptr = false) ∧
      ∀ a, findNearestAllocator r ptr = some a →
        r.Registered a ∧ a.ptr.containsPtr ptr = true := by
  have hfound : ∀ a, r.Registered a → a.ptr.containsPtr ptr = true →
      findNearestAllocator r ptr = some a →
      (findNearestAllocator r ptr = none ↔
        ∀ b, r.Registered b → b.ptr.containsPtr ptr = false) ∧
      ∀ b, findNearestAllocator r ptr = some b →
        r.Registered b ∧ b.ptr.containsPtr ptr = true := by
    intro a ha has he
    rw [he]
    refine ⟨iff_of_false nofun fun hall => ?_, fun b hb => ?_⟩
    · rw [hall a ha] at has
      cases has
    · cases hb
      exact ⟨ha, has⟩
  rcases findNearestAllocator_cases r ptr with
    ⟨i, a, hf, he⟩ | ⟨-, ⟨a, ha, has, he⟩ | ⟨hnone, he⟩⟩
  · exact hfound a ⟨i, hf.lt, hf.slot⟩ hf.has he
  · exact hfound a ha has he
  · rw [he]
    exact ⟨iff_of_true rfl hnone, nofun⟩

/-- **The first buffer is returned.** It is the nearest one exactly where no later slot
has a shorter one around the pointer. -/
theorem nearest_iff (r : Registry Object) (ptr : UInt64) :
    Nearest r ptr (findNearestAllocator r ptr) ↔ FirstShortest r ptr := by
  obtain ⟨hnull, hfound⟩ := findNearestAllocator_sound r ptr
  rcases findNearestAllocator_cases r ptr with ⟨i, a, hf, he⟩ | ⟨hall, -⟩
  · refine ⟨fun h i' a' hf' j _ hj b hb hbh => ?_, fun h => ⟨hnull, hfound, ?_⟩⟩
    · obtain ⟨-, rfl⟩ := hf.eq hf'
      exact h.least a he b ⟨j, hj, hb⟩ hbh
    · intro a' he' b ⟨j, hj, hb⟩ hbh
      rw [he] at he'
      cases he'
      rcases Nat.lt_trichotomy i j with hlt | rfl | hlt
      · exact h i a hf j hlt hj b hb hbh
      · rw [hf.slot] at hb
        cases hb
        exact UInt64.le_refl _
      · rw [hf.before j hlt b hb hbh]
        exact le_sizeMax _
  · refine iff_of_true ⟨hnull, hfound, fun a he b hb hbh => ?_⟩ fun i a hf => ?_
    · rw [hall b hb hbh]
      exact le_sizeMax _
    · exact absurd (hall a ⟨i, hf.lt, hf.slot⟩ hf.has ▸ hf.size_lt) (UInt64.lt_irrefl _)

def smallRoot : Object := { addr := 0, buffer_ := 4096, buffer_size_ := 65536 }

def smallPage : Allocator Object :=
  { id_ := ⟨1, 0⟩, ptr := { addr := 1, buffer_ := 131072, buffer_size_ := 65536 } }

/-- The buffer of the internal allocator ends where that of the page allocator does. -/
def smallSub : Object := { addr := 2, buffer_ := 135328, buffer_size_ := 61280 }

/-- A page allocator hides its internal one, which is registered after it in the table. -/
theorem internal_hidden : ¬ ∀ (root : Object) (ops : List (Op Object)) (s : State Object)
    (ptr : UInt64), Run step Unrestricted (init root) ops s →
      Nearest s.registry ptr (findNearestAllocator s.registry ptr) := by
  intro h
  have hex : (exec step (init smallRoot) [.registerPage smallPage smallSub]).map (fun s =>
      (findNearestAllocator s.registry 135424, s.registry.allocators_ 3)) =
        some (some smallPage, some ⟨⟨1, 1⟩, smallSub⟩) := by
    decide +kernel
  obtain ⟨s, hs, he⟩ := Option.map_eq_some_iff.mp hex
  obtain ⟨hfind, hslot⟩ := Prod.mk.inj he
  have hle := (h _ _ s 135424 (run_iff_exec.mpr hs)).least _ hfind ⟨⟨1, 1⟩, smallSub⟩
    ⟨3, by decide, hslot⟩ (by decide)
  exact absurd hle (by decide)

end HermesShm.Memory.AllocatorRegistry
