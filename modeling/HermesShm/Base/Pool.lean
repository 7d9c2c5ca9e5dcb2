import HermesShm.Base.Transition
import Mathlib.Data.Finset.Card
import Mathlib.Logic.Function.Basic

/-! # Threads over a shared state

A pool has one shared state and a program point for every thread. One step of
one thread (`exec`) reads and writes the shared state and moves the thread; all
interleavings are the runs of `Pool.step`. Assertions are proved thread by
thread: what the moving thread establishes, what every other thread keeps, and
what holds between two threads. -/
namespace HermesShm.Base

variable {ι μ π α : Type*}

structure Pool (ι μ π : Type*) where
  shared : μ
  pc : ι → π

/-- Thread `l.1` takes the step `l.2`. -/
def Pool.step [DecidableEq ι] (exec : μ → π → α → Option (μ × π)) (s : Pool ι μ π)
    (l : ι × α) : Option (Pool ι μ π) :=
  (exec s.shared (s.pc l.1) l.2).map fun r => ⟨r.1, Function.update s.pc l.1 r.2⟩

theorem Pool.step_cases [DecidableEq ι] {exec : μ → π → α → Option (μ × π)} {s t : Pool ι μ π}
    {l : ι × α} (h : s.step exec l = some t) :
    ∃ m p, exec s.shared (s.pc l.1) l.2 = some (m, p) ∧ t = ⟨m, Function.update s.pc l.1 p⟩ := by
  obtain ⟨⟨m, p⟩, he, rfl⟩ := Option.map_eq_some_iff.mp h
  exact ⟨m, p, he, rfl⟩

/-- A thread that runs alone. -/
theorem Pool.exec_alone [DecidableEq ι] (f : μ → π → α → Option (μ × π)) (s : Pool ι μ π) (i : ι)
    (as : List α) : exec (Pool.step f) s (as.map (i, ·)) =
      (exec (fun x a => f x.1 x.2 a) (s.shared, s.pc i) as).map fun x =>
        ⟨x.1, Function.update s.pc i x.2⟩ := by
  induction as generalizing s with
  | nil => simp only [List.map_nil, exec, Option.map_some, Function.update_eq_self]
  | cons a as ih =>
    simp only [List.map_cons, exec, Pool.step]
    cases f s.shared (s.pc i) a with
    | none => rfl
    | some x =>
      obtain ⟨m, p⟩ := x
      simp only [Option.map_some, Option.bind_some, ih, Function.update_self, Function.update_idem]

/-! ## Counting threads -/

/-- Exactly `n` threads are at a program point in `p`. -/
def Count (p : π → Prop) (pc : ι → π) (n : Nat) : Prop :=
  ∃ F : Finset ι, (∀ i, i ∈ F ↔ p (pc i)) ∧ F.card = n

namespace Count

variable {p : π → Prop} {pc : ι → π} {n : Nat} {i : ι} {x y : π}

theorem zero (h : ∀ i, ¬ p (pc i)) : Count p pc 0 :=
  ⟨∅, fun i => by simp [h i], rfl⟩

theorem pos (h : Count p pc n) (hi : p (pc i)) : 0 < n := by
  obtain ⟨F, hF, rfl⟩ := h
  exact Finset.card_pos.mpr ⟨i, (hF i).mpr hi⟩

theorem eq_zero (h : Count p pc n) (hnone : ∀ i, ¬ p (pc i)) : n = 0 := by
  obtain ⟨F, hF, rfl⟩ := h
  refine Finset.card_eq_zero.mpr (Finset.eq_empty_of_forall_notMem ?_)
  intro i hi
  exact hnone i ((hF i).mp hi)

variable [DecidableEq ι]

/-- Thread `i` moves from `y` to `x`. -/
theorem same (h : Count p pc n) (hi : pc i = y) (hx : p x ↔ p y) :
    Count p (Function.update pc i x) n := by
  obtain ⟨F, hF, rfl⟩ := h
  subst hi
  refine ⟨F, fun j => ?_, rfl⟩
  by_cases hj : j = i
  · subst hj; rw [Function.update_self, hF, hx]
  · rw [Function.update_of_ne hj, hF]

theorem enter (h : Count p pc n) (hi : pc i = y) (hy : ¬ p y) (hx : p x) :
    Count p (Function.update pc i x) (n + 1) := by
  obtain ⟨F, hF, rfl⟩ := h
  subst hi
  refine ⟨insert i F, fun j => ?_, Finset.card_insert_of_notMem (by rw [hF]; exact hy)⟩
  by_cases hj : j = i
  · subst hj; simp [hx]
  · simp [hj, hF]

theorem leave (h : Count p pc n) (hi : pc i = y) (hy : p y) (hx : ¬ p x) :
    Count p (Function.update pc i x) (n - 1) := by
  obtain ⟨F, hF, rfl⟩ := h
  subst hi
  refine ⟨F.erase i, fun j => ?_, Finset.card_erase_of_mem ((hF i).mpr hy)⟩
  by_cases hj : j = i
  · subst hj; simp [hx]
  · simp [hj, hF]

end Count

/-! ## Assertions, thread by thread -/

/-- An assertion on a pool: one part about the shared state, one about each
thread, one between two different threads. -/
structure Assertion (μ π : Type*) where
  shared : μ → Prop
  each : μ → π → Prop
  pair : π → π → Prop

/-- The assertion holds of the pool. -/
structure Assertion.Holds (A : Assertion μ π) (m : μ) (pc : ι → π) : Prop where
  shared : A.shared m
  each : ∀ i, A.each m (pc i)
  pair : ∀ i j, i ≠ j → A.pair (pc i) (pc j)

/-- **Interference freedom.** One thread's step keeps the assertion when the
thread establishes its own part and every other thread keeps its part. -/
theorem Assertion.Holds.update [DecidableEq ι] {A : Assertion μ π} {m m' : μ} {pc : ι → π}
    {i : ι} {x : π} (h : A.Holds m pc) (hs : A.shared m') (hx : A.each m' x)
    (ho : ∀ j, j ≠ i → A.each m' (pc j) ∧ A.pair x (pc j) ∧ A.pair (pc j) x) :
    A.Holds m' (Function.update pc i x) := by
  refine ⟨hs, fun j => ?_, fun j k hne => ?_⟩
  · by_cases hj : j = i
    · subst hj; rwa [Function.update_self]
    · rw [Function.update_of_ne hj]; exact (ho j hj).1
  · by_cases hj : j = i
    · subst hj
      rw [Function.update_self, Function.update_of_ne (Ne.symm hne)]
      exact (ho k (Ne.symm hne)).2.1
    · rw [Function.update_of_ne hj]
      by_cases hk : k = i
      · subst hk; rw [Function.update_self]; exact (ho j hj).2.2
      · rw [Function.update_of_ne hk]; exact h.pair j k hne

/-- A step outside the pool keeps the assertion when every thread keeps its part. -/
theorem Assertion.Holds.environment {A : Assertion μ π} {m m' : μ} {pc : ι → π}
    (h : A.Holds m pc) (hs : A.shared m') (ho : ∀ j, A.each m (pc j) → A.each m' (pc j)) :
    A.Holds m' pc :=
  ⟨hs, fun j => ho j (h.each j), h.pair⟩

/-! ## Threads that own items -/

/-- Every thread meets `ok`, no item is in the hands of two threads, and only
the thread `d` does what `task` says. -/
structure Roles {ν : Type*} (ok : π → Prop) (item : π → Option ν) (task : π → Prop) (d : ι)
    (pc : ι → π) : Prop where
  ok : ∀ i, ok (pc i)
  item : ∀ i j n, item (pc i) = some n → item (pc j) = some n → i = j
  task : ∀ i, task (pc i) → i = d

namespace Roles

variable {ν : Type*} {ok ok' task : π → Prop} {item : π → Option ν} {d i : ι} {pc : ι → π} {x : π}

/-- A thread that goes on with the item it has keeps it to itself. -/
theorem own (h : Roles ok item task d pc) (hx : item x = item (pc i)) :
    ∀ n, item x = some n → ∀ j, j ≠ i → item (pc j) ≠ some n := by
  intro n hn j hj hjn
  exact hj (h.item j i n hjn (hx ▸ hn))

theorem mono (h : Roles ok item task d pc) (hok : ∀ i, ok (pc i) → ok' (pc i)) :
    Roles ok' item task d pc :=
  ⟨fun i => hok i (h.ok i), h.item, h.task⟩

/-- One thread has moved. -/
theorem update [DecidableEq ι] (h : Roles ok item task d pc) (hx : ok' x)
    (hitem : ∀ n, item x = some n → ∀ j, j ≠ i → item (pc j) ≠ some n) (htask : task x → i = d)
    (ho : ∀ j, j ≠ i → ok' (pc j)) : Roles ok' item task d (Function.update pc i x) := by
  refine ⟨?_, ?_, ?_⟩
  · intro j
    obtain rfl | hj := eq_or_ne j i
    · rw [Function.update_self]; exact hx
    · rw [Function.update_of_ne hj]; exact ho j hj
  · intro j k n hj hk
    obtain rfl | hji := eq_or_ne j i
    · rw [Function.update_self] at hj
      by_contra hne
      rw [Function.update_of_ne (Ne.symm hne)] at hk
      exact hitem n hj k (Ne.symm hne) hk
    · rw [Function.update_of_ne hji] at hj
      obtain rfl | hki := eq_or_ne k i
      · rw [Function.update_self] at hk
        exact absurd hj (hitem n hk j hji)
      · rw [Function.update_of_ne hki] at hk
        exact h.item j k n hj hk
  · intro j hj
    obtain rfl | hji := eq_or_ne j i
    · rw [Function.update_self] at hj; exact htask hj
    · rw [Function.update_of_ne hji] at hj; exact h.task j hj

end Roles

end HermesShm.Base
