import HermesShm.Base.Pool
import Mathlib.Algebra.BigOperators.Group.Finset.Piecewise
import Mathlib.Data.Fintype.Card
import Mathlib.Order.WellFounded
import Mathlib.Tactic.Common

/-! # What a fair scheduler brings about

A behavior is an infinite run, in which time may pass without a step. A thread
is treated fairly if, as long as it is inside a call, its next step always comes
at some time. Two rules turn facts about single steps into facts about every fair
behavior: what one helpful thread brings about by its own steps (`helped`), and
what a rank that can always be lowered comes to (`descend`). -/
namespace HermesShm.Base

variable {σ α β ι π : Type*}

structure Behavior (step : σ → α → Option σ) (ok : σ → α → Prop) (s : σ) where
  state : Nat → σ
  label : Nat → Option α
  start : state 0 = s
  next : ∀ n, match label n with
    | none => state (n + 1) = state n
    | some a => ok (state n) a ∧ step (state n) a = some (state (n + 1))

namespace Behavior

variable {step : σ → α → Option σ} {ok : σ → α → Prop} {s : σ} {P Q R : σ → Prop} {n : Nat}

theorem next_cases (ρ : Behavior step ok s) (n : Nat) :
    (ρ.label n = none ∧ ρ.state (n + 1) = ρ.state n) ∨
    (∃ a, ρ.label n = some a ∧ ok (ρ.state n) a ∧
      step (ρ.state n) a = some (ρ.state (n + 1))) := by
  have h := ρ.next n
  cases hl : ρ.label n with
  | none => rw [hl] at h; exact .inl ⟨rfl, h⟩
  | some a => rw [hl] at h; exact .inr ⟨a, rfl, h⟩

/-- Every state of a behavior is the end of a run. -/
theorem run (ρ : Behavior step ok s) (n : Nat) : ∃ as, Run step ok s as (ρ.state n) := by
  induction n with
  | zero =>
    rw [ρ.start]
    exact ⟨[], .nil⟩
  | succ n ih =>
    obtain ⟨as, hr⟩ := ih
    rcases ρ.next_cases n with ⟨-, heq⟩ | ⟨a, -, ha, hs⟩
    · exact ⟨as, heq ▸ hr⟩
    · exact ⟨as ++ [a], hr.snoc ha hs⟩

theorem invariant (ρ : Behavior step ok s) {I : σ → Prop} (h0 : I s)
    (hstep : ∀ t a u, I t → ok t a → step t a = some u → I u) (n : Nat) : I (ρ.state n) := by
  obtain ⟨as, hr⟩ := ρ.run n
  exact hr.invariant h0 hstep

/-- At some time from `n` on. -/
def Eventually (ρ : Behavior step ok s) (n : Nat) (Q : σ → Prop) : Prop :=
  ∃ m, n ≤ m ∧ Q (ρ.state m)

/-- While the state is in `inside`, a step with a label in `mine` comes at some time. -/
def Fair (ρ : Behavior step ok s) (mine : α → Prop) (inside : σ → Prop) : Prop :=
  ∀ n, ∃ m, n ≤ m ∧ (inside (ρ.state m) → ∃ a ∈ ρ.label m, mine a)

variable {ρ : Behavior step ok s}

theorem Eventually.now (h : Q (ρ.state n)) : ρ.Eventually n Q := ⟨n, Nat.le_refl n, h⟩

theorem Eventually.of_le {m : Nat} (hle : n ≤ m) (h : ρ.Eventually m Q) : ρ.Eventually n Q := by
  obtain ⟨k, hk, hQ⟩ := h
  exact ⟨k, hle.trans hk, hQ⟩

theorem Eventually.mono (h : ρ.Eventually n Q) (hQ : ∀ t, Q t → R t) : ρ.Eventually n R := by
  obtain ⟨m, hm, ht⟩ := h
  exact ⟨m, hm, hQ _ ht⟩

theorem Eventually.bind (h : ρ.Eventually n Q) (hQ : ∀ m, n ≤ m → Q (ρ.state m) →
    ρ.Eventually m R) : ρ.Eventually n R := by
  obtain ⟨m, hm, ht⟩ := h
  exact (hQ m hm ht).of_le hm

/-! ## The two rules -/

/-- What a step does on the way from `P` to `Q`: it gets there, or it stays on the way and
comes no further off; a step in `mine` comes nearer. -/
def Helps (P Q : σ → Prop) (mine : α → Prop) (dist : σ → Nat) (t : σ) (a : α) (u : σ) : Prop :=
  Q u ∨ (P u ∧ dist u ≤ dist t ∧ (mine a → dist u < dist t))

/-- What holds until something comes about. -/
theorem until_eventually {m : Nat} (hstep : ∀ t a u, P t → ok t a → step t a = some u → P u ∨ Q u)
    (hle : n ≤ m) (hP : P (ρ.state n)) : P (ρ.state m) ∨ ρ.Eventually n Q := by
  induction m, hle using Nat.le_induction with
  | base => exact .inl hP
  | succ m hle ih =>
    rcases ih with hPm | hQ
    · rcases ρ.next_cases m with ⟨-, heq⟩ | ⟨a, -, ha, hs⟩
      · exact .inl (heq ▸ hPm)
      · exact (hstep _ a _ hPm ha hs).imp_right fun hQ => ⟨m + 1, by omega, hQ⟩
    · exact .inr hQ

theorem stays {m : Nat} (hstep : ∀ t a u, P t → ok t a → step t a = some u → P u)
    (hle : n ≤ m) (hP : P (ρ.state n)) : P (ρ.state m) := by
  have h := until_eventually (Q := fun _ => False)
    (fun t a u ht ha hs => .inl (hstep t a u ht ha hs)) hle hP
  rcases h with hm | ⟨_, _, hf⟩
  · exact hm
  · exact hf.elim

/-- **Helpful thread.** -/
theorem helped {mine : α → Prop} {inside : σ → Prop} (dist : σ → Nat)
    (hfair : ρ.Fair mine inside) (hin : ∀ t, P t → inside t)
    (hstep : ∀ t a u, P t → ok t a → step t a = some u → Helps P Q mine dist t a u)
    (hP : P (ρ.state n)) : ρ.Eventually n Q := by
  induction hd : dist (ρ.state n) using Nat.strong_induction_on generalizing n with
  | _ d ih =>
    -- the time of the helpful step; until then the state stays on the way
    obtain ⟨m, hle, hm⟩ := hfair n
    have hway : (P (ρ.state m) ∧ dist (ρ.state m) ≤ d) ∨ ρ.Eventually n Q := by
      refine until_eventually (P := fun t => P t ∧ dist t ≤ d) ?_ hle ⟨hP, hd.le⟩
      intro t a u ⟨ht, hdt⟩ ha hs
      rcases hstep t a u ht ha hs with hQ | ⟨hu, hdu, -⟩
      · exact .inr hQ
      · exact .inl ⟨hu, hdu.trans hdt⟩
    rcases hway with ⟨hPm, hdm⟩ | hQ
    · obtain ⟨a, hla, hmine⟩ := hm (hin _ hPm)
      rcases ρ.next_cases m with ⟨hnone, -⟩ | ⟨b, hlb, hb, hs⟩
      · rw [hnone] at hla
        cases hla
      · obtain rfl : b = a := Option.some.inj (hlb.symm.trans hla)
        rcases hstep _ b _ hPm hb hs with hQ | ⟨hPu, -, hdu⟩
        · exact ⟨m + 1, by omega, hQ⟩
        · exact (ih _ (lt_of_lt_of_le (hdu hmine) hdm) hPu rfl).of_le (by omega)
    · exact hQ

/-- **Descent.** -/
theorem descend [LT β] [WellFoundedLT β] (rank : σ → β)
    (h : ∀ m, P (ρ.state m) →
      ρ.Eventually m fun t => Q t ∨ (P t ∧ rank t < rank (ρ.state m)))
    (hP : P (ρ.state n)) : ρ.Eventually n Q := by
  induction hr : rank (ρ.state n) using WellFoundedLT.induction generalizing n with
  | ind r ih =>
    refine (h n hP).bind fun m _ hm => ?_
    rcases hm with hQ | ⟨hPm, hlt⟩
    · exact .now hQ
    · exact ih _ (hr ▸ hlt) hPm rfl

end Behavior

theorem Count.exists_of_ne_zero {f : π → Prop} {pc : ι → π} {n : Nat} (h : Count f pc n)
    (hn : n ≠ 0) : ∃ i, f (pc i) := by
  by_contra hnone
  exact hn (h.eq_zero fun i hi => hnone ⟨i, hi⟩)

theorem Count.le_card [Fintype ι] {f : π → Prop} {pc : ι → π} {n : Nat} (h : Count f pc n) :
    n ≤ Fintype.card ι := by
  obtain ⟨F, -, rfl⟩ := h
  exact Finset.card_le_univ F

/-- A measure of the threads, one by one, added up. -/
def total [Fintype ι] (f : π → Nat) (pc : ι → π) : Nat := ∑ i, f (pc i)

/-- One thread has moved. -/
theorem total_update [Fintype ι] [DecidableEq ι] (f : π → Nat) (pc : ι → π) (i : ι) (p : π) :
    total f (Function.update pc i p) + f (pc i) = total f pc + f p := by
  have hsum := Finset.sum_update_of_mem (Finset.mem_univ i) (fun j => f (pc j)) (f p)
  have hpc := Finset.add_sum_erase Finset.univ (fun j => f (pc j)) (Finset.mem_univ i)
  have hupdate : (fun j => f (Function.update pc i p j)) =
      Function.update (fun j => f (pc j)) i (f p) :=
    funext fun j => Function.apply_update (fun _ => f) pc i p j
  rw [total, total, hupdate, hsum, ← hpc, Finset.sdiff_singleton_eq_erase]
  omega

/-! ## Behaviors from runs -/

namespace Behavior

variable {step : σ → α → Option σ} {ok : σ → α → Prop} {s t : σ} {a : α}

/-- Nothing happens. -/
def still (s : σ) : Behavior step ok s := ⟨fun _ => s, fun _ => none, rfl, fun _ => rfl⟩

/-- One step more, before all others. -/
def cons (ha : ok s a) (hs : step s a = some t) (ρ : Behavior step ok t) : Behavior step ok s where
  state
    | 0 => s
    | n + 1 => ρ.state n
  label
    | 0 => some a
    | n + 1 => ρ.label n
  start := rfl
  next
    | 0 => ⟨ha, hs.trans (congrArg some ρ.start.symm)⟩
    | n + 1 => ρ.next n

end Behavior

variable {step : σ → α → Option σ} {ok : σ → α → Prop} {s t : σ} {as : List α}

/-- A run, and then a behavior. -/
theorem Run.behavior (hr : Run step ok s as t) (ρ : Behavior step ok t) :
    ∃ ρ' : Behavior step ok s, (∀ n, n < as.length → ρ'.label n = as[n]?) ∧
      ∀ n, ρ'.state (as.length + n) = ρ.state n ∧ ρ'.label (as.length + n) = ρ.label n := by
  induction hr with
  | nil =>
    refine ⟨ρ, nofun, fun n => ?_⟩
    rw [List.length_nil, Nat.zero_add]
    exact ⟨rfl, rfl⟩
  | @snoc as t a u hr ha hs ih =>
    obtain ⟨ρ', hlabel, hrest⟩ := ih (ρ.cons ha hs)
    refine ⟨ρ', fun n hn => ?_, fun n => ?_⟩
    · rw [List.length_append, List.length_singleton] at hn
      rcases Nat.lt_or_eq_of_le (Nat.le_of_lt_succ hn) with hlt | rfl
      · rw [hlabel n hlt, List.getElem?_append_left hlt]
      · rw [List.getElem?_concat_length]
        exact (hrest 0).2
    · rw [List.length_append, List.length_singleton, Nat.add_assoc, Nat.add_comm 1]
      exact hrest (n + 1)

/-- A run, and then nothing more. -/
theorem Run.halts (hr : Run step ok s as t) : ∃ ρ : Behavior step ok s,
    (∀ n, ρ.label n = as[n]?) ∧ ∀ n, as.length ≤ n → ρ.state n = t := by
  obtain ⟨ρ, hlabel, hrest⟩ := hr.behavior (.still t)
  refine ⟨ρ, fun n => ?_, fun n hn => ?_⟩
  · rcases Nat.lt_or_ge n as.length with hlt | hge
    · exact hlabel n hlt
    · obtain ⟨k, rfl⟩ := Nat.exists_eq_add_of_le hge
      rw [(hrest k).2, List.getElem?_eq_none (Nat.le_add_right ..)]
      rfl
  · obtain ⟨k, rfl⟩ := Nat.exists_eq_add_of_le hn
    exact (hrest k).1

end HermesShm.Base
