import Mathlib.Data.List.Induction

/-! # Runs of a partial, labelled step function

A component is given by `step : σ → α → Option σ`: in a state, a label either
takes one step or is not enabled. Nondeterminism sits in the labels, so every
run can be executed. `ok` restricts the steps a run may take; a run without
restriction has `ok := Unrestricted`. -/
namespace HermesShm.Base

variable {σ α : Type*}

/-- Every step is allowed. -/
def Unrestricted (_ : σ) (_ : α) : Prop := True

/-- A run from `s` along a list of labels, each step taken in a state where
`ok` allows it. -/
inductive Run (step : σ → α → Option σ) (ok : σ → α → Prop) (s : σ) : List α → σ → Prop
  | nil : Run step ok s [] s
  | snoc {as t a u} : Run step ok s as t → ok t a → step t a = some u →
      Run step ok s (as ++ [a]) u

variable {step : σ → α → Option σ} {ok ok' : σ → α → Prop} {s t : σ} {as : List α}

theorem Run.mono (h : ∀ t a, ok t a → ok' t a) (hr : Run step ok s as t) :
    Run step ok' s as t := by
  induction hr with
  | nil => exact .nil
  | snoc _ ha hs ih => exact .snoc ih (h _ _ ha) hs

/-- **Invariant rule.** What holds at the start and is kept by every allowed
step holds at the end of every run. -/
theorem Run.invariant {I : σ → Prop} (hr : Run step ok s as t) (h0 : I s)
    (hstep : ∀ t a u, I t → ok t a → step t a = some u → I u) : I t := by
  induction hr with
  | nil => exact h0
  | snoc _ ha hs ih => exact hstep _ _ _ ih ha hs

/-- The invariant rule for facts about the labels taken so far. -/
theorem Run.history {J : List α → σ → Prop} (hr : Run step ok s as t) (h0 : J [] s)
    (hstep : ∀ as t a u, J as t → ok t a → step t a = some u → J (as ++ [a]) u) : J as t := by
  induction hr with
  | nil => exact h0
  | snoc _ ha hs ih => exact hstep _ _ _ _ ih ha hs

/-- Execute a list of labels. -/
def exec (step : σ → α → Option σ) (s : σ) : List α → Option σ
  | [] => some s
  | a :: as => (step s a).bind fun t => exec step t as

theorem exec_append (bs : List α) :
    exec step s (as ++ bs) = (exec step s as).bind fun t => exec step t bs := by
  induction as generalizing s with
  | nil => rfl
  | cons a as ih =>
    simp only [List.cons_append, exec]
    cases step s a with
    | none => rfl
    | some t => exact ih

/-- An unrestricted run is exactly an execution. -/
theorem run_iff_exec : Run step Unrestricted s as t ↔ exec step s as = some t := by
  constructor
  · intro hr
    induction hr with
    | nil => rfl
    | snoc _ _ hs ih => simp [exec_append, ih, exec, hs]
  · intro h
    induction as using List.reverseRecOn generalizing t with
    | nil => cases h; exact .nil
    | append_singleton as a ih =>
      rw [exec_append] at h
      obtain ⟨u, hu, hs⟩ := Option.bind_eq_some_iff.mp h
      refine .snoc (ih hu) trivial ?_
      simpa [exec] using hs

/-- Execute a list of labels, stopping where `ok` does not allow a step. -/
def execOk (step : σ → α → Option σ) (ok : σ → α → Prop) [∀ s a, Decidable (ok s a)] (s : σ) :
    List α → Option σ
  | [] => some s
  | a :: as => if ok s a then (step s a).bind fun t => execOk step ok t as else none

theorem Run.cons {a : α} {u : σ} (ha : ok s a) (hs : step s a = some u)
    (hr : Run step ok u as t) : Run step ok s (a :: as) t := by
  induction hr with
  | nil =>
    rw [← List.nil_append [a]]
    exact .snoc .nil ha hs
  | snoc _ hb hs' ih =>
    rw [← List.cons_append]
    exact .snoc ih hb hs'

theorem run_of_execOk [∀ s a, Decidable (ok s a)] (h : execOk step ok s as = some t) :
    Run step ok s as t := by
  induction as generalizing s with
  | nil => cases h; exact .nil
  | cons a as ih =>
    simp only [execOk] at h
    split at h
    · rename_i ha
      obtain ⟨u, hu, ht⟩ := Option.bind_eq_some_iff.mp h
      exact .cons ha hu (ih ht)
    · cases h

end HermesShm.Base
