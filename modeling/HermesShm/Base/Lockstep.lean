/-! # Components in lockstep

A component that may fail to take a step beside one that never does. They are told apart by
the states and the replies of a run, step by step. -/
namespace HermesShm.Base

variable {σ α ρ : Type} {f : σ → α → Option (σ × ρ)} {g : σ → α → σ × ρ} {s : σ} {as : List α}

/-- The states and the replies, if every step is taken. -/
def trace (f : σ → α → Option (σ × ρ)) : σ → List α → Option (List (σ × ρ))
  | _, [] => some []
  | s, a :: as => do
    let r ← f s a
    let rest ← trace f r.1 as
    some (r :: rest)

/-- `P` holds of every step of a run. -/
def Along (P : σ → α → Prop) (g : σ → α → σ × ρ) : σ → List α → Prop
  | _, [] => True
  | s, a :: as => P s a ∧ Along P g (g s a).1 as

theorem Along.congr {P Q : σ → α → Prop} (h : ∀ s a, P s a ↔ Q s a) :
    Along P g s as ↔ Along Q g s as := by
  induction as generalizing s with
  | nil => exact Iff.rfl
  | cons a as ih => exact and_congr (h s a) ih

theorem trace_total (g : σ → α → σ × ρ) (s : σ) (as : List α) :
    ∃ rs, trace (fun s a => some (g s a)) s as = some rs := by
  induction as generalizing s with
  | nil => exact ⟨[], rfl⟩
  | cons a as ih =>
    obtain ⟨rs, he⟩ := ih (g s a).1
    exact ⟨g s a :: rs, by rw [trace, Option.bind_eq_bind, Option.bind_some, he]; rfl⟩

/-- **Lockstep rule.** The runs are the same exactly where every step is. -/
theorem trace_eq_iff : trace f s as = trace (fun s a => some (g s a)) s as ↔
    Along (fun s a => f s a = some (g s a)) g s as := by
  induction as generalizing s with
  | nil => exact iff_of_true rfl trivial
  | cons a as ih =>
    obtain ⟨rs, hrs⟩ := trace_total g (g s a).1 as
    have ih := ih (s := (g s a).1)
    have htotal : trace (fun s a => some (g s a)) s (a :: as) = some (g s a :: rs) := by
      rw [trace, Option.bind_eq_bind, Option.bind_some, hrs]
      rfl
    rw [htotal, Along, ← ih, hrs]
    constructor
    · intro h
      obtain ⟨r, hr, h⟩ := Option.bind_eq_some_iff.mp h
      obtain ⟨rest, hrest, h⟩ := Option.bind_eq_some_iff.mp h
      cases h
      exact ⟨hr, hrest⟩
    · rintro ⟨hr, hrest⟩
      rw [trace, hr, Option.bind_eq_bind, Option.bind_some, hrest]
      rfl

end HermesShm.Base
