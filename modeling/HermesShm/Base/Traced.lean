import HermesShm.Base.Transition

/-! # Calls and replies

A component that is used through calls: `answer` gives the reply to a call and
the state after it, or nothing where the call does not return. -/
namespace HermesShm.Base

variable {σ τ α ρ : Type*} {s : σ} {as : List α}

/-- A component and the replies it has given. -/
structure Traced (σ ρ : Type*) where
  state : σ
  replies : List ρ := []

namespace Traced

variable {answer : σ → α → Option (ρ × σ)} {u v : Traced σ ρ} {a : α}

def step (answer : σ → α → Option (ρ × σ)) (u : Traced σ ρ) (a : α) : Option (Traced σ ρ) :=
  (answer u.state a).map fun (r, state) => { state, replies := u.replies ++ [r] }

theorem step_cases (h : step answer u a = some v) :
    ∃ r s, answer u.state a = some (r, s) ∧ v = ⟨s, u.replies ++ [r]⟩ := by
  obtain ⟨⟨r, s⟩, hs, rfl⟩ := Option.map_eq_some_iff.mp h
  exact ⟨r, s, hs, rfl⟩

/-- The replies of a component all of whose calls return. -/
def replay (g : τ → α → ρ × τ) (t : τ) (as : List α) : Traced τ ρ :=
  as.foldl (fun v a => ⟨(g v.state a).2, v.replies ++ [(g v.state a).1]⟩) { state := t }

theorem replay_snoc (g : τ → α → ρ × τ) (t : τ) (as : List α) (a : α) :
    replay g t (as ++ [a]) = ⟨(g (replay g t as).state a).2,
      (replay g t as).replies ++ [(g (replay g t as).state a).1]⟩ := by
  simp only [replay, List.foldl_append, List.foldl_cons, List.foldl_nil]

/-- **Refinement rule.** If every allowed call gets the reply that `f` makes of
the specification's, and the states stay related, so it is for a whole run. -/
theorem refines {ρ' : Type*} {f : ρ' → ρ} {R : σ → τ → Prop} {g : τ → α → ρ' × τ}
    {ok : Traced σ ρ → α → Prop} {t : τ} (hr : Run (step answer) ok { state := s } as u)
    (h0 : R s t) (hstep : ∀ u t a r s', R u.state t → ok u a → answer u.state a = some (r, s') →
      r = f (g t a).1 ∧ R s' (g t a).2) :
    u.replies = (replay g t as).replies.map f ∧ R u.state (replay g t as).state := by
  refine hr.history (J := fun as u => u.replies = (replay g t as).replies.map f ∧
    R u.state (replay g t as).state) ⟨rfl, h0⟩ fun as u a v hi hok hs => ?_
  obtain ⟨hrep, hrel⟩ := hi
  obtain ⟨r, s', ha, rfl⟩ := step_cases hs
  obtain ⟨he, hrel'⟩ := hstep _ _ _ _ _ hrel hok ha
  rw [replay_snoc]
  exact ⟨by rw [hrep, he, List.map_append]; rfl, hrel'⟩

/-- No sequence of calls tells `s` from `t`, by the replies or by what `obs` shows of the
state that they end in. -/
def Alike {ω : Type*} (answer : σ → α → Option (ρ × σ)) (obs : σ → ω) (s t : σ) : Prop :=
  ∀ as, (exec (step answer) { state := s } as).map (fun u => (u.replies, obs u.state)) =
    (exec (step answer) { state := t } as).map fun u => (u.replies, obs u.state)

theorem Alike.refl {ω : Type*} (answer : σ → α → Option (ρ × σ)) (obs : σ → ω) (s : σ) :
    Alike answer obs s s := fun _ => rfl

/-- Two states that are alike are so before any call. -/
theorem Alike.obs_eq {ω : Type*} {obs : σ → ω} {s t : σ} (h : Alike answer obs s t) :
    obs s = obs t := by
  have h := h []
  simp only [exec, Option.map_some, Option.some.injEq, Prod.mk.injEq, true_and] at h
  exact h

/-- They reply alike to any call. -/
theorem Alike.reply_eq {ω : Type*} {obs : σ → ω} {s t : σ} (h : Alike answer obs s t) (a : α) :
    (answer s a).map Prod.fst = (answer t a).map Prod.fst := by
  have hreply : ∀ s, ((exec (step answer) { state := s } [a]).map fun u =>
      (u.replies, obs u.state)).map Prod.fst = ((answer s a).map Prod.fst).map fun r => [r] := by
    intro s
    simp only [exec, step]
    cases answer s a <;> rfl
  have h := congrArg (Option.map Prod.fst) (h [a])
  rw [hreply, hreply] at h
  exact Option.map_injective (fun _ _ he => List.head_eq_of_cons_eq he) h

end Traced

end HermesShm.Base
