import Mathlib.Data.List.Count
import Mathlib.Data.List.Induction

/-! # The history of a stack

Pushes and pops in the order of their linearization points. `live` is what the
history leaves, newest first. It does not say that a pop took the newest
element: that is `PopsNewest`, and from it every element is popped at most as
often as it was pushed. -/
namespace HermesShm.Base.Lifo

inductive Event (ν : Type*)
  | push (n : ν)
  | pop (n : ν)
  deriving DecidableEq

variable {ν : Type*}

/-- The element a pop took. -/
def Event.popped? : Event ν → Option ν
  | .push _ => none
  | .pop n => some n

variable [DecidableEq ν]

def apply (st : List ν) : Event ν → List ν
  | .push n => n :: st
  | .pop n => st.erase n

/-- Pushed and not yet popped, newest first. -/
def live (es : List (Event ν)) : List ν := es.foldl apply []

/-- Every pop took an element that was there. -/
def PopsLive (es : List (Event ν)) : Prop := ∀ as n, as ++ [.pop n] <+: es → n ∈ live as

/-- Every pop took the newest element. -/
def PopsNewest (es : List (Event ν)) : Prop :=
  ∀ as n, as ++ [.pop n] <+: es → (live as).head? = some n

variable {es : List (Event ν)} {n : ν}

theorem live_concat (es : List (Event ν)) (e : Event ν) : live (es ++ [e]) = apply (live es) e := by
  simp [live]

@[simp] theorem live_push (es : List (Event ν)) (n : ν) : live (es ++ [.push n]) = n :: live es :=
  live_concat es _

@[simp] theorem live_pop (es : List (Event ν)) (n : ν) :
    live (es ++ [.pop n]) = (live es).erase n :=
  live_concat es _

omit [DecidableEq ν] in
/-- What holds of every pop of a longer history. -/
theorem prefix_concat {P : List (Event ν) → ν → Prop} {e : Event ν}
    (h : ∀ as n, as ++ [.pop n] <+: es → P as n) (he : ∀ n, e = .pop n → P es n) :
    ∀ as n, as ++ [.pop n] <+: es ++ [e] → P as n := by
  intro as n hpre
  obtain heq | hpre := List.prefix_concat_iff.mp hpre
  · obtain ⟨rfl, hn⟩ := List.append_inj' heq rfl
    exact he n (List.singleton_inj.mp hn).symm
  · exact h as n hpre

theorem popsLive_nil : PopsLive ([] : List (Event ν)) := by
  intro as n h
  simp at h

theorem popsNewest_nil : PopsNewest ([] : List (Event ν)) := by
  intro as n h
  simp at h

theorem PopsLive.concat {e : Event ν} (h : PopsLive es) (he : ∀ n, e = .pop n → n ∈ live es) :
    PopsLive (es ++ [e]) :=
  prefix_concat (P := fun as n => n ∈ live as) h he

theorem PopsNewest.concat {e : Event ν} (h : PopsNewest es)
    (he : ∀ n, e = .pop n → (live es).head? = some n) : PopsNewest (es ++ [e]) :=
  prefix_concat (P := fun as n => (live as).head? = some n) h he

theorem PopsNewest.popsLive (h : PopsNewest es) : PopsLive es :=
  fun as n hpre => List.mem_of_head? (h as n hpre)

/-- Every pop answers one push. -/
theorem PopsLive.count (h : PopsLive es) (n : ν) :
    es.count (.pop n) + (live es).count n = es.count (.push n) := by
  induction es using List.reverseRecOn with
  | nil => rfl
  | append_singleton es e ih =>
    have ih := ih fun as n hpre => h as n (hpre.trans (List.prefix_append _ _))
    cases e with
    | push m =>
      by_cases hm : m = n
      · subst hm
        simp [← ih, Nat.add_assoc]
      · simp [hm, ← ih]
    | pop m =>
      have hmem : m ∈ live es := h es m List.prefix_rfl
      by_cases hm : m = n
      · subst hm
        have hpos := List.count_pos_iff.mpr hmem
        simp only [List.count_append, List.count_singleton_self, live_pop, List.count_erase_self,
          List.count_singleton, ← ih]
        simp
        omega
      · rw [live_pop, List.count_erase_of_ne (Ne.symm hm)]
        simp [hm, ← ih]

theorem push_mem (hn : n ∈ live es) : .push n ∈ es := by
  induction es using List.reverseRecOn with
  | nil => cases hn
  | append_singleton es e ih =>
    rw [List.mem_append, List.mem_singleton]
    cases e with
    | push m =>
      rw [live_push, List.mem_cons] at hn
      obtain rfl | hn := hn
      · exact .inr rfl
      · exact .inl (ih hn)
    | pop m =>
      rw [live_pop] at hn
      exact .inl (ih (List.mem_of_mem_erase hn))

end HermesShm.Base.Lifo
