import HermesShm.Base.Transition
import Mathlib.Logic.Function.Basic

/-! # Scoped owners of a resource

A resource is taken and given back in calls of many steps. A scoped owner takes it when it is made
and gives it back when it goes; in between it may give it back and take it again, and a flag keeps
it from taking what it has and from giving back what it has not. The owners of a resource use it
as any of its users may: a run of owners is a run of the resource. -/
namespace HermesShm.Base

/-- A resource used by the parties `ι`: its steps, where a party is, and the calls. -/
structure Resource (σ ι α π κ : Type*) where
  step : σ → ι × α → Option σ
  pc : σ → ι → π
  acquire : κ → α
  /-- A call that may come back without the resource. -/
  attempt : κ → Option α
  /-- The party is in no call and has nothing. -/
  free : π → Bool
  /-- The party is in no call and has the resource in the way `κ`. -/
  held : κ → π → Bool

/-- Where an owner is: in no scope, between two calls, or in a call that has gone to the
resource. -/
inductive Stage
  | outside
  | between
  | acquiring
  | attempting
  | releasing
  | leaving
  deriving DecidableEq

structure Owner where
  stage : Stage := .outside
  flag : Bool := false

inductive OwnerAct (α : Type*)
  | construct
  | acquire
  | attempt
  | release
  | destroy
  /-- The next step of the call in progress. -/
  | proceed (a : α)

structure Scoped (σ ι : Type*) where
  resource : σ
  owner : ι → Owner

namespace Resource

variable {σ ι α π κ : Type*} (R : Resource σ ι α π κ) (kind : ι → κ)

/-- A call that has come to `p`: it goes on, or it is over and the flag is set. -/
def settle (k : κ) (o : Owner) (p : π) : Owner :=
  match o.stage with
  | .outside | .between => o
  | .acquiring => if R.held k p then ⟨.between, true⟩ else o
  | .attempting =>
    if R.held k p then ⟨.between, true⟩ else if R.free p then ⟨.between, false⟩ else o
  | .releasing => if R.free p then ⟨.between, false⟩ else o
  | .leaving => if R.free p then ⟨.outside, false⟩ else o

/-- Owner `i`, now `o`, takes a step of the resource. -/
def pass [DecidableEq ι] (s : Scoped σ ι) (i : ι) (o : Owner) (a : α) : Option (Scoped σ ι) :=
  (R.step s.resource (i, a)).map fun t =>
    ⟨t, Function.update s.owner i (R.settle (kind i) o (R.pc t i))⟩

def set [DecidableEq ι] (s : Scoped σ ι) (i : ι) (o : Owner) : Scoped σ ι :=
  { s with owner := Function.update s.owner i o }

/-- One step of an owner. -/
def ownerStep [DecidableEq ι] (s : Scoped σ ι) (l : ι × OwnerAct α) : Option (Scoped σ ι) :=
  let o := s.owner l.1
  match o.stage, l.2 with
  | .outside, .construct => R.pass kind s l.1 ⟨.acquiring, false⟩ (R.acquire (kind l.1))
  | .between, .acquire =>
    if o.flag then some s else R.pass kind s l.1 ⟨.acquiring, false⟩ (R.acquire (kind l.1))
  | .between, .attempt =>
    (R.attempt (kind l.1)).bind fun a =>
      if o.flag then some s else R.pass kind s l.1 ⟨.attempting, false⟩ a
  | .between, .release => some (if o.flag then set s l.1 ⟨.releasing, true⟩ else s)
  | .between, .destroy =>
    some (if o.flag then set s l.1 ⟨.leaving, true⟩ else set s l.1 ⟨.outside, false⟩)
  | .acquiring, .proceed a | .attempting, .proceed a | .releasing, .proceed a
  | .leaving, .proceed a => R.pass kind s l.1 o a
  | _, _ => none

/-- What an owner's step asks of the resource. -/
def asks (s : Scoped σ ι) (l : ι × OwnerAct α) : Option (ι × α) :=
  let o := s.owner l.1
  match o.stage, l.2 with
  | .outside, .construct => some (l.1, R.acquire (kind l.1))
  | .between, .acquire => if o.flag then none else some (l.1, R.acquire (kind l.1))
  | .between, .attempt => if o.flag then none else (R.attempt (kind l.1)).map (l.1, ·)
  | .acquiring, .proceed a | .attempting, .proceed a | .releasing, .proceed a
  | .leaving, .proceed a => some (l.1, a)
  | _, _ => none

/-- A restriction on the steps of the resource, for its owners. -/
def Asks (ok : σ → ι × α → Prop) (s : Scoped σ ι) (l : ι × OwnerAct α) : Prop :=
  ∀ m, R.asks kind s l = some m → ok s.resource m

instance (ok : σ → ι × α → Prop) [∀ s m, Decidable (ok s m)] (s : Scoped σ ι)
    (l : ι × OwnerAct α) : Decidable (R.Asks kind ok s l) :=
  match h : R.asks kind s l with
  | none => isTrue fun m hm => absurd (h.symm.trans hm) (Option.some_ne_none m).symm
  | some m => decidable_of_iff (ok s.resource m) ⟨fun hok m' hm => by
      obtain rfl : m = m' := Option.some.inj (h.symm.trans hm)
      exact hok, fun hok => hok m h⟩

/-- What the calls of a resource do to the party that makes them: where it is inside a call, and
where that leads. -/
structure Lawful where
  frame : ∀ s i a t j, R.step s (i, a) = some t → j ≠ i → R.pc t j = R.pc s j
  /-- Inside `acquire`, an attempt, and the way out. -/
  seeks : κ → π → Prop
  tries : κ → π → Prop
  gives : κ → π → Prop
  acquire : ∀ s i k t, R.step s (i, R.acquire k) = some t → R.free (R.pc s i) →
    R.held k (R.pc t i) ∨ seeks k (R.pc t i)
  seek : ∀ s i a k t, R.step s (i, a) = some t → seeks k (R.pc s i) →
    R.held k (R.pc t i) ∨ seeks k (R.pc t i)
  attempt : ∀ s i a k t, R.step s (i, a) = some t → R.attempt k = some a → R.free (R.pc s i) →
    R.held k (R.pc t i) ∨ R.free (R.pc t i) ∨ tries k (R.pc t i)
  try_ : ∀ s i a k t, R.step s (i, a) = some t → tries k (R.pc s i) →
    R.held k (R.pc t i) ∨ R.free (R.pc t i) ∨ tries k (R.pc t i)
  give : ∀ s i a k t, R.step s (i, a) = some t → R.held k (R.pc s i) ∨ gives k (R.pc s i) →
    R.free (R.pc t i) ∨ gives k (R.pc t i)

/-! ## What one step does -/

/-- A step of an owner that is `o` asks the resource for a step or for nothing, and goes into it
as the owner on the right. -/
inductive Entry (k : κ) (o : Owner) : Option α → Owner → Prop
  | still : Entry k o none o
  | take : (o.stage = .outside ∨ o.stage = .between ∧ o.flag = false) →
      Entry k o (some (R.acquire k)) ⟨.acquiring, false⟩
  | attempt (a : α) : o.stage = .between → o.flag = false → R.attempt k = some a →
      Entry k o (some a) ⟨.attempting, false⟩
  | give (x : Stage) : o.stage = .between → o.flag = true → x = .releasing ∨ x = .leaving →
      Entry k o none ⟨x, true⟩
  | gone : o.stage = .between → o.flag = false → Entry k o none ⟨.outside, false⟩
  | proceed (a : α) : o.stage ≠ .outside → o.stage ≠ .between → Entry k o (some a) o

variable {R kind}

theorem set_self [DecidableEq ι] (s : Scoped σ ι) (i : ι) : set s i (s.owner i) = s := by
  unfold set
  rw [Function.update_eq_self]

theorem ownerStep_entry [DecidableEq ι] {s t : Scoped σ ι} {i : ι} {b : OwnerAct α}
    (h : R.ownerStep kind s (i, b) = some t) : ∃ o,
      (R.asks kind s (i, b) = none ∧ R.Entry (kind i) (s.owner i) none o ∧ t = set s i o) ∨
      ∃ a, R.asks kind s (i, b) = some (i, a) ∧ R.Entry (kind i) (s.owner i) (some a) o ∧
        R.pass kind s i o a = some t := by
  unfold ownerStep at h
  unfold asks
  cases hx : (s.owner i).stage <;> cases b <;> simp only [hx] at h ⊢ <;> try cases h
  case outside.construct => exact ⟨_, .inr ⟨_, rfl, .take (.inl hx), h⟩⟩
  case between.acquire =>
    cases hf : (s.owner i).flag with
    | true =>
      simp only [hf, if_true] at h ⊢
      cases h
      exact ⟨_, .inl ⟨trivial, .still, (set_self s i).symm⟩⟩
    | false =>
      simp only [hf, Bool.false_eq_true, if_false] at h ⊢
      exact ⟨_, .inr ⟨_, rfl, .take (.inr ⟨hx, hf⟩), h⟩⟩
  case between.attempt =>
    obtain ⟨a, ha, h⟩ := Option.bind_eq_some_iff.mp h
    cases hf : (s.owner i).flag with
    | true =>
      simp only [hf, if_true] at h ⊢
      cases h
      exact ⟨_, .inl ⟨trivial, .still, (set_self s i).symm⟩⟩
    | false =>
      simp only [hf, Bool.false_eq_true, if_false, ha, Option.map_some] at h ⊢
      exact ⟨_, .inr ⟨a, rfl, .attempt a hx hf ha, h⟩⟩
  case between.release =>
    cases hf : (s.owner i).flag with
    | true => exact ⟨_, .inl ⟨trivial, .give _ hx hf (.inl rfl), if_pos rfl⟩⟩
    | false => exact ⟨_, .inl ⟨trivial, .still, (if_neg (by simp)).trans (set_self s i).symm⟩⟩
  case between.destroy =>
    cases hf : (s.owner i).flag with
    | true => exact ⟨_, .inl ⟨trivial, .give _ hx hf (.inr rfl), if_pos rfl⟩⟩
    | false => exact ⟨_, .inl ⟨trivial, .gone hx hf, if_neg (by simp)⟩⟩
  case acquiring.proceed a | attempting.proceed a | releasing.proceed a | leaving.proceed a =>
    exact ⟨_, .inr ⟨a, rfl, .proceed a (by simp [hx]) (by simp [hx]), h⟩⟩

/-! ## The flag tells -/

/-- Between two calls the flag is set exactly for the owner that has the resource, and no call has
gone to the resource that it could not be asked for. -/
def Lawful.Fits (L : R.Lawful) (k : κ) (o : Owner) (p : π) : Prop :=
  match o.stage with
  | .outside => o.flag = false ∧ R.free p
  | .between => if o.flag then R.held k p else R.free p
  | .acquiring => o.flag = false ∧ L.seeks k p
  | .attempting => o.flag = false ∧ L.tries k p
  | .releasing | .leaving => o.flag = true ∧ (R.held k p ∨ L.gives k p)

variable {L : R.Lawful} {k : κ} {o : Owner} {p : π}

/-- An owner that gets nothing from the resource. -/
theorem Lawful.Fits.entry (h : L.Fits k o p) {o' : Owner} (he : R.Entry k o none o') :
    L.Fits k o' p := by
  cases he with
  | still => exact h
  | give x hx hf hx' =>
    have hheld : R.held k p := by simpa [Fits, hx, hf] using h
    obtain rfl | rfl := hx' <;> exact ⟨rfl, .inl hheld⟩
  | gone hx hf => exact ⟨rfl, by simpa [Fits, hx, hf] using h⟩

theorem Lawful.Fits.free (h : L.Fits k o p)
    (ho : o.stage = .outside ∨ o.stage = .between ∧ o.flag = false) : R.free p := by
  obtain hx | ⟨hx, hf⟩ := ho
  · exact (by simpa [Fits, hx] using h : o.flag = false ∧ R.free p).2
  · simpa [Fits, hx, hf] using h

/-- An owner whose call has made a step of the resource. -/
theorem Lawful.Fits.settle {s t : σ} {i : ι} {a : α} {o' : Owner} (h : L.Fits k o (R.pc s i))
    (he : R.Entry k o (some a) o') (hs : R.step s (i, a) = some t) :
    L.Fits k (R.settle k o' (R.pc t i)) (R.pc t i) := by
  have hacquire (hto : R.held k (R.pc t i) ∨ L.seeks k (R.pc t i)) :
      L.Fits k (R.settle k ⟨.acquiring, false⟩ (R.pc t i)) (R.pc t i) := by
    simp only [Resource.settle]
    split
    · assumption
    · rename_i hheld
      exact ⟨rfl, hto.resolve_left hheld⟩
  have hattempt (hto : R.held k (R.pc t i) ∨ R.free (R.pc t i) ∨ L.tries k (R.pc t i)) :
      L.Fits k (R.settle k ⟨.attempting, false⟩ (R.pc t i)) (R.pc t i) := by
    simp only [Resource.settle]
    split
    · assumption
    · rename_i hheld
      split
      · assumption
      · rename_i hfree
        exact ⟨rfl, (hto.resolve_left hheld).resolve_left hfree⟩
  cases he with
  | take ho => exact hacquire (L.acquire s i k t hs (h.free ho))
  | attempt _ hx hf ha => exact hattempt (L.attempt s i a k t hs ha (h.free (.inr ⟨hx, hf⟩)))
  | proceed _ hout hbetween =>
    obtain ⟨x, f⟩ := o
    cases x with
    | outside => exact absurd rfl hout
    | between => exact absurd rfl hbetween
    | acquiring =>
      obtain ⟨rfl, hseeks⟩ : f = false ∧ L.seeks k (R.pc s i) := h
      exact hacquire (L.seek s i a k t hs hseeks)
    | attempting =>
      obtain ⟨rfl, htries⟩ : f = false ∧ L.tries k (R.pc s i) := h
      exact hattempt (L.try_ s i a k t hs htries)
    | releasing =>
      obtain ⟨rfl, hgives⟩ : f = true ∧ (R.held k (R.pc s i) ∨ L.gives k (R.pc s i)) := h
      simp only [Resource.settle]
      split
      · assumption
      · rename_i hfree
        exact ⟨rfl, .inr ((L.give s i a k t hs hgives).resolve_left hfree)⟩
    | leaving =>
      obtain ⟨rfl, hgives⟩ : f = true ∧ (R.held k (R.pc s i) ∨ L.gives k (R.pc s i)) := h
      simp only [Resource.settle]
      split
      · rename_i hfree
        exact ⟨rfl, hfree⟩
      · rename_i hfree
        exact ⟨rfl, .inr ((L.give s i a k t hs hgives).resolve_left hfree)⟩

/-- Every owner fits its place in the resource. -/
def Lawful.Fit (L : R.Lawful) (kind : ι → κ) (s : Scoped σ ι) : Prop :=
  ∀ i, L.Fits (kind i) (s.owner i) (R.pc s.resource i)

variable [DecidableEq ι] {s t : Scoped σ ι} {l : ι × OwnerAct α} {ls : List (ι × OwnerAct α)}
  {ok : σ → ι × α → Prop}

/-- A step of the resource that is allowed, or none. -/
theorem ownerStep_resource (h : R.ownerStep kind s l = some t) (hok : R.Asks kind ok s l) :
    t.resource = s.resource ∨
      ∃ m, ok s.resource m ∧ R.step s.resource m = some t.resource := by
  obtain ⟨o, ⟨-, -, rfl⟩ | ⟨a, hasks, -, hpass⟩⟩ := ownerStep_entry h
  · exact .inl rfl
  · obtain ⟨u, hu, rfl⟩ := Option.map_eq_some_iff.mp hpass
    exact .inr ⟨_, hok _ hasks, hu⟩

theorem ownerStep_fit (hs : L.Fit kind s) (h : R.ownerStep kind s l = some t) :
    L.Fit kind t := by
  obtain ⟨i, b⟩ := l
  intro j
  obtain ⟨o, ⟨-, he, rfl⟩ | ⟨a, -, he, hpass⟩⟩ := ownerStep_entry h
  · obtain rfl | hj := eq_or_ne j i
    · simpa [Resource.set] using (hs j).entry he
    · simpa [Resource.set, hj] using hs j
  · obtain ⟨u, hu, rfl⟩ := Option.map_eq_some_iff.mp hpass
    obtain rfl | hj := eq_or_ne j i
    · simpa using (hs j).settle he hu
    · simpa [hj, L.frame _ _ _ _ _ hu hj] using hs j

/-- **Owners use the resource as its users do.** A run of owners is a run of the resource, and
after it the flag of every owner tells what the owner has. -/
theorem run_owners (hr : Run (R.ownerStep kind) (R.Asks kind ok) s ls t) (hs : L.Fit kind s) :
    (∃ ms, Run R.step ok s.resource ms t.resource) ∧ L.Fit kind t := by
  induction hr with
  | nil => exact ⟨⟨[], .nil⟩, hs⟩
  | snoc _ hok h ih =>
    obtain ⟨⟨ms, hms⟩, hfit⟩ := ih
    refine ⟨?_, ownerStep_fit hfit h⟩
    obtain heq | ⟨m, hm, hstep⟩ := ownerStep_resource h hok
    · exact ⟨ms, heq ▸ hms⟩
    · exact ⟨_, .snoc hms hm hstep⟩

end Resource
end HermesShm.Base
