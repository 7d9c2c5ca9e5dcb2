import HermesShm.Base.Transition
import HermesShm.Base.Pool
import Mathlib.Data.Fintype.Basic

/-! # The singleton

`SingletonBase` and `CrossSingletonBase` have the same `GetInstance`. A thread moves one
access at a time: the null test, the lock, the start and the end of the constructor, the
store of the pointer and the load that returns it. -/
namespace HermesShm.Util.Singleton
open HermesShm.Base

variable {ι A : Type*}

/-- What is in the storage of the object. -/
inductive Storage
  | raw
  | constructing
  | constructed
  deriving DecidableEq

/-- What happened so far: the null tests that found no object, the constructor runs, and
what `GetInstance` returned, with the storage at that time. No step reads it. -/
structure Hist (A : Type*) where
  passed : Nat := 0
  constructed : Nat := 0
  returned : List (Option A × Storage) := []

structure Shared (A : Type*) where
  /-- `GetData()` -/
  data_ : A
  storage : Storage := .raw
  obj_ : Option A := none
  /-- The spin lock is held. -/
  locked : Bool := false
  hist : Hist A := {}

/-- Where a thread is in `GetInstance`, named by its next access. -/
inductive Pc
  | idle
  | test
  | lock
  | construct
  | finish
  | store
  | unlock
  | load
  deriving DecidableEq

inductive Act
  | getInstance
  | access
  deriving DecidableEq

/-- The next access of a thread. The lock is assumed to exclude: a thread takes it when it
is free, in any order, and waits else. -/
def act (m : Shared A) : Pc → Act → Option (Shared A × Pc)
  | .idle, .getInstance => some (m, .test)
  | .test, .access =>
    if m.obj_.isNone then
      some ({ m with hist := { m.hist with passed := m.hist.passed + 1 } }, .lock)
    else some (m, .load)
  | .lock, .access => if m.locked then none else some ({ m with locked := true }, .construct)
  | .construct, .access =>
    some ({ m with
      storage := .constructing
      hist := { m.hist with constructed := m.hist.constructed + 1 } }, .finish)
  | .finish, .access => some ({ m with storage := .constructed }, .store)
  | .store, .access => some ({ m with obj_ := some m.data_ }, .unlock)
  | .unlock, .access => some ({ m with locked := false }, .load)
  | .load, .access =>
    some ({ m with
      hist := { m.hist with returned := m.hist.returned ++ [(m.obj_, m.storage)] } }, .idle)
  | _, _ => none

abbrev State (ι A : Type*) := Pool ι (Shared A) Pc

/-- No object yet, every thread outside. -/
def init (ι : Type*) (data_ : A) : State ι A := ⟨{ data_ }, fun _ => .idle⟩

def step [DecidableEq ι] : State ι A → ι × Act → Option (State ι A) := Pool.step act

/-- The constructor runs once, and what is returned is the constructed object. -/
structure Once (s : State ι A) : Prop where
  at_most : s.shared.hist.constructed ≤ 1
  returned : ∀ r ∈ s.shared.hist.returned, r = (some s.shared.data_, .constructed)
  at_least : s.shared.hist.returned ≠ [] → s.shared.hist.constructed = 1

/-- Past the null test, the pointer not stored yet. -/
def Pc.Early (p : Pc) : Prop := p = .lock ∨ p = .construct ∨ p = .finish ∨ p = .store

/-- The condition on a step: a null test that finds no object is made while no thread is
between its null test and its store. -/
def Alone (s : State ι A) (l : ι × Act) : Prop :=
  s.pc l.1 = .test → l.2 = .access → s.shared.obj_ = none → ∀ j, ¬ (s.pc j).Early

instance (p : Pc) : Decidable p.Early := inferInstanceAs (Decidable (_ ∨ _ ∨ _ ∨ _))

instance [Fintype ι] (s : State ι A) (l : ι × Act) : Decidable (Alone s l) := by
  unfold Alone
  infer_instance

/-! ## Runs that meet the condition -/

/-- The object is there, and the pointer to it. -/
structure Shared.Ready (m : Shared A) : Prop where
  obj : m.obj_ = some m.data_
  storage : m.storage = .constructed
  constructed : m.hist.constructed = 1

/-- What a thread that is past the null test knows. -/
def Local (m : Shared A) : Pc → Prop
  | .idle | .test => True
  | .lock | .construct => m.obj_ = none ∧ m.hist.constructed = 0
  | .finish => m.obj_ = none ∧ m.hist.constructed = 1
  | .store => m.obj_ = none ∧ m.hist.constructed = 1 ∧ m.storage = .constructed
  | .unlock | .load => m.Ready

structure SharedInv (m : Shared A) : Prop where
  ready : m.obj_ ≠ none → m.Ready
  at_most : m.hist.constructed ≤ 1
  returned : ∀ r ∈ m.hist.returned, r = (some m.data_, .constructed)
  after : m.hist.returned ≠ [] → m.Ready

def assertion (A : Type*) : Assertion (Shared A) Pc where
  shared := SharedInv
  each := Local
  pair p q := ¬ (p.Early ∧ q.Early)

/-- The invariant: with no thread on its way to the store, there is no object yet or it is
complete. -/
structure Inv (s : State ι A) : Prop where
  holds : (assertion A).Holds s.shared s.pc
  fresh : s.shared.obj_ = none → (∀ i, ¬ (s.pc i).Early) → s.shared.hist.constructed = 0

variable {s t : State ι A} {m m' : Shared A} {p q : Pc}

theorem Inv.once (h : Inv s) : Once s :=
  ⟨h.holds.shared.at_most, h.holds.shared.returned, fun hr => (h.holds.shared.after hr).constructed⟩

theorem init_inv (data_ : A) : Inv (init ι data_) where
  holds :=
    { shared := ⟨fun h => absurd rfl h, Nat.zero_le _, nofun, fun h => absurd rfl h⟩
      each := fun _ => trivial
      pair := fun _ _ _ h => by simp [init, Pc.Early] at h }
  fresh := fun _ _ => rfl

/-- A thread that is not on its way to the store depends on nothing but the object. -/
theorem Local.stable (h : Local m q) (hq : ¬ q.Early) (hr : m.Ready → m'.Ready) : Local m' q := by
  cases q with
  | idle | test => trivial
  | unlock | load => exact hr h
  | lock | construct | finish | store => simp [Pc.Early] at hq

/-- The object and its pointer are as before. -/
def Shared.Same (m m' : Shared A) : Prop :=
  m'.obj_ = m.obj_ ∧ m'.storage = m.storage ∧ m'.data_ = m.data_ ∧
    m'.hist.constructed = m.hist.constructed

theorem Shared.Ready.same (h : m.Ready) (he : m.Same m') : m'.Ready := by
  obtain ⟨ho, hs, hd, hc⟩ := he
  exact ⟨by rw [ho, hd, h.obj], hs ▸ h.storage, hc ▸ h.constructed⟩

theorem Local.same (h : Local m q) (he : m.Same m') : Local m' q := by
  have hready := fun hr : m.Ready => hr.same he
  obtain ⟨ho, hs, -, hc⟩ := he
  cases q with
  | idle | test => trivial
  | unlock | load => exact hready h
  | lock | construct | finish => exact ⟨ho ▸ h.1, hc ▸ h.2⟩
  | store => exact ⟨ho ▸ h.1, hc ▸ h.2.1, hs ▸ h.2.2⟩

theorem SharedInv.same (h : SharedInv m) (he : m.Same m')
    (hret : m'.hist.returned = m.hist.returned) : SharedInv m' where
  ready hne := (h.ready (he.1 ▸ hne)).same he
  at_most := he.2.2.2 ▸ h.at_most
  returned := by
    rw [hret, he.2.2.1]
    exact h.returned
  after hr := (h.after (hret ▸ hr)).same he

/-- There is no pointer yet, and nothing was returned. -/
theorem SharedInv.pending (h : SharedInv m) (ho : m.obj_ = none) (ho' : m'.obj_ = none)
    (hc : m'.hist.constructed ≤ 1) (hret : m'.hist.returned = m.hist.returned) : SharedInv m' := by
  have hnil : m.hist.returned = [] := by
    by_contra hr
    exact Option.some_ne_none _ ((h.after hr).obj.symm.trans ho)
  exact ⟨fun hne => absurd ho' hne, hc, fun r hr => by simp [hret, hnil] at hr,
    fun hr => absurd (hret.trans hnil) hr⟩

theorem Shared.Ready.some (h : m.Ready) (ho : m.obj_ = none) : False :=
  Option.some_ne_none _ (h.obj.symm.trans ho)

theorem Inv.early (h : Inv s) {i j : ι} (hi : (s.pc i).Early) (hj : j ≠ i) : ¬ (s.pc j).Early :=
  fun he => h.holds.pair j i hj ⟨he, hi⟩

/-- One thread moves: on its way to the store it is alone and may change the object, else it
leaves it. -/
theorem Inv.move [DecidableEq ι] {i : ι} (h : Inv s) (hm : SharedInv m') (hx : Local m' p)
    (hkeep : (s.pc i).Early ∨ s.shared.Same m')
    (halone : p.Early → ∀ j, j ≠ i → ¬ (s.pc j).Early)
    (hready : s.shared.Ready → m'.Ready)
    (hfresh : m'.obj_ = none → (s.pc i).Early → p.Early) :
    Inv (⟨m', Function.update s.pc i p⟩ : State ι A) where
  holds := h.holds.update hm hx fun j hj => by
    refine ⟨?_, fun hp => halone hp.1 j hj hp.2, fun hp => halone hp.2 j hj hp.1⟩
    rcases hkeep with hi | hsame
    · exact (h.holds.each j).stable (h.early hi hj) hready
    · exact (h.holds.each j).same hsame
  fresh := fun hobj hnone => by
    have hp : ¬ p.Early := by simpa only [Function.update_self] using hnone i
    have hi : ¬ (s.pc i).Early := fun hi => hp (hfresh hobj hi)
    obtain ⟨ho, -, -, hc⟩ := hkeep.resolve_left hi
    refine hc.trans (h.fresh (ho ▸ hobj) fun j => ?_)
    by_cases hj : j = i
    · exact hj ▸ hi
    · simpa only [Function.update_of_ne hj] using hnone j

theorem step_inv [DecidableEq ι] {l : ι × Act} (h : Inv s) (hl : Alone s l)
    (hs : step s l = some t) : Inv t := by
  obtain ⟨i, a⟩ := l
  obtain ⟨m, p, he, rfl⟩ := Pool.step_cases hs
  have hi : Local s.shared (s.pc i) := h.holds.each i
  have hm := h.holds.shared
  simp only at he hl
  generalize hpc : s.pc i = pc at he hi hl
  have hquiet : s.shared.Same s.shared := ⟨rfl, rfl, rfl, rfl⟩
  cases pc <;> cases a <;> simp only [act, reduceCtorEq, Option.some.injEq, Prod.mk.injEq] at he
  case idle.getInstance =>
    obtain ⟨rfl, rfl⟩ := he
    exact h.move hm trivial (.inr hquiet) (by simp [Pc.Early]) id (by simp [hpc, Pc.Early])
  case test.access =>
    by_cases hobj : s.shared.obj_ = none
    · rw [if_pos (Option.isNone_iff_eq_none.mpr hobj)] at he
      cases he
      have hnone := hl hpc rfl hobj
      exact h.move (hm.same ⟨rfl, rfl, rfl, rfl⟩ rfl) ⟨hobj, h.fresh hobj hnone⟩
        (.inr ⟨rfl, rfl, rfl, rfl⟩) (fun _ j _ => hnone j) (fun hr => (hr.some hobj).elim)
        (fun _ _ => .inl rfl)
    · rw [if_neg (mt Option.isNone_iff_eq_none.mp hobj)] at he
      cases he
      exact h.move hm (hm.ready hobj) (.inr hquiet) (by simp [Pc.Early]) id
        (by simp [hpc, Pc.Early])
  case lock.access =>
    split at he
    · cases he
    · cases he
      have hearly : (s.pc i).Early := hpc ▸ .inl rfl
      exact h.move (hm.same ⟨rfl, rfl, rfl, rfl⟩ rfl) hi (.inl hearly)
        (fun _ j => h.early hearly) (fun hr => (hr.some hi.1).elim) (fun _ _ => .inr (.inl rfl))
  case construct.access =>
    obtain ⟨rfl, rfl⟩ := he
    have hearly : (s.pc i).Early := hpc ▸ .inr (.inl rfl)
    have hone : s.shared.hist.constructed + 1 = 1 := congrArg (· + 1) hi.2
    exact h.move (hm.pending hi.1 hi.1 hone.le rfl) ⟨hi.1, hone⟩ (.inl hearly)
      (fun _ j => h.early hearly) (fun hr => (hr.some hi.1).elim)
      (fun _ _ => .inr (.inr (.inl rfl)))
  case finish.access =>
    obtain ⟨rfl, rfl⟩ := he
    have hearly : (s.pc i).Early := hpc ▸ .inr (.inr (.inl rfl))
    exact h.move (hm.pending hi.1 hi.1 hi.2.le rfl) ⟨hi.1, hi.2, rfl⟩ (.inl hearly)
      (fun _ j => h.early hearly) (fun hr => (hr.some hi.1).elim)
      (fun _ _ => .inr (.inr (.inr rfl)))
  case store.access =>
    obtain ⟨rfl, rfl⟩ := he
    have hearly : (s.pc i).Early := hpc ▸ .inr (.inr (.inr rfl))
    obtain ⟨hobj, hone, hst⟩ := hi
    have hready : Shared.Ready { s.shared with obj_ := some s.shared.data_ } := ⟨rfl, hst, hone⟩
    exact h.move ⟨fun _ => hready, hone.le, hm.returned, fun _ => hready⟩ hready (.inl hearly)
      (by simp [Pc.Early]) (fun _ => hready) (fun hne => by cases hne)
  case unlock.access =>
    obtain ⟨rfl, rfl⟩ := he
    have hsame : s.shared.Same { s.shared with locked := false } := ⟨rfl, rfl, rfl, rfl⟩
    exact h.move (hm.same hsame rfl) (hi.same hsame) (.inr hsame) (by simp [Pc.Early])
      (fun hr => hr.same hsame) (by simp [hpc, Pc.Early])
  case load.access =>
    obtain ⟨rfl, rfl⟩ := he
    refine h.move ⟨fun _ => ⟨hi.obj, hi.storage, hi.constructed⟩, hm.at_most, fun r hr => ?_,
      fun _ => ⟨hi.obj, hi.storage, hi.constructed⟩⟩ trivial (.inr ⟨rfl, rfl, rfl, rfl⟩)
      (by simp [Pc.Early]) (fun hr => ⟨hr.obj, hr.storage, hr.constructed⟩)
      (by simp [hpc, Pc.Early])
    rcases List.mem_append.mp hr with hr | hr
    · exact hm.returned r hr
    · rw [List.mem_singleton.mp hr, hi.obj, hi.storage]

/-! ## Runs that do not -/

/-- Passed the null test, the constructor not run yet. -/
def Pc.Due (p : Pc) : Prop := p = .lock ∨ p = .construct

/-- Each null test that finds no object leads to one run of the constructor. -/
structure Balance (s : State ι A) : Prop where
  due : ∃ n, Count Pc.Due s.pc n ∧ s.shared.hist.passed = s.shared.hist.constructed + n
  early : ∀ i, (s.pc i).Early → 1 ≤ s.shared.hist.passed

theorem init_balance (data_ : A) : Balance (init ι data_) where
  due := ⟨0, .zero fun _ => by simp [init, Pc.Due], rfl⟩
  early := fun _ h => by simp [init, Pc.Early] at h

/-- What an access does to the counts: a null test that finds no object, a run of the
constructor, or neither. -/
theorem act_effect {a : Act} (he : act m p a = some (m', q)) :
    (p = .test ∧ a = .access ∧ m.obj_ = none ∧ q = .lock ∧
      m'.hist.passed = m.hist.passed + 1 ∧ m'.hist.constructed = m.hist.constructed) ∨
    (p = .construct ∧ q = .finish ∧
      m'.hist.passed = m.hist.passed ∧ m'.hist.constructed = m.hist.constructed + 1) ∨
    ((p.Due ↔ q.Due) ∧ (q.Early → p.Early) ∧ (p = .test → a = .access → m.obj_ ≠ none) ∧
      m'.hist.passed = m.hist.passed ∧ m'.hist.constructed = m.hist.constructed) := by
  cases p <;> cases a <;> simp only [act, reduceCtorEq, Option.some.injEq, Prod.mk.injEq] at he
  case test.access =>
    split at he
    · rename_i hobj
      cases he
      exact .inl ⟨rfl, rfl, Option.isNone_iff_eq_none.mp hobj, rfl, rfl, rfl⟩
    · rename_i hobj
      cases he
      exact .inr (.inr ⟨by simp [Pc.Due], by simp [Pc.Early],
        fun _ _ hn => hobj (Option.isNone_iff_eq_none.mpr hn), rfl, rfl⟩)
  case lock.access =>
    split at he
    · cases he
    · cases he
      exact .inr (.inr ⟨by simp [Pc.Due], fun _ => .inl rfl, nofun, rfl, rfl⟩)
  case construct.access =>
    obtain ⟨rfl, rfl⟩ := he
    exact .inr (.inl ⟨rfl, rfl, rfl, rfl⟩)
  case idle.getInstance | finish.access | store.access | unlock.access | load.access =>
    obtain ⟨rfl, rfl⟩ := he
    exact .inr (.inr ⟨by simp [Pc.Due], by simp [Pc.Early], nofun, rfl, rfl⟩)

theorem step_balance [DecidableEq ι] {l : ι × Act} (h : Balance s) (hs : step s l = some t) :
    Balance t ∧ s.shared.hist.passed ≤ t.shared.hist.passed ∧
      (¬ Alone s l → 2 ≤ t.shared.hist.passed) := by
  obtain ⟨i, a⟩ := l
  obtain ⟨m, p, he, rfl⟩ := Pool.step_cases hs
  obtain ⟨⟨n, hn, hp⟩, hearly⟩ := h
  have kept : m.hist.passed = s.shared.hist.passed → (p.Early → (s.pc i).Early) →
      ∀ j, (Function.update s.pc i p j).Early → 1 ≤ m.hist.passed := fun hm hpi j hj => by
    rw [hm]
    by_cases hji : j = i
    · rw [hji, Function.update_self] at hj
      exact hearly i (hpi hj)
    · rw [Function.update_of_ne hji] at hj
      exact hearly j hj
  rcases act_effect he with ⟨hpc, ha, hobj, rfl, hpassed, hcon⟩ | ⟨hpc, rfl, hpassed, hcon⟩ |
    ⟨hdue, hpi, hnot, hpassed, hcon⟩
  · -- the null test finds no object; where another thread did so too, that makes two
    refine ⟨⟨⟨n + 1, hn.enter hpc (by simp [Pc.Due]) (.inl rfl), ?_⟩, fun _ _ => ?_⟩, ?_,
      fun hl => ?_⟩
    · show m.hist.passed = _
      rw [hpassed, hcon, hp, Nat.add_assoc]
    · show 1 ≤ m.hist.passed
      omega
    · show _ ≤ m.hist.passed
      omega
    · obtain ⟨j, hj⟩ : ∃ j, (s.pc j).Early := by
        by_contra hnone
        exact hl fun _ _ _ j hj => hnone ⟨j, hj⟩
      have := hearly j hj
      show 2 ≤ m.hist.passed
      omega
  · have hdue : Pc.Due .construct := .inr rfl
    have hpos := hn.pos (i := i) (hpc ▸ hdue)
    refine ⟨⟨⟨n - 1, hn.leave hpc hdue (by simp [Pc.Due]), ?_⟩, kept hpassed fun _ => ?_⟩,
      hpassed.ge, fun hl => ?_⟩
    · show m.hist.passed = _
      rw [hpassed, hcon, hp]
      omega
    · exact hpc ▸ .inr (.inl rfl)
    · exact absurd (fun ht => by simp only [hpc] at ht; cases ht) hl
  · refine ⟨⟨⟨n, hn.same rfl hdue.symm, ?_⟩, kept hpassed hpi⟩, hpassed.ge, fun hl => ?_⟩
    · show m.hist.passed = _
      rw [hpassed, hcon, hp]
    · exact absurd (fun ht ha hobj => absurd hobj (hnot ht ha)) hl

/-- A run that does not meet the condition has two null tests that find no object. -/
theorem run_alone [DecidableEq ι] {data_ : A} {ls : List (ι × Act)}
    (h : Run step Unrestricted (init ι data_) ls s) :
    Balance s ∧ (Run step Alone (init ι data_) ls s ∨ 2 ≤ s.shared.hist.passed) := by
  refine h.history (J := fun ls s => Balance s ∧
    (Run step Alone (init ι data_) ls s ∨ 2 ≤ s.shared.hist.passed))
    ⟨init_balance data_, .inl .nil⟩ ?_
  intro ls s l t ⟨hb, hr⟩ _ hs
  obtain ⟨hb', hle, htwo⟩ := step_balance hb hs
  refine ⟨hb', ?_⟩
  by_cases hl : Alone s l
  · exact hr.imp (fun hr => .snoc hr hl hs) fun h2 => h2.trans hle
  · exact .inr (htwo hl)

/-- **When the object is built once.** Every run whose null tests meet the condition builds
one object and returns it; a run that is over and did so met the condition. -/
theorem built_once_iff [DecidableEq ι] {data_ : A} {ls : List (ι × Act)}
    (h : Run step Unrestricted (init ι data_) ls s) :
    (Run step Alone (init ι data_) ls s → Once s) ∧
      ((∀ i, s.pc i = .idle) → Once s → Run step Alone (init ι data_) ls s) := by
  refine ⟨fun hr => ?_, fun hidle honce => ?_⟩
  · exact (hr.invariant (init_inv data_) fun _ _ _ hi hl hs => step_inv hi hl hs).once
  · obtain ⟨⟨⟨n, hn, hp⟩, -⟩, hr⟩ := run_alone h
    have hzero : n = 0 := hn.eq_zero fun i => by simp [hidle i, Pc.Due]
    have := honce.at_most
    exact hr.resolve_right (by omega)

/-- Thread 1 calls while thread 0 still holds the lock. -/
def overlappingCalls : List (Fin 2 × Act) :=
  let i : Fin 2 := ⟨0, Nat.zero_lt_two⟩
  let j : Fin 2 := ⟨1, Nat.one_lt_two⟩
  (i, .getInstance) :: List.replicate 5 (i, .access) ++ (j, .getInstance) ::
    List.replicate 2 (j, .access) ++ List.replicate 2 (i, .access)

theorem built_once_iff_overlapping : ∃ s : State (Fin 2) Nat,
    s.shared.hist.returned.length = 2 ∧ Once s := by
  have hex : (execOk step Alone (init (Fin 2) (7 : Nat)) overlappingCalls).map
      (fun s => s.shared.hist.returned.length) = some 2 := by
    decide +kernel
  obtain ⟨s, hs, he⟩ := Option.map_eq_some_iff.mp hex
  have hr := run_of_execOk hs
  exact ⟨s, he, (built_once_iff (hr.mono fun _ _ _ => trivial)).1 hr⟩

/-- Both threads make the null test before one of them has the lock. -/
def racingCalls : List (Fin 2 × Act) :=
  let i : Fin 2 := ⟨0, Nat.zero_lt_two⟩
  let j : Fin 2 := ⟨1, Nat.one_lt_two⟩
  [(i, .getInstance), (j, .getInstance), (i, .access), (j, .access)] ++
    List.replicate 6 (i, .access) ++ List.replicate 6 (j, .access)

theorem race_builds_twice : ∃ s : State (Fin 2) Nat,
    Run step Unrestricted (init (Fin 2) (7 : Nat)) racingCalls s ∧ ¬ Once s := by
  have hex : (exec step (init (Fin 2) (7 : Nat)) racingCalls).map
      (fun s => s.shared.hist.constructed) = some 2 := by
    decide +kernel
  obtain ⟨s, hs, he⟩ := Option.map_eq_some_iff.mp hex
  refine ⟨s, run_iff_exec.mpr hs, fun honce => ?_⟩
  have := honce.at_most
  omega

end HermesShm.Util.Singleton
