import HermesShm.Base.Scoped
import HermesShm.Thread.TicketLockOrder
import HermesShm.Thread.TicketLockRest
import HermesShm.Thread.RwLockRest

/-! # The scoped locks

`ScopedMutex`, `ScopedSpinLock`, `ScopedRwReadLock` and `ScopedRwWriteLock` lock in the
constructor and unlock in the destructor. `Lock`, `TryLock` and `Unlock` in between look at
`is_locked_` first, the flag of the owner. Every object is a party of its own, so a thread may
have any number of them on one lock, in scopes nested in any way. -/
namespace HermesShm.Thread
open HermesShm.Base

variable {ι : Type*} [DecidableEq ι]

/-! ## The ticket locks -/

namespace TicketLock

/-- `TryLock` answers true for the thread that comes to hold the lock. -/
def resource (ι : Type*) [DecidableEq ι] (yields : Bool) : Resource (State ι) ι Act Pc Unit where
  step := step yields
  pc s := s.pool.pc
  acquire _ := .lock
  attempt _ := some .tryLock
  free p := decide (p = .idle)
  held _ p := decide p.Holding

end TicketLock

def ScopedMutex.step : Scoped (TicketLock.State ι) ι → ι × OwnerAct TicketLock.Act →
    Option (Scoped (TicketLock.State ι) ι) :=
  (TicketLock.resource ι true).ownerStep fun _ => ()

def ScopedSpinLock.step : Scoped (TicketLock.State ι) ι → ι × OwnerAct TicketLock.Act →
    Option (Scoped (TicketLock.State ι) ι) :=
  (TicketLock.resource ι false).ownerStep fun _ => ()

namespace TicketLock

/-- A fresh lock and no object on it. -/
def scopes (ι : Type*) : Scoped (State ι) ι := ⟨init ι, fun _ => {}⟩

/-- What the objects on one lock have in every state. -/
structure Scopes (yields : Bool) (s : Scoped (State ι) ι) : Prop where
  exclusive : ∀ i j, (s.owner i).flag → (s.owner j).flag → i = j
  tells : ∀ i, (s.owner i).flag ↔ (s.resource.pool.pc i).Holding
  fifo : s.resource.entered <+: s.resource.took
  left : (∀ i, (s.owner i).stage = .outside) → ∀ i, Gets yields s.resource.pool i .lock

/-- In `Lock`, past the ticket. -/
def Pc.Spinning : Pc → Prop
  | .spin _ | .yield _ => True
  | _ => False

theorem step_act {yields : Bool} {s t : State ι} {i : ι} {a : Act}
    (h : step yields s (i, a) = some t) :
    ∃ l p, act yields s.pool.shared (s.pool.pc i) a = some (l, p) ∧
      t.pool = ⟨l, Function.update s.pool.pc i p⟩ := by
  obtain ⟨u, hu, rfl⟩ := Option.map_eq_some_iff.mp h
  obtain ⟨l, p, hact, rfl⟩ := Pool.step_cases hu
  exact ⟨l, p, hact, rfl⟩

theorem spinning_act {yields : Bool} {l l' : TicketLock} {p p' : Pc} {a : Act}
    (h : act yields l p a = some (l', p')) (hp : p.Spinning) : p'.Holding ∨ p'.Spinning := by
  cases p with
  | spin tkt =>
    cases a with
    | access headFirst =>
      simp only [act, access] at h
      split at h
      · cases h; exact .inl trivial
      · cases h
        cases yields with
        | true => exact .inr trivial
        | false => exact .inr trivial
    | lock | tryLock => cases h
  | yield tkt =>
    cases a with
    | access headFirst => cases h; exact .inr trivial
    | lock | tryLock => cases h
  | idle | loadEither | loadHead _ | loadLock _ | undoTry | takeTicket | holding _ => exact hp.elim

theorem holding_act {yields : Bool} {l l' : TicketLock} {p p' : Pc} {a : Act}
    (h : act yields l p a = some (l', p')) (hp : p.Holding) : p' = .idle := by
  cases p with
  | holding tkt =>
    cases a with
    | access headFirst => cases h; rfl
    | lock | tryLock => cases h
  | idle | loadEither | loadHead _ | loadLock _ | undoTry | takeTicket | spin _ | yield _ =>
    exact hp.elim

def lawful (yields : Bool) : (resource ι yields).Lawful where
  frame s i a t j h hj := by
    obtain ⟨l, p, -, hpool⟩ := step_act h
    simp only [resource, hpool, Function.update_of_ne hj]
  seeks _ := Pc.Spinning
  tries _ p := ¬ p.Holding
  gives _ _ := False
  acquire s i _ t h hfree := by
    obtain ⟨l, p, hact, hpool⟩ := step_act h
    have hidle : s.pool.pc i = .idle := of_decide_eq_true hfree
    rw [hidle] at hact
    cases hact
    refine .inr ?_
    simp only [resource, hpool, Function.update_self]
    trivial
  seek s i a _ t h hseeks := by
    obtain ⟨l, p, hact, hpool⟩ := step_act h
    simp only [resource, hpool, Function.update_self, decide_eq_true_eq]
    exact spinning_act hact hseeks
  attempt _ _ _ _ _ _ _ _ := (em _).imp decide_eq_true .inr
  try_ _ _ _ _ _ _ _ := (em _).imp decide_eq_true .inr
  give s i a _ t h hheld := by
    obtain ⟨l, p, hact, hpool⟩ := step_act h
    have hholding := of_decide_eq_true (hheld.resolve_right id)
    simp only [resource, hpool, Function.update_self, decide_eq_true_eq]
    exact .inl (holding_act hact hholding)

theorem scopes_fit (yields : Bool) : (lawful (ι := ι) yields).Fit (fun _ => ()) (scopes ι) :=
  fun _ => ⟨rfl, rfl⟩

theorem fits_holding {yields : Bool} {o : Owner} {p : Pc}
    (h : (lawful (ι := ι) yields).Fits () o p) : o.flag ↔ p.Holding := by
  obtain ⟨x, f⟩ := o
  have hfree (hp : (resource ι yields).free p) : ¬ p.Holding := by
    rw [of_decide_eq_true hp]
    exact id
  cases x with
  | outside =>
    obtain ⟨rfl, hp⟩ := h
    exact iff_of_false Bool.false_ne_true (hfree hp)
  | between =>
    cases f with
    | true => exact iff_of_true rfl (of_decide_eq_true h)
    | false => exact iff_of_false Bool.false_ne_true (hfree h)
  | acquiring =>
    obtain ⟨rfl, hp⟩ : f = false ∧ p.Spinning := h
    refine iff_of_false Bool.false_ne_true fun hholding => ?_
    cases p with
    | holding tkt => exact hp
    | idle | loadEither | loadHead _ | loadLock _ | undoTry | takeTicket | spin _ | yield _ =>
      exact hholding
  | attempting =>
    obtain ⟨rfl, hp⟩ := h
    exact iff_of_false Bool.false_ne_true hp
  | releasing | leaving =>
    obtain ⟨rfl, hp⟩ := h
    exact iff_of_true rfl (of_decide_eq_true (hp.resolve_right id))

theorem scopes_of_run {yields : Bool} {ls : List (ι × OwnerAct Act)}
    {s : Scoped (State ι) ι}
    (hr : Run ((resource ι yields).ownerStep fun _ => ())
      ((resource ι yields).Asks (fun _ => ()) NoWrap) (scopes ι) ls s) : Scopes yields s := by
  obtain ⟨⟨ms, hms⟩, hfit⟩ := Resource.run_owners hr (scopes_fit yields)
  have hinv : s.resource.Inv := run_inv hms
  have htells (i : ι) : (s.owner i).flag ↔ (s.resource.pool.pc i).Holding := fits_holding (hfit i)
  refine ⟨?_, htells, hinv.fifo, ?_⟩
  · intro i j hi hj
    exact hinv.exclusive ((htells i).mp hi) ((htells j).mp hj)
  · intro hout i
    have hrest : Rest s.resource.pool := fun j => by
      have hfree := (hfit j).free (.inl (hout j))
      exact of_decide_eq_true hfree
    have hnone := hinv.queued.eq_zero fun j => by rw [hrest j]; exact Bool.false_ne_true
    exact (gets_lock_iff hrest).mpr
      (Nat.le_antisymm (Nat.le_of_sub_eq_zero hnone) hinv.head_le)

/-- Object 0 is made, locks once more and is asked to try; object 1 is made and waits until
object 0 is destroyed. -/
def handover : List (Fin 2 × OwnerAct Act) :=
  let i : Fin 2 := ⟨0, Nat.zero_lt_two⟩
  let j : Fin 2 := ⟨1, Nat.one_lt_two⟩
  [(i, .construct), (i, .proceed (.access true)), (i, .acquire), (i, .attempt), (j, .construct),
    (j, .proceed (.access true)), (i, .destroy), (i, .proceed (.access true)),
    (j, .proceed (.access true)), (j, .proceed (.access true))]

end TicketLock

/-! ## The reader-writer lock -/

namespace RwLock

/-- What an object locks for: a `ScopedRwReadLock` to read, a `ScopedRwWriteLock` to write. -/
inductive Access
  | read
  | write
  deriving DecidableEq

def Pc.Has : Access → Pc → Prop
  | .read, .reading => True
  | .write, .writing _ => True
  | _, _ => False

instance (k : Access) (p : Pc) : Decidable (Pc.Has k p) :=
  match k, p with
  | .read, .reading | .write, .writing _ => isTrue trivial
  | .read, .idle | .read, .loadMode _ | .read, .loadReaders _ _ | .read, .loadWriters _ _
  | .read, .casNone _ _ | .read, .casRead | .read, .takeTicket | .read, .casWrite _
  | .read, .reloadMode _ | .read, .loadCurWriter _ | .read, .writing _ | .read, .passOn _
  | .write, .idle | .write, .loadMode _ | .write, .loadReaders _ _ | .write, .loadWriters _ _
  | .write, .casNone _ _ | .write, .casRead | .write, .reading | .write, .takeTicket
  | .write, .casWrite _ | .write, .reloadMode _ | .write, .loadCurWriter _
  | .write, .passOn _ => isFalse id

/-- There is no `TryLock`. -/
def resource (ι : Type*) [DecidableEq ι] : Resource (State ι) ι Act Pc Access where
  step := step
  pc := Pool.pc
  acquire
    | .read => .readLock
    | .write => .writeLock
  attempt _ := none
  free p := decide (p = .idle)
  held k p := decide (Pc.Has k p)

end RwLock

/-- `ScopedRwReadLock` and `ScopedRwWriteLock` objects on one lock, as `kind` says. -/
def ScopedRwLock.step (kind : ι → RwLock.Access) : Scoped (RwLock.State ι) ι →
    ι × OwnerAct RwLock.Act → Option (Scoped (RwLock.State ι) ι) :=
  (RwLock.resource ι).ownerStep kind

namespace RwLock

/-- A fresh lock and no object on it. -/
def scopes (ι : Type*) : Scoped (State ι) ι := ⟨init ι, fun _ => {}⟩

/-- Between two calls, with `is_locked_`. -/
def Locked (s : Scoped (State ι) ι) (i : ι) : Prop :=
  (s.owner i).stage = .between ∧ (s.owner i).flag

structure Scopes (kind : ι → Access) (s : Scoped (State ι) ι) : Prop where
  exclusive : ∀ i j, i ≠ j → kind i = .write → Locked s i → ¬ Locked s j
  tells : ∀ i, (s.owner i).stage = .between →
    ((s.owner i).flag ↔ Pc.Has (kind i) (s.resource.pc i)) ∧
      (¬ (s.owner i).flag ↔ s.resource.pc i = .idle)
  left : (∀ i, (s.owner i).stage = .outside) → Rested s.resource

/-- In `ReadLock` or in `WriteLock`. -/
def Pc.Counted (k : Access) (p : Pc) : Prop :=
  match k with
  | .read => p.isReader
  | .write => p.isWriter

/-- What is left of `WriteUnlock`. -/
def Pc.Passing (k : Access) (p : Pc) : Prop := k = .write ∧ ∃ tkt, p = .passOn tkt

section
variable {s t : State ι} {i : ι} {a : Act} {k : Access}

theorem counted_act {l l' : RwLock} {p p' : Pc} (h : act l p a = some (l', p'))
    (hp : p.Counted k) (hnot : ¬ Pc.Has k p) : p'.Counted k := by
  obtain ⟨rfl, -, rfl, -⟩ | ⟨rfl, -, rfl, -⟩ | ⟨sp, -, ha⟩ := act_cases h
  · cases k <;> exact hp.elim
  · cases k <;> exact hp.elim
  · obtain ⟨rfl, -, -⟩ | ⟨rfl, rfl, -⟩ | ⟨tkt, rfl, -, -⟩ | ⟨tkt, rfl, -, -⟩ |
      ⟨-, hread, hwrite, -, -, -⟩ := access_moves ha
    · cases k with
      | read => exact absurd trivial hnot
      | write => exact hp.elim
    · cases k with
      | read => exact hp.elim
      | write => exact fun h => nomatch h
    · cases k with
      | read => exact hp.elim
      | write => exact absurd trivial hnot
    · cases k <;> exact hp.elim
    · cases k with
      | read => exact hread.mpr hp
      | write => exact hwrite.mpr hp

theorem has_act {l l' : RwLock} {p p' : Pc} (h : act l p a = some (l', p'))
    (hp : Pc.Has k p ∨ p.Passing k) : p' = .idle ∨ p'.Passing k := by
  obtain hp | ⟨rfl, tkt, rfl⟩ := hp
  · cases k with
    | read =>
      cases p with
      | reading =>
        cases a with
        | access sp => cases h; exact .inl rfl
        | readLock | writeLock => cases h
      | _ => exact hp.elim
    | write =>
      cases p with
      | writing tkt =>
        cases a with
        | access sp => cases h; exact .inr ⟨rfl, tkt, rfl⟩
        | readLock | writeLock => cases h
      | _ => exact hp.elim
  · cases a with
    | access sp => cases h; exact .inl rfl
    | readLock | writeLock => cases h

def lawful (ι : Type*) [DecidableEq ι] : (resource ι).Lawful where
  frame s i a t j h hj := by
    obtain ⟨l, p, -, rfl⟩ := Pool.step_cases h
    exact Function.update_of_ne hj _ _
  seeks k p := p.Counted k ∧ ¬ Pc.Has k p
  tries _ _ := False
  gives k p := p.Passing k
  acquire s i k t h hfree := by
    obtain ⟨l, p, hact, rfl⟩ := Pool.step_cases h
    have hidle : s.pc i = .idle := of_decide_eq_true hfree
    rw [hidle] at hact
    refine .inr ?_
    simp only [resource, Function.update_self]
    cases k <;> cases hact
    · exact ⟨rfl, id⟩
    · exact ⟨trivial, id⟩
  seek s i a k t h hseeks := by
    obtain ⟨l, p, hact, rfl⟩ := Pool.step_cases h
    simp only [resource, Function.update_self, decide_eq_true_eq]
    have hcounted := counted_act hact hseeks.1 hseeks.2
    exact (em (Pc.Has k p)).imp_right fun hnot => ⟨hcounted, hnot⟩
  attempt _ _ _ _ _ _ ha := nomatch ha
  try_ _ _ _ _ _ _ htries := htries.elim
  give s i a k t h hheld := by
    obtain ⟨l, p, hact, rfl⟩ := Pool.step_cases h
    simp only [resource, Function.update_self, decide_eq_true_eq]
    exact has_act hact (hheld.imp_left of_decide_eq_true)

end

theorem not_locked_of_idle {k : Access} {p : Pc} (hp : p = .idle) : ¬ Pc.Has k p := by
  rw [hp]
  cases k <;> exact id

/-- A reader comes and goes, and a writer takes the lock after it. -/
def readThenWrite : List (Bool × OwnerAct Act) :=
  (false, .construct) :: List.replicate 4 (false, .proceed (.access false)) ++
    [(false, .acquire), (false, .destroy), (false, .proceed (.access false))] ++
    (true, .construct) :: List.replicate 10 (true, .proceed (.access false))

end RwLock
end HermesShm.Thread
