import HermesShm.Base.Transition
import HermesShm.Base.Pool
import HermesShm.Base.Word

/-! # The ticket locks

`Mutex` and `SpinLock` are one algorithm, except that `Mutex` yields between
two looks at `head_`. `TryLock` looks at the two counters in separate steps and
then takes a ticket like `Lock` does, so it can wait although its test passed. -/
namespace HermesShm.Thread
open HermesShm.Base

structure TicketLock where
  lock_ : Nat := 0
  head_ : Nat := 0
  try_lock_ : Nat := 0

namespace TicketLock

/-- `min_u64` counts the tickets, `min_u32` the calls of `TryLock`. -/
def minU64 : Nat := 2 ^ 64
def minU32 : Nat := 2 ^ 32

/-- Where a thread is, named by its next access. The ticket kept after `Lock`
returns is no variable of the code, it only names the holder. -/
inductive Pc
  | idle
  -- TryLock: the operands of `lock_.load() > head_.load()` come in either order
  | loadEither
  | loadHead (lock : Nat)
  | loadLock (head : Nat)
  | undoTry
  -- Lock, and from its return to Unlock
  | takeTicket
  | spin (tkt : Nat)
  | yield (tkt : Nat)
  | holding (tkt : Nat)
  deriving DecidableEq

/-- An idle thread calls `Lock` or `TryLock`; any other thread makes its next
access, where `headFirst` picks the operand loaded first. -/
inductive Act
  | lock
  | tryLock
  | access (headFirst : Bool)

/-- `TryLock` once both counters are loaded. -/
def afterLoads (lock head : Nat) : Pc := if lock > head then .undoTry else .takeTicket

/-- The next access of a thread inside a call. -/
def access (yields : Bool) (l : TicketLock) (headFirst : Bool) : Pc → Option (TicketLock × Pc)
  | .idle => none
  | .loadEither => some (l, if headFirst then .loadLock l.head_ else .loadHead l.lock_)
  | .loadHead lock => some (l, afterLoads lock l.head_)
  | .loadLock head => some (l, afterLoads l.lock_ head)
  | .undoTry => some ({ l with try_lock_ := wordSub minU32 l.try_lock_ 1 }, .idle)
  | .takeTicket => some ({ l with lock_ := wordAdd minU64 l.lock_ 1 }, .spin l.lock_)
  | .spin tkt =>
    if tkt = l.head_ then some (l, .holding tkt)
    else some (l, if yields then .yield tkt else .spin tkt)
  | .yield tkt => some (l, .spin tkt)
  | .holding _ => some ({ l with head_ := wordAdd minU64 l.head_ 1 }, .idle)

def act (yields : Bool) (l : TicketLock) : Pc → Act → Option (TicketLock × Pc)
  | .idle, .lock => some ({ l with lock_ := wordAdd minU64 l.lock_ 1 }, .spin l.lock_)
  | .idle, .tryLock =>
    some ({ l with try_lock_ := wordAdd minU32 l.try_lock_ 1 },
      if l.try_lock_ > 0 then .undoTry else .loadEither)
  | p, .access headFirst => access yields l headFirst p
  | _, _ => none

/-- The ticket a thread has taken and not given back. -/
def Pc.ticket : Pc → Option Nat
  | .spin tkt | .yield tkt | .holding tkt => some tkt
  | _ => none

/-- Waiting for the lock or holding it. -/
def Pc.Queued (p : Pc) : Prop := p.ticket.isSome

/-- Between a successful `Lock` or `TryLock` and its `Unlock`. -/
def Pc.Holding : Pc → Prop
  | .holding _ => True
  | _ => False

instance : DecidablePred Pc.Queued := fun _ => inferInstanceAs (Decidable (_ = _))

instance : DecidablePred Pc.Holding
  | .holding _ => isTrue trivial
  | .idle | .loadEither | .loadHead _ | .loadLock _ | .undoTry | .takeTicket | .spin _ | .yield _ =>
    isFalse id

/-- The threads on the lock, and two records of the past: who took a ticket
and who came to hold the lock, in the order in which they did. -/
structure State (ι : Type*) where
  pool : Pool ι TicketLock Pc
  took : List ι := []
  entered : List ι := []

/-- A fresh lock, no thread in it. -/
def init (ι : Type*) : State ι := { pool := ⟨{}, fun _ => .idle⟩ }

def step {ι : Type*} [DecidableEq ι] (yields : Bool) (s : State ι) (l : ι × Act) :
    Option (State ι) :=
  (s.pool.step (act yields) l).map fun t =>
    let now (p : Pc → Prop) [DecidablePred p] : Bool := ¬ p (s.pool.pc l.1) ∧ p (t.pc l.1)
    { pool := t
      took := if now Pc.Queued then s.took ++ [l.1] else s.took
      entered := if now Pc.Holding then s.entered ++ [l.1] else s.entered }

end TicketLock

def Mutex.step {ι : Type*} [DecidableEq ι] :
    TicketLock.State ι → ι × TicketLock.Act → Option (TicketLock.State ι) := TicketLock.step true

def SpinLock.step {ι : Type*} [DecidableEq ι] :
    TicketLock.State ι → ι × TicketLock.Act → Option (TicketLock.State ι) := TicketLock.step false

end HermesShm.Thread
