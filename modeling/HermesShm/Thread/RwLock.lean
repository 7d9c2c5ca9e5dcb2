import HermesShm.Base.Transition
import HermesShm.Base.Pool
import HermesShm.Base.Word

/-! # The reader-writer lock

`RwLock` keeps five atomics. A thread moves one atomic access at a time; what
the code does between two accesses (tests of local variables) belongs to the
step before. `mode_` is set back to `kNone` lazily, by `UpdateMode`, from a
check of `readers_` or `writers_` that is a separate access from the
compare-exchange that follows it. -/
namespace HermesShm.Thread
open HermesShm.Base

inductive RwLockMode
  | kNone
  | kWrite
  | kRead
  deriving DecidableEq, Repr

structure RwLock where
  mode_ : RwLockMode := .kNone
  readers_ : Nat := 0
  writers_ : Nat := 0
  cur_writer_ : Nat := 0
  ticket_ : Nat := 0

namespace RwLock

/-- `reg_uint` is 32 bits wide, `big_uint` 64. -/
def regUint : Nat := 2 ^ 32
def bigUint : Nat := 2 ^ 64

def fetchAdd (w n : Nat) : Nat := wordAdd w n 1
def fetchSub (w n : Nat) : Nat := wordSub w n 1

/-- Who runs `UpdateMode`: `ReadLock`, or `WriteLock` with its ticket. -/
inductive Caller
  | reader
  | writer (tkt : Nat)
  deriving DecidableEq

/-- Where a thread is, named by its next access; `mode` is the caller's local
variable. The ticket kept after `WriteLock` returns is no variable of the code,
it only names the holder. -/
inductive Pc
  | idle
  -- UpdateMode
  | loadMode (c : Caller)
  | loadReaders (c : Caller) (mode : RwLockMode)
  | loadWriters (c : Caller) (mode : RwLockMode)
  | casNone (c : Caller) (mode : RwLockMode)
  -- ReadLock, and from its return to ReadUnlock
  | casRead
  | reading
  -- WriteLock, and from its return to the end of WriteUnlock
  | takeTicket
  | casWrite (tkt : Nat)
  | reloadMode (tkt : Nat)
  | loadCurWriter (tkt : Nat)
  | writing (tkt : Nat)
  | passOn (tkt : Nat)
  deriving DecidableEq

/-- An idle thread calls `ReadLock` or `WriteLock`; any other thread makes its
next access, where `spurious` lets a weak compare-exchange fail on an equal
value. -/
inductive Act
  | readLock
  | writeLock
  | access (spurious : Bool)

/-- The new value of `mode_`, the updated `expected`, and the success flag. -/
def compareExchangeWeak (spurious : Bool) (cur expected desired : RwLockMode) :
    RwLockMode × RwLockMode × Bool :=
  if cur = expected ∧ spurious = false then (desired, expected, true) else (cur, cur, false)

/-- What `ReadLock` and `WriteLock` do with `mode` once `UpdateMode` is done. -/
def afterUpdate : Caller → RwLockMode → Pc
  | .reader, .kRead => .reading
  | .reader, .kNone => .casRead
  | .reader, .kWrite => .loadMode .reader
  | .writer tkt, .kNone => .casWrite tkt
  | .writer tkt, .kWrite => .loadCurWriter tkt
  | .writer tkt, .kRead => .loadMode (.writer tkt)

/-- The next access of a thread inside a call. -/
def access (l : RwLock) (spurious : Bool) : Pc → Option (RwLock × Pc)
  | .idle => none
  | .loadMode c => some (l, .loadReaders c l.mode_)
  | .loadReaders c mode =>
    if l.readers_ = 0 ∧ mode = .kRead then some (l, .casNone c mode)
    else some (l, .loadWriters c mode)
  | .loadWriters c mode =>
    if l.writers_ = 0 ∧ mode = .kWrite then some (l, .casNone c mode)
    else some (l, afterUpdate c mode)
  | .casNone c mode =>
    let (new, mode', _) := compareExchangeWeak spurious l.mode_ mode .kNone
    some ({ l with mode_ := new }, afterUpdate c mode')
  | .casRead =>
    let (new, _, ret) := compareExchangeWeak spurious l.mode_ .kNone .kRead
    some ({ l with mode_ := new }, if ret then .reading else .loadMode .reader)
  | .reading => some ({ l with readers_ := fetchSub regUint l.readers_ }, .idle)
  | .takeTicket =>
    some ({ l with ticket_ := fetchAdd bigUint l.ticket_ }, .loadMode (.writer l.ticket_))
  | .casWrite tkt =>
    let (new, _, _) := compareExchangeWeak spurious l.mode_ .kNone .kWrite
    some ({ l with mode_ := new }, .reloadMode tkt)
  | .reloadMode tkt =>
    if l.mode_ = .kWrite then some (l, .loadCurWriter tkt) else some (l, .loadMode (.writer tkt))
  | .loadCurWriter tkt =>
    if l.cur_writer_ = tkt then some (l, .writing tkt) else some (l, .loadMode (.writer tkt))
  | .writing tkt => some ({ l with writers_ := fetchSub regUint l.writers_ }, .passOn tkt)
  | .passOn _ => some ({ l with cur_writer_ := fetchAdd regUint l.cur_writer_ }, .idle)

def act (l : RwLock) : Pc → Act → Option (RwLock × Pc)
  | .idle, .readLock => some ({ l with readers_ := fetchAdd regUint l.readers_ }, .loadMode .reader)
  | .idle, .writeLock => some ({ l with writers_ := fetchAdd regUint l.writers_ }, .takeTicket)
  | p, .access spurious => access l spurious p
  | _, _ => none

abbrev State (ι : Type*) := Pool ι RwLock Pc

/-- A fresh lock, no thread in it. -/
def init (ι : Type*) : State ι := ⟨{}, fun _ => .idle⟩

def step {ι : Type*} [DecidableEq ι] : State ι → ι × Act → Option (State ι) := Pool.step act

end RwLock
end HermesShm.Thread
