import HermesShm.Base.Transition
import HermesShm.Base.Pool
import HermesShm.Base.Word

/-! # The ring queue

`ring_queue_base` keeps a vector of slots and two token counters. Producers run
`emplace`, one consumer runs `pop`; every load and update of a counter, every
rewrite of a slot and every access to its ready bit is a step of its own. What
the code does with local variables belongs to the step before. -/
namespace HermesShm.Ipc.RingQueue
open HermesShm.Base

variable {ι α : Type*}

/-! ## Flags -/

abbrev RingQueueFlag := Nat

def RqFlag.kPushAtomic : RingQueueFlag := 1 <<< 0
def RqFlag.kPopAtomic : RingQueueFlag := 1 <<< 1
def RqFlag.kWaitForSpace : RingQueueFlag := 1 <<< 3
def RqFlag.kErrorOnNoSpace : RingQueueFlag := 1 <<< 4
def RqFlag.kDynamicResize : RingQueueFlag := 1 <<< 5

def mpscFlags : RingQueueFlag := RqFlag.kPushAtomic ||| RqFlag.kPopAtomic ||| RqFlag.kWaitForSpace
def spscFlags : RingQueueFlag := RqFlag.kWaitForSpace
def fixedMpmcFlags : RingQueueFlag :=
  RqFlag.kPushAtomic ||| RqFlag.kPopAtomic ||| RqFlag.kErrorOnNoSpace
def extensibleFlags : RingQueueFlag := RqFlag.kDynamicResize

def waitForSpace (flags : RingQueueFlag) : Bool := 0 < flags &&& RqFlag.kWaitForSpace
def errorOnNoSpace (flags : RingQueueFlag) : Bool := 0 < flags &&& RqFlag.kErrorOnNoSpace
def dynamicSize (flags : RingQueueFlag) : Bool := 0 < flags &&& RqFlag.kDynamicResize

/-! ## The ring -/

/-- `qtok_id` and `size_t` are 64 bits wide, the slot index of `emplace` 32. -/
def sizeMod : Nat := 2 ^ 64
def idxMod : Nat := 2 ^ 32

/-- A `pair_t`: the ready bits, and the value, `none` where it is default
constructed or moved from. -/
structure Slot (α : Type*) where
  first : Nat := 0
  second : Option α := none

structure Ring (α : Type*) where
  /-- `queue_->size()` -/
  depth : Nat
  queue_ : Nat → Slot α := fun _ => {}
  tail_ : Nat := 0
  head_ : Nat := 0

namespace Ring

/-- `tail - head + 1` -/
def spaceFor (tail head : Nat) : Nat := wordAdd sizeMod (wordSub sizeMod tail head) 1

/-- The slot of a token in `emplace`. -/
def emplaceIdx (r : Ring α) (tail : Nat) : Nat := tail % r.depth % idxMod

/-- The slot of a token in `pop`. -/
def popIdx (r : Ring α) (head : Nat) : Nat := head % r.depth

def write (r : Ring α) (idx : Nat) (e : Slot α) : Ring α :=
  { r with queue_ := Function.update r.queue_ idx e }

/-- Destroys the old pair and constructs a new one, its bits cleared. -/
def replace (r : Ring α) (idx : Nat) (v : Option α) : Ring α := r.write idx { second := v }

def setBits (r : Ring α) (idx mask : Nat) : Ring α :=
  r.write idx { r.queue_ idx with first := (r.queue_ idx).first ||| mask }

def any (r : Ring α) (idx mask : Nat) : Bool := (r.queue_ idx).first &&& mask != 0

/-- `val = std::move(entry.GetSecond())` -/
def moveOut (r : Ring α) (idx : Nat) : Option α × Ring α :=
  ((r.queue_ idx).second, r.write idx { r.queue_ idx with second := none })

def clear (r : Ring α) (idx : Nat) : Ring α :=
  r.write idx { r.queue_ idx with first := 0 }

end Ring

/-! ## Producers and the consumer -/

/-- Where a producer is in `emplace`, named by its next access. -/
inductive Producer (α : Type*)
  | idle
  | claim (head : Nat) (v : α)
  | awaitSpace (tail : Nat) (v : α)
  | giveBack (tail : Nat) (v : α)
  | replace (tail : Nat) (v : α)
  | mark (tail : Nat)
  deriving DecidableEq

inductive ProducerAct (α : Type*)
  | emplace (v : α)
  | access

/-- Where the consumer is in `pop(val)`. -/
inductive Consumer (α : Type*)
  | idle
  | loadTail (head : Nat)
  | test (head : Nat)
  | moveOut (head : Nat)
  | clear (head : Nat) (val : Option α)
  | advance (head : Nat) (val : Option α)

/-- What calls were given and returned so far: an emplace that keeps its token
is in `taken` with it, and in `stored` once its slot is written; `returned` are
the tokens `emplace` has returned, `rejected` the values of the calls that
returned null. No step reads any of it. -/
structure Hist (α : Type*) where
  taken : List (Nat × α) := []
  stored : List Nat := []
  returned : List Nat := []
  rejected : List α := []
  popped : List (Nat × Option α) := []

structure Shared (α : Type*) where
  ring : Ring α
  consumer : Consumer α := .idle
  hist : Hist α := {}

/-- What the flags make of a claimed token: the size test of `emplace`. A queue
that grows (`kDynamicResize`) has no atomic counters and is not for several
threads; it is in `RingQueueGrowth`. -/
def afterClaim (flags : RingQueueFlag) (depth head tail : Nat) (v : α) : Producer α :=
  if waitForSpace flags then
    if depth < Ring.spaceFor tail head then .awaitSpace tail v else .replace tail v
  else if errorOnNoSpace flags then
    if depth < Ring.spaceFor tail head then .giveBack tail v else .replace tail v
  else .replace tail v

/-- The history after a claim: a token that is going back is not kept. -/
def Hist.claim (h : Hist α) (e : Nat × α) : Producer α → Hist α
  | .giveBack _ _ => h
  | _ => { h with taken := h.taken ++ [e] }

/-- The next access of a producer. -/
def produce (flags : RingQueueFlag) (m : Shared α) :
    Producer α → ProducerAct α → Option (Shared α × Producer α)
  | .idle, .emplace v => some (m, .claim m.ring.head_ v)
  | .claim head v, .access =>
    let tail := m.ring.tail_
    let p := afterClaim flags m.ring.depth head tail v
    some ({ m with
      ring := { m.ring with tail_ := wordAdd sizeMod tail 1 }
      hist := m.hist.claim (tail, v) p }, p)
  | .awaitSpace tail v, .access =>
    if Ring.spaceFor tail m.ring.head_ ≤ m.ring.depth then some (m, .replace tail v)
    else some (m, .awaitSpace tail v)
  | .giveBack _ v, .access =>
    some ({ m with
      ring := { m.ring with tail_ := wordSub sizeMod m.ring.tail_ 1 }
      hist := { m.hist with rejected := m.hist.rejected ++ [v] } }, .idle)
  | .replace tail v, .access =>
    some ({ m with
      ring := m.ring.replace (m.ring.emplaceIdx tail) (some v)
      hist := { m.hist with stored := m.hist.stored ++ [tail] } }, .mark tail)
  | .mark tail, .access =>
    some ({ m with
      ring := m.ring.setBits (m.ring.emplaceIdx tail) 1
      hist := { m.hist with returned := m.hist.returned ++ [tail] } }, .idle)
  | _, _ => none

/-- The next access of the consumer, which calls `pop(val)` again and again. -/
def consume (m : Shared α) : Shared α :=
  match m.consumer with
  | .idle => { m with consumer := .loadTail m.ring.head_ }
  | .loadTail head =>
    if m.ring.tail_ ≤ head then { m with consumer := .idle } else { m with consumer := .test head }
  | .test head =>
    if m.ring.any (m.ring.popIdx head) 1 then { m with consumer := .moveOut head }
    else { m with consumer := .idle }
  | .moveOut head =>
    let (val, ring) := m.ring.moveOut (m.ring.popIdx head)
    { m with ring, consumer := .clear head val }
  | .clear head val =>
    { m with ring := m.ring.clear (m.ring.popIdx head), consumer := .advance head val }
  | .advance head val =>
    { ring := { m.ring with head_ := wordAdd sizeMod m.ring.head_ 1 }
      consumer := .idle
      hist := { m.hist with popped := m.hist.popped ++ [(head, val)] } }

abbrev State (ι α : Type*) := Pool ι (Shared α) (Producer α)

inductive Label (ι α : Type*)
  | produce (i : ι) (a : ProducerAct α)
  | consume

/-- An empty queue, every thread outside it. -/
def init (ι α : Type*) (depth : Nat) : State ι α := ⟨{ ring := { depth } }, fun _ => .idle⟩

def step [DecidableEq ι] (flags : RingQueueFlag) (s : State ι α) : Label ι α → Option (State ι α)
  | .produce i a => Pool.step (produce flags) s (i, a)
  | .consume => some { s with shared := consume s.shared }

end HermesShm.Ipc.RingQueue
