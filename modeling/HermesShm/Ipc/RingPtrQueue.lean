import HermesShm.Ipc.RingQueue

/-! # The ring queue of pointers

`ring_ptr_queue_base` keeps no ready flag beside a value: an entry is ready when
its own top bit is set. Producers run `emplace` with `kWaitForSpace`, one
consumer runs both forms of `pop`; every load and update of a counter and every
access to a word of an entry is a step of its own. -/
namespace HermesShm.Ipc.RingPtrQueue
open HermesShm.Base
open HermesShm.Ipc.RingQueue (sizeMod idxMod Ring.spaceFor)

variable {ι β : Type*} {w : Nat}

/-! ## Entries -/

/-- An element type: `off_` is the word of `w` bits that carries the mark, and
`alloc_id_` what else a `Pointer` has (nothing for a number, a raw pointer or an
`OffsetPointer`). -/
structure Entry (β : Type*) (w : Nat) where
  alloc_id_ : β
  off_ : BitVec w
  deriving DecidableEq

def markMask (w : Nat) : BitVec w := 1#w <<< (w - 1)

namespace Entry

def mark (e : Entry β w) : Entry β w := { e with off_ := e.off_ ||| markMask w }

def isMarked (e : Entry β w) : Bool := e.off_ &&& markMask w != 0#w

def unmark (e : Entry β w) : Entry β w := { e with off_ := e.off_ &&& ~~~markMask w }

def setZero (e : Entry β w) : Entry β w := { e with off_ := 0#w }

/-- What a push and a pop make of a value. -/
theorem mark_unmark (e : Entry β w) : e.mark.unmark = e.unmark := by
  have hm : (e.off_ ||| markMask w) &&& ~~~markMask w = e.off_ &&& ~~~markMask w := by
    ext i hi
    simp only [BitVec.getElem_and, BitVec.getElem_or, BitVec.getElem_not]
    cases e.off_[i] <;> cases (markMask w)[i] <;> rfl
  rw [unmark, mark, hm, unmark]

theorem unmark_eq_self {e : Entry β w} : e.unmark = e ↔ e.isMarked = false := by
  have hbits : e.off_ &&& ~~~markMask w = e.off_ ↔ e.off_ &&& markMask w = 0#w := by
    constructor
    · intro h
      rw [← h, BitVec.and_assoc]
      ext i hi
      simp
    · intro h
      ext i hi
      have hb := congrArg (·[i]) h
      simp only [BitVec.getElem_and, BitVec.getElem_zero] at hb
      simp only [BitVec.getElem_and, BitVec.getElem_not]
      revert hb
      cases e.off_[i] <;> cases (markMask w)[i] <;> simp
  obtain ⟨id, off⟩ := e
  simp only [unmark, isMarked, Entry.mk.injEq, true_and, bne_eq_false_iff_eq]
  exact hbits

theorem isMarked_mark (hw : 0 < w) (e : Entry β w) : e.mark.isMarked = true := by
  have hmask : markMask w ≠ 0#w := by
    intro h
    have hbit := congrArg (·.getLsbD (w - 1)) h
    simp [markMask] at hbit
    omega
  have hand : (e.off_ ||| markMask w) &&& markMask w = markMask w := by
    ext i hi
    simp only [BitVec.getElem_and, BitVec.getElem_or]
    cases e.off_[i] <;> cases (markMask w)[i] <;> rfl
  rw [isMarked, mark, hand]
  exact bne_iff_ne.mpr hmask

end Entry

/-- What may be pushed: an element whose top bit is clear. -/
abbrev Value (β : Type*) (w : Nat) := { e : Entry β w // e.isMarked = false }

/-! ## Producers and the consumer -/

/-- Where a producer is in `emplace`, named by its next access. -/
inductive Producer (β : Type*) (w : Nat)
  | idle
  | claim (head : Nat) (v : Value β w)
  | awaitSpace (tail : Nat) (v : Value β w)
  | storeId (tail : Nat) (v : Value β w)
  | storeOff (tail : Nat) (v : Value β w)
  deriving DecidableEq

inductive ProducerAct (β : Type*) (w : Nat)
  | emplace (v : Value β w)
  | access

/-- `pop(val)` and `pop()` -/
inductive Pop
  | value
  | discard
  deriving DecidableEq

/-- Where the consumer is in a `pop`. What `advance` carries for `pop()` is the
entry it found marked, which no step reads. -/
inductive Consumer (β : Type*) (w : Nat)
  | idle
  | loadTail (kind : Pop) (head : Nat)
  | test (kind : Pop) (head : Nat)
  | loadId (head : Nat)
  | loadOff (head : Nat) (alloc_id_ : β)
  | setZero (head : Nat) (val : Entry β w)
  | advance (kind : Pop) (head : Nat) (val : Entry β w)

/-- What calls were given and returned so far: the values of the tokens taken,
the tokens whose value is in its slot, and every successful pop with the value
it consumed. No step reads any of it. -/
structure Hist (β : Type*) (w : Nat) where
  taken : List (Nat × Value β w) := []
  stored : List Nat := []
  popped : List (Pop × Nat × Entry β w) := []

structure Shared (β : Type*) (w : Nat) where
  /-- `queue_->size()` -/
  depth : Nat
  queue_ : Nat → Entry β w
  tail_ : Nat := 0
  head_ : Nat := 0
  consumer : Consumer β w := .idle
  hist : Hist β w := {}

namespace Shared

/-- The slot of a token in `emplace`, an index of 32 bits. -/
def emplaceIdx (m : Shared β w) (tail : Nat) : Nat := tail % m.depth % idxMod

/-- The slot of a token in `pop`. -/
def popIdx (m : Shared β w) (head : Nat) : Nat := head % m.depth

def write (m : Shared β w) (idx : Nat) (e : Entry β w) : Shared β w :=
  { m with queue_ := Function.update m.queue_ idx e }

end Shared

/-- The next access of a producer. -/
def produce (m : Shared β w) :
    Producer β w → ProducerAct β w → Option (Shared β w × Producer β w)
  | .idle, .emplace v => some (m, .claim m.head_ v)
  | .claim head v, .access =>
    let tail := m.tail_
    some ({ m with
      tail_ := wordAdd sizeMod tail 1
      hist := { m.hist with taken := m.hist.taken ++ [(tail, v)] } },
      if m.depth < Ring.spaceFor tail head then .awaitSpace tail v else .storeId tail v)
  | .awaitSpace tail v, .access =>
    some (m, if Ring.spaceFor tail m.head_ ≤ m.depth then .storeId tail v else .awaitSpace tail v)
  | .storeId tail v, .access =>
    let idx := m.emplaceIdx tail
    some (m.write idx { m.queue_ idx with alloc_id_ := v.1.mark.alloc_id_ }, .storeOff tail v)
  | .storeOff tail v, .access =>
    let idx := m.emplaceIdx tail
    some ({ m.write idx { m.queue_ idx with off_ := v.1.mark.off_ } with
      hist := { m.hist with stored := m.hist.stored ++ [tail] } }, .idle)
  | _, _ => none

/-- The consumer calls `pop(val)` or `pop()`. -/
def callPop (m : Shared β w) (kind : Pop) : Option (Shared β w) :=
  match m.consumer with
  | .idle => some { m with consumer := .loadTail kind m.head_ }
  | _ => none

/-- The next access of the consumer. -/
def consume (m : Shared β w) : Option (Shared β w) :=
  match m.consumer with
  | .idle => none
  | .loadTail kind head =>
    some { m with consumer := if m.tail_ ≤ head then .idle else .test kind head }
  | .test kind head =>
    let entry := m.queue_ (m.popIdx head)
    some { m with consumer :=
      if entry.isMarked then
        match kind with
        | .value => .loadId head
        | .discard => .advance .discard head entry.unmark
      else .idle }
  | .loadId head => some { m with consumer := .loadOff head (m.queue_ (m.popIdx head)).alloc_id_ }
  | .loadOff head alloc_id_ =>
    let val := { (m.queue_ (m.popIdx head)).unmark with alloc_id_ }
    some { m with consumer := .setZero head val }
  | .setZero head val =>
    let idx := m.popIdx head
    some { m.write idx (m.queue_ idx).setZero with consumer := .advance .value head val }
  | .advance kind head val =>
    some { m with
      head_ := wordAdd sizeMod m.head_ 1
      consumer := .idle
      hist := { m.hist with popped := m.hist.popped ++ [(kind, head, val)] } }

abbrev State (ι β : Type*) (w : Nat) := Pool ι (Shared β w) (Producer β w)

inductive Label (ι β : Type*) (w : Nat)
  | produce (i : ι) (a : ProducerAct β w)
  | pop (kind : Pop)
  | consume

/-- An empty queue: every entry is value initialized, so its word is zero. -/
def init (ι : Type*) (w depth : Nat) (b : β) : State ι β w :=
  ⟨{ depth, queue_ := fun _ => ⟨b, 0#w⟩ }, fun _ => .idle⟩

def step [DecidableEq ι] (s : State ι β w) : Label ι β w → Option (State ι β w)
  | .produce i a => Pool.step produce s (i, a)
  | .pop kind => (callPop s.shared kind).map fun shared => { s with shared }
  | .consume => (consume s.shared).map fun shared => { s with shared }

end HermesShm.Ipc.RingPtrQueue
