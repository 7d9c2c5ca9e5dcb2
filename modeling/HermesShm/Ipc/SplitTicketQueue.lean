import HermesShm.Base.Pool
import HermesShm.Ipc.RingQueueSerial
import Mathlib.Algebra.BigOperators.Group.Finset.Basic
import Mathlib.Data.Fintype.Basic

/-! # The split ticket queue

`split_ticket_queue` spreads its tickets over several `ticket_queue`s. A call
takes a number from a round-robin counter, starts at the split the number tells
and tries one split after another. Each `ticket_queue` works under its mutex, so
one `emplace` or `pop` on it is one step; so is the `fetch_add` on a counter. -/
namespace HermesShm.Ipc.SplitTicketQueue
open HermesShm.Base HermesShm.Ipc.RingQueue

variable {ι τ : Type*}

/-- The counters are 32 bits wide, what is kept of one 16. -/
def rrMod : Nat := 2 ^ 32
def rrKept : Nat := 2 ^ 16

/-- What calls were given and returned: the tickets whose emplace returned a
token and those popped, the same for each split, and for every call that
returned null the splits that were not full, or not empty, when it did. No step
reads any of it. -/
structure Hist (τ : Type*) where
  emplaced : List τ := []
  popped : List (Option τ) := []
  inserted : Nat → List τ := fun _ => []
  removed : Nat → List (Option τ) := fun _ => []
  refusals : List (List Nat) := []
  misses : List (List Nat) := []

structure Shared (τ : Type*) where
  /-- `splits_->size()` -/
  num_splits : Nat
  /-- The ring of each `ticket_queue`. -/
  splits_ : Nat → RingQueue.Ring τ
  rr_tail_ : Nat := 0
  rr_head_ : Nat := 0
  hist : Hist τ := {}

/-- Where a thread is, named by its next access. -/
inductive Thread (τ : Type*)
  | idle
  | claimTail (tkt : τ)
  | tryEmplace (tkt : τ) (qid_start i : Nat)
  | claimHead
  | tryPop (qid_start i : Nat)
  deriving DecidableEq

inductive Act (τ : Type*)
  | emplace (tkt : τ)
  | pop
  | access

/-- The split that call number `rr` starts at. -/
def qidStart (num_splits rr : Nat) : Nat := rr % rrKept % num_splits

/-- The split a call tries after `i` others, an index of 32 bits. -/
def qid (num_splits qid_start i : Nat) : Nat :=
  wordAdd sizeMod qid_start i % num_splits % idxMod

namespace Shared

def setSplit (m : Shared τ) (q : Nat) (r : RingQueue.Ring τ) : Shared τ :=
  { m with splits_ := Function.update m.splits_ q r }

/-- The splits that are not full. -/
def roomy (m : Shared τ) : List Nat :=
  (List.range m.num_splits).filter fun q => (m.splits_ q).size < (m.splits_ q).depth

/-- The splits that are not empty. -/
def loaded (m : Shared τ) : List Nat :=
  (List.range m.num_splits).filter fun q => 0 < (m.splits_ q).size

end Shared

namespace Hist

def insert (h : Hist τ) (q : Nat) (tkt : τ) : Hist τ :=
  { h with
    emplaced := h.emplaced ++ [tkt]
    inserted := Function.update h.inserted q (h.inserted q ++ [tkt]) }

def remove (h : Hist τ) (q : Nat) (val : Option τ) : Hist τ :=
  { h with
    popped := h.popped ++ [val]
    removed := Function.update h.removed q (h.removed q ++ [val]) }

end Hist

/-- The next access of a thread. -/
def advance (m : Shared τ) : Thread τ → Act τ → Option (Shared τ × Thread τ)
  | .idle, .emplace tkt => some (m, .claimTail tkt)
  | .claimTail tkt, .access =>
    some ({ m with rr_tail_ := wordAdd rrMod m.rr_tail_ 1 },
      .tryEmplace tkt (qidStart m.num_splits m.rr_tail_) 0)
  | .tryEmplace tkt qid_start i, .access =>
    let q := qid m.num_splits qid_start i
    let (qtok, r) := (m.splits_ q).emplaceSerial fixedSpscFlags tkt
    let m := m.setSplit q r
    match qtok with
    | some _ => some ({ m with hist := m.hist.insert q tkt }, .idle)
    | none =>
      if i + 1 < m.num_splits then some (m, .tryEmplace tkt qid_start (i + 1))
      else some ({ m with hist := { m.hist with refusals := m.hist.refusals ++ [m.roomy] } }, .idle)
  | .idle, .pop => some (m, .claimHead)
  | .claimHead, .access =>
    some ({ m with rr_head_ := wordAdd rrMod m.rr_head_ 1 },
      .tryPop (qidStart m.num_splits m.rr_head_) 0)
  | .tryPop qid_start i, .access =>
    let q := qid m.num_splits qid_start i
    let (qtok, r) := (m.splits_ q).pop
    let m := m.setSplit q r
    match qtok with
    | some (_, val) => some ({ m with hist := m.hist.remove q val }, .idle)
    | none =>
      if i + 1 < m.num_splits then some (m, .tryPop qid_start (i + 1))
      else some ({ m with hist := { m.hist with misses := m.hist.misses ++ [m.loaded] } }, .idle)
  | _, _ => none

abbrev State (ι τ : Type*) := Pool ι (Shared τ) (Thread τ)

def init (ι τ : Type*) (num_splits depth : Nat) : State ι τ :=
  ⟨{ num_splits, splits_ := fun _ => { depth } }, fun _ => .idle⟩

def step [DecidableEq ι] (s : State ι τ) (l : ι × Act τ) : Option (State ι τ) :=
  Pool.step advance s l

/-! ## What the queue promises -/

/-- The tickets in a ring, oldest first. -/
def tickets (r : RingQueue.Ring τ) : List (Option τ) :=
  (List.range r.size).map fun i => (r.queue_ ((r.head_ + i) % r.depth)).second

structure Conserves (m : Shared τ) : Prop where
  /-- Popped and stored together are the tickets whose emplace returned a token. -/
  tickets : (m.hist.popped : Multiset (Option τ)) +
    ∑ q ∈ Finset.range m.num_splits, (tickets (m.splits_ q) : Multiset (Option τ)) =
      (m.hist.emplaced.map some : List _)
  /-- A split hands out its tickets in the order it took them. -/
  order : ∀ q, m.hist.removed q = ((m.hist.inserted q).take (m.hist.removed q).length).map some

/-- Null is returned only by a full queue, or by an empty one. -/
structure Verdicts (m : Shared τ) : Prop where
  refusals : ∀ qs ∈ m.hist.refusals, qs = []
  misses : ∀ qs ∈ m.hist.misses, qs = []

/-- The condition on a step: a split that a ticket goes to has a token counter
that does not wrap and a slot index that fits its 32 bits. -/
def Guarded (s : State ι τ) (l : ι × Act τ) : Prop :=
  match s.pc l.1 with
  | .tryEmplace _ qid_start i => (s.shared.splits_ (qid s.shared.num_splits qid_start i)).Fits
  | _ => True

instance (s : State ι τ) (l : ι × Act τ) : Decidable (Guarded s l) := by
  unfold Guarded
  split <;> infer_instance

/-- No call overlaps this one. -/
def Alone (s : State ι τ) (l : ι × Act τ) : Prop := ∀ j, j ≠ l.1 → s.pc j = .idle

instance [Fintype ι] [DecidableEq ι] [DecidableEq τ] (s : State ι τ) (l : ι × Act τ) :
    Decidable (Alone s l) :=
  inferInstanceAs (Decidable (∀ j, j ≠ l.1 → s.pc j = .idle))

end HermesShm.Ipc.SplitTicketQueue
