import HermesShm.Ipc.RingQueue
import Mathlib.Data.Fintype.Basic

/-! # The key set of many threads

`mpmc_key_set`: threads take keys with `emplace` and give them back with `erase`.
Each access to a counter or a slot of the key ring and each read or write of
`heap_` is a step of its own. A key is a plain number: moving it out of a slot
leaves it there. -/
namespace HermesShm.Ipc.MpmcKeySet
open HermesShm.Base HermesShm.Ipc.RingQueue

variable {ι τ : Type*}

/-- Where a thread is, named by its next access: in the ring's `pop`, at `heap_`
and in the write of its entry while it runs `emplace`, or in the ring's `emplace`
while it runs `erase`. -/
inductive Pc (τ : Type*)
  | idle
  | popping (c : Consumer Nat) (v : τ)
  | checkHeap (v : τ)
  | readHeap (v : τ)
  | writeHeap (key : Nat) (v : τ)
  | store (key : Nat) (v : τ)
  | erasing (p : Producer Nat)

inductive Act (τ : Type*)
  | emplace (v : τ)
  | erase (key : Nat)
  | access

/-- A thread and the keys it holds. -/
structure Thread (τ : Type*) where
  pc : Pc τ := .idle
  held : List Nat := []

/-- `hist` and `erased`, the keys given to `erase`, are read by no step. -/
structure Shared (τ : Type*) where
  /-- `keys_` -/
  ring : RingQueue.Ring Nat
  set_ : Nat → Option τ := fun _ => none
  heap_ : Nat := 0
  max_size_ : Nat
  hist : RingQueue.Hist Nat := {}
  erased : List Nat := []

/-- The key ring as its producers see it. -/
def Shared.queue (m : Shared τ) : RingQueue.Shared Nat := { ring := m.ring, hist := m.hist }

/-- How the ring's `pop(key)` goes on: at its next access, or with what it returns. -/
inductive Popped
  | next (c : Consumer Nat)
  | null
  | key (key : Option Nat)

/-- The next access of a thread in the ring's `pop(key)`. -/
def popAccess (m : Shared τ) : Consumer Nat → Shared τ × Popped
  | .idle => (m, .next (.loadTail m.ring.head_))
  | .loadTail head => (m, if m.ring.tail_ ≤ head then .null else .next (.test head))
  | .test head =>
    (m, if m.ring.any (m.ring.popIdx head) 1 then .next (.moveOut head) else .null)
  | .moveOut head => (m, .next (.clear head (m.ring.queue_ (m.ring.popIdx head)).second))
  | .clear head key =>
    ({ m with ring := m.ring.clear (m.ring.popIdx head) }, .next (.advance head key))
  | .advance head key =>
    ({ m with
      ring := { m.ring with head_ := wordAdd sizeMod m.ring.head_ 1 }
      hist := { m.hist with popped := m.hist.popped ++ [(head, key)] } }, .key key)

/-- The next access of a thread. Where no key is left, `emplace` throws. -/
def advance (m : Shared τ) (t : Thread τ) : Act τ → Option (Shared τ × Thread τ)
  | .emplace v =>
    match t.pc with
    | .idle => some (m, { t with pc := .popping .idle v })
    | _ => none
  | .erase key =>
    match t.pc with
    | .idle =>
      if key ∈ t.held then
        some ({ m with erased := m.erased ++ [key] },
          { pc := .erasing (.claim m.ring.head_ key), held := t.held.erase key })
      else none
    | _ => none
  | .access =>
    match t.pc with
    | .idle => none
    | .popping c v =>
      let (m, r) := popAccess m c
      match r with
      | .next c => some (m, { t with pc := .popping c v })
      | .null => some (m, { t with pc := .checkHeap v })
      | .key key => key.map fun key => (m, ⟨.store key v, t.held ++ [key]⟩)
    | .checkHeap v =>
      some (m, { t with pc := if m.heap_ < m.max_size_ then .readHeap v else .idle })
    | .readHeap v => some (m, { t with pc := .writeHeap m.heap_ v })
    | .writeHeap key v =>
      some ({ m with heap_ := wordAdd sizeMod key 1 }, ⟨.store key v, t.held ++ [key]⟩)
    | .store key v =>
      some ({ m with set_ := Function.update m.set_ key (some v) }, { t with pc := .idle })
    | .erasing p =>
      (produce fixedMpmcFlags m.queue p .access).map fun (q, p) =>
        ({ m with ring := q.ring, hist := q.hist },
          { t with pc := match p with
            | .idle => .idle
            | p => .erasing p })

abbrev State (ι τ : Type*) := Pool ι (Shared τ) (Thread τ)

/-- After `Init(max_size)`. -/
def init (ι τ : Type*) (max_size : Nat) : State ι τ :=
  ⟨{ ring := { depth := max_size }, max_size_ := max_size }, fun _ => {}⟩

def step [DecidableEq ι] (s : State ι τ) (l : ι × Act τ) : Option (State ι τ) :=
  Pool.step advance s l

/-! ## What the set promises -/

/-- The thread that erases key `k` has it, or a thread that pops it. -/
def Pc.Carries (k : Nat) : Pc τ → Prop
  | .erasing (.claim _ v) | .erasing (.awaitSpace _ v) | .erasing (.replace _ v) => v = k
  | .popping (.clear _ key) _ | .popping (.advance _ key) _ => key = some k
  | _ => False

/-- Key `k` is in the ring, in the slot of a token that is still to be popped. -/
def Shared.InRing (m : Shared τ) (k : Nat) : Prop :=
  ∃ token, m.ring.head_ ≤ token ∧ (token, k) ∈ m.hist.taken ∧
    (m.ring.queue_ (token % m.ring.depth)).second = some k

structure Sound (s : State ι τ) : Prop where
  distinct : ∀ i j k, k ∈ (s.pc i).held → k ∈ (s.pc j).held → i = j
  nodup : ∀ i, (s.pc i).held.Nodup
  below : ∀ i, ∀ k ∈ (s.pc i).held, k < s.shared.max_size_
  /-- An erased key is in use again, on its way, or in the ring. -/
  kept : ∀ k ∈ s.shared.erased,
    (∃ i, k ∈ (s.pc i).held) ∨ (∃ i, (s.pc i).pc.Carries k) ∨ s.shared.InRing k

/-- The thread has found a slot of the ring ready and is taking its key. -/
def Pc.takes : Pc τ → Option (Consumer Nat)
  | .popping (.moveOut head) _ => some (.moveOut head)
  | .popping (.clear head key) _ => some (.clear head key)
  | .popping (.advance head key) _ => some (.advance head key)
  | _ => none

def Pc.writesHeap : Pc τ → Bool
  | .writeHeap _ _ => true
  | _ => false

/-- The condition on a step of thread `i`. -/
def Guarded (s : State ι τ) (l : ι × Act τ) : Prop :=
  match (s.pc l.1).pc with
  | .popping (.test head) _ =>
    s.shared.ring.any (s.shared.ring.popIdx head) 1 = true →
      head = s.shared.ring.head_ ∧ ∀ j, (s.pc j).pc.takes.isNone
  | .readHeap _ =>
    s.shared.heap_ < s.shared.max_size_ ∧ ∀ j, (s.pc j).pc.writesHeap = false
  | .erasing (.claim head _) =>
    Ring.spaceFor s.shared.ring.tail_ head ≤ s.shared.ring.depth ∧
      s.shared.ring.tail_ + 1 < sizeMod ∧ s.shared.ring.tail_ % s.shared.ring.depth < idxMod
  | _ => True

instance [Fintype ι] (s : State ι τ) (l : ι × Act τ) : Decidable (Guarded s l) := by
  unfold Guarded
  split <;> infer_instance

end HermesShm.Ipc.MpmcKeySet
