import HermesShm.Ipc.RingQueue
import HermesShm.Ipc.VectorLifetimeSound

/-! # `ring_queue_base` and what it owns

A ring queue keeps its entries in a vector of pairs. The calls come one after the
other. -/
namespace HermesShm.Ipc.RingLifetime
open HermesShm.Base HermesShm.Ipc.Lifetime HermesShm.Ipc.VectorLifetime

/-! ## `pair<bitfield64_t, T>` -/

structure Pair (ε : Type) where
  alloc : Nat
  /-- `GetFirst().Any(1)`. -/
  first_ : Bool
  second_ : ε

inductive PairArgs (ε α : Type)
  | none
  /-- `PiecewiseConstruct(), make_argpack(), make_argpack(args...)`. -/
  | piecewise (x : Args ε α)

section
variable {ε α : Type} (T : ElemType ε α) (raw : Nat → Nat → Pair ε)

namespace Pair

def construct (l : Heap) (a : Nat) : PairArgs ε α → Pair ε × Heap
  | .none =>
    let r := T.construct l a T.noArgs
    (⟨a, false, r.1⟩, r.2)
  | .piecewise x =>
    let r := T.make l a x
    (⟨a, false, r.1⟩, r.2)

def copyCtor (l : Heap) (a : Nat) (at_ : Option Block) (other : Pair ε) : Pair ε × Heap :=
  let r := T.copy l a at_ other.second_
  (⟨a, other.first_, r.1⟩, r.2)

/-- A pair is never null. -/
def shmDestroy (l : Heap) (p : Pair ε) : Pair ε × Heap :=
  let r := T.destroy l p.second_
  ({ p with second_ := r.1 }, r.2)

def moveCtor (l : Heap) (a : Nat) (raw other : Pair ε) : Pair ε × Pair ε × Heap :=
  if a = other.alloc then
    let r := T.move l a raw.second_ other.second_
    (⟨a, other.first_, r.1⟩, { other with second_ := r.2.1 }, r.2.2)
  else
    -- not reached in an array, whose elements have its allocator
    let r := copyCtor T l a none other
    let d := shmDestroy T r.2 other
    (r.1, d.1, d.2)

def elemType : ElemType (Pair ε) (PairArgs ε α) where
  pod := false
  raw
  noArgs := .none
  construct := construct T
  copy := copyCtor T
  move := moveCtor T
  destroy := shmDestroy T

end Pair

end

section
variable {ε α : Type} {T : ElemType ε α} (O : Ownership T) (raw : Nat → Nat → Pair ε)

/-- A pair owns what its second component does. -/
def Pair.ownership : Ownership (Pair.elemType T raw) where
  owns p := O.owns p.second_
  Ok a p := p.alloc = a ∧ O.Ok a p.second_
  ArgsOk
    | .none => True
    | .piecewise x => O.MakeOk x
  noArgs_ok := trivial
  pod_owns h := by cases h
  pod_ok h := by cases h
  construct_holds l a x F hx h := by
    cases x with
    | none =>
      obtain ⟨hl, hok⟩ := O.construct_holds l a _ F O.noArgs_ok h
      exact ⟨hl, rfl, hok⟩
    | piecewise x =>
      obtain ⟨hl, hok⟩ := O.make_holds l a x F hx h
      exact ⟨hl, rfl, hok⟩
  copy_holds l a at_ a' other F hok h :=
    have hc := O.copy_holds l a at_ a' other.second_ F hok.2 h
    ⟨hc.1, rfl, hc.2⟩
  move_holds l a raw other F hok h := by
    simp only [Pair.elemType, Pair.moveCtor, hok.1, if_true]
    obtain ⟨hm, hmok⟩ := O.move_holds l a raw.second_ other.second_ F hok.2 h
    exact ⟨hm, trivial, hmok⟩
  destroy_holds l a p F hok h := O.destroy_holds l a p.second_ F hok.2 h

end

/-! ## The queue -/

/-- What a push does where there is no space. -/
inductive Space
  | waitForSpace
  | errorOnNoSpace
  | dynamicSize
  | circular
  deriving DecidableEq

/-- The template arguments, and what else the members rely on. -/
structure RingClass (ε α : Type) where
  T : ElemType ε α
  /-- The bytes of an array of entries. -/
  raw : Nat → Nat → Pair ε
  /-- `T::operator=(T &&other)`: the target and what is left of the other. -/
  moveAssign : Heap → ε → ε → ε × ε × Heap
  /-- `HSHM_DEFAULT_ALLOC`. -/
  default_alloc : Nat
  space : Space

structure RingBase (ε : Type) where
  alloc : Nat
  queue_ : Vec (Pair ε)
  tail_ : Nat
  head_ : Nat

section
variable {ε α : Type} (P : Placement) (C : RingClass ε α)

def RingClass.pair : ElemType (Pair ε) (PairArgs ε α) := Pair.elemType C.T C.raw

namespace RingBase

def isNull (q : RingBase ε) : Bool := q.queue_.isNull

/-- The vector stays. -/
def setNull (q : RingBase ε) : RingBase ε := { q with head_ := 0, tail_ := 0 }

def shmInit (l : Heap) (raw : RingBase ε) (a depth : Nat) : RingBase ε × Heap :=
  let r := Vec.initLength P C.pair l raw.queue_ a depth .none
  (({ raw with alloc := a, queue_ := r.1 } : RingBase ε).setNull, r.2)

def strongCopyOp (l : Heap) (q other : RingBase ε) : RingBase ε × Heap :=
  let r := Vec.copyAssign P C.pair l q.queue_ other.queue_
  ({ q with head_ := other.head_, tail_ := other.tail_, queue_ := r.1 }, r.2)

/-- The vector is not constructed before it is assigned to. -/
def copyCtor (l : Heap) (raw : RingBase ε) (a : Nat) (other : RingBase ε) : RingBase ε × Heap :=
  strongCopyOp P C l ({ raw with alloc := a } : RingBase ε).setNull other

def shmDestroy (l : Heap) (q : RingBase ε) : RingBase ε × Heap :=
  if q.isNull then (q, l)
  else
    let r := Vec.shmDestroy C.pair l q.queue_
    (({ q with queue_ := r.1 } : RingBase ε).setNull, r.2)

def copyAssign (l : Heap) (q other : RingBase ε) : RingBase ε × Heap :=
  let r := shmDestroy C l q
  strongCopyOp P C r.2 r.1 other

/-- `shm_move_op`, for a constructor after `init_shm_container`. -/
def moveOp (l : Heap) (q other : RingBase ε) : RingBase ε × RingBase ε × Heap :=
  if q.alloc = other.alloc then
    let r := Vec.moveOp P C.pair l q.queue_ other.queue_
    ({ q with head_ := other.head_, tail_ := other.tail_, queue_ := r.1 },
      ({ other with queue_ := r.2.1 } : RingBase ε).setNull, r.2.2)
  else
    let r := strongCopyOp P C l q other
    let d := shmDestroy C r.2 other
    (r.1, d.1, d.2)

def moveCtor (l : Heap) (raw : RingBase ε) (a : Nat) (other : RingBase ε) :
    RingBase ε × RingBase ε × Heap :=
  moveOp P C l { raw with alloc := a } other

/-! ## Push and pop -/

/-- The entry at `idx`, with another mark. -/
def setFirst (q : RingBase ε) (idx : Nat) (b : Bool) : RingBase ε :=
  { q with queue_ := { q.queue_ with
      slots := Function.update q.queue_.slots idx { q.queue_.slots idx with first_ := b } } }

/-- The slot of a ticket, in a `uint32_t`. -/
def emplaceIdx (q : RingBase ε) (tail : Nat) : Nat :=
  tail % q.queue_.length_ % RingQueue.idxMod

/-- The end of `emplace`, in the slot of the ticket. There is no remainder by the depth 0. -/
def store (l : Heap) (q : RingBase ε) (tail : Nat) (x : Args ε α) : Option (RingBase ε × Heap) :=
  if q.queue_.length_ = 0 then none
  else
    let idx := q.emplaceIdx tail
    let r := Vec.replace C.pair l q.queue_ idx (.args (.piecewise x))
    some (({ q with queue_ := r.1 } : RingBase ε).setFirst idx true, r.2)

/-- `pop()`: whether there was an entry, and the queue. -/
def pop (q : RingBase ε) : Option (Bool × RingBase ε) :=
  if q.head_ ≥ q.tail_ then some (false, q)
  else if q.queue_.length_ = 0 then none
  else
    let idx := q.head_ % q.queue_.length_
    if (q.queue_.slots idx).first_ then
      some (true, { q.setFirst idx false with head_ := q.head_ + 1 })
    else some (false, q)

/-- `pop(val)`: whether there was an entry, the queue and `val`. -/
def popInto (l : Heap) (q : RingBase ε) (val : ε) : Option (Bool × RingBase ε × ε × Heap) :=
  if q.head_ ≥ q.tail_ then some (false, q, val, l)
  else if q.queue_.length_ = 0 then none
  else
    let idx := q.head_ % q.queue_.length_
    let entry := q.queue_.slots idx
    if entry.first_ then
      let r := C.moveAssign l val entry.second_
      let slots :=
        Function.update q.queue_.slots idx { entry with first_ := false, second_ := r.2.1 }
      some (true, { q with queue_ := { q.queue_ with slots }, head_ := q.head_ + 1 }, r.1, r.2.2)
    else some (false, q, val, l)

/-- The loop of `resize`; it pops what there is at most. -/
def drain (push : Heap → RingBase ε → ε → Option (RingBase ε × Heap)) (l : Heap)
    (q new_queue : RingBase ε) (val : ε) : Nat → Option (RingBase ε × RingBase ε × ε × Heap)
  | 0 => some (q, new_queue, val, l)
  | n + 1 =>
    (popInto C l q val).bind fun r =>
      if r.1 then
        (push r.2.2.2 new_queue r.2.2.1).bind fun s => drain push s.2 r.2.1 s.1 r.2.2.1 n
      else some (q, new_queue, val, l)

/-- `resize`, given `push`. The local objects are destroyed at its end. -/
def resizeWith (push : Heap → RingBase ε → ε → Option (RingBase ε × Heap)) (l : Heap)
    (q : RingBase ε) (new_depth : Nat) : Option (RingBase ε × Heap) :=
  let new_queue := shmInit P C l q q.alloc new_depth
  let val := C.T.construct new_queue.2 C.default_alloc C.T.noArgs
  (drain C push val.2 q new_queue.1 val.1 (q.tail_ - q.head_)).map fun d =>
    let m := moveOp P C d.2.2.2 d.1 d.2.1
    let v := C.T.destroy m.2.2 d.2.2.1
    let n := shmDestroy C v.2 m.2.1
    (m.1, n.2)

/-- `emplace`, given `resize`. A push that waits for space waits for another thread. -/
def emplaceWith (resize : Heap → RingBase ε → Nat → Option (RingBase ε × Heap)) (l : Heap)
    (q : RingBase ε) (x : Args ε α) : Option (RingBase ε × Heap) :=
  let head := q.head_
  let tail := q.tail_
  let full := tail - head + 1 > q.queue_.length_
  let next : RingBase ε := { q with tail_ := tail + 1 }
  match C.space with
  | .waitForSpace => if full then none else store C l next tail x
  | .errorOnNoSpace => if full then some (q, l) else store C l next tail x
  | .dynamicSize =>
    if full then (resize l next (q.queue_.length_ * 2)).bind fun r => store C r.2 r.1 tail x
    else store C l next tail x
  | .circular => store C l next tail x

/-- `emplace`, with at most so many calls of `resize` in one another. -/
def emplace : Nat → Heap → RingBase ε → Args ε α → Option (RingBase ε × Heap)
  | 0 => emplaceWith C fun _ _ _ => none
  | n + 1 => emplaceWith C (resizeWith P C fun l q val => emplace n l q (.copyOf none val))

def resize (n : Nat) (l : Heap) (q : RingBase ε) (new_depth : Nat) : Option (RingBase ε × Heap) :=
  resizeWith P C (fun l q val => emplace P C n l q (.copyOf none val)) l q new_depth

end RingBase

end

end HermesShm.Ipc.RingLifetime
