import HermesShm.Base.Transition
import HermesShm.Ipc.NodeHeap

/-! # The doubly linked list

`hipc::list` over a heap of entries. A pointer that is followed must point to an
entry: where the code follows a null pointer or a freed entry, the model has no
result. -/
namespace HermesShm.Ipc
open HermesShm.Base

structure ListEntry (α : Type) where
  next_ptr_ : Option Ptr
  prior_ptr_ : Option Ptr
  data_ : α

structure HipcList (α : Type) where
  heap : NodeHeap (ListEntry α) := fun _ => none
  head_ptr_ : Option Ptr := none
  tail_ptr_ : Option Ptr := none
  length_ : Nat := 0

namespace HipcList

variable {α : Type}

/-- `next_ptr_` and `prior_ptr_` of the entry at a pointer. -/
def nextPtr (l : HipcList α) : Ptr → Option (Option Ptr) := l.heap.link (·.next_ptr_)
def priorPtr (l : HipcList α) : Ptr → Option (Option Ptr) := l.heap.link (·.prior_ptr_)

def put (l : HipcList α) (p : Ptr) (e : Option (ListEntry α)) : HipcList α :=
  { l with heap := l.heap.put p e }

def setNext (l : HipcList α) (p : Ptr) (n : Option Ptr) : Option (HipcList α) :=
  (l.heap p).map fun e => l.put p (some { e with next_ptr_ := n })

def setPrior (l : HipcList α) (p : Ptr) (n : Option Ptr) : Option (HipcList α) :=
  (l.heap p).map fun e => l.put p (some { e with prior_ptr_ := n })

/-! ## Iterators, by their entry pointer -/

def end_ : Option Ptr := none

def begin_ (l : HipcList α) : Option Ptr := if l.length_ = 0 then end_ else l.head_ptr_

/-- `begin() + i` -/
def at_ (l : HipcList α) (i : Nat) : Option (Option Ptr) := follow l.nextPtr i l.begin_

def isBegin (l : HipcList α) : Option Ptr → Option Bool
  | none => some false
  | some p => (l.heap p).map (·.prior_ptr_.isNone)

/-! ## Operations -/

/-- `p` is the entry that the allocator returns. -/
def emplace (l : HipcList α) (pos : Option Ptr) (p : Ptr) (v : α) : Option (HipcList α) :=
  if l.length_ = 0 then
    some { l.put p (some ⟨none, none, v⟩) with
      head_ptr_ := some p, tail_ptr_ := some p, length_ := l.length_ + 1 }
  else do
    if ← l.isBegin pos then
      let l' := l.put p (some ⟨l.head_ptr_, none, v⟩)
      -- the code's `head` is the entry at `tail_ptr_`
      let head ← l.tail_ptr_
      let l' ← l'.setPrior head (some p)
      some { l' with head_ptr_ := some p, length_ := l.length_ + 1 }
    else
      match pos with
      | none =>
        let l' := l.put p (some ⟨none, l.tail_ptr_, v⟩)
        let tail ← l.tail_ptr_
        let l' ← l'.setNext tail (some p)
        some { l' with tail_ptr_ := some p, length_ := l.length_ + 1 }
      | some q =>
        let e ← l.heap q
        let next ← e.next_ptr_
        let prior ← e.prior_ptr_
        let l' := l.put p (some ⟨e.next_ptr_, e.prior_ptr_, v⟩)
        let l' ← l'.setPrior next (some p)
        let l' ← l'.setNext prior (some p)
        some { l' with length_ := l.length_ + 1 }

def eraseRange (l : HipcList α) : Option Ptr → Option Ptr → Option (HipcList α)
  | none, _ => some l
  | some p, last => do
    let e ← l.heap p
    let (heap, length_) ← l.heap.freeRange (·.next_ptr_) last l.length_ l.length_ (some p)
    let l' := { l with heap, length_ }
    let l' ← match e.prior_ptr_ with
      | none => some { l' with head_ptr_ := last }
      | some q => l'.setNext q last
    match last with
    | none => some { l' with tail_ptr_ := e.prior_ptr_ }
    | some q => l'.setPrior q e.prior_ptr_

/-- `find(begin(), end(), v)` -/
def findLoop [DecidableEq α] (l : HipcList α) (v : α) : Nat → Option Ptr → Option (Option Ptr)
  | _, none => some none
  | 0, some _ => none
  | fuel + 1, some p => do
    let e ← l.heap p
    if e.data_ = v then some (some p) else findLoop l v fuel e.next_ptr_

/-- `erase(v)`: find the first entry equal to `v` and erase it. -/
def eraseValue [DecidableEq α] (l : HipcList α) (v : α) : Option (HipcList α) := do
  let pos ← l.findLoop v l.length_ l.begin_
  let next ← follow l.nextPtr 1 pos
  l.eraseRange pos next

def clear (l : HipcList α) : Option (HipcList α) := l.eraseRange l.begin_ end_

/-! ## Runs -/

/-- The operations; iterators are counted from `begin()`, and `p` is the new entry. -/
inductive Op (α : Type)
  | emplace (i : Nat) (p : Ptr) (v : α)
  | emplaceFront (p : Ptr) (v : α)
  | emplaceBack (p : Ptr) (v : α)
  | erase (i j : Nat)
  | eraseValue (v : α)
  | clear

def step [DecidableEq α] (l : HipcList α) : Op α → Option (HipcList α)
  | .emplace i p v => do l.emplace (← l.at_ i) p v
  | .emplaceFront p v => l.emplace l.begin_ p v
  | .emplaceBack p v => l.emplace end_ p v
  | .erase i j => do l.eraseRange (← l.at_ i) (← l.at_ j)
  | .eraseValue v => l.eraseValue v
  | .clear => l.clear

/-- What an operation does to the plain sequence. -/
def Op.spec [DecidableEq α] (xs : List α) : Op α → List α
  | .emplace i _ v => xs.take i ++ v :: xs.drop i
  | .emplaceFront _ v => v :: xs
  | .emplaceBack _ v => xs ++ [v]
  | .erase i j => xs.take i ++ xs.drop j
  | .eraseValue v => xs.erase v
  | .clear => []

/-- The allocator returns an entry that is not in use; `first` is not after `last`. -/
def Legal (l : HipcList α) : Op α → Prop
  | .emplace _ p _ | .emplaceFront p _ | .emplaceBack p _ => l.heap p = none
  | .erase i j => i ≤ j
  | .eraseValue _ | .clear => True

instance (l : HipcList α) : ∀ op, Decidable (Legal l op)
  | .emplace _ _ _ | .emplaceFront _ _ | .emplaceBack _ _ =>
    decidable_of_iff ((l.heap _).isNone = true) Option.isNone_iff_eq_none
  | .erase _ _ => inferInstanceAs (Decidable (_ ≤ _))
  | .eraseValue _ | .clear => isTrue trivial

/-- Insertions are at the end, or into a list of at most one element. -/
def Appends (l : HipcList α) : Op α → Prop
  | .emplace i _ _ => l.length_ ≤ 1 ∨ l.length_ ≤ i
  | .emplaceFront _ _ => l.length_ ≤ 1
  | .emplaceBack _ _ | .erase _ _ | .eraseValue _ | .clear => True

instance (l : HipcList α) : ∀ op, Decidable (Appends l op)
  | .emplace _ _ _ => inferInstanceAs (Decidable (_ ∨ _))
  | .emplaceFront _ _ => inferInstanceAs (Decidable (_ ≤ _))
  | .emplaceBack _ _ | .erase _ _ | .eraseValue _ | .clear => isTrue trivial

end HipcList
end HermesShm.Ipc
