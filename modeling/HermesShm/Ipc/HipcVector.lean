import HermesShm.Base.Transition
import Mathlib.Algebra.Group.Nat.Defs
import Mathlib.Logic.Function.Basic

/-! # `hipc::vector`

An array of slots that hold the bytes of objects. Slots are moved with `memcpy`
when elements are inserted or erased, and with `realloc` or move constructors
when the array grows. -/
namespace HermesShm.Ipc.HipcVector
open HermesShm.Base

/-- An element type with values in `ν`. -/
structure ElemType (ν : Type) where
  /-- `std::is_pod<T>() && !IS_SHM_ARCHIVEABLE(T)`. -/
  pod : Bool
  /-- A copy of the bytes of an object with the value has the value at another
  address too, as for the `hipc` containers but not for a `std::string` that
  points into itself. -/
  relocatable : ν → Bool
  pod_relocatable : pod = true → ∀ v, relocatable v = true

/-- No array has more than `limit` elements. -/
structure Memory where
  limit : Nat
  small : 5 * limit < 2 ^ 64

/-- An object, with the number of its construction and where it happened. -/
structure Obj (ν : Type) where
  val : ν
  id : Nat
  home : Nat × Nat

structure State (ν : Type) where
  /-- The array, by its number. -/
  vec_ptr_ : Nat := 0
  /-- The bytes in its slots. -/
  slots : Nat → Option (Obj ν) := fun _ => none
  length_ : Nat := 0
  max_length_ : Nat := 0
  arrays : Nat := 1
  constructions : Nat := 0
  /-- The objects constructed and neither destroyed nor moved from; no operation
  reads it. -/
  live : List Nat := []

variable {ν : Type}

def init (ν : Type) : State ν := {}

/-- `data_ar()[i].get_ref()`. -/
def getRef (T : ElemType ν) (s : State ν) (i : Nat) : Option ν :=
  (s.slots i).bind fun o =>
    if T.relocatable o.val = true ∨ o.home = (s.vec_ptr_, i) then some o.val else none

/-- `HSHM_MAKE_AR`. -/
def makeAr (s : State ν) (i : Nat) (v : ν) : State ν :=
  { s with
    slots := Function.update s.slots i (some ⟨v, s.constructions, s.vec_ptr_, i⟩)
    constructions := s.constructions + 1
    live := s.constructions :: s.live }

/-- `HSHM_DESTROY_AR`. -/
def destroyAr (s : State ν) (i : Nat) : State ν :=
  match s.slots i with
  | none => s
  | some o => { s with live := s.live.erase o.id }

def memcpy (s : State ν) (dst src : Nat) : State ν :=
  { s with slots := Function.update s.slots dst (s.slots src) }

/-! ## Shifts -/

/-- The first loop of `shift_left`. -/
def destroyEach (s : State ν) (i : Nat) : Nat → State ν
  | 0 => s
  | n + 1 => destroyEach (destroyAr s i) (i + 1) n

/-- The second loop of `shift_left`. -/
def moveDown (s : State ν) (dst src : Nat) : Nat → State ν
  | 0 => s
  | n + 1 => moveDown (memcpy s dst src) (dst + 1) (src + 1) n

def shiftLeft (s : State ν) (pos count : Nat) : State ν :=
  let s := destroyEach s pos count
  moveDown s pos (pos + count) (s.length_ - (pos + count))

/-- The loop of `shift_right`. -/
def moveUp (s : State ν) (dst src : Nat) : Nat → State ν
  | 0 => s
  | n + 1 => moveUp (memcpy s dst src) (dst - 1) (src - 1) n

def shiftRight (s : State ν) (pos count : Nat) : State ν :=
  moveUp s (s.length_ - 1 + count) (s.length_ - 1) (s.length_ - pos)

/-! ## Growth -/

/-- Growth by a quarter, or by 10 and a quarter. -/
def nextLength (max_length_ : Nat) : Nat :=
  let max_length := 5 * max_length_ % 2 ^ 64 / 4
  if max_length ≤ max_length_ + 10 then max_length + 10 else max_length

theorem lt_nextLength {m : Nat} (h : 5 * m < 2 ^ 64) : m < nextLength m := by
  simp only [nextLength, Nat.mod_eq_of_lt h]
  split <;> omega

/-- One turn of the move loop: `s` is the vector before, `t` has the new array. -/
def moveElem (T : ElemType ν) (s t : State ν) (i : Nat) : State ν :=
  match s.slots i, getRef T s i with
  | some o, some v =>
    let t := makeAr t i v
    { t with live := t.live.erase o.id }
  | _, _ => t

def moveElems (T : ElemType ν) (s t : State ν) (i : Nat) : Nat → State ν
  | 0 => t
  | n + 1 => moveElems T s (moveElem T s t i) (i + 1) n

/-- `none`: it throws `OUT_OF_MEMORY`. Where the length asked for is below the
present one it returns null, and nothing is changed. -/
def growVector (T : ElemType ν) (M : Memory) (s : State ν) (max_length : Nat) : Option (State ν) :=
  let max_length := if max_length = 0 then nextLength s.max_length_ else max_length
  if max_length < s.max_length_ then some s
  else if M.limit < max_length then none
  else
    let t := { s with vec_ptr_ := s.arrays, arrays := s.arrays + 1, max_length_ := max_length }
    if T.pod then
      some { t with slots := fun i => if i < s.max_length_ then s.slots i else none }
    else some (moveElems T s { t with slots := fun _ => none } 0 s.length_)

/-! ## Operations -/

section
variable (T : ElemType ν) (M : Memory)

/-- Iterators are given by their index. -/
def isEnd (s : State ν) (pos : Nat) : Prop := s.length_ ≤ pos

instance (s : State ν) (pos : Nat) : Decidable (isEnd s pos) := inferInstanceAs (Decidable (_ ≤ _))

def growIfFull (s : State ν) : Option (State ν) :=
  if s.length_ = s.max_length_ then growVector T M s 0 else some s

def emplaceBack (s : State ν) (v : ν) : Option (State ν) :=
  (growIfFull T M s).map fun s =>
    let s := makeAr s s.length_ v
    { s with length_ := s.length_ + 1 }

def emplace (s : State ν) (pos : Nat) (v : ν) : Option (State ν) :=
  if isEnd s pos then emplaceBack T M s v
  else (growIfFull T M s).map fun s =>
    let s := makeAr (shiftRight s pos 1) pos v
    { s with length_ := s.length_ + 1 }

def replace (s : State ν) (pos : Nat) (v : ν) : State ν :=
  if isEnd s pos then s else makeAr (destroyAr s pos) pos v

def erase (s : State ν) (pos : Nat) : State ν :=
  if isEnd s pos then s
  else
    let s := shiftLeft s pos 1
    { s with length_ := s.length_ - 1 }

/-- `none`: the last iterator is before the first one. -/
def eraseRange (s : State ν) (first last : Nat) : Option (State ν) :=
  if isEnd s first then some s
  else
    let last_i := if isEnd s last then s.length_ else last
    if last_i < first then none
    else
      let count := last_i - first
      if count = 0 then some s
      else
        let s := shiftLeft s first count
        some { s with length_ := s.length_ - count }

def clear (s : State ν) : Option (State ν) := eraseRange s 0 s.length_

def popBack (s : State ν) : State ν :=
  if s.length_ = 0 then s
  else
    let s := destroyAr s (s.length_ - 1)
    { s with length_ := s.length_ - 1 }

def reserve (s : State ν) (length : Nat) : Option (State ν) :=
  if length = 0 then some s else growVector T M s length

end

/-! ## Runs -/

inductive Op (ν : Type)
  | emplaceBack (v : ν)
  | emplace (pos : Nat) (v : ν)
  | emplaceFront (v : ν)
  | replace (pos : Nat) (v : ν)
  | erase (pos : Nat)
  | eraseRange (first last : Nat)
  | popBack
  | reserve (length : Nat)
  | clear

def step (T : ElemType ν) (M : Memory) (s : State ν) : Op ν → Option (State ν)
  | .emplaceBack v => emplaceBack T M s v
  | .emplace pos v => emplace T M s pos v
  | .emplaceFront v => emplace T M s 0 v
  | .replace pos v => some (replace s pos v)
  | .erase pos => some (erase s pos)
  | .eraseRange first last => eraseRange s first last
  | .popBack => some (popBack s)
  | .reserve length => reserve T M s length
  | .clear => clear s

/-- The plain sequence; a position past the end is the end, and an end before the
start of a range is its start. -/
def apply (l : List ν) : Op ν → List ν
  | .emplaceBack v => l ++ [v]
  | .emplace pos v => l.take pos ++ v :: l.drop pos
  | .emplaceFront v => v :: l
  | .replace pos v => l.set pos v
  | .erase pos => l.take pos ++ l.drop (pos + 1)
  | .eraseRange first last => l.take first ++ l.drop (max first last)
  | .popBack => l.dropLast
  | .reserve _ => l
  | .clear => []

structure Sound (T : ElemType ν) (s : State ν) (l : List ν) : Prop where
  length_le : s.length_ ≤ s.max_length_
  length_eq : s.length_ = l.length
  value : ∀ i, i < s.length_ → getRef T s i = l[i]?
  /-- The live objects are those in the slots below `length_`, one in each. -/
  once : ∃ ids : List Nat, ids.length = s.length_ ∧ ids.Nodup ∧ s.live.Perm ids ∧
    ∀ i, i < s.length_ → (s.slots i).map (·.id) = ids[i]?

/-- The first slot that the shift of the operation copies; those behind it follow. -/
def copiedFrom (s : State ν) : Op ν → Nat
  | .emplace pos _ => pos
  | .emplaceFront _ => 0
  | .erase pos => pos + 1
  | .eraseRange first last => if first = last then s.length_ else max first last
  | _ => s.length_

/-- The objects that a shift copies survive it. -/
def Kept (T : ElemType ν) (s : State ν) (op : Op ν) : Prop :=
  ∀ i, i < s.length_ → copiedFrom s op ≤ i → ∀ o ∈ s.slots i, T.relocatable o.val = true

instance (T : ElemType ν) (s : State ν) (op : Op ν) : Decidable (Kept T s op) :=
  inferInstanceAs (Decidable (∀ i, i < s.length_ → _ ≤ i → ∀ o ∈ s.slots i, _ = true))

end HermesShm.Ipc.HipcVector
