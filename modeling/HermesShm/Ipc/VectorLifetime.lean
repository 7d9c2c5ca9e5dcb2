import HermesShm.Ipc.HipcVector
import HermesShm.Ipc.Lifetime

/-! # `hipc::vector` and what it owns

The members of `vector<T>` that construct, move and destroy: the array is a block of
the vector's allocator, and the elements below `length_` are objects in it. -/
namespace HermesShm.Ipc.VectorLifetime
open HermesShm.Base HermesShm.Ipc.Lifetime

structure Vec (ε : Type) where
  /-- `GetAllocator()`. -/
  alloc : Nat
  vec_ptr_ : Option Nat
  max_length_ : Nat
  length_ : Nat
  /-- The bytes of the array at `vec_ptr_`. -/
  slots : Nat → ε

variable {ε α : Type} (P : Placement) (T : ElemType ε α)

/-! ## Loops over slots -/

/-- The first loop of `shift_left`. -/
def destroyEach (l : Heap) (slots : Nat → ε) (pos : Nat) : Nat → (Nat → ε) × Heap
  | 0 => (slots, l)
  | n + 1 =>
    let r := destroyEach l slots pos n
    let e := T.destroy r.2 (r.1 (pos + n))
    (Function.update r.1 (pos + n) e.1, e.2)

/-- The second loop of `shift_left`, a `memcpy` in each turn. -/
def moveDown (slots : Nat → ε) (pos count : Nat) : Nat → Nat → ε
  | 0 => slots
  | n + 1 =>
    let slots := moveDown slots pos count n
    Function.update slots (pos + n) (slots (pos + count + n))

/-- The move constructions of `grow_vector`. What is left in the old array goes with
it. -/
def moveEach (l : Heap) (a : Nat) (old new : Nat → ε) : Nat → (Nat → ε) × Heap
  | 0 => (new, l)
  | n + 1 =>
    let r := moveEach l a old new n
    let e := T.move r.2 a (r.1 n) (old n)
    (Function.update r.1 n e.1, e.2.2)

/-- The constructions of `grow_vector` that fill up a resized vector. -/
def makeEach (l : Heap) (a : Nat) (slots : Nat → ε) (x : α) (start : Nat) :
    Nat → (Nat → ε) × Heap
  | 0 => (slots, l)
  | n + 1 =>
    let r := makeEach l a slots x start n
    let e := T.construct r.2 a x
    (Function.update r.1 (start + n) e.1, e.2)

namespace Vec

/-! ## Growth -/

def isNull (v : Vec ε) : Bool := v.vec_ptr_.isNone

/-- The array. -/
def block (v : Vec ε) : Option Block := v.vec_ptr_.map (v.alloc, ·)

def setNull (v : Vec ε) : Vec ε := { v with length_ := 0, max_length_ := 0, vec_ptr_ := none }

/-- The new array of `grow_vector`: plain bytes are reallocated, other elements moved. -/
def newArray (l : Heap) (v : Vec ε) : Vec ε × Heap :=
  if T.pod then
    match v.vec_ptr_ with
    | none =>
      let r := allocate P l v.alloc
      ({ v with vec_ptr_ := some r.1, slots := T.raw l.calls }, r.2)
    | some off =>
      let r := reallocate P l v.alloc off
      ({ v with vec_ptr_ := some r.1,
                slots := fun i => if i < v.max_length_ then v.slots i else T.raw l.calls i }, r.2)
  else
    let r := allocate P l v.alloc
    let m := moveEach T r.2 v.alloc v.slots (T.raw l.calls) v.length_
    ({ v with vec_ptr_ := some r.1, slots := m.1 },
      match v.vec_ptr_ with
      | none => m.2
      | some off => free m.2 v.alloc off)

/-- With arguments it constructs the elements behind `length_` too. -/
def growVector (l : Heap) (v : Vec ε) (max_length : Nat) (x : Option α) : Vec ε × Heap :=
  let max_length := if max_length = 0 then HipcVector.nextLength v.max_length_ else max_length
  if max_length < v.max_length_ then (v, l)
  else
    let r := newArray P T l v
    let m := match x with
      | none => (r.1.slots, r.2)
      | some x => makeEach T r.2 v.alloc r.1.slots x v.length_ (max_length - v.length_)
    ({ r.1 with slots := m.1, max_length_ := max_length }, m.2)

/-! ## Members -/

def reserve (l : Heap) (v : Vec ε) (length : Nat) : Vec ε × Heap :=
  if length = 0 then (v, l) else growVector P T l v length none

def resize (l : Heap) (v : Vec ε) (length : Nat) (x : α) : Vec ε × Heap :=
  if length = 0 then ({ v with length_ := 0 }, l)
  else
    let r := growVector P T l v length (some x)
    ({ r.1 with length_ := length }, r.2)

def emplaceBack (l : Heap) (v : Vec ε) (x : Args ε α) : Vec ε × Heap :=
  let r := if v.length_ = v.max_length_ then growVector P T l v 0 none else (v, l)
  let e := T.make r.2 v.alloc x
  ({ r.1 with slots := Function.update r.1.slots v.length_ e.1, length_ := v.length_ + 1 }, e.2)

/-- Iterators are given by their index. -/
def replace (l : Heap) (v : Vec ε) (pos : Nat) (x : Args ε α) : Vec ε × Heap :=
  if v.length_ ≤ pos then (v, l)
  else
    let d := T.destroy l (v.slots pos)
    let e := T.make d.2 v.alloc x
    ({ v with slots := Function.update v.slots pos e.1 }, e.2)

def popBack (l : Heap) (v : Vec ε) : Vec ε × Heap :=
  if v.length_ = 0 then (v, l)
  else
    let e := T.destroy l (v.slots (v.length_ - 1))
    ({ v with slots := Function.update v.slots (v.length_ - 1) e.1, length_ := v.length_ - 1 }, e.2)

def shiftLeft (l : Heap) (v : Vec ε) (pos count : Nat) : Vec ε × Heap :=
  let r := destroyEach T l v.slots pos count
  ({ v with slots := moveDown r.1 pos count (v.length_ - (pos + count)) }, r.2)

/-- `erase` of a range whose end is not before its start. -/
def eraseRange (l : Heap) (v : Vec ε) (first last : Nat) : Vec ε × Heap :=
  if v.length_ ≤ first then (v, l)
  else
    let count := min last v.length_ - first
    if count = 0 then (v, l)
    else
      let r := shiftLeft T l v first count
      ({ r.1 with length_ := v.length_ - count }, r.2)

/-- `erase` of one element. -/
def erase (l : Heap) (v : Vec ε) (pos : Nat) : Vec ε × Heap :=
  if v.length_ ≤ pos then (v, l)
  else
    let r := shiftLeft T l v pos 1
    ({ r.1 with length_ := v.length_ - 1 }, r.2)

def clear (l : Heap) (v : Vec ε) : Vec ε × Heap := eraseRange T l v 0 v.length_

def shmDestroyMain (l : Heap) (v : Vec ε) : Vec ε × Heap :=
  let r := clear T l v
  match v.vec_ptr_ with
  | none => r
  | some off => (r.1, free r.2 v.alloc off)

def shmDestroy (l : Heap) (v : Vec ε) : Vec ε × Heap :=
  if v.isNull then (v, l)
  else
    let r := shmDestroyMain T l v
    (r.1.setNull, r.2)

/-- The loop of `shm_strong_copy_main`, over the elements of an array. -/
def copyEach (l : Heap) (v : Vec ε) (at_ : Option Block) (other : Nat → ε) : Nat → Vec ε × Heap
  | 0 => (v, l)
  | n + 1 =>
    let r := copyEach l v at_ other n
    emplaceBack P T r.2 r.1 (.copyOf at_ (other n))

def strongCopyMain (l : Heap) (v other : Vec ε) : Vec ε × Heap :=
  let r := reserve P T l v other.length_
  if T.pod then
    ({ r.1 with
        slots := fun i => if i < other.length_ then other.slots i else r.1.slots i
        length_ := other.length_ }, r.2)
  else copyEach P T r.2 r.1 other.block other.slots other.length_

def init (raw : Vec ε) (a : Nat) : Vec ε := ({ raw with alloc := a } : Vec ε).setNull

def initLength (l : Heap) (raw : Vec ε) (a length : Nat) (x : α) : Vec ε × Heap :=
  resize P T l (init raw a) length x

def copyCtor (l : Heap) (raw : Vec ε) (a : Nat) (other : Vec ε) : Vec ε × Heap :=
  strongCopyMain P T l (init raw a) other

def copyAssign (l : Heap) (v other : Vec ε) : Vec ε × Heap :=
  let r := shmDestroy T l v
  strongCopyMain P T r.2 r.1 other

/-- `shm_move_op`, for a constructor after `init_shm_container`. -/
def moveOp (l : Heap) (v other : Vec ε) : Vec ε × Vec ε × Heap :=
  if v.alloc = other.alloc then (other, other.setNull, l)
  else
    let r := strongCopyMain P T l v other
    let d := shmDestroy T r.2 other
    (r.1, d.1, d.2)

def moveCtor (l : Heap) (raw : Vec ε) (a : Nat) (other : Vec ε) : Vec ε × Vec ε × Heap :=
  moveOp P T l { raw with alloc := a } other

end Vec

/-! ## Ownership -/

section
variable {T} (O : Ownership T)

/-- What the first `n` elements own. -/
def elemOwns (slots : Nat → ε) (n : Nat) : Multiset Block := ∑ i ∈ Finset.range n, O.owns (slots i)

/-- What a vector owns: its array, and what its elements own. -/
def Vec.arrayOwns (v : Vec ε) : Multiset Block :=
  match v.vec_ptr_ with
  | none => 0
  | some off => {(v.alloc, off)}

def Vec.owns (v : Vec ε) : Multiset Block := v.arrayOwns + elemOwns O v.slots v.length_

structure Vec.Ok (a : Nat) (v : Vec ε) : Prop where
  alloc_eq : v.alloc = a
  null : v.vec_ptr_ = none → v.max_length_ = 0
  length_le : v.length_ ≤ v.max_length_
  elems : ∀ i, i < v.length_ → O.Ok a (v.slots i)

variable {O P} {l : Heap} {v other : Vec ε} {slots slots' old new : Nat → ε} {a n m pos count : Nat}
  {F : Multiset Block}

theorem elemOwns_zero : elemOwns O slots 0 = 0 := rfl

theorem elemOwns_succ : elemOwns O slots (n + 1) = elemOwns O slots n + O.owns (slots n) :=
  Finset.sum_range_succ _ _

theorem elemOwns_congr (h : ∀ i, i < n → slots i = slots' i) :
    elemOwns O slots n = elemOwns O slots' n :=
  Finset.sum_congr rfl fun i hi => by rw [h i (Finset.mem_range.mp hi)]

theorem elemOwns_add :
    elemOwns O slots (n + m) = elemOwns O slots n + elemOwns O (fun i => slots (n + i)) m :=
  Finset.sum_range_add _ _ _

theorem elemOwns_update (e : ε) :
    elemOwns O (Function.update slots n e) (n + 1) = elemOwns O slots n + O.owns e := by
  rw [elemOwns_succ, Function.update_self]
  congr 1
  exact elemOwns_congr fun i hi => Function.update_of_ne (Nat.ne_of_lt hi) _ _

/-- Plain bytes own nothing. -/
theorem elemOwns_pod (hp : T.pod = true) : elemOwns O slots n = 0 :=
  Finset.sum_eq_zero fun _ _ => O.pod_owns hp _

theorem destroyEach_other {i : Nat} (hi : i < pos ∨ pos + n ≤ i) :
    (destroyEach T l slots pos n).1 i = slots i := by
  induction n with
  | zero => rfl
  | succ n ih =>
    simp only [destroyEach]
    rw [Function.update_of_ne (by omega), ih (by omega)]

theorem destroyEach_holds (hok : ∀ i, i < n → O.Ok a (slots (pos + i)))
    (h : l.Holds (elemOwns O (fun i => slots (pos + i)) n + F)) :
    (destroyEach T l slots pos n).2.Holds F := by
  induction n generalizing F with
  | zero => exact h.congr (zero_add F)
  | succ n ih =>
    rw [elemOwns_succ, add_assoc] at h
    have hl := ih (fun i hi => hok i (by omega)) h
    simp only [destroyEach]
    rw [destroyEach_other (by omega)]
    exact O.destroy_holds _ a _ _ (hok n (by omega)) hl

theorem moveDown_eq (i : Nat) : moveDown slots pos count n i =
    if pos ≤ i ∧ i < pos + n then slots (i + count) else slots i := by
  induction n generalizing i with
  | zero => rw [if_neg (by omega)]; rfl
  | succ n ih =>
    simp only [moveDown]
    by_cases hi : i = pos + n
    · subst hi
      rw [Function.update_self, ih, if_neg (by omega), if_pos (by omega)]
      congr 1
      omega
    · rw [Function.update_of_ne hi, ih]
      by_cases hin : pos ≤ i ∧ i < pos + n
      · rw [if_pos hin, if_pos (by omega)]
      · rw [if_neg hin, if_neg (by omega)]

theorem moveEach_holds (old new : Nat → ε) (hok : ∀ i, i < n → O.Ok a (old i))
    (h : l.Holds (elemOwns O old n + F)) :
    (moveEach T l a old new n).2.Holds (elemOwns O (moveEach T l a old new n).1 n + F) ∧
      ∀ i, i < n → O.Ok a ((moveEach T l a old new n).1 i) := by
  induction n generalizing F with
  | zero => exact ⟨h, nofun⟩
  | succ n ih =>
    rw [elemOwns_succ, add_assoc] at h
    obtain ⟨hl, hoks⟩ := ih (fun i hi => hok i (by omega)) h
    have hn := hok n (by omega)
    obtain ⟨hm, hmok⟩ := O.move_holds _ a ((moveEach T l a old new n).1 n) _ _ hn
      (hl.congr (add_left_comm _ _ _))
    simp only [moveEach]
    rw [elemOwns_update]
    refine ⟨hm.congr (by rw [add_left_comm, add_assoc]), fun i hi => ?_⟩
    by_cases hin : i = n
    · subst hin
      rw [Function.update_self]
      exact hmok
    · rw [Function.update_of_ne hin]
      exact hoks i (by omega)

theorem makeEach_holds {x : α} {start : Nat} (hx : O.ArgsOk x)
    (h : l.Holds (elemOwns O slots start + F)) (hok : ∀ i, i < start → O.Ok a (slots i)) :
    (makeEach T l a slots x start n).2.Holds
        (elemOwns O (makeEach T l a slots x start n).1 (start + n) + F) ∧
      ∀ i, i < start + n → O.Ok a ((makeEach T l a slots x start n).1 i) := by
  induction n with
  | zero => exact ⟨h, hok⟩
  | succ n ih =>
    obtain ⟨hl, hoks⟩ := ih
    obtain ⟨hc, hcok⟩ := O.construct_holds _ a x _ hx hl
    simp only [makeEach]
    rw [← add_assoc, elemOwns_update]
    refine ⟨hc.congr (by rw [add_left_comm, add_assoc]), fun i hi => ?_⟩
    by_cases hin : i = start + n
    · subst hin
      rw [Function.update_self]
      exact hcok
    · rw [Function.update_of_ne hin]
      exact hoks i (by omega)

end

end HermesShm.Ipc.VectorLifetime
