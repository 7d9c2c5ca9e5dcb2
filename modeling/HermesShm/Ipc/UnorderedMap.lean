import HermesShm.Base.Transition
import HermesShm.Ipc.Slist
import Mathlib.Data.Finmap

/-! # The unordered map

`hipc::unordered_map`: a vector of buckets, each a singly linked list of
collisions, and a length of its own. All entries are in one heap. -/
namespace HermesShm.Ipc
open HermesShm.Base

/-- `vector<BUCKET_T>`; `data` is `none` where no bucket is constructed. -/
structure BucketVec where
  data : Nat → Option Slist := fun _ => none
  length_ : Nat := 0
  max_length_ : Nat := 0

namespace BucketVec

variable {α : Type}

/-- `grow_vector` for `resize`: a vector that is large enough is left as it is. -/
def growVector (v : BucketVec) (max_length : Nat) : BucketVec :=
  if max_length < v.max_length_ then v
  else
    { v with
      data := fun i =>
        if i < v.length_ then v.data i else if i < max_length then some {} else none
      max_length_ := max_length }

def resize (v : BucketVec) (length : Nat) : BucketVec :=
  if length = 0 then { v with length_ := 0 }
  else { v.growVector length with length_ := length }

/-- Destroys the first `n` buckets, each with its entries. -/
def destroy (v : BucketVec) (h : Slist.Heap α) : Nat → Option (Slist.Heap α)
  | 0 => some h
  | n + 1 => do
    let h ← v.destroy h n
    let bkt ← v.data n
    (Slist.clear h bkt).map Prod.fst

/-- `erase(begin(), end())` -/
def clear (v : BucketVec) (h : Slist.Heap α) : Option (Slist.Heap α × BucketVec) :=
  (v.destroy h v.length_).map fun h =>
    (h, { v with data := fun i => if i < v.length_ then none else v.data i, length_ := 0 })

def set (v : BucketVec) (i : Nat) (bkt : Slist) : BucketVec :=
  { v with data := Function.update v.data i (some bkt) }

end BucketVec

structure UnorderedMap (κ ν : Type) where
  heap : Slist.Heap (κ × ν) := fun _ => none
  buckets_ : BucketVec
  length_ : Nat := 0

namespace UnorderedMap

variable {κ ν : Type}

inductive Error
  | unorderedMapCantFind

def shmInit (κ ν : Type) (num_buckets : Nat) : UnorderedMap κ ν :=
  { buckets_ := BucketVec.resize {} num_buckets }

def size (m : UnorderedMap κ ν) : Nat := m.length_

/-! ## Iterators -/

structure Iter where
  bucket_ : Nat
  collision_ : Option Ptr

/-- `set_end` moves the bucket past the last one. -/
def end_ (m : UnorderedMap κ ν) : Iter := ⟨m.buckets_.length_, none⟩

def Iter.isEnd (m : UnorderedMap κ ν) (it : Iter) : Bool := m.buckets_.length_ ≤ it.bucket_

/-- `*iter`, `none` at the end. -/
def deref (m : UnorderedMap κ ν) (it : Iter) : Option (κ × ν) :=
  if it.isEnd m then none else do (← m.heap (← it.collision_)).data_

/-- The loop of `make_correct`, which moves on by a bucket every turn. -/
def makeCorrect (m : UnorderedMap κ ν) : Nat → Iter → Option Iter
  | 0, _ => none
  | fuel + 1, it =>
    if it.isEnd m then some it
    else if it.collision_.isSome then some it
    else if m.buckets_.length_ ≤ it.bucket_ + 1 then some ⟨it.bucket_ + 1, it.collision_⟩
    else do
      let bkt ← m.buckets_.data (it.bucket_ + 1)
      makeCorrect m fuel ⟨it.bucket_ + 1, bkt.begin_⟩

def begin_ (m : UnorderedMap κ ν) : Option Iter :=
  if m.buckets_.length_ = 0 then some m.end_
  else do
    let bkt ← m.buckets_.data 0
    m.makeCorrect m.buckets_.length_ ⟨0, bkt.begin_⟩

/-- `++iter` -/
def next (m : UnorderedMap κ ν) (it : Iter) : Option Iter := do
  let collision_ ← follow (Slist.nextPtr m.heap) 1 it.collision_
  m.makeCorrect m.buckets_.length_ { it with collision_ }

/-- The entries met from `it` to `end()`, at most `n` of them. -/
def visit (m : UnorderedMap κ ν) : Nat → Iter → Option (List (κ × ν))
  | 0, it => if it.isEnd m then some [] else none
  | n + 1, it =>
    if it.isEnd m then some []
    else do
      let e ← m.deref it
      let es ← m.visit n (← m.next it)
      some (e :: es)

/-! ## Operations -/

section
variable [DecidableEq κ] (hash : κ → Nat)

def bktId (m : UnorderedMap κ ν) (key : κ) : Nat := hash key % m.buckets_.length_

/-- The loop of `find_collision`. -/
def findCollisionLoop (h : Slist.Heap (κ × ν)) (key : κ) : Nat → Option Ptr → Option (Option Ptr)
  | _, none => some none
  | 0, some _ => none
  | fuel + 1, some p => do
    let e ← h p
    if e.data_.1 = key then some (some p) else findCollisionLoop h key fuel e.next_ptr_

def findCollision (h : Slist.Heap (κ × ν)) (key : κ) (bkt : Slist) : Option (Option Ptr) :=
  findCollisionLoop h key bkt.length_ bkt.begin_

def find (m : UnorderedMap κ ν) (key : κ) : Option Iter := do
  let bkt ← m.buckets_.data (m.bktId hash key)
  match ← findCollision m.heap key bkt with
  | none => some m.end_
  | some p => some ⟨m.bktId hash key, some p⟩

/-- `operator[]` -/
def index (m : UnorderedMap κ ν) (key : κ) : Option (Except Error ν) := do
  let iter ← m.find hash key
  if iter.isEnd m then some (.error .unorderedMapCantFind)
  else (m.deref iter).map fun e => .ok e.2

/-- Erases a collision of bucket `i`. -/
def eraseCollision (m : UnorderedMap κ ν) (i : Nat) (collision : Option Ptr) :
    Option (UnorderedMap κ ν) := do
  let bkt ← m.buckets_.data i
  let (heap, bkt) ← Slist.erase m.heap bkt collision
  some { heap, buckets_ := m.buckets_.set i bkt, length_ := m.length_ - 1 }

/-- `p` is the entry that the allocator returns. -/
def emplaceTempl (modify_existing : Bool) (m : UnorderedMap κ ν) (p : Ptr) (key : κ) (v : ν) :
    Option (Bool × UnorderedMap κ ν) := do
  let bkt_id := m.bktId hash key
  let has_key_iter ← findCollision m.heap key (← m.buckets_.data bkt_id)
  if has_key_iter.isSome && !modify_existing then some (false, m)
  else
    let m ← if has_key_iter.isSome then m.eraseCollision bkt_id has_key_iter else some m
    let (heap, bkt) ← Slist.emplaceBack m.heap (← m.buckets_.data bkt_id) p (key, v)
    some (true, { heap, buckets_ := m.buckets_.set bkt_id bkt, length_ := m.length_ + 1 })

def emplace (m : UnorderedMap κ ν) := emplaceTempl hash true m

def tryEmplace (m : UnorderedMap κ ν) := emplaceTempl hash false m

def erase (m : UnorderedMap κ ν) (key : κ) : Option (UnorderedMap κ ν) := do
  let bkt_id := m.bktId hash key
  match ← findCollision m.heap key (← m.buckets_.data bkt_id) with
  | none => some m
  | some p => m.eraseCollision bkt_id (some p)

def eraseIter (m : UnorderedMap κ ν) (iter : Iter) : Option (UnorderedMap κ ν) :=
  if iter.isEnd m then some m else m.eraseCollision iter.bucket_ iter.collision_

def clear (m : UnorderedMap κ ν) : Option (UnorderedMap κ ν) := do
  let num_buckets := m.buckets_.length_
  let (heap, buckets) ← m.buckets_.clear m.heap
  some { heap, buckets_ := buckets.resize num_buckets, length_ := 0 }

/-! ## Runs -/

inductive Op (κ ν : Type)
  | emplace (p : Ptr) (key : κ) (v : ν)
  | tryEmplace (p : Ptr) (key : κ) (v : ν)
  | erase (key : κ)
  | eraseIter (iter : Iter)
  | clear

def step (m : UnorderedMap κ ν) : Op κ ν → Option (UnorderedMap κ ν)
  | .emplace p key v => (m.emplace hash p key v).map Prod.snd
  | .tryEmplace p key v => (m.tryEmplace hash p key v).map Prod.snd
  | .erase key => m.erase hash key
  | .eraseIter iter => m.eraseIter iter
  | .clear => m.clear

abbrev Model (κ ν : Type) := Finmap fun _ : κ => ν

/-- What an operation does to the finite map; an iterator stands for the key it
points to. -/
def Op.spec (m : UnorderedMap κ ν) (f : Model κ ν) : Op κ ν → Model κ ν
  | .emplace _ key v => f.insert key v
  | .tryEmplace _ key v => if key ∈ f then f else f.insert key v
  | .erase key => f.erase key
  | .eraseIter iter => match m.deref iter with
    | some (key, _) => f.erase key
    | none => f
  | .clear => ∅

/-- The map and its model, side by side. -/
def tracked (s : UnorderedMap κ ν × Model κ ν) (op : Op κ ν) :
    Option (UnorderedMap κ ν × Model κ ν) :=
  (step hash s.1 op).map fun m => (m, op.spec s.1 s.2)

end

/-- An iterator to a collision of its bucket. -/
def Iter.Valid (m : UnorderedMap κ ν) (it : Iter) : Prop :=
  it.bucket_ < m.buckets_.length_ ∧ it.collision_.isSome ∧
    match m.buckets_.data it.bucket_ with
    | none => False
    | some bkt => ∃ n < bkt.length_,
        follow (Slist.nextPtr m.heap) n bkt.head_ptr_ = some it.collision_

instance (m : UnorderedMap κ ν) (it : Iter) : Decidable (it.Valid m) := by
  unfold Iter.Valid
  cases m.buckets_.data it.bucket_ <;> infer_instance

/-- The allocator returns an entry that is not in use: it is free, or `emplace`
has just erased it; an iterator is valid or the end. -/
def Legal [DecidableEq κ] (hash : κ → Nat) (m : UnorderedMap κ ν) : Op κ ν → Prop
  | .emplace p key _ => m.heap p = none ∨ (m.find hash key).bind (·.collision_) = some p
  | .tryEmplace p _ _ => m.heap p = none
  | .eraseIter iter => iter.isEnd m = true ∨ iter.Valid m
  | .erase _ | .clear => True

instance [DecidableEq κ] (hash : κ → Nat) (m : UnorderedMap κ ν) (op : Op κ ν) :
    Decidable (Legal hash m op) := by
  cases op <;> unfold Legal <;> infer_instance

end UnorderedMap
end HermesShm.Ipc
