import HermesShm.Ipc.HipcVector
import HermesShm.Ipc.UnorderedMapRefines

/-! # Copies of unordered maps

Any number of maps that share a heap. The length of a map is a word here: it
wraps around, and where no constructor sets it, it is what its memory held. -/
namespace HermesShm.Ipc
open HermesShm.Base
open Slist (Represents)

/-- What an `unordered_map` object itself holds. -/
structure MapHeader where
  buckets_ : BucketVec := {}
  length_ : UInt64 := 0

/-- Where the code stops: it follows a null pointer, or throws `OUT_OF_MEMORY`. -/
inductive Stop
  | stuck
  | outOfMemory

def orStuck {β : Type} : Option β → Except Stop β
  | some b => .ok b
  | none => .error .stuck

/-- `NewObjLocal` of a list entry, by what the allocator returns. -/
def newEntry {α : Type} (alloc : Slist.Heap α → Option Ptr) (h : Slist.Heap α) :
    Except Stop Ptr :=
  match alloc h with
  | some p => .ok p
  | none => .error .outOfMemory

namespace BucketVec

/-- `grow_vector` for `reserve`: no bucket of the new part is constructed. -/
def reserve (v : BucketVec) (length : Nat) : BucketVec :=
  if length = 0 ∨ length < v.max_length_ then v
  else
    { v with
      data := fun i => if i < v.length_ then v.data i else none
      max_length_ := length }

def emplaceBack (v : BucketVec) (bkt : Slist) : BucketVec :=
  let v := if v.length_ = v.max_length_ then v.reserve (HipcVector.nextLength v.max_length_) else v
  { v.set v.length_ bkt with length_ := v.length_ + 1 }

end BucketVec

namespace MapHeader

variable {κ ν : Type}

/-- The map behind a header, its length read as a number. -/
def view (h : Slist.Heap (κ × ν)) (m : MapHeader) : UnorderedMap κ ν :=
  { heap := h, buckets_ := m.buckets_, length_ := m.length_.toNat }

/-- A vector has no array as long as it has no room. -/
def isNull (m : MapHeader) : Bool := m.buckets_.max_length_ == 0

def shmInit (num_buckets : Nat) : MapHeader :=
  { buckets_ := BucketVec.resize {} num_buckets }

def shmDestroy (h : Slist.Heap (κ × ν)) (m : MapHeader) :
    Option (Slist.Heap (κ × ν) × MapHeader) :=
  if m.isNull then some (h, m)
  else (m.buckets_.clear h).map fun r => (r.1, { m with buckets_ := {} })

def eraseCollision (h : Slist.Heap (κ × ν)) (m : MapHeader) (i : Nat) (collision : Option Ptr) :
    Option (Slist.Heap (κ × ν) × MapHeader) := do
  let bkt ← m.buckets_.data i
  let (h, bkt) ← Slist.erase h bkt collision
  some (h, { buckets_ := m.buckets_.set i bkt, length_ := m.length_ - 1 })

def eraseIter (h : Slist.Heap (κ × ν)) (m : MapHeader) (iter : UnorderedMap.Iter) :
    Option (Slist.Heap (κ × ν) × MapHeader) :=
  if iter.isEnd (m.view h) then some (h, m) else m.eraseCollision h iter.bucket_ iter.collision_

def clear (h : Slist.Heap (κ × ν)) (m : MapHeader) : Option (Slist.Heap (κ × ν) × MapHeader) := do
  let num_buckets := m.buckets_.length_
  let (h, buckets) ← m.buckets_.clear h
  some (h, { buckets_ := buckets.resize num_buckets, length_ := 0 })

section
variable [DecidableEq κ] (hash : κ → Nat)

def bktId (m : MapHeader) (key : κ) : Nat := hash key % m.buckets_.length_

def erase (h : Slist.Heap (κ × ν)) (m : MapHeader) (key : κ) :
    Option (Slist.Heap (κ × ν) × MapHeader) := do
  let bkt_id := m.bktId hash key
  match ← UnorderedMap.findCollision h key (← m.buckets_.data bkt_id) with
  | none => some (h, m)
  | some p => m.eraseCollision h bkt_id (some p)

variable (alloc : Slist.Heap (κ × ν) → Option Ptr)

def emplaceTempl (modify_existing : Bool) (h : Slist.Heap (κ × ν)) (m : MapHeader) (key : κ)
    (v : ν) : Except Stop (Bool × Slist.Heap (κ × ν) × MapHeader) := do
  let bkt_id := m.bktId hash key
  let bkt ← orStuck (m.buckets_.data bkt_id)
  let has_key_iter ← orStuck (UnorderedMap.findCollision h key bkt)
  if has_key_iter.isSome && !modify_existing then .ok (false, h, m)
  else
    let (h, m) ←
      if has_key_iter.isSome then orStuck (m.eraseCollision h bkt_id has_key_iter) else .ok (h, m)
    let bkt ← orStuck (m.buckets_.data bkt_id)
    let p ← newEntry alloc h
    let (h, bkt) ← orStuck (Slist.emplaceBack h bkt p (key, v))
    .ok (true, h, { buckets_ := m.buckets_.set bkt_id bkt, length_ := m.length_ + 1 })

/-! ## Copying -/

/-- The loop of `slist::shm_strong_copy_op`, at the entry `pos` of the other list. -/
def copyBucket : Nat → Option Ptr → Slist.Heap (κ × ν) → Slist →
    Except Stop (Slist.Heap (κ × ν) × Slist)
  | _, none, h, s => .ok (h, s)
  | 0, some _, _, _ => .error .stuck
  | fuel + 1, some q, h, s => do
    let e ← orStuck (h q)
    let p ← newEntry alloc h
    let (h, s) ← orStuck (Slist.emplaceBack h s p e.data_)
    let e ← orStuck (h q)
    copyBucket fuel e.next_ptr_ h s

/-- The loop of `vector::shm_strong_copy_main` over the last `n` buckets of the
other vector. -/
def copyBuckets (other : BucketVec) : Nat → Slist.Heap (κ × ν) → BucketVec →
    Except Stop (Slist.Heap (κ × ν) × BucketVec)
  | 0, h, v => .ok (h, v)
  | n + 1, h, v => do
    let bkt ← orStuck (other.data (other.length_ - (n + 1)))
    let (h, s) ← copyBucket alloc bkt.length_ bkt.begin_ h {}
    copyBuckets other n h (v.emplaceBack s)

/-- The loop of `shm_strong_copy_op`, at the iterator `it` of the other map. -/
def copyEntries (other : MapHeader) : Nat → UnorderedMap.Iter → Slist.Heap (κ × ν) → MapHeader →
    Except Stop (Slist.Heap (κ × ν) × MapHeader)
  | 0, it, h, m => if it.isEnd (other.view h) then .ok (h, m) else .error .stuck
  | fuel + 1, it, h, m =>
    if it.isEnd (other.view h) then .ok (h, m)
    else do
      let entry ← orStuck ((other.view h).deref it)
      let (_, h, m) ← emplaceTempl hash alloc true h m entry.1 entry.2
      let it ← orStuck ((other.view h).next it)
      copyEntries other fuel it h m

/-- The entries in the `n` buckets from bucket `i` on. -/
def numCollisions (b : BucketVec) : Nat → Nat → Nat
  | 0, _ => 0
  | n + 1, i => ((b.data i).map (·.length_)).getD 0 + numCollisions b n (i + 1)

def strongCopyOp (h : Slist.Heap (κ × ν)) (m other : MapHeader) :
    Except Stop (Slist.Heap (κ × ν) × MapHeader) := do
  let num_buckets := other.buckets_.length_
  let m := { m with buckets_ := m.buckets_.resize num_buckets }
  let it ← orStuck (other.view h).begin_
  copyEntries hash alloc other (numCollisions other.buckets_ num_buckets 0) it h m

/-- The copy constructor, in memory where the length is `word`. -/
def copyConstruct (word : UInt64) (h : Slist.Heap (κ × ν)) (other : MapHeader) :
    Except Stop (Slist.Heap (κ × ν) × MapHeader) := do
  let size := other.buckets_.length_
  let (h, b) ← copyBuckets alloc other.buckets_ size h (BucketVec.reserve {} size)
  strongCopyOp hash alloc h { buckets_ := b, length_ := word } other

def copyAssign (h : Slist.Heap (κ × ν)) (m other : MapHeader) :
    Except Stop (Slist.Heap (κ × ν) × MapHeader) := do
  let (h, m) ← orStuck (m.shmDestroy h)
  strongCopyOp hash alloc h m other

end
end MapHeader

/-! ## Maps in one heap -/

structure Maps (ι κ ν : Type) where
  heap : Slist.Heap (κ × ν) := fun _ => none
  map : ι → MapHeader := fun _ => {}

/-- An insertion into a map or a removal from it. -/
inductive MapChange (κ ν : Type)
  | emplace (key : κ) (v : ν)
  | tryEmplace (key : κ) (v : ν)
  | erase (key : κ)
  | eraseIter (iter : UnorderedMap.Iter)
  | clear

/-- `copyConstruct` is given the word in the memory of the new map's length. -/
inductive MapCall (ι κ ν : Type)
  | shmInit (i : ι) (num_buckets : Nat)
  | shmDestroy (i : ι)
  | change (i : ι) (c : MapChange κ ν)
  | copyConstruct (i j : ι) (word : UInt64)
  | copyAssign (i j : ι)

namespace Maps

variable {ι κ ν : Type} [DecidableEq ι]

def set (w : Maps ι κ ν) (i : ι) (r : Slist.Heap (κ × ν) × MapHeader) : Maps ι κ ν :=
  { heap := r.1, map := Function.update w.map i r.2 }

@[simp] theorem set_self (w : Maps ι κ ν) (i : ι) (r : Slist.Heap (κ × ν) × MapHeader) :
    (w.set i r).map i = r.2 :=
  Function.update_self ..

theorem set_of_ne {k i : ι} (h : k ≠ i) (w : Maps ι κ ν) (r : Slist.Heap (κ × ν) × MapHeader) :
    (w.set i r).map k = w.map k :=
  Function.update_of_ne h ..

variable [DecidableEq κ] (hash : κ → Nat) (alloc : Slist.Heap (κ × ν) → Option Ptr)

def change (h : Slist.Heap (κ × ν)) (m : MapHeader) :
    MapChange κ ν → Except Stop (Slist.Heap (κ × ν) × MapHeader)
  | .emplace key v => (m.emplaceTempl hash alloc true h key v).map Prod.snd
  | .tryEmplace key v => (m.emplaceTempl hash alloc false h key v).map Prod.snd
  | .erase key => orStuck (m.erase hash h key)
  | .eraseIter iter => orStuck (m.eraseIter h iter)
  | .clear => orStuck (m.clear h)

def copyConstruct (w : Maps ι κ ν) (i j : ι) (word : UInt64) : Except Stop (Maps ι κ ν) :=
  (MapHeader.copyConstruct hash alloc word w.heap (w.map j)).map (w.set i)

def copyAssign (w : Maps ι κ ν) (i j : ι) : Except Stop (Maps ι κ ν) :=
  if i = j then .ok w
  else (MapHeader.copyAssign hash alloc w.heap (w.map i) (w.map j)).map (w.set i)

def call (w : Maps ι κ ν) : MapCall ι κ ν → Except Stop (Maps ι κ ν)
  | .shmInit i num_buckets => .ok (w.set i (w.heap, .shmInit num_buckets))
  | .shmDestroy i => (orStuck ((w.map i).shmDestroy w.heap)).map (w.set i)
  | .change i c => (change hash alloc w.heap (w.map i) c).map (w.set i)
  | .copyConstruct i j word => w.copyConstruct hash alloc i j word
  | .copyAssign i j => w.copyAssign hash alloc i j

def step (w : Maps ι κ ν) (l : MapCall ι κ ν) : Option (Maps ι κ ν) :=
  (w.call hash alloc l).toOption

omit [DecidableEq ι] [DecidableEq κ] in
/-- A map is made where there is none, with a bucket at least, and is not used
afterwards; an iterator is valid or the end. -/
def Legal (w : Maps ι κ ν) : MapCall ι κ ν → Prop
  | .shmInit i num_buckets => (w.map i).isNull = true ∧ 0 < num_buckets
  | .shmDestroy _ => True
  | .change i c => (w.map i).isNull = false ∧ match c with
    | .eraseIter iter =>
      iter.isEnd ((w.map i).view w.heap) = true ∨ iter.Valid ((w.map i).view w.heap)
    | _ => True
  | .copyConstruct i j _ => (w.map i).isNull = true ∧ (w.map j).isNull = false
  | .copyAssign _ j => (w.map j).isNull = false

instance (w : Maps ι κ ν) (l : MapCall ι κ ν) : Decidable (w.Legal l) := by
  cases l with
  | change i c => cases c <;> unfold Legal <;> infer_instance
  | _ => unfold Legal; infer_instance

/-- Iteration over a map meets the entries `es`. -/
def Lists (w : Maps ι κ ν) (i : ι) (es : List (κ × ν)) : Prop :=
  ∃ it, ((w.map i).view w.heap).begin_ = some it ∧
    ∀ fuel ≥ es.length, ((w.map i).view w.heap).visit fuel it = some es

/-- `size()` of a map is the number of its entries. -/
def Counted (w : Maps ι κ ν) (i : ι) : Prop :=
  ∃ es, w.Lists i es ∧ (w.map i).length_ = UInt64.ofNat es.length

/-- What a copy of map `j` in map `i` is for, from `w` to `w'`. -/
structure Copied (w w' : Maps ι κ ν) (i j : ι) : Prop where
  entries : ∃ es es', w.Lists j es ∧ w'.Lists i es' ∧ es'.Perm es
  index : ∀ key, ((w'.map i).view w'.heap).index hash key = ((w.map j).view w.heap).index hash key
  size : (w'.map i).length_ = (w.map j).length_
  source : w'.map j = w.map j ∧ ∀ es, w.Lists j es → w'.Lists j es
  source_index : ∀ key,
    ((w'.map j).view w'.heap).index hash key = ((w.map j).view w.heap).index hash key
  /-- Whatever is inserted and erased later, in any of the maps. -/
  later : ∀ ls w'',
    Run (step hash alloc) (fun w l => w.Legal l ∧ ∃ k c, l = .change k c) w' ls w'' → w''.Counted i

end Maps
end HermesShm.Ipc
