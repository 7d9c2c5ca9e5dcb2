import HermesShm.Base.RegionMem
import HermesShm.Ipc.HipcString

/-! # The characters of `hipc::string`

Strings with their characters: in `sso_`, in a block of an allocator, or in memory
that they wrap. A character is read through the string's own `data()`. -/
namespace HermesShm.Ipc.StringMemory
open HermesShm.Base HermesShm.Ipc.Lifetime HermesShm.Ipc.HipcString

/-- Strings, by number, and memory. `none` is a byte that nobody has written. -/
structure Store where
  heap : Heap
  cls : Nat → StringClass
  strs : Nat → Str
  mem : RegionMem Region (Option UInt8)

namespace Store

/-- What a read finds: a block that is not allocated has no bytes. -/
def view (σ : Store) : RegionMem Region (Option UInt8) := fun r =>
  match r with
  | .block b => if b ∈ σ.heap.live then σ.mem (.block b) else fun _ => none
  | .other i => σ.mem (.other i)
  | .sso i => σ.mem (.sso i)

def read (σ : Store) (p : CharPtr) (n : Nat) : List (Option UInt8) :=
  RegionMem.read σ.view p.region p.off n

/-- `data()`; `Convert` of a null pointer is null. -/
def data (σ : Store) (i : Nat) : Option CharPtr :=
  let s := σ.strs i
  if (σ.cls i).kWrap ∧ s.is_wrap_ then
    match s.text with
    | .data p => some p
    | .null | .text _ => none
  else if s.length_ ≤ (σ.cls i).SSO then some ⟨.sso i, 0⟩
  else
    match s.text with
    | .text off => some ⟨.block (s.alloc, off), 0⟩
    | .null | .data _ => none

/-- The characters that `data()` and `size()` give; none of a null pointer. -/
def contents (σ : Store) (i : Nat) : List (Option UInt8) :=
  match σ.data i with
  | some p => σ.read p (σ.strs i).length_
  | none => []

/-- `memcpy` to a string's `data()`. The bytes are read before they are written. -/
def memcpy (σ : Store) (dst : Option CharPtr) (src : CharPtr) (n : Nat) : Store :=
  match dst with
  | some p => { σ with
      mem := RegionMem.blit σ.mem p.region p.off n fun k => σ.view src.region (src.off + k) }
  | none => σ

/-- A member that takes or gives back a block. A block that comes in has no bytes. -/
def act (σ : Store) (i : Nat) (f : Heap → Str → Str × Heap) : Store :=
  let r := f σ.heap (σ.strs i)
  { σ with
    heap := r.2
    strs := Function.update σ.strs i r.1
    mem := fun region =>
      match region with
      | .block b => if b ∈ σ.heap.live then σ.mem (.block b) else fun _ => none
      | .other i => σ.mem (.other i)
      | .sso i => σ.mem (.sso i) }

section
variable (P : Placement)

/-- `_create_str(text, length)`. -/
def createStr (σ : Store) (i : Nat) (text : CharPtr) (length : Nat) : Store :=
  let σ := σ.act i fun l s => Str.createStr P (σ.cls i) l s length
  σ.memcpy (σ.data i) text length

def shmDestroy (σ : Store) (i : Nat) : Store := σ.act i (Str.shmDestroy (σ.cls i))

/-- Without a change of what is allocated. -/
def setStr (σ : Store) (i : Nat) (s : Str) : Store :=
  { σ with strs := Function.update σ.strs i s }

/-- `shm_strong_or_weak_copy_op<true, true>`. -/
def copyOp (σ : Store) (i : Nat) (text : CharPtr) (length : Nat) : Store :=
  if (σ.cls i).kWrap then
    let σ := σ.shmDestroy i
    σ.setStr i (Str.wrap (σ.strs i) text length)
  else
    let σ := σ.setStr i { σ.strs i with is_wrap_ := false }
    (σ.shmDestroy i).createStr P i text length

/-- `operator=(const string_templ &other)`, for strings of any classes. The data of the
other string is not null. -/
def copyAssign (σ : Store) (i other : Nat) : Store :=
  if i = other then σ
  else match σ.data other with
    | some text => σ.copyOp P i text (σ.strs other).length_
    | none => σ

/-- `move_copy`. -/
def moveCopy (σ : Store) (i other : Nat) : Store :=
  let σ := σ.setStr i (Str.moveCopy (σ.strs i) (σ.strs other))
  if (σ.strs i).length_ ≤ (σ.cls i).SSO ∧ ¬ (σ.strs i).is_wrap_ then
    σ.memcpy (some ⟨.sso i, 0⟩) ⟨.sso other, 0⟩ ((σ.strs other).length_ + 1)
  else σ

/-- `operator=(string_templ &&other)`, for strings of one class. -/
def moveAssign (σ : Store) (i other : Nat) : Store :=
  if i = other then σ
  else if (σ.strs i).is_wrap_ ∨ (σ.strs i).alloc = (σ.strs other).alloc then
    let σ := σ.moveCopy i other
    σ.setStr other (σ.strs other).setNull
  else match σ.data other with
    | some text => (σ.createStr P i text (σ.strs other).length_).shmDestroy other
    | none => σ

end

end Store

end HermesShm.Ipc.StringMemory
