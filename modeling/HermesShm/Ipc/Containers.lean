import HermesShm.Base.Transition
import HermesShm.Ipc.HipcString
import HermesShm.Ipc.RingLifetimeSound

/-! # Containers over several allocators

Any number of vectors, strings and ring queues, constructed, assigned, changed and
destroyed one call after the other. -/
namespace HermesShm.Ipc.Containers
open HermesShm.Base HermesShm.Ipc.Lifetime HermesShm.Ipc.HipcString HermesShm.Ipc.VectorLifetime
  HermesShm.Ipc.RingLifetime

/-- A container of a class. Vectors and ring queues are of one element type. -/
inductive Obj (ε : Type)
  | vector (v : Vec ε)
  | string (c : StringClass) (s : Str)
  | ring (q : RingBase ε)

/-- The arguments of a constructor. -/
inductive New (α : Type)
  | default
  /-- The length or the depth, and the arguments for the elements of a vector. -/
  | length (n : Nat) (x : α)
  /-- `const char *`, or a `std::string`, of so many characters. -/
  | text (p : CharPtr) (n : Nat)

/-- The members called on one container. -/
inductive Member (α : Type)
  /-- `operator=(const char *)`. -/
  | assignText (p : CharPtr) (n : Nat)
  /-- `operator=(const std::string &)`. -/
  | assignString (p : CharPtr) (n : Nat)
  /-- `emplace_back`, or `push` with at most so many resizes in one another. -/
  | push (nested : Nat) (x : α)
  | pop
  | erase (pos : Nat)
  | eraseRange (first last : Nat)
  | clear
  | reserve (n : Nat)
  /-- The arguments are for the elements of a vector, the number for a ring queue. -/
  | resize (nested n : Nat) (x : α)

variable {ε α : Type} (P : Placement) (C : RingClass ε α) (data : Str → CharPtr)

namespace Obj

/-- Construction with an allocator in bytes of the class. -/
def new (l : Heap) (a : Nat) : Obj ε → New α → Option (Obj ε × Heap)
  | vector raw, .default => some (vector (Vec.init raw a), l)
  | vector raw, .length n x =>
    let r := Vec.initLength P C.T l raw a n x
    some (vector r.1, r.2)
  | string c raw, .default => some (string c (Str.init raw a), l)
  | string c raw, .length n _ =>
    let r := Str.initLength P c l raw a n
    some (string c r.1, r.2)
  | string c raw, .text p n =>
    let r := Str.copyOp P c l raw a p n
    some (string c r.1, r.2)
  | ring raw, .default =>
    let r := RingBase.shmInit P C l raw a 1024
    some (ring r.1, r.2)
  | ring raw, .length n _ =>
    let r := RingBase.shmInit P C l raw a n
    some (ring r.1, r.2)
  | _, _ => none

/-- A string is constructed from a string of any class. -/
def copyCtor (l : Heap) (a : Nat) : Obj ε → Obj ε → Option (Obj ε × Heap)
  | vector raw, vector other =>
    let r := Vec.copyCtor P C.T l raw a other
    some (vector r.1, r.2)
  | string c raw, string _ other =>
    let r := Str.copyOp P c l raw a (data other) other.length_
    some (string c r.1, r.2)
  | ring raw, ring other =>
    let r := RingBase.copyCtor P C l raw a other
    some (ring r.1, r.2)
  | _, _ => none

def moveCtor (l : Heap) (a : Nat) : Obj ε → Obj ε → Option (Obj ε × Obj ε × Heap)
  | vector raw, vector other =>
    let r := Vec.moveCtor P C.T l raw a other
    some (vector r.1, vector r.2.1, r.2.2)
  | string c raw, string c' other =>
    if c = c' then
      let r := Str.moveCtor P c l raw a other
      some (string c r.1, string c r.2.1, r.2.2)
    else none
  | ring raw, ring other =>
    let r := RingBase.moveCtor P C l raw a other
    some (ring r.1, ring r.2.1, r.2.2)
  | _, _ => none

/-- `operator=(const &)` of another object; a string is assigned from one of any class. -/
def copyAssign (l : Heap) : Obj ε → Obj ε → Option (Obj ε × Heap)
  | vector v, vector other =>
    let r := Vec.copyAssign P C.T l v other
    some (vector r.1, r.2)
  | string c s, string _ other =>
    let r := Str.copyAssign P c l s (data other) other.length_
    some (string c r.1, r.2)
  | ring q, ring other =>
    let r := RingBase.copyAssign P C l q other
    some (ring r.1, r.2)
  | _, _ => none

/-- `operator=(&&)` of another object. -/
def moveAssign (l : Heap) : Obj ε → Obj ε → Option (Obj ε × Obj ε × Heap)
  | vector v, vector other =>
    let r := Vec.moveOp P C.T l v other
    some (vector r.1, vector r.2.1, r.2.2)
  | string c s, string c' other =>
    if c = c' then
      let r := Str.moveOp P c l s other
      some (string c r.1, string c r.2.1, r.2.2)
    else none
  | ring q, ring other =>
    let r := RingBase.moveOp P C l q other
    some (ring r.1, ring r.2.1, r.2.2)
  | _, _ => none

def call (l : Heap) : Obj ε → Member α → Option (Obj ε × Heap)
  | string c s, .assignText p n =>
    let r := Str.copyOp P c l s s.alloc p n
    some (string c r.1, r.2)
  | string c s, .assignString p n =>
    let r := Str.copyAssign P c l s p n
    some (string c r.1, r.2)
  | string c s, .resize _ n _ =>
    let r := Str.resize P c l s n
    some (string c r.1, r.2)
  | vector v, .push _ x =>
    let r := Vec.emplaceBack P C.T l v (.args x)
    some (vector r.1, r.2)
  | vector v, .pop =>
    let r := Vec.popBack C.T l v
    some (vector r.1, r.2)
  | vector v, .erase pos =>
    let r := Vec.erase C.T l v pos
    some (vector r.1, r.2)
  | vector v, .eraseRange first last =>
    if last < first then none
    else
      let r := Vec.eraseRange C.T l v first last
      some (vector r.1, r.2)
  | vector v, .clear =>
    let r := Vec.clear C.T l v
    some (vector r.1, r.2)
  | vector v, .reserve n =>
    let r := Vec.reserve P C.T l v n
    some (vector r.1, r.2)
  | vector v, .resize _ n x =>
    let r := Vec.resize P C.T l v n x
    some (vector r.1, r.2)
  | ring q, .push nested x =>
    (RingBase.emplace P C nested l q (.args x)).map fun r => (ring r.1, r.2)
  | ring q, .pop => q.pop.map fun r => (ring r.2, l)
  | ring q, .resize nested n _ => (RingBase.resize P C nested l q n).map fun r => (ring r.1, r.2)
  | _, _ => none

/-- The destructor. -/
def destroy (l : Heap) : Obj ε → Heap
  | vector v => (Vec.shmDestroy C.T l v).2
  | string c s => (Str.shmDestroy c l s).2
  | ring q => (RingBase.shmDestroy C l q).2

end Obj

/-! ## Runs -/

/-- The containers that live, by name. -/
structure State (ι ε : Type) where
  heap : Heap := {}
  objects : ι → Option (Obj ε) := fun _ => none

/-- The allocator of a new container is given, and the bytes it is constructed in. -/
inductive Op (ι ε α : Type)
  | construct (i : ι) (raw : Obj ε) (a : Nat) (x : New α)
  | copyConstruct (i : ι) (raw : Obj ε) (a : Nat) (other : ι)
  | moveConstruct (i : ι) (raw : Obj ε) (a : Nat) (other : ι)
  | copyAssign (i other : ι)
  | moveAssign (i other : ι)
  | call (i : ι) (m : Member α)
  | destroy (i : ι)

variable {ι : Type} [DecidableEq ι]

def State.put (σ : State ι ε) (i : ι) (r : Obj ε × Heap) : State ι ε :=
  { heap := r.2, objects := Function.update σ.objects i (some r.1) }

/-- The target and what is left of the other. -/
def State.putBoth (σ : State ι ε) (i other : ι) (r : Obj ε × Obj ε × Heap) : State ι ε :=
  (σ.put other (r.2.1, r.2.2)).put i (r.1, r.2.2)

/-- `none`: there is no such object, or the call does not return. -/
def step (σ : State ι ε) : Op ι ε α → Option (State ι ε)
  | .construct i raw a x =>
    match σ.objects i with
    | none => (raw.new P C σ.heap a x).map (σ.put i)
    | some _ => none
  | .copyConstruct i raw a other =>
    match σ.objects i, σ.objects other with
    | none, some o => (raw.copyCtor P C data σ.heap a o).map (σ.put i)
    | _, _ => none
  | .moveConstruct i raw a other =>
    match σ.objects i, σ.objects other with
    | none, some o => (raw.moveCtor P C σ.heap a o).map (σ.putBoth i other)
    | _, _ => none
  | .copyAssign i other =>
    match σ.objects i, σ.objects other with
    | some t, some o => if i = other then some σ else (t.copyAssign P C data σ.heap o).map (σ.put i)
    | _, _ => none
  | .moveAssign i other =>
    match σ.objects i, σ.objects other with
    | some t, some o =>
      if i = other then some σ else (t.moveAssign P C σ.heap o).map (σ.putBoth i other)
    | _, _ => none
  | .call i m => (σ.objects i).bind fun o => (o.call P C σ.heap m).map (σ.put i)
  | .destroy i => (σ.objects i).map fun o =>
      { heap := o.destroy C σ.heap, objects := Function.update σ.objects i none }

end HermesShm.Ipc.Containers
