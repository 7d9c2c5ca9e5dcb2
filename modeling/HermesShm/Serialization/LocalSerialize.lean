import HermesShm.Base.Codec

/-! # Serialization into a local buffer

`LocalSerialize` appends to a buffer and `LocalDeserialize` reads the buffer at
an offset that it moves. The type selects the overload of `save` and `load`. -/
namespace HermesShm.Serialization
open HermesShm.Base

/-! ## Values -/

/-- An arithmetic type is given by its size. -/
inductive Atom
  | arithmetic (w : Nat)
  | string

/-- A number stands for its bytes, whatever the type makes of them. -/
def Atom.Val : Atom → Type
  | .arithmetic w => Fin (256 ^ w)
  | .string => List UInt8

/-- The `std` and `hipc` containers of a kind share their overloads. A key needs
a hash, which containers do not have. -/
inductive Ty
  | atom (a : Atom)
  | vector (t : Ty)
  | list (t : Ty)
  | unordered_map (k : Atom) (t : Ty)

/-- A map is given by its entries in the order of iteration. -/
def Ty.Val : Ty → Type
  | .atom a => a.Val
  | .vector t => List t.Val
  | .list t => List t.Val
  | .unordered_map k t => List (k.Val × t.Val)

def Atom.fresh : (a : Atom) → a.Val
  | .arithmetic w => (⟨0, Nat.pow_pos (by decide)⟩ : Fin (256 ^ w))
  | .string => ([] : List UInt8)

/-- A value just constructed. -/
def Ty.fresh : (t : Ty) → t.Val
  | .atom a => a.fresh
  | .vector t => ([] : List t.Val)
  | .list t => ([] : List t.Val)
  | .unordered_map k t => ([] : List (k.Val × t.Val))

/-- What a `std::unordered_map` leaves open: the equality of its keys and the
order of iteration after an insertion. -/
structure MapImpl where
  keyEq : (k : Atom) → k.Val → k.Val → Bool
  order : {α : Type} → List α → List α
  order_perm : ∀ {α : Type} (l : List α), (order l).Perm l

instance (a : Atom) : DecidableEq a.Val :=
  match a with
  | .arithmetic w => inferInstanceAs (DecidableEq (Fin (256 ^ w)))
  | .string => inferInstanceAs (DecidableEq (List UInt8))

instance : Inhabited MapImpl := ⟨⟨fun _ x y => x == y, id, fun _ => .rfl⟩⟩

/-- `obj[key] = val`. -/
def MapImpl.assign {α : Type} (m : MapImpl) (k : Atom) (obj : List (k.Val × α)) (key : k.Val)
    (val : α) : List (k.Val × α) :=
  if obj.any fun e => m.keyEq k e.1 key then
    obj.map fun e => if m.keyEq k e.1 key then (e.1, val) else e
  else m.order (obj ++ [(key, val)])

/-! ## Writing -/

/-- The buffer's `resize`, which keeps what it can of the contents. -/
structure Resize where
  resize : List UInt8 → Nat → List UInt8
  length_resize : ∀ data_ n, (resize data_ n).length = n
  keeps : ∀ data_ n, data_.length ≤ n → (resize data_ n).take data_.length = data_

/-- As `std::string` does it. -/
instance : Inhabited Resize where
  default := {
    resize := fun data_ n => data_.take n ++ List.replicate (n - data_.length) 0
    length_resize := by
      intro data_ n
      rw [List.length_append, List.length_take, List.length_replicate]
      omega
    keeps := by
      intro data_ n h
      rw [List.take_of_length_le h, List.take_left] }

/-- `memcpy` behind what was in the buffer before the resize. -/
def writeBinary (b : Resize) (bytes data_ : List UInt8) : List UInt8 :=
  let off := data_.length
  let data_ := b.resize data_ (off + bytes.length)
  data_.take off ++ bytes ++ data_.drop (off + bytes.length)

/-- A `size_t` is an arithmetic type of 8 bytes. -/
def saveSize (b : Resize) (size : Nat) (data_ : List UInt8) : List UInt8 :=
  writeBinary b (toBytes 8 size) data_

def saveArithmetic (b : Resize) (w : Nat) (x : Fin (256 ^ w)) (data_ : List UInt8) :
    List UInt8 :=
  writeBinary b (toBytes w x) data_

def saveString (b : Resize) (text data_ : List UInt8) : List UInt8 :=
  writeBinary b text (saveSize b text.length data_)

def saveAtom (b : Resize) : (a : Atom) → a.Val → List UInt8 → List UInt8
  | .arithmetic w => saveArithmetic b w
  | .string => saveString b

/-- The branch of `save_vec` for arithmetic elements: they are copied at once. -/
def saveArray (b : Resize) (w : Nat) (obj : List (Fin (256 ^ w))) (data_ : List UInt8) :
    List UInt8 :=
  writeBinary b (obj.flatMap fun x => toBytes w x.val) (saveSize b obj.length data_)

def saveList {α : Type} (b : Resize) (save : α → List UInt8 → List UInt8) (obj : List α)
    (data_ : List UInt8) : List UInt8 :=
  obj.foldl (fun data_ x => save x data_) (saveSize b obj.length data_)

/-- The other branch does what `save_list` does. -/
def saveVec (b : Resize) : (t : Ty) → (t.Val → List UInt8 → List UInt8) → List t.Val →
    List UInt8 → List UInt8
  | .atom (.arithmetic w), _ => saveArray b w
  | _, save => saveList b save

def saveMap {κ α : Type} (b : Resize) (saveKey : κ → List UInt8 → List UInt8)
    (save : α → List UInt8 → List UInt8) (obj : List (κ × α)) (data_ : List UInt8) :
    List UInt8 :=
  obj.foldl (fun data_ e => save e.2 (saveKey e.1 data_)) (saveSize b obj.length data_)

def save (b : Resize) : (t : Ty) → t.Val → List UInt8 → List UInt8
  | .atom a => saveAtom b a
  | .vector t => saveVec b t (save b t)
  | .list t => saveList b (save b t)
  | .unordered_map k t => saveMap b (saveAtom b k) (save b t)

/-! ## Reading -/

def loadSize : Reader Nat := do
  let bytes ← Reader.take 8
  return ofBytes bytes

def number (w : Nat) (bytes : List UInt8) : Fin (256 ^ w) :=
  ⟨ofBytes bytes % 256 ^ w, Nat.mod_lt _ (Nat.pow_pos (by decide))⟩

def loadArithmetic (w : Nat) : Reader (Fin (256 ^ w)) := do
  let bytes ← Reader.take w
  return number w bytes

/-- The target is resized and overwritten. -/
def loadString : Reader (List UInt8) := do
  let size ← loadSize
  Reader.take size

def loadAtom : (a : Atom) → a.Val → Reader a.Val
  | .arithmetic w, _ => loadArithmetic w
  | .string, _ => loadString

/-- The numbers of an array of `n`. -/
def numbers (w : Nat) : Nat → List UInt8 → List (Fin (256 ^ w))
  | 0, _ => []
  | n + 1, bytes => number w (bytes.take w) :: numbers w n (bytes.drop w)

/-- The branch of `load_vec` for arithmetic elements. -/
def loadArray (w : Nat) : Reader (List (Fin (256 ^ w))) := do
  let size ← loadSize
  let bytes ← Reader.take (size * w)
  return numbers w size bytes

def resizeVec {α : Type} (fresh : α) (obj : List α) (size : Nat) : List α :=
  obj.take size ++ List.replicate (size - obj.length) fresh

/-- The other branch: a load into each element of the resized vector. -/
def loadElems {α : Type} (fresh : α) (load : α → Reader α) (obj : List α) : Reader (List α) := do
  let size ← loadSize
  (resizeVec fresh obj size).mapM load

def loadVec : (t : Ty) → (t.Val → Reader t.Val) → List t.Val → Reader (List t.Val)
  | .atom (.arithmetic w), _, _ => loadArray w
  | t, load, obj => loadElems t.fresh load obj

/-- `emplace_back` and then a load into the last element, `size` times. -/
def loadList {α : Type} (fresh : α) (load : α → Reader α) (obj : List α) : Reader (List α) := do
  let size ← loadSize
  (List.range size).foldlM (fun obj _ => do
    let last ← load fresh
    return obj ++ [last]) obj

def loadMap {α : Type} (m : MapImpl) (k : Atom) (fresh : α) (load : α → Reader α)
    (obj : List (k.Val × α)) : Reader (List (k.Val × α)) := do
  let size ← loadSize
  (List.range size).foldlM (fun obj _ => do
    let key ← loadAtom k k.fresh
    let val ← load fresh
    return m.assign k obj key val) obj

def load (m : MapImpl) : (t : Ty) → t.Val → Reader t.Val
  | .atom a => loadAtom a
  | .vector t => loadVec t (load m t)
  | .list t => loadList t.fresh (load m t)
  | .unordered_map k t => loadMap m k t.fresh (load m t)

/-! ## Sequences of values -/

def Atom.Wf : (a : Atom) → a.Val → Prop
  | .arithmetic _, _ => True
  | .string, (text : List UInt8) => text.length < 2 ^ 64

/-- What is true of any value in memory: sizes fit a `size_t`, and the keys of a
map differ. -/
def Ty.Wf (m : MapImpl) : (t : Ty) → t.Val → Prop
  | .atom a, x => a.Wf x
  | .vector t, (xs : List t.Val) => xs.length < 2 ^ 64 ∧ ∀ x ∈ xs, t.Wf m x
  | .list t, (xs : List t.Val) => xs.length < 2 ^ 64 ∧ ∀ x ∈ xs, t.Wf m x
  | .unordered_map k t, (xs : List (k.Val × t.Val)) => xs.length < 2 ^ 64 ∧
    xs.Pairwise (fun e e' => m.keyEq k e.1 e'.1 = false) ∧ ∀ e ∈ xs, k.Wf e.1 ∧ t.Wf m e.2

structure Value (m : MapImpl) where
  type : Ty
  val : type.Val
  wf : type.Wf m val

/-- The same keys with related values, in whatever order the second iterates. -/
def MapEqual {κ α : Type} (R : α → α → Prop) (xs ys : List (κ × α)) : Prop :=
  ∃ zs : List (κ × α), zs.Perm ys ∧ List.Forall₂ (fun e e' => e.1 = e'.1 ∧ R e.2 e'.2) xs zs

/-- Equality of values. -/
def Ty.Equal : (t : Ty) → t.Val → t.Val → Prop
  | .atom _, x, y => x = y
  | .vector t, (xs : List t.Val), (ys : List t.Val) => List.Forall₂ t.Equal xs ys
  | .list t, (xs : List t.Val), (ys : List t.Val) => List.Forall₂ t.Equal xs ys
  | .unordered_map _ t, xs, ys => MapEqual t.Equal xs ys

/-- The constructor of `LocalSerialize`. -/
def localSerialize (b : Resize) (data_ : List UInt8) : List UInt8 := b.resize data_ 0

/-- The buffer and, after each value, its size. -/
def saveAll {m : MapImpl} (b : Resize) : List (Value m) → List UInt8 → List UInt8 × List Nat
  | [], data_ => (data_, [])
  | v :: vs, data_ =>
    let data_ := save b v.type v.val data_
    let (out, offs) := saveAll b vs data_
    (out, data_.length :: offs)

structure Loaded where
  type : Ty
  val : type.Val
  cur_off_ : Nat

/-- The value that was saved, read back. -/
def Value.Agrees {m : MapImpl} (v : Value m) (r : Loaded) : Prop :=
  ∃ val : v.type.Val, r = ⟨v.type, val, r.cur_off_⟩ ∧ v.type.Equal v.val val

/-- Each value is read into a fresh target. -/
def loadAll (m : MapImpl) : List Ty → Reader (List Loaded)
  | [] => return []
  | t :: ts => do
    let val ← load m t t.fresh
    let cur_off_ ← get
    let rest ← loadAll m ts
    return ⟨t, val, cur_off_⟩ :: rest

end HermesShm.Serialization
