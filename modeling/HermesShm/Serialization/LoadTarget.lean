import HermesShm.Serialization.RoundTrip
import Mathlib.Data.List.Nodup
import Mathlib.Data.List.Pairwise

/-! # Loading into objects that have contents

The loads of the `std` and the `hipc` containers, with all that an object has in it
before: the elements of a `std::vector` survive a `resize`, and so do the slots of a
`hipc::vector` behind its length. -/
namespace HermesShm.Serialization
open HermesShm.Base HermesShm.Base.Reader

/-- A class that is loaded into. The lists of `std` and `hipc`, and the strings, load alike. -/
inductive Class
  | atom (a : Atom)
  | std_vector (c : Class)
  | vector (c : Class)
  | list (c : Class)
  | unordered_map (k : Atom) (c : Class)

namespace Class

/-- What is saved of it. -/
def ty : Class → Ty
  | .atom a => .atom a
  | .std_vector c => .vector c.ty
  | .vector c => .vector c.ty
  | .list c => .list c.ty
  | .unordered_map k c => .unordered_map k c.ty

/-- `std::is_arithmetic_v` -/
def isArithmetic : Class → Bool
  | .atom (.arithmetic _) => true
  | _ => false

end Class

/-- A `hipc::vector`: `max_length_` slots, `none` where there is no object. -/
structure Slots (α : Type) where
  slots : List (Option α) := []
  length_ : Nat := 0

namespace Slots

variable {α : Type}

/-- Inside the capacity nothing is constructed; else the elements are moved to a new
array, and the others are constructed. -/
def resize (fresh : α) (o : Slots α) (length : Nat) : Slots α :=
  if length = 0 then { o with length_ := 0 }
  else if length < o.slots.length then { o with length_ := length }
  else
    { slots := o.slots.take o.length_ ++ List.replicate (length - o.length_) (some fresh)
      length_ := length }

end Slots

def Class.Obj : Class → Type
  | .atom a => a.Val
  | .std_vector c => List c.Obj
  | .vector c => Slots c.Obj
  | .list c => List c.Obj
  | .unordered_map k c => List (k.Val × c.Obj)

/-- An object just constructed. -/
def Class.fresh : (c : Class) → c.Obj
  | .atom a => a.fresh
  | .std_vector c => ([] : List c.Obj)
  | .vector c => ({} : Slots c.Obj)
  | .list c => ([] : List c.Obj)
  | .unordered_map k c => ([] : List (k.Val × c.Obj))

/-! ## Loading -/

def loadStdVector : (c : Class) → (c.Obj → Reader c.Obj) → List c.Obj → Reader (List c.Obj)
  | .atom (.arithmetic w), _, _ => loadArray w
  | c, load, obj => loadElems c.fresh load obj

/-- There is nothing to load into where there is no object. -/
def loadSlot {α : Type} (load : α → Reader α) : Option α → Reader (Option α)
  | none => failure
  | some x => do
    let x ← load x
    return some x

def loadSlots {α : Type} (fresh : α) (load : α → Reader α) (obj : Slots α) : Reader (Slots α) := do
  let size ← loadSize
  let obj := obj.resize fresh size
  let elems ← (obj.slots.take size).mapM (loadSlot load)
  return { obj with slots := elems ++ obj.slots.drop size }

/-- The elements are overwritten, whatever they are. -/
def loadSlotArray (w : Nat) (obj : Slots (Fin (256 ^ w))) : Reader (Slots (Fin (256 ^ w))) := do
  let size ← loadSize
  let obj := obj.resize (number w []) size
  let bytes ← Reader.take (obj.length_ * w)
  return { obj with slots := (numbers w size bytes).map some ++ obj.slots.drop size }

def loadVector : (c : Class) → (c.Obj → Reader c.Obj) → Slots c.Obj → Reader (Slots c.Obj)
  | .atom (.arithmetic w), _, obj => loadSlotArray w obj
  | c, load, obj => loadSlots c.fresh load obj

def Class.load (m : MapImpl) : (c : Class) → c.Obj → Reader c.Obj
  | .atom a => loadAtom a
  | .std_vector c => loadStdVector c (c.load m)
  | .vector c => loadVector c (c.load m)
  | .list c => loadList c.fresh (c.load m)
  | .unordered_map k c => loadMap m k c.fresh (c.load m)

/-! ## Values and targets -/

/-- The object of a map has the entries `xs`, in whatever order it iterates. -/
def MapIs {κ α β : Type} (R : α → β → Prop) (xs : List (κ × α)) (obj : List (κ × β)) : Prop :=
  ∃ zs : List (κ × β), zs.Perm obj ∧ List.Forall₂ (fun e e' => e.1 = e'.1 ∧ R e.2 e'.2) xs zs

/-- The object has the value. -/
def Class.Is : (c : Class) → c.ty.Val → c.Obj → Prop
  | .atom _, x, obj => x = obj
  | .std_vector c, (xs : List c.ty.Val), (obj : List c.Obj) => List.Forall₂ c.Is xs obj
  | .vector c, (xs : List c.ty.Val), (obj : Slots c.Obj) =>
    List.Forall₂ (fun x s => ∃ y ∈ s, c.Is x y) xs (obj.slots.take obj.length_)
  | .list c, (xs : List c.ty.Val), (obj : List c.Obj) => List.Forall₂ c.Is xs obj
  | .unordered_map _ c, xs, obj => MapIs c.Is xs obj

/-- What is true of any object: a vector has its elements in slots, and the keys of a map
differ. -/
def Class.Wf (m : MapImpl) : (c : Class) → c.Obj → Prop
  | .atom _, _ => True
  | .std_vector c, (obj : List c.Obj) => ∀ y ∈ obj, c.Wf m y
  | .vector c, (obj : Slots c.Obj) =>
    obj.length_ ≤ obj.slots.length ∧ ∀ s ∈ obj.slots, ∀ y ∈ s, c.Wf m y
  | .list _, _ => True
  | .unordered_map k _, (obj : List _) => obj.Pairwise fun e e' => m.keyEq k e.1 e'.1 = false

/-- Nothing of the object shows after a load of the value `x`: lists are empty, maps have
no key that `x` does not have, and so on for the elements that are loaded into. Those of a
`hipc::vector` are the slots below its length and, inside its capacity, those behind. -/
def Class.Clean : (c : Class) → c.ty.Val → c.Obj → Prop
  | .atom _, _, _ => True
  | .std_vector c, (xs : List c.ty.Val), (obj : List c.Obj) =>
    ∀ p ∈ xs.zip obj, c.Clean p.1 p.2
  | .vector c, (xs : List c.ty.Val), (obj : Slots c.Obj) =>
    c.isArithmetic = true ∨ ∀ i x, xs[i]? = some x →
      (i < obj.length_ ∨ xs.length < obj.slots.length) →
      ∃ y, obj.slots[i]? = some (some y) ∧ c.Clean x y
  | .list _, _, (obj : List _) => obj = []
  | .unordered_map _ _, (xs : List _), (obj : List _) => ∀ e ∈ obj, ∃ x ∈ xs, x.1 = e.1

/-- What the requirements on a key equality say. -/
structure MapImpl.Lawful (m : MapImpl) : Prop where
  refl : ∀ k x, m.keyEq k x x = true
  symm : ∀ k x y, m.keyEq k x y = m.keyEq k y x

variable {m : MapImpl} {b : Resize} {ι α : Type} {fresh : α} {f : α → Reader α}
  {enc : ι → List UInt8} {R C : ι → α → Prop} {xs : List ι}

/-! ## Vectors -/

/-- The elements that a resize makes are clean. -/
theorem forall₂_resizeVec (hfresh : ∀ x ∈ xs, C x fresh) (obj : List α) :
    List.Forall₂ (fun y x => C x y) (resizeVec fresh obj xs.length) xs ↔
      ∀ p ∈ xs.zip obj, C p.1 p.2 := by
  induction xs generalizing obj with
  | nil => simp [resizeVec]
  | cons x xs ih =>
    have hrest := ih fun y hy => hfresh y (List.mem_cons_of_mem _ hy)
    cases obj with
    | nil =>
      have hstep : resizeVec fresh [] (x :: xs).length = fresh :: resizeVec fresh [] xs.length := by
        simp [resizeVec, List.replicate_succ]
      rw [hstep, List.forall₂_cons, hrest]
      simp [hfresh x List.mem_cons_self]
    | cons y obj =>
      have hstep : resizeVec fresh (y :: obj) (x :: xs).length =
          y :: resizeVec fresh obj xs.length := by
        simp [resizeVec]
      rw [hstep, List.forall₂_cons, hrest]
      simp

theorem mem_resizeVec {obj : List α} {y : α} {n : Nat} (h : y ∈ resizeVec fresh obj n) :
    y ∈ obj ∨ y = fresh := by
  rw [resizeVec, List.mem_append] at h
  rcases h with h | h
  · exact .inl (List.mem_of_mem_take h)
  · exact .inr (List.eq_of_mem_replicate h)

theorem loadElems_settles {obj : List α} (h : xs.length < 2 ^ 64) (hfresh : ∀ x ∈ xs, C x fresh)
    (hf : ∀ x ∈ xs, ∀ y, y ∈ obj ∨ y = fresh →
      YieldsUnless (¬ C x y) (f y) (enc x) fun y' => R x y' ↔ C x y) :
    YieldsUnless (¬ ∀ p ∈ xs.zip obj, C p.1 p.2) (loadElems fresh f obj)
      (toBytes 8 xs.length ++ xs.flatMap enc) fun ys =>
        List.Forall₂ R xs ys ↔ ∀ p ∈ xs.zip obj, C p.1 p.2 := by
  refine (loadSize_yields h).bindUnless ?_
  rintro _ rfl
  have hlen : (resizeVec fresh obj xs.length).length = xs.length := by
    rw [resizeVec, List.length_append, List.length_take, List.length_replicate]
    omega
  rw [← forall₂_resizeVec hfresh]
  refine (yieldsUnless_mapM hlen fun y hy x hx => hf x hx y (mem_resizeVec hy)).mono ?_
  intro ys hys
  exact hys.2

section
variable {obj : Slots α}

/-- Where the slots of a resized vector come from. -/
theorem Slots.resize_slot (fresh : α) (hle : obj.length_ ≤ obj.slots.length) {n i : Nat}
    (hi : i < n) :
    (obj.resize fresh n).slots[i]? =
      if i < obj.length_ ∨ n < obj.slots.length then obj.slots[i]? else some (some fresh) := by
  unfold Slots.resize
  rw [if_neg (by omega)]
  by_cases hn : n < obj.slots.length
  · rw [if_pos hn, if_pos (.inr hn)]
  · rw [if_neg hn]
    have hlen : (obj.slots.take obj.length_).length = obj.length_ := List.length_take_of_le hle
    by_cases hil : i < obj.length_
    · rw [if_pos (.inl hil), List.getElem?_append_left (by omega), List.getElem?_take_of_lt hil]
    · rw [if_neg (by omega), List.getElem?_append_right (by omega), hlen,
        List.getElem?_replicate_of_lt (by omega)]

theorem Slots.length_resize (fresh : α) (hle : obj.length_ ≤ obj.slots.length) (n : Nat) :
    (obj.resize fresh n).length_ = n ∧ n ≤ (obj.resize fresh n).slots.length := by
  unfold Slots.resize
  split
  · rename_i h0
    exact ⟨h0.symm, by rw [h0]; exact Nat.zero_le _⟩
  · split
    · exact ⟨rfl, by simp only; omega⟩
    · refine ⟨rfl, ?_⟩
      rw [List.length_append, List.length_take, List.length_replicate]
      omega

theorem Slots.forall₂_resize (hle : obj.length_ ≤ obj.slots.length)
    (hfresh : ∀ x ∈ xs, C x fresh) :
    List.Forall₂ (fun s x => ∃ y ∈ s, C x y)
        ((obj.resize fresh xs.length).slots.take xs.length) xs ↔
      ∀ i x, xs[i]? = some x → (i < obj.length_ ∨ xs.length < obj.slots.length) →
        ∃ y, obj.slots[i]? = some (some y) ∧ C x y := by
  have hlen := (Slots.length_resize fresh hle xs.length).2
  rw [List.forall₂_iff_get]
  constructor
  · rintro ⟨-, hall⟩ i x hx hin
    obtain ⟨hi, rfl⟩ := List.getElem?_eq_some_iff.mp hx
    obtain ⟨y, hy, hc⟩ := hall i (by rw [List.length_take]; omega) hi
    refine ⟨y, ?_, hc⟩
    have hslot := Slots.resize_slot fresh hle hi
    rw [if_pos hin] at hslot
    rw [← hslot, List.getElem?_eq_getElem (by omega)]
    simpa using hy
  · intro hall
    refine ⟨by rw [List.length_take]; omega, fun i hi₁ hi => ?_⟩
    have hslot := Slots.resize_slot fresh hle hi
    rw [List.getElem?_eq_getElem (by omega)] at hslot
    simp only [List.get_eq_getElem, List.getElem_take]
    by_cases hin : i < obj.length_ ∨ xs.length < obj.slots.length
    · obtain ⟨y, hy, hc⟩ := hall i xs[i] (List.getElem?_eq_getElem hi) hin
      rw [if_pos hin, hy] at hslot
      exact ⟨y, Option.some.inj hslot, hc⟩
    · rw [if_neg hin] at hslot
      exact ⟨fresh, Option.some.inj hslot, hfresh _ (List.getElem_mem hi)⟩

theorem Slots.mem_resize {s : Option α} {n : Nat} (h : s ∈ (obj.resize fresh n).slots) :
    s ∈ obj.slots ∨ s = some fresh := by
  unfold Slots.resize at h
  split at h
  · exact .inl h
  · split at h
    · exact .inl h
    · rcases List.mem_append.mp h with h | h
      · exact .inl (List.mem_of_mem_take h)
      · exact .inr (List.eq_of_mem_replicate h)

theorem loadSlot_settles {x : ι} {s : Option α}
    (hf : ∀ y ∈ s, YieldsUnless (¬ C x y) (f y) (enc x) fun y' => R x y' ↔ C x y) :
    YieldsUnless (¬ ∃ y ∈ s, C x y) (loadSlot f s) (enc x) fun s' =>
      (∃ y ∈ s', R x y) ↔ ∃ y ∈ s, C x y := by
  cases s with
  | none => exact fun _ _ => .inl ⟨rfl, by simp⟩
  | some y =>
    have hy := hf y rfl
    simp only [Option.mem_some_iff, exists_eq_left'] at hy ⊢
    refine hy.map fun y' hy' => ?_
    simpa using hy'

theorem loadSlots_settles (h : xs.length < 2 ^ 64) (hle : obj.length_ ≤ obj.slots.length)
    (hfresh : ∀ x ∈ xs, C x fresh)
    (hf : ∀ x ∈ xs, ∀ y, some y ∈ obj.slots ∨ y = fresh →
      YieldsUnless (¬ C x y) (f y) (enc x) fun y' => R x y' ↔ C x y) :
    YieldsUnless
      (¬ ∀ i x, xs[i]? = some x → (i < obj.length_ ∨ xs.length < obj.slots.length) →
        ∃ y, obj.slots[i]? = some (some y) ∧ C x y)
      (loadSlots fresh f obj) (toBytes 8 xs.length ++ xs.flatMap enc) fun obj' =>
        List.Forall₂ (fun x s => ∃ y ∈ s, R x y) xs (obj'.slots.take obj'.length_) ↔
          ∀ i x, xs[i]? = some x → (i < obj.length_ ∨ xs.length < obj.slots.length) →
            ∃ y, obj.slots[i]? = some (some y) ∧ C x y := by
  refine (loadSize_yields h).bindUnless ?_
  rintro _ rfl
  obtain ⟨hlen, hroom⟩ := Slots.length_resize fresh hle xs.length
  have htake : ((obj.resize fresh xs.length).slots.take xs.length).length = xs.length :=
    List.length_take_of_le hroom
  have hslots : ∀ s ∈ (obj.resize fresh xs.length).slots.take xs.length, ∀ x ∈ xs,
      YieldsUnless (¬ ∃ y ∈ s, C x y) (loadSlot f s) (enc x) fun s' =>
        (∃ y ∈ s', R x y) ↔ ∃ y ∈ s, C x y := by
    intro s hs x hx
    refine loadSlot_settles fun y hy => hf x hx y ?_
    obtain rfl : s = some y := hy
    exact (Slots.mem_resize (List.mem_of_mem_take hs)).imp_right Option.some.inj
  rw [← Slots.forall₂_resize hle hfresh]
  refine (yieldsUnless_mapM htake hslots).map ?_
  rintro elems ⟨helems, hiff⟩
  simp only [hlen]
  rw [List.take_left' helems]
  exact hiff

theorem loadSlotArray_yields {w : Nat} {xs : List (Fin (256 ^ w))} (h : xs.length < 2 ^ 64)
    {obj : Slots (Fin (256 ^ w))} (hle : obj.length_ ≤ obj.slots.length) :
    Yields (loadSlotArray w obj) (toBytes 8 xs.length ++ xs.flatMap fun x => toBytes w x.val)
      fun obj' => List.Forall₂ (fun x s => ∃ y ∈ s, x = y) xs (obj'.slots.take obj'.length_) := by
  refine (loadSize_yields h).bind ?_
  rintro _ rfl
  obtain ⟨hlen, -⟩ := Slots.length_resize (number w []) hle xs.length
  have htake := yields_take (xs.flatMap fun x => toBytes w x.val)
  rw [length_flatMap_toBytes] at htake
  simp only [hlen]
  refine htake.map ?_
  rintro _ rfl
  simp only [numbers_toBytes]
  rw [List.take_left' (List.length_map _), List.forall₂_map_right_iff]
  exact List.forall₂_same.mpr fun x _ => ⟨x, rfl, rfl⟩

end

/-! ## Maps -/

section
variable {k : Atom} {xs : List (k.Val × ι)} {obj obj' : List (k.Val × α)}

/-- No two entries have equal keys. -/
def KeysDiffer {β : Type} (m : MapImpl) (k : Atom) (es : List (k.Val × β)) : Prop :=
  es.Pairwise fun e e' => m.keyEq k e.1 e'.1 = false

theorem KeysDiffer.eq {β : Type} (hm : m.Lawful) {es : List (k.Val × β)} (h : KeysDiffer m k es)
    {e e' : k.Val × β} (he : e ∈ es) (he' : e' ∈ es) (hkey : m.keyEq k e.1 e'.1 = true) :
    e = e' := by
  by_contra hne
  have hsymm : Std.Symm fun e e' : k.Val × β => m.keyEq k e.1 e'.1 = false :=
    ⟨fun a b hab => (hm.symm k b.1 a.1).trans hab⟩
  have := List.Pairwise.forall h he he' hne
  rw [hkey] at this
  cases this

theorem KeysDiffer.nodup {β : Type} (hm : m.Lawful) {es : List (k.Val × β)}
    (h : KeysDiffer m k es) : es.Nodup :=
  h.imp fun hkey he => by
    rw [he, hm.refl] at hkey
    cases hkey

/-- What a map that was `obj` is after the entries `pre` of `xs` are read. -/
structure Merged (m : MapImpl) (R : ι → α → Prop) (xs : List (k.Val × ι))
    (obj : List (k.Val × α)) (pre : List (k.Val × ι)) (obj' : List (k.Val × α)) : Prop where
  differ : KeysDiffer m k obj'
  kept : ∀ e ∈ obj, ∃ e' ∈ obj', e'.1 = e.1
  known : (∀ e ∈ obj, ∃ x ∈ xs, x.1 = e.1) → ∀ e ∈ obj', ∃ x ∈ xs, x.1 = e.1
  loaded : (∀ e ∈ obj, ∃ x ∈ xs, x.1 = e.1) → ∀ x ∈ pre, ∃ e ∈ obj', e.1 = x.1 ∧ R x.2 e.2

/-- The key is there: its value is replaced. -/
theorem Merged.replace (hm : m.Lawful) (hxs : KeysDiffer m k xs) {pre post : List (k.Val × ι)}
    {x : k.Val × ι} (hsplit : xs = pre ++ x :: post) (h : Merged m R xs obj pre obj') {val : α}
    (hval : R x.2 val) (hany : ∃ e ∈ obj', m.keyEq k e.1 x.1 = true) :
    Merged m R xs obj (pre ++ [x])
      (obj'.map fun e => if m.keyEq k e.1 x.1 then (e.1, val) else e) := by
  have hx : x ∈ xs := by rw [hsplit]; exact List.mem_append_right _ List.mem_cons_self
  have hfst : ∀ e : k.Val × α, (if m.keyEq k e.1 x.1 then (e.1, val) else e).1 = e.1 := by
    intro e
    split <;> rfl
  refine ⟨?_, fun e he => ?_, fun hc e he => ?_, fun hc y hy => ?_⟩
  · rw [KeysDiffer, List.pairwise_map]
    simp only [hfst]
    exact h.differ
  · obtain ⟨e', he', heq⟩ := h.kept e he
    exact ⟨_, List.mem_map_of_mem he', (hfst e').trans heq⟩
  · obtain ⟨e', he', rfl⟩ := List.mem_map.mp he
    obtain ⟨y, hy, heq⟩ := h.known hc e' he'
    exact ⟨y, hy, heq.trans (hfst e').symm⟩
  · rcases List.mem_append.mp hy with hy | hy
    · obtain ⟨e, he, heq, hr⟩ := h.loaded hc y hy
      -- the keys read before are other keys
      have hne : m.keyEq k e.1 x.1 = false := by
        rw [hsplit] at hxs
        rw [heq]
        exact (List.pairwise_append.mp hxs).2.2 y hy x List.mem_cons_self
      refine ⟨e, List.mem_map.mpr ⟨e, he, ?_⟩, heq, hr⟩
      rw [hne]
      rfl
    · cases List.mem_singleton.mp hy
      obtain ⟨e, he, hkey⟩ := hany
      obtain ⟨y, hy, heq⟩ := h.known hc e he
      obtain rfl := hxs.eq hm hy hx (heq ▸ hkey)
      refine ⟨(e.1, val), List.mem_map.mpr ⟨e, he, ?_⟩, heq.symm, hval⟩
      rw [hkey]
      rfl

/-- The key is new. -/
theorem Merged.insert (hm : m.Lawful) {pre : List (k.Val × ι)} {x : k.Val × ι} (hx : x ∈ xs)
    (h : Merged m R xs obj pre obj') {val : α} (hval : R x.2 val)
    (hany : ∀ e ∈ obj', m.keyEq k e.1 x.1 = false) :
    Merged m R xs obj (pre ++ [x]) (m.order (obj' ++ [(x.1, val)])) := by
  have hperm := m.order_perm (obj' ++ [(x.1, val)])
  have hmem : ∀ e, e ∈ m.order (obj' ++ [(x.1, val)]) ↔ e ∈ obj' ∨ e = (x.1, val) := by
    intro e
    rw [hperm.mem_iff, List.mem_append, List.mem_singleton]
  refine ⟨?_, fun e he => ?_, fun hc e he => ?_, fun hc y hy => ?_⟩
  · have hsymm : ∀ {e e' : k.Val × α}, m.keyEq k e.1 e'.1 = false → m.keyEq k e'.1 e.1 = false :=
      fun {a b} hab => (hm.symm k b.1 a.1).trans hab
    rw [KeysDiffer, hperm.pairwise_iff hsymm, List.pairwise_append]
    refine ⟨h.differ, List.pairwise_singleton .., fun e he e' he' => ?_⟩
    cases List.mem_singleton.mp he'
    exact hany e he
  · obtain ⟨e', he', heq⟩ := h.kept e he
    exact ⟨e', (hmem e').mpr (.inl he'), heq⟩
  · rcases (hmem e).mp he with he | rfl
    · exact h.known hc e he
    · exact ⟨x, hx, rfl⟩
  · rcases List.mem_append.mp hy with hy | hy
    · obtain ⟨e, he, heq, hr⟩ := h.loaded hc y hy
      exact ⟨e, (hmem e).mpr (.inl he), heq, hr⟩
    · cases List.mem_singleton.mp hy
      exact ⟨_, (hmem _).mpr (.inr rfl), rfl, hval⟩

/-- When all the entries are read, the map is `xs` if it had no other keys. -/
theorem Merged.mapIs_iff (hm : m.Lawful) (hxs : KeysDiffer m k xs)
    (h : Merged m R xs obj xs obj') :
    MapIs R xs obj' ↔ ∀ e ∈ obj, ∃ x ∈ xs, x.1 = e.1 := by
  constructor
  · rintro ⟨zs, hperm, hzs⟩ e he
    obtain ⟨e', he', heq⟩ := h.kept e he
    obtain ⟨i, hi, rfl⟩ := List.mem_iff_getElem.mp (hperm.symm.subset he')
    obtain ⟨hlen, hall⟩ := List.forall₂_iff_get.mp hzs
    exact ⟨xs[i], List.getElem_mem _, (hall i (hlen ▸ hi) hi).1.trans heq⟩
  · intro hc
    have hpick : ∀ x ∈ xs, ∃ e ∈ obj', x.1 = e.1 ∧ R x.2 e.2 := fun x hx => by
      obtain ⟨e, he, heq, hr⟩ := h.loaded hc x hx
      exact ⟨e, he, heq.symm, hr⟩
    obtain ⟨zs, hmem, hzs⟩ : ∃ zs : List (k.Val × α), (∀ z ∈ zs, z ∈ obj') ∧
        List.Forall₂ (fun x z => x.1 = z.1 ∧ R x.2 z.2) xs zs := by
      clear h hxs hc
      induction xs with
      | nil => exact ⟨[], nofun, .nil⟩
      | cons x xs ih =>
        obtain ⟨e, he, hr⟩ := hpick x List.mem_cons_self
        obtain ⟨zs, hmem, hzs⟩ := ih fun y hy => hpick y (List.mem_cons_of_mem _ hy)
        exact ⟨e :: zs, List.forall_mem_cons.mpr ⟨he, hmem⟩, .cons hr hzs⟩
    have hfst : xs.map (·.1) = zs.map (·.1) := by
      rw [← List.forall₂_eq_eq_eq, List.forall₂_map_left_iff, List.forall₂_map_right_iff]
      exact hzs.imp fun _ _ h => h.1
    have hnodup : zs.Nodup := by
      have hkeys : (xs.map (·.1)).Nodup := by
        refine List.pairwise_map.mpr (List.Pairwise.imp (fun hkey he => ?_) hxs)
        rw [he, hm.refl] at hkey
        cases hkey
      rw [hfst] at hkeys
      exact List.Nodup.of_map _ hkeys
    refine ⟨zs, (List.perm_ext_iff_of_nodup hnodup (h.differ.nodup hm)).mpr fun e => ?_, hzs⟩
    refine ⟨hmem e, fun he => ?_⟩
    obtain ⟨x, hx, heq⟩ := h.known hc e he
    have hfx : x.1 ∈ zs.map (·.1) := hfst ▸ List.mem_map_of_mem hx
    obtain ⟨z, hz, hzx⟩ := List.mem_map.mp hfx
    have hkey : m.keyEq k z.1 e.1 = true := by rw [hzx, heq, hm.refl]
    exact h.differ.eq hm (hmem z hz) he hkey ▸ hz

theorem loadMap_settles (hm : m.Lawful) (h : xs.length < 2 ^ 64) (hxs : KeysDiffer m k xs)
    (hk : ∀ e ∈ xs, k.Wf e.1) (hf : ∀ e ∈ xs, Yields (f fresh) (enc e.2) (R e.2))
    (hobj : KeysDiffer m k obj) :
    Yields (loadMap m k fresh f obj)
      (toBytes 8 xs.length ++ xs.flatMap fun e => k.bytes e.1 ++ enc e.2)
      fun obj' => MapIs R xs obj' ↔ ∀ e ∈ obj, ∃ x ∈ xs, x.1 = e.1 := by
  refine (loadSize_yields h).bind ?_
  rintro _ rfl
  refine (yields_foldlM (Merged m R xs obj) List.length_range
    ⟨hobj, fun e he => ⟨e, he, rfl⟩, fun hc => hc, nofun⟩ ?_).mono fun _ => Merged.mapIs_iff hm hxs
  intro pre x post obj' _ hsplit hmerged
  have hx : x ∈ xs := by
    rw [hsplit]
    exact List.mem_append_right _ List.mem_cons_self
  refine (loadAtom_yields k (hk x hx) k.fresh).bind ?_
  rintro _ rfl
  refine (hf x hx).map fun val hval => ?_
  unfold MapImpl.assign
  by_cases hany : ∃ e ∈ obj', m.keyEq k e.1 x.1 = true
  · rw [if_pos (List.any_eq_true.mpr hany)]
    exact hmerged.replace hm hxs hsplit hval hany
  · have hnone : ∀ e ∈ obj', m.keyEq k e.1 x.1 = false := fun e he => by
      rw [Bool.eq_false_iff]
      exact fun hkey => hany ⟨e, he, hkey⟩
    rw [if_neg fun h => hany (List.any_eq_true.mp h)]
    exact hmerged.insert hm hx hval hnone

end

/-! ## All classes -/

section
variable {c : Class}

theorem Class.clean_fresh (c : Class) (x : c.ty.Val) : c.Clean x c.fresh := by
  cases c with
  | atom a => trivial
  | std_vector c => exact fun p hp => absurd (List.of_mem_zip hp).2 List.not_mem_nil
  | vector c =>
    refine .inr fun i y _ hin => ?_
    change i < 0 ∨ _ < 0 at hin
    omega
  | list c => rfl
  | unordered_map k c => exact nofun

theorem Class.wf_fresh (m : MapImpl) (c : Class) : c.Wf m c.fresh := by
  cases c with
  | atom a => trivial
  | std_vector c => exact nofun
  | vector c => exact ⟨Nat.le_refl 0, nofun⟩
  | list c => trivial
  | unordered_map k c => exact .nil

/-- What is shown of a class by induction. -/
def Class.Settles (m : MapImpl) (c : Class) : Prop :=
  ∀ (x : c.ty.Val) (obj : c.Obj), c.ty.Wf m x → c.Wf m obj →
    YieldsUnless (¬ c.Clean x obj) (c.load m obj) (c.ty.bytes x) fun obj' =>
      c.Is x obj' ↔ c.Clean x obj

theorem Class.Settles.onto_fresh (h : c.Settles m) {x : c.ty.Val} (hx : c.ty.Wf m x) :
    Yields (c.load m c.fresh) (c.ty.bytes x) (c.Is x) := by
  have hclean := c.clean_fresh x
  refine ((h x c.fresh hx (c.wf_fresh m)).yields fun hn => hn hclean).mono fun obj' hiff => ?_
  exact hiff.mpr hclean

theorem Class.Settles.std_vector (ih : c.Settles m) : c.std_vector.Settles m := by
  intro (xs : List c.ty.Val) (obj : List c.Obj) hx hobj
  have hfresh : ∀ x ∈ xs, c.Clean x c.fresh := fun x _ => c.clean_fresh x
  have hf : ∀ x ∈ xs, ∀ y, y ∈ obj ∨ y = c.fresh →
      YieldsUnless (¬ c.Clean x y) (c.load m y) (c.ty.bytes x) fun y' =>
        c.Is x y' ↔ c.Clean x y := by
    rintro x hx' y (hy | rfl)
    · exact ih x y (hx.2 x hx') (hobj y hy)
    · exact ih x _ (hx.2 x hx') (c.wf_fresh m)
  match c, xs with
  | .atom (.arithmetic w), xs =>
    refine ((loadArray_yields hx.1).mono ?_).unless
    rintro ys rfl
    exact ⟨fun _ _ _ => trivial, fun _ => List.forall₂_same.mpr fun _ _ => rfl⟩
  | .atom .string, xs | .std_vector _, xs | .vector _, xs | .list _, xs | .unordered_map _ _, xs =>
    exact loadElems_settles hx.1 hfresh hf

theorem Class.Settles.vector (ih : c.Settles m) : c.vector.Settles m := by
  intro (xs : List c.ty.Val) (obj : Slots c.Obj) hx hobj
  have hfresh : ∀ x ∈ xs, c.Clean x c.fresh := fun x _ => c.clean_fresh x
  have hf : ∀ x ∈ xs, ∀ y, some y ∈ obj.slots ∨ y = c.fresh →
      YieldsUnless (¬ c.Clean x y) (c.load m y) (c.ty.bytes x) fun y' =>
        c.Is x y' ↔ c.Clean x y := by
    rintro x hx' y (hy | rfl)
    · exact ih x y (hx.2 x hx') (hobj.2 _ hy y rfl)
    · exact ih x _ (hx.2 x hx') (c.wf_fresh m)
  match c, xs, obj with
  | .atom (.arithmetic w), xs, obj =>
    refine ((loadSlotArray_yields hx.1 hobj.1).mono fun obj' hobj' => ?_).unless
    exact ⟨fun _ => .inl rfl, fun _ => hobj'⟩
  | .atom .string, xs, obj | .std_vector _, xs, obj | .vector _, xs, obj | .list _, xs, obj
  | .unordered_map _ _, xs, obj =>
    intro before after
    rcases loadSlots_settles hx.1 hobj.1 hfresh hf before after with ⟨hn, hd⟩ | ⟨o, ho, hiff⟩
    · exact .inl ⟨hn, fun hc => hd (hc.resolve_left Bool.false_ne_true)⟩
    · exact .inr ⟨o, ho, hiff.trans (or_iff_right Bool.false_ne_true).symm⟩

theorem Class.Settles.list (ih : c.Settles m) : c.list.Settles m := by
  intro (xs : List c.ty.Val) (obj : List c.Obj) hx hobj
  refine ((loadList_appends hx.1 (fun x hx' => ih.onto_fresh (hx.2 x hx')) obj).mono ?_).unless
  rintro _ ⟨new, rfl, hnew⟩
  constructor
  · intro his
    have hlen : xs.length = (obj ++ new).length := List.Forall₂.length_eq his
    rw [List.length_append, ← hnew.length_eq] at hlen
    exact List.eq_nil_of_length_eq_zero (by omega)
  · rintro rfl
    exact hnew

theorem Class.Settles.unordered_map (hm : m.Lawful) (k : Atom) (ih : c.Settles m) :
    (Class.unordered_map k c).Settles m := by
  intro (xs : List (k.Val × c.ty.Val)) (obj : List (k.Val × c.Obj)) hx hobj
  exact (loadMap_settles hm hx.1 hx.2.1 (fun e he => (hx.2.2 e he).1)
    (fun e he => ih.onto_fresh (hx.2.2 e he).2) hobj).unless

/-- **A load of `x` gives `x` exactly if nothing of the object shows.** -/
theorem Class.settles (hm : m.Lawful) (c : Class) : c.Settles m := by
  induction c with
  | atom a =>
    intro x obj hx _
    refine ((loadAtom_yields a hx obj).mono fun y hy => ?_).unless
    exact ⟨fun _ => trivial, fun _ => hy.symm⟩
  | std_vector c ih => exact ih.std_vector
  | vector c ih => exact ih.vector
  | list c ih => exact ih.list
  | unordered_map k c ih => exact ih.unordered_map hm k

end

/-- Loading the bytes of `x` into the object gives it the value `x`. -/
def LoadsBack (m : MapImpl) (b : Resize) (c : Class) (x : c.ty.Val) (obj : c.Obj)
    (data_ : List UInt8) : Prop :=
  ∃ obj' cur_off_, c.load m obj (save b c.ty x data_) data_.length = some (obj', cur_off_) ∧
    c.Is x obj'

/-- **Loading into objects.** A load of a saved value leaves an object equal to it exactly
if nothing of the object shows; a fresh object always. -/
theorem loads_back_iff (hm : m.Lawful) (b : Resize) (c : Class) {x : c.ty.Val} (hx : c.ty.Wf m x)
    (data_ : List UInt8) :
    LoadsBack m b c x c.fresh data_ ∧
      ∀ obj : c.Obj, c.Wf m obj → (LoadsBack m b c x obj data_ ↔ c.Clean x obj) := by
  have hall : ∀ obj : c.Obj, c.Wf m obj → (LoadsBack m b c x obj data_ ↔ c.Clean x obj) := by
    intro obj hobj
    have hset := c.settles hm x obj hx hobj data_ []
    rw [List.append_nil, ← save_eq (b := b)] at hset
    constructor
    · rintro ⟨obj', off, hload, his⟩
      rcases hset with ⟨hn, -⟩ | ⟨o, ho, hiff⟩
      · rw [hload] at hn
        cases hn
      · cases hload.symm.trans ho
        exact hiff.mp his
    · intro hc
      rcases hset with ⟨-, hn⟩ | ⟨o, ho, hiff⟩
      · exact absurd hc hn
      · exact ⟨o, _, ho, hiff.mpr hc⟩
  exact ⟨(hall c.fresh (c.wf_fresh m)).mpr (c.clean_fresh x), hall⟩

/-- A `std::unordered_map` with the key of the value, and another vector for it. -/
theorem loads_back_iff_same_key : LoadsBack default default
    (.unordered_map .string (.vector (.atom (.arithmetic 1))))
    [([107], ([1, 2] : List (Fin 256)))]
    [([107], ({ slots := [some 7, none, some 9], length_ := 1 } : Slots (Fin 256)))] [] := by
  have hm : (default : MapImpl).Lawful := by
    refine ⟨fun k x => beq_self_eq_true x, fun k x y => ?_⟩
    exact Bool.beq_comm
  have hx : Ty.Wf default (Class.unordered_map .string (.vector (.atom (.arithmetic 1)))).ty
      [([107], ([1, 2] : List (Fin 256)))] := by
    refine ⟨by decide, List.pairwise_singleton .., fun e he => ?_⟩
    cases List.mem_singleton.mp he
    exact ⟨(by decide : 1 < 2 ^ 64), (by decide : 2 < 2 ^ 64), fun _ _ => trivial⟩
  refine ((loads_back_iff hm default _ hx []).2 _ (List.pairwise_singleton ..)).mpr fun e he => ?_
  cases List.mem_singleton.mp he
  exact ⟨_, List.mem_singleton_self _, rfl⟩

/-- A list that has an element keeps it when the empty list is loaded. -/
theorem loaded_list_keeps : ¬ ∀ (c : Class) (x : c.ty.Val) (obj : c.Obj) (data_ : List UInt8),
    c.ty.Wf default x → c.Wf default obj → LoadsBack default default c x obj data_ := by
  intro h
  obtain ⟨obj', off, hload, his⟩ := h (.list (.atom (.arithmetic 1))) ([] : List (Fin 256))
    ([5] : List (Fin 256)) [] ⟨by decide, nofun⟩ trivial
  have hkeeps : Class.load default (.list (.atom (.arithmetic 1))) ([5] : List (Fin 256))
      (save default (Class.list (.atom (.arithmetic 1))).ty ([] : List (Fin 256)) [])
      0 = some (([5] : List (Fin 256)), 8) := by
    rfl
  cases hload.symm.trans hkeeps
  cases his

end HermesShm.Serialization
