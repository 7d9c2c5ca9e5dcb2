import HermesShm.Base.Ledger
import Mathlib.Logic.Function.Basic

/-! # Objects that own blocks

What a class of objects does with the blocks of the allocators: its constructors
take them, its destructor gives them back, and moves hand them over. -/
namespace HermesShm.Ipc.Lifetime
open HermesShm.Base

/-- A block: the allocator, by its id, and the offset in it. -/
abbrev Block := Nat × Nat

abbrev Heap := Ledger Block

/-- What the allocators decide, by all that happened before: where a block goes, and
whether a block that is reallocated stays in its place. -/
structure Placement where
  place : Nat → List Block → Nat → Nat
  fresh : ∀ calls live a, (a, place calls live a) ∉ live
  inPlace : Nat → Bool

/-- Behind every block of the allocator that is allocated. -/
def Placement.upward : Placement where
  place _ live a := ((live.filter (·.1 = a)).map (·.2 + 1)).foldr max 0
  fresh := by
    have hle : ∀ (live : List Block) (b : Block), b ∈ live →
        b.2 + 1 ≤ ((live.filter (·.1 = b.1)).map (·.2 + 1)).foldr max 0 := by
      intro live b hb
      induction live with
      | nil => cases hb
      | cons c live ih =>
        rcases List.mem_cons.mp hb with rfl | hb
        · simp
        · have h := ih hb
          by_cases hc : c.1 = b.1
          · simp only [List.filter_cons, hc, decide_true, if_true, List.map_cons, List.foldr_cons]
            exact h.trans (le_max_right _ _)
          · simpa [List.filter_cons, hc] using h
    intro _ live a hmem
    exact absurd (hle live _ hmem) (by simp)
  inPlace _ := false

/-- `Allocate`; there is space. -/
def allocate (P : Placement) (l : Heap) (a : Nat) : Nat × Heap :=
  let off := P.place l.calls l.live a
  (off, l.take (a, off))

/-- `Free`; the pointer is not null. -/
def free (l : Heap) (a off : Nat) : Heap := l.give (a, off)

/-- `Reallocate` of a pointer that is not null. -/
def reallocate (P : Placement) (l : Heap) (a off : Nat) : Nat × Heap :=
  if P.inPlace l.calls then (off, { l with calls := l.calls + 1 })
  else
    let (new_off, l) := allocate P l a
    (new_off, free l a off)

section
variable {P : Placement} {l : Heap} {F : Multiset Block} {a off : Nat}

theorem allocate_holds (h : l.Holds F) :
    (allocate P l a).2.Holds ({(a, (allocate P l a).1)} + F) :=
  h.take (P.fresh _ _ _)

theorem free_holds (h : l.Holds ({(a, off)} + F)) : (free l a off).Holds F := h.give

theorem free_gives (l : Heap) (a off : Nat) : l.Gives {(a, off)} (free l a off) :=
  Ledger.gives_give l _

theorem allocate_gives (P : Placement) (l : Heap) (a : Nat) : l.Gives 0 (allocate P l a).2 :=
  Ledger.gives_take l _

theorem reallocate_gives (P : Placement) (l : Heap) (a off : Nat) :
    ∃ m ≤ ({(a, off)} : Multiset Block), l.Gives m (reallocate P l a off).2 := by
  unfold reallocate
  split
  · exact ⟨0, Multiset.zero_le _, Ledger.Gives.refl l⟩
  · exact ⟨_, le_rfl, ((allocate_gives P l a).trans (free_gives _ a off)).congr (zero_add _)⟩

theorem reallocate_holds (h : l.Holds ({(a, off)} + F)) :
    (reallocate P l a off).2.Holds ({(a, (reallocate P l a off).1)} + F) := by
  unfold reallocate
  split
  · exact ⟨h.live, h.nodup, h.misfreed⟩
  · have hnew := allocate_holds (P := P) (a := a) h
    exact free_holds (hnew.congr (add_left_comm _ _ _))

end

/-- A class of objects `ε`, constructed from arguments `α`. -/
structure ElemType (ε α : Type) where
  /-- `std::is_pod<T>() && !IS_SHM_ARCHIVEABLE(T)`. -/
  pod : Bool
  /-- The bytes of an array after so many calls, where nothing was constructed. -/
  raw : Nat → Nat → ε
  noArgs : α
  construct : Heap → Nat → α → ε × Heap
  /-- `T(alloc, const T &other)`, of an object in a block or somewhere else. -/
  copy : Heap → Nat → Option Block → ε → ε × Heap
  /-- `T(alloc, T &&other)` in the given bytes: the new object and what is left of the
  other. -/
  move : Heap → Nat → ε → ε → ε × ε × Heap
  /-- `~T()`. -/
  destroy : Heap → ε → ε × Heap

/-- The arguments of `emplace`. -/
inductive Args (ε α : Type)
  | args (x : α)
  | copyOf (at_ : Option Block) (other : ε)

/-- `HSHM_MAKE_AR`. -/
def ElemType.make {ε α : Type} (T : ElemType ε α) (l : Heap) (a : Nat) : Args ε α → ε × Heap
  | .args x => T.construct l a x
  | .copyOf at_ other => T.copy l a at_ other

/-- What objects of a class own, and that its members keep to it. `Ok a` is an object
that was constructed with the allocator `a` and not yet destroyed. -/
structure Ownership {ε α : Type} (T : ElemType ε α) where
  owns : ε → Multiset Block
  Ok : Nat → ε → Prop
  /-- What the arguments refer to is there. -/
  ArgsOk : α → Prop
  noArgs_ok : ArgsOk T.noArgs
  pod_owns : T.pod = true → ∀ e, owns e = 0
  pod_ok : T.pod = true → ∀ a e, Ok a e
  construct_holds : ∀ l a x F, ArgsOk x → l.Holds F →
    (T.construct l a x).2.Holds (owns (T.construct l a x).1 + F) ∧ Ok a (T.construct l a x).1
  copy_holds : ∀ l a at_ a' e F, Ok a' e → l.Holds F →
    (T.copy l a at_ e).2.Holds (owns (T.copy l a at_ e).1 + F) ∧ Ok a (T.copy l a at_ e).1
  /-- Elements move inside one allocator. -/
  move_holds : ∀ l a r e F, Ok a e → l.Holds (owns e + F) →
    (T.move l a r e).2.2.Holds (owns (T.move l a r e).1 + F) ∧ Ok a (T.move l a r e).1
  destroy_holds : ∀ l a e F, Ok a e → l.Holds (owns e + F) → (T.destroy l e).2.Holds F

namespace Ownership

variable {ε α : Type} {T : ElemType ε α} (O : Ownership T)

def MakeOk : Args ε α → Prop
  | .args x => O.ArgsOk x
  | .copyOf _ other => ∃ a, O.Ok a other

theorem make_holds (l : Heap) (a : Nat) (x : Args ε α) (F : Multiset Block) (hx : O.MakeOk x)
    (h : l.Holds F) :
    (T.make l a x).2.Holds (O.owns (T.make l a x).1 + F) ∧ O.Ok a (T.make l a x).1 := by
  cases x with
  | args x => exact O.construct_holds l a x F hx h
  | copyOf at_ other =>
    obtain ⟨a', hok⟩ := hx
    exact O.copy_holds l a at_ a' other F hok h

end Ownership

/-- A class of plain values: no member allocates. -/
def ElemType.plain {ν : Type} (pod : Bool) (raw : Nat → Nat → ν) (zero : ν) : ElemType ν ν where
  pod
  raw
  noArgs := zero
  construct l _ x := (x, l)
  copy l _ _ e := (e, l)
  move l _ _ e := (e, e, l)
  destroy l e := (e, l)

def ElemType.plainOwnership {ν : Type} (pod : Bool) (raw : Nat → Nat → ν) (zero : ν) :
    Ownership (ElemType.plain pod raw zero) where
  owns _ := 0
  Ok _ _ := True
  ArgsOk _ := True
  noArgs_ok := trivial
  pod_owns _ _ := rfl
  pod_ok _ _ _ := trivial
  construct_holds _ _ _ F _ h := ⟨h.congr (zero_add F).symm, trivial⟩
  copy_holds _ _ _ _ _ F _ h := ⟨h.congr (zero_add F).symm, trivial⟩
  move_holds _ _ _ _ _ _ h := ⟨h, trivial⟩
  destroy_holds _ _ _ F _ h := h.congr (zero_add F)

/-- Objects with what goes along to a copy of them, as the characters of a string do. -/
def ElemType.carrying {ε α κ : Type} (T : ElemType ε α) (nothing : κ) :
    ElemType (ε × κ) (α × κ) where
  pod := T.pod
  raw calls i := (T.raw calls i, nothing)
  noArgs := (T.noArgs, nothing)
  construct l a x :=
    let r := T.construct l a x.1
    ((r.1, x.2), r.2)
  copy l a at_ e :=
    let r := T.copy l a at_ e.1
    ((r.1, e.2), r.2)
  move l a raw e :=
    let r := T.move l a raw.1 e.1
    ((r.1, e.2), (r.2.1, nothing), r.2.2)
  destroy l e :=
    let r := T.destroy l e.1
    ((r.1, nothing), r.2)

def Ownership.carrying {ε α κ : Type} {T : ElemType ε α} (O : Ownership T) (nothing : κ) :
    Ownership (T.carrying nothing) where
  owns e := O.owns e.1
  Ok a e := O.Ok a e.1
  ArgsOk x := O.ArgsOk x.1
  noArgs_ok := O.noArgs_ok
  pod_owns h e := O.pod_owns h e.1
  pod_ok h a e := O.pod_ok h a e.1
  construct_holds l a x := O.construct_holds l a x.1
  copy_holds l a at_ a' e := O.copy_holds l a at_ a' e.1
  move_holds l a raw e := O.move_holds l a raw.1 e.1
  destroy_holds l a e := O.destroy_holds l a e.1

end HermesShm.Ipc.Lifetime
