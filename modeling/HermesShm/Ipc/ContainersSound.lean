import HermesShm.Ipc.Containers
import Mathlib.Data.Fintype.BigOperators

/-! # What is allocated is owned

In every run whose calls are guarded, the blocks allocated are those that live
containers and their elements own, and no block is given back twice. -/
namespace HermesShm.Ipc.Containers
open HermesShm.Base HermesShm.Ipc.Lifetime HermesShm.Ipc.HipcString HermesShm.Ipc.VectorLifetime
  HermesShm.Ipc.RingLifetime

variable {ε α : Type} {P : Placement} {C : RingClass ε α} (O : Ownership C.T)

namespace Obj

def owns : Obj ε → Multiset Block
  | vector v => v.owns O
  | string c s => s.owns c
  | ring q => q.owns O

def Ok : Obj ε → Prop
  | vector v => v.Ok O v.alloc
  | string c s => s.Ok c
  | ring q => q.Ok O

/-! ## The guards -/

/-- The arguments of the elements are there. -/
def NewOk : New α → Prop
  | .length _ x => O.ArgsOk x
  | .default | .text _ _ => True

/-- A ring queue is copied into bytes that say that its vector is null. -/
def CopyCtorOk : Obj ε → Prop
  | ring raw => raw.queue_.Blank
  | vector _ | string _ _ => True

/-- A vector moves inside one allocator, or into bytes that say that it is null. A
string with a block moves inside one allocator, or into bytes without the mark of a
wrapped string. -/
def MoveCtorOk (a : Nat) : Obj ε → Obj ε → Prop
  | vector raw, vector other => a = other.alloc ∨ raw.Blank
  | string c raw, string _ other =>
    raw.is_wrap_ = true → a = other.alloc ∨ ¬ other.isHeap c
  | ring raw, ring other =>
    raw.queue_.Blank ∨ a = other.alloc ∧ raw.queue_.alloc = other.queue_.alloc
  | _, _ => True

/-- The target of a move inside one allocator has no block, the target of a moved
string in no case. A string with a block moves onto a wrapped one only inside one
allocator. Where the elements are put behind others there is the room for it. -/
def MoveAssignOk (C : RingClass ε α) : Obj ε → Obj ε → Prop
  | vector v, vector other =>
    (v.alloc = other.alloc → v.vec_ptr_ = none) ∧
      (v.alloc ≠ other.alloc → Vec.CopyFits C.T v other)
  | string c s, string _ other =>
    ¬ s.isHeap c ∧ (s.is_wrap_ = true → s.alloc = other.alloc ∨ ¬ other.isHeap c)
  | ring q, ring other =>
    (q.alloc = other.alloc → q.queue_.alloc = other.queue_.alloc → q.isNull = true) ∧
      (q.alloc = other.alloc → q.queue_.alloc ≠ other.queue_.alloc →
        Vec.CopyFits C.pair q.queue_ other.queue_)
  | _, _ => True

/-- `const char *` is not assigned to a string with a block. A vector that a push finds
full can grow by a quarter. A resize of a vector keeps to its elements. Of the ring
queues those are resized that are null. -/
def CallOk : Obj ε → Member α → Prop
  | string c s, .assignText _ _ => ¬ s.isHeap c
  | vector v, .push _ x => O.ArgsOk x ∧ v.Spacious 1
  | vector v, .resize _ n x => O.ArgsOk x ∧ Vec.KeepsElems O v n
  | ring q, .push _ x => O.ArgsOk x ∧ (C.space = .dynamicSize → q.Full → q.isNull = true)
  | ring q, .resize _ _ _ => q.isNull = true
  | _, _ => True

end Obj

variable {ι : Type}

/-- The condition on a call in a state. -/
def Guarded (σ : State ι ε) : Op ι ε α → Prop
  | .construct _ _ _ x => Obj.NewOk O x
  | .copyConstruct _ raw _ _ => raw.CopyCtorOk
  | .moveConstruct _ raw a other => ∀ o ∈ σ.objects other, raw.MoveCtorOk a o
  | .copyAssign _ _ => True
  | .moveAssign i other =>
    i ≠ other → ∀ t ∈ σ.objects i, ∀ o ∈ σ.objects other, t.MoveAssignOk C o
  | .call i m => ∀ o ∈ σ.objects i, o.CallOk O m
  | .destroy _ => True

section
variable {O}

instance (v : Vec ε) : Decidable v.Blank := inferInstanceAs (Decidable (_ ∧ _ ∧ _))

instance : (raw : Obj ε) → Decidable raw.CopyCtorOk
  | .ring _ => inferInstanceAs (Decidable (Vec.Blank _))
  | .vector _ | .string _ _ => isTrue trivial

instance (a : Nat) : (raw other : Obj ε) → Decidable (raw.MoveCtorOk a other)
  | .vector _, .vector _ => inferInstanceAs (Decidable (_ ∨ _))
  | .string _ _, .string _ _ => inferInstanceAs (Decidable (_ → _))
  | .ring _, .ring _ => inferInstanceAs (Decidable (_ ∨ _))
  | .vector _, .string _ _ | .vector _, .ring _ | .string _ _, .vector _ | .string _ _, .ring _
  | .ring _, .vector _ | .ring _, .string _ _ => isTrue trivial

instance (v : Vec ε) (n : Nat) : Decidable (v.Spacious n) :=
  inferInstanceAs (Decidable (_ ∨ _))

instance {β δ : Type} (T : ElemType β δ) (v other : Vec β) : Decidable (Vec.CopyFits T v other) :=
  inferInstanceAs (Decidable (_ ∨ _ ∨ _))

instance : (t other : Obj ε) → Decidable (t.MoveAssignOk C other)
  | .vector _, .vector _ => inferInstanceAs (Decidable ((_ → _) ∧ (_ → _)))
  | .string _ _, .string _ _ => inferInstanceAs (Decidable (_ ∧ _))
  | .ring _, .ring _ => inferInstanceAs (Decidable ((_ → _ → _) ∧ (_ → _ → _)))
  | .vector _, .string _ _ | .vector _, .ring _ | .string _ _, .vector _ | .string _ _, .ring _
  | .ring _, .vector _ | .ring _, .string _ _ => isTrue trivial

variable [DecidablePred O.ArgsOk]

instance : (x : New α) → Decidable (Obj.NewOk O x)
  | .length _ _ => inferInstanceAs (Decidable (O.ArgsOk _))
  | .default | .text _ _ => isTrue trivial

instance (v : Vec ε) (n : Nat) : Decidable (Vec.KeepsElems O v n) :=
  inferInstanceAs (Decidable (_ ∨ _ ∨ _))

instance : (o : Obj ε) → (m : Member α) → Decidable (o.CallOk O m)
  | .vector _, .push _ _ => inferInstanceAs (Decidable (_ ∧ _))
  | .vector _, .resize _ _ _ => inferInstanceAs (Decidable (_ ∧ _))
  | .string _ _, .assignText _ _ => inferInstanceAs (Decidable (¬ _))
  | .ring _, .push _ _ => inferInstanceAs (Decidable (_ ∧ _))
  | .ring _, .resize _ _ _ => inferInstanceAs (Decidable (_ = _))
  | .vector _, .assignText _ _ | .vector _, .assignString _ _ | .vector _, .pop
  | .vector _, .erase _ | .vector _, .eraseRange _ _ | .vector _, .clear | .vector _, .reserve _
  | .string _ _, .assignString _ _ | .string _ _, .push _ _ | .string _ _, .pop
  | .string _ _, .erase _ | .string _ _, .eraseRange _ _ | .string _ _, .clear
  | .string _ _, .reserve _ | .string _ _, .resize _ _ _ | .ring _, .assignText _ _
  | .ring _, .assignString _ _ | .ring _, .pop | .ring _, .erase _ | .ring _, .eraseRange _ _
  | .ring _, .clear | .ring _, .reserve _ => isTrue trivial

instance [DecidableEq ι] (σ : State ι ε) : (op : Op ι ε α) → Decidable (Guarded O σ op)
  | .construct _ _ _ _ => inferInstanceAs (Decidable (Obj.NewOk O _))
  | .copyConstruct _ _ _ _ => inferInstanceAs (Decidable (Obj.CopyCtorOk _))
  | .moveConstruct _ raw a other =>
    inferInstanceAs (Decidable (∀ o ∈ σ.objects other, raw.MoveCtorOk a o))
  | .copyAssign _ _ | .destroy _ => isTrue trivial
  | .moveAssign i other =>
    inferInstanceAs (Decidable
      (i ≠ other → ∀ t ∈ σ.objects i, ∀ o ∈ σ.objects other, t.MoveAssignOk C o))
  | .call i m => inferInstanceAs (Decidable (∀ o ∈ σ.objects i, o.CallOk O m))

end

variable {O} {data : Str → CharPtr} {l : Heap} {F : Multiset Block} {a : Nat}

/-! ## One object -/

namespace Obj

theorem vector_ok {v : Vec ε} {a : Nat} (h : v.Ok O a) : (vector v).Ok O := by
  obtain rfl := h.alloc_eq
  exact h

theorem new_holds {raw : Obj ε} {x : New α} {r : Obj ε × Heap} (hx : NewOk O x) (h : l.Holds F)
    (hr : raw.new P C l a x = some r) : r.2.Holds (r.1.owns O + F) ∧ r.1.Ok O := by
  cases raw with
  | vector raw =>
    cases x with
    | default =>
      cases hr
      exact ⟨h.congr (zero_add F).symm, Vec.init_ok⟩
    | length n x =>
      cases hr
      obtain ⟨hl, hok⟩ := Vec.initLength_holds (P := P) (a := a) (n := n) raw hx h
      exact ⟨hl, vector_ok hok⟩
    | text p n => cases hr
  | string c raw =>
    cases x with
    | default =>
      cases hr
      exact ⟨h.congr (by simp only [owns, Str.init, Str.setNull_owns, zero_add]), Str.init_ok⟩
    | length n x =>
      cases hr
      exact ⟨Str.initLength_holds h, Str.createStr_ok⟩
    | text p n =>
      cases hr
      exact ⟨Str.copyOp_holds h, Str.copyOp_ok⟩
  | ring raw =>
    cases x with
    | default =>
      cases hr
      exact RingBase.shmInit_holds _ _ h
    | length n x =>
      cases hr
      exact RingBase.shmInit_holds _ _ h
    | text p n => cases hr

theorem copyCtor_holds {raw other : Obj ε} {r : Obj ε × Heap} (hg : raw.CopyCtorOk)
    (hother : other.Ok O) (h : l.Holds F) (hr : raw.copyCtor P C data l a other = some r) :
    r.2.Holds (r.1.owns O + F) ∧ r.1.Ok O := by
  cases raw <;> cases other <;> cases hr
  · obtain ⟨hl, hok⟩ := Vec.copyCtor_holds hother h
    exact ⟨hl, vector_ok hok⟩
  · exact ⟨Str.copyOp_holds h, Str.copyOp_ok⟩
  · exact RingBase.copyCtor_holds hg hother h

/-- The two objects after a move own together what there is. -/
structure Moved (O : Ownership C.T) (F : Multiset Block) (r : Obj ε × Obj ε × Heap) : Prop where
  holds : r.2.2.Holds (r.1.owns O + (r.2.1.owns O + F))
  ok : r.1.Ok O
  other_ok : r.2.1.Ok O

theorem moved_vector {a a' : Nat} {r : Vec ε × Vec ε × Heap} (h : Vec.Moved O a a' F r) :
    Moved O F (vector r.1, vector r.2.1, r.2.2) where
  holds := h.holds.congr (by
    rw [show Obj.owns O (vector r.2.1) = 0 from h.other_ok.owns_of_null h.other_null, zero_add]
    rfl)
  ok := vector_ok h.ok
  other_ok := vector_ok h.other_ok

theorem moved_ring {r : RingBase ε × RingBase ε × Heap} (h : RingBase.Moved O F r) :
    Moved O F (ring r.1, ring r.2.1, r.2.2) where
  holds := h.holds.congr (by rw [show Obj.owns O (ring r.2.1) = 0 from h.other_owns, zero_add]; rfl)
  ok := h.ok
  other_ok := h.other_ok

theorem moved_string {c : StringClass} {s other : Str} (hother : other.Ok c)
    (ha : s.is_wrap_ = true → s.alloc = other.alloc ∨ ¬ other.isHeap c)
    (h : l.Holds (other.owns c + F)) :
    Moved O F (string c (Str.moveOp P c l s other).1, string c (Str.moveOp P c l s other).2.1,
      (Str.moveOp P c l s other).2.2) where
  holds := (Str.moveOp_holds hother h ha).congr (add_assoc _ _ _)
  ok := Str.moveOp_ok hother
  other_ok := Str.moveOp_other_ok hother

theorem moveCtor_holds {raw other : Obj ε} {r : Obj ε × Obj ε × Heap}
    (hg : raw.MoveCtorOk a other) (hother : other.Ok O) (h : l.Holds (other.owns O + F))
    (hr : raw.moveCtor P C l a other = some r) : Moved O F r := by
  cases raw <;> cases other <;> try cases hr
  · exact moved_vector (Vec.moveCtor_holds hother hg h)
  · simp only [moveCtor] at hr
    split at hr
    · rename_i c raw c' other hc
      cases hc
      cases hr
      exact moved_string hother hg h
    · cases hr
  · exact moved_ring (RingBase.moveCtor_holds hother hg h)

theorem copyAssign_holds {t other : Obj ε} {r : Obj ε × Heap} (ht : t.Ok O) (hother : other.Ok O)
    (h : l.Holds (t.owns O + F)) (hr : t.copyAssign P C data l other = some r) :
    r.2.Holds (r.1.owns O + F) ∧ r.1.Ok O := by
  cases t <;> cases other <;> cases hr
  · obtain ⟨hl, hok⟩ := Vec.copyAssign_holds (P := P) ht hother h
    exact ⟨hl, vector_ok hok⟩
  · exact ⟨Str.copyAssign_holds ht h, Str.copyAssign_ok⟩
  · exact RingBase.copyAssign_holds ht hother h

theorem moveAssign_holds {t other : Obj ε} {r : Obj ε × Obj ε × Heap}
    (hg : t.MoveAssignOk C other) (ht : t.Ok O) (hother : other.Ok O)
    (h : l.Holds (t.owns O + (other.owns O + F))) (hr : t.moveAssign P C l other = some r) :
    Moved O F r := by
  cases t <;> cases other <;> try cases hr
  · exact moved_vector (Vec.moveAssign_holds ht hother hg.1 hg.2 h)
  · simp only [moveAssign] at hr
    split at hr
    · rename_i c s c' other hc
      cases hc
      cases hr
      refine moved_string hother hg.2 (h.congr ?_)
      rw [show Obj.owns O (string c s) = 0 from Str.owns_of_not_isHeap hg.1, zero_add]
      rfl
    · cases hr
  · exact moved_ring (RingBase.moveAssign_holds ht hother hg.1 hg.2 h)

theorem call_vector_holds {v : Vec ε} {m : Member α} {r : Obj ε × Heap}
    (hg : (vector v).CallOk O m) (hok : (vector v).Ok O) (h : l.Holds ((vector v).owns O + F))
    (hr : (vector v).call P C l m = some r) : r.2.Holds (r.1.owns O + F) ∧ r.1.Ok O := by
  have hdone : ∀ {w : Vec ε} {l' : Heap}, l'.Holds (w.owns O + F) ∧ w.Ok O v.alloc →
      l'.Holds ((vector w).owns O + F) ∧ (vector w).Ok O := fun hw => ⟨hw.1, vector_ok hw.2⟩
  cases m with
  | push nested x =>
    cases hr
    obtain ⟨hl, hok', -⟩ := Vec.emplaceBack_holds (P := P) (x := .args x) hg.1 hok hg.2 h
    exact hdone ⟨hl, hok'⟩
  | pop =>
    cases hr
    exact hdone (Vec.popBack_holds hok h)
  | erase pos =>
    cases hr
    exact hdone (Vec.erase_holds hok h)
  | eraseRange first last =>
    simp only [call] at hr
    split at hr
    · cases hr
    · cases hr
      exact hdone (Vec.eraseRange_holds hok h)
  | clear =>
    cases hr
    exact hdone (Vec.clear_holds hok h)
  | reserve n =>
    cases hr
    obtain ⟨hl, hok', -, -⟩ := Vec.reserve_holds (P := P) n hok h
    exact hdone ⟨hl, hok'⟩
  | resize nested n x =>
    cases hr
    exact hdone (Vec.resize_holds hg.1 hok hg.2 h)
  | assignText p n | assignString p n => cases hr

theorem call_string_holds {c : StringClass} {s : Str} {m : Member α} {r : Obj ε × Heap}
    (hg : (string c s : Obj ε).CallOk O m) (hok : (string c s).Ok O)
    (h : l.Holds ((string c s).owns O + F)) (hr : (string c s).call P C l m = some r) :
    r.2.Holds (r.1.owns O + F) ∧ r.1.Ok O := by
  cases m with
  | assignText p n =>
    cases hr
    refine ⟨Str.copyOp_holds (h.congr ?_), Str.copyOp_ok⟩
    rw [show Obj.owns O (string c s) = 0 from Str.owns_of_not_isHeap hg, zero_add]
  | assignString p n =>
    cases hr
    exact ⟨Str.copyAssign_holds hok h, Str.copyAssign_ok⟩
  | resize nested n x =>
    cases hr
    exact Str.resize_holds hok h
  | push nested x | pop | erase pos | eraseRange first last | clear | reserve n => cases hr

theorem call_ring_holds {q : RingBase ε} {m : Member α} {r : Obj ε × Heap}
    (hg : (ring q).CallOk O m) (hok : (ring q).Ok O) (h : l.Holds ((ring q).owns O + F))
    (hr : (ring q).call P C l m = some r) : r.2.Holds (r.1.owns O + F) ∧ r.1.Ok O := by
  cases m with
  | push nested x =>
    obtain ⟨r', hr', rfl⟩ := Option.map_eq_some_iff.mp hr
    exact RingBase.emplace_holds (y := .args x) hg.1 hok hg.2 h hr'
  | pop =>
    obtain ⟨r', hr', rfl⟩ := Option.map_eq_some_iff.mp hr
    exact RingBase.pop_holds hok h hr'
  | resize nested n x =>
    obtain ⟨r', hr', rfl⟩ := Option.map_eq_some_iff.mp hr
    exact RingBase.resize_holds hok hg h hr'
  | assignText p n | assignString p n | erase pos | eraseRange first last | clear | reserve n =>
    cases hr

theorem call_holds {o : Obj ε} {m : Member α} {r : Obj ε × Heap} (hg : o.CallOk O m)
    (hok : o.Ok O) (h : l.Holds (o.owns O + F)) (hr : o.call P C l m = some r) :
    r.2.Holds (r.1.owns O + F) ∧ r.1.Ok O := by
  cases o with
  | vector v => exact call_vector_holds hg hok h hr
  | string c s => exact call_string_holds hg hok h hr
  | ring q => exact call_ring_holds hg hok h hr

theorem destroy_holds {o : Obj ε} (hok : o.Ok O) (h : l.Holds (o.owns O + F)) :
    (o.destroy C l).Holds F := by
  cases o with
  | vector v => exact (Vec.shmDestroy_holds hok h).1
  | string c s => exact Str.shmDestroy_holds hok h
  | ring q => exact (RingBase.shmDestroy_holds hok h).1

end Obj

/-! ## All objects -/

section
variable (O) [DecidableEq ι] [Fintype ι]

/-- What the container of a name owns, if there is one. -/
def ownedAt (o : Option (Obj ε)) : Multiset Block :=
  match o with
  | none => 0
  | some o => o.owns O

/-- What all containers own. -/
def State.owned (σ : State ι ε) : Multiset Block := ∑ i, ownedAt O (σ.objects i)

/-- What the containers of other names own. -/
def rest (objects : ι → Option (Obj ε)) (names : Finset ι) : Multiset Block :=
  ∑ i ∈ namesᶜ, ownedAt O (objects i)

/-- Exactly what live containers and their elements own is allocated, each block once,
and no block was given back twice; every container is one of its class. -/
structure Sound (σ : State ι ε) : Prop where
  holds : σ.heap.Holds (σ.owned O)
  ok : ∀ i o, σ.objects i = some o → o.Ok O

variable {O} {σ : State ι ε} {i j : ι}

theorem owned_split : σ.owned O = ownedAt O (σ.objects i) + rest O σ.objects {i} := by
  rw [State.owned, rest, ← Finset.sum_add_sum_compl {i}, Finset.sum_singleton]

theorem rest_split (hij : i ≠ j) :
    rest O σ.objects {i} = ownedAt O (σ.objects j) + rest O σ.objects {i, j} := by
  rw [rest, rest, ← Finset.add_sum_erase _ _ (Finset.mem_compl.mpr (by simpa using hij.symm))]
  congr 2
  ext k
  simp [and_comm]

theorem rest_congr {objects objects' : ι → Option (Obj ε)} {names : Finset ι}
    (h : ∀ k, k ∉ names → objects' k = objects k) : rest O objects' names = rest O objects names :=
  Finset.sum_congr rfl fun k hk => by rw [h k (Finset.mem_compl.mp hk)]

/-- Another object under a name: the rest is told for the names left alone. -/
theorem Sound.update {heap : Heap} {o : Option (Obj ε)} (h : Sound O σ)
    (hl : heap.Holds (ownedAt O o + rest O σ.objects {i})) (ho : ∀ o', o = some o' → o'.Ok O) :
    Sound O { heap, objects := Function.update σ.objects i o } where
  holds := hl.congr (by
    have hother : ∀ k, k ∉ ({i} : Finset ι) → Function.update σ.objects i o k = σ.objects k :=
      fun k hk => Function.update_of_ne (by simpa using hk) _ _
    rw [owned_split (i := i), rest_congr hother]
    simp only [Function.update_self])
  ok k o' hk := by
    change Function.update σ.objects i o k = some o' at hk
    by_cases hki : k = i
    · subst hki
      rw [Function.update_self] at hk
      exact ho o' hk
    · rw [Function.update_of_ne hki] at hk
      exact h.ok k o' hk

/-- The frame of a call on the container of a name. -/
theorem Sound.frame {o : Obj ε} (h : Sound O σ) (hi : σ.objects i = some o) :
    σ.heap.Holds (o.owns O + rest O σ.objects {i}) :=
  h.holds.congr (by rw [owned_split (i := i), hi, ownedAt])

theorem Sound.frame_none (h : Sound O σ) (hi : σ.objects i = none) :
    σ.heap.Holds (rest O σ.objects {i}) :=
  h.holds.congr (by rw [owned_split (i := i), hi, ownedAt, zero_add])

theorem Sound.put {r : Obj ε × Heap} (h : Sound O σ)
    (hr : r.2.Holds (r.1.owns O + rest O σ.objects {i}) ∧ r.1.Ok O) : Sound O (σ.put i r) :=
  h.update hr.1 fun o' ho => by
    cases ho
    exact hr.2

theorem Sound.putBoth {r : Obj ε × Obj ε × Heap} (h : Sound O σ) (hij : i ≠ j)
    (hr : Obj.Moved O (rest O σ.objects {i, j}) r) : Sound O (σ.putBoth i j r) := by
  have hother : ∀ k, k ∉ ({i, j} : Finset ι) →
      Function.update (Function.update σ.objects j (some r.2.1)) i (some r.1) k = σ.objects k := by
    intro k hk
    simp only [Finset.mem_insert, Finset.mem_singleton, not_or] at hk
    rw [Function.update_of_ne hk.1, Function.update_of_ne hk.2]
  have hj : Function.update (Function.update σ.objects j (some r.2.1)) i (some r.1) j =
      some r.2.1 := by
    rw [Function.update_of_ne hij.symm, Function.update_self]
  refine ⟨hr.holds.congr ?_, fun k o' hk => ?_⟩
  · have hs := owned_split (O := O) (σ := σ.putBoth i j r) (i := i)
    rw [hs, rest_split hij, State.putBoth, State.put, State.put]
    simp only
    rw [Function.update_self, hj, rest_congr hother]
    rfl
  · by_cases hki : k = i
    · subst hki
      change
        Function.update (Function.update σ.objects j (some r.2.1)) k (some r.1) k = some o' at hk
      rw [Function.update_self] at hk
      cases hk
      exact hr.ok
    · by_cases hkj : k = j
      · subst hkj
        cases hj.symm.trans hk
        exact hr.other_ok
      · exact h.ok k o' ((hother k (by simp [hki, hkj])).symm.trans hk)

/-- **Step.** A guarded call keeps what is allocated and what is owned together. -/
theorem Sound.step {σ' : State ι ε} {op : Op ι ε α} (h : Sound O σ) (hg : Guarded O σ op)
    (hs : step P C data σ op = some σ') : Sound O σ' := by
  cases op with
  | construct i raw a x =>
    simp only [Containers.step] at hs
    split at hs
    · rename_i hi
      obtain ⟨r, hr, rfl⟩ := Option.map_eq_some_iff.mp hs
      exact h.put (Obj.new_holds hg (h.frame_none hi) hr)
    · cases hs
  | copyConstruct i raw a other =>
    simp only [Containers.step] at hs
    split at hs
    · rename_i o hi hother
      obtain ⟨r, hr, rfl⟩ := Option.map_eq_some_iff.mp hs
      exact h.put (Obj.copyCtor_holds hg (h.ok other o hother) (h.frame_none hi) hr)
    · cases hs
  | moveConstruct i raw a other =>
    simp only [Containers.step] at hs
    split at hs
    · rename_i o hi hother
      obtain ⟨r, hr, rfl⟩ := Option.map_eq_some_iff.mp hs
      have hne : i ≠ other := fun he => by simp [he, hother] at hi
      refine h.putBoth hne (Obj.moveCtor_holds (hg o hother) (h.ok other o hother) ?_ hr)
      exact (h.frame_none hi).congr (by rw [rest_split hne, hother, ownedAt])
    · cases hs
  | copyAssign i other =>
    simp only [Containers.step] at hs
    split at hs
    · rename_i t o hi hother
      split at hs
      · cases hs
        exact h
      · obtain ⟨r, hr, rfl⟩ := Option.map_eq_some_iff.mp hs
        exact h.put (Obj.copyAssign_holds (h.ok i t hi) (h.ok other o hother) (h.frame hi) hr)
    · cases hs
  | moveAssign i other =>
    simp only [Containers.step] at hs
    split at hs
    · rename_i t o hi hother
      split at hs
      · cases hs
        exact h
      · rename_i hne
        obtain ⟨r, hr, rfl⟩ := Option.map_eq_some_iff.mp hs
        refine h.putBoth hne (Obj.moveAssign_holds (hg hne t hi o hother) (h.ok i t hi)
          (h.ok other o hother) ?_ hr)
        exact (h.frame hi).congr (by rw [rest_split hne, hother, ownedAt])
    · cases hs
  | call i m =>
    obtain ⟨o, hi, hs⟩ := Option.bind_eq_some_iff.mp hs
    obtain ⟨r, hr, rfl⟩ := Option.map_eq_some_iff.mp hs
    exact h.put (Obj.call_holds (hg o hi) (h.ok i o hi) (h.frame hi) hr)
  | destroy i =>
    obtain ⟨o, hi, rfl⟩ := Option.map_eq_some_iff.mp hs
    have hd := Obj.destroy_holds (h.ok i o hi) (h.frame hi)
    exact h.update (hd.congr (zero_add _).symm) (by simp)

omit [DecidableEq ι] in
theorem sound_init : Sound O ({} : State ι ε) where
  holds := Ledger.Holds.empty.congr (Finset.sum_eq_zero fun _ _ => rfl).symm
  ok := nofun

/-- **What containers take they give back.** In a run of guarded calls exactly the
blocks that live containers and elements own are allocated, no block was given back
that was not allocated, and where no container lives none is. -/
theorem guarded_gives_back {ops : List (Op ι ε α)}
    (hr : Run (step P C data) (Guarded O) ({} : State ι ε) ops σ) :
    (σ.heap.live : Multiset Block) = σ.owned O ∧ σ.heap.live.Nodup ∧ σ.heap.misfreed = [] ∧
      ((∀ i, σ.objects i = none) → σ.heap.live = []) := by
  have h : Sound O σ := hr.invariant sound_init fun _ _ _ hs hg => hs.step hg
  refine ⟨h.holds.live, h.holds.nodup, h.holds.misfreed, fun hnone => ?_⟩
  refine (h.holds.congr ?_).live_eq_nil
  exact Finset.sum_eq_zero fun i _ => by rw [hnone i, ownedAt]

end

/-! ## Strings in vectors and ring queues -/

/-- Bytes that are all zero. -/
def zeroStr : Str := ⟨0, 0, 0, .null, false⟩
def zeroVec : Vec Str := ⟨0, none, 0, 0, fun _ => zeroStr⟩
def zeroRing : RingBase Str := ⟨0, ⟨0, none, 0, 0, fun _ => ⟨0, false, zeroStr⟩⟩, 0, 0⟩

/-- What a copy that wraps points to is not looked at here. -/
def somewhere (_ : Str) : CharPtr := ⟨.other 0, 0⟩

/-- Ring queues of strings. -/
def stringRing : RingClass Str StrArgs where
  T := elemType Placement.upward string (fun _ _ => zeroStr) fun _ => somewhere
  raw _ _ := ⟨0, false, zeroStr⟩
  moveAssign := Str.moveOp Placement.upward string
  default_alloc := 0
  space := .circular

def stringOwnership : Ownership stringRing.T :=
  ownership Placement.upward string (fun _ _ => zeroStr) fun _ => somewhere

instance : DecidablePred stringOwnership.ArgsOk := fun _ => isTrue trivial

/-- Containers of two allocators come and go. -/
def shuffle : List (Op (Fin 4) Str StrArgs) :=
  [.construct 0 (.vector zeroVec) 0 .default, .call 0 (.push 0 (.length 40)),
    .call 0 (.push 0 (.length 50)), .copyConstruct 1 (.vector zeroVec) 1 0,
    .construct 2 (.string string zeroStr) 1 (.length 100 .none), .call 2 (.resize 0 8 .none),
    .call 1 (.erase 0), .copyAssign 0 1, .construct 3 (.ring zeroRing) 0 (.length 2 .none),
    .call 3 (.push 0 (.length 60)), .call 2 (.resize 0 90 .none), .destroy 1, .call 3 .pop]

theorem guarded_gives_back_shuffle :
    ∃ σ, execOk (step Placement.upward stringRing somewhere) (Guarded stringOwnership) {} shuffle =
        some σ ∧
      (σ.heap.live : Multiset Block) = σ.owned stringOwnership ∧ σ.heap.live.Nodup ∧
      σ.heap.misfreed = [] ∧ ((∀ i, σ.objects i = none) → σ.heap.live = []) := by
  have hsome : (execOk (step Placement.upward stringRing somewhere) (Guarded stringOwnership) {}
    shuffle).isSome = true := by decide +kernel
  obtain ⟨σ, hσ⟩ := Option.isSome_iff_exists.mp hsome
  exact ⟨σ, hσ, guarded_gives_back (run_of_execOk hσ)⟩

/-- The target of a move assignment had a block. -/
def overwrite : List (Op (Fin 2) Str StrArgs) :=
  let i : Fin 2 := ⟨0, Nat.zero_lt_two⟩
  let j : Fin 2 := ⟨1, Nat.one_lt_two⟩
  [.construct i (.string string zeroStr) 0 (.length 40 .none),
    .construct j (.string string zeroStr) 0 (.length 50 .none), .moveAssign i j, .destroy i,
    .destroy j]

/-- A resize inside the array makes an element of bytes that an erase has moved. -/
def resurrect : List (Op (Fin 2) Str StrArgs) :=
  let i : Fin 2 := ⟨0, Nat.zero_lt_two⟩
  [.construct i (.vector zeroVec) 0 .default, .call i (.push 0 (.length 40)),
    .call i (.push 0 (.length 50)), .call i (.erase 0), .call i (.resize 0 2 .none), .destroy i]

/-- After all containers are destroyed a block is left, or one was given back twice. -/
theorem unguarded_leaks :
    (∃ σ, exec (step Placement.upward stringRing somewhere) {} overwrite = some σ ∧
      (∀ i, σ.objects i = none) ∧ σ.heap.live = [(0, 0)]) ∧
    ∃ σ, exec (step Placement.upward stringRing somewhere) {} resurrect = some σ ∧
      (∀ i, σ.objects i = none) ∧ σ.heap.misfreed ≠ [] := by
  have hover : (exec (step Placement.upward stringRing somewhere) {} overwrite).any
      (fun σ => (σ.objects 0).isNone ∧ (σ.objects 1).isNone ∧ σ.heap.live = [(0, 0)]) = true := by
    decide +kernel
  have hres : (exec (step Placement.upward stringRing somewhere) {} resurrect).any
      (fun σ => (σ.objects 0).isNone ∧ (σ.objects 1).isNone ∧ σ.heap.misfreed ≠ []) = true := by
    decide +kernel
  refine ⟨?_, ?_⟩
  · obtain ⟨σ, hσ, h⟩ := (Option.any_eq_true _ _).mp hover
    simp only [Option.isNone_iff_eq_none, decide_eq_true_eq] at h
    exact ⟨σ, hσ, Fin.forall_fin_two.mpr ⟨h.1, h.2.1⟩, h.2.2⟩
  · obtain ⟨σ, hσ, h⟩ := (Option.any_eq_true _ _).mp hres
    simp only [Option.isNone_iff_eq_none, decide_eq_true_eq] at h
    exact ⟨σ, hσ, Fin.forall_fin_two.mpr ⟨h.1, h.2.1⟩, h.2.2⟩

end HermesShm.Ipc.Containers
