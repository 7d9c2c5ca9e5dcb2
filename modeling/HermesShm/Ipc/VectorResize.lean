import HermesShm.Ipc.HipcVectorSequence
import Mathlib.Logic.Function.Iterate

/-! # `vector::resize`

A resize constructs elements when it replaces the array, and only then. Inside the
capacity it changes the length, whatever is in the slots. -/
namespace HermesShm.Ipc.HipcVector
open HermesShm.Base

/-- An element type with constructor arguments in `κ`. -/
structure Constructible (ν κ : Type) extends ElemType ν where
  /-- `std::is_trivially_destructible_v<T>`: there is nothing to destroy. -/
  trivial : Bool
  value : κ → ν
  /-- What a construction leaves of arguments that are rvalues. -/
  moved : κ → κ

/-- `Args &&...args`. -/
inductive Args (κ : Type)
  | given (args : κ) (rvalue : Bool)
  /-- A reference to an element of the vector. -/
  | element (i : Nat)

variable {ν κ : Type}

/-- A turn of the loop over the new elements, with the arguments that are left. The
array of an element passed as argument was freed before, so that no object is made. -/
def makeElem (T : Constructible ν κ) (t : State ν) (i : Nat) : Args κ → State ν × Args κ
  | .given args rvalue =>
    (makeAr t i (T.value args), .given (if rvalue then T.moved args else args) rvalue)
  | .element j => ({ t with slots := Function.update t.slots i none }, .element j)

def makeElems (T : Constructible ν κ) (t : State ν) (i : Nat) (args : Args κ) : Nat → State ν
  | 0 => t
  | n + 1 =>
    let (t, args) := makeElem T t i args
    makeElems T t (i + 1) args n

/-- `grow_vector` to a length other than 0, with `resize`. -/
def growVectorMake (T : Constructible ν κ) (M : Memory) (s : State ν) (max_length : Nat)
    (args : Args κ) : Option (State ν) :=
  if max_length < s.max_length_ then some s
  else (growVector T.toElemType M s max_length).map fun t =>
    makeElems T t s.length_ args (max_length - s.length_)

def resize (T : Constructible ν κ) (M : Memory) (s : State ν) (length : Nat) (args : Args κ) :
    Option (State ν) :=
  if length = 0 then some { s with length_ := 0 }
  else (growVectorMake T M s length args).map fun t => { t with length_ := length }

inductive Call (ν κ : Type)
  | resize (length : Nat) (args : Args κ)
  | reserve (length : Nat)
  | emplaceBack (v : ν)
  | erase (pos : Nat)
  | eraseRange (first last : Nat)
  | clear

def call (T : Constructible ν κ) (M : Memory) (s : State ν) : Call ν κ → Option (State ν)
  | .resize length args => resize T M s length args
  | .reserve length => reserve T.toElemType M s length
  | .emplaceBack v => emplaceBack T.toElemType M s v
  | .erase pos => some (erase s pos)
  | .eraseRange first last => eraseRange s first last
  | .clear => clear s

/-- What the arguments construct before the call. -/
def Args.value (T : Constructible ν κ) (s : State ν) : Args κ → Option ν
  | .given args _ => some (T.value args)
  | .element i => getRef T.toElemType s i

/-- The vector `t` is `s`, resized to `n` elements. -/
structure Resized (T : Constructible ν κ) (s t : State ν) (n : Nat) (args : Args κ) : Prop where
  size : t.length_ = n
  kept : ∀ i < min n s.length_, getRef T.toElemType t i = getRef T.toElemType s i
  /-- Every further element is a new object. -/
  fresh : ∀ i, s.length_ ≤ i → i < n → ∃ o, t.slots i = some o ∧ s.constructions ≤ o.id ∧
    o.id ∈ t.live ∧ getRef T.toElemType t i = args.value T s
  dropped : T.trivial = true ∨ ∀ i, n ≤ i → i < s.length_ → ∀ o ∈ s.slots i, o.id ∉ t.live

/-- Constructing from the arguments again gives the same value, `k` times. -/
def Args.Lasts (T : Constructible ν κ) (k : Nat) : Args κ → Prop
  | .given args rvalue => rvalue = true → ∀ j < k, T.value (T.moved^[j] args) = T.value args
  | .element _ => False

/-- A shorter vector drops nothing to destroy; a longer one is past the capacity, and the
arguments last. -/
structure Resizable (T : Constructible ν κ) (s : State ν) (n : Nat) (args : Args κ) : Prop where
  shrink : T.trivial = true ∨ ∀ i, n ≤ i → i < s.length_ → ∀ o ∈ s.slots i, o.id ∉ s.live
  grow : s.length_ < n → s.max_length_ ≤ n ∧ args.Lasts T (n - s.length_)

/-! ## Objects in slots -/

/-- The objects in the slots of `t` were in slots of `s`, or are new. -/
def From (s t : State ν) : Prop :=
  s.constructions ≤ t.constructions ∧ ∀ i o, t.slots i = some o →
    (∃ j, s.slots j = some o) ∨ s.constructions ≤ o.id ∧ o.id < t.constructions

variable {T : Constructible ν κ} {E : ElemType ν} {M : Memory} {s t u : State ν} {n m : Nat}
  {args : Args κ}

theorem From.of_slots (hs : ∀ i o, t.slots i = some o → ∃ j, s.slots j = some o)
    (hc : t.constructions = s.constructions) : From s t :=
  ⟨Nat.le_of_eq hc.symm, fun i o h => .inl (hs i o h)⟩

theorem From.trans (h : From s t) (h' : From t u) : From s u := by
  refine ⟨Nat.le_trans h.1 h'.1, fun i o ho => ?_⟩
  rcases h'.2 i o ho with ⟨j, hj⟩ | ⟨hle, hlt⟩
  · rcases h.2 j o hj with hs | ⟨hle, hlt⟩
    · exact .inl hs
    · exact .inr ⟨hle, Nat.lt_of_lt_of_le hlt h'.1⟩
  · exact .inr ⟨Nat.le_trans h.1 hle, hlt⟩

theorem From.makeAr (s : State ν) (i : Nat) (v : ν) : From s (makeAr s i v) := by
  refine ⟨Nat.le_succ _, fun j o ho => ?_⟩
  simp only [HipcVector.makeAr] at ho
  by_cases hj : j = i
  · subst hj
    rw [Function.update_self] at ho
    cases ho
    exact .inr ⟨Nat.le_refl _, Nat.lt_succ_self _⟩
  · rw [Function.update_of_ne hj] at ho
    exact .inl ⟨j, ho⟩

theorem destroyAr_slots (s : State ν) (i : Nat) :
    (destroyAr s i).slots = s.slots ∧ (destroyAr s i).constructions = s.constructions ∧
      (destroyAr s i).max_length_ = s.max_length_ := by
  unfold destroyAr
  split <;> exact ⟨rfl, rfl, rfl⟩

theorem destroyEach_slots (s : State ν) (i n : Nat) :
    (destroyEach s i n).slots = s.slots ∧ (destroyEach s i n).constructions = s.constructions ∧
      (destroyEach s i n).length_ = s.length_ ∧
      (destroyEach s i n).max_length_ = s.max_length_ := by
  induction n generalizing s i with
  | zero => exact ⟨rfl, rfl, rfl, rfl⟩
  | succ n ih =>
    obtain ⟨h1, h2, h3⟩ := destroyAr_slots s i
    obtain ⟨i1, i2, i3, i4⟩ := ih (destroyAr s i) (i + 1)
    exact ⟨i1.trans h1, i2.trans h2, i3.trans (destroyAr_length_ i), i4.trans h3⟩

/-- Erasing copies bytes of slots to slots. -/
theorem shiftLeft_from (s : State ν) (pos count : Nat) :
    From s (shiftLeft s pos count) ∧ (shiftLeft s pos count).length_ = s.length_ ∧
      (shiftLeft s pos count).max_length_ = s.max_length_ := by
  obtain ⟨hslots, hcons, hlen, hmax⟩ := destroyEach_slots s pos count
  rw [shiftLeft, moveDown_eq]
  refine ⟨.of_slots (fun i o ho => ?_) hcons, hlen, hmax⟩
  simp only [hslots] at ho
  split at ho
  · exact ⟨_, ho⟩
  · exact ⟨i, ho⟩

/-! ## Growth -/

theorem getRef_makeAr (t : State ν) (i : Nat) (v : ν) : getRef E (makeAr t i v) i = some v := by
  have hslot : (makeAr t i v).slots i = some ⟨v, t.constructions, t.vec_ptr_, i⟩ :=
    Function.update_self ..
  rw [getRef, hslot, Option.bind_some, if_pos (.inr rfl)]

theorem getRef_congr {i : Nat} (hs : t.slots i = s.slots i) (hp : t.vec_ptr_ = s.vec_ptr_) :
    getRef E t i = getRef E s i := by
  rw [getRef, getRef, hs, hp]

/-- A turn of the move loop moves the element to its slot, where it is an object. -/
theorem moveElem_spec (s : State ν) {t : State ν} {i : Nat} (hi : t.slots i = none) :
    From t (moveElem E s t i) ∧ (moveElem E s t i).vec_ptr_ = t.vec_ptr_ ∧
      (∀ j, j ≠ i → (moveElem E s t i).slots j = t.slots j) ∧
      getRef E (moveElem E s t i) i = getRef E s i := by
  have hstay : getRef E s i = none → From t t ∧ t.vec_ptr_ = t.vec_ptr_ ∧
      (∀ j, j ≠ i → t.slots j = t.slots j) ∧ getRef E t i = getRef E s i := fun hv =>
    ⟨.of_slots (fun j o ho => ⟨j, ho⟩) rfl, rfl, fun _ _ => rfl, by rw [hv, getRef, hi]; rfl⟩
  unfold moveElem
  split
  · rename_i o v ho hv
    refine ⟨.makeAr t i v, rfl, fun j hj => Function.update_of_ne hj .., ?_⟩
    rw [hv]
    exact getRef_makeAr t i v
  · rename_i hno
    refine hstay ?_
    cases hs : s.slots i with
    | none => rw [getRef, hs]; rfl
    | some o =>
      cases hv : getRef E s i with
      | none => rfl
      | some v => exact absurd hv (hno o v hs)

theorem moveElems_spec (s : State ν) {t : State ν} {i : Nat} (n : Nat)
    (ht : ∀ j, i ≤ j → t.slots j = none) :
    From t (moveElems E s t i n) ∧ (moveElems E s t i n).vec_ptr_ = t.vec_ptr_ ∧
      (∀ j, j < i ∨ i + n ≤ j → (moveElems E s t i n).slots j = t.slots j) ∧
      ∀ j, i ≤ j → j < i + n → getRef E (moveElems E s t i n) j = getRef E s j := by
  induction n generalizing t i with
  | zero =>
    exact ⟨.of_slots (fun j o ho => ⟨j, ho⟩) rfl, rfl, fun _ _ => rfl, fun j h h' => by omega⟩
  | succ n ih =>
    obtain ⟨hf, hp, hother, hself⟩ := moveElem_spec (E := E) s (ht i (Nat.le_refl i))
    obtain ⟨hf', hp', hother', hrest⟩ := ih (t := moveElem E s t i) (i := i + 1) fun j hj => by
      rw [hother j (by omega)]
      exact ht j (by omega)
    refine ⟨hf.trans hf', hp'.trans hp, fun j hj => ?_, fun j hj hj' => ?_⟩
    · exact (hother' j (by omega)).trans (hother j (by omega))
    · rcases Nat.eq_or_lt_of_le hj with rfl | hlt
      · exact (getRef_congr (hother' i (.inl (Nat.lt_succ_self i))) hp').trans hself
      · exact hrest j hlt (by omega)

/-- The array has been replaced by one of `n` slots. -/
structure Grown (E : ElemType ν) (s t : State ν) (n : Nat) : Prop where
  from_ : From s t
  length_ : t.length_ = s.length_
  max_length_ : t.max_length_ = n
  kept : ∀ i < s.length_, getRef E t i = getRef E s i

theorem growVector_spec (hl : s.length_ ≤ s.max_length_) (hn : n ≠ 0)
    (h : growVector E M s n = some t) :
    n < s.max_length_ ∧ t = s ∨ s.max_length_ ≤ n ∧ n ≤ M.limit ∧ Grown E s t n := by
  simp only [growVector, if_neg hn] at h
  split at h
  · rename_i hlt
    exact .inl ⟨hlt, (Option.some.inj h).symm⟩
  rename_i hlt
  split at h
  · cases h
  rename_i hlim
  refine .inr ⟨Nat.not_lt.mp hlt, Nat.not_lt.mp hlim, ?_⟩
  split at h
  · -- plain bytes are copied
    rename_i hpod
    cases h
    refine ⟨.of_slots (fun i o ho => ?_) rfl, rfl, rfl, fun i hi => ?_⟩
    · simp only at ho
      split at ho
      · exact ⟨i, ho⟩
      · cases ho
    · simp only [getRef]
      rw [if_pos (by omega)]
      cases s.slots i with
      | none => rfl
      | some o =>
        rw [Option.bind_some, Option.bind_some, if_pos (.inl (E.pod_relocatable hpod _)),
          if_pos (.inl (E.pod_relocatable hpod _))]
  · cases h
    obtain ⟨hf, -, -, hkept⟩ := moveElems_spec (E := E) s (t := { s with
      vec_ptr_ := s.arrays
      arrays := s.arrays + 1
      max_length_ := n
      slots := fun _ => none }) (i := 0) s.length_ fun _ _ => rfl
    refine ⟨⟨hf.1, fun i o ho => ?_⟩, by rw [moveElems_length_], by rw [moveElems_max_length_],
      fun i hi => hkept i (Nat.zero_le i) (by omega)⟩
    rcases hf.2 i o ho with ⟨j, hj⟩ | hnew
    · cases hj
    · exact .inr hnew

/-! ## New elements -/

/-- What a construction leaves of the arguments. -/
def Constructible.left (T : Constructible ν κ) (rvalue : Bool) : κ → κ :=
  if rvalue then T.moved else id

theorem makeElems_given (T : Constructible ν κ) (t : State ν) (i : Nat) (a : κ) (rvalue : Bool)
    (n : Nat) :
    ∃ live', (∀ id, id ∈ live' ↔ id ∈ t.live ∨ t.constructions ≤ id ∧ id < t.constructions + n) ∧
      makeElems T t i (.given a rvalue) n = { t with
        slots := fun j =>
          if i ≤ j ∧ j < i + n then
            some ⟨T.value ((T.left rvalue)^[j - i] a), t.constructions + (j - i), t.vec_ptr_, j⟩
          else t.slots j
        constructions := t.constructions + n
        live := live' } := by
  induction n generalizing t i a with
  | zero =>
    refine ⟨t.live, fun id => ⟨.inl, fun h => ?_⟩, (t.with_slots fun j => if_neg (by omega)).symm⟩
    exact h.resolve_right (by omega)
  | succ n ih =>
    have hleft : (if rvalue then T.moved a else a) = T.left rvalue a := by
      cases rvalue <;> rfl
    have hturn : makeElems T t i (.given a rvalue) (n + 1) =
        makeElems T (makeAr t i (T.value a)) (i + 1) (.given (T.left rvalue a) rvalue) n := by
      simp only [makeElems, makeElem, hleft]
    obtain ⟨live', hlive, he⟩ := ih (makeAr t i (T.value a)) (i + 1) (T.left rvalue a)
    refine ⟨live', fun id => ?_, ?_⟩
    · rw [hlive]
      simp only [makeAr, List.mem_cons]
      constructor
      · rintro ((rfl | h) | h)
        · exact .inr (by omega)
        · exact .inl h
        · exact .inr (by omega)
      · rintro (h | h)
        · exact .inl (.inr h)
        · by_cases hid : id = t.constructions
          · exact .inl (.inl hid)
          · exact .inr (by omega)
    · rw [hturn, he]
      simp only [makeAr, State.mk.injEq, true_and, and_true]
      refine ⟨funext fun j => ?_, by omega⟩
      rcases Nat.lt_trichotomy j i with hj | rfl | hj
      · rw [if_neg (by omega), if_neg (by omega), Function.update_of_ne (by omega)]
      · rw [if_neg (by omega), if_pos (by omega), Function.update_self, Nat.sub_self]
        rfl
      · by_cases hin : j < i + 1 + n
        · rw [if_pos (by omega), if_pos (by omega), show j - i = j - (i + 1) + 1 by omega,
            Function.iterate_succ_apply]
          congr 2
          omega
        · rw [if_neg (by omega), if_neg (by omega), Function.update_of_ne (by omega)]

theorem makeElems_element (T : Constructible ν κ) (t : State ν) (i k n : Nat) :
    makeElems T t i (.element k) n = { t with
      slots := fun j => if i ≤ j ∧ j < i + n then none else t.slots j } := by
  induction n generalizing t i with
  | zero => exact (t.with_slots fun j => if_neg (by omega)).symm
  | succ n ih =>
    simp only [makeElems, makeElem, ih, State.mk.injEq, true_and, and_true]
    funext j
    by_cases hj : j = i
    · subst hj
      rw [if_neg (by omega), if_pos (by omega), Function.update_self]
    · rw [Function.update_of_ne hj]
      by_cases hin : i + 1 ≤ j ∧ j < i + 1 + n
      · rw [if_pos hin, if_pos (by omega)]
      · rw [if_neg hin, if_neg (by omega)]

/-- The loop leaves the length, and the slots before those it fills. -/
theorem makeElems_frame (T : Constructible ν κ) (t : State ν) (i : Nat) (args : Args κ) (n : Nat) :
    From t (makeElems T t i args n) ∧ (makeElems T t i args n).vec_ptr_ = t.vec_ptr_ ∧
      (makeElems T t i args n).max_length_ = t.max_length_ ∧
      ∀ j < i, (makeElems T t i args n).slots j = t.slots j := by
  cases args with
  | given a rvalue =>
    obtain ⟨live', -, he⟩ := makeElems_given T t i a rvalue n
    rw [he]
    refine ⟨⟨Nat.le_add_right .., fun j o ho => ?_⟩, rfl, rfl, fun j hj => if_neg (by omega)⟩
    simp only at ho
    split at ho
    · cases ho
      exact .inr ⟨Nat.le_add_right .., by simp only; omega⟩
    · exact .inl ⟨j, ho⟩
  | element k =>
    rw [makeElems_element]
    refine ⟨.of_slots (fun j o ho => ?_) rfl, rfl, rfl, fun j hj => if_neg (by omega)⟩
    simp only at ho
    split at ho
    · cases ho
    · exact ⟨j, ho⟩

/-! ## Runs -/

/-- The slots hold no object that is still to be constructed. -/
structure Sane (M : Memory) (s : State ν) : Prop where
  length_le : s.length_ ≤ s.max_length_
  small : s.max_length_ ≤ M.limit
  old : ∀ i o, s.slots i = some o → o.id < s.constructions

theorem From.old (h : From s t) (ho : ∀ i o, s.slots i = some o → o.id < s.constructions) :
    ∀ i o, t.slots i = some o → o.id < t.constructions := by
  intro i o hi
  rcases h.2 i o hi with ⟨j, hj⟩ | ⟨-, hlt⟩
  · exact Nat.lt_of_lt_of_le (ho j o hj) h.1
  · exact hlt

theorem init_sane (M : Memory) : Sane M (init ν) := ⟨Nat.le_refl 0, Nat.zero_le _, nofun⟩

/-- What a resize does: inside the capacity it sets the length, and else it makes a new
array and constructs behind the elements. -/
theorem resize_cases (hs : Sane M s) (h : resize T M s n args = some t) :
    (n = 0 ∨ n < s.max_length_) ∧ t = { s with length_ := n } ∨
    (s.max_length_ ≤ n ∧ n ≤ M.limit) ∧ ∃ u, Grown T.toElemType s u n ∧
      t = { makeElems T u s.length_ args (n - s.length_) with length_ := n } := by
  by_cases hn : n = 0
  · rw [resize, if_pos hn] at h
    cases h
    exact .inl ⟨.inl hn, by rw [hn]⟩
  rw [resize, if_neg hn] at h
  obtain ⟨u, hu, rfl⟩ := Option.map_eq_some_iff.mp h
  by_cases hlt : n < s.max_length_
  · rw [growVectorMake, if_pos hlt] at hu
    cases hu
    exact .inl ⟨.inr hlt, rfl⟩
  · rw [growVectorMake, if_neg hlt] at hu
    obtain ⟨v, hv, rfl⟩ := Option.map_eq_some_iff.mp hu
    rcases growVector_spec hs.length_le hn hv with ⟨hlt', -⟩ | ⟨hle, hlim, hg⟩
    · exact absurd hlt' hlt
    · exact .inr ⟨⟨hle, hlim⟩, v, hg, rfl⟩

/-- With memory for the array, a resize returns. -/
theorem resize_some (T : Constructible ν κ) (s : State ν) (args : Args κ) (hn : n ≤ M.limit) :
    ∃ t, resize T M s n args = some t := by
  by_cases h0 : n = 0
  · exact ⟨_, if_pos h0⟩
  rw [resize, if_neg h0, growVectorMake, growVector, if_neg h0, if_neg (Nat.not_lt.mpr hn)]
  split
  · exact ⟨_, rfl⟩
  · split <;> exact ⟨_, rfl⟩

theorem Sane.resize (hs : Sane M s) (h : HipcVector.resize T M s n args = some t) : Sane M t := by
  rcases resize_cases hs h with ⟨hn, rfl⟩ | ⟨⟨-, hlim⟩, u, hg, rfl⟩
  · refine ⟨?_, hs.small, hs.old⟩
    simp only
    omega
  · obtain ⟨hf, -, hmax, -⟩ := makeElems_frame T u s.length_ args (n - s.length_)
    refine ⟨?_, ?_, (hg.from_.trans hf).old hs.old⟩
    · simp only [hmax, hg.max_length_, Nat.le_refl]
    · simp only [hmax, hg.max_length_, hlim]

theorem Sane.growVector (hs : Sane M s) (h : HipcVector.growVector E M s n = some t) :
    Sane M t ∧ t.length_ = s.length_ ∧ (n = 0 → s.max_length_ < t.max_length_) := by
  by_cases hn : n = 0
  · subst hn
    have hlt := M.lt_nextLength hs.small
    have hnext : HipcVector.growVector E M s (nextLength s.max_length_) = some t := by
      rw [← h]
      simp only [HipcVector.growVector, if_true, if_neg (Nat.ne_of_gt (Nat.zero_lt_of_lt hlt))]
    rcases growVector_spec hs.length_le (Nat.ne_of_gt (Nat.zero_lt_of_lt hlt)) hnext with
      ⟨hlt', -⟩ | ⟨hle, hlim, hg⟩
    · omega
    · refine ⟨⟨?_, ?_, hg.from_.old hs.old⟩, hg.length_, fun _ => ?_⟩
      · rw [hg.length_, hg.max_length_]
        exact Nat.le_trans hs.length_le hle
      · rw [hg.max_length_]
        exact hlim
      · rw [hg.max_length_]
        exact hlt
  · rcases growVector_spec hs.length_le hn h with ⟨-, rfl⟩ | ⟨hle, hlim, hg⟩
    · exact ⟨hs, rfl, fun h0 => absurd h0 hn⟩
    · refine ⟨⟨?_, ?_, hg.from_.old hs.old⟩, hg.length_, fun h0 => absurd h0 hn⟩
      · rw [hg.length_, hg.max_length_]
        exact Nat.le_trans hs.length_le hle
      · rw [hg.max_length_]
        exact hlim

theorem Sane.emplaceBack (hs : Sane M s) {v : ν} (h : HipcVector.emplaceBack E M s v = some t) :
    Sane M t := by
  obtain ⟨u, hu, rfl⟩ := Option.map_eq_some_iff.mp h
  have hroom : Sane M u ∧ u.length_ < u.max_length_ := by
    unfold growIfFull at hu
    split at hu
    · rename_i hfull
      obtain ⟨hsu, hlen, hlt⟩ := hs.growVector hu
      have := hlt rfl
      exact ⟨hsu, by omega⟩
    · cases hu
      exact ⟨hs, Nat.lt_of_le_of_ne hs.length_le ‹_›⟩
  exact ⟨hroom.2, hroom.1.small, (From.makeAr u u.length_ v).old hroom.1.old⟩

/-- An erasure of `count` elements. -/
theorem Sane.shiftLeft (hs : Sane M s) (pos count : Nat) :
    Sane M { HipcVector.shiftLeft s pos count with
      length_ := (HipcVector.shiftLeft s pos count).length_ - count } := by
  obtain ⟨hf, hlen, hmax⟩ := shiftLeft_from s pos count
  refine ⟨?_, ?_, hf.old hs.old⟩
  · have := hs.length_le
    simp only [hlen, hmax]
    omega
  · simp only [hmax]
    exact hs.small

theorem Sane.eraseRange (hs : Sane M s) {first last : Nat}
    (h : HipcVector.eraseRange s first last = some t) : Sane M t := by
  unfold HipcVector.eraseRange at h
  split at h
  · cases h
    exact hs
  generalize (if isEnd s last then s.length_ else last) = last_i at h
  simp only at h
  split at h
  · cases h
  split at h
  · cases h
    exact hs
  · cases h
    exact hs.shiftLeft first (last_i - first)

theorem Sane.call {c : Call ν κ} (hs : Sane M s) (h : HipcVector.call T M s c = some t) :
    Sane M t := by
  cases c with
  | resize length args => exact hs.resize h
  | reserve length =>
    simp only [HipcVector.call, reserve] at h
    split at h
    · cases h
      exact hs
    · exact (hs.growVector h).1
  | emplaceBack v => exact hs.emplaceBack h
  | erase pos =>
    cases h
    unfold erase
    split
    · exact hs
    · exact hs.shiftLeft pos 1
  | eraseRange first last => exact hs.eraseRange h
  | clear => exact hs.eraseRange h

theorem run_sane {calls : List (Call ν κ)} (h : Run (call T M) Unrestricted (init ν) calls s) :
    Sane M s :=
  h.invariant (I := Sane M) (init_sane M) fun _ _ _ hs _ h => hs.call h

/-! ## Resizing -/

/-- Where the arguments last, each construction takes the same value from them. -/
theorem Args.Lasts.value_left {a : κ} {rvalue : Bool} {k : Nat}
    (h : (Args.given a rvalue).Lasts T n) (hk : k < n) :
    T.value ((T.left rvalue)^[k] a) = T.value a := by
  cases rvalue with
  | false => rw [Constructible.left, if_neg Bool.false_ne_true, Function.iterate_id, id]
  | true => exact h rfl k hk

/-- Inside the capacity, a resize makes no new element. -/
theorem Sane.resized_inside (hs : Sane M s) (hn : n = 0 ∨ n < s.max_length_) :
    Resized T s { s with length_ := n } n args ↔ Resizable T s n args := by
  refine ⟨fun h => ⟨h.dropped, fun hlt => ?_⟩, fun h => ⟨rfl, fun _ _ => rfl, fun i hi hin => ?_,
    h.shrink⟩⟩
  · obtain ⟨o, ho, hle, -⟩ := h.fresh s.length_ (Nat.le_refl _) hlt
    exact absurd (hs.old _ o ho) (Nat.not_lt.mpr hle)
  · have := (h.grow (by omega)).1
    omega

/-- Past the capacity, a resize makes new elements, from what is left of the arguments. -/
theorem Grown.resized (hg : Grown T.toElemType s u n) (hle : s.length_ ≤ n)
    (hmax : s.max_length_ ≤ n) :
    Resized T s { makeElems T u s.length_ args (n - s.length_) with length_ := n } n args ↔
      Resizable T s n args := by
  obtain ⟨-, hptr, -, hframe⟩ := makeElems_frame T u s.length_ args (n - s.length_)
  have hkept : ∀ i < min n s.length_, getRef T.toElemType
      { makeElems T u s.length_ args (n - s.length_) with length_ := n } i =
        getRef T.toElemType s i := fun i hi =>
    (getRef_congr (hframe i (by omega)) hptr).trans (hg.kept i (by omega))
  have hnone : ∀ i, n ≤ i → ¬ i < s.length_ := fun i hi hlt => by omega
  cases args with
  | element j =>
    refine ⟨fun h => ⟨.inr fun i hi hlt => absurd hlt (hnone i hi), fun hlt => ?_⟩,
      fun h => ⟨rfl, hkept, fun i hi hin => (h.grow (by omega)).2.elim,
        .inr fun i hi hlt => absurd hlt (hnone i hi)⟩⟩
    obtain ⟨o, ho, -⟩ := h.fresh s.length_ (Nat.le_refl _) hlt
    rw [makeElems_element] at ho
    simp only at ho
    rw [if_pos (by omega)] at ho
    cases ho
  | given a rvalue =>
    obtain ⟨live', hlive, he⟩ := makeElems_given T u s.length_ a rvalue (n - s.length_)
    -- the new object in a slot
    have hslot : ∀ i, s.length_ ≤ i → i < n →
        (makeElems T u s.length_ (.given a rvalue) (n - s.length_)).slots i =
          some ⟨T.value ((T.left rvalue)^[i - s.length_] a),
            u.constructions + (i - s.length_), u.vec_ptr_, i⟩ := fun i hi hin => by
      rw [he]
      exact if_pos (by omega)
    have hvalue : ∀ i, s.length_ ≤ i → i < n → getRef T.toElemType
        { makeElems T u s.length_ (.given a rvalue) (n - s.length_) with length_ := n } i =
          some (T.value ((T.left rvalue)^[i - s.length_] a)) := fun i hi hin => by
      simp only [getRef, hslot i hi hin, hptr, Option.bind_some, or_true, if_true]
    refine ⟨fun h => ⟨.inr fun i hi hlt => absurd hlt (hnone i hi), fun _ => ⟨hmax, ?_⟩⟩,
      fun h => ⟨rfl, hkept, fun i hi hin => ⟨_, hslot i hi hin, ?_, ?_, ?_⟩,
        .inr fun i hi hlt => absurd hlt (hnone i hi)⟩⟩
    · rintro rfl j hj
      obtain ⟨o, -, -, -, hv⟩ := h.fresh (s.length_ + j) (Nat.le_add_right ..) (by omega)
      rw [hvalue _ (Nat.le_add_right ..) (by omega), Nat.add_sub_cancel_left] at hv
      exact Option.some.inj hv
    · exact Nat.le_trans hg.from_.1 (Nat.le_add_right ..)
    · rw [he]
      exact (hlive _).mpr (.inr ⟨Nat.le_add_right .., by simp only; omega⟩)
    · rw [hvalue i hi hin, (h.grow (by omega)).2.value_left (by omega)]
      rfl

/-- **A resize constructs past the capacity only.** In every run a resize, which returns
where there is memory, is right exactly where it is `Resizable`. -/
theorem resize_iff {calls : List (Call ν κ)} (h : Run (call T M) Unrestricted (init ν) calls s)
    (n : Nat) (args : Args κ) :
    (n ≤ M.limit → ∃ t, resize T M s n args = some t) ∧
      ∀ t, resize T M s n args = some t → (Resized T s t n args ↔ Resizable T s n args) := by
  have hs := run_sane h
  refine ⟨resize_some T s args, fun t ht => ?_⟩
  rcases resize_cases hs ht with ⟨hn, rfl⟩ | ⟨⟨hmax, -⟩, u, hg, rfl⟩
  · exact hs.resized_inside hn
  · exact hg.resized (Nat.le_trans hs.length_le hmax) hmax

/-- Plain numbers, which construct themselves. -/
def number : Constructible Nat Nat where
  pod := true
  relocatable _ := true
  pod_relocatable _ _ := rfl
  trivial := true
  value := id
  moved := id

def smallMemory : Memory := { limit := 1024, small := by decide }

/-- Three elements more, past the capacity. -/
theorem resize_iff_grow : ∃ s t, Run (call number smallMemory) Unrestricted (init Nat)
    [.resize 3 (.given 7 false), .emplaceBack 5, .erase 0] s ∧
    resize number smallMemory s 16 (.given 9 true) = some t ∧
    Resized number s t 16 (.given 9 true) := by
  have hex : (exec (call number smallMemory) (init Nat)
      [.resize 3 (.given 7 false), .emplaceBack 5, .erase 0]).map
        (fun s => (s.length_, s.max_length_)) = some (3, 13) := by
    decide +kernel
  obtain ⟨s, hs, he⟩ := Option.map_eq_some_iff.mp hex
  obtain ⟨hlen, hmax⟩ := Prod.mk.inj he
  obtain ⟨hret, hiff⟩ := resize_iff (run_iff_exec.mpr hs) 16 (.given 9 true)
  obtain ⟨t, ht⟩ := hret (by decide)
  refine ⟨s, t, run_iff_exec.mpr hs, ht, (hiff t ht).mpr ⟨.inl rfl, fun _ => ⟨by omega, ?_⟩⟩⟩
  exact fun _ j _ => congrFun (Function.iterate_id j) 9

/-- **Inside the capacity nothing is constructed.** After `reserve` a resize has elements
that were never constructed. -/
theorem reserved_not_constructed : ¬ ∀ (s t : State Nat) (calls : List (Call Nat Nat)) (n : Nat)
    (args : Args Nat), Run (call number smallMemory) Unrestricted (init Nat) calls s →
      resize number smallMemory s n args = some t → Resized number s t n args := by
  intro h
  have hex : ((exec (call number smallMemory) (init Nat) [.reserve 4]).bind fun s =>
      (resize number smallMemory s 2 (.given 7 false)).map fun t =>
        (s.length_, (t.slots 0).isSome)) = some (0, false) := by
    decide +kernel
  obtain ⟨s, hs, he⟩ := Option.bind_eq_some_iff.mp hex
  obtain ⟨t, ht, he⟩ := Option.map_eq_some_iff.mp he
  obtain ⟨hlen, hslot⟩ := Prod.mk.inj he
  obtain ⟨o, ho, -⟩ := (h s t _ 2 _ (run_iff_exec.mpr hs) ht).fresh 0 (Nat.le_of_eq hlen)
    (by decide)
  rw [ho] at hslot
  cases hslot

end HermesShm.Ipc.HipcVector
