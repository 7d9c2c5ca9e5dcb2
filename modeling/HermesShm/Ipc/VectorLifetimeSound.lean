import HermesShm.Ipc.VectorLifetime
import Mathlib.Tactic.Abel

/-! # A vector keeps what it owns

Each member turns what a vector owns into what it owns afterwards, beside any frame. -/
namespace HermesShm.Ipc.VectorLifetime
open HermesShm.Base HermesShm.Ipc.Lifetime

variable {ε α : Type} {P : Placement} {T : ElemType ε α} {O : Ownership T} {l : Heap}
  {v other raw : Vec ε} {a n length pos first last : Nat} {F : Multiset Block}

namespace Vec

theorem setNull_ok (ha : v.alloc = a) : v.setNull.Ok O a :=
  ⟨ha, fun _ => rfl, le_rfl, nofun⟩

theorem init_owns : (init raw a).owns O = 0 := rfl

theorem init_ok : (init raw a).Ok O a := setNull_ok rfl

/-- A vector with the same array, of elements that are objects. -/
theorem Ok.withElems {slots : Nat → ε} {max_length : Nat} (hok : v.Ok O a) (hn : n ≤ max_length)
    (hnull : v.vec_ptr_ = none → max_length = 0) (he : ∀ i, i < n → O.Ok a (slots i)) :
    Ok O a { v with slots := slots, length_ := n, max_length_ := max_length } :=
  ⟨hok.alloc_eq, hnull, hn, he⟩

theorem free_array (h : l.Holds (v.arrayOwns + F)) :
    (match v.vec_ptr_ with
      | none => l
      | some off => free l v.alloc off).Holds F := by
  unfold arrayOwns at h
  cases hv : v.vec_ptr_ with
  | none => simpa [hv] using h
  | some off =>
    simp only [hv] at h
    exact free_holds h

/-! ## Growth -/

/-- The new array has the elements of the old one. -/
structure Rehoused (O : Ownership T) (v w : Vec ε) : Prop where
  alloc_eq : w.alloc = v.alloc
  length_eq : w.length_ = v.length_
  not_null : w.vec_ptr_ ≠ none
  elems : ∀ i, i < v.length_ → O.Ok v.alloc (w.slots i)

theorem newArray_holds (hok : v.Ok O a) (h : l.Holds (v.owns O + F)) :
    (newArray P T l v).2.Holds ((newArray P T l v).1.owns O + F) ∧
      Rehoused O v (newArray P T l v).1 := by
  unfold newArray
  by_cases hp : T.pod = true
  · have hpod : ∀ slots : Nat → ε, ∀ n, elemOwns O slots n = 0 := fun _ _ => elemOwns_pod hp
    rw [if_pos hp]
    rw [owns, hpod, add_zero, arrayOwns] at h
    cases hv : v.vec_ptr_ with
    | none =>
      rw [hv] at h
      refine ⟨?_, ⟨rfl, rfl, nofun, fun _ _ => O.pod_ok hp _ _⟩⟩
      simp only [owns, hpod, add_zero, arrayOwns]
      exact allocate_holds (h.congr (zero_add F))
    | some off =>
      rw [hv] at h
      refine ⟨?_, ⟨rfl, rfl, nofun, fun _ _ => O.pod_ok hp _ _⟩⟩
      simp only [owns, hpod, add_zero, arrayOwns]
      exact reallocate_holds h
  · rw [if_neg hp]
    have hnew := allocate_holds (P := P) (a := v.alloc) h
    obtain ⟨hm, hoks⟩ := moveEach_holds (T := T) (O := O) (a := v.alloc) v.slots (T.raw l.calls)
      (n := v.length_)
      (F := v.arrayOwns + ({(v.alloc, (allocate P l v.alloc).1)} + F))
      (fun i hi => hok.alloc_eq ▸ hok.elems i hi)
      (hnew.congr (by rw [owns, add_left_comm, add_assoc v.arrayOwns, add_left_comm v.arrayOwns]))
    refine ⟨?_, ⟨rfl, rfl, nofun, hoks⟩⟩
    have hf := free_array (hm.congr (add_left_comm _ _ _))
    exact hf.congr (by simp only [owns, arrayOwns]; rw [add_left_comm, add_assoc])

/-- Growth without construction: the elements are kept, and there is at least the
space asked for, or more of it. -/
theorem growVector_holds (max_length : Nat) (hok : v.Ok O a) (h : l.Holds (v.owns O + F)) :
    (growVector P T l v max_length none).2.Holds
        ((growVector P T l v max_length none).1.owns O + F) ∧
      (growVector P T l v max_length none).1.Ok O a ∧
      (growVector P T l v max_length none).1.length_ = v.length_ ∧
      v.max_length_ ≤ (growVector P T l v max_length none).1.max_length_ ∧
      (max_length = 0 → 5 * v.max_length_ < 2 ^ 64 →
        v.max_length_ < (growVector P T l v max_length none).1.max_length_) := by
  simp only [growVector]
  have hgt := HipcVector.lt_nextLength (m := v.max_length_)
  generalize hm : (if max_length = 0 then HipcVector.nextLength v.max_length_ else max_length) = m
  by_cases hlt : m < v.max_length_
  · rw [if_pos hlt]
    refine ⟨h, hok, rfl, le_rfl, fun h0 hfits => ?_⟩
    have := hgt hfits
    rw [if_pos h0] at hm
    omega
  · rw [if_neg hlt]
    obtain ⟨hl, hr⟩ := newArray_holds (P := P) hok h
    refine ⟨hl, ⟨hr.alloc_eq.trans hok.alloc_eq, fun h0 => absurd h0 hr.not_null, ?_, ?_⟩,
      hr.length_eq, not_lt.mp hlt, fun h0 hfits => ?_⟩
    · have := hok.length_le
      have := hr.length_eq
      show (newArray P T l v).1.length_ ≤ m
      omega
    · intro i hi
      exact hok.alloc_eq ▸ hr.elems i (hr.length_eq ▸ hi)
    · have := hgt hfits
      rw [if_pos h0] at hm
      show v.max_length_ < m
      omega

theorem reserve_holds (length : Nat) (hok : v.Ok O a)
    (h : l.Holds (v.owns O + F)) :
    (reserve P T l v length).2.Holds ((reserve P T l v length).1.owns O + F) ∧
      (reserve P T l v length).1.Ok O a ∧ (reserve P T l v length).1.length_ = v.length_ ∧
      v.max_length_ ≤ (reserve P T l v length).1.max_length_ := by
  unfold reserve
  split
  · exact ⟨h, hok, rfl, le_rfl⟩
  · obtain ⟨hl, hok', hlen, hmax, -⟩ := growVector_holds (P := P) length hok h
    exact ⟨hl, hok', hlen, hmax⟩

/-! ## Elements put in -/

/-- One more element, in the slot behind the last. -/
theorem append_holds {x : Args ε α} (hx : O.MakeOk x) (hok : v.Ok O a)
    (hlt : v.length_ < v.max_length_) (h : l.Holds (v.owns O + F)) :
    (T.make l a x).2.Holds
        (owns O { v with slots := Function.update v.slots v.length_ (T.make l a x).1
                         length_ := v.length_ + 1 } + F) ∧
      Ok O a { v with slots := Function.update v.slots v.length_ (T.make l a x).1
                      length_ := v.length_ + 1 } := by
  obtain ⟨hm, hmok⟩ := O.make_holds l a x _ hx h
  refine ⟨hm.congr ?_, hok.withElems hlt hok.null fun i hi => ?_⟩
  · simp only [owns, elemOwns_update, arrayOwns]
    rw [← add_assoc, add_comm (O.owns _), ← add_assoc]
  · by_cases hin : i = v.length_
    · subst hin
      rw [Function.update_self]
      exact hmok
    · rw [Function.update_of_ne hin]
      exact hok.elems i (by omega)

/-- While `n` elements are put in, there is room or a quarter more does not overflow. -/
def Spacious (v : Vec ε) (n : Nat) : Prop :=
  v.length_ + n ≤ v.max_length_ ∨ 5 * (v.length_ + n) < 2 ^ 64 + 5

theorem emplaceBack_holds {x : Args ε α} (hx : O.MakeOk x) (hok : v.Ok O a) (hs : v.Spacious 1)
    (h : l.Holds (v.owns O + F)) :
    (emplaceBack P T l v x).2.Holds ((emplaceBack P T l v x).1.owns O + F) ∧
      (emplaceBack P T l v x).1.Ok O a ∧
      v.max_length_ ≤ (emplaceBack P T l v x).1.max_length_ := by
  obtain rfl := hok.alloc_eq
  simp only [emplaceBack]
  by_cases hfull : v.length_ = v.max_length_
  · simp only [hfull, if_true]
    rw [← hfull]
    obtain ⟨hl, hok', hlen, hle, hgt⟩ := growVector_holds (P := P) 0 hok h
    have := hgt rfl (by unfold Spacious at hs; omega)
    rw [← hlen]
    obtain ⟨hm, hmok⟩ := append_holds hx hok' (by omega) hl
    exact ⟨hm, hmok, by omega⟩
  · simp only [hfull, if_false]
    have := hok.length_le
    obtain ⟨hm, hmok⟩ := append_holds hx hok (by omega) h
    exact ⟨hm, hmok, le_rfl⟩

/-- Another object in one slot: the old one and the rest are apart. -/
theorem owns_split (hpos : pos < v.length_) :
    ∃ R, v.owns O = O.owns (v.slots pos) + R ∧
      ∀ e, owns O { v with slots := Function.update v.slots pos e } = O.owns e + R := by
  have hmem : pos ∈ Finset.range v.length_ := Finset.mem_range.mpr hpos
  refine ⟨v.arrayOwns + ∑ i ∈ (Finset.range v.length_).erase pos, O.owns (v.slots i), ?_,
    fun e => ?_⟩
  · rw [owns, elemOwns, ← Finset.add_sum_erase _ _ hmem, add_left_comm]
  · simp only [owns, elemOwns, arrayOwns]
    rw [← Finset.add_sum_erase _ _ hmem, add_left_comm, Function.update_self]
    congr 2
    refine Finset.sum_congr rfl fun i hi => ?_
    rw [Function.update_of_ne (Finset.ne_of_mem_erase hi)]

theorem replace_holds (pos : Nat) {x : Args ε α} (hx : O.MakeOk x) (hok : v.Ok O a)
    (h : l.Holds (v.owns O + F)) :
    (replace T l v pos x).2.Holds ((replace T l v pos x).1.owns O + F) ∧
      (replace T l v pos x).1.Ok O a := by
  obtain rfl := hok.alloc_eq
  simp only [replace]
  by_cases hpos : v.length_ ≤ pos
  · rw [if_pos hpos]
    exact ⟨h, hok⟩
  · rw [if_neg hpos]
    obtain ⟨R, hR, hupd⟩ := owns_split (O := O) (not_le.mp hpos)
    rw [hR, add_assoc] at h
    have hd := O.destroy_holds _ _ _ _ (hok.elems pos (not_le.mp hpos)) h
    obtain ⟨hm, hmok⟩ := O.make_holds _ v.alloc x _ hx hd
    refine ⟨hm.congr (by rw [hupd, add_assoc]), hok.withElems hok.length_le hok.null fun i hi => ?_⟩
    by_cases hin : i = pos
    · subst hin
      rw [Function.update_self]
      exact hmok
    · rw [Function.update_of_ne hin]
      exact hok.elems i hi

/-! ## Elements taken out -/

theorem popBack_holds (hok : v.Ok O a) (h : l.Holds (v.owns O + F)) :
    (popBack T l v).2.Holds ((popBack T l v).1.owns O + F) ∧ (popBack T l v).1.Ok O a := by
  unfold popBack
  by_cases hn : v.length_ = 0
  · rw [if_pos hn]
    exact ⟨h, hok⟩
  · rw [if_neg hn]
    obtain ⟨k, hk⟩ := Nat.exists_eq_succ_of_ne_zero hn
    have hkl : k < v.length_ := by omega
    rw [owns, hk, elemOwns_succ] at h
    have hd := O.destroy_holds _ a _ _ (hok.elems k hkl)
      (h.congr (by rw [← add_assoc, add_comm _ (O.owns _), add_assoc]))
    have hother : ∀ i, i < k → ∀ e, Function.update v.slots k e i = v.slots i := fun i hi e =>
      Function.update_of_ne (Nat.ne_of_lt hi) _ _
    simp only [hk, Nat.succ_eq_add_one, Nat.add_sub_cancel]
    have := hok.length_le
    refine ⟨hd.congr ?_, hok.withElems (by omega) hok.null fun i hi => ?_⟩
    · simp only [owns, arrayOwns]
      rw [elemOwns_congr fun i hi => hother i hi _]
    · rw [hother i hi]
      exact hok.elems i (by omega)

/-- The elements of a range are destroyed, and those behind it follow. -/
theorem shiftLeft_holds {count : Nat} (hle : pos + count ≤ v.length_) (hok : v.Ok O a)
    (h : l.Holds (v.owns O + F)) :
    (shiftLeft T l v pos count).2.Holds
        (owns O { (shiftLeft T l v pos count).1 with length_ := v.length_ - count } + F) ∧
      Ok O a { (shiftLeft T l v pos count).1 with length_ := v.length_ - count } := by
  obtain ⟨rest, hrest⟩ := Nat.exists_eq_add_of_le hle
  have hslots : ∀ i, (shiftLeft T l v pos count).1.slots i =
      if pos ≤ i ∧ i < pos + rest then (destroyEach T l v.slots pos count).1 (i + count)
      else (destroyEach T l v.slots pos count).1 i := by
    intro i
    simp only [shiftLeft, moveDown_eq]
    rw [hrest, Nat.add_sub_cancel_left]
  have hlow : ∀ i, i < pos → (shiftLeft T l v pos count).1.slots i = v.slots i := by
    intro i hi
    rw [hslots, if_neg (by omega), destroyEach_other (.inl hi)]
  have hhigh : ∀ i, i < rest →
      (shiftLeft T l v pos count).1.slots (pos + i) = v.slots (pos + count + i) := by
    intro i hi
    rw [hslots, if_pos (by omega), destroyEach_other (.inr (by omega))]
    congr 1
    omega
  have hlen : v.length_ - count = pos + rest := by omega
  rw [hlen]
  have := hok.length_le
  have hmax : pos + rest ≤ v.max_length_ := by omega
  refine ⟨?_, hok.withElems hmax hok.null fun i hi => ?_⟩
  · have hsplit : v.owns O + F =
        elemOwns O (fun i => v.slots (pos + i)) count +
          (v.arrayOwns + (elemOwns O v.slots pos +
            elemOwns O (fun i => v.slots (pos + count + i)) rest) + F) := by
      rw [owns, hrest, elemOwns_add, elemOwns_add]
      abel
    rw [hsplit] at h
    refine (destroyEach_holds (fun i hi => hok.elems (pos + i) (by omega)) h).congr ?_
    show _ = v.arrayOwns + elemOwns O (shiftLeft T l v pos count).1.slots (pos + rest) + F
    rw [elemOwns_add, elemOwns_congr hlow, elemOwns_congr hhigh]
  · by_cases hip : i < pos
    · show O.Ok a ((shiftLeft T l v pos count).1.slots i)
      rw [hlow i hip]
      exact hok.elems i (by omega)
    · obtain ⟨k, rfl⟩ := Nat.exists_eq_add_of_le (not_lt.mp hip)
      show O.Ok a ((shiftLeft T l v pos count).1.slots (pos + k))
      rw [hhigh k (by omega)]
      exact hok.elems _ (by omega)

theorem eraseRange_holds (hok : v.Ok O a) (h : l.Holds (v.owns O + F)) :
    (eraseRange T l v first last).2.Holds ((eraseRange T l v first last).1.owns O + F) ∧
      (eraseRange T l v first last).1.Ok O a := by
  simp only [eraseRange]
  by_cases hend : v.length_ ≤ first
  · rw [if_pos hend]
    exact ⟨h, hok⟩
  · rw [if_neg hend]
    split
    · exact ⟨h, hok⟩
    · exact shiftLeft_holds (by omega) hok h

theorem erase_holds (hok : v.Ok O a) (h : l.Holds (v.owns O + F)) :
    (erase T l v pos).2.Holds ((erase T l v pos).1.owns O + F) ∧ (erase T l v pos).1.Ok O a := by
  unfold erase
  by_cases hend : v.length_ ≤ pos
  · rw [if_pos hend]
    exact ⟨h, hok⟩
  · rw [if_neg hend]
    exact shiftLeft_holds (by omega) hok h

theorem clear_length : (clear T l v).1.length_ = 0 := by
  simp only [clear, eraseRange, min_self, Nat.sub_zero]
  by_cases hn : v.length_ = 0
  · rw [if_pos (by omega)]
    exact hn
  · rw [if_neg (by omega), if_neg hn]
    exact Nat.sub_self _

theorem clear_ptr : (clear T l v).1.vec_ptr_ = v.vec_ptr_ := by
  simp only [clear, eraseRange]
  split
  · rfl
  · split <;> rfl

theorem clear_alloc : (clear T l v).1.alloc = v.alloc := by
  simp only [clear, eraseRange]
  split
  · rfl
  · split <;> rfl

theorem clear_holds (hok : v.Ok O a) (h : l.Holds (v.owns O + F)) :
    (clear T l v).2.Holds ((clear T l v).1.owns O + F) ∧ (clear T l v).1.Ok O a :=
  eraseRange_holds hok h

/-! ## Lengths -/

theorem newArray_length : (newArray P T l v).1.length_ = v.length_ := by
  unfold newArray
  split
  · split <;> rfl
  · rfl

theorem growVector_length {max_length : Nat} {x : Option α} :
    (growVector P T l v max_length x).1.length_ = v.length_ := by
  simp only [growVector]
  generalize (if max_length = 0 then HipcVector.nextLength v.max_length_ else max_length) = m
  by_cases hlt : m < v.max_length_
  · rw [if_pos hlt]
  · rw [if_neg hlt]
    exact newArray_length

theorem reserve_length : (reserve P T l v n).1.length_ = v.length_ := by
  unfold reserve
  split
  · rfl
  · exact growVector_length

theorem emplaceBack_length {x : Args ε α} :
    (emplaceBack P T l v x).1.length_ = v.length_ + 1 := rfl

theorem copyEach_length {at_ : Option Block} {slots : Nat → ε} :
    (copyEach P T l v at_ slots n).1.length_ = v.length_ + n := by
  induction n with
  | zero => rfl
  | succ n ih =>
    simp only [copyEach, emplaceBack_length, ih]
    omega

/-- Elements that are not plain bytes are copied behind those there are. -/
theorem strongCopyMain_length (other : Vec ε) (hp : ¬ T.pod = true) :
    (strongCopyMain P T l v other).1.length_ = v.length_ + other.length_ := by
  simp only [strongCopyMain, hp]
  exact copyEach_length.trans (by rw [reserve_length])

/-! ## Destruction, copies and moves -/

theorem Ok.length_of_null (hok : v.Ok O a) (hv : v.vec_ptr_ = none) : v.length_ = 0 := by
  have := hok.null hv
  have := hok.length_le
  omega

theorem Ok.owns_of_null (hok : v.Ok O a) (hv : v.vec_ptr_ = none) : v.owns O = 0 := by
  rw [owns, arrayOwns, hv, hok.length_of_null hv, elemOwns_zero, add_zero]

theorem shmDestroy_holds (hok : v.Ok O a) (h : l.Holds (v.owns O + F)) :
    (shmDestroy T l v).2.Holds F ∧ (shmDestroy T l v).1.Ok O a ∧
      (shmDestroy T l v).1.vec_ptr_ = none ∧ (shmDestroy T l v).1.length_ = 0 := by
  unfold shmDestroy isNull
  cases hv : v.vec_ptr_ with
  | none =>
    refine ⟨h.congr ?_, hok, hv, hok.length_of_null hv⟩
    rw [hok.owns_of_null hv, zero_add]
  | some off =>
    obtain ⟨hl, hok'⟩ := clear_holds hok h
    have hempty : (clear T l v).1.length_ = 0 := clear_length
    have hptr : (clear T l v).1.arrayOwns = {(v.alloc, off)} := by
      rw [arrayOwns, clear_alloc, clear_ptr, hv]
    rw [owns, hempty, elemOwns_zero, add_zero, hptr] at hl
    simp only [Option.isNone_some, Bool.false_eq_true, if_false, shmDestroyMain, hv]
    exact ⟨free_holds hl, setNull_ok hok'.alloc_eq, rfl, rfl⟩

theorem shmDestroy_owns (hok : v.Ok O a) (h : l.Holds (v.owns O + F)) :
    (shmDestroy T l v).1.owns O = 0 := by
  obtain ⟨-, hok', hnull, -⟩ := shmDestroy_holds hok h
  exact hok'.owns_of_null hnull

/-- A plain copy of the bytes, into an array with the space. -/
theorem copyBytes_holds {slots : Nat → ε} (hp : T.pod = true) (hok : v.Ok O a)
    (hn : n ≤ v.max_length_) (h : l.Holds (v.owns O + F)) :
    l.Holds (owns O { v with slots := slots, length_ := n } + F) ∧
      Ok O a { v with slots := slots, length_ := n } := by
  refine ⟨h.congr ?_, hok.withElems hn hok.null fun _ _ => O.pod_ok hp _ _⟩
  simp only [owns, elemOwns_pod hp, arrayOwns]

theorem reserve_le : length ≤ (reserve P T l v length).1.max_length_ := by
  unfold reserve
  by_cases h0 : length = 0
  · rw [if_pos h0]
    omega
  · rw [if_neg h0]
    simp only [growVector, h0, if_false]
    split
    · rename_i hlt
      exact hlt.le
    · exact le_rfl

theorem copyEach_holds {slots : Nat → ε} {at_ : Option Block} {a' : Nat} (hokv : v.Ok O a)
    (hs : v.Spacious n) (hslots : ∀ i, i < n → O.Ok a' (slots i)) (h : l.Holds (v.owns O + F)) :
    (copyEach P T l v at_ slots n).2.Holds ((copyEach P T l v at_ slots n).1.owns O + F) ∧
      (copyEach P T l v at_ slots n).1.Ok O a ∧
      v.max_length_ ≤ (copyEach P T l v at_ slots n).1.max_length_ := by
  induction n with
  | zero => exact ⟨h, hokv, le_rfl⟩
  | succ n ih =>
    unfold Spacious at hs
    obtain ⟨hl, hok', hmax⟩ := ih (by unfold Spacious; omega) fun i hi => hslots i (by omega)
    have hlen : (copyEach P T l v at_ slots n).1.length_ = v.length_ + n := copyEach_length
    obtain ⟨hl', hok'', hmax'⟩ := emplaceBack_holds (P := P) (x := .copyOf at_ (slots n))
      ⟨a', hslots n (by omega)⟩ hok' (by unfold Spacious; omega) hl
    exact ⟨hl', hok'', hmax.trans hmax'⟩

/-- Elements put behind those there are have the room for it. -/
def CopyFits (T : ElemType ε α) (v other : Vec ε) : Prop :=
  T.pod = true ∨ v.length_ = 0 ∨ v.Spacious other.length_

theorem strongCopyMain_holds {a' : Nat} (hok : v.Ok O a) (hother : other.Ok O a')
    (hs : CopyFits T v other) (h : l.Holds (v.owns O + F)) :
    (strongCopyMain P T l v other).2.Holds ((strongCopyMain P T l v other).1.owns O + F) ∧
      (strongCopyMain P T l v other).1.Ok O a := by
  obtain ⟨hl, hok', hlen, hmax⟩ := reserve_holds (P := P) other.length_ hok h
  have hle : other.length_ ≤ (reserve P T l v other.length_).1.max_length_ := reserve_le
  unfold strongCopyMain
  by_cases hp : T.pod = true
  · simp only [hp, if_true]
    exact copyBytes_holds hp hok' hle hl
  · simp only [hp]
    have hs' : (reserve P T l v other.length_).1.Spacious other.length_ := by
      unfold CopyFits Spacious at hs
      unfold Spacious
      rcases hs with hs | hs | hs
      · exact absurd hs hp
      · omega
      · omega
    obtain ⟨hc, hcok, -⟩ := copyEach_holds (P := P) hok' hs' hother.elems hl
    exact ⟨hc, hcok⟩

theorem copyCtor_holds {a' : Nat} (hother : other.Ok O a') (h : l.Holds F) :
    (copyCtor P T l raw a other).2.Holds ((copyCtor P T l raw a other).1.owns O + F) ∧
      (copyCtor P T l raw a other).1.Ok O a :=
  strongCopyMain_holds init_ok hother (.inr (.inl rfl)) (h.congr (by rw [init_owns, zero_add]))

/-- **Copy assignment** gives back all that the target owned. -/
theorem copyAssign_holds {a' : Nat} (hok : v.Ok O a) (hother : other.Ok O a')
    (h : l.Holds (v.owns O + F)) :
    (copyAssign P T l v other).2.Holds ((copyAssign P T l v other).1.owns O + F) ∧
      (copyAssign P T l v other).1.Ok O a := by
  obtain ⟨hl, hok', -, hlen⟩ := shmDestroy_holds hok h
  have hnone := shmDestroy_owns hok h
  exact strongCopyMain_holds hok' hother (.inr (.inl hlen)) (hl.congr (by rw [hnone, zero_add]))

/-- After a move the target has all that there is, and the other vector is null. -/
structure Moved (O : Ownership T) (a a' : Nat) (F : Multiset Block) (r : Vec ε × Vec ε × Heap) :
    Prop where
  holds : r.2.2.Holds (r.1.owns O + F)
  ok : r.1.Ok O a
  other_ok : r.2.1.Ok O a'
  other_null : r.2.1.vec_ptr_ = none

/-- With one allocator the header is copied. -/
theorem moveOp_same_holds {a' : Nat} (hv : v.alloc = a) (ha : v.alloc = other.alloc)
    (hother : other.Ok O a') (h : l.Holds (other.owns O + F)) :
    Moved O a a' F (moveOp P T l v other) := by
  unfold moveOp
  rw [if_pos ha]
  refine ⟨h, ?_, setNull_ok hother.alloc_eq, rfl⟩
  rw [← hv, ha, hother.alloc_eq]
  exact hother

/-- With two allocators the elements are copied behind those of the target. -/
theorem moveOp_apart_holds {a' : Nat} (hok : v.Ok O a) (ha : v.alloc ≠ other.alloc)
    (hother : other.Ok O a') (hs : CopyFits T v other)
    (h : l.Holds (v.owns O + (other.owns O + F))) : Moved O a a' F (moveOp P T l v other) := by
  unfold moveOp
  rw [if_neg ha]
  obtain ⟨hl, hok'⟩ := strongCopyMain_holds (P := P) hok hother hs h
  obtain ⟨hl', hok'', hnull, -⟩ := shmDestroy_holds hother (hl.congr (add_left_comm _ _ _))
  exact ⟨hl', hok', hok'', hnull⟩

/-- **Move assignment** onto a vector of the same allocator only where it has no
array. -/
theorem moveAssign_holds {a' : Nat} (hok : v.Ok O a) (hother : other.Ok O a')
    (hg : v.alloc = other.alloc → v.vec_ptr_ = none)
    (hs : v.alloc ≠ other.alloc → CopyFits T v other)
    (h : l.Holds (v.owns O + (other.owns O + F))) : Moved O a a' F (moveOp P T l v other) := by
  by_cases ha : v.alloc = other.alloc
  · rw [hok.owns_of_null (hg ha), zero_add] at h
    exact moveOp_same_holds hok.alloc_eq ha hother h
  · exact moveOp_apart_holds hok ha hother (hs ha) h

/-- Bytes that say that there is no array. -/
def Blank (v : Vec ε) : Prop := v.vec_ptr_ = none ∧ v.max_length_ = 0 ∧ v.length_ = 0

theorem Blank.ok (h : v.Blank) (ha : v.alloc = a) : v.Ok O a :=
  ⟨ha, fun _ => h.2.1, h.2.2.trans_le (Nat.zero_le _), fun i hi => by have := h.2.2; omega⟩

theorem Blank.owns (h : v.Blank) : v.owns O = 0 := (h.ok rfl).owns_of_null h.1

theorem moveCtor_holds {a' : Nat} (hother : other.Ok O a') (hg : a = other.alloc ∨ raw.Blank)
    (h : l.Holds (other.owns O + F)) : Moved O a a' F (moveCtor P T l raw a other) := by
  unfold moveCtor
  by_cases ha : a = other.alloc
  · exact moveOp_same_holds rfl ha hother h
  · have hraw : Blank { raw with alloc := a } := hg.resolve_left ha
    exact moveOp_apart_holds (hraw.ok rfl) ha hother (.inr (.inl hraw.2.2))
      (h.congr (by rw [hraw.owns, zero_add]))

/-! ## `resize` -/

/-- It neither drops an element that owns blocks, nor makes an element of a slot where
nothing is constructed. -/
def KeepsElems (O : Ownership T) (v : Vec ε) (n : Nat) : Prop :=
  T.pod = true ∨ v.max_length_ ≤ n ∨
    n ≤ v.length_ ∧ ∀ i, i < v.length_ → n ≤ i → O.owns (v.slots i) = 0

theorem cut_holds (hok : v.Ok O a) (hn : n ≤ v.length_)
    (hdrop : ∀ i, i < v.length_ → n ≤ i → O.owns (v.slots i) = 0) (h : l.Holds (v.owns O + F)) :
    l.Holds (owns O { v with length_ := n } + F) ∧ Ok O a { v with length_ := n } := by
  have := hok.length_le
  refine ⟨h.congr ?_, hok.withElems (by omega) hok.null fun i hi => hok.elems i (by omega)⟩
  obtain ⟨k, hk⟩ := Nat.exists_eq_add_of_le hn
  have hzero : elemOwns O (fun i => v.slots (n + i)) k = 0 :=
    Finset.sum_eq_zero fun i hi => hdrop _ (by have := Finset.mem_range.mp hi; omega) (by omega)
  simp only [owns, arrayOwns, hk, elemOwns_add, hzero, add_zero]

/-- A resize to the space there is or more constructs all that comes in. -/
theorem grow_holds {x : α} (hx : O.ArgsOk x) (hok : v.Ok O a) (hn : v.max_length_ ≤ n) (h0 : n ≠ 0)
    (h : l.Holds (v.owns O + F)) :
    (growVector P T l v n (some x)).2.Holds
        (owns O { (growVector P T l v n (some x)).1 with length_ := n } + F) ∧
      Ok O a { (growVector P T l v n (some x)).1 with length_ := n } := by
  simp only [growVector, h0, if_false, not_lt.mpr hn]
  obtain ⟨hl, hr⟩ := newArray_holds (P := P) hok h
  have hlen := hok.length_le
  obtain ⟨k, hk⟩ := Nat.exists_eq_add_of_le (hlen.trans hn)
  rw [owns, hr.length_eq, add_comm (arrayOwns _), add_assoc] at hl
  obtain ⟨hm, hoks⟩ := makeEach_holds (x := x) (n := k) hx hl hr.elems
  have hsub : n - v.length_ = k := by omega
  rw [hsub]
  subst hk
  refine ⟨hm.congr ?_, hr.alloc_eq.trans hok.alloc_eq, fun hnull => absurd hnull hr.not_null,
    le_rfl, fun i hi => hok.alloc_eq ▸ hoks i hi⟩
  simp only [owns, arrayOwns]
  rw [add_left_comm, add_assoc]

theorem resize_holds {x : α} (hx : O.ArgsOk x) (hok : v.Ok O a) (hk : KeepsElems O v n)
    (h : l.Holds (v.owns O + F)) :
    (resize P T l v n x).2.Holds ((resize P T l v n x).1.owns O + F) ∧
      (resize P T l v n x).1.Ok O a := by
  unfold resize
  by_cases h0 : n = 0
  · subst h0
    rw [if_pos rfl]
    rcases hk with hp | hmax | ⟨hn, hdrop⟩
    · exact copyBytes_holds hp hok (Nat.zero_le _) h
    · have := hok.length_le
      exact cut_holds hok (Nat.zero_le _) (fun i hi _ => by omega) h
    · exact cut_holds hok hn hdrop h
  · rw [if_neg h0]
    by_cases hmax : v.max_length_ ≤ n
    · exact grow_holds hx hok hmax h0 h
    · simp only [growVector, h0, if_false, not_le.mp hmax, if_true]
      rcases hk with hp | hmax' | ⟨hn, hdrop⟩
      · exact copyBytes_holds hp hok (by omega) h
      · exact absurd hmax' hmax
      · exact cut_holds hok hn hdrop h

theorem initLength_holds (raw : Vec ε) {x : α} (hx : O.ArgsOk x) (h : l.Holds F) :
    (initLength P T l raw a n x).2.Holds ((initLength P T l raw a n x).1.owns O + F) ∧
      (initLength P T l raw a n x).1.Ok O a :=
  resize_holds hx init_ok (.inr (.inl (Nat.zero_le n))) (h.congr (by rw [init_owns, zero_add]))

/-! ## Vectors as elements -/

/-- The arguments of a constructor of vectors. -/
inductive VecArgs (α : Type)
  | none
  | length (n : Nat) (x : α)

def VecArgs.construct (P : Placement) (T : ElemType ε α) (raw : Vec ε) (l : Heap) (a : Nat) :
    VecArgs α → Vec ε × Heap
  | .none => (init raw a, l)
  | .length n x => initLength P T l raw a n x

def elemType (P : Placement) (T : ElemType ε α) (raw : Nat → Nat → Vec ε) :
    ElemType (Vec ε) (VecArgs α) where
  pod := false
  raw
  noArgs := .none
  construct l a x := x.construct P T (raw l.calls 0) l a
  copy l a _ other := copyCtor P T l (raw l.calls 0) a other
  move l a raw other := moveCtor P T l raw a other
  destroy := shmDestroy T

/-- A vector of vectors owns its array, the arrays in it and what their elements own. -/
def ownership (P : Placement) (O : Ownership T) (raw : Nat → Nat → Vec ε) :
    Ownership (elemType P T raw) where
  owns v := v.owns O
  Ok a v := v.Ok O a
  ArgsOk
    | .none => True
    | .length _ x => O.ArgsOk x
  noArgs_ok := trivial
  pod_owns h := by cases h
  pod_ok h := by cases h
  construct_holds _ _ x F hx h := by
    cases x with
    | none => exact ⟨h.congr (zero_add F).symm, init_ok⟩
    | length n x => exact initLength_holds _ hx h
  copy_holds _ _ _ _ _ _ hok h := copyCtor_holds hok h
  move_holds _ _ _ _ _ hok h :=
    have hm := moveCtor_holds hok (.inl hok.alloc_eq.symm) h
    ⟨hm.holds, hm.ok⟩
  destroy_holds _ _ _ _ hok h := (shmDestroy_holds hok h).1

end Vec

end HermesShm.Ipc.VectorLifetime
