import HermesShm.Ipc.HipcVector
import Mathlib.Data.List.Perm.Basic

/-! # `hipc::vector` against the plain sequence

The slots below `length_` hold a list of objects. An insertion and an erasure
move bytes only, so an object found in a slot may have been constructed in
another one; growth constructs every object again where it will stay. -/
namespace HermesShm.Ipc.HipcVector
open HermesShm.Base

variable {ν : Type} {T : ElemType ν} {M : Memory} {s t : State ν} {objs : List (Obj ν)}

/-- The first slots hold `objs`, each with a value. The other live objects are
`others`. -/
structure Holds (T : ElemType ν) (s : State ν) (objs : List (Obj ν)) (others : List Nat) :
    Prop where
  slot : ∀ i, i < objs.length → s.slots i = objs[i]?
  home : ∀ (i : Nat) (o : Obj ν), objs[i]? = some o →
    T.relocatable o.val = true ∨ o.home = (s.vec_ptr_, i)
  live : s.live.Perm (objs.map (·.id) ++ others)
  nodup : s.live.Nodup
  fresh : ∀ n ∈ s.live, n < s.constructions

structure Inv (T : ElemType ν) (M : Memory) (s : State ν) (objs : List (Obj ν)) : Prop
    extends Holds T s objs [] where
  length : objs.length = s.length_
  length_le : s.length_ ≤ s.max_length_
  small : s.max_length_ ≤ M.limit

theorem Holds.value {others : List Nat} (h : Holds T s objs others) {i : Nat}
    (hi : i < objs.length) :
    getRef T s i = (objs.map (·.val))[i]? := by
  obtain ⟨o, ho⟩ : ∃ o, objs[i]? = some o := ⟨_, List.getElem?_eq_getElem hi⟩
  simp only [getRef, h.slot i hi, ho, Option.bind_some, if_pos (h.home i o ho), List.getElem?_map,
    Option.map_some]

theorem Inv.sound (h : Inv T M s objs) : Sound T s (objs.map (·.val)) where
  length_le := h.length_le
  length_eq := by rw [List.length_map, h.length]
  value i hi := h.value (h.length ▸ hi)
  once := by
    refine ⟨objs.map (·.id), by rw [List.length_map, h.length], ?_, ?_, ?_⟩
    · have hl := h.live
      rw [List.append_nil] at hl
      exact hl.nodup_iff.mp h.nodup
    · simpa using h.live
    · intro i hi
      rw [h.slot i (h.length ▸ hi), List.getElem?_map]

theorem Inv.init (M : Memory) : Inv T M (init ν) [] where
  slot i hi := absurd hi (Nat.not_lt_zero i)
  home i o ho := by cases ho
  live := .refl _
  nodup := List.nodup_nil
  fresh n hn := by cases hn
  length := rfl
  length_le := Nat.le_refl _
  small := Nat.zero_le _

/-! ## Loops -/

theorem State.with_slots (s : State ν) {f : Nat → Option (Obj ν)} (h : ∀ j, f j = s.slots j) :
    { s with slots := f } = s := by
  rw [funext h]

theorem moveDown_eq (s : State ν) (dst k n : Nat) :
    moveDown s dst (dst + k) n =
      { s with
        slots := fun j => if dst ≤ j ∧ j < dst + n then s.slots (j + k) else s.slots j } := by
  induction n generalizing s dst with
  | zero =>
    exact (s.with_slots fun j => if_neg (by omega)).symm
  | succ n ih =>
    rw [moveDown, show dst + k + 1 = dst + 1 + k by omega, ih]
    simp only [memcpy, State.mk.injEq, true_and, and_true]
    funext j
    -- the slots read by the later copies lie above `dst`
    by_cases hj : j = dst
    · subst hj
      rw [if_neg (by omega), if_pos (by omega), Function.update_self]
    · rw [Function.update_of_ne hj]
      by_cases hin : dst + 1 ≤ j ∧ j < dst + 1 + n
      · rw [if_pos hin, if_pos (by omega), Function.update_of_ne (by omega)]
      · rw [if_neg hin, if_neg (by omega)]

theorem moveUp_eq (s : State ν) (src k n : Nat) (hn : n ≤ src + 1) :
    moveUp s (src + k) src n =
      { s with slots := fun j =>
          if src + k < j + n ∧ j ≤ src + k then s.slots (j - k) else s.slots j } := by
  induction n generalizing s src with
  | zero =>
    exact (s.with_slots fun j => if_neg (by omega)).symm
  | succ n ih =>
    cases src with
    | zero =>
      obtain rfl : n = 0 := by omega
      simp only [moveUp, memcpy, State.mk.injEq, true_and, and_true]
      funext j
      by_cases hj : j = 0 + k
      · subst hj
        rw [if_pos (by omega), Function.update_self, Nat.zero_add, Nat.sub_self]
      · rw [if_neg (by omega), Function.update_of_ne hj]
    | succ src =>
      rw [moveUp, show src + 1 + k - 1 = src + k by omega, Nat.add_sub_cancel, ih _ _ (by omega)]
      simp only [memcpy, State.mk.injEq, true_and, and_true]
      funext j
      by_cases hj : j = src + 1 + k
      · subst hj
        rw [if_neg (by omega), if_pos (by omega), Function.update_self]
        congr 1
        omega
      · rw [Function.update_of_ne hj]
        by_cases hin : src + k < j + n ∧ j ≤ src + k
        · rw [if_pos hin, if_pos (by omega), Function.update_of_ne (by omega)]
        · rw [if_neg hin, if_neg (by omega)]

theorem destroyAr_length_ (i : Nat) : (destroyAr s i).length_ = s.length_ := by
  unfold destroyAr
  split <;> rfl

theorem destroyEach_eq {mid : List (Obj ν)} {i : Nat}
    (h : ∀ k, k < mid.length → s.slots (i + k) = mid[k]?) :
    destroyEach s i mid.length = { s with live := s.live.diff (mid.map (·.id)) } := by
  induction mid generalizing s i with
  | nil => rfl
  | cons o mid ih =>
    have ho : s.slots i = some o := h 0 (Nat.succ_pos _)
    have hd : destroyAr s i = { s with live := s.live.erase o.id } := by
      simp only [destroyAr, ho]
    rw [List.length_cons, destroyEach, hd, ih]
    · simp only [List.map_cons, List.diff_cons]
    · intro k hk
      have := h (k + 1) (Nat.succ_lt_succ hk)
      rwa [← Nat.add_assoc, Nat.add_right_comm] at this

/-! ## One object more, or fewer -/

theorem Holds.nodup_cons {others : List Nat} (h : Holds T s objs others) :
    (s.constructions :: s.live).Nodup :=
  List.nodup_cons.mpr ⟨fun hm => Nat.lt_irrefl _ (h.fresh _ hm), h.nodup⟩

theorem Holds.fresh_cons {others : List Nat} (h : Holds T s objs others) :
    ∀ n ∈ s.constructions :: s.live, n < s.constructions + 1 := by
  intro n hn
  cases hn with
  | head => exact Nat.lt_succ_self _
  | tail _ hn => exact Nat.lt_succ_of_lt (h.fresh n hn)

/-- Construct at the end. -/
theorem Holds.append {others : List Nat} (h : Holds T s objs others) (v : ν) :
    ∃ o : Obj ν, o.val = v ∧ Holds T (makeAr s objs.length v) (objs ++ [o]) others := by
  refine ⟨⟨v, s.constructions, s.vec_ptr_, objs.length⟩, rfl, ?_, ?_, ?_, h.nodup_cons,
    h.fresh_cons⟩
  · intro i hi
    rw [List.length_append, List.length_singleton] at hi
    rcases Nat.lt_succ_iff_lt_or_eq.mp hi with hi | rfl
    · rw [List.getElem?_append_left hi, ← h.slot i hi]
      exact Function.update_of_ne (Nat.ne_of_lt hi) ..
    · rw [List.getElem?_concat_length]
      exact Function.update_self ..
  · intro i o ho
    have hi := (List.getElem?_eq_some_iff.mp ho).1
    rw [List.length_append, List.length_singleton] at hi
    rcases Nat.lt_succ_iff_lt_or_eq.mp hi with hi | rfl
    · exact h.home i o (by rwa [List.getElem?_append_left hi] at ho)
    · rw [List.getElem?_concat_length] at ho
      cases ho
      exact .inr rfl
  · have : (s.constructions :: (objs.map (·.id) ++ others)).Perm
        (objs.map (·.id) ++ s.constructions :: others) := List.perm_middle.symm
    rw [List.map_append, List.append_assoc]
    exact (h.live.cons _).trans this

/-- Destroy or move from another object. -/
theorem Holds.forget {others : List Nat} {n : Nat} (h : Holds T s objs (n :: others)) :
    Holds T { s with live := s.live.erase n } objs others where
  slot := h.slot
  home := h.home
  live := by
    have := (h.live.trans List.perm_middle).erase n
    rwa [List.erase_cons_head] at this
  nodup := h.nodup.erase n
  fresh m hm := h.fresh m (List.mem_of_mem_erase hm)

/-- Destroy a range and close the gap. -/
theorem Inv.remove {pre mid post : List (Obj ν)} (h : Inv T M s (pre ++ (mid ++ post)))
    (hk : ∀ o ∈ post, T.relocatable o.val = true) :
    let t := shiftLeft s pre.length mid.length
    Inv T M { t with length_ := t.length_ - mid.length } (pre ++ post) := by
  have hlen : pre.length + (mid.length + post.length) = s.length_ := by
    simpa using h.length
  have hmid : ∀ k, k < mid.length → s.slots (pre.length + k) = mid[k]? := by
    intro k hk
    rw [h.slot _ (by simp only [List.length_append]; omega), List.getElem?_append_right (by omega),
      Nat.add_sub_cancel_left, List.getElem?_append_left hk]
  have hshift : shiftLeft s pre.length mid.length =
      { s with
        slots := fun j =>
          if pre.length ≤ j ∧ j < pre.length + post.length then s.slots (j + mid.length)
          else s.slots j
        live := s.live.diff (mid.map (·.id)) } := by
    rw [shiftLeft, destroyEach_eq hmid, moveDown_eq,
      show s.length_ - (pre.length + mid.length) = post.length by omega]
  have hsub : s.live.diff (mid.map (·.id)) ⊆ s.live := List.diff_subset ..
  rw [hshift]
  refine ⟨⟨?_, ?_, ?_, (List.diff_sublist ..).nodup h.nodup, fun n hn => h.fresh n (hsub hn)⟩,
    ?_, ?_, h.small⟩
  · intro i hi
    rw [List.length_append] at hi
    by_cases hp : i < pre.length
    · refine (if_neg (by omega)).trans ?_
      rw [h.slot i (by simp only [List.length_append]; omega),
        List.getElem?_append_left hp, List.getElem?_append_left hp]
    · refine (if_pos (by omega)).trans ?_
      rw [h.slot _ (by simp only [List.length_append]; omega),
        List.getElem?_append_right (by omega), List.getElem?_append_right (by omega),
        List.getElem?_append_right (by omega)]
      congr 1
      omega
  · intro i o ho
    by_cases hp : i < pre.length
    · rw [List.getElem?_append_left hp] at ho
      exact h.home i o (by rwa [List.getElem?_append_left hp])
    · rw [List.getElem?_append_right (by omega)] at ho
      exact .inl (hk o (List.mem_of_getElem? ho))
  · have hperm : s.live.Perm (mid.map (·.id) ++ (pre ++ post).map (·.id)) := by
      refine h.live.trans ?_
      simp only [List.map_append, List.append_nil, ← List.append_assoc]
      exact List.perm_append_comm.append_right _
    have hcount : ∀ n ∈ mid.map (·.id), (mid.map (·.id)).count n ≤ s.live.count n := by
      intro n _
      rw [hperm.count_eq, List.count_append]
      exact Nat.le_add_right ..
    rw [List.append_nil]
    exact (List.perm_append_left_iff _).mp
      ((List.subperm_append_diff_self_of_count_le hcount).trans hperm)
  · rw [List.length_append]
    show _ = s.length_ - mid.length
    omega
  · exact Nat.le_trans (Nat.sub_le ..) h.length_le

/-- Open a gap and construct in it. -/
theorem Inv.insert {pre post : List (Obj ν)} (h : Inv T M s (pre ++ post))
    (hk : ∀ o ∈ post, T.relocatable o.val = true) (hlt : s.length_ < s.max_length_) (v : ν) :
    let t := makeAr (shiftRight s pre.length 1) pre.length v
    ∃ o : Obj ν, o.val = v ∧ Inv T M { t with length_ := t.length_ + 1 } (pre ++ o :: post) := by
  have hlen : pre.length + post.length = s.length_ := by
    simpa using h.length
  have hshift : shiftRight s pre.length 1 =
      { s with slots := fun j =>
          if s.length_ - 1 + 1 < j + (s.length_ - pre.length) ∧ j ≤ s.length_ - 1 + 1 then
            s.slots (j - 1)
          else s.slots j } :=
    moveUp_eq _ _ _ _ (by omega)
  rw [hshift]
  refine ⟨⟨v, s.constructions, s.vec_ptr_, pre.length⟩, rfl,
    ⟨?_, ?_, ?_, h.nodup_cons, h.fresh_cons⟩, ?_, hlt, h.small⟩
  · intro i hi
    rw [List.length_append, List.length_cons] at hi
    rcases Nat.lt_trichotomy i pre.length with hp | rfl | hp
    · refine (Function.update_of_ne (Nat.ne_of_lt hp) ..).trans ((if_neg (by omega)).trans ?_)
      rw [h.slot i (by rw [List.length_append]; omega),
        List.getElem?_append_left hp, List.getElem?_append_left hp]
    · rw [List.getElem?_append_right (Nat.le_refl _), Nat.sub_self]
      exact Function.update_self ..
    · refine (Function.update_of_ne (Nat.ne_of_gt hp) ..).trans ((if_pos (by omega)).trans ?_)
      rw [h.slot _ (by rw [List.length_append]; omega),
        List.getElem?_append_right (by omega), List.getElem?_append_right (by omega),
        show i - pre.length = i - 1 - pre.length + 1 by omega, List.getElem?_cons_succ]
  · intro i o ho
    rcases Nat.lt_trichotomy i pre.length with hp | rfl | hp
    · rw [List.getElem?_append_left hp] at ho
      exact h.home i o (by rwa [List.getElem?_append_left hp])
    · rw [List.getElem?_append_right (Nat.le_refl _), Nat.sub_self] at ho
      cases ho
      exact .inr rfl
    · rw [List.getElem?_append_right (by omega),
        show i - pre.length = i - 1 - pre.length + 1 by omega, List.getElem?_cons_succ] at ho
      exact .inl (hk o (List.mem_of_getElem? ho))
  · have : (s.constructions :: s.live).Perm (s.constructions :: (pre ++ post).map (·.id)) := by
      simpa using h.live
    refine this.trans ?_
    simp only [List.map_append, List.map_cons, List.append_nil]
    exact List.perm_middle.symm
  · rw [List.length_append, List.length_cons]
    show _ = s.length_ + 1
    omega

theorem getElem?_replace {pre post : List (Obj ν)} {o o' : Obj ν} {i : Nat} (hi : i ≠ pre.length) :
    (pre ++ o :: post)[i]? = (pre ++ o' :: post)[i]? := by
  rcases Nat.lt_or_gt_of_ne hi with hi | hi
  · rw [List.getElem?_append_left hi, List.getElem?_append_left hi]
  · rw [List.getElem?_append_right (Nat.le_of_lt hi), List.getElem?_append_right (Nat.le_of_lt hi),
      show i - pre.length = i - pre.length - 1 + 1 by omega]
    rfl

/-- Destroy an object and construct another one in its slot. -/
theorem Inv.replace {pre post : List (Obj ν)} {old : Obj ν} (h : Inv T M s (pre ++ old :: post))
    (v : ν) :
    ∃ o : Obj ν, o.val = v ∧
      Inv T M (makeAr (destroyAr s pre.length) pre.length v) (pre ++ o :: post) := by
  have hold : s.slots pre.length = some old := by
    rw [h.slot _ (by simp), List.getElem?_append_right (Nat.le_refl _), Nat.sub_self]
    rfl
  have hd : destroyAr s pre.length = { s with live := s.live.erase old.id } := by
    simp only [destroyAr, hold]
  rw [hd]
  have hlive : s.live.Perm (old.id :: (pre ++ post).map (·.id)) := by
    refine h.live.trans ?_
    simp only [List.map_append, List.map_cons, List.append_nil]
    exact List.perm_middle
  have herase : (s.live.erase old.id).Perm ((pre ++ post).map (·.id)) := by
    have := hlive.erase old.id
    rwa [List.erase_cons_head] at this
  refine ⟨⟨v, s.constructions, s.vec_ptr_, pre.length⟩, rfl, ⟨?_, ?_, ?_, ?_, ?_⟩, ?_,
    h.length_le, h.small⟩
  · intro i hi
    rw [List.length_append, List.length_cons] at hi
    by_cases hp : i = pre.length
    · subst hp
      rw [List.getElem?_append_right (Nat.le_refl _), Nat.sub_self]
      exact Function.update_self ..
    · refine (Function.update_of_ne hp ..).trans ?_
      rw [h.slot i (by simpa using hi)]
      exact getElem?_replace hp
  · intro i o ho
    by_cases hp : i = pre.length
    · subst hp
      rw [List.getElem?_append_right (Nat.le_refl _), Nat.sub_self] at ho
      cases ho
      exact .inr rfl
    · exact h.home i o (by rwa [getElem?_replace hp])
  · refine (herase.cons s.constructions).trans ?_
    simp only [List.map_append, List.map_cons, List.append_nil]
    exact List.perm_middle.symm
  · exact List.nodup_cons.mpr ⟨fun hm => Nat.lt_irrefl _ (h.fresh _ (List.mem_of_mem_erase hm)),
      h.nodup.erase _⟩
  · intro n hn
    cases hn with
    | head => exact Nat.lt_succ_self _
    | tail _ hn => exact Nat.lt_succ_of_lt (h.fresh n (List.mem_of_mem_erase hn))
  · show (pre ++ _ :: post).length = s.length_
    rw [← h.length, List.length_append, List.length_append]
    rfl

/-! ## Growth -/

theorem Memory.lt_nextLength (M : Memory) {m : Nat} (hm : m ≤ M.limit) : m < nextLength m := by
  have hsmall := M.small
  exact HipcVector.lt_nextLength (by omega)

/-- One turn of the move loop. -/
theorem Holds.moveElem {moved : List (Obj ν)} {o : Obj ν} {others : List Nat}
    (h : Holds T t moved (o.id :: others)) (hs : s.slots moved.length = some o)
    (hv : getRef T s moved.length = some o.val) :
    ∃ o', o'.val = o.val ∧
      Holds T (HipcVector.moveElem T s t moved.length) (moved ++ [o']) others := by
  obtain ⟨o', hval, h⟩ := h.append o.val
  refine ⟨o', hval, ?_⟩
  simp only [HipcVector.moveElem, hs, hv]
  exact h.forget

/-- The move loop, with `moved` done and `rest` to do. -/
theorem Holds.moveElems {moved rest : List (Obj ν)} (h : Holds T t moved (rest.map (·.id)))
    (hs : ∀ k, k < rest.length → s.slots (moved.length + k) = rest[k]?)
    (hv : ∀ k, k < rest.length → getRef T s (moved.length + k) = (rest.map (·.val))[k]?) :
    ∃ objs', objs'.map (·.val) = (moved ++ rest).map (·.val) ∧
      Holds T (HipcVector.moveElems T s t moved.length rest.length) objs' [] := by
  induction rest generalizing moved t with
  | nil => exact ⟨moved, by rw [List.append_nil], h⟩
  | cons o rest ih =>
    obtain ⟨o', hval, h'⟩ := h.moveElem (hs 0 (Nat.succ_pos _)) (hv 0 (Nat.succ_pos _))
    have hnext : ∀ k, (moved ++ [o']).length + k = moved.length + (k + 1) := by
      intro k
      rw [List.length_append, List.length_singleton]
      omega
    obtain ⟨objs', hvals, hr⟩ := ih h'
      (fun k hk => by rw [hnext]; exact hs (k + 1) (Nat.succ_lt_succ hk))
      (fun k hk => by rw [hnext]; exact hv (k + 1) (Nat.succ_lt_succ hk))
    refine ⟨objs', ?_, ?_⟩
    · rw [hvals]
      simp only [List.map_append, List.map_cons, hval, List.append_assoc,
        List.singleton_append]
    · rwa [List.length_append] at hr

@[simp] theorem moveElem_length_ (i : Nat) : (moveElem T s t i).length_ = t.length_ := by
  unfold moveElem
  split <;> rfl

@[simp] theorem moveElem_max_length_ (i : Nat) :
    (moveElem T s t i).max_length_ = t.max_length_ := by
  unfold moveElem
  split <;> rfl

@[simp] theorem moveElems_length_ (i n : Nat) : (moveElems T s t i n).length_ = t.length_ := by
  induction n generalizing t i with
  | zero => rfl
  | succ n ih => rw [moveElems, ih, moveElem_length_]

@[simp] theorem moveElems_max_length_ (i n : Nat) :
    (moveElems T s t i n).max_length_ = t.max_length_ := by
  induction n generalizing t i with
  | zero => rfl
  | succ n ih => rw [moveElems, ih, moveElem_max_length_]

/-- The bytes of the slots go to a larger array. -/
theorem Inv.realloc (h : Inv T M s objs) (hpod : T.pod = true) {m : Nat}
    (hm : s.max_length_ ≤ m) (hfit : m ≤ M.limit) :
    Inv T M { s with
      vec_ptr_ := s.arrays
      slots := fun i => if i < s.max_length_ then s.slots i else none
      max_length_ := m
      arrays := s.arrays + 1 } objs := by
  refine ⟨⟨?_, fun i o _ => .inl (T.pod_relocatable hpod o.val), h.live, h.nodup, h.fresh⟩,
    h.length, Nat.le_trans h.length_le hm, hfit⟩
  intro i hi
  refine (if_pos ?_).trans (h.slot i hi)
  rw [h.length] at hi
  exact Nat.lt_of_lt_of_le hi h.length_le

/-- The objects are constructed again in a larger array. -/
theorem Inv.moveElems (h : Inv T M s objs) {m : Nat} (hm : s.max_length_ ≤ m)
    (hfit : m ≤ M.limit) (ht : t = { s with
      vec_ptr_ := s.arrays
      slots := fun _ => none
      max_length_ := m
      arrays := s.arrays + 1 }) :
    ∃ objs', objs'.map (·.val) = objs.map (·.val) ∧
      Inv T M (HipcVector.moveElems T s t 0 s.length_) objs' := by
  have h0 : Holds T t [] (objs.map (·.id)) := by
    subst ht
    refine ⟨fun i hi => absurd hi (Nat.not_lt_zero i), fun i o ho => (by cases ho), ?_,
      h.nodup, h.fresh⟩
    simpa using h.live
  obtain ⟨objs', hvals, hr⟩ := h0.moveElems (s := s)
    (fun k hk => by rw [List.length_nil, Nat.zero_add]; exact h.slot k hk)
    (fun k hk => by rw [List.length_nil, Nat.zero_add]; exact h.value hk)
  rw [h.length] at hr
  subst ht
  refine ⟨objs', hvals, ⟨hr, ?_, ?_, ?_⟩⟩
  · have := congrArg List.length hvals
    rw [List.length_map, List.length_map] at this
    rw [moveElems_length_, this]
    exact h.length
  · rw [moveElems_length_, moveElems_max_length_]
    exact Nat.le_trans h.length_le hm
  · rw [moveElems_max_length_]
    exact hfit

/-- **Growth keeps the order and the values.** -/
theorem Inv.growVector (h : Inv T M s objs) {n : Nat} (hg : growVector T M s n = some t) :
    ∃ objs', objs'.map (·.val) = objs.map (·.val) ∧ Inv T M t objs' ∧
      (n = 0 → t.length_ < t.max_length_) := by
  simp only [HipcVector.growVector] at hg
  generalize hm : (if n = 0 then nextLength s.max_length_ else n) = m at hg
  have hgrow : n = 0 → s.max_length_ < m := by
    intro h0
    rw [← hm, if_pos h0]
    exact M.lt_nextLength h.small
  split at hg
  · -- nothing to do
    rename_i hlt
    cases hg
    exact ⟨objs, rfl, h, fun h0 => absurd hlt (Nat.not_lt_of_lt (hgrow h0))⟩
  split at hg
  · cases hg
  rename_i hle hfit
  have hle := Nat.not_lt.mp hle
  have hfit := Nat.not_lt.mp hfit
  split at hg
  · rename_i hpod
    cases hg
    exact ⟨objs, rfl, h.realloc hpod hle hfit, fun h0 => Nat.lt_of_le_of_lt h.length_le (hgrow h0)⟩
  · cases hg
    obtain ⟨objs', hvals, h'⟩ := h.moveElems hle hfit rfl
    refine ⟨objs', hvals, h', fun h0 => ?_⟩
    rw [moveElems_length_, moveElems_max_length_]
    exact Nat.lt_of_le_of_lt h.length_le (hgrow h0)

/-! ## Operations -/

/-- The vector holds the plain sequence `l`. -/
def Is (T : ElemType ν) (M : Memory) (s : State ν) (l : List ν) : Prop :=
  ∃ objs, objs.map (·.val) = l ∧ Inv T M s objs

variable {l : List ν}

theorem Is.length (h : Is T M s l) : l.length = s.length_ := by
  obtain ⟨objs, rfl, h⟩ := h
  rw [List.length_map, h.length]

theorem Is.sound (h : Is T M s l) : Sound T s l := by
  obtain ⟨objs, rfl, h⟩ := h
  exact h.sound

theorem Is.growIfFull (h : Is T M s l) (hg : growIfFull T M s = some t) :
    Is T M t l ∧ t.length_ < t.max_length_ := by
  obtain ⟨objs, rfl, h⟩ := h
  unfold HipcVector.growIfFull at hg
  split at hg
  · obtain ⟨objs', hvals, h', hlt⟩ := h.growVector hg
    exact ⟨⟨objs', hvals, h'⟩, hlt rfl⟩
  · rename_i hne
    cases hg
    exact ⟨⟨objs, rfl, h⟩, Nat.lt_of_le_of_ne h.length_le hne⟩

theorem Is.emplaceBack (h : Is T M s l) {v : ν} (he : emplaceBack T M s v = some t) :
    Is T M t (l ++ [v]) := by
  obtain ⟨u, hg, rfl⟩ := Option.map_eq_some_iff.mp he
  obtain ⟨⟨objs, rfl, hi⟩, hlt⟩ := h.growIfFull hg
  obtain ⟨o, rfl, ho⟩ := hi.append v
  rw [hi.length] at ho
  refine ⟨objs ++ [o], List.map_append, ⟨⟨ho.slot, ho.home, ho.live, ho.nodup, ho.fresh⟩, ?_, hlt,
    hi.small⟩⟩
  rw [List.length_append, hi.length]
  rfl

theorem Is.emplace (h : Is T M s l) {pos : Nat} {v : ν}
    (hk : ∀ v ∈ l.drop pos, T.relocatable v = true) (he : emplace T M s pos v = some t) :
    Is T M t (l.take pos ++ v :: l.drop pos) := by
  have hlen := h.length
  unfold HipcVector.emplace at he
  split at he
  · rename_i hend
    rw [List.take_of_length_le (hlen ▸ hend), List.drop_eq_nil_of_le (hlen ▸ hend)]
    exact h.emplaceBack he
  · rename_i hpos
    obtain ⟨u, hg, rfl⟩ := Option.map_eq_some_iff.mp he
    obtain ⟨⟨objs, rfl, hi⟩, hlt⟩ := h.growIfFull hg
    rw [List.length_map] at hlen
    have hpre : (objs.take pos).length = pos := List.length_take_of_le (by
      rw [hlen]
      exact Nat.le_of_lt (Nat.lt_of_not_le hpos))
    have hsplit := (List.take_append_drop pos objs).symm
    have hpost : ∀ o ∈ objs.drop pos, T.relocatable o.val = true := by
      intro o ho
      exact hk o.val (by rw [← List.map_drop]; exact List.mem_map_of_mem ho)
    obtain ⟨o, rfl, ho⟩ := (hsplit ▸ hi).insert hpost hlt v
    rw [hpre] at ho
    exact ⟨_, by rw [List.map_append, List.map_cons, List.map_take, List.map_drop], ho⟩

theorem Is.replace (h : Is T M s l) (pos : Nat) (v : ν) :
    Is T M (replace s pos v) (l.set pos v) := by
  have hlen := h.length
  unfold HipcVector.replace
  split
  · rename_i hend
    rwa [List.set_eq_of_length_le (hlen ▸ hend)]
  · rename_i hpos
    obtain ⟨objs, rfl, h⟩ := h
    rw [List.length_map] at hlen
    have hlt : pos < objs.length := hlen ▸ Nat.lt_of_not_le hpos
    have hpre : (objs.take pos).length = pos := List.length_take_of_le (Nat.le_of_lt hlt)
    have hsplit : objs = objs.take pos ++ objs[pos] :: objs.drop (pos + 1) := by
      rw [← List.drop_eq_getElem_cons hlt, List.take_append_drop]
    obtain ⟨o, rfl, ho⟩ := (hsplit ▸ h).replace v
    rw [hpre] at ho
    refine ⟨_, ?_, ho⟩
    rw [List.set_eq_take_append_cons_drop, if_pos (by rwa [List.length_map])]
    rw [List.map_append, List.map_cons, List.map_take, List.map_drop]

/-- What `erase`, `erase` of a range and `pop_back` do to the slots. -/
theorem Is.shiftLeft (h : Is T M s l) {first last : Nat} (hle : first ≤ last)
    (hlast : last ≤ s.length_) (hk : ∀ v ∈ l.drop last, T.relocatable v = true) :
    let t := HipcVector.shiftLeft s first (last - first)
    Is T M { t with length_ := t.length_ - (last - first) } (l.take first ++ l.drop last) := by
  have hlen := h.length
  obtain ⟨objs, rfl, h⟩ := h
  rw [List.length_map] at hlen
  have hpre : (objs.take first).length = first := List.length_take_of_le (by omega)
  have hmid : ((objs.drop first).take (last - first)).length = last - first :=
    List.length_take_of_le (by rw [List.length_drop]; omega)
  have hsplit :
      objs = objs.take first ++ ((objs.drop first).take (last - first) ++ objs.drop last) := by
    have : objs.drop last = (objs.drop first).drop (last - first) := by
      rw [List.drop_drop, Nat.add_sub_cancel' hle]
    rw [this, List.take_append_drop, List.take_append_drop]
  have hpost : ∀ o ∈ objs.drop last, T.relocatable o.val = true := by
    intro o ho
    exact hk o.val (by rw [← List.map_drop]; exact List.mem_map_of_mem ho)
  have hr := (hsplit ▸ h).remove hpost
  rw [hpre, hmid] at hr
  exact ⟨_, by rw [List.map_append, List.map_take, List.map_drop], hr⟩

theorem Is.eraseRange (h : Is T M s l) {first last : Nat}
    (hk : first = last ∨ ∀ v ∈ l.drop (max first last), T.relocatable v = true)
    (he : eraseRange s first last = some t) :
    Is T M t (l.take first ++ l.drop (max first last)) := by
  have hlen := h.length
  simp only [HipcVector.eraseRange] at he
  split at he
  · rename_i hend
    cases he
    have hfirst : l.length ≤ first := hlen ▸ hend
    rw [List.take_of_length_le hfirst, List.drop_eq_nil_of_le (by omega), List.append_nil]
    exact h
  rename_i hfirst
  have hfirst : first < s.length_ := Nat.lt_of_not_le hfirst
  generalize hlast : (if isEnd s last then s.length_ else last) = last_i at he
  -- the two ends of the range cut the sequence at the same places
  have hdrop : l.drop last = l.drop last_i ∧ last_i ≤ s.length_ ∧ last_i ≤ last := by
    split at hlast
    · rename_i hend
      subst hlast
      have hend : s.length_ ≤ last := hend
      rw [List.drop_eq_nil_of_le (by omega), List.drop_eq_nil_of_le (by omega)]
      exact ⟨rfl, Nat.le_refl _, hend⟩
    · rename_i hin
      subst hlast
      exact ⟨rfl, Nat.le_of_not_le hin, Nat.le_refl _⟩
  obtain ⟨hdrop, hle, hlast_le⟩ := hdrop
  split at he
  · cases he
  rename_i hord
  rw [Nat.max_eq_right (by omega), hdrop]
  split at he
  · rename_i hcount
    cases he
    obtain rfl : last_i = first := by omega
    rwa [List.take_append_drop]
  · rename_i hcount
    cases he
    refine h.shiftLeft (Nat.le_of_not_lt hord) hle ?_
    rw [← hdrop]
    rcases hk with rfl | hk
    · omega
    · rwa [Nat.max_eq_right (by omega)] at hk

theorem Is.erase (h : Is T M s l) {pos : Nat}
    (hk : ∀ v ∈ l.drop (pos + 1), T.relocatable v = true) :
    Is T M (erase s pos) (l.take pos ++ l.drop (pos + 1)) := by
  have hlen := h.length
  unfold HipcVector.erase
  split
  · rename_i hend
    have hpos : l.length ≤ pos := hlen ▸ hend
    rw [List.take_of_length_le hpos, List.drop_eq_nil_of_le (by omega), List.append_nil]
    exact h
  · rename_i hpos
    have := h.shiftLeft (Nat.le_add_right pos 1) (Nat.lt_of_not_le hpos) hk
    rwa [Nat.add_sub_cancel_left] at this

theorem Is.popBack (h : Is T M s l) : Is T M (popBack s) l.dropLast := by
  have hlen := h.length
  unfold HipcVector.popBack
  split
  · rename_i h0
    obtain rfl : l = [] := List.length_eq_zero_iff.mp (hlen.trans h0)
    exact h
  · rename_i h0
    -- the last element is erased, and nothing is copied
    have hk : ∀ v ∈ l.drop s.length_, T.relocatable v = true := by
      rw [← hlen, List.drop_length]
      exact nofun
    have := h.shiftLeft (Nat.sub_le s.length_ 1) (Nat.le_refl _) hk
    rw [show s.length_ - (s.length_ - 1) = 1 by omega, ← hlen, List.drop_length,
      List.append_nil, ← List.dropLast_eq_take, hlen] at this
    have hmove : HipcVector.shiftLeft s (s.length_ - 1) 1 = destroyAr s (s.length_ - 1) := by
      simp only [HipcVector.shiftLeft, destroyEach, destroyAr_length_]
      rw [Nat.sub_add_cancel (by omega), Nat.sub_self]
      rfl
    rwa [hmove] at this

theorem Is.reserve (h : Is T M s l) {n : Nat} (hs : reserve T M s n = some t) : Is T M t l := by
  unfold HipcVector.reserve at hs
  split at hs
  · cases hs
    exact h
  · obtain ⟨objs, rfl, h⟩ := h
    obtain ⟨objs', hvals, h', -⟩ := h.growVector hs
    exact ⟨objs', hvals, h'⟩

theorem Is.kept (h : Is T M s l) {op : Op ν} (hk : Kept T s op) :
    ∀ v ∈ l.drop (copiedFrom s op), T.relocatable v = true := by
  obtain ⟨objs, rfl, h⟩ := h
  intro v hv
  rw [← List.map_drop] at hv
  obtain ⟨o, ho, rfl⟩ := List.mem_map.mp hv
  obtain ⟨j, hj⟩ := List.getElem?_of_mem ho
  rw [List.getElem?_drop] at hj
  have hlt := (List.getElem?_eq_some_iff.mp hj).1
  exact hk _ (h.length ▸ hlt) (Nat.le_add_right ..) o ((h.slot _ hlt).trans hj)

/-- **One operation** does to the slots what it does to the plain sequence. -/
theorem Is.step (h : Is T M s l) {op : Op ν} (hk : Kept T s op) (hs : step T M s op = some t) :
    Is T M t (apply l op) := by
  have hk := h.kept hk
  cases op with
  | emplaceBack v => exact h.emplaceBack hs
  | emplace pos v => exact h.emplace hk hs
  | emplaceFront v => exact h.emplace hk hs
  | replace pos v =>
    cases hs
    exact h.replace pos v
  | erase pos =>
    cases hs
    exact h.erase hk
  | eraseRange first last =>
    refine h.eraseRange ?_ hs
    simp only [copiedFrom] at hk
    split at hk
    · rename_i heq
      exact .inl heq
    · exact .inr hk
  | popBack =>
    cases hs
    exact h.popBack
  | reserve n => exact h.reserve hs
  | clear =>
    have hdrop : l.drop s.length_ = [] := List.drop_eq_nil_of_le (Nat.le_of_eq h.length)
    have := h.eraseRange (.inr (by rw [Nat.max_eq_right (Nat.zero_le _), hdrop]; exact nofun)) hs
    rwa [Nat.max_eq_right (Nat.zero_le _), hdrop] at this

/-! ## Runs -/

/-- **The vector is the plain sequence**, over every run in which the shifts copy
only objects that survive it. -/
theorem kept_sequence (T : ElemType ν) (M : Memory) (ops : List (Op ν)) (s : State ν)
    (hr : Run (step T M) (Kept T) (init ν) ops s) : Sound T s (ops.foldl apply []) := by
  have h : Is T M s (ops.foldl apply []) := by
    refine hr.history (J := fun ops s => Is T M s (ops.foldl apply [])) ⟨[], rfl, .init M⟩ ?_
    intro ops s op t h hk hs
    rw [List.foldl_append]
    exact h.step hk hs
  exact h.sound

/-- `std::string`, by length: a string of up to 15 characters points into itself. -/
def string : ElemType Nat := ⟨false, fun length => 15 < length, nofun⟩

def int : ElemType Nat := ⟨true, fun _ => true, fun _ _ => rfl⟩

def memory : Memory := ⟨1000, by decide⟩

/-- Growth from 10 to 22 slots by `realloc`, insertions and erasures in the
middle; and a vector of strings, where an insertion is before long ones. -/
theorem kept_sequence_example :
    (∃ s : State Nat, s.max_length_ = 22 ∧ Sound int s [20, 90, 1, 2, 5, 6, 7, 8, 9]) ∧
    ∃ s : State Nat, s.max_length_ = 22 ∧ Sound string s [0, 70, 2, 3, 4, 5, 5, 20, 30] := by
  let fill : List (Op Nat) := (List.range 10).map .emplaceBack
  constructor
  · let ops := fill ++ [.emplaceFront 20, .emplace 2 90, .erase 1, .eraseRange 4 6, .erase 1,
      .emplace 1 90, .popBack, .emplaceBack 9]
    have hs :
        (execOk (step int memory) (Kept int) (init Nat) ops).map (·.max_length_) = some 22 := by
      decide +kernel
    obtain ⟨s, hs, hm⟩ := Option.map_eq_some_iff.mp hs
    exact ⟨s, hm, kept_sequence int memory ops s (run_of_execOk hs)⟩
  · let ops := fill ++ [.emplaceBack 10, .replace 1 70, .popBack, .erase 9, .eraseRange 6 20,
      .emplaceBack 20, .emplaceBack 30, .emplace 6 5]
    have hs : (execOk (step string memory) (Kept string) (init Nat) ops).map (·.max_length_) =
        some 22 := by
      decide +kernel
    obtain ⟨s, hs, hm⟩ := Option.map_eq_some_iff.mp hs
    exact ⟨s, hm, kept_sequence string memory ops s (run_of_execOk hs)⟩

/-- **An insertion moves a string away from its own buffer.** -/
theorem shift_unsound : ¬ ∀ (T : ElemType Nat) (M : Memory) (ops : List (Op Nat)) (s : State Nat),
    Run (step T M) Unrestricted (init Nat) ops s → Sound T s (ops.foldl apply []) := by
  intro h
  let ops : List (Op Nat) := [.emplaceBack 1, .emplaceFront 2]
  have hs : (exec (step string memory) (init Nat) ops).map
      (fun s => (s.length_, getRef string s 1)) = some (2, none) := by decide +kernel
  obtain ⟨s, hs, hv⟩ := Option.map_eq_some_iff.mp hs
  obtain ⟨hlen, hget⟩ := Prod.mk.inj hv
  have := (h string memory ops s (run_iff_exec.mpr hs)).value 1 (hlen ▸ Nat.lt_succ_self 1)
  rw [hget] at this
  cases this

end HermesShm.Ipc.HipcVector
