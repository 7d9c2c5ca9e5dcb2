import HermesShm.Ipc.HipcList
import HermesShm.Ipc.Slist

/-! # The singly linked list as a sequence

A `hipc::slist` is a plain sequence as long as nothing is inserted in its middle:
there, `emplace` links its entry past the one at the position. -/
namespace HermesShm.Ipc
open HermesShm.Base
open HipcList (Op)

namespace Slist

variable {α : Type}

/-- `begin() + i` -/
def at_ (h : Heap α) (s : Slist) (i : Nat) : Option (Option Ptr) := follow (nextPtr h) i s.begin_

/-- `erase(v)`: find the first entry equal to `v` and erase it. -/
def eraseValue [DecidableEq α] (h : Heap α) (s : Slist) (v : α) : Option (Heap α × Slist) := do
  erase h s (← h.findLoop (·.next_ptr_) (·.data_) v s.length_ s.begin_)

/-! ## Runs -/

def step [DecidableEq α] (l : Heap α × Slist) : Op α → Option (Heap α × Slist)
  | .emplace i p v => do emplace l.1 l.2 (← at_ l.1 l.2 i) p v
  | .emplaceFront p v => emplace l.1 l.2 l.2.begin_ p v
  | .emplaceBack p v => emplaceBack l.1 l.2 p v
  | .erase i j => do eraseRange l.1 l.2 (← at_ l.1 l.2 i) (← at_ l.1 l.2 j)
  | .eraseValue v => eraseValue l.1 l.2 v
  | .clear => clear l.1 l.2

/-- The allocator returns an entry that is not in use; `first` is not after `last`. -/
def Legal (l : Heap α × Slist) : Op α → Prop
  | .emplace _ p _ | .emplaceFront p _ | .emplaceBack p _ => l.1 p = none
  | .erase i j => i ≤ j
  | .eraseValue _ | .clear => True

instance (l : Heap α × Slist) : ∀ op, Decidable (Legal l op)
  | .emplace _ _ _ | .emplaceFront _ _ | .emplaceBack _ _ =>
    decidable_of_iff ((l.1 _).isNone = true) Option.isNone_iff_eq_none
  | .erase _ _ => inferInstanceAs (Decidable (_ ≤ _))
  | .eraseValue _ | .clear => isTrue trivial

/-- Insertions are at `begin()` or at `end()`. -/
def AtEnds (l : Heap α × Slist) : Op α → Prop
  | .emplace i _ _ => i = 0 ∨ l.2.length_ ≤ i
  | _ => True

instance (l : Heap α × Slist) : ∀ op, Decidable (AtEnds l op)
  | .emplace _ _ _ => inferInstanceAs (Decidable (_ ∨ _))
  | .emplaceFront _ _ | .emplaceBack _ _ | .erase _ _ | .eraseValue _ | .clear => isTrue trivial

/-! ## Operations -/

namespace Represents

variable {h : Heap α} {s : Slist} {ns : List (Ptr × α)} {p : Ptr}

theorem at_ (hr : Represents h s ns) (i : Nat) : at_ h s i = some (ns.map Prod.fst)[i]? := by
  rw [Slist.at_, hr.begin_, ← hr.next.head_none]
  exact hr.next.follow i

theorem emplace_front (hr : Represents h s ns) (hp : h p = none) (v : α) :
    ∃ h' s', emplace h s s.begin_ p v = some (h', s') ∧ Represents h' s' ((p, v) :: ns) := by
  cases ns with
  | nil =>
    refine ⟨_, _, if_pos hr.length, ⟨?_, rfl, by rw [hr.length]; rfl, ?_⟩⟩
    · exact ⟨rfl, none, by simp [nextPtr], rfl⟩
    · intro n hn
      cases List.mem_singleton.mp hn
      simp
  | cons n ns =>
    have hmem := hr.not_mem hp
    have hhead : s.head_ptr_ = some n.1 := hr.next.head_none
    have hbegin : s.begin_ = some n.1 := hr.begin_
    have h0 : s.length_ ≠ 0 := by rw [hr.length]; simp
    have his : s.isBegin (some n.1) = true := by simp [isBegin, hhead]
    refine ⟨h.put p (some ⟨s.head_ptr_, v⟩),
      { s with head_ptr_ := some p, length_ := s.length_ + 1 }, ?_,
      ⟨⟨rfl, s.head_ptr_, ?_, ?_⟩, ?_, ?_, ?_⟩⟩
    · unfold emplace
      rw [if_neg h0, hbegin, if_pos his]
    · rw [nextPtr, NodeHeap.link_put, Function.update_self]
      rfl
    · rw [nextPtr, NodeHeap.link_put]
      exact hr.next.update hmem _
    · rw [hr.tail]
      simp
    · simp [hr.length]
    · intro m hm
      rcases List.mem_cons.mp hm with rfl | hm
      · simp
      · have hne : m.1 ≠ p := fun he => hmem (he ▸ List.mem_map_of_mem hm)
        rw [NodeHeap.put_of_ne hne]
        exact hr.data m hm

/-- Erasing from position `i` to position `j`. -/
theorem erase_at (hr : Represents h s ns) {i j : Nat} (hij : i ≤ j) :
    ∃ h' s', Slist.eraseRange h s (ns.map Prod.fst)[i]? (ns.map Prod.fst)[j]? = some (h', s') ∧
      Represents h' s' (ns.take i ++ ns.drop j) := by
  have hdrop : (ns.drop i).take (j - i) ++ ns.drop j = ns.drop i := by
    conv_rhs => rw [← List.take_append_drop (j - i) (ns.drop i), List.drop_drop]
    rw [show i + (j - i) = j by omega]
  have hsplit : ns = ns.take i ++ ((ns.drop i).take (j - i) ++ ns.drop j) := by
    rw [hdrop, List.take_append_drop]
  have hi : (ns.map Prod.fst)[i]? =
      (((ns.drop i).take (j - i) ++ ns.drop j).map Prod.fst).head? := by
    rw [hdrop, List.map_drop, List.head?_drop]
  have hj : (ns.map Prod.fst)[j]? = ((ns.drop j).map Prod.fst).head? := by
    rw [List.map_drop, List.head?_drop]
  rw [hi, hj]
  obtain ⟨h', s', he, hr', -⟩ := Represents.eraseRange (hsplit ▸ hr)
  exact ⟨h', s', he, hr'⟩

theorem erase_value [DecidableEq α] (hr : Represents h s ns) (v : α) :
    ∃ h' s' ms, eraseValue h s v = some (h', s') ∧ Represents h' s' ms ∧
      ms.map Prod.snd = (ns.map Prod.snd).erase v := by
  have hfind := NodeHeap.findLoop_spec v hr.next hr.data (Nat.le_of_eq hr.length.symm)
  rw [hr.next.head_none, ← hr.begin_] at hfind
  generalize hi : (ns.map Prod.snd).idxOf v = i at hfind
  obtain ⟨h', s', he, hr'⟩ := hr.erase_at (Nat.le_succ i)
  have hnext : follow (nextPtr h) 1 (ns.map Prod.fst)[i]? = some (ns.map Prod.fst)[i + 1]? := by
    rw [← hr.next.follow (i + 1), follow_add, hr.next.follow i, Option.bind_some]
  refine ⟨h', s', _, ?_, hr', ?_⟩
  · rw [eraseValue, hfind, Option.bind_eq_bind, Option.bind_some, Slist.erase, hnext]
    exact he
  · rw [List.map_append, List.map_take, List.map_drop, ← List.eraseIdx_eq_take_drop_succ, ← hi]
    exact List.eraseIdx_idxOf_eq_erase v _

/-- `find_prior` of position `i` is position `i - 1`, or `end()` for the first one. -/
theorem findPrior_at (hr : Represents h s ns) {i : Nat} (hi : i ≤ ns.length) :
    Slist.findPrior h s (ns.map Prod.fst)[i]? =
      some (if i = 0 then end_ else (ns.map Prod.fst)[i - 1]?) := by
  rcases Nat.lt_or_eq_of_le hi with hi | rfl
  · have hsplit : Represents h s (ns.take i ++ (ns[i].1, ns[i].2) :: ns.drop (i + 1)) := by
      show Represents h s (ns.take i ++ ns[i] :: ns.drop (i + 1))
      rwa [List.getElem_cons_drop, List.take_append_drop]
    rw [List.getElem?_map, List.getElem?_eq_getElem hi, Option.map_some, hsplit.findPrior]
    split
    · rename_i h0
      subst h0
      rfl
    · rw [List.map_take, List.getLast?_take, if_neg (by assumption), List.getElem?_map,
        List.getElem?_eq_getElem (by omega : i - 1 < ns.length)]
      rfl
  · have hnone : (ns.map Prod.fst)[ns.length]? = none := by simp
    rw [hnone, Slist.findPrior, Slist.last, hr.length, hr.tail]
    split
    · rfl
    · rw [List.getLast?_eq_getElem?, List.length_map]

end Represents

theorem step_represents [DecidableEq α] {l : Heap α × Slist} {ns : List (Ptr × α)} {op : Op α}
    (hr : Represents l.1 l.2 ns) (hl : Legal l op) (ha : AtEnds l op) :
    ∃ l' ms, step l op = some l' ∧ Represents l'.1 l'.2 ms ∧
      ms.map Prod.snd = op.spec (ns.map Prod.snd) := by
  obtain ⟨h, s⟩ := l
  cases op with
  | emplace i p v =>
    simp only [step, hr.at_ i, Option.bind_eq_bind, Option.bind_some]
    rcases ha with rfl | ha
    · rw [← List.head?_eq_getElem?, ← hr.begin_]
      obtain ⟨h', s', he, hr'⟩ := hr.emplace_front hl v
      exact ⟨(h', s'), _, he, hr', rfl⟩
    · have hi : ns.length ≤ i := hr.length ▸ ha
      rw [List.getElem?_eq_none (by simpa using hi)]
      obtain ⟨h', s', he, hr', -⟩ := hr.emplaceBack hl v
      refine ⟨(h', s'), _, he, hr', ?_⟩
      simp [Op.spec, List.take_of_length_le, List.drop_eq_nil_of_le, hi]
  | emplaceFront p v =>
    obtain ⟨h', s', he, hr'⟩ := hr.emplace_front hl v
    exact ⟨(h', s'), _, he, hr', rfl⟩
  | emplaceBack p v =>
    obtain ⟨h', s', he, hr', -⟩ := hr.emplaceBack hl v
    exact ⟨(h', s'), _, he, hr', by simp [Op.spec]⟩
  | erase i j =>
    obtain ⟨h', s', he, hr'⟩ := hr.erase_at (show i ≤ j from hl)
    simp only [step, hr.at_ i, hr.at_ j, Option.bind_eq_bind, Option.bind_some]
    exact ⟨(h', s'), _, he, hr', by simp [Op.spec]⟩
  | eraseValue v =>
    obtain ⟨h', s', ms, he, hr', hms⟩ := hr.erase_value v
    exact ⟨(h', s'), ms, he, hr', hms⟩
  | clear =>
    obtain ⟨h', s', he, hr'⟩ := hr.erase_at (Nat.zero_le ns.length)
    rw [← List.head?_eq_getElem?, ← hr.begin_, List.getElem?_eq_none (by simp)] at he
    exact ⟨(h', s'), _, he, hr', by simp [Op.spec]⟩

/-! ## Runs -/

/-- The list is the sequence `xs`: from the head, `next_ptr_` visits `length_` nodes
that hold `xs` and ends at the tail, and `find_prior` gives the node before. -/
def IsSequence (h : Heap α) (s : Slist) (xs : List α) : Prop :=
  ∃ ps : List Ptr, Chain (nextPtr h) s.head_ptr_ ps none ∧ ps.length = s.length_ ∧
    ps.getLast? = s.tail_ptr_ ∧ ps.map (fun p => (h p).map (·.data_)) = xs.map some ∧
    ∀ i ≤ ps.length, findPrior h s ps[i]? = some (if i = 0 then end_ else ps[i - 1]?)

theorem Represents.isSequence {h : Heap α} {s : Slist} {ns : List (Ptr × α)}
    (hr : Represents h s ns) : IsSequence h s (ns.map Prod.snd) := by
  refine ⟨ns.map Prod.fst, hr.next, by rw [hr.length, List.length_map], hr.tail.symm, ?_,
    fun i hi => hr.findPrior_at (by simpa using hi)⟩
  simp only [List.map_map]
  exact List.map_congr_left hr.data

/-- **A list that is extended at its ends is its sequence.** Over every run in which no
element is inserted in the middle; and no operation follows a null pointer or a
freed entry. -/
theorem at_ends_sequence [DecidableEq α] {ops : List (Op α)} {l : Heap α × Slist}
    (h : Run step (fun l op => Legal l op ∧ AtEnds l op) (fun _ => none, {}) ops l) :
    IsSequence l.1 l.2 (ops.foldl Op.spec []) ∧
    ∀ op, Legal l op → AtEnds l op → (step l op).isSome := by
  obtain ⟨ns, hr, hns⟩ : ∃ ns, Represents l.1 l.2 ns ∧
      ns.map Prod.snd = ops.foldl Op.spec [] := by
    refine h.history (J := fun ops l => ∃ ns, Represents l.1 l.2 ns ∧
      ns.map Prod.snd = ops.foldl Op.spec []) ⟨[], .init _, rfl⟩ ?_
    rintro ops l op l' ⟨ns, hr, hns⟩ ⟨hl, ha⟩ hs
    obtain ⟨l'', ms, hl'', hr', hms⟩ := step_represents hr hl ha
    obtain rfl := Option.some.inj (hs.symm.trans hl'')
    exact ⟨ms, hr', by rw [hms, hns, List.foldl_append]; rfl⟩
  refine ⟨hns ▸ hr.isSequence, fun op hl ha => ?_⟩
  obtain ⟨l', -, hl', -⟩ := step_represents hr hl ha
  rw [hl']
  rfl

/-- Insertions at both ends, and erasures in the middle. -/
theorem at_ends_sequence_example : ∃ l : Heap Nat × Slist,
    l.2.head_ptr_ = some 2 ∧ l.2.tail_ptr_ = some 4 ∧ IsSequence l.1 l.2 [20, 40] := by
  let ops : List (Op Nat) := [.emplaceBack 1 10, .emplaceFront 2 20, .emplaceBack 3 30,
    .emplace 9 4 40, .erase 2 3, .eraseValue 10]
  have hs : (execOk step (fun l op => Legal l op ∧ AtEnds l op) (fun _ => none, {}) ops).map
      (fun l => (l.2.head_ptr_, l.2.tail_ptr_)) = some (some 2, some 4) := by decide +kernel
  obtain ⟨l, hs, hv⟩ := Option.map_eq_some_iff.mp hs
  obtain ⟨hh, ht⟩ := Prod.mk.inj hv
  exact ⟨l, hh, ht, (at_ends_sequence (run_of_execOk hs)).1⟩

/-- **An insertion in the middle drops an element.** The new entry is linked to the
entry after the position, so that of three entries two are met. -/
theorem middle_drops : ¬ ∀ (ops : List (Op Nat)) (l : Heap Nat × Slist),
    Run step Legal (fun _ => none, {}) ops l → IsSequence l.1 l.2 (ops.foldl Op.spec []) := by
  intro h
  let ops : List (Op Nat) := [.emplaceBack 1 10, .emplaceBack 2 20, .emplace 1 3 30]
  have hs : (execOk step Legal (fun _ => none, {}) ops).map
      (fun l => (l.2.length_, l.2.head_ptr_, nextPtr l.1 1, nextPtr l.1 3)) =
      some (3, some 1, some (some 3), some none) := by decide +kernel
  obtain ⟨l, hs, hv⟩ := Option.map_eq_some_iff.mp hs
  simp only [Prod.mk.injEq] at hv
  obtain ⟨hlen, hhead, h1, h3⟩ := hv
  obtain ⟨ps, hnext, hps, -⟩ := h ops l (run_of_execOk hs)
  have hchain : Chain (nextPtr l.1) l.2.head_ptr_ [1, 3] none := by
    rw [hhead]
    exact ⟨rfl, _, h1, rfl, _, h3, rfl⟩
  have := congrArg List.length (hnext.unique hchain)
  rw [hps, hlen] at this
  cases this

end Slist
end HermesShm.Ipc
