import HermesShm.Ipc.HipcList
import Mathlib.Tactic.Common

/-! # The doubly linked list as a sequence

The nodes of a list, in order, are followed by `next_ptr_` from the head and in
reverse by `prior_ptr_` from the tail. Appending and erasing keep this; an
insertion before an element of a longer list does not. -/
namespace HermesShm.Ipc.HipcList
open HermesShm.Base

variable {α : Type} {l l' : HipcList α} {p q : Ptr} {e : ListEntry α}

def dataAt (l : HipcList α) (p : Ptr) : Option α := (l.heap p).map (·.data_)

/-! ## Writes -/

@[simp] theorem put_nextPtr (l : HipcList α) (p : Ptr) (e : Option (ListEntry α)) :
    (l.put p e).nextPtr = Function.update l.nextPtr p (e.map (·.next_ptr_)) :=
  NodeHeap.link_put ..

@[simp] theorem put_priorPtr (l : HipcList α) (p : Ptr) (e : Option (ListEntry α)) :
    (l.put p e).priorPtr = Function.update l.priorPtr p (e.map (·.prior_ptr_)) :=
  NodeHeap.link_put ..

@[simp] theorem put_dataAt (l : HipcList α) (p : Ptr) (e : Option (ListEntry α)) :
    (l.put p e).dataAt = Function.update l.dataAt p (e.map (·.data_)) :=
  NodeHeap.map_put ..

/-- Two lists with the same head, tail and length. -/
def SameEnds (l l' : HipcList α) : Prop :=
  l'.head_ptr_ = l.head_ptr_ ∧ l'.tail_ptr_ = l.tail_ptr_ ∧ l'.length_ = l.length_

theorem setNext_spec (hp : (l.nextPtr p).isSome) (n : Option Ptr) :
    ∃ l', l.setNext p n = some l' ∧ SameEnds l l' ∧
      l'.nextPtr = Function.update l.nextPtr p (some n) ∧ l'.priorPtr = l.priorPtr ∧
      l'.dataAt = l.dataAt := by
  obtain ⟨m, hm⟩ := Option.isSome_iff_exists.mp hp
  obtain ⟨e, he, rfl⟩ := Option.map_eq_some_iff.mp hm
  refine ⟨l.put p (some { e with next_ptr_ := n }), by rw [setNext, he]; rfl, ⟨rfl, rfl, rfl⟩,
    by simp, ?_, ?_⟩
  · rw [put_priorPtr, Function.update_eq_self_iff]
    simp [priorPtr, NodeHeap.link, he]
  · rw [put_dataAt, Function.update_eq_self_iff]
    simp [dataAt, he]

theorem setPrior_spec (hp : (l.priorPtr p).isSome) (n : Option Ptr) :
    ∃ l', l.setPrior p n = some l' ∧ SameEnds l l' ∧
      l'.priorPtr = Function.update l.priorPtr p (some n) ∧ l'.nextPtr = l.nextPtr ∧
      l'.dataAt = l.dataAt := by
  obtain ⟨m, hm⟩ := Option.isSome_iff_exists.mp hp
  obtain ⟨e, he, rfl⟩ := Option.map_eq_some_iff.mp hm
  refine ⟨l.put p (some { e with prior_ptr_ := n }), by rw [setPrior, he]; rfl, ⟨rfl, rfl, rfl⟩,
    by simp, ?_, ?_⟩
  · rw [put_nextPtr, Function.update_eq_self_iff]
    simp [nextPtr, NodeHeap.link, he]
  · rw [put_dataAt, Function.update_eq_self_iff]
    simp [dataAt, he]

/-! ## Nodes in order -/

/-- The nodes of a list, each a pointer and the value there. -/
structure Represents (l : HipcList α) (ns : List (Ptr × α)) : Prop where
  next : Chain l.nextPtr l.head_ptr_ (ns.map Prod.fst) none
  prior : Chain l.priorPtr l.tail_ptr_ (ns.map Prod.fst).reverse none
  length : l.length_ = ns.length
  data : ∀ n ∈ ns, l.dataAt n.1 = some n.2

theorem fresh_iff : l.heap p = none ↔ l.nextPtr p = none := by
  simp [nextPtr, NodeHeap.link]

namespace Represents

variable {ns as bs cs : List (Ptr × α)}

theorem init : Represents ({} : HipcList α) [] := ⟨rfl, rfl, rfl, nofun⟩

theorem head (h : Represents l ns) : l.head_ptr_ = (ns.map Prod.fst).head? := h.next.head_none

theorem tail (h : Represents l ns) : l.tail_ptr_ = (ns.map Prod.fst).getLast? := by
  rw [h.prior.head_none, List.head?_reverse]

theorem nodup (h : Represents l ns) : (ns.map Prod.fst).Nodup := h.next.nodup

/-- `begin() + i` is the `i`-th node, or `end()` past the last one. -/
theorem at_ (h : Represents l ns) (i : Nat) : l.at_ i = some (ns.map Prod.fst)[i]? := by
  have hb : l.begin_ = l.head_ptr_ := by
    unfold begin_
    split
    · rename_i h0
      rw [h.length] at h0
      rw [h.head, List.eq_nil_of_length_eq_zero h0]
      rfl
    · rfl
  rw [HipcList.at_, hb]
  exact h.next.follow i

theorem not_mem (h : Represents l ns) (hp : l.heap p = none) : p ∉ ns.map Prod.fst := by
  intro hm
  have := h.next.isSome hm
  rw [fresh_iff.mp hp] at this
  cases this

/-- The first insertion, at any position. -/
theorem emplace_nil (h : Represents l []) (pos : Option Ptr) (p : Ptr) (v : α) :
    ∃ l', l.emplace pos p v = some l' ∧ Represents l' [(p, v)] := by
  refine ⟨_, if_pos h.length, ⟨?_, ?_, by rw [h.length]; rfl, ?_⟩⟩
  · exact ⟨rfl, none, by simp [nextPtr, put], rfl⟩
  · exact ⟨rfl, none, by simp [priorPtr, put], rfl⟩
  · intro n hn
    cases List.mem_singleton.mp hn
    simp [dataAt, put]

/-- Insertion at `end()`. -/
theorem emplace_end (h : Represents l ns) (hp : l.heap p = none) (v : α) :
    ∃ l', l.emplace end_ p v = some l' ∧ Represents l' (ns ++ [(p, v)]) := by
  rcases List.eq_nil_or_concat' ns with rfl | ⟨ns, ⟨t, w⟩, rfl⟩
  · exact h.emplace_nil end_ p v
  have hmem := h.not_mem hp
  have htail : l.tail_ptr_ = some t := by rw [h.tail]; simp
  have hnodup := h.nodup
  have hpt : p ≠ t := by rintro rfl; exact hmem (by simp)
  rw [List.map_append, List.map_cons, List.map_nil, List.nodup_append] at hnodup
  have htn : t ∉ ns.map Prod.fst := fun ht => hnodup.2.2 t ht t (List.mem_singleton_self _) rfl
  -- the new entry, then the link from the old tail
  let l₁ := l.put p (some ⟨none, l.tail_ptr_, v⟩)
  have hlive : (l₁.nextPtr t).isSome := by
    rw [put_nextPtr, Function.update_of_ne hpt.symm]
    exact h.next.isSome (by simp)
  obtain ⟨l₂, hl₂, hends, hnext, hprior, hdata⟩ := setNext_spec hlive (some p)
  refine ⟨{ l₂ with tail_ptr_ := some p, length_ := l.length_ + 1 }, ?_, ?_, ?_, ?_, ?_⟩
  · have h0 : l.length_ ≠ 0 := by rw [h.length]; simp
    have hset : (l.put p (some ⟨none, some t, v⟩)).setNext t (some p) = some l₂ := htail ▸ hl₂
    unfold emplace
    rw [if_neg h0]
    simp [end_, isBegin, htail, hset]
  · show Chain l₂.nextPtr l₂.head_ptr_ _ none
    have hchain : Chain l₁.nextPtr l.head_ptr_ ((ns ++ [(t, w)]).map Prod.fst) none := by
      rw [put_nextPtr]
      exact h.next.update hmem _
    have hnew : l₂.nextPtr p = some none := by
      rw [hnext, Function.update_of_ne hpt, put_nextPtr, Function.update_self]
      rfl
    rw [List.map_append] at hchain
    rw [hends.1, List.map_append, List.map_append]
    refine Chain.append ?_ ⟨rfl, none, hnew, rfl⟩
    rw [hnext]
    exact hchain.redirect htn
  · show Chain l₂.priorPtr (some p) _ none
    rw [List.map_append, List.reverse_append, hprior, put_priorPtr]
    refine ⟨rfl, l.tail_ptr_, Function.update_self .., ?_⟩
    exact h.prior.update (fun hm => hmem (List.mem_reverse.mp hm)) _
  · show l.length_ + 1 = _
    simp [h.length]
  · intro n hn
    show l₂.dataAt n.1 = _
    rw [hdata, put_dataAt]
    rcases List.mem_append.mp hn with hn | hn
    · have hne : n.1 ≠ p := fun he => h.not_mem hp (he ▸ List.mem_map_of_mem hn)
      rw [Function.update_of_ne hne, h.data n hn]
    · cases List.mem_singleton.mp hn
      exact Function.update_self ..

/-- Insertion before the only element. -/
theorem emplace_one {w : α} (h : Represents l [(q, w)]) (hp : l.heap p = none) (v : α) :
    ∃ l', l.emplace (some q) p v = some l' ∧ Represents l' [(p, v), (q, w)] := by
  have hpq : p ≠ q := by rintro rfl; exact h.not_mem hp (by simp)
  have hhead : l.head_ptr_ = some q := h.head
  have htail : l.tail_ptr_ = some q := h.tail
  obtain ⟨-, n, hqn, rfl⟩ := h.next
  obtain ⟨-, m, hqm, rfl⟩ := h.prior
  let l₁ := l.put p (some ⟨l.head_ptr_, none, v⟩)
  have hlive : (l₁.priorPtr q).isSome := by
    rw [put_priorPtr, Function.update_of_ne hpq.symm, hqm]
    rfl
  obtain ⟨l₂, hl₂, hends, hprior, hnext, hdata⟩ := setPrior_spec hlive (some p)
  refine ⟨{ l₂ with head_ptr_ := some p, length_ := l.length_ + 1 }, ?_, ?_, ?_, ?_, ?_⟩
  · have h0 : l.length_ ≠ 0 := by rw [h.length]; simp
    have hset : (l.put p (some ⟨some q, none, v⟩)).setPrior q (some p) = some l₂ := hhead ▸ hl₂
    have hbegin : l.isBegin (some q) = some true := by
      obtain ⟨e, he, hen⟩ := Option.map_eq_some_iff.mp hqm
      simp [isBegin, he, hen]
    unfold emplace
    rw [if_neg h0]
    simp [hbegin, hhead, htail, hset]
  · have hnp : l₂.nextPtr p = some (some q) := by
      rw [hnext, put_nextPtr, Function.update_self, hhead]
      rfl
    have hnq : l₂.nextPtr q = some none := by
      rw [hnext, put_nextPtr, Function.update_of_ne hpq.symm, hqn]
    exact ⟨rfl, _, hnp, rfl, _, hnq, rfl⟩
  · show Chain l₂.priorPtr l₂.tail_ptr_ [q, p] none
    have hpp : l₂.priorPtr p = some none := by
      rw [hprior, Function.update_of_ne hpq, put_priorPtr, Function.update_self]
      rfl
    have hpq' : l₂.priorPtr q = some (some p) := by rw [hprior, Function.update_self]
    exact ⟨hends.2.1.trans htail, _, hpq', rfl, _, hpp, rfl⟩
  · show l.length_ + 1 = 2
    rw [h.length]
    rfl
  · have hd := h.data (q, w) (List.mem_singleton_self _)
    intro n hn
    show l₂.dataAt n.1 = _
    rw [hdata, put_dataAt]
    simp only [List.mem_cons, List.not_mem_nil, or_false] at hn
    rcases hn with rfl | rfl
    · exact Function.update_self ..
    · rw [Function.update_of_ne hpq.symm]; exact hd

end Represents

/-! ## Erasing a range -/

/-- What `erase` does before the range: the node there, or the head, is linked to `last`. -/
theorem linkNext_spec {ps : List Ptr} {b : Option Ptr} (last : Option Ptr)
    (h : Chain l.nextPtr l.head_ptr_ ps b) (hnd : ps.Nodup) :
    ∃ l', (match ps.getLast? with
        | none => some { l with head_ptr_ := last }
        | some q => l.setNext q last) = some l' ∧
      Chain l'.nextPtr l'.head_ptr_ ps last ∧ (∀ p ∉ ps, l'.nextPtr p = l.nextPtr p) ∧
      l'.priorPtr = l.priorPtr ∧ l'.dataAt = l.dataAt ∧ l'.tail_ptr_ = l.tail_ptr_ ∧
      l'.length_ = l.length_ := by
  rcases List.eq_nil_or_concat' ps with rfl | ⟨ps, q, rfl⟩
  · exact ⟨_, rfl, rfl, fun _ _ => rfl, rfl, rfl, rfl, rfl⟩
  · have hq : q ∉ ps := fun hq => by
      rw [List.nodup_append] at hnd
      exact hnd.2.2 q hq q (List.mem_singleton_self _) rfl
    obtain ⟨l', hl', hends, hnext, hprior, hdata⟩ :=
      setNext_spec (by rw [h.last]; rfl : (l.nextPtr q).isSome) last
    refine ⟨l', by rw [List.getLast?_concat]; exact hl', ?_, fun p hp => ?_, hprior, hdata,
      hends.2.1, hends.2.2⟩
    · rw [hends.1, hnext]
      exact h.redirect hq
    · rw [hnext, Function.update_of_ne]
      rintro rfl
      exact hp (by simp)

/-- What `erase` does after the range: the node there, or the tail, is linked to `prior`. -/
theorem linkPrior_spec {ps : List Ptr} {b : Option Ptr} (prior : Option Ptr)
    (h : Chain l.priorPtr l.tail_ptr_ ps b) (hnd : ps.Nodup) :
    ∃ l', (match ps.getLast? with
        | none => some { l with tail_ptr_ := prior }
        | some q => l.setPrior q prior) = some l' ∧
      Chain l'.priorPtr l'.tail_ptr_ ps prior ∧ (∀ p ∉ ps, l'.priorPtr p = l.priorPtr p) ∧
      l'.nextPtr = l.nextPtr ∧ l'.dataAt = l.dataAt ∧ l'.head_ptr_ = l.head_ptr_ ∧
      l'.length_ = l.length_ := by
  rcases List.eq_nil_or_concat' ps with rfl | ⟨ps, q, rfl⟩
  · exact ⟨_, rfl, rfl, fun _ _ => rfl, rfl, rfl, rfl, rfl⟩
  · have hq : q ∉ ps := fun hq => by
      rw [List.nodup_append] at hnd
      exact hnd.2.2 q hq q (List.mem_singleton_self _) rfl
    obtain ⟨l', hl', hends, hprior, hnext, hdata⟩ :=
      setPrior_spec (by rw [h.last]; rfl : (l.priorPtr q).isSome) prior
    refine ⟨l', by rw [List.getLast?_concat]; exact hl', ?_, fun p hp => ?_, hnext, hdata,
      hends.1, hends.2.2⟩
    · rw [hends.2.1, hprior]
      exact h.redirect hq
    · rw [hprior, Function.update_of_ne]
      rintro rfl
      exact hp (by simp)

/-- Every node of the range points back to the node before the range, if it is the first. -/
theorem prior_of_first {as bs cs rest : List Ptr} {f : Ptr} (hf : bs ++ cs = f :: rest)
    (h : Chain l.priorPtr l.tail_ptr_ (as ++ (bs ++ cs)).reverse none) :
    l.priorPtr f = some as.getLast? := by
  rw [hf, List.reverse_append, List.reverse_cons] at h
  obtain ⟨c, hc, has⟩ := Chain.append_iff.mp h
  rw [hc.last, has.head_none, List.head?_reverse]

theorem Represents.erase {as bs cs : List (Ptr × α)} (h : Represents l (as ++ (bs ++ cs))) :
    ∃ l', l.eraseRange ((bs ++ cs).map Prod.fst).head? (cs.map Prod.fst).head? = some l' ∧
      Represents l' (as ++ cs) := by
  cases hf : (bs ++ cs).map Prod.fst with
  | nil =>
    have hbc : bs ++ cs = [] := List.map_eq_nil_iff.mp hf
    obtain ⟨rfl, rfl⟩ := List.append_eq_nil_iff.mp hbc
    exact ⟨l, rfl, h⟩
  | cons f rest =>
    have hnext := h.next
    have hprior := h.prior
    have hnd := h.nodup
    have hdata := h.data
    have hlen := h.length
    simp only [List.map_append] at hnext hprior hnd hf
    simp only [List.length_append] at hlen
    generalize hA : as.map Prod.fst = A at *
    generalize hB : bs.map Prod.fst = B at *
    generalize hC : cs.map Prod.fst = C at *
    obtain ⟨e, he, hez⟩ := Option.map_eq_some_iff.mp (prior_of_first hf hprior)
    -- the chains around the range
    rw [List.reverse_append, List.reverse_append] at hprior
    obtain ⟨z, hpBC, hpA⟩ := Chain.append_iff.mp hprior
    obtain ⟨u, hpC, hpB⟩ := Chain.append_iff.mp hpBC
    obtain ⟨hndA, hndBC, hdAB⟩ := List.nodup_append.mp hnd
    have hndC := (List.nodup_append.mp hndBC).2.1
    have hfuel : B.length ≤ l.length_ := by rw [hlen, ← hB, List.length_map]; omega
    -- free the range, then link the nodes around it
    obtain ⟨h₁, hl₁, -, -, hkept₁, hnA₁, hnC₁⟩ :=
      NodeHeap.freeMiddle_spec l.length_ hnext hfuel
    rw [hf, List.head?_cons] at hl₁ hnA₁
    let l₁ : HipcList α := { l with heap := h₁, length_ := l.length_ - B.length }
    have hA₁ : ∀ p ∈ A, l₁.heap p = l.heap p := fun p hp => hkept₁ p (List.mem_append_left _ hp)
    have hC₁ : ∀ p ∈ C, l₁.heap p = l.heap p := fun p hp => hkept₁ p (List.mem_append_right _ hp)
    have hAC : ∀ p ∈ C, p ∉ A := fun p hc ha => hdAB p ha p (List.mem_append_right _ hc) rfl
    obtain ⟨l₂, hl₂, hchain₂, hnext₂, hprior₂, hdata₂, htail₂, hlen₂⟩ :=
      linkNext_spec (l := l₁) C.head? hnA₁ hndA
    have hpC₂ : Chain l₂.priorPtr l₂.tail_ptr_ C.reverse u := by
      rw [hprior₂, htail₂]
      exact hpC.congr fun p hp => NodeHeap.link_congr (hC₁ p (List.mem_reverse.mp hp))
    obtain ⟨l₃, hl₃, hchain₃, hprior₃, hnext₃, hdata₃, hhead₃, hlen₃⟩ :=
      linkPrior_spec A.getLast? hpC₂ (List.nodup_reverse.mpr hndC)
    refine ⟨l₃, ?_, ?_, ?_, ?_, fun n hn => ?_⟩
    · rw [List.getLast?_reverse] at hl₃
      simp only [List.head?_cons, eraseRange, he, Option.bind_eq_bind, Option.bind_some, hl₁, hez]
      cases hA' : A.getLast? with
      | none =>
        rw [hA'] at hl₂ hl₃
        obtain rfl := Option.some.inj hl₂
        exact hl₃
      | some q =>
        rw [hA'] at hl₂ hl₃
        exact (congrArg (Option.bind · _) hl₂).trans hl₃
    · rw [List.map_append, hA, hC, hhead₃, hnext₃]
      exact hchain₂.append (hnC₁.congr fun p hp => hnext₂ p (hAC p hp))
    · rw [List.map_append, hA, hC, List.reverse_append]
      have hz : z = A.getLast? := by rw [hpA.head_none, List.head?_reverse]
      refine hchain₃.append ?_
      rw [← hz]
      refine hpA.congr fun p hp => ?_
      have hp := List.mem_reverse.mp hp
      rw [hprior₃ p (fun hc => hAC p (List.mem_reverse.mp hc) hp), hprior₂]
      exact NodeHeap.link_congr (hA₁ p hp)
    · rw [hlen₃, hlen₂, List.length_append]
      show l.length_ - B.length = _
      rw [hlen, ← hB, List.length_map]
      omega
    · rw [hdata₃, hdata₂, dataAt]
      have hn' := hdata n
      simp only [List.mem_append] at hn hn'
      rcases hn with hn | hn
      · rw [hA₁ _ (hA ▸ List.mem_map_of_mem hn)]
        exact hn' (.inl hn)
      · rw [hC₁ _ (hC ▸ List.mem_map_of_mem hn)]
        exact hn' (.inr (.inr hn))

/-! ## Operations -/

namespace Represents

variable {ns : List (Ptr × α)}

/-- Erasing from position `i` to position `j`. -/
theorem erase_at (h : Represents l ns) {i j : Nat} (hij : i ≤ j) :
    ∃ l', l.eraseRange (ns.map Prod.fst)[i]? (ns.map Prod.fst)[j]? = some l' ∧
      Represents l' (ns.take i ++ ns.drop j) := by
  have hdrop : (ns.drop i).take (j - i) ++ ns.drop j = ns.drop i := by
    conv_rhs => rw [← List.take_append_drop (j - i) (ns.drop i), List.drop_drop]
    rw [show i + (j - i) = j by omega]
  have hsplit : ns = ns.take i ++ ((ns.drop i).take (j - i) ++ ns.drop j) := by
    rw [hdrop, List.take_append_drop]
  have hi : (ns.map Prod.fst)[i]? =
      (((ns.drop i).take (j - i) ++ ns.drop j).map Prod.fst).head? := by
    rw [hdrop, List.map_drop, List.head?_drop]
  have hj : (ns.map Prod.fst)[j]? = ((ns.drop j).map Prod.fst).head? := by
    rw [List.map_drop, List.head?_drop]
  rw [hi, hj]
  exact Represents.erase (hsplit ▸ h)

theorem findLoop_eq [DecidableEq α] (l : HipcList α) (v : α) (fuel : Nat) (pos : Option Ptr) :
    l.findLoop v fuel pos = l.heap.findLoop (·.next_ptr_) (·.data_) v fuel pos := by
  induction fuel generalizing pos with
  | zero => cases pos <;> rfl
  | succ fuel ih =>
    cases pos with
    | none => rfl
    | some p => simp only [HipcList.findLoop, NodeHeap.findLoop, ih]

theorem begin_ (h : Represents l ns) : l.begin_ = (ns.map Prod.fst)[0]? := by
  have := h.at_ 0
  exact Option.some.inj this

theorem emplace_front (h : Represents l ns) (hp : l.heap p = none) (v : α) (hlen : l.length_ ≤ 1) :
    ∃ l', l.emplace l.begin_ p v = some l' ∧ Represents l' ((p, v) :: ns) := by
  rw [h.begin_]
  have hlen' := h.length
  match ns with
  | [] => exact h.emplace_nil _ p v
  | [(q, w)] => exact h.emplace_one hp v
  | _ :: _ :: _ => simp only [List.length_cons] at hlen'; omega

theorem erase_value [DecidableEq α] (h : Represents l ns) (v : α) :
    ∃ l' ms, l.eraseValue v = some l' ∧ Represents l' ms ∧
      ms.map Prod.snd = (ns.map Prod.snd).erase v := by
  have hfind := NodeHeap.findLoop_spec v h.next h.data (Nat.le_of_eq h.length.symm)
  rw [← findLoop_eq, h.head, List.head?_eq_getElem?, ← h.begin_] at hfind
  generalize hi : (ns.map Prod.snd).idxOf v = i at hfind
  obtain ⟨l', hl', hr⟩ := h.erase_at (Nat.le_succ i)
  have hnext : follow l.nextPtr 1 (ns.map Prod.fst)[i]? = some (ns.map Prod.fst)[i + 1]? := by
    rw [← h.next.follow (i + 1), follow_add, h.next.follow i, Option.bind_some]
  refine ⟨l', _, ?_, hr, ?_⟩
  · simp only [HipcList.eraseValue, hfind, Option.bind_eq_bind, Option.bind_some, hnext]
    exact hl'
  · rw [List.map_append, List.map_take, List.map_drop, ← List.eraseIdx_eq_take_drop_succ, ← hi]
    exact List.eraseIdx_idxOf_eq_erase v _

end Represents

theorem step_represents [DecidableEq α] {ns : List (Ptr × α)} {op : Op α} (h : Represents l ns)
    (hl : Legal l op) (ha : Appends l op) :
    ∃ l' ms, step l op = some l' ∧ Represents l' ms ∧
      ms.map Prod.snd = op.spec (ns.map Prod.snd) := by
  cases op with
  | emplace i p v =>
    simp only [step, h.at_ i, Option.bind_eq_bind, Option.bind_some]
    rcases Nat.lt_or_ge i ns.length with hi | hi
    · -- before the only element
      have hlen : ns.length ≤ 1 := by
        rcases ha with ha | ha <;> rw [h.length] at ha <;> omega
      obtain rfl : i = 0 := by omega
      obtain ⟨l', hl', hr⟩ := h.emplace_front hl v (h.length ▸ hlen)
      exact ⟨l', _, h.begin_ ▸ hl', hr, rfl⟩
    · obtain ⟨l', hl', hr⟩ := h.emplace_end hl v
      rw [List.getElem?_eq_none (by simpa using hi)]
      refine ⟨l', _, hl', hr, ?_⟩
      simp [Op.spec, List.take_of_length_le, List.drop_eq_nil_of_le, hi]
  | emplaceFront p v =>
    obtain ⟨l', hl', hr⟩ := h.emplace_front hl v ha
    exact ⟨l', _, hl', hr, rfl⟩
  | emplaceBack p v =>
    obtain ⟨l', hl', hr⟩ := h.emplace_end hl v
    exact ⟨l', _, hl', hr, by simp [Op.spec]⟩
  | erase i j =>
    obtain ⟨l', hl', hr⟩ := h.erase_at (show i ≤ j from hl)
    simp only [step, h.at_ i, h.at_ j, Option.bind_eq_bind, Option.bind_some]
    exact ⟨l', _, hl', hr, by simp [Op.spec]⟩
  | eraseValue v => exact h.erase_value v
  | clear =>
    obtain ⟨l', hl', hr⟩ := h.erase_at (Nat.zero_le ns.length)
    rw [← h.begin_, List.getElem?_eq_none (by simp)] at hl'
    exact ⟨l', _, hl', hr, by simp [Op.spec]⟩

/-! ## Runs -/

/-- The list is the sequence `xs`: from the head, `next_ptr_` visits `length_`
nodes that hold `xs` and ends at the tail; from the tail, `prior_ptr_` visits the
same nodes in reverse. -/
def IsSequence (l : HipcList α) (xs : List α) : Prop :=
  ∃ ps : List Ptr, Chain l.nextPtr l.head_ptr_ ps none ∧ ps.length = l.length_ ∧
    ps.getLast? = l.tail_ptr_ ∧ Chain l.priorPtr l.tail_ptr_ ps.reverse none ∧
    ps.map l.dataAt = xs.map some

theorem Represents.isSequence {ns : List (Ptr × α)} (h : Represents l ns) :
    IsSequence l (ns.map Prod.snd) := by
  refine ⟨ns.map Prod.fst, h.next, by rw [h.length, List.length_map], h.tail.symm, h.prior, ?_⟩
  simp only [List.map_map]
  exact List.map_congr_left h.data

/-- **A list that is only appended to is its sequence.** Over every run in which
no element is inserted before another one of a longer list; and no operation
follows a null pointer or a freed entry. -/
theorem appending_sequence [DecidableEq α] {ops : List (Op α)}
    (h : Run step (fun l op => Legal l op ∧ Appends l op) {} ops l) :
    IsSequence l (ops.foldl Op.spec []) ∧
    ∀ op, Legal l op → Appends l op → (step l op).isSome := by
  obtain ⟨ns, hr, hns⟩ : ∃ ns, Represents l ns ∧ ns.map Prod.snd = ops.foldl Op.spec [] := by
    refine h.history (J := fun ops l => ∃ ns, Represents l ns ∧
      ns.map Prod.snd = ops.foldl Op.spec []) ⟨[], .init, rfl⟩ ?_
    rintro ops l op l' ⟨ns, hr, hns⟩ ⟨hl, ha⟩ hs
    obtain ⟨l'', ms, hl'', hr', hms⟩ := step_represents hr hl ha
    obtain rfl := Option.some.inj (hs.symm.trans hl'')
    exact ⟨ms, hr', by rw [hms, hns, List.foldl_append]; rfl⟩
  refine ⟨hns ▸ hr.isSequence, fun op hl ha => ?_⟩
  obtain ⟨l', -, hl', -⟩ := step_represents hr hl ha
  rw [hl']
  rfl

/-- Insertions at both ends of short lists, and erasures in the middle. -/
theorem appending_sequence_example : ∃ l : HipcList Nat,
    l.head_ptr_ = some 2 ∧ l.tail_ptr_ = some 4 ∧ IsSequence l [20, 40] := by
  let ops : List (Op Nat) := [.emplaceBack 1 10, .emplaceFront 2 20, .emplaceBack 3 30,
    .emplace 9 4 40, .erase 2 3, .eraseValue 10]
  have hs : (execOk step (fun l op => Legal l op ∧ Appends l op) {} ops).map
      (fun l => (l.head_ptr_, l.tail_ptr_)) = some (some 2, some 4) := by decide +kernel
  obtain ⟨l, hs, hv⟩ := Option.map_eq_some_iff.mp hs
  obtain ⟨hh, ht⟩ := Prod.mk.inj hv
  exact ⟨l, hh, ht, (appending_sequence (run_of_execOk hs)).1⟩

/-- **An insertion at the front of a longer list breaks it.** The back link goes
to the tail and not to the old head: from the tail only two of the three nodes
are met. -/
theorem front_breaks : ¬ ∀ (ops : List (Op Nat)) (l : HipcList Nat),
    Run step Legal {} ops l → IsSequence l (ops.foldl Op.spec []) := by
  intro h
  let ops : List (Op Nat) := [.emplaceBack 1 10, .emplaceBack 2 20, .emplaceFront 3 30]
  have hs : (execOk step Legal {} ops).map
      (fun l => (l.length_, l.tail_ptr_, l.priorPtr 2, l.priorPtr 3)) =
      some (3, some 2, some (some 3), some none) := by decide +kernel
  obtain ⟨l, hs, hv⟩ := Option.map_eq_some_iff.mp hs
  simp only [Prod.mk.injEq] at hv
  obtain ⟨hlen, htail, h2, h3⟩ := hv
  obtain ⟨ps, -, hps, -, hprior, -⟩ := h ops l (run_of_execOk hs)
  have hback : Chain l.priorPtr l.tail_ptr_ [2, 3] none := by
    rw [htail]
    exact ⟨rfl, _, h2, rfl, _, h3, rfl⟩
  have := congrArg List.length (hprior.unique hback)
  rw [List.length_reverse, hps, hlen] at this
  cases this

end HermesShm.Ipc.HipcList
