import HermesShm.Ipc.NodeHeap

/-! # The singly linked list

`hipc::slist`: a header, and entries in a heap that other lists use too. As for
`hipc::list`, there is no result where the code follows a null pointer or a
freed entry. -/
namespace HermesShm.Ipc
open HermesShm.Base

structure SlistEntry (α : Type) where
  next_ptr_ : Option Ptr
  data_ : α

structure Slist where
  head_ptr_ : Option Ptr := none
  tail_ptr_ : Option Ptr := none
  length_ : Nat := 0

namespace Slist

variable {α : Type}

abbrev Heap (α : Type) := NodeHeap (SlistEntry α)

def nextPtr (h : Heap α) : Ptr → Option (Option Ptr) := h.link (·.next_ptr_)

def setNext (h : Heap α) (p : Ptr) (n : Option Ptr) : Option (Heap α) :=
  (h p).map fun e => h.put p (some { e with next_ptr_ := n })

/-! ## Iterators, by their entry pointer -/

def end_ : Option Ptr := none

def begin_ (s : Slist) : Option Ptr := if s.length_ = 0 then end_ else s.head_ptr_

def last (s : Slist) : Option Ptr := if s.length_ = 0 then end_ else s.tail_ptr_

def isBegin (s : Slist) (pos : Option Ptr) : Bool := pos.isSome && pos == s.head_ptr_

/-- The loop of `find_prior`. -/
def findPriorLoop (h : Heap α) (pos : Option Ptr) :
    Nat → Option Ptr → Option Ptr → Option (Option Ptr)
  | _, prior_iter, none => some prior_iter
  | 0, _, some _ => none
  | fuel + 1, prior_iter, some q =>
    if some q = pos then some prior_iter
    else do findPriorLoop h pos fuel (some q) (← h q).next_ptr_

def findPrior (h : Heap α) (s : Slist) : Option Ptr → Option (Option Ptr)
  | none => some s.last
  | some q =>
    if s.isBegin (some q) then some end_ else findPriorLoop h (some q) s.length_ end_ s.begin_

/-! ## Operations -/

/-- `p` is the entry that the allocator returns. -/
def emplace (h : Heap α) (s : Slist) (pos : Option Ptr) (p : Ptr) (v : α) :
    Option (Heap α × Slist) :=
  if s.length_ = 0 then
    some (h.put p (some ⟨none, v⟩),
      { head_ptr_ := some p, tail_ptr_ := some p, length_ := s.length_ + 1 })
  else if s.isBegin pos then
    some (h.put p (some ⟨s.head_ptr_, v⟩), { s with head_ptr_ := some p, length_ := s.length_ + 1 })
  else
    match pos with
    | none => do
      let tail ← s.tail_ptr_
      let h ← setNext (h.put p (some ⟨none, v⟩)) tail (some p)
      some (h, { s with tail_ptr_ := some p, length_ := s.length_ + 1 })
    | some q => do
      let prior ← ← findPrior h s (some q)
      let e ← h q
      let h ← setNext (h.put p (some ⟨e.next_ptr_, v⟩)) prior (some p)
      some (h, { s with length_ := s.length_ + 1 })

def emplaceBack (h : Heap α) (s : Slist) (p : Ptr) (v : α) : Option (Heap α × Slist) :=
  emplace h s end_ p v

def eraseRange (h : Heap α) (s : Slist) : Option Ptr → Option Ptr → Option (Heap α × Slist)
  | none, _ => some (h, s)
  | some p, last => do
    let first_prior ← findPrior h s (some p)
    let (h, length_) ← h.freeRange (·.next_ptr_) last s.length_ s.length_ (some p)
    let tail_ptr_ := if last = none then first_prior else s.tail_ptr_
    match first_prior with
    | none => some (h, { head_ptr_ := last, tail_ptr_, length_ })
    | some q => do
      let h ← setNext h q last
      some (h, { s with tail_ptr_, length_ })

/-- `erase(pos)` -/
def erase (h : Heap α) (s : Slist) (pos : Option Ptr) : Option (Heap α × Slist) := do
  eraseRange h s pos (← follow (nextPtr h) 1 pos)

def clear (h : Heap α) (s : Slist) : Option (Heap α × Slist) := eraseRange h s s.begin_ end_

/-! ## Nodes in order -/

/-- The nodes of a list, each a pointer and the value there. -/
structure Represents (h : Heap α) (s : Slist) (ns : List (Ptr × α)) : Prop where
  next : Chain (nextPtr h) s.head_ptr_ (ns.map Prod.fst) none
  tail : s.tail_ptr_ = (ns.map Prod.fst).getLast?
  length : s.length_ = ns.length
  data : ∀ n ∈ ns, (h n.1).map (·.data_) = some n.2

variable {h h' : Heap α} {s s' : Slist} {p q : Ptr}

theorem setNext_spec (hp : (nextPtr h p).isSome) (n : Option Ptr) :
    ∃ h', setNext h p n = some h' ∧ nextPtr h' = Function.update (nextPtr h) p (some n) ∧
      (∀ q, (h' q).map (·.data_) = (h q).map (·.data_)) ∧ ∀ q, q ≠ p → h' q = h q := by
  obtain ⟨m, hm⟩ := Option.isSome_iff_exists.mp hp
  obtain ⟨e, he, rfl⟩ := Option.map_eq_some_iff.mp hm
  refine ⟨h.put p (some { e with next_ptr_ := n }), by rw [setNext, he]; rfl,
    NodeHeap.link_put .., fun q => ?_, fun q hq => NodeHeap.put_of_ne hq _⟩
  by_cases hq : q = p
  · subst hq; simp [he]
  · rw [NodeHeap.put_of_ne hq]

namespace Represents

variable {ns as cs : List (Ptr × α)} {v w : α}

theorem init (h : Heap α) : Represents h {} [] := ⟨rfl, rfl, rfl, nofun⟩

theorem nodup (hr : Represents h s ns) : (ns.map Prod.fst).Nodup := hr.next.nodup

/-- A list looks at its own nodes only. -/
theorem congr (hr : Represents h s ns) (hh : ∀ p ∈ ns.map Prod.fst, h' p = h p) :
    Represents h' s ns :=
  ⟨hr.next.congr fun p hp => NodeHeap.link_congr (hh p hp), hr.tail, hr.length,
    fun n hn => by rw [hh n.1 (List.mem_map_of_mem hn)]; exact hr.data n hn⟩

theorem not_mem (hr : Represents h s ns) (hp : h p = none) : p ∉ ns.map Prod.fst := by
  intro hm
  have := hr.next.isSome hm
  rw [nextPtr, NodeHeap.link, hp] at this
  cases this

theorem begin_ (hr : Represents h s ns) : s.begin_ = (ns.map Prod.fst).head? := by
  rw [← hr.next.head_none]
  unfold Slist.begin_
  split
  · rename_i h0
    rw [hr.length] at h0
    rw [hr.next.head_none, List.eq_nil_of_length_eq_zero h0]
    rfl
  · rfl

/-- Insertion at `end()`: the new node comes last, other lists' nodes stay. -/
theorem emplaceBack (hr : Represents h s ns) (hp : h p = none) (v : α) :
    ∃ h' s', emplaceBack h s p v = some (h', s') ∧ Represents h' s' (ns ++ [(p, v)]) ∧
      ∀ q, q ≠ p → q ∉ ns.map Prod.fst → h' q = h q := by
  rcases List.eq_nil_or_concat' ns with rfl | ⟨ns, ⟨t, w⟩, rfl⟩
  · refine ⟨_, _, if_pos hr.length, ⟨?_, rfl, by rw [hr.length]; rfl, ?_⟩,
      fun q hq _ => NodeHeap.put_of_ne hq _⟩
    · exact ⟨rfl, none, by simp [nextPtr], rfl⟩
    · intro n hn
      cases List.mem_singleton.mp hn
      simp
  have hmem := hr.not_mem hp
  have hpt : p ≠ t := by rintro rfl; exact hmem (by simp)
  have htail : s.tail_ptr_ = some t := by rw [hr.tail]; simp
  have hnodup := hr.nodup
  rw [List.map_append, List.map_cons, List.map_nil, List.nodup_append] at hnodup
  have htn : t ∉ ns.map Prod.fst := fun ht => hnodup.2.2 t ht t (List.mem_singleton_self _) rfl
  -- the new entry, then the link from the old tail
  let h₁ := h.put p (some ⟨none, v⟩)
  have hlive : (nextPtr h₁ t).isSome := by
    rw [nextPtr, NodeHeap.link_put, Function.update_of_ne hpt.symm]
    exact hr.next.isSome (by simp)
  obtain ⟨h₂, hh₂, hnext, hdata, hother⟩ := setNext_spec hlive (some p)
  refine ⟨h₂, { s with tail_ptr_ := some p, length_ := s.length_ + 1 }, ?_, ⟨?_, ?_, ?_, ?_⟩, ?_⟩
  · have h0 : s.length_ ≠ 0 := by rw [hr.length]; simp
    unfold Slist.emplaceBack emplace
    rw [if_neg h0]
    simp only [end_, isBegin, Option.isSome_none, Bool.false_and, Bool.false_eq_true, if_false,
      htail, Option.bind_eq_bind, Option.bind_some]
    exact (congrArg (Option.bind · _) hh₂).trans rfl
  · have hchain : Chain (nextPtr h₁) s.head_ptr_ ((ns ++ [(t, w)]).map Prod.fst) none := by
      rw [nextPtr, NodeHeap.link_put]
      exact hr.next.update hmem _
    have hnew : nextPtr h₂ p = some none := by
      rw [hnext, Function.update_of_ne hpt, nextPtr, NodeHeap.link_put, Function.update_self]
      rfl
    rw [List.map_append] at hchain
    rw [List.map_append, List.map_append]
    refine Chain.append ?_ ⟨rfl, none, hnew, rfl⟩
    rw [hnext]
    exact hchain.redirect htn
  · simp
  · simp [hr.length]
  · intro n hn
    rw [hdata]
    rcases List.mem_append.mp hn with hn | hn
    · have hne : n.1 ≠ p := fun he => hmem (he ▸ List.mem_map_of_mem hn)
      rw [show h₁ n.1 = h n.1 from NodeHeap.put_of_ne hne _]
      exact hr.data n hn
    · cases List.mem_singleton.mp hn
      simp [h₁]
  · intro q hqp hq
    have hqt : q ≠ t := by rintro rfl; exact hq (by simp)
    exact (hother q hqt).trans (NodeHeap.put_of_ne hqp _)

theorem findPriorLoop {A C : List Ptr} {prior iter : Option Ptr} {fuel : Nat}
    (hc : Chain (nextPtr h) iter (A ++ q :: C) none) (hq : q ∉ A) (hf : A.length < fuel) :
    findPriorLoop h (some q) fuel prior iter = some (A.getLast?.or prior) := by
  induction A generalizing prior iter fuel with
  | nil =>
    obtain ⟨rfl, -⟩ := hc
    cases fuel with
    | zero => cases hf
    | succ fuel => simp [Slist.findPriorLoop]
  | cons a A ih =>
    obtain ⟨rfl, n, hn, hc⟩ := hc
    obtain ⟨e, he, rfl⟩ := Option.map_eq_some_iff.mp hn
    simp only [List.mem_cons, not_or] at hq
    cases fuel with
    | zero => cases hf
    | succ fuel =>
      have hne : ¬ (some a = some q) := fun h => hq.1 (Option.some.inj h).symm
      rw [Slist.findPriorLoop, if_neg hne]
      simp only [he, Option.bind_eq_bind, Option.bind_some]
      rw [ih hc hq.2 (Nat.lt_of_succ_lt_succ hf)]
      cases A <;> simp [List.getLast?_cons]

/-- `find_prior` returns the node before, or `end()` for the first one. -/
theorem findPrior (hr : Represents h s (as ++ (q, w) :: cs)) :
    findPrior h s (some q) = some (as.map Prod.fst).getLast? := by
  have hnext := hr.next
  have hnd := hr.nodup
  have hhead := hr.next.head_none
  rw [List.map_append, List.map_cons] at hnext hnd hhead
  have hq : q ∉ as.map Prod.fst := fun hq =>
    (List.nodup_append.mp hnd).2.2 q hq q List.mem_cons_self rfl
  rw [Slist.findPrior]
  cases as with
  | nil => simp [isBegin, hhead, end_]
  | cons a as =>
    have hne : ¬ (s.isBegin (some q) = true) := by
      rw [isBegin, hhead]
      simp only [List.map_cons, List.mem_cons, not_or] at hq
      simpa using hq.1
    have hlen : ((a :: as).map Prod.fst).length < s.length_ := by
      rw [hr.length]
      simp
    rw [if_neg hne, hr.begin_, ← hr.next.head_none, findPriorLoop hnext hq hlen]
    simp [end_]

/-- Erasing a range: the nodes around it are linked, its own are freed, other
lists' nodes stay. -/
theorem eraseRange {bs : List (Ptr × α)} (hr : Represents h s (as ++ (bs ++ cs))) :
    ∃ h' s', eraseRange h s ((bs ++ cs).map Prod.fst).head? (cs.map Prod.fst).head? =
      some (h', s') ∧ Represents h' s' (as ++ cs) ∧ (∀ r ∈ bs.map Prod.fst, h' r = none) ∧
      ∀ r ∉ (as ++ (bs ++ cs)).map Prod.fst, h' r = h r := by
  cases hf : bs ++ cs with
  | nil =>
    obtain ⟨rfl, rfl⟩ := List.append_eq_nil_iff.mp hf
    exact ⟨h, s, rfl, hr, nofun, fun _ _ => rfl⟩
  | cons f rest =>
    obtain ⟨f, w⟩ := f
    have hprior := findPrior (hf ▸ hr)
    have hnext := hr.next
    have hnd := hr.nodup
    have hdata := hr.data
    have hlen := hr.length
    have htail := hr.tail
    rw [← hf]
    simp only [List.map_append] at hnext hnd htail ⊢
    simp only [List.length_append] at hlen
    have hf' : bs.map Prod.fst ++ cs.map Prod.fst = f :: rest.map Prod.fst := by
      rw [← List.map_append, hf, List.map_cons]
    generalize hA : as.map Prod.fst = A at *
    generalize hB : bs.map Prod.fst = B at *
    generalize hC : cs.map Prod.fst = C at *
    obtain ⟨hndA, -, hdAB⟩ := List.nodup_append.mp hnd
    have hfuel : B.length ≤ s.length_ := by rw [hlen, ← hB, List.length_map]; omega
    have hhead : (B ++ C).head? = some f := by rw [hf']; rfl
    obtain ⟨h₁, hh₁, hfreed₁, hheap₁, hkept₁, hnA₁, hnC₁⟩ :=
      NodeHeap.freeMiddle_spec s.length_ hnext hfuel
    rw [hhead] at hh₁ hnA₁
    change Chain (nextPtr h₁) _ _ _ at hnA₁ hnC₁
    have hAC : ∀ p ∈ C, p ∉ A := fun p hc ha => hdAB p ha p (List.mem_append_right _ hc) rfl
    have hdata₁ : ∀ n ∈ as ++ cs, (h₁ n.1).map (·.data_) = some n.2 := by
      intro n hn
      rw [hkept₁ n.1 (by rw [← hA, ← hC, ← List.map_append]; exact List.mem_map_of_mem hn)]
      refine hdata n ?_
      simp only [List.mem_append] at hn ⊢
      exact hn.imp_right .inr
    have hlen' : s.length_ - B.length = (as ++ cs).length := by
      rw [hlen, ← hB, List.length_map, List.length_append]
      omega
    have htail' : (if C.head? = none then A.getLast? else s.tail_ptr_) = (A ++ C).getLast? := by
      rw [htail]
      cases C with
      | nil => simp
      | cons c C => simp [List.getLast?_append, List.getLast?_cons]
    have houter : ∀ r ∉ A ++ (B ++ C), h₁ r = h r := fun r hr => hheap₁ r fun hb =>
      hr (List.mem_append_right _ (List.mem_append_left _ hb))
    have herase : Slist.eraseRange h s (some f) C.head? = (match A.getLast? with
        | none => some (h₁, ⟨C.head?, (A ++ C).getLast?, s.length_ - B.length⟩)
        | some q => (setNext h₁ q C.head?).bind fun h' =>
          some (h', ⟨s.head_ptr_, (A ++ C).getLast?, s.length_ - B.length⟩)) := by
      rw [← htail']
      simp only [Slist.eraseRange, hprior, Option.bind_eq_bind, Option.bind_some, hh₁]
    rw [hhead, herase]
    rcases List.eq_nil_or_concat' A with rfl | ⟨A, q, rfl⟩
    · refine ⟨h₁, _, rfl, ⟨?_, ?_, hlen', hdata₁⟩, hfreed₁, houter⟩
      · rw [List.map_append, hA, hC]
        exact hnC₁
      · rw [List.map_append, hA, hC]
    · have hq : q ∉ A := fun hq => by
        rw [List.nodup_append] at hndA
        exact hndA.2.2 q hq q (List.mem_singleton_self _) rfl
      have hqA : q ∈ A ++ [q] := by simp
      obtain ⟨h₂, hh₂, hnext₂, hdata₂, hheap₂⟩ :=
        setNext_spec (by rw [hnA₁.last]; rfl : (nextPtr h₁ q).isSome) C.head?
      refine ⟨h₂, ⟨s.head_ptr_, (A ++ [q] ++ C).getLast?, s.length_ - B.length⟩, ?_,
        ⟨?_, ?_, hlen', fun n hn => by rw [hdata₂, hdata₁ n hn]⟩, fun r hr => ?_, fun r hr => ?_⟩
      · rw [List.getLast?_concat]
        simp only [hh₂, Option.bind_some]
      · rw [List.map_append, hA, hC, hnext₂]
        refine (hnA₁.redirect hq).append (hnC₁.update ?_ _)
        exact fun hqC => hAC q hqC hqA
      · rw [List.map_append, hA, hC]
      · have hrq : r ≠ q := by
          rintro rfl
          exact hdAB r hqA r (List.mem_append_left _ hr) rfl
        rw [hheap₂ r hrq, hfreed₁ r hr]
      · have hrq : r ≠ q := by rintro rfl; exact hr (List.mem_append_left _ hqA)
        rw [hheap₂ r hrq, houter r hr]

/-- Erasing one node. -/
theorem erase (hr : Represents h s (as ++ (q, w) :: cs)) :
    ∃ h' s', erase h s (some q) = some (h', s') ∧ Represents h' s' (as ++ cs) ∧ h' q = none ∧
      ∀ r ∉ (as ++ (q, w) :: cs).map Prod.fst, h' r = h r := by
  have hsplit : Represents h s (as ++ ([(q, w)] ++ cs)) := hr
  obtain ⟨h', s', he, hr', hfreed, hother⟩ := hsplit.eraseRange
  refine ⟨h', s', ?_, hr', hfreed q (by simp), hother⟩
  have hnext := hr.next
  rw [List.map_append, List.map_cons] at hnext
  obtain ⟨x, -, hx⟩ := Chain.append_iff.mp hnext
  obtain ⟨rfl, n, hn, hc⟩ := hx
  rw [hc.head_none] at hn
  have hfollow : follow (nextPtr h) 1 (some q) = some (cs.map Prod.fst).head? := by
    rw [follow, hn]
    rfl
  unfold Slist.erase
  rw [hfollow]
  exact he

theorem clear (hr : Represents h s ns) :
    ∃ h' s', clear h s = some (h', s') ∧ (∀ r ∈ ns.map Prod.fst, h' r = none) ∧
      ∀ r ∉ ns.map Prod.fst, h' r = h r := by
  have hr' : Represents h s ([] ++ (ns ++ [])) := by simpa using hr
  obtain ⟨h', s', he, -, hfreed, hother⟩ := eraseRange hr'
  refine ⟨h', s', ?_, hfreed, fun r hrn => hother r (by simpa using hrn)⟩
  unfold Slist.clear
  rw [hr.begin_]
  simpa [end_] using he

end Represents

end Slist
end HermesShm.Ipc
