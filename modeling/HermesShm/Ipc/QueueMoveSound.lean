import HermesShm.Ipc.QueueMove
import Mathlib.Data.Fintype.Card

/-! # Moves from an empty queue

A queue holds a list of nodes: they are chained from its first one, and its
counters count them. Each class keeps this, and `SetNull` keeps it for the
empty list only. -/
namespace HermesShm.Ipc.QueueMove
open HermesShm.Base

/-! ## The two stacks -/

/-- `ns` are chained from `tail_shm_` and counted. -/
structure Stacked (next_shm_ : Links) (tail_shm_ : Option Offset) (count : Nat)
    (ns : List Offset) : Prop where
  chain : Chain (some ∘ next_shm_) tail_shm_ ns none
  count : count = ns.length

/-- There are fewer nodes than a counter can count. -/
theorem length_lt {ns : List Offset} (h : ns.Nodup) : ns.length < sizeT := by
  have hle := h.length_le_card
  rw [Fintype.card_fin] at hle
  exact Nat.lt_of_le_of_lt hle (by decide)

section Stack

variable {next_shm_ next' : Links} {tail : Option Offset} {count : Nat} {n : Offset}
  {ns : List Offset}

theorem Stacked.frame (h : Stacked next_shm_ tail count ns)
    (hn : ∀ m ∈ ns, next' m = next_shm_ m) : Stacked next' tail count ns :=
  { h with chain := h.chain.congr fun m hm => congrArg some (hn m hm) }

theorem Stacked.push (h : Stacked next_shm_ tail count ns) (hn : n ∉ ns) :
    Stacked (Function.update next_shm_ n tail) (some n) (wordAdd sizeT count 1) (n :: ns) where
  chain := by
    refine ⟨rfl, tail, congrArg some (Function.update_self ..), h.chain.congr fun m hm => ?_⟩
    refine congrArg some (Function.update_of_ne ?_ _ _)
    rintro rfl
    exact hn hm
  count := by
    have hlt := length_lt (List.nodup_cons.mpr ⟨hn, h.chain.nodup⟩)
    rw [List.length_cons] at hlt
    rw [h.count, wordAdd_of_lt hlt, List.length_cons]

theorem Stacked.pop (h : Stacked next_shm_ tail count (n :: ns)) :
    tail = some n ∧ count ≠ 0 ∧ Stacked next_shm_ (next_shm_ n) (wordSub sizeT count 1) ns := by
  obtain ⟨htail, m, hm, hc⟩ := h.chain
  cases hm
  have hcount := h.count
  rw [List.length_cons] at hcount
  refine ⟨htail, by omega, hc, ?_⟩
  rw [hcount, wordSub_of_le (Nat.le_add_left _ _), Nat.add_sub_cancel]

/-- An iterator visits the chain. -/
theorem walk_chain (h : Chain (some ∘ next_shm_) tail ns none) :
    walk next_shm_ ns.length tail = some ns := by
  induction ns generalizing tail with
  | nil =>
    obtain rfl := h
    rfl
  | cons n ns ih =>
    obtain ⟨rfl, m, hm, hc⟩ := h
    cases hm
    rw [List.length_cons, walk, ih hc]
    rfl

/-- An iterator goes round a node that links to itself for ever. -/
theorem walk_loop (h : next_shm_ n = some n) (fuel : Nat) :
    walk next_shm_ fuel (some n) = none := by
  induction fuel with
  | zero => rfl
  | succ fuel ih => rw [walk, h, ih, Option.map_none]

theorem LifoListQueue.dequeue_cons {q : LifoListQueue}
    (h : Stacked next_shm_ q.tail_shm_ q.length_ (n :: ns)) :
    ∃ q', q.dequeue next_shm_ = some (some n, q') ∧
      Stacked next_shm_ q'.tail_shm_ q'.length_ ns := by
  obtain ⟨ht, hc, hs⟩ := h.pop
  exact ⟨_, by rw [LifoListQueue.dequeue, if_neg hc, ht, Option.map_some], hs⟩

theorem LifoListQueue.begin_eq {q : LifoListQueue}
    (h : Stacked next_shm_ q.tail_shm_ q.length_ ns) : q.begin_ = q.tail_shm_ := by
  rw [LifoListQueue.begin_]
  split
  · rename_i h0
    obtain rfl := List.eq_nil_of_length_eq_zero (h.count.symm.trans h0)
    exact h.chain.symm
  · rfl

theorem MpscLifoListQueue.dequeue_cons {q : MpscLifoListQueue}
    (h : Stacked next_shm_ q.tail_shm_ q.count_ (n :: ns)) :
    ∃ q', q.dequeue next_shm_ = some (some n, q') ∧
      Stacked next_shm_ q'.tail_shm_ q'.count_ ns := by
  obtain ⟨ht, hc, hs⟩ := h.pop
  exact ⟨_, by rw [MpscLifoListQueue.dequeue, if_neg hc, ht], hs⟩

end Stack

/-! ## What a queue of each class holds -/

namespace SpscFifoListQueue

structure Holds (next_shm_ : Links) (q : SpscFifoListQueue) (ns : List Offset) : Prop where
  chain : Chain (some ∘ next_shm_) q.head_shm_ ns none
  last : ∀ n, ns.getLast? = some n → q.tail_shm_ = some n
  count : q.tail_ = q.head_ + ns.length
  tail_lt : q.tail_ < sizeT

variable {next_shm_ next' : Links} {q : SpscFifoListQueue} {n : Offset} {ns : List Offset}

theorem Holds.frame (h : Holds next_shm_ q ns) (hn : ∀ m ∈ ns, next' m = next_shm_ m) :
    Holds next' q ns :=
  { h with chain := h.chain.congr fun m hm => congrArg some (hn m hm) }

theorem Holds.size (h : Holds next_shm_ q ns) : q.size = ns.length := by
  have hcount := h.count
  rw [SpscFifoListQueue.size, if_neg (by omega), hcount, Nat.add_sub_cancel_left]

theorem Holds.enqueue (h : Holds next_shm_ q ns) (hn : n ∉ ns) (hw : q.tail_ + 1 < sizeT) :
    ∃ next' q', q.enqueue next_shm_ n = some (next', q') ∧ Holds next' q' (ns ++ [n]) ∧
      ∀ m, m ≠ n → m ∉ ns → next' m = next_shm_ m := by
  have hlast : ∀ m, (ns ++ [n]).getLast? = some m → some n = some m := fun m hm => by
    rwa [List.getLast?_concat] at hm
  rcases List.eq_nil_or_concat' ns with rfl | ⟨as, r, rfl⟩
  · obtain hhead : q.head_shm_ = none := h.chain
    refine ⟨_, _, by rw [SpscFifoListQueue.enqueue, hhead], ⟨?_, hlast, ?_, ?_⟩, fun m hm _ => ?_⟩
    · exact ⟨rfl, none, congrArg some (Function.update_self ..), rfl⟩
    · exact (wordAdd_of_lt hw).trans (congrArg (· + 1) h.count)
    · exact (wordAdd_of_lt hw).trans_lt hw
    · exact Function.update_of_ne hm _ _
  · have hr : q.tail_shm_ = some r := h.last r (List.getLast?_concat ..)
    obtain ⟨p, hp⟩ : ∃ p, q.head_shm_ = some p := by
      rw [h.chain.head_none]
      exact ⟨_, List.head?_eq_some_head (by simp)⟩
    have hrn : r ≠ n := by
      rintro rfl
      exact hn (by simp)
    refine ⟨_, _, by rw [SpscFifoListQueue.enqueue, hp, hr]; rfl, ⟨?_, hlast, ?_, ?_⟩,
      fun m hm hms => ?_⟩
    · -- the last node links to the new one, which links to nothing
      obtain ⟨c, has, rfl, -⟩ := Chain.append_iff.mp h.chain
      rw [hp] at has
      have hr' : r ∉ as := fun hmem =>
        (List.nodup_append.mp h.chain.nodup).2.2 r hmem r (List.mem_singleton_self _) rfl
      have hother : ∀ m ∈ as, m ≠ r ∧ m ≠ n := fun m hm => by
        refine ⟨?_, ?_⟩ <;> rintro rfl
        · exact hr' hm
        · exact hn (List.mem_append_left _ hm)
      rw [List.append_assoc]
      refine Chain.append (b := some r) (has.congr fun m hm => ?_)
        ⟨rfl, some n, congrArg some (Function.update_self ..), rfl, none, ?_, rfl⟩
      · obtain ⟨hmr, hmn⟩ := hother m hm
        rw [Function.comp_apply, Function.update_of_ne hmr, Function.update_of_ne hmn]
        rfl
      · rw [Function.comp_apply, Function.update_of_ne hrn.symm, Function.update_self]
    · refine (wordAdd_of_lt hw).trans ?_
      have hlen : (as ++ [r] ++ [n]).length = (as ++ [r]).length + 1 := List.length_append
      rw [h.count, hlen]
      rfl
    · exact (wordAdd_of_lt hw).trans_lt hw
    · have hmr : m ≠ r := by
        rintro rfl
        exact hms (by simp)
      rw [Function.update_of_ne hmr, Function.update_of_ne hm]

/-- No null pointer is followed, whatever the node. -/
theorem Holds.enqueue_isSome (h : Holds next_shm_ q ns) (entry : Offset) :
    (q.enqueue next_shm_ entry).isSome := by
  rw [SpscFifoListQueue.enqueue]
  rcases List.eq_nil_or_concat' ns with rfl | ⟨as, r, rfl⟩
  · obtain hhead : q.head_shm_ = none := h.chain
    rw [hhead]
    rfl
  · have hr : q.tail_shm_ = some r := h.last r (List.getLast?_concat ..)
    cases q.head_shm_ with
    | none => rfl
    | some m =>
      simp only [hr]
      rfl

theorem Holds.dequeue_nil (h : Holds next_shm_ q []) : q.dequeue next_shm_ = some (none, q) :=
  if_pos h.size

theorem Holds.dequeue_cons (h : Holds next_shm_ q (n :: ns)) :
    ∃ q', q.dequeue next_shm_ = some (some n, q') ∧ Holds next_shm_ q' ns := by
  obtain ⟨hhead, m, hm, hc⟩ := h.chain
  cases hm
  have hsize := h.size
  have hcount := h.count
  have hlt := h.tail_lt
  rw [List.length_cons] at hsize hcount
  have hw : q.head_ + 1 < sizeT := by omega
  have hmore : ¬ ((next_shm_ n).isNone ∧ q.size > 1) := by
    rintro ⟨hnone, hgt⟩
    rw [Option.isNone_iff_eq_none.mp hnone] at hc
    cases ns with
    | nil => rw [hsize] at hgt; exact Nat.lt_irrefl _ hgt
    | cons m ns => cases hc.1
  refine ⟨{ q with head_shm_ := next_shm_ n, head_ := wordAdd sizeT q.head_ 1 }, ?_, hc,
    fun m hm => ?_, ?_, hlt⟩
  · rw [dequeue, if_neg (by omega), hhead, Option.map_some, if_neg hmore]
  · refine h.last m ?_
    cases ns with
    | nil => cases hm
    | cons r ns => rwa [List.getLast?_cons_cons]
  · simp only [wordAdd_of_lt hw]
    omega

end SpscFifoListQueue

namespace Kind

/-- Queue `q` has the nodes `ns`, first out first. -/
def Holds : (k : Kind) → Links → k.Queue → List Offset → Prop
  | lifo_list_queue, next_shm_, q, ns =>
    Stacked next_shm_ (LifoListQueue.tail_shm_ q) (LifoListQueue.length_ q) ns
  | mpsc_lifo_list_queue, next_shm_, q, ns =>
    Stacked next_shm_ (MpscLifoListQueue.tail_shm_ q) (MpscLifoListQueue.count_ q) ns
  | spsc_fifo_list_queue, next_shm_, q, ns => SpscFifoListQueue.Holds next_shm_ q ns

variable {k : Kind} {next_shm_ next' : Links} {q : k.Queue} {n : Offset} {ns : List Offset}

theorem holds_new (k : Kind) (next_shm_ : Links) : k.Holds next_shm_ k.members.new [] := by
  cases k with
  | lifo_list_queue | mpsc_lifo_list_queue => exact ⟨rfl, rfl⟩
  | spsc_fifo_list_queue => exact ⟨rfl, nofun, rfl, by decide⟩

namespace Holds

theorem frame (h : k.Holds next_shm_ q ns) (hn : ∀ m ∈ ns, next' m = next_shm_ m) :
    k.Holds next' q ns := by
  cases k with
  | lifo_list_queue | mpsc_lifo_list_queue => exact Stacked.frame h hn
  | spsc_fifo_list_queue => exact SpscFifoListQueue.Holds.frame h hn

theorem nodup (h : k.Holds next_shm_ q ns) : ns.Nodup := by
  cases k with
  | lifo_list_queue | mpsc_lifo_list_queue | spsc_fifo_list_queue => exact h.chain.nodup

theorem size (h : k.Holds next_shm_ q ns) : k.members.size q = ns.length := by
  cases k with
  | lifo_list_queue | mpsc_lifo_list_queue => exact h.count
  | spsc_fifo_list_queue => exact SpscFifoListQueue.Holds.size h

theorem enqueue (h : k.Holds next_shm_ q ns) (hn : n ∉ ns) (hc : k.Counts q) :
    ∃ next' q', k.members.enqueue next_shm_ q n = some (next', q') ∧
      k.Holds next' q' (k.put n ns) ∧ ∀ m, m ≠ n → m ∉ ns → next' m = next_shm_ m := by
  cases k with
  | lifo_list_queue | mpsc_lifo_list_queue =>
    exact ⟨_, _, rfl, Stacked.push h hn, fun m hm _ => Function.update_of_ne hm _ _⟩
  | spsc_fifo_list_queue => exact SpscFifoListQueue.Holds.enqueue h hn hc

theorem dequeue (h : k.Holds next_shm_ q ns) :
    ∃ q', k.members.dequeue next_shm_ q = some (ns.head?, q') ∧ k.Holds next_shm_ q' ns.tail := by
  cases ns with
  | nil =>
    refine ⟨q, ?_, h⟩
    cases k with
    | lifo_list_queue | mpsc_lifo_list_queue => exact if_pos h.count
    | spsc_fifo_list_queue => exact SpscFifoListQueue.Holds.dequeue_nil h
  | cons n ns =>
    cases k with
    | lifo_list_queue => exact LifoListQueue.dequeue_cons h
    | mpsc_lifo_list_queue => exact MpscLifoListQueue.dequeue_cons h
    | spsc_fifo_list_queue => exact SpscFifoListQueue.Holds.dequeue_cons h

theorem enqueue_isSome (h : k.Holds next_shm_ q ns) (entry : Offset) :
    (k.members.enqueue next_shm_ q entry).isSome := by
  cases k with
  | lifo_list_queue | mpsc_lifo_list_queue => rfl
  | spsc_fifo_list_queue => exact SpscFifoListQueue.Holds.enqueue_isSome h entry

theorem iterates (h : k.Holds next_shm_ q ns) {begin_ : k.Queue → Option Offset}
    (hb : k.members.begin_ = some begin_) : ∃ fuel, walk next_shm_ fuel (begin_ q) = some ns := by
  cases k with
  | lifo_list_queue =>
    cases hb
    refine ⟨ns.length, ?_⟩
    rw [LifoListQueue.begin_eq h]
    exact walk_chain h.chain
  | mpsc_lifo_list_queue | spsc_fifo_list_queue => cases hb

/-- `SetNull` on an empty queue. -/
theorem setNull (h : k.Holds next_shm_ q []) : k.Holds next_shm_ (k.members.setNull q) [] := by
  cases k with
  | lifo_list_queue => exact ⟨h.chain, rfl⟩
  | mpsc_lifo_list_queue | spsc_fifo_list_queue => exact h

end Holds

end Kind

/-! ## Many queues -/

variable {ι : Type*} {k : Kind}

/-- Each queue has its own nodes. -/
structure Inv (s : State ι k) : Prop where
  holds : ∀ i, k.Holds s.next_shm_ (s.objects i).queue (s.objects i).nodes
  apart : ∀ i j, i ≠ j → ∀ n ∈ (s.objects i).nodes, n ∉ (s.objects j).nodes
  conserved : ∀ i, ((s.objects i).dequeued ++ (s.objects i).nodes).Perm (s.objects i).given

theorem Inv.sound {s : State ι k} (h : Inv s) : Sound s where
  behaves := fun i => {
    enqueue := (h.holds i).enqueue_isSome
    dequeue := by
      obtain ⟨q, hq, -⟩ := (h.holds i).dequeue
      exact ⟨q, hq⟩
    size := (h.holds i).size
    iterates := fun _ hb => (h.holds i).iterates hb
    conserved := h.conserved i }
  nodup := fun i => (h.holds i).nodup
  apart := h.apart

theorem init_inv (next_shm_ : Links) : Inv (init ι k next_shm_) where
  holds := fun _ => k.holds_new next_shm_
  apart := nofun
  conserved := fun _ => .nil

theorem mem_put {n m : Offset} {ns : List Offset} : m ∈ k.put n ns ↔ m = n ∨ m ∈ ns := by
  cases k with
  | lifo_list_queue | mpsc_lifo_list_queue => exact List.mem_cons
  | spsc_fifo_list_queue => rw [Kind.put, List.mem_append, List.mem_singleton, or_comm]

theorem put_perm (n : Offset) (ns : List Offset) : (k.put n ns).Perm (n :: ns) := by
  cases k with
  | lifo_list_queue | mpsc_lifo_list_queue => exact .refl _
  | spsc_fifo_list_queue => exact List.perm_append_singleton _ _

variable [DecidableEq ι]

namespace Inv

variable {s t : State ι k}

/-- Object `i` changes, and links of nodes that no other has. -/
theorem update (h : Inv s) (i : ι) {o : Object k} {next' : Links}
    (hframe : ∀ j, j ≠ i → ∀ m ∈ (s.objects j).nodes, next' m = s.next_shm_ m)
    (ho : k.Holds next' o.queue o.nodes)
    (hap : ∀ n ∈ o.nodes, ∀ j, j ≠ i → n ∉ (s.objects j).nodes)
    (hc : (o.dequeued ++ o.nodes).Perm o.given) :
    Inv (⟨next', Function.update s.objects i o⟩ : State ι k) where
  holds := (Function.forall_update_iff _ fun _ (o : Object k) => k.Holds next' o.queue o.nodes).mpr
    ⟨ho, fun j hj => (h.holds j).frame (hframe j hj)⟩
  apart := by
    intro a b hab n ha hb
    by_cases hai : a = i
    · subst hai
      simp only [Function.update_self] at ha
      simp only [Function.update_of_ne hab.symm] at hb
      exact hap n ha b hab.symm hb
    · simp only [Function.update_of_ne hai] at ha
      by_cases hbi : b = i
      · subst hbi
        simp only [Function.update_self] at hb
        exact hap n hb a hab ha
      · simp only [Function.update_of_ne hbi] at hb
        exact h.apart a b hab n ha hb
  conserved := (Function.forall_update_iff _
    fun _ (o : Object k) => (o.dequeued ++ o.nodes).Perm o.given).mpr ⟨hc, fun j _ => h.conserved j⟩

theorem enqueue {i : ι} {entry : Offset} (h : Inv s)
    (howned : ∀ j, entry ∉ (s.objects j).nodes) (hcount : k.Counts (s.objects i).queue)
    (hs : step s (.enqueue i entry) = some t) : Inv t := by
  obtain ⟨next', q, he, hq, hsame⟩ := (h.holds i).enqueue (howned i) hcount
  simp only [step, he, Option.map_some, Option.some.injEq] at hs
  subst hs
  refine h.update i (fun j hj m hm => hsame m ?_ fun hmi => h.apart i j hj.symm m hmi hm) hq ?_ ?_
  · rintro rfl
    exact howned j hm
  · intro n hn j hj hnj
    rcases mem_put.mp hn with rfl | hn
    · exact howned j hnj
    · exact h.apart i j hj.symm n hn hnj
  · exact ((put_perm entry _).append_left _).trans
      (List.perm_middle.trans ((h.conserved i).cons entry))

theorem dequeue {i : ι} (h : Inv s) (hs : step s (.dequeue i) = some t) : Inv t := by
  obtain ⟨q, he, hq⟩ := (h.holds i).dequeue
  simp only [step, he, Option.map_some, Option.some.injEq] at hs
  subst hs
  refine h.update i (fun _ _ _ _ => rfl) hq
    (fun n hn j hj => h.apart i j hj.symm n (List.mem_of_mem_tail hn)) ?_
  have hc := h.conserved i
  cases hns : (s.objects i).nodes with
  | nil =>
    rw [hns] at hc
    exact hc
  | cons n ns =>
    rw [hns] at hc
    exact List.perm_middle.symm.trans hc

/-- A move from an empty queue. -/
theorem move {dst src : ι} (h : Inv s) (hne : dst ≠ src)
    (hempty : k.members.size (s.objects src).queue = 0) (hs : step s (.move dst src) = some t) :
    Inv t := by
  have hnodes : (s.objects src).nodes = [] :=
    List.eq_nil_of_length_eq_zero ((h.holds src).size.symm.trans hempty)
  have hold := h.holds src
  rw [hnodes] at hold
  simp only [step, if_neg hne, Members.move, Option.some.injEq, hnodes] at hs
  subst hs
  have hleft : Inv (⟨s.next_shm_, Function.update s.objects src
      { queue := k.members.setNull (s.objects src).queue }⟩ : State ι k) :=
    h.update src (fun _ _ _ _ => rfl) hold.setNull nofun .nil
  exact hleft.update dst (fun _ _ _ _ => rfl) hold nofun .nil

end Inv

theorem step_inv {s t : State ι k} {l : Call ι} (h : Inv s) (hg : Guarded s l)
    (hs : step s l = some t) : Inv t := by
  cases l with
  | enqueue i entry => exact h.enqueue hg.1 hg.2 hs
  | dequeue i => exact h.dequeue hs
  | move dst src =>
    rcases hg with rfl | hempty
    · simp only [step, if_pos, Option.some.injEq] at hs
      exact hs ▸ h
    · by_cases hne : dst = src
      · simp only [step, if_pos hne, Option.some.injEq] at hs
        exact hs ▸ h
      · exact h.move hne hempty hs

/-! ## A move from a queue that is not empty -/

theorem move_eq {s t : State ι k} {dst src : ι} (hne : dst ≠ src)
    (hs : step s (.move dst src) = some t) :
    t.next_shm_ = s.next_shm_ ∧
      t.objects src = { queue := k.members.setNull (s.objects src).queue } ∧
      t.objects dst = ⟨(s.objects src).queue, (s.objects src).nodes, (s.objects src).nodes, []⟩ ∧
      ∀ j, j ≠ src → j ≠ dst → t.objects j = s.objects j := by
  simp only [step, if_neg hne, Members.move, Option.some.injEq] at hs
  subst hs
  refine ⟨rfl, ?_, Function.update_self .., fun j hjs hjd => ?_⟩
  · exact (Function.update_of_ne hne.symm _ _).trans (Function.update_self ..)
  · exact (Function.update_of_ne hjd _ _).trans (Function.update_of_ne hjs _ _)

/-- Moved from a `lifo_list_queue` that is not empty: its node is dequeued and put
into the queue moved from, where it links to itself. -/
theorem lifo_not_transfers {s t : State ι .lifo_list_queue} {dst src : ι} (h : Inv s)
    (hne : dst ≠ src) {n : Offset} {ns : List Offset} (hns : (s.objects src).nodes = n :: ns)
    (hs : step s (.move dst src) = some t) : ∃ ls u, Run step Guarded t ls u ∧ ¬ Sound u := by
  obtain ⟨hnext, hsrc, hdst, hother⟩ := move_eq hne hs
  have hold : Stacked s.next_shm_ (LifoListQueue.tail_shm_ (s.objects src).queue)
      (LifoListQueue.length_ (s.objects src).queue) (n :: ns) := hns ▸ h.holds src
  have htail : LifoListQueue.tail_shm_ (s.objects src).queue = some n := hold.pop.1
  obtain ⟨q, hq, -⟩ := LifoListQueue.dequeue_cons hold
  let u₁ : State ι .lifo_list_queue :=
    ⟨s.next_shm_, Function.update t.objects dst ⟨q, ns, n :: ns, [n]⟩⟩
  have hu₁ : step t (.dequeue dst) = some u₁ := by
    have he : Kind.lifo_list_queue.members.dequeue s.next_shm_ (s.objects src).queue =
        some (some n, q) := hq
    simp only [step, hnext, hdst, he, hns]
    rfl
  let u₂ : State ι .lifo_list_queue :=
    ⟨Function.update s.next_shm_ n (some n),
      Function.update u₁.objects src ⟨(⟨some n, 1⟩ : LifoListQueue), [n], [n], []⟩⟩
  have hsrc₁ : u₁.objects src = { queue := (⟨some n, 0⟩ : LifoListQueue) } := by
    refine (Function.update_of_ne hne.symm _ _).trans (hsrc.trans ?_)
    rw [← htail]
    rfl
  have hu₂ : step u₁ (.enqueue src n) = some u₂ := by
    simp only [step, hsrc₁]
    rfl
  have howned : ∀ j, n ∉ (u₁.objects j).nodes := by
    intro j hj
    by_cases hjd : j = dst
    · subst hjd
      simp only [u₁, Function.update_self] at hj
      exact (List.nodup_cons.mp hold.chain.nodup).1 hj
    · by_cases hjs : j = src
      · subst hjs
        rw [hsrc₁] at hj
        cases hj
      · simp only [u₁, Function.update_of_ne hjd, hother j hjs hjd] at hj
        exact h.apart src j (Ne.symm hjs) n (hns ▸ List.mem_cons_self) hj
  refine ⟨[.dequeue dst, .enqueue src n], u₂, ?_, fun hsound => ?_⟩
  · exact .snoc (.snoc .nil trivial hu₁) ⟨howned, trivial⟩ hu₂
  · obtain ⟨fuel, hwalk⟩ := (hsound.behaves src).iterates _ rfl
    have hobj : u₂.objects src = ⟨(⟨some n, 1⟩ : LifoListQueue), [n], [n], []⟩ :=
      Function.update_self ..
    rw [hobj] at hwalk
    have hloop : walk u₂.next_shm_ fuel (some n) = none :=
      walk_loop (Function.update_self ..) fuel
    exact absurd (hloop.symm.trans hwalk) nofun

/-- Some calls after the move tell that it has not been one. -/
theorem Inv.not_transfers {s t : State ι k} {dst src : ι} (h : Inv s) (hne : dst ≠ src)
    (hsize : k.members.size (s.objects src).queue ≠ 0) (hs : step s (.move dst src) = some t) :
    ∃ ls u, Run step Guarded t ls u ∧ ¬ Sound u := by
  have hcounts : k ≠ .lifo_list_queue → ∃ ls u, Run step Guarded t ls u ∧ ¬ Sound u := by
    intro hk
    refine ⟨[], t, .nil, fun hsound => hsize ?_⟩
    have hsz := (hsound.behaves src).size
    rw [(move_eq hne hs).2.1] at hsz
    -- `SetNull` does nothing
    cases k with
    | lifo_list_queue => exact absurd rfl hk
    | mpsc_lifo_list_queue | spsc_fifo_list_queue => exact hsz
  cases k with
  | lifo_list_queue =>
    cases hns : (s.objects src).nodes with
    | nil => exact absurd ((h.holds src).size.trans (congrArg List.length hns)) hsize
    | cons n ns => exact lifo_not_transfers h hne hns hs
  | mpsc_lifo_list_queue | spsc_fifo_list_queue => exact hcounts nofun

/-- **A move transfers the nodes of an empty queue only.** In every run whose moves
are all from empty queues, a further move is followed by sound states whatever is
called if and only if it is from an empty queue. -/
theorem transfers_iff_empty {next_shm_ : Links} {ls : List (Call ι)} {s t : State ι k}
    {dst src : ι} (hr : Run step Guarded (init ι k next_shm_) ls s) (hne : dst ≠ src)
    (hs : step s (.move dst src) = some t) :
    (∀ ls' u, Run step Guarded t ls' u → Sound u) ↔
      k.members.size (s.objects src).queue = 0 := by
  have hinv : Inv s := hr.invariant (init_inv next_shm_) fun _ _ _ h hg hs => step_inv h hg hs
  constructor
  · intro hall
    by_contra hsize
    obtain ⟨ls', u, hu, hbad⟩ := hinv.not_transfers hne hsize hs
    exact hbad (hall ls' u hu)
  · intro hempty ls' u hu
    have ht : Inv t := hinv.move hne hempty hs
    exact (hu.invariant ht fun _ _ _ h hg hs => step_inv h hg hs).sound

private def node : Offset := ⟨64, by decide⟩

/-- A queue that was used and is empty is moved. -/
theorem transfers_iff_empty_used : ∃ s t : State (Fin 2) .spsc_fifo_list_queue,
    (s.objects 0).dequeued = [node] ∧ step s (.move 1 0) = some t ∧
      ∀ ls u, Run step Guarded t ls u → Sound u := by
  have hs : (execOk step Guarded (init (Fin 2) .spsc_fifo_list_queue fun _ => none)
      [.enqueue 0 node, .dequeue 0]).map (fun s => ((s.objects 0).dequeued,
        Kind.spsc_fifo_list_queue.members.size (s.objects 0).queue)) = some ([node], 0) := by
    decide +kernel
  obtain ⟨s, hs, hv⟩ := Option.map_eq_some_iff.mp hs
  obtain ⟨hd, hsize⟩ := Prod.mk.inj hv
  have hne : (1 : Fin 2) ≠ 0 := by decide
  exact ⟨s, _, hd, rfl, (transfers_iff_empty (run_of_execOk hs) hne rfl).mpr hsize⟩

/-- **A node is dequeued twice.** It was in a `mpsc_lifo_list_queue` that was moved: both
queues return it. -/
theorem moved_twice : ¬ ∀ (k : Kind) (next_shm_ : Links) (ls : List (Call (Fin 2)))
    (s : State (Fin 2) k), Run step Owned (init (Fin 2) k next_shm_) ls s → Sound s := by
  intro h
  have hs : (execOk step Owned (init (Fin 2) .mpsc_lifo_list_queue fun _ => none)
      [.enqueue 0 node, .move 1 0, .dequeue 1, .dequeue 0]).map (fun s =>
        ((s.objects 1).dequeued, (s.objects 0).dequeued, (s.objects 0).given)) =
      some ([node], [node], []) := by decide +kernel
  obtain ⟨s, hs, hv⟩ := Option.map_eq_some_iff.mp hs
  obtain ⟨-, hd, hg⟩ : (s.objects 1).dequeued = [node] ∧ (s.objects 0).dequeued = [node] ∧
      (s.objects 0).given = [] := by simpa using hv
  have hc := ((h _ _ _ s (run_of_execOk hs)).behaves 0).conserved
  rw [hd, hg] at hc
  exact absurd hc.length_eq (by simp)

end HermesShm.Ipc.QueueMove
