import HermesShm.Ipc.SpscFifo
import Mathlib.Data.Nat.ModEq
import Mathlib.Tactic.Common

/-! # When the list queue delivers in order

`size()` counts a node before it is linked, so at the empty list the consumer
can find the counters and `head_shm_` at odds, and at the last node it can empty
the list under a producer that is about to link to that node. Elsewhere the
chain from `head_shm_` is what has been linked and not yet taken. -/
namespace HermesShm.Ipc.SpscFifoListQueue
open HermesShm.Base

variable {ν : Type*}

/-! ## What the threads say -/

/-- Nodes counted in `tail_` and not linked. -/
def Producer.counted : Producer ν → Nat
  | .loadHead _ | .loadTail _ | .linkTail _ _ | .storeHead _ => 1
  | _ => 0

/-- Nodes taken off the list and still counted in `head_`. -/
def Consumer.uncounted : Consumer ν → Nat
  | .loadCount _ | .storeCount _ _ => 1
  | _ => 0

/-- What the producer's place asserts, with `q` the nodes of the list. -/
def Producer.Ok (s : Shared ν) (q : List ν) : Producer ν → Prop
  | .idle => q = [] ∨ q.getLast? = s.queue.tail_shm_
  | .loadCount entry | .loadHead entry =>
    entry ∉ q ∧ s.next_shm_ entry = none ∧ (q = [] ∨ q.getLast? = s.queue.tail_shm_)
  | .storeCount entry tail =>
    entry ∉ q ∧ s.next_shm_ entry = none ∧ (q = [] ∨ q.getLast? = s.queue.tail_shm_) ∧
      tail = s.queue.tail_
  | .loadTail entry =>
    entry ∉ q ∧ s.next_shm_ entry = none ∧ q ≠ [] ∧ q.getLast? = s.queue.tail_shm_
  | .linkTail entry tail => entry ∉ q ∧ s.next_shm_ entry = none ∧ q.getLast? = some tail
  | .storeHead entry => s.next_shm_ entry = none ∧ q = []
  | .storeTail entry => q = [] ∨ q.getLast? = some entry

/-- What the consumer's place asserts; `n` counts the nodes on their way in. -/
def Consumer.Ok (s : Shared ν) (q : List ν) (n : Nat) : Consumer ν → Prop
  | .idle | .loadCount _ => True
  | .loadTailCount head => head = s.queue.head_
  | .loadHead _ => 1 ≤ q.length + n
  | .testNext val _ | .loadNext val => q.head? = some val
  | .storeHead val next => q.head? = some val ∧ ∀ m, next = some m → s.next_shm_ val = some m
  | .storeCount _ head => head = s.queue.head_
  | .fault => False

/-- The invariant of guarded runs, with `q` the nodes of the list. -/
structure Inv (s : Shared ν) (p : Producer ν) (c : Consumer ν) (q : List ν) : Prop where
  chain : Chain (fun n => some (s.next_shm_ n)) s.queue.head_shm_ q none
  head_lt : s.queue.head_ < sizeT
  tail_lt : s.queue.tail_ < sizeT
  size : s.queue.tail_ ≡ s.queue.head_ + c.uncounted + q.length + p.counted [MOD sizeT]
  producer : p.Ok s q
  consumer : c.Ok s q p.counted

variable {s s' : Shared ν} {p p' : Producer ν} {c c' : Consumer ν} {q : List ν} {n : ν}

theorem Inv.nodup (h : Inv s p c q) : q.Nodup := h.chain.nodup

/-- The last node of the list points nowhere. -/
theorem Inv.next_last (h : Inv s p c (q ++ [n])) : s.next_shm_ n = none :=
  Option.some.inj h.chain.last

theorem Inv.eq_nil_iff (h : Inv s p c q) : q = [] ↔ s.queue.head_shm_ = none := by
  rw [h.chain.head_none, List.head?_eq_none_iff]

theorem init_inv (next : ν → Option ν) : Inv { next_shm_ := next } .idle .idle [] where
  chain := rfl
  head_lt := Nat.two_pow_pos 64
  tail_lt := Nat.two_pow_pos 64
  size := rfl
  producer := .inl rfl
  consumer := trivial

/-! ## The producer -/

/-- The store that puts a node into the empty list. -/
theorem Inv.storeHead (h : Inv s (.storeHead n) c q) :
    Inv { s with queue := { s.queue with head_shm_ := some n } } (.storeTail n) c (q ++ [n]) := by
  obtain ⟨hnull, rfl⟩ := h.producer
  refine ⟨⟨rfl, none, congrArg some hnull, rfl⟩, h.head_lt, h.tail_lt, h.size, .inr rfl, ?_⟩
  have hc := h.consumer
  cases c with
  | idle | loadTailCount _ | loadCount _ | storeCount _ _ | fault => exact hc
  | loadHead size => exact Nat.le_refl 1
  | testNext val size => cases hc
  | loadNext val => cases hc
  | storeHead val next => cases hc.1

/-- A step of the producer that changes nothing but its place. -/
theorem Inv.moveProducer (h : Inv s p c q) (hcount : p'.counted = p.counted) (hok : p'.Ok s q) :
    Inv s p' c q :=
  ⟨h.chain, h.head_lt, h.tail_lt, hcount ▸ h.size, hok, hcount ▸ h.consumer⟩

theorem wordAdd_modEq (w a b : Nat) : wordAdd w a b ≡ a + b [MOD w] := Nat.mod_modEq ..

theorem Inv.countTail {tail : Nat} (h : Inv s (.storeCount n tail) c q) :
    Inv { s with queue := { s.queue with tail_ := wordAdd sizeT tail 1 } } (.loadHead n) c q := by
  obtain ⟨hn, hnull, hlast, rfl⟩ := h.producer
  refine ⟨h.chain, h.head_lt, Nat.mod_lt _ (by decide), ?_, ⟨hn, hnull, hlast⟩, ?_⟩
  · exact (wordAdd_modEq ..).trans (h.size.add_right 1)
  · have hc := h.consumer
    cases c with
    | loadHead size => exact Nat.le_add_right_of_le hc
    | _ => exact hc

theorem Inv.silent {r : Producer ν} (h : Inv s p c q) (hr : linked r = none) :
    Inv s p c (q ++ (linked r).toList) := by
  rw [hr, Option.toList_none, List.append_nil]
  exact h

/-! ## The consumer -/

/-- A step of the consumer that changes nothing but its place. -/
theorem Inv.moveConsumer (h : Inv s p c q) (hcount : c'.uncounted = c.uncounted)
    (hok : c'.Ok s q p.counted) : Inv s p c' q :=
  ⟨h.chain, h.head_lt, h.tail_lt, hcount ▸ h.size, h.producer, hok⟩

/-- A nonzero `size()` means a node in the list or on its way in. -/
theorem Inv.size_pos (h : Inv s p c q) (hc : c.uncounted = 0)
    (hne : s.queue.tail_ ≠ s.queue.head_) : 1 ≤ q.length + p.counted := by
  by_contra hlt
  have hzero : q.length = 0 ∧ p.counted = 0 := by omega
  have hsize := h.size
  rw [hc, hzero.1, hzero.2] at hsize
  exact hne (hsize.eq_of_lt_of_lt h.tail_lt h.head_lt)

/-- Where the producer's place asks of the list holds of what is left of it. -/
theorem Producer.Ok.tail {val : ν} {o : Option ν} (h : p.Ok s (val :: q))
    (hsaw : q = [] → ¬ p.SawHead) :
    p.Ok { s with queue := { s.queue with head_shm_ := o } } q := by
  have hlast : ∀ o : Option ν, (val :: q = [] ∨ (val :: q).getLast? = o) →
      q = [] ∨ q.getLast? = o := by
    intro o ho
    obtain ho | ho := ho
    · cases ho
    · cases q with
      | nil => exact .inl rfl
      | cons m q => exact .inr ho
  have hmem : ∀ n, n ∉ val :: q → n ∉ q := fun n hn hmem => hn (List.mem_cons_of_mem _ hmem)
  cases p with
  | idle => exact hlast _ h
  | loadCount entry => exact ⟨hmem _ h.1, h.2.1, hlast _ h.2.2⟩
  | loadHead entry => exact ⟨hmem _ h.1, h.2.1, hlast _ h.2.2⟩
  | storeCount entry tail => exact ⟨hmem _ h.1, h.2.1, hlast _ h.2.2.1, h.2.2.2⟩
  | loadTail entry =>
    have hne : q ≠ [] := fun he => hsaw he trivial
    exact ⟨hmem _ h.1, h.2.1, hne, (hlast _ (.inr h.2.2.2)).resolve_left hne⟩
  | linkTail entry tail =>
    have hne : q ≠ [] := fun he => hsaw he trivial
    exact ⟨hmem _ h.1, h.2.1, (hlast _ (.inr h.2.2)).resolve_left hne⟩
  | storeHead entry => cases h.2
  | storeTail entry => exact hlast _ h

/-- The store that takes the first node off the list. -/
theorem Inv.take {val : ν} {next : Option ν} (h : Inv s p (.storeHead val next) q)
    (hg : next = none → s.next_shm_ val = none ∧ ¬ p.SawHead) :
    ∃ rest, q = val :: rest ∧
      Inv { s with queue := { s.queue with head_shm_ := next } } p (.loadCount val) rest := by
  obtain ⟨hhead, hnext⟩ := h.consumer
  obtain ⟨rest, rfl⟩ := List.head?_eq_some_iff.mp hhead
  have hval : s.next_shm_ val = next := by
    cases next with
    | none => exact (hg rfl).1
    | some m => exact hnext m rfl
  obtain ⟨-, m, hm, hrest⟩ := h.chain
  obtain rfl : next = m := hval.symm.trans (Option.some.inj hm)
  refine ⟨rest, rfl, hrest, h.head_lt, h.tail_lt, ?_, h.producer.tail ?_, trivial⟩
  · have hsize := h.size
    simp only [Consumer.uncounted, List.length_cons] at hsize ⊢
    rw [Nat.add_assoc s.queue.head_, Nat.add_comm 1]
    exact hsize
  · rintro rfl
    exact (hg hrest).2

theorem consume_inv (h : Inv s p c q)
    (hload : ∀ size, c = .loadHead size → ¬ (s.queue.head_shm_ = none ∧ p.Counted))
    (hstore : ∀ val, c = .storeHead val none → s.next_shm_ val = none ∧ ¬ p.SawHead)
    (hs : consume s c = some (s', c')) :
    ∃ rest, q = (taken c).toList ++ rest ∧ Inv s' p c' rest := by
  have hok := h.consumer
  cases c with
  | idle | fault => cases hs
  | loadTailCount head =>
    obtain rfl : head = s.queue.head_ := hok
    cases hs
    refine ⟨q, rfl, ?_⟩
    by_cases h0 : (if s.queue.tail_ < s.queue.head_ then 0 else s.queue.tail_ - s.queue.head_) = 0
    · rw [if_pos h0]
      exact h.moveConsumer rfl trivial
    · rw [if_neg h0]
      refine h.moveConsumer rfl (h.size_pos rfl ?_)
      intro he
      rw [he] at h0
      simp at h0
  | loadHead size =>
    refine ⟨q, rfl, ?_⟩
    simp only [consume] at hs
    split at hs
    · rename_i hnull
      -- nothing in the list, so the node counted is still on its way
      have hq := h.eq_nil_iff.mpr hnull
      rw [hq] at hok
      refine absurd ⟨hnull, ?_⟩ (hload size rfl)
      cases p <;> trivial
    · rename_i val hhead
      cases hs
      refine h.moveConsumer rfl ?_
      rw [Consumer.Ok, ← h.chain.head_none, hhead]
  | testNext val size =>
    cases hs
    refine ⟨q, rfl, ?_⟩
    split
    · exact h.moveConsumer rfl trivial
    · exact h.moveConsumer rfl hok
  | loadNext val =>
    cases hs
    exact ⟨q, rfl, h.moveConsumer rfl ⟨hok, fun m hm => hm⟩⟩
  | storeHead val next =>
    cases hs
    obtain ⟨rest, rfl, hinv⟩ := h.take fun he => hstore val (by rw [he])
    exact ⟨rest, rfl, hinv⟩
  | loadCount val =>
    cases hs
    exact ⟨q, rfl, h.moveConsumer rfl rfl⟩
  | storeCount val head =>
    obtain rfl : head = s.queue.head_ := hok
    cases hs
    refine ⟨q, rfl, h.chain, Nat.mod_lt _ (by decide), h.tail_lt, ?_, ?_, trivial⟩
    · have hsize := h.size
      refine hsize.trans ?_
      exact (((wordAdd_modEq ..).symm.add_right _).add_right _)
    · have hp := h.producer
      cases p <;> exact hp

/-! ## The producer's stores -/

variable [DecidableEq ν]

/-- The link of a node that is not in the list. -/
theorem Inv.unlink (h : Inv s .idle c q) (hn : n ∉ q) :
    Inv { s with next_shm_ := Function.update s.next_shm_ n none } (.loadCount n) c q := by
  have hq : ∀ m ∈ q, Function.update s.next_shm_ n none m = s.next_shm_ m := by
    intro m hm
    refine Function.update_of_ne ?_ _ _
    intro he
    exact hn (by rwa [← he])
  refine ⟨h.chain.congr fun m hm => congrArg some (hq m hm), h.head_lt, h.tail_lt, h.size,
    ⟨hn, Function.update_self .., h.producer⟩, ?_⟩
  have hc := h.consumer
  cases c with
  | storeHead val next =>
    obtain ⟨hhead, hnext⟩ := hc
    refine ⟨hhead, ?_⟩
    intro m hm
    exact (hq val (List.mem_of_head? hhead)).trans (hnext m hm)
  | _ => exact hc

/-- The store that links a node behind the last one. -/
theorem Inv.linkTail {tail : ν} (h : Inv s (.linkTail n tail) c q) :
    Inv { s with next_shm_ := Function.update s.next_shm_ tail (some n) } (.storeTail n) c
      (q ++ [n]) := by
  obtain ⟨hn, hnull, hlast⟩ := h.producer
  obtain ⟨front, rfl⟩ := List.getLast?_eq_some_iff.mp hlast
  have hnt : n ≠ tail := by
    rintro rfl
    exact hn (by simp)
  have hfront : tail ∉ front := by
    have := h.nodup
    rw [List.nodup_append] at this
    exact fun hmem => this.2.2 tail hmem tail (by simp) rfl
  refine ⟨?_, h.head_lt, h.tail_lt, ?_, .inr (by simp), ?_⟩
  · have hred := h.chain.redirect (b := some n) hfront
    refine Chain.append (b := some n) (hred.congr ?_) ⟨rfl, none, ?_, rfl⟩
    · intro m _
      exact congrFun (Function.comp_update some s.next_shm_ tail (some n)) m
    · exact congrArg some ((Function.update_of_ne hnt ..).trans hnull)
  · have hsize := h.size
    simp only [Producer.counted, List.length_append, List.length_singleton] at hsize ⊢
    exact hsize
  · have hc := h.consumer
    have hhead : (front ++ [tail] ++ [n]).head? = (front ++ [tail]).head? := by
      cases front <;> rfl
    cases c with
    | idle | loadTailCount _ | loadCount _ | storeCount _ _ | fault => exact hc
    | loadHead size =>
      simp only [Consumer.Ok, Producer.counted, List.length_append, List.length_singleton] at hc ⊢
      omega
    | testNext val size => exact hhead.trans hc
    | loadNext val => exact hhead.trans hc
    | storeHead val next =>
      refine ⟨hhead.trans hc.1, ?_⟩
      intro m hm
      have hval := hc.2 m hm
      have hne : val ≠ tail := by
        rintro rfl
        rw [h.next_last] at hval
        cases hval
      exact (Function.update_of_ne hne ..).trans hval

theorem produce_inv (h : Inv s p c q) (hs : produce s p = some (s', p')) :
    Inv s' p' c (q ++ (linked p).toList) := by
  have hok := h.producer
  cases p with
  | idle => cases hs
  | loadCount entry =>
    cases hs
    refine Inv.silent ?_ rfl
    exact h.moveProducer rfl ⟨hok.1, hok.2.1, hok.2.2, rfl⟩
  | storeCount entry tail =>
    cases hs
    refine Inv.silent ?_ rfl
    exact h.countTail
  | loadHead entry =>
    cases hs
    refine Inv.silent ?_ rfl
    obtain ⟨hn, hnull, hlast⟩ := hok
    cases hhead : s.queue.head_shm_ with
    | none => exact h.moveProducer rfl ⟨hnull, h.eq_nil_iff.mpr hhead⟩
    | some m =>
      have hne : q ≠ [] := fun he => by
        rw [h.eq_nil_iff.mp he] at hhead
        cases hhead
      exact h.moveProducer rfl ⟨hn, hnull, hne, hlast.resolve_left hne⟩
  | loadTail entry =>
    obtain ⟨tail, htail, hr⟩ := Option.map_eq_some_iff.mp hs
    cases hr
    refine Inv.silent ?_ rfl
    exact h.moveProducer rfl ⟨hok.1, hok.2.1, hok.2.2.2.trans htail⟩
  | linkTail entry tail =>
    cases hs
    exact h.linkTail
  | storeHead entry =>
    cases hs
    exact h.storeHead
  | storeTail entry =>
    cases hs
    refine Inv.silent ?_ rfl
    exact ⟨h.chain, h.head_lt, h.tail_lt, h.size, hok, by cases c <;> exact h.consumer⟩

/-! ## Runs -/

theorem append_diff (as bs : List ν) : (as ++ bs).diff as = bs := by
  induction as with
  | nil => exact List.diff_nil _
  | cons a as ih => rw [List.cons_append, List.diff_cons, List.erase_cons_head, ih]

theorem State.waiting_eq {s : State ν} (h : s.enqueued = s.dequeued ++ q) : s.waiting = q := by
  rw [State.waiting, h, append_diff]

structure State.Inv (s : State ν) : Prop where
  fifo : s.enqueued = s.dequeued ++ s.waiting
  list : SpscFifoListQueue.Inv s.shared s.producer s.consumer s.waiting

theorem State.Inv.of {s : State ν} (h : s.enqueued = s.dequeued ++ q)
    (hinv : SpscFifoListQueue.Inv s.shared s.producer s.consumer q) : s.Inv := by
  obtain rfl := State.waiting_eq h
  exact ⟨h, hinv⟩

theorem step_inv {s t : State ν} {a : Act ν} (h : s.Inv) (hg : Guarded s a)
    (hs : step s a = some t) : t.Inv := by
  obtain ⟨hallowed, horderly⟩ := hg
  cases a with
  | enqueue entry =>
    simp only [step] at hs
    split at hs
    · rename_i hidle
      obtain rfl := Option.some.inj hs
      have hinv := h.list
      rw [hidle] at hinv
      exact .of h.fifo (hinv.unlink hallowed)
    · cases hs
  | produce =>
    obtain ⟨⟨m, p⟩, hp, rfl⟩ := Option.map_eq_some_iff.mp hs
    refine .of ?_ (produce_inv h.list hp)
    simp only [← List.append_assoc, ← h.fifo]
  | dequeue =>
    simp only [step] at hs
    split at hs
    · rename_i hidle
      obtain rfl := Option.some.inj hs
      have hinv := h.list
      rw [hidle] at hinv
      exact .of h.fifo (hinv.moveConsumer rfl rfl)
    · cases hs
  | consume =>
    obtain ⟨⟨m, c⟩, hc, rfl⟩ := Option.map_eq_some_iff.mp hs
    obtain ⟨rest, hrest, hinv⟩ := consume_inv h.list
      (fun size he => by simp only [Orderly, he] at horderly; exact horderly)
      (fun val he => by simp only [Orderly, he] at horderly; exact horderly) hc
    refine .of ?_ hinv
    simp only [List.append_assoc, ← hrest]
    exact h.fifo

theorem State.Inv.sound {s : State ν} (h : s.Inv) : Sound s where
  fifo := h.fifo
  reachable := h.list.chain
  noFault := by
    intro he
    have := h.list.consumer
    rw [he] at this
    exact this

/-- **The list queue.** In every run that keeps the consumer off an empty list
that is being filled and off a last node that is being linked to, what was
dequeued comes first in what was enqueued, the rest is reachable, and no null
head is dereferenced. -/
theorem orderly_delivers {as : List (Act ν)} {next : ν → Option ν} {s : State ν}
    (hr : Run step Guarded (init next) as s) : Sound s :=
  (hr.invariant (.of (q := []) rfl (init_inv next)) fun _ _ _ h hg hs => step_inv h hg hs).sound

instance (s : State ν) : ∀ a, Decidable (Allowed s a)
  | .enqueue _ => inferInstanceAs (Decidable (_ ∉ _))
  | .produce | .dequeue | .consume => isTrue trivial

instance : DecidablePred (Producer.Counted (ν := ν))
  | .loadHead _ | .loadTail _ | .linkTail _ _ | .storeHead _ => isTrue trivial
  | .idle | .loadCount _ | .storeCount _ _ | .storeTail _ => isFalse id

instance : DecidablePred (Producer.SawHead (ν := ν))
  | .loadTail _ | .linkTail _ _ => isTrue trivial
  | .idle | .loadCount _ | .storeCount _ _ | .loadHead _ | .storeHead _ | .storeTail _ => isFalse id

instance (s : State ν) : ∀ a, Decidable (Orderly s a)
  | .enqueue _ | .produce | .dequeue => isTrue trivial
  | .consume => by
    unfold Orderly
    cases s.consumer with
    | loadHead size => exact inferInstanceAs (Decidable (¬ (_ ∧ _)))
    | storeHead val next =>
      cases next with
      | none => exact inferInstanceAs (Decidable (_ ∧ _))
      | some m => exact isTrue trivial
    | _ => exact isTrue trivial

instance (s : State ν) (a : Act ν) : Decidable (Guarded s a) := inferInstanceAs (Decidable (_ ∧ _))

def times (n : Nat) (a : Act Nat) : List (Act Nat) := List.replicate n a

/-- The consumer takes node 5 while the producer, behind it, links node 6. -/
def behindTheProducer : List (Act Nat) :=
  times 1 (.enqueue 5) ++ times 5 .produce ++ times 1 (.enqueue 6) ++ times 5 .produce ++
    times 1 .dequeue ++ times 4 .consume ++ times 1 .produce ++ times 3 .consume ++
    times 1 .dequeue ++ times 7 .consume

theorem orderly_delivers_behind :
    ∃ s : State Nat, s.enqueued = [5, 6] ∧ s.dequeued = [5, 6] ∧ Sound s := by
  have hex : (execOk step Guarded (init fun _ : Nat => none) behindTheProducer).map
      (fun s => (s.enqueued, s.dequeued)) = some ([5, 6], [5, 6]) := by
    decide +kernel
  obtain ⟨s, hs, he⟩ := Option.map_eq_some_iff.mp hex
  obtain ⟨henq, hdeq⟩ := Prod.mk.inj he
  exact ⟨s, henq, hdeq, orderly_delivers (run_of_execOk hs)⟩

/-- A dequeue that finds the first node counted, but not in the list yet. -/
def countedNotLinked : List (Act Nat) :=
  [.enqueue 5, .produce, .produce, .dequeue, .consume, .consume]

/-- A dequeue of node 5 that empties the list under an enqueue of node 6. -/
def emptiedUnderProducer : List (Act Nat) :=
  times 1 (.enqueue 5) ++ times 5 .produce ++ times 1 .dequeue ++ times 4 .consume ++
    times 1 (.enqueue 6) ++ times 4 .produce ++ [.consume, .produce]

theorem races_break :
    (∃ s, Run step Allowed (init fun _ : Nat => none) countedNotLinked s ∧ ¬ Sound s) ∧
    ∃ s, Run step Allowed (init fun _ : Nat => none) emptiedUnderProducer s ∧ ¬ Sound s := by
  constructor
  · have hex : (execOk step Allowed (init fun _ : Nat => none) countedNotLinked).map (·.consumer) =
        some .fault := by
      decide +kernel
    obtain ⟨s, hs, hc⟩ := Option.map_eq_some_iff.mp hex
    exact ⟨s, run_of_execOk hs, fun h => h.noFault hc⟩
  · have hex : (execOk step Allowed (init fun _ : Nat => none) emptiedUnderProducer).map
        (fun s => (s.waiting, s.shared.queue.head_shm_)) = some ([6], none) := by
      decide +kernel
    obtain ⟨s, hs, he⟩ := Option.map_eq_some_iff.mp hex
    obtain ⟨hw, hhead⟩ := Prod.mk.inj he
    refine ⟨s, run_of_execOk hs, ?_⟩
    intro h
    have hreach := h.reachable
    rw [hw, hhead] at hreach
    cases hreach.1

end HermesShm.Ipc.SpscFifoListQueue
