import HermesShm.Ipc.MpscLifo
import Mathlib.Data.Fintype.Basic
import Mathlib.Tactic.Common

/-! # The lock-free free list is a stack

The chain from `tail_shm_` is the history's stack at every step. Only the one
dequeuer removes nodes, so a node it has looked at stays in the chain, with its
link, until its own compare-exchange: pushes between the two make it fail. -/
namespace HermesShm.Ipc.MpscLifoListQueue
open HermesShm.Base
open Lifo (live PopsNewest)

variable {ι ν : Type*}

/-! ## What a program point says -/

/-- The node a thread is putting into the list. -/
def Pc.entry : Pc ν → Option ν
  | .loadTail n | .storeNext n _ | .casTail n _ => some n
  | _ => none

/-- Inside `dequeue`, past the test of `count_`. -/
def Pc.Dequeues : Pc ν → Prop
  | .popTail | .popNext _ | .popCas _ _ | .countDown _ => True
  | _ => False

/-- An enqueue that has linked but not counted. -/
def Pc.Linked : Pc ν → Prop
  | .countUp => True
  | _ => False

/-- A dequeue that has unlinked but not counted. -/
def Pc.Unlinked : Pc ν → Prop
  | .countDown _ => True
  | _ => False

theorem Pc.popped_dequeues {p : Pc ν} (h : p.popped ≠ none) : p.Dequeues := by
  cases p <;> trivial

/-- What one thread's program point asserts, with `ns` the nodes of the list. -/
def Pc.Ok (s : Shared ν) (ns : List ν) : Pc ν → Prop
  | .idle | .countUp => True
  | .loadTail n | .storeNext n _ => n ∉ ns
  | .casTail n tail => n ∉ ns ∧ s.next_shm_ n = tail
  | .popTail | .countDown _ => 1 ≤ s.queue.count_
  | .popNext val => 1 ≤ s.queue.count_ ∧ val ∈ ns
  | .popCas val next => 1 ≤ s.queue.count_ ∧ val ∈ ns ∧ s.next_shm_ val = next

theorem Pc.Ok.entry_notMem {s : Shared ν} {ns : List ν} {p : Pc ν} {n : ν} (h : p.Ok s ns)
    (hp : p.entry = some n) : n ∉ ns := by
  cases p with
  | loadTail m => cases hp; exact h
  | storeNext m tail => cases hp; exact h
  | casTail m tail => cases hp; exact h.1
  | idle | countUp | popTail | popNext _ | popCas _ _ | countDown _ => cases hp

/-- What another thread's step must leave alone. -/
theorem Pc.Ok.stable {s s' : Shared ν} {ns ns' : List ν} {p : Pc ν} (h : p.Ok s ns)
    (hentry : ∀ n, p.entry = some n → n ∉ ns' ∧ s'.next_shm_ n = s.next_shm_ n)
    (hdeq : p.Dequeues → s.queue.count_ ≤ s'.queue.count_ ∧
      ∀ n ∈ ns, n ∈ ns' ∧ s'.next_shm_ n = s.next_shm_ n) : p.Ok s' ns' := by
  cases p with
  | idle | countUp => trivial
  | loadTail n => exact (hentry n rfl).1
  | storeNext n tail => exact (hentry n rfl).1
  | casTail n tail => exact ⟨(hentry n rfl).1, (hentry n rfl).2.trans h.2⟩
  | popTail => exact h.trans (hdeq trivial).1
  | popNext val => exact ⟨h.1.trans (hdeq trivial).1, ((hdeq trivial).2 val h.2).1⟩
  | popCas val next =>
    obtain ⟨hcount, hmem⟩ := hdeq trivial
    obtain ⟨hval, hnext⟩ := hmem val h.2.1
    exact ⟨h.1.trans hcount, hval, hnext.trans h.2.2⟩
  | countDown val => exact h.trans (hdeq trivial).1

variable [DecidableEq ν]

/-- How the list may be used: a node is enqueued only while it is neither in
the list nor on its way into it, and only `d` dequeues. -/
def Begins (d : ι) (pc : ι → Pc ν) (es : List (Lifo.Event ν)) (i : ι) : Act ν → Prop
  | .enqueue n => n ∉ live es ∧ ∀ j, (pc j).entry ≠ some n
  | .dequeue => i = d
  | .access _ => True

def Allowed (d : ι) (s : State ι ν) (l : ι × Act ν) : Prop :=
  Begins d s.pool.pc s.events l.1 l.2

/-- What the list promises in a state. -/
structure Sound (d : ι) (s : State ι ν) : Prop where
  chain : Chain (fun n => some (s.pool.shared.next_shm_ n)) s.pool.shared.queue.tail_shm_
    (live s.events) none
  acyclic : (live s.events).Nodup
  newest : PopsNewest s.events
  once : ∀ n, s.events.count (.pop n) + (live s.events).count n = s.events.count (.push n)
  returned : s.events.filterMap Lifo.Event.popped? =
    s.returned ++ (s.pool.pc d).popped.toList
  nonneg : 0 ≤ s.pool.shared.queue.count_
  count : ∃ linked unlinked, Count Pc.Linked s.pool.pc linked ∧
    Count Pc.Unlinked s.pool.pc unlinked ∧
    s.pool.shared.queue.count_ = (live s.events).length - linked + unlinked

/-! ## The invariant -/

structure Inv (d : ι) (s : Shared ν) (pc : ι → Pc ν) (es : List (Lifo.Event ν)) : Prop where
  chain : Chain (fun n => some (s.next_shm_ n)) s.queue.tail_shm_ (live es) none
  newest : PopsNewest es
  roles : Roles (Pc.Ok s (live es)) Pc.entry Pc.Dequeues d pc
  nonneg : 0 ≤ s.queue.count_
  count : ∃ linked unlinked, Count Pc.Linked pc linked ∧ Count Pc.Unlinked pc unlinked ∧
    s.queue.count_ = (live es).length - linked + unlinked

/-- The invariant looks at the links of the list's nodes and of those on their way. -/
theorem Inv.frame {d : ι} {s s' : Shared ν} {pc : ι → Pc ν} {es : List (Lifo.Event ν)}
    (h : Inv d s pc es) (hq : s'.queue = s.queue)
    (hlive : ∀ n ∈ live es, s'.next_shm_ n = s.next_shm_ n)
    (hentry : ∀ i n, (pc i).entry = some n → s'.next_shm_ n = s.next_shm_ n) :
    Inv d s' pc es := by
  constructor
  · rw [hq]
    exact h.chain.congr fun n hn => congrArg some (hlive n hn)
  · exact h.newest
  · refine h.roles.mono fun i hok => ?_
    refine hok.stable (fun n hn => ⟨hok.entry_notMem hn, hentry i n hn⟩) fun _ => ?_
    exact ⟨by rw [hq], fun n hn => ⟨hn, hlive n hn⟩⟩
  · rw [hq]; exact h.nonneg
  · rw [hq]; exact h.count

theorem Inv.silent {d : ι} {s : Shared ν} {pc : ι → Pc ν} {es : List (Lifo.Event ν)} {p p' : Pc ν}
    (h : Inv d s pc es) (he : event p p' = none) : Inv d s pc (es ++ (event p p').toList) := by
  rw [he, Option.toList_none, List.append_nil]
  exact h

structure State.Inv (d : ι) (s : State ι ν) : Prop where
  list : MpscLifoListQueue.Inv d s.pool.shared s.pool.pc s.events
  returned : s.events.filterMap Lifo.Event.popped? = s.returned ++ (s.pool.pc d).popped.toList

theorem init_inv (d : ι) (next : ν → Option ν) : (init ι next).Inv d where
  list :=
    { chain := rfl
      newest := Lifo.popsNewest_nil
      roles := ⟨fun _ => trivial, nofun, nofun⟩
      nonneg := le_rfl
      count := ⟨0, 0, Count.zero fun _ => id, Count.zero fun _ => id, rfl⟩ }
  returned := rfl

theorem State.Inv.sound {d : ι} {s : State ι ν} (h : s.Inv d) : Sound d s where
  chain := h.list.chain
  acyclic := h.list.chain.nodup
  newest := h.list.newest
  once := h.list.newest.popsLive.count
  returned := h.returned
  nonneg := h.list.nonneg
  count := h.list.count

variable [DecidableEq ι] {d i : ι} {s s' : Shared ν} {pc : ι → Pc ν} {es : List (Lifo.Event ν)}
  {p q : Pc ν} {n val : ν} {tail next : Option ν}

/-- A step that changes nothing but the thread's program point. -/
theorem Inv.move (h : Inv d s pc es) (hi : pc i = q)
    (hok : p.Ok s (live es))
    (hentry : ∀ n, p.entry = some n → ∀ j, j ≠ i → (pc j).entry ≠ some n)
    (hdeq : p.Dequeues → i = d) (hlinked : p.Linked ↔ q.Linked)
    (hunlinked : p.Unlinked ↔ q.Unlinked) : Inv d s (Function.update pc i p) es := by
  have hroles := h.roles.update hok hentry hdeq fun j _ => h.roles.ok j
  obtain ⟨linked, unlinked, hl, hu, hcount⟩ := h.count
  exact ⟨h.chain, h.newest, hroles, h.nonneg,
    linked, unlinked, hl.same hi hlinked, hu.same hi hunlinked, hcount⟩

/-- The link of a node on its way in is nobody else's business. -/
theorem Inv.store (h : Inv d s pc es) (hi : pc i = .storeNext n tail) :
    Inv d { s with next_shm_ := Function.update s.next_shm_ n tail }
      (Function.update pc i (.casTail n tail)) es := by
  have hent : (pc i).entry = some n := by rw [hi]; rfl
  have hfresh : n ∉ live es := (h.roles.ok i).entry_notMem hent
  have hlive : ∀ m ∈ live es, Function.update s.next_shm_ n tail m = s.next_shm_ m := by
    intro m hm
    refine Function.update_of_ne ?_ _ _
    intro he
    exact hfresh (by rwa [← he])
  obtain ⟨linked, unlinked, hl, hu, hcount⟩ := h.count
  refine ⟨h.chain.congr fun m hm => congrArg some (hlive m hm), h.newest,
    h.roles.update ⟨hfresh, Function.update_self ..⟩ (h.roles.own hent.symm) nofun ?_,
    h.nonneg, linked, unlinked, hl.same hi Iff.rfl, hu.same hi Iff.rfl, hcount⟩
  · intro j hj
    have hokj := h.roles.ok j
    refine hokj.stable (fun m hm => ⟨hokj.entry_notMem hm, Function.update_of_ne ?_ _ _⟩)
      fun _ => ⟨le_rfl, fun m hm => ⟨hm, hlive m hm⟩⟩
    intro he
    exact hj (h.roles.item j i n (by rwa [← he]) hent)

/-- The compare-exchange of `enqueue`. -/
theorem Inv.link (h : Inv d s pc es) (hi : pc i = .casTail n tail)
    (htail : s.queue.tail_shm_ = tail) :
    Inv d { s with queue := { s.queue with tail_shm_ := some n } }
      (Function.update pc i .countUp) (es ++ [.push n]) := by
  have hent : (pc i).entry = some n := by rw [hi]; rfl
  have hoki := h.roles.ok i
  rw [hi] at hoki
  obtain ⟨linked, unlinked, hl, hu, hcount⟩ := h.count
  refine ⟨?_, h.newest.concat nofun, h.roles.update trivial nofun nofun ?_, h.nonneg, linked + 1,
    unlinked, hl.enter hi id trivial, hu.same hi Iff.rfl, ?_⟩
  · rw [Lifo.live_push]
    refine ⟨rfl, tail, congrArg some hoki.2, ?_⟩
    rw [← htail]
    exact h.chain
  · intro j hj
    have hokj := h.roles.ok j
    rw [Lifo.live_push]
    refine hokj.stable (fun m hm => ⟨?_, rfl⟩)
      fun _ => ⟨le_rfl, fun m hm => ⟨List.mem_cons_of_mem _ hm, rfl⟩⟩
    rw [List.mem_cons, not_or]
    refine ⟨?_, hokj.entry_notMem hm⟩
    intro he
    exact hj (h.roles.item j i n (by rwa [← he]) hent)
  · rw [Lifo.live_push, List.length_cons]
    simp only [hcount]
    omega

/-- The compare-exchange of `dequeue`: what it read of the node still holds. -/
theorem Inv.unlink (h : Inv d s pc es) (hi : pc i = .popCas val next)
    (htail : s.queue.tail_shm_ = some val) :
    Inv d { s with queue := { s.queue with tail_shm_ := next } }
      (Function.update pc i (.countDown val)) (es ++ [.pop val]) := by
  have hid : i = d := h.roles.task i (by rw [hi]; trivial)
  obtain ⟨hpos, -, hnext⟩ : 1 ≤ s.queue.count_ ∧ val ∈ live es ∧ s.next_shm_ val = next := by
    have := h.roles.ok i
    rwa [hi] at this
  have hhead : (live es).head? = some val := by rw [← h.chain.head_none, htail]
  obtain ⟨rest, hrest⟩ := List.head?_eq_some_iff.mp hhead
  have herase : live (es ++ [.pop val]) = rest := by
    rw [Lifo.live_pop, hrest, List.erase_cons_head]
  obtain ⟨linked, unlinked, hl, hu, hcount⟩ := h.count
  refine ⟨?_, h.newest.concat ?_, h.roles.update hpos nofun (fun _ => hid) ?_, h.nonneg, linked,
    unlinked + 1, hl.same hi Iff.rfl, hu.enter hi id trivial, ?_⟩
  · have hchain := h.chain
    rw [hrest, htail] at hchain
    obtain ⟨-, m, hm, hchain⟩ := hchain
    rw [herase, ← hnext, Option.some.inj hm]
    exact hchain
  · rintro m ⟨⟩
    exact hhead
  · intro j hj
    have hokj := h.roles.ok j
    refine hokj.stable (fun m hm => ⟨?_, rfl⟩) fun hd => ?_
    · rw [Lifo.live_pop]
      exact fun hmem => hokj.entry_notMem hm (List.mem_of_mem_erase hmem)
    · exact absurd ((h.roles.task j hd).trans hid.symm) hj
  · rw [herase]
    rw [hrest, List.length_cons] at hcount
    simp only [hcount]
    omega

theorem Inv.countUp (h : Inv d s pc es) (hi : pc i = .countUp) :
    Inv d { s with queue := { s.queue with count_ := s.queue.count_ + 1 } }
      (Function.update pc i .idle) es := by
  obtain ⟨linked, unlinked, hl, hu, hcount⟩ := h.count
  have hlpos := hl.pos (i := i) (by rw [hi]; trivial)
  refine ⟨h.chain, h.newest, h.roles.update trivial nofun nofun ?_, Int.le_add_one h.nonneg,
    linked - 1, unlinked, hl.leave hi trivial id, hu.same hi Iff.rfl, ?_⟩
  · intro j _
    have hokj := h.roles.ok j
    refine hokj.stable (fun m hm => ⟨hokj.entry_notMem hm, rfl⟩) fun _ => ?_
    exact ⟨Int.le_add_one le_rfl, fun m hm => ⟨hm, rfl⟩⟩
  · simp only [hcount]
    omega

theorem Inv.countDown (h : Inv d s pc es) (hi : pc i = .countDown val) :
    Inv d { s with queue := { s.queue with count_ := s.queue.count_ - 1 } }
      (Function.update pc i .idle) es := by
  have hid : i = d := h.roles.task i (by rw [hi]; trivial)
  have hpos : 1 ≤ s.queue.count_ := by
    have := h.roles.ok i
    rwa [hi] at this
  obtain ⟨linked, unlinked, hl, hu, hcount⟩ := h.count
  have hupos := hu.pos (i := i) (by rw [hi]; trivial)
  refine ⟨h.chain, h.newest, h.roles.update trivial nofun nofun ?_, Int.sub_nonneg_of_le hpos,
    linked, unlinked - 1, hl.same hi Iff.rfl, hu.leave hi trivial id, ?_⟩
  · intro j hj
    have hokj := h.roles.ok j
    refine hokj.stable (fun m hm => ⟨hokj.entry_notMem hm, rfl⟩) fun hd => ?_
    exact absurd ((h.roles.task j hd).trans hid.symm) hj
  · simp only [hcount]
    omega

theorem access_inv {spurious : Bool} (h : Inv d s pc es)
    (hs : access s spurious (pc i) = some (s', p)) :
    Inv d s' (Function.update pc i p) (es ++ (event (pc i) p).toList) := by
  have hok := h.roles.ok i
  have hdeq := h.roles.task i
  have hown := h.roles.own (i := i) (x := p)
  cases hi : pc i with
  | idle => rw [hi] at hs; cases hs
  | loadTail n =>
    rw [hi] at hs hok hown
    cases hs
    refine Inv.silent ?_ rfl
    exact h.move hi hok (hown rfl) nofun Iff.rfl Iff.rfl
  | storeNext n tail =>
    rw [hi] at hs
    cases hs
    refine Inv.silent ?_ rfl
    exact h.store hi
  | casTail n tail =>
    rw [hi] at hs hok hown
    simp only [access] at hs
    split at hs
    · rename_i htail
      cases hs
      exact h.link hi htail.1
    · cases hs
      refine Inv.silent ?_ rfl
      exact h.move hi hok.1 (hown rfl) nofun Iff.rfl Iff.rfl
  | countUp =>
    rw [hi] at hs
    cases hs
    refine Inv.silent ?_ rfl
    exact h.countUp hi
  | popTail =>
    rw [hi] at hs hok hdeq
    simp only [access] at hs
    split at hs
    · cases hs
      refine Inv.silent ?_ rfl
      exact h.move hi trivial nofun nofun Iff.rfl Iff.rfl
    · rename_i val htail
      cases hs
      refine Inv.silent ?_ rfl
      have hhead : (live es).head? = some val := by rw [← h.chain.head_none, htail]
      exact h.move hi ⟨hok, List.mem_of_head? hhead⟩ nofun (fun _ => hdeq trivial)
        Iff.rfl Iff.rfl
  | popNext val =>
    rw [hi] at hs hok hdeq
    cases hs
    refine Inv.silent ?_ rfl
    exact h.move hi ⟨hok.1, hok.2, rfl⟩ nofun (fun _ => hdeq trivial)
      Iff.rfl Iff.rfl
  | popCas val next =>
    rw [hi] at hs hok hdeq
    simp only [access] at hs
    split at hs
    · rename_i htail
      cases hs
      exact h.unlink hi htail.1
    · cases hs
      refine Inv.silent ?_ rfl
      exact h.move hi hok.1 nofun (fun _ => hdeq trivial)
        Iff.rfl Iff.rfl
  | countDown val =>
    rw [hi] at hs
    cases hs
    refine Inv.silent ?_ rfl
    exact h.countDown hi

theorem act_inv {a : Act ν} (h : Inv d s pc es) (hb : Begins d pc es i a)
    (hs : act s (pc i) a = some (s', p)) :
    Inv d s' (Function.update pc i p) (es ++ (event (pc i) p).toList) := by
  unfold act at hs
  split at hs
  · rename_i n hi
    cases hs
    rw [hi]
    refine Inv.silent ?_ rfl
    refine h.move hi hb.1 ?_ nofun Iff.rfl Iff.rfl
    rintro m ⟨⟩ j _
    exact hb.2 j
  · rename_i hi
    cases hs
    rw [hi]
    refine Inv.silent ?_ rfl
    by_cases h0 : s.queue.count_ = 0
    · rw [if_pos h0]
      exact h.move hi trivial nofun nofun Iff.rfl Iff.rfl
    · rw [if_neg h0]
      have hpos : 1 ≤ s.queue.count_ := by
        have := h.nonneg
        omega
      exact h.move hi hpos nofun (fun _ => hb) Iff.rfl Iff.rfl
  · exact access_inv h hs
  · cases hs

/-! ## What one step can do to nodes and links -/

theorem access_next {spurious : Bool} {q : Pc ν} (hs : access s spurious q = some (s', p))
    (hn : q.entry ≠ some n) : s'.next_shm_ n = s.next_shm_ n := by
  cases q with
  | idle => cases hs
  | storeNext m tail =>
    cases hs
    refine Function.update_of_ne ?_ _ _
    intro he
    exact hn (congrArg some he.symm)
  | loadTail m | countUp | popNext val | countDown val => cases hs; rfl
  | casTail m tail => simp only [access] at hs; split at hs <;> cases hs <;> rfl
  | popTail => simp only [access] at hs; split at hs <;> cases hs <;> rfl
  | popCas val next => simp only [access] at hs; split at hs <;> cases hs <;> rfl

/-- A thread writes the link of its own node only. -/
theorem act_next {a : Act ν} {q : Pc ν} (hs : act s q a = some (s', p)) (hn : q.entry ≠ some n) :
    s'.next_shm_ n = s.next_shm_ n := by
  unfold act at hs
  split at hs
  · cases hs; rfl
  · cases hs; rfl
  · exact access_next hs hn
  · cases hs

theorem access_entry {spurious : Bool} {q : Pc ν} (hs : access s spurious q = some (s', p))
    (hp : p.entry = some n) : q.entry = some n := by
  cases q with
  | idle => cases hs
  | loadTail m | storeNext m tail => cases hs; exact hp
  | countUp | popNext val | countDown val => cases hs; cases hp
  | casTail m tail =>
    simp only [access] at hs
    split at hs
    · cases hs; cases hp
    · cases hs; exact hp
  | popTail => simp only [access] at hs; split at hs <;> cases hs <;> cases hp
  | popCas val next => simp only [access] at hs; split at hs <;> cases hs <;> cases hp

/-- A thread comes to a node by a call of `enqueue`. -/
theorem act_entry {a : Act ν} {q : Pc ν} (hs : act s q a = some (s', p))
    (hp : p.entry = some n) : q.entry = some n ∨ a = .enqueue n := by
  unfold act at hs
  split at hs
  · cases hs; cases hp; exact .inr rfl
  · cases hs
    split at hp <;> cases hp
  · exact .inl (access_entry hs hp)
  · cases hs

omit [DecidableEq ν] in
theorem event_push {q : Pc ν} (h : event q p = some (.push n)) : q.entry = some n := by
  unfold event at h
  split at h <;> cases h
  rfl

/-! ## Runs -/

theorem access_popped {spurious : Bool} {q : Pc ν} (hs : access s spurious q = some (s', p)) :
    (event q p).bind Lifo.Event.popped? = p.popped := by
  cases q with
  | idle => cases hs
  | loadTail n | storeNext n tail | countUp | popNext val | countDown val => cases hs; rfl
  | casTail n tail => simp only [access] at hs; split at hs <;> cases hs <;> rfl
  | popTail => simp only [access] at hs; split at hs <;> cases hs <;> rfl
  | popCas val next => simp only [access] at hs; split at hs <;> cases hs <;> rfl

/-- What `dequeue` is about to return is what its compare-exchange popped. -/
theorem act_popped {a : Act ν} {q : Pc ν} (hs : act s q a = some (s', p)) :
    (event q p).bind Lifo.Event.popped? = p.popped := by
  unfold act at hs
  split at hs
  · cases hs; rfl
  · cases hs
    split <;> rfl
  · exact access_popped hs
  · cases hs

theorem step_inv {s t : State ι ν} {l : ι × Act ν} (h : s.Inv d) (ha : Allowed d s l)
    (hs : step s l = some t) : t.Inv d := by
  obtain ⟨i, a⟩ := l
  obtain ⟨u, hu, rfl⟩ := Option.map_eq_some_iff.mp hs
  obtain ⟨sh, p, hact, rfl⟩ := Pool.step_cases hu
  have hinv := act_inv h.list ha hact
  refine ⟨?_, ?_⟩
  · simp only [Function.update_self]
    exact hinv
  · have hpop : (event (s.pool.pc i) p).toList.filterMap Lifo.Event.popped? = p.popped.toList := by
      rw [← act_popped hact]
      cases event (s.pool.pc i) p with
      | none => rfl
      | some e => cases e <;> rfl
    simp only [Function.update_self, List.filterMap_append, hpop, h.returned]
    obtain rfl | hid := eq_or_ne i d
    · rw [Function.update_self]
    · -- another thread has popped nothing, before or after
      have hnone : ∀ q : Pc ν, (q.Dequeues → i = d) → q.popped = none := by
        intro q hq
        by_contra hne
        exact hid (hq (Pc.popped_dequeues hne))
      have hp : p.popped = none := by
        refine hnone p fun hd => hinv.roles.task i ?_
        rw [Function.update_self]
        exact hd
      rw [Function.update_of_ne (Ne.symm hid), hnone _ (h.list.roles.task i), hp]
      simp

theorem run_inv {as : List (ι × Act ν)} {next : ν → Option ν} {s : State ι ν}
    (hr : Run step (Allowed d) (init ι next) as s) : s.Inv d :=
  hr.invariant (init_inv d next) fun _ _ _ h ha hs => step_inv h ha hs

/-- **The lock-free free list.** In every interleaving of any number of enqueuers
with one dequeuer the chain is the stack of the nodes linked and not popped,
every pop returns the newest of them, and the counter lags by the calls that
have not counted yet. -/
theorem sound_of_run {as : List (ι × Act ν)} {next : ν → Option ν} {s : State ι ν}
    (hr : Run step (Allowed d) (init ι next) as s) : Sound d s :=
  (run_inv hr).sound

/-- Node 7 is popped and pushed again by thread 1 while thread 0 pushes node 8
with a stale tail; then both are popped. -/
def repush : List (Fin 2 × Act Nat) :=
  let go (i : Fin 2) (n : Nat) : List (Fin 2 × Act Nat) := List.replicate n (i, .access false)
  [(1, .enqueue 7)] ++ go 1 3 ++ [(0, .enqueue 8), (1, .dequeue)] ++ go 1 4 ++
    [(1, .enqueue 7)] ++ go 1 3 ++ go 0 3 ++ [(1, .dequeue)] ++ go 1 4 ++ [(1, .dequeue)] ++ go 1 4

instance [Fintype ι] (pc : ι → Pc ν) (es : List (Lifo.Event ν)) (i : ι) :
    ∀ a, Decidable (Begins d pc es i a)
  | .enqueue _ => inferInstanceAs (Decidable (_ ∧ _))
  | .dequeue => inferInstanceAs (Decidable (_ = _))
  | .access _ => isTrue trivial

instance [Fintype ι] (s : State ι ν) (l : ι × Act ν) : Decidable (Allowed d s l) :=
  inferInstanceAs (Decidable (Begins d s.pool.pc s.events l.1 l.2))

theorem sound_of_run_repush :
    ∃ s : State (Fin 2) Nat, s.returned = [7, 8, 7] ∧ Sound 1 s := by
  have hex : (execOk step (Allowed 1) (init (Fin 2) fun _ => none) repush).map (·.returned) =
      some [7, 8, 7] := by
    decide +kernel
  obtain ⟨s, hs, hret⟩ := Option.map_eq_some_iff.mp hex
  exact ⟨s, hret, sound_of_run (run_of_execOk hs)⟩

end HermesShm.Ipc.MpscLifoListQueue
