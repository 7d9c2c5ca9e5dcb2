import HermesShm.Base.Traced
import HermesShm.Ipc.QueueMoveSound

/-! # Taking nodes out of the middle of a `lifo_list_queue`

One thread fills and empties a queue, and dequeues at iterators that it has got
to from `begin()`. An iterator remembers the node before its own. -/
namespace HermesShm.Ipc.QueueMove.LifoListQueue
open HermesShm.Base

/-- `lifo_list_queue_iterator_templ` -/
structure Iterator where
  entry_ : Option Offset
  prior_entry_ : Option Offset := none

/-- `operator++` -/
def Iterator.next (next_shm_ : Links) (pos : Iterator) : Iterator :=
  match pos.entry_ with
  | none => pos
  | some entry => { entry_ := next_shm_ entry, prior_entry_ := some entry }

/-- `pos + count` -/
def Iterator.add (next_shm_ : Links) (pos : Iterator) : Nat → Iterator
  | 0 => pos
  | count + 1 => (pos.add next_shm_ count).next next_shm_

/-- `begin()`, as an iterator. -/
def iterBegin (q : LifoListQueue) : Iterator := { entry_ := q.begin_ }

/-- `dequeue(pos)` -/
def dequeueAt (next_shm_ : Links) (q : LifoListQueue) (pos : Iterator) :
    Option (Option Offset × Links × LifoListQueue) :=
  match pos.prior_entry_ with
  | none => (q.dequeue next_shm_).map fun (val, q) => (val, next_shm_, q)
  | some prior => pos.entry_.map fun entry =>
    (some entry, Function.update next_shm_ prior (next_shm_ entry),
      { q with length_ := wordSub sizeT q.length_ 1 })

/-! ## Calls -/

/-- A queue and the nodes of its allocator. -/
structure Linked where
  next_shm_ : Links
  queue : LifoListQueue := {}

/-- The calls; `dequeueAt k` is `dequeue(it)` with `it` at `begin() + k`. -/
inductive Op
  | enqueue (entry : Offset)
  | dequeue
  | dequeueAt (k : Nat)

/-- The node returned: `none` for the null pointer, and for `enqueue`, which returns
nothing. -/
def call (s : Linked) : Op → Option (Option Offset × Linked)
  | .enqueue entry => (s.queue.enqueue s.next_shm_ entry).map fun (next_shm_, queue) =>
    (none, { next_shm_, queue })
  | .dequeue => (s.queue.dequeue s.next_shm_).map fun (val, queue) => (val, { s with queue })
  | .dequeueAt k =>
    (s.queue.dequeueAt s.next_shm_ (s.queue.iterBegin.add s.next_shm_ k)).map
      fun (val, next_shm_, queue) => (val, { next_shm_, queue })

/-- What the calls do to the nodes, newest first. -/
def answer (ns : List Offset) : Op → Option Offset × List Offset
  | .enqueue entry => (none, entry :: ns)
  | .dequeue => (ns.head?, ns.tail)
  | .dequeueAt k => (ns[k]?, ns.eraseIdx k)

/-- A node that is enqueued is not met between `begin()` and `end()`, and an
iterator is not at `end()`. -/
def Legal (s : Linked) : Op → Prop
  | .enqueue entry => entry ∉ (walk s.next_shm_ s.queue.length_ s.queue.begin_).getD []
  | .dequeue => True
  | .dequeueAt k => k < s.queue.length_

instance (s : Linked) : ∀ op, Decidable (Legal s op)
  | .enqueue _ => inferInstanceAs (Decidable (_ ∉ _))
  | .dequeue => isTrue trivial
  | .dequeueAt _ => inferInstanceAs (Decidable (_ < _))

/-- The chain from `tail_shm_` is `ns`, of `length_` distinct nodes, and an
iterator visits these, one after the other, before it is at `end()`. -/
structure Visits (s : Linked) (ns : List Offset) : Prop where
  chain : Chain (some ∘ s.next_shm_) s.queue.tail_shm_ ns none
  length : s.queue.length_ = ns.length
  nodup : ns.Nodup
  visits : ∀ k, (s.queue.iterBegin.add s.next_shm_ k).entry_ = ns[k]?

/-- The queue has the nodes `ns`. -/
def Holds (s : Linked) (ns : List Offset) : Prop :=
  Stacked s.next_shm_ s.queue.tail_shm_ s.queue.length_ ns

/-! ## Iterators -/

section Iterate

variable {next_shm_ : Links} {q : LifoListQueue} {tail : Option Offset} {ns : List Offset}

/-- A node of a chain links to the next. -/
theorem chain_next (h : Chain (some ∘ next_shm_) tail ns none) {k : Nat} {n : Offset}
    (hn : ns[k]? = some n) : next_shm_ n = ns[k + 1]? := by
  obtain ⟨hk, rfl⟩ := List.getElem?_eq_some_iff.mp hn
  rw [← List.take_append_drop k ns, List.drop_eq_getElem_cons hk] at h
  obtain ⟨c, -, -, m, hm, hrest⟩ := Chain.append_iff.mp h
  cases hm
  rw [hrest.head_none, List.head?_drop]

theorem add_entry (h : Stacked next_shm_ q.tail_shm_ q.length_ ns) (k : Nat) :
    (q.iterBegin.add next_shm_ k).entry_ = ns[k]? := by
  induction k with
  | zero =>
    show q.begin_ = ns[0]?
    rw [begin_eq h, h.chain.head_none, List.head?_eq_getElem?]
  | succ k ih =>
    rw [Iterator.add, Iterator.next, ih]
    cases hk : ns[k]? with
    | none =>
      have hle := List.getElem?_eq_none_iff.mp hk
      simp only [ih, hk]
      exact (List.getElem?_eq_none (Nat.le_succ_of_le hle)).symm
    | some n => exact chain_next h.chain hk

theorem add_prior (h : Stacked next_shm_ q.tail_shm_ q.length_ ns) {k : Nat}
    (hk : k < ns.length) : (q.iterBegin.add next_shm_ (k + 1)).prior_entry_ = ns[k]? := by
  have hentry := add_entry h k
  rw [List.getElem?_eq_getElem hk] at hentry ⊢
  rw [Iterator.add, Iterator.next, hentry]

theorem Holds.visits {s : Linked} (h : Holds s ns) : Visits s ns :=
  ⟨h.chain, h.count, h.chain.nodup, add_entry h⟩

/-- A node is taken out behind another one. -/
theorem dequeueAt_succ {as cs : List Offset} {r p : Offset}
    (h : Stacked next_shm_ q.tail_shm_ q.length_ (as ++ r :: p :: cs)) :
    ∃ next' q', q.dequeueAt next_shm_ (q.iterBegin.add next_shm_ (as.length + 1)) =
        some (some p, next', q') ∧
      Stacked next' q'.tail_shm_ q'.length_ (as ++ r :: cs) := by
  have hprior := add_prior h (k := as.length) (by simp)
  have hentry := add_entry h (as.length + 1)
  rw [List.getElem?_append_right (Nat.le_refl _), Nat.sub_self,
    List.getElem?_cons_zero] at hprior
  rw [List.getElem?_append_right (Nat.le_add_right _ 1), Nat.add_sub_cancel_left,
    List.getElem?_cons_succ, List.getElem?_cons_zero] at hentry
  refine ⟨Function.update next_shm_ r (next_shm_ p),
    { q with length_ := wordSub sizeT q.length_ 1 }, ?_, ?_, ?_⟩
  · rw [dequeueAt, hprior, hentry]
    rfl
  · rw [Function.comp_update]
    exact h.chain.unlink rfl
  · have hcount := h.count
    simp only [List.length_append, List.length_cons] at hcount ⊢
    rw [wordSub_of_le (by omega)]
    omega

end Iterate

/-! ## Runs -/

/-- **One call.** -/
theorem call_spec {s : Linked} {ns : List Offset} {op : Op} (h : Holds s ns) (hl : Legal s op) :
    ∃ t, call s op = some ((answer ns op).1, t) ∧ Holds t (answer ns op).2 := by
  cases op with
  | enqueue entry =>
    have hn : entry ∉ ns := by
      rw [Legal, begin_eq h, h.count, walk_chain h.chain] at hl
      exact hl
    exact ⟨_, rfl, h.push hn⟩
  | dequeue =>
    cases ns with
    | nil => exact ⟨s, by simp only [call, LifoListQueue.dequeue, h.count]; rfl, h⟩
    | cons n ns =>
      obtain ⟨q', hq, hs⟩ := dequeue_cons h
      exact ⟨{ s with queue := q' }, by simp only [call, hq]; rfl, hs⟩
  | dequeueAt k =>
    have hk : k < ns.length := h.count ▸ hl
    cases k with
    | zero =>
      cases ns with
      | nil => cases hk
      | cons n ns =>
        obtain ⟨q', hq, hs⟩ := dequeue_cons h
        refine ⟨{ s with queue := q' }, ?_, hs⟩
        simp only [call, Iterator.add, iterBegin, dequeueAt, hq]
        rfl
    | succ k =>
      have hdrop : ns = ns.take k ++ ns[k] :: ns[k + 1] :: ns.drop (k + 2) := by
        rw [← List.drop_eq_getElem_cons hk, ← List.drop_eq_getElem_cons (Nat.lt_of_succ_lt hk),
          List.take_append_drop]
      have hlen : (ns.take k).length = k := List.length_take_of_le (by omega)
      obtain ⟨next', q', hq, hs⟩ := dequeueAt_succ (hdrop ▸ h)
      rw [hlen] at hq
      refine ⟨⟨next', q'⟩, ?_, ?_⟩
      · simp only [call, hq, answer, List.getElem?_eq_getElem hk]
        rfl
      · have herase : ns.eraseIdx (k + 1) = ns.take k ++ ns[k] :: ns.drop (k + 2) := by
          rw [List.eraseIdx_eq_take_drop_succ, List.take_add_one,
            List.getElem?_eq_getElem (Nat.lt_of_succ_lt hk), Option.toList_some,
            List.append_assoc]
          rfl
        rw [answer, herase]
        exact hs

/-- A queue and what its calls have returned. -/
abbrev Answered := Traced Linked (Option Offset)

def step : Answered → Op → Option Answered := Traced.step call

def LegalCall (u : Answered) (op : Op) : Prop := Legal u.state op

instance (u : Answered) (op : Op) : Decidable (LegalCall u op) :=
  inferInstanceAs (Decidable (Legal u.state op))

/-- **The queue is a stack that gives up any of its nodes.** In every run the
calls return the nodes that they take out of it, the nodes left are chained,
counted and visited, and the next legal call returns. -/
theorem legal_visits {next_shm_ : Links} {ops : List Op} {u : Answered}
    (h : Run step LegalCall { state := { next_shm_ } } ops u) :
    u.replies = (Traced.replay answer [] ops).replies ∧
      Visits u.state (Traced.replay answer [] ops).state ∧
      ∀ op, LegalCall u op → (step u op).isSome := by
  have h0 : Holds { next_shm_ } [] := ⟨rfl, rfl⟩
  obtain ⟨hrep, hs⟩ := Traced.refines (f := id) (R := Holds) (g := answer) h h0
    fun u ns op r s' hs hl hc => by
      obtain ⟨t, ht, hs'⟩ := call_spec hs hl
      rw [ht] at hc
      cases hc
      exact ⟨rfl, hs'⟩
  refine ⟨by rw [hrep, List.map_id], hs.visits, fun op hl => ?_⟩
  obtain ⟨t, ht, -⟩ := call_spec hs hl
  simp only [step, Traced.step, ht, Option.map_some, Option.isSome_some]

private def nodeAt (i : Fin 4) : Offset := ⟨64 * i.val, by omega⟩

/-- Four nodes; the second, then the first and the last are taken out. -/
theorem legal_visits_middle : ∃ u : Answered,
    u.replies = [none, none, none, none, some (nodeAt 2), some (nodeAt 3), some (nodeAt 0)] ∧
      Visits u.state [nodeAt 1] := by
  let ops : List Op := [.enqueue (nodeAt 0), .enqueue (nodeAt 1), .enqueue (nodeAt 2),
    .enqueue (nodeAt 3), .dequeueAt 1, .dequeue, .dequeueAt 1]
  have hs : (execOk step LegalCall { state := { next_shm_ := fun _ => none } } ops).map
      Traced.replies =
      some [none, none, none, none, some (nodeAt 2), some (nodeAt 3), some (nodeAt 0)] := by
    decide +kernel
  obtain ⟨u, hu, hv⟩ := Option.map_eq_some_iff.mp hs
  exact ⟨u, hv, (legal_visits (run_of_execOk hu)).2.1⟩

end HermesShm.Ipc.QueueMove.LifoListQueue
