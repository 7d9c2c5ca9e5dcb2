import HermesShm.Base.Custody
import HermesShm.Ipc.MpmcKeySet
import HermesShm.Ipc.RingQueueDelivery

/-! # No key is held twice

While at most one thread takes a key out of the ring, and only from the slot at
`head_`, the key ring is the ring queue with one consumer: the taking thread. Its
tokens then tell which keys are in the ring, and every key below `heap_` is with
one thread or in the ring. -/
namespace HermesShm.Ipc.MpmcKeySet
open HermesShm.Base HermesShm.Ipc.RingQueue

variable {ι τ : Type*}

/-! ## The ring queue with one consumer -/

/-- Rings that differ only in values moved out of the second. -/
structure Mirrors (r r' : RingQueue.Ring Nat) : Prop where
  depth : r'.depth = r.depth
  tail_ : r'.tail_ = r.tail_
  head_ : r'.head_ = r.head_
  first : ∀ idx, (r'.queue_ idx).first = (r.queue_ idx).first
  second : ∀ idx v, (r'.queue_ idx).second = some v → (r.queue_ idx).second = some v

namespace Mirrors

variable {r r' : RingQueue.Ring Nat}

theorem any (h : Mirrors r r') (idx mask : Nat) : r'.any idx mask = r.any idx mask := by
  rw [Ring.any, Ring.any, h.first]

theorem write (h : Mirrors r r') {idx : Nat} {e e' : Slot Nat} (hf : e'.first = e.first)
    (hs : ∀ v, e'.second = some v → e.second = some v) :
    Mirrors (r.write idx e) (r'.write idx e') := by
  refine { h with first := fun j => ?_, second := fun j v hv => ?_ }
  · by_cases hj : j = idx
    · subst hj
      simp only [Ring.write, Function.update_self, hf]
    · simp only [Ring.write, Function.update_of_ne hj]
      exact h.first j
  · by_cases hj : j = idx
    · subst hj
      simp only [Ring.write, Function.update_self] at hv ⊢
      exact hs v hv
    · simp only [Ring.write, Function.update_of_ne hj] at hv ⊢
      exact h.second j v hv

theorem setTail (h : Mirrors r r') (n : Nat) :
    Mirrors { r with tail_ := n } { r' with tail_ := n } :=
  { h with tail_ := rfl }

theorem setHead (h : Mirrors r r') (n : Nat) :
    Mirrors { r with head_ := n } { r' with head_ := n } :=
  { h with head_ := rfl }

end Mirrors

/-- A producer does the same on both rings. -/
theorem produce_mirrors {m q n : RingQueue.Shared Nat} {p p' : Producer Nat} {a : ProducerAct Nat}
    (hr : Mirrors m.ring q.ring) (hh : m.hist = q.hist)
    (h : produce fixedMpmcFlags m p a = some (n, p')) :
    ∃ n', produce fixedMpmcFlags q p a = some (n', p') ∧ Mirrors n.ring n'.ring ∧
      n.hist = n'.hist ∧ n'.consumer = q.consumer := by
  cases p with
  | idle =>
    cases a <;> cases h
    exact ⟨q, by simp only [produce, hr.head_], hr, hh, rfl⟩
  | claim head v =>
    cases a <;> cases h
    refine ⟨{ q with
      ring := { q.ring with tail_ := wordAdd sizeMod m.ring.tail_ 1 }
      hist := q.hist.claim (m.ring.tail_, v)
        (afterClaim fixedMpmcFlags m.ring.depth head m.ring.tail_ v) }, ?_, hr.setTail _, ?_, rfl⟩
    · simp only [produce, hr.depth, hr.tail_]
    · simp only [hh]
  | awaitSpace tail v =>
    cases a with
    | emplace _ => cases h
    | access =>
      simp only [produce, hr.depth, hr.head_] at h ⊢
      split at h <;> cases h <;> rename_i hroom
      · exact ⟨q, if_pos hroom, hr, hh, rfl⟩
      · exact ⟨q, if_neg hroom, hr, hh, rfl⟩
  | giveBack tail v =>
    cases a <;> cases h
    refine ⟨_, rfl, ?_, ?_, rfl⟩
    · simp only [hr.tail_]
      exact hr.setTail _
    · simp only [hh]
  | replace tail v =>
    cases a <;> cases h
    refine ⟨_, rfl, ?_, ?_, rfl⟩
    · simp only [Ring.emplaceIdx, hr.depth]
      exact hr.write rfl fun _ => id
    · simp only [hh]
  | mark tail =>
    cases a <;> cases h
    refine ⟨_, rfl, ?_, ?_, rfl⟩
    · simp only [Ring.emplaceIdx, hr.depth]
      exact hr.write (by simp only [hr.first]) (hr.second _)
    · simp only [hh]

/-- After its claim a producer moves neither counter and takes no other token. -/
theorem produce_keeps {flags : RingQueueFlag} {m n : RingQueue.Shared Nat} {p p' : Producer Nat}
    (hclaim : ∀ head v, p ≠ .claim head v) (hgb : ¬ p.isGiveBack)
    (h : produce flags m p .access = some (n, p')) :
    n.hist.taken = m.hist.taken ∧ n.ring.head_ = m.ring.head_ ∧ n.ring.tail_ = m.ring.tail_ ∧
      ¬ p'.isGiveBack ∧ ∀ head v, p' ≠ .claim head v := by
  cases p with
  | idle => cases h
  | claim head v => exact absurd rfl (hclaim head v)
  | giveBack tail v => exact absurd trivial hgb
  | awaitSpace tail v =>
    simp only [produce] at h
    split at h <;> cases h <;> exact ⟨rfl, rfl, rfl, id, by simp⟩
  | replace tail v | mark tail =>
    cases h
    exact ⟨rfl, rfl, rfl, id, by simp⟩

/-- Where a thread is in the ring's `emplace`. -/
def Pc.producer : Pc τ → Producer Nat
  | .erasing p => p
  | _ => .idle

/-- At most one thread is taking a key, and it is where the consumer is. -/
def Consuming (pc : ι → Thread τ) (c : Consumer Nat) : Prop :=
  (c = .idle ∧ ∀ i, (pc i).pc.takes = none) ∨
    ∃ i, (pc i).pc.takes = some c ∧ ∀ j, j ≠ i → (pc j).pc.takes = none

/-- The key ring is a ring queue with the taking thread for its consumer. -/
structure QueueInv (m : Shared τ) (pc : ι → Thread τ) (q : RingQueue.Shared Nat) : Prop where
  inv : RingQueue.Inv fixedMpmcFlags (⟨q, fun i => (pc i).pc.producer⟩ : RingQueue.State ι Nat)
  ring : Mirrors m.ring q.ring
  hist : m.hist = q.hist
  consuming : Consuming pc q.consumer

theorem Consuming.eq {pc : ι → Thread τ} {c d : Consumer Nat} {i : ι} (h : Consuming pc c)
    (hi : (pc i).pc.takes = some d) : c = d ∧ ∀ j, j ≠ i → (pc j).pc.takes = none := by
  rcases h with ⟨-, hnone⟩ | ⟨k, hk, hother⟩
  · rw [hnone i] at hi
    cases hi
  · by_cases hik : i = k
    · subst hik
      rw [hk] at hi
      exact ⟨Option.some.inj hi, hother⟩
    · rw [hother i hik] at hi
      cases hi

/-- The value in a slot that the consumer empties. -/
theorem QueueInv.slot_at_head {m : Shared τ} {pc : ι → Thread τ} {q : RingQueue.Shared Nat}
    {head : Nat} (h : QueueInv m pc q) (hc : q.consumer = .moveOut head) :
    head = m.ring.head_ ∧ ∃ v, (head, v) ∈ m.hist.taken ∧
      q.ring.queue_ (q.ring.popIdx head) = ⟨1, some v⟩ := by
  have hsh : SharedInv q := h.inv.holds.shared
  have hcons := hsh.consumer
  rw [hc] at hcons
  obtain ⟨rfl, hret⟩ := hcons
  obtain ⟨v, hv⟩ := hsh.stored_taken _ (hsh.returned_stored _ hret)
  have hslot := hsh.full _ v hv (hsh.returned_stored _ hret) (Nat.le_refl _)
    fun _ => by rw [hc]; exact id
  rw [if_pos hret] at hslot
  exact ⟨h.ring.head_, v, by rw [h.hist]; exact hv, hslot⟩

section Moves

variable [DecidableEq ι]

theorem producer_update (pc : ι → Thread τ) (i : ι) (t : Thread τ) :
    (fun j => (Function.update pc i t j).pc.producer) =
      Function.update (fun j => (pc j).pc.producer) i t.pc.producer := by
  funext j
  exact Function.apply_update (fun _ t => Pc.producer t.pc) pc i t j

/-- The thread that moves is the one that takes a key, or none takes one. -/
theorem Consuming.update {pc : ι → Thread τ} {i : ι} {t : Thread τ} {c : Consumer Nat}
    (ho : ∀ j, j ≠ i → (pc j).pc.takes = none)
    (ht : t.pc.takes = some c ∨ t.pc.takes = none ∧ c = .idle) :
    Consuming (Function.update pc i t) c := by
  have hother : ∀ j, j ≠ i → (Function.update pc i t j).pc.takes = none := fun j hj => by
    rw [Function.update_of_ne hj]
    exact ho j hj
  rcases ht with ht | ⟨ht, hc⟩
  · exact .inr ⟨i, by rw [Function.update_self]; exact ht, hother⟩
  · refine .inl ⟨hc, fun j => ?_⟩
    by_cases hj : j = i
    · subst hj
      rw [Function.update_self]
      exact ht
    · exact hother j hj

/-- The moving thread takes as much as before. -/
theorem Consuming.same {pc : ι → Thread τ} {i : ι} {t : Thread τ} {c : Consumer Nat}
    (h : Consuming pc c) (ht : t.pc.takes = (pc i).pc.takes) :
    Consuming (Function.update pc i t) c := by
  have hall : ∀ j, (Function.update pc i t j).pc.takes = (pc j).pc.takes := fun j => by
    by_cases hj : j = i
    · subst hj
      rw [Function.update_self]
      exact ht
    · rw [Function.update_of_ne hj]
  simp only [Consuming, hall]
  exact h

namespace QueueInv

variable {m u : Shared τ} {pc : ι → Thread τ} {q : RingQueue.Shared Nat} {i : ι} {t : Thread τ}

/-- A step of thread `i` that the ring does not see. -/
theorem frame (h : QueueInv m pc q) (hr : u.ring = m.ring) (hh : u.hist = m.hist)
    (hp : t.pc.producer = (pc i).pc.producer) (ht : t.pc.takes = (pc i).pc.takes) :
    QueueInv u (Function.update pc i t) q := by
  refine ⟨?_, hr ▸ h.ring, hh.trans h.hist, h.consuming.same ht⟩
  rw [producer_update, hp]
  have : Function.update (fun j => (pc j).pc.producer) i (pc i).pc.producer =
      fun j => (pc j).pc.producer := Function.update_eq_self i _
  rw [this]
  exact h.inv

/-- A step of thread `i` in the ring's `emplace`. -/
theorem produce {n : RingQueue.Shared Nat} {d : Producer Nat} {a : ProducerAct Nat}
    (h : QueueInv m pc q)
    (hn : RingQueue.produce fixedMpmcFlags m.queue (pc i).pc.producer a = some (n, d))
    (hg : ∀ head v, (pc i).pc.producer = .claim head v →
      m.ring.tail_ + 1 < sizeMod ∧ m.ring.tail_ % m.ring.depth < idxMod)
    (hb : ¬ (pc i).pc.producer.isGiveBack) (hr : u.ring = n.ring) (hh : u.hist = n.hist)
    (hp : t.pc.producer = d) (ht : t.pc.takes = (pc i).pc.takes) :
    ∃ q', QueueInv u (Function.update pc i t) q' := by
  obtain ⟨n', hn', hmirror, hhist, hcons⟩ := produce_mirrors (m := m.queue) h.ring h.hist hn
  have hstep : RingQueue.step fixedMpmcFlags
      (⟨q, fun j => (pc j).pc.producer⟩ : RingQueue.State ι Nat) (.produce i a) =
        some ⟨n', Function.update (fun j => (pc j).pc.producer) i d⟩ := by
    simp only [RingQueue.step, Pool.step, hn', Option.map_some]
  have hguard : RingQueue.Guarded (⟨q, fun j => (pc j).pc.producer⟩ : RingQueue.State ι Nat)
      (.produce i a) := by
    show NoWrap q (pc i).pc.producer ∧ FitsIdx q (pc i).pc.producer ∧ FreesNone q (pc i).pc.producer
    cases hpc : (pc i).pc.producer with
    | claim head v =>
      obtain ⟨hw, hidx⟩ := hg head v hpc
      refine ⟨?_, ?_, trivial⟩
      · show q.ring.tail_ + 1 < sizeMod
        rw [h.ring.tail_]
        exact hw
      · show q.ring.tail_ % q.ring.depth < idxMod
        rw [h.ring.tail_, h.ring.depth]
        exact hidx
    | giveBack tail v =>
      rw [hpc] at hb
      exact absurd trivial hb
    | idle | awaitSpace _ _ | replace _ _ | mark _ => exact ⟨trivial, trivial, trivial⟩
  refine ⟨n', ?_, hr ▸ hmirror, hh.trans hhist, ?_⟩
  · rw [producer_update, hp]
    exact RingQueue.step_inv rfl h.inv hguard hstep
  · rw [hcons]
    exact h.consuming.same ht

/-- A step of the thread that is taking a key. -/
theorem consume (h : QueueInv m pc q) (hc : (pc i).pc.takes = some q.consumer)
    (hr : Mirrors u.ring (RingQueue.consume q).ring) (hh : u.hist = (RingQueue.consume q).hist)
    (hp : (pc i).pc.producer = .idle) (ht : t.pc.producer = .idle)
    (hnext : t.pc.takes = some (RingQueue.consume q).consumer ∨
      t.pc.takes = none ∧ (RingQueue.consume q).consumer = .idle) :
    QueueInv u (Function.update pc i t) (RingQueue.consume q) := by
  refine ⟨?_, hr, hh, .update (h.consuming.eq hc).2 hnext⟩
  have hsame : (fun j => (Function.update pc i t j).pc.producer) = fun j => (pc j).pc.producer := by
    rw [producer_update, ht, ← hp]
    exact Function.update_eq_self i _
  rw [hsame]
  exact RingQueue.step_inv (l := .consume) rfl h.inv trivial rfl

/-- Finding the slot at `head_` ready, no one else taking a key. -/
theorem find (h : QueueInv m pc q) (hnone : ∀ j, (pc j).pc.takes = none)
    (hany : m.ring.any (m.ring.popIdx m.ring.head_) 1 = true)
    (hp : t.pc.producer = (pc i).pc.producer)
    (ht : t.pc.takes = some (.moveOut m.ring.head_)) :
    QueueInv m (Function.update pc i t) { q with consumer := .moveOut m.ring.head_ } := by
  have hidle : q.consumer = .idle := by
    rcases h.consuming with ⟨hc, -⟩ | ⟨k, hk, -⟩
    · exact hc
    · rw [hnone k] at hk
      cases hk
  have hsh : SharedInv q := h.inv.holds.shared
  have hready : q.ring.head_ ∈ q.hist.returned := by
    refine hsh.ready (by rw [hidle]; exact id) ?_
    rw [h.ring.any, Ring.popIdx, h.ring.depth, h.ring.head_]
    exact hany
  have hsh' : SharedInv { q with consumer := .moveOut m.ring.head_ } :=
    { hsh with
      full := fun k v hkv hk hle _ => hsh.full k v hkv hk hle fun _ => by rw [hidle]; exact id
      consumer := ⟨h.ring.head_.symm, h.ring.head_ ▸ hready⟩ }
  have hsame : (fun j => (Function.update pc i t j).pc.producer) = fun j => (pc j).pc.producer := by
    rw [producer_update, hp]
    exact Function.update_eq_self i _
  refine ⟨?_, h.ring, h.hist, .update (fun j _ => hnone j) (.inl ht)⟩
  rw [hsame]
  refine ⟨h.inv.holds.environment hsh' fun j hj => ?_, h.inv.outstanding, h.inv.balance⟩
  have hrely : Rely q { q with consumer := .moveOut m.ring.head_ } none :=
    ⟨rfl, Nat.le_refl _, fun _ => id, fun _ => id, fun _ => .inl, fun _ => .inl⟩
  exact hj.stable hrely (by simp)

end QueueInv

end Moves

/-! ## The invariant -/

/-- The key that a thread erases and has no token for yet. -/
def Pc.transit : Pc τ → List Nat
  | .erasing (.claim _ v) => [v]
  | _ => []

theorem Pc.carries_transit {p : Pc τ} {k : Nat} (h : k ∈ p.transit) : p.Carries k := by
  cases p with
  | erasing p =>
    cases p with
    | claim head v => exact (List.mem_singleton.mp h).symm
    | idle | awaitSpace _ _ | giveBack _ _ | replace _ _ | mark _ => cases h
  | _ => cases h

theorem Pc.takes_eq {p : Pc τ} {c : Consumer Nat} (h : p.takes = some c) :
    ∃ v, p = .popping c v := by
  cases p with
  | popping d v =>
    cases d with
    | moveOut head | clear head key | advance head key =>
      cases h
      exact ⟨v, rfl⟩
    | idle | loadTail _ | test _ => cases h
  | _ => cases h

/-- The keys that a thread has. -/
def Thread.own (t : Thread τ) : List Nat := t.held ++ t.pc.transit

/-- The keys in the ring, oldest first. -/
def Shared.waiting (m : Shared τ) : List Nat := (m.hist.taken.drop m.ring.head_).map Prod.snd

/-- The thread that has read `heap_` is the only one, and `heap_` is as it was. -/
def Writers (m : Shared τ) (pc : ι → Thread τ) : Prop :=
  ∀ i key v, (pc i).pc = .writeHeap key v →
    key = m.heap_ ∧ m.heap_ < m.max_size_ ∧ ∀ j, j ≠ i → (pc j).pc.writesHeap = false

structure Inv (m : Shared τ) (pc : ι → Thread τ) : Prop where
  queue : ∃ q, QueueInv m pc q
  tokens : m.hist.taken.map Prod.fst = List.range m.ring.tail_
  noGiveBack : ∀ i, ¬ (pc i).pc.producer.isGiveBack
  heap_le : m.heap_ ≤ m.max_size_
  max_size_lt : m.max_size_ < sizeMod
  writers : Writers m pc
  custody : Custody (fun i => (pc i).own) m.waiting (· < m.heap_)
  erased : ∀ k ∈ m.erased, k < m.heap_

theorem init_inv {max_size : Nat} (hpos : 0 < max_size) (hmax : max_size < sizeMod) :
    Inv (init ι τ max_size).shared (init ι τ max_size).pc where
  queue := ⟨_, RingQueue.init_inv hpos, ⟨rfl, rfl, rfl, fun _ => rfl, fun _ _ => id⟩, rfl,
    .inl ⟨rfl, fun _ => rfl⟩⟩
  tokens := rfl
  noGiveBack := fun _ => id
  heap_le := Nat.zero_le _
  max_size_lt := hmax
  writers := nofun
  custody := Custody.empty.congr fun _ => iff_of_false (Nat.not_lt_zero _) id
  erased := nofun

namespace Inv

variable {m : Shared τ} {pc : ι → Thread τ} {i : ι}

/-- A token's place in the list of those taken is its number. -/
theorem taken_getElem? (h : Inv m pc) {k v : Nat} (hk : (k, v) ∈ m.hist.taken) :
    m.hist.taken[k]? = some (k, v) := by
  obtain ⟨n, hn⟩ := List.getElem?_of_mem hk
  have hlt := (List.getElem?_eq_some_iff.mp hn).1
  have hlen : m.hist.taken.length = m.ring.tail_ := by
    rw [← List.length_map Prod.fst, h.tokens, List.length_range]
  have hfst : (m.hist.taken.map Prod.fst)[n]? = some k := by rw [List.getElem?_map, hn]; rfl
  rw [h.tokens, List.getElem?_range (hlen ▸ hlt)] at hfst
  cases hfst
  exact hn

theorem waiting_cons (h : Inv m pc) {v : Nat} (hv : (m.ring.head_, v) ∈ m.hist.taken) :
    m.waiting = v :: (m.hist.taken.drop (m.ring.head_ + 1)).map Prod.snd := by
  obtain ⟨hlt, hget⟩ := List.getElem?_eq_some_iff.mp (h.taken_getElem? hv)
  rw [Shared.waiting, List.drop_eq_getElem_cons hlt, List.map_cons, hget]

theorem key_lt (h : Inv m pc) {k : Nat} (hk : k ∈ (pc i).own) : k < m.heap_ :=
  (h.custody.covered k).mpr (.inr ⟨i, hk⟩)

/-- A key that waits is where its token is. -/
theorem waiting_kept (h : Inv m pc) {k : Nat} (hk : k ∈ m.waiting) :
    (∃ i, (pc i).pc.Carries k) ∨ m.InRing k := by
  obtain ⟨q, hq⟩ := h.queue
  obtain ⟨⟨token, v⟩, htoken, rfl⟩ := List.mem_map.mp hk
  obtain ⟨n, hn⟩ := List.getElem?_of_mem htoken
  rw [List.getElem?_drop] at hn
  have hmem : (token, v) ∈ m.hist.taken := List.mem_of_getElem? hn
  have hlt : m.ring.head_ + n < m.ring.tail_ := by
    rw [← List.length_range (n := m.ring.tail_), ← h.tokens, List.length_map]
    exact (List.getElem?_eq_some_iff.mp hn).1
  have hfst : (m.hist.taken.map Prod.fst)[m.ring.head_ + n]? = some token := by
    rw [List.getElem?_map, hn]
    rfl
  rw [h.tokens, List.getElem?_range hlt] at hfst
  cases hfst
  have hin := hq.inv.inQueue (hq.hist ▸ hmem) (hq.ring.head_ ▸ Nat.le_add_right _ _)
  rcases hin with ⟨i, hi⟩ | hslot | hcons
  · refine .inl ⟨i, ?_⟩
    cases hpc : (pc i).pc with
    | erasing p =>
      simp only [hpc, Pc.producer] at hi
      rcases hi with rfl | rfl <;> rfl
    | _ =>
      simp only [hpc, Pc.producer] at hi
      rcases hi with hi | hi <;> cases hi
  · refine .inr ⟨_, Nat.le_add_right _ _, hmem, ?_⟩
    rw [← hq.ring.depth]
    exact hq.ring.second _ _ hslot
  · refine .inl ?_
    rcases hq.consuming with ⟨hidle, -⟩ | ⟨i, hi, -⟩
    · rw [hidle] at hcons
      rcases hcons with hcons | hcons <;> cases hcons
    · refine ⟨i, ?_⟩
      obtain ⟨v, hpc⟩ := Pc.takes_eq hi
      rw [hpc]
      rcases hcons with hcons | hcons <;> rw [hcons] <;> rfl

theorem sound (h : Inv m pc) : Sound (⟨m, pc⟩ : State ι τ) where
  distinct := fun i j k hi hj =>
    h.custody.apart i j k (List.mem_append_left _ hi) (List.mem_append_left _ hj)
  nodup := fun i => (List.nodup_append.mp (h.custody.nodup i)).1
  below := fun _ _ hk => Nat.lt_of_lt_of_le (h.key_lt (List.mem_append_left _ hk)) h.heap_le
  kept := fun k hk => by
    rcases (h.custody.covered k).mp (h.erased k hk) with hw | ⟨i, hi⟩
    · exact .inr (h.waiting_kept hw)
    · rcases List.mem_append.mp hi with hi | hi
      · exact .inl ⟨i, hi⟩
      · exact .inr (.inl ⟨i, Pc.carries_transit hi⟩)

end Inv

variable [DecidableEq ι]

theorem Writers.update {m m' : Shared τ} {pc : ι → Thread τ} {i : ι} {t : Thread τ}
    (h : Writers m pc) (hheap : m'.heap_ = m.heap_) (hmax : m'.max_size_ = m.max_size_)
    (ht : t.pc.writesHeap = false) : Writers m' (Function.update pc i t) := by
  intro j key v hj
  by_cases hji : j = i
  · subst hji
    rw [Function.update_self] at hj
    rw [hj] at ht
    cases ht
  · rw [Function.update_of_ne hji] at hj
    obtain ⟨hk, hlt, hother⟩ := h j key v hj
    rw [hheap, hmax]
    refine ⟨hk, hlt, fun l hl => ?_⟩
    by_cases hli : l = i
    · subst hli
      rw [Function.update_self]
      exact ht
    · rw [Function.update_of_ne hli]
      exact hother l hl

theorem own_update (pc : ι → Thread τ) (i : ι) (t : Thread τ) :
    (fun j => (Function.update pc i t j).own) = Function.update (fun j => (pc j).own) i t.own := by
  funext j
  exact Function.apply_update (fun _ t => Thread.own t) pc i t j

theorem noGiveBack_update {pc : ι → Thread τ} {i : ι} {t : Thread τ}
    (h : ∀ j, ¬ (pc j).pc.producer.isGiveBack) (ht : ¬ t.pc.producer.isGiveBack) :
    ∀ j, ¬ (Function.update pc i t j).pc.producer.isGiveBack := by
  intro j
  by_cases hji : j = i
  · subst hji
    rw [Function.update_self]
    exact ht
  · rw [Function.update_of_ne hji]
    exact h j

namespace Inv

variable {m m' : Shared τ} {pc : ι → Thread τ} {i : ι} {t : Thread τ}

/-- A step that moves no key. -/
theorem keep (h : Inv m pc) (hq : ∃ q, QueueInv m' (Function.update pc i t) q)
    (htaken : m'.hist.taken = m.hist.taken) (hhead : m'.ring.head_ = m.ring.head_)
    (htail : m'.ring.tail_ = m.ring.tail_) (hheap : m'.heap_ = m.heap_)
    (hmax : m'.max_size_ = m.max_size_) (her : m'.erased = m.erased)
    (hgb : ¬ t.pc.producer.isGiveBack) (hw : t.pc.writesHeap = false) (hown : t.own = (pc i).own) :
    Inv m' (Function.update pc i t) := by
  refine ⟨hq, by rw [htaken, htail]; exact h.tokens, noGiveBack_update h.noGiveBack hgb,
    by rw [hheap, hmax]; exact h.heap_le, by rw [hmax]; exact h.max_size_lt,
    h.writers.update hheap hmax hw, ?_, by rw [her, hheap]; exact h.erased⟩
  rw [own_update, hown, Function.update_eq_self i (fun j => (pc j).own), Shared.waiting, htaken,
    hhead, hheap]
  exact h.custody

/-- A step that moves no key and leaves the ring as it is. -/
theorem frame (h : Inv m pc) (hr : m'.ring = m.ring) (hh : m'.hist = m.hist)
    (hheap : m'.heap_ = m.heap_) (hmax : m'.max_size_ = m.max_size_) (her : m'.erased = m.erased)
    (hp : t.pc.producer = (pc i).pc.producer) (ht : t.pc.takes = (pc i).pc.takes)
    (hw : t.pc.writesHeap = false) (hown : t.own = (pc i).own) :
    Inv m' (Function.update pc i t) := by
  obtain ⟨q, hq⟩ := h.queue
  exact h.keep ⟨q, hq.frame hr hh hp ht⟩ (by rw [hh]) (by rw [hr]) (by rw [hr]) hheap hmax her
    (hp ▸ h.noGiveBack i) hw hown

/-- `erase(key)` is called. -/
theorem erase (h : Inv m pc) {key : Nat} (hpc : (pc i).pc = .idle) (hkey : key ∈ (pc i).held) :
    Inv { m with erased := m.erased ++ [key] } (Function.update pc i
      { pc := .erasing (.claim m.ring.head_ key), held := (pc i).held.erase key }) := by
  obtain ⟨q, hq⟩ := h.queue
  have hidle : (pc i).own = (pc i).held := by rw [Thread.own, hpc]; exact List.append_nil _
  have hown : ((pc i).held.erase key ++ [key]).Perm (pc i).own := by
    rw [hidle]
    exact (List.perm_append_singleton _ _).trans (List.perm_cons_erase hkey).symm
  refine ⟨?_, h.tokens, noGiveBack_update h.noGiveBack id, h.heap_le, h.max_size_lt,
    h.writers.update rfl rfl rfl, ?_, fun k hk => ?_⟩
  · refine hq.produce (n := m.queue) (d := .claim m.ring.head_ key) (a := .emplace key) ?_ ?_
      (h.noGiveBack i) rfl rfl rfl (by rw [hpc]; rfl)
    · rw [hpc]
      rfl
    · intro head v hp
      rw [hpc] at hp
      cases hp
  · rw [own_update]
    exact h.custody.rearrange hown
  · rcases List.mem_append.mp hk with hk | hk
    · exact h.erased k hk
    · rw [List.mem_singleton.mp hk]
      exact h.key_lt (hidle ▸ hkey)

/-- A thread finds the slot at `head_` ready. -/
theorem find {v : τ} (h : Inv m pc) (hpc : (pc i).pc = .popping (.test m.ring.head_) v)
    (hany : m.ring.any (m.ring.popIdx m.ring.head_) 1 = true)
    (hnone : ∀ j, (pc j).pc.takes.isNone) :
    Inv m (Function.update pc i { pc i with pc := .popping (.moveOut m.ring.head_) v }) := by
  obtain ⟨q, hq⟩ := h.queue
  have hq' := hq.find (t := { pc i with pc := .popping (.moveOut m.ring.head_) v })
    (fun j => Option.isNone_iff_eq_none.mp (hnone j)) hany (by rw [hpc]; rfl) rfl
  exact h.keep ⟨_, hq'⟩ rfl rfl rfl rfl rfl rfl id rfl (by rw [Thread.own, Thread.own, hpc]; rfl)

/-- The taking thread reads the key. -/
theorem copy {head : Nat} {v : τ} (h : Inv m pc) (hpc : (pc i).pc = .popping (.moveOut head) v) :
    Inv m (Function.update pc i { pc i with
      pc := .popping (.clear head (m.ring.queue_ (m.ring.popIdx head)).second) v }) := by
  obtain ⟨q, hq⟩ := h.queue
  have htakes : (pc i).pc.takes = some (.moveOut head) := by rw [hpc]; rfl
  have hc := (hq.consuming.eq htakes).1
  obtain ⟨rfl, u, hu, hslot⟩ := hq.slot_at_head hc
  have hidx : q.ring.popIdx m.ring.head_ = m.ring.popIdx m.ring.head_ := by
    rw [Ring.popIdx, Ring.popIdx, hq.ring.depth]
  rw [hidx] at hslot
  have hsecond : (m.ring.queue_ (m.ring.popIdx m.ring.head_)).second = some u :=
    hq.ring.second _ _ (by rw [hslot])
  have hcons : RingQueue.consume q = { q with
      ring := q.ring.write (m.ring.popIdx m.ring.head_) ⟨1, none⟩
      consumer := .clear m.ring.head_ (some u) } := by
    simp only [RingQueue.consume, hc, Ring.moveOut, hidx, hslot]
  have hmirror : Mirrors m.ring (RingQueue.consume q).ring := by
    have hself : m.ring.write (m.ring.popIdx m.ring.head_)
        (m.ring.queue_ (m.ring.popIdx m.ring.head_)) = m.ring := by
      rw [Ring.write, Function.update_eq_self]
    rw [hcons, ← hself]
    refine hq.ring.write ?_ (by simp)
    rw [← hq.ring.first, hslot]
  have hq' := hq.consume (i := i) (u := m) (t := { pc i with
    pc := .popping (.clear m.ring.head_ (m.ring.queue_ (m.ring.popIdx m.ring.head_)).second) v })
    (by rw [hc]; exact htakes) hmirror (by rw [hcons]; exact hq.hist) (by rw [hpc]; rfl) rfl
    (.inl (by rw [hcons, hsecond]; rfl))
  exact h.keep ⟨_, hq'⟩ rfl rfl rfl rfl rfl rfl id rfl (by rw [Thread.own, Thread.own, hpc]; rfl)

/-- The taking thread clears the slot. -/
theorem clear {head : Nat} {key : Option Nat} {v : τ} (h : Inv m pc)
    (hpc : (pc i).pc = .popping (.clear head key) v) :
    Inv { m with ring := m.ring.clear (m.ring.popIdx head) }
      (Function.update pc i { pc i with pc := .popping (.advance head key) v }) := by
  obtain ⟨q, hq⟩ := h.queue
  have htakes : (pc i).pc.takes = some (.clear head key) := by rw [hpc]; rfl
  have hc := (hq.consuming.eq htakes).1
  have hidx : q.ring.popIdx head = m.ring.popIdx head := by
    rw [Ring.popIdx, Ring.popIdx, hq.ring.depth]
  have hcons : RingQueue.consume q = { q with
      ring := q.ring.clear (m.ring.popIdx head)
      consumer := .advance head key } := by
    simp only [RingQueue.consume, hc, hidx]
  have hq' := hq.consume (i := i) (u := { m with ring := m.ring.clear (m.ring.popIdx head) })
    (t := { pc i with pc := .popping (.advance head key) v })
    (by rw [hc]; exact htakes) (by rw [hcons]; exact hq.ring.write rfl (hq.ring.second _))
    (by rw [hcons]; exact hq.hist) (by rw [hpc]; rfl) rfl (.inl (by rw [hcons]; rfl))
  exact h.keep ⟨_, hq'⟩ rfl rfl rfl rfl rfl rfl id rfl (by rw [Thread.own, Thread.own, hpc]; rfl)

/-- The taking thread moves `head_` and has the key. -/
theorem advance {head key : Nat} {v : τ} (h : Inv m pc)
    (hpc : (pc i).pc = .popping (.advance head (some key)) v) :
    Inv { m with
      ring := { m.ring with head_ := wordAdd sizeMod m.ring.head_ 1 }
      hist := { m.hist with popped := m.hist.popped ++ [(head, some key)] } }
      (Function.update pc i ⟨.store key v, (pc i).held ++ [key]⟩) := by
  obtain ⟨q, hq⟩ := h.queue
  have htakes : (pc i).pc.takes = some (.advance head (some key)) := by rw [hpc]; rfl
  have hc := (hq.consuming.eq htakes).1
  have hsh : SharedInv q := hq.inv.holds.shared
  have hhold := hsh.consumer
  rw [hc] at hhold
  obtain ⟨u, hu, hmem⟩ := Holding.value hhold
  cases hu
  obtain rfl : head = m.ring.head_ := (Holding.token hhold).trans hq.ring.head_
  rw [← hq.hist] at hmem
  have hlt : m.ring.head_ + 1 < sizeMod := by
    have := Holding.lt hsh hhold
    have := hsh.tail_lt
    omega
  have hcons : RingQueue.consume q = { q with
      ring := { q.ring with head_ := wordAdd sizeMod m.ring.head_ 1 }
      consumer := .idle
      hist := { q.hist with popped := q.hist.popped ++ [(m.ring.head_, some key)] } } := by
    simp only [RingQueue.consume, hc, hq.ring.head_]
  have hq' := hq.consume (i := i) (u := { m with
      ring := { m.ring with head_ := wordAdd sizeMod m.ring.head_ 1 }
      hist := { m.hist with popped := m.hist.popped ++ [(m.ring.head_, some key)] } })
    (t := ⟨.store key v, (pc i).held ++ [key]⟩)
    (by rw [hc]; exact htakes) (by rw [hcons]; exact hq.ring.setHead _)
    (by rw [hcons]; simp only [hq.hist]) (by rw [hpc]; rfl) rfl (.inr ⟨rfl, by rw [hcons]⟩)
  refine ⟨⟨_, hq'⟩, h.tokens, noGiveBack_update h.noGiveBack id, h.heap_le, h.max_size_lt,
    h.writers.update rfl rfl rfl, ?_, h.erased⟩
  have hcust := h.custody
  rw [h.waiting_cons hmem] at hcust
  have hown : (pc i).own = (pc i).held := by rw [Thread.own, hpc]; exact List.append_nil _
  rw [own_update, Shared.waiting, wordAdd_of_lt hlt]
  refine hcust.withdraw ?_
  rw [hown]
  refine List.Perm.trans ?_ (List.perm_append_singleton _ _)
  exact .of_eq (List.append_nil _)

/-- `heap_` is read by the only thread that will write it. -/
theorem readHeap {v : τ} (h : Inv m pc) (hpc : (pc i).pc = .readHeap v)
    (hlt : m.heap_ < m.max_size_) (hnone : ∀ j, (pc j).pc.writesHeap = false) :
    Inv m (Function.update pc i { pc i with pc := .writeHeap m.heap_ v }) := by
  obtain ⟨q, hq⟩ := h.queue
  have hown : (⟨.writeHeap m.heap_ v, (pc i).held⟩ : Thread τ).own = (pc i).own := by
    rw [Thread.own, Thread.own, hpc]
    rfl
  refine ⟨⟨q, hq.frame rfl rfl (by rw [hpc]; rfl) (by rw [hpc]; rfl)⟩, h.tokens,
    noGiveBack_update h.noGiveBack id, h.heap_le, h.max_size_lt, fun j key w hj => ?_, ?_, h.erased⟩
  · by_cases hji : j = i
    · subst hji
      rw [Function.update_self] at hj
      cases hj
      refine ⟨rfl, hlt, fun k hk => ?_⟩
      rw [Function.update_of_ne hk]
      exact hnone k
    · rw [Function.update_of_ne hji] at hj
      have := hnone j
      rw [hj] at this
      cases this
  · rw [own_update, hown, Function.update_eq_self i (fun j => (pc j).own)]
    exact h.custody

/-- The key that `heap_` gives is new. -/
theorem writeHeap {key : Nat} {v : τ} (h : Inv m pc) (hpc : (pc i).pc = .writeHeap key v) :
    Inv { m with heap_ := wordAdd sizeMod key 1 }
      (Function.update pc i ⟨.store key v, (pc i).held ++ [key]⟩) := by
  obtain ⟨q, hq⟩ := h.queue
  obtain ⟨rfl, hlt, hother⟩ := h.writers i key v hpc
  have hmax := h.max_size_lt
  rw [wordAdd_of_lt (by omega)]
  have hown : (pc i).own = (pc i).held := by rw [Thread.own, hpc]; exact List.append_nil _
  refine ⟨⟨q, hq.frame rfl rfl (by rw [hpc]; rfl) (by rw [hpc]; rfl)⟩, h.tokens,
    noGiveBack_update h.noGiveBack id, hlt, hmax, fun j key w hj => ?_, ?_,
    fun k hk => Nat.lt_succ_of_lt (h.erased k hk)⟩
  · by_cases hji : j = i
    · subst hji
      rw [Function.update_self] at hj
      cases hj
    · rw [Function.update_of_ne hji] at hj
      have := hother j hji
      rw [hj] at this
      cases this
  · rw [own_update]
    refine (h.custody.mint (Nat.lt_irrefl _) ?_).congr fun k => ?_
    · rw [hown]
      exact (List.Perm.of_eq (List.append_nil _)).trans (List.perm_append_singleton _ _)
    · exact Nat.lt_succ_iff_lt_or_eq.trans or_comm

/-- `erase` gets its token: the key is in the ring. -/
theorem claim {head key : Nat} (h : Inv m pc) (hpc : (pc i).pc = .erasing (.claim head key))
    (hroom : Ring.spaceFor m.ring.tail_ head ≤ m.ring.depth) (hw : m.ring.tail_ + 1 < sizeMod)
    (hidx : m.ring.tail_ % m.ring.depth < idxMod) :
    Inv { m with
      ring := { m.ring with tail_ := wordAdd sizeMod m.ring.tail_ 1 }
      hist := { m.hist with taken := m.hist.taken ++ [(m.ring.tail_, key)] } }
      (Function.update pc i { pc i with pc := .erasing (.replace m.ring.tail_ key) }) := by
  obtain ⟨q, hq⟩ := h.queue
  have hafter : afterClaim fixedMpmcFlags m.ring.depth head m.ring.tail_ key =
      .replace m.ring.tail_ key := by
    rw [afterClaim, if_neg (by decide), if_pos (by decide), if_neg (Nat.not_lt.mpr hroom)]
  have hn : RingQueue.produce fixedMpmcFlags m.queue (pc i).pc.producer .access = some
      ({ m.queue with
        ring := { m.ring with tail_ := wordAdd sizeMod m.ring.tail_ 1 }
        hist := { m.hist with taken := m.hist.taken ++ [(m.ring.tail_, key)] } },
        .replace m.ring.tail_ key) := by
    rw [hpc]
    show some _ = some _
    simp only [Shared.queue, hafter]
    rfl
  have hlen : m.hist.taken.length = m.ring.tail_ := by
    rw [← List.length_map Prod.fst, h.tokens, List.length_range]
  have hle : m.ring.head_ ≤ m.hist.taken.length := by
    rw [hlen, ← hq.ring.head_, ← hq.ring.tail_]
    exact SharedInv.head_le_tail hq.inv.holds.shared
  refine ⟨hq.produce hn (fun _ _ _ => ⟨hw, hidx⟩) (h.noGiveBack i) rfl rfl rfl (by rw [hpc]; rfl),
    ?_, noGiveBack_update h.noGiveBack id, h.heap_le, h.max_size_lt, h.writers.update rfl rfl rfl,
    ?_, h.erased⟩
  · rw [wordAdd_of_lt hw, List.map_append, h.tokens, List.range_succ]
    rfl
  · rw [own_update, Shared.waiting, List.drop_append_of_le_length hle, List.map_append]
    refine h.custody.deposit ?_
    rw [Thread.own, Thread.own, hpc]
    refine (List.perm_append_singleton _ _).trans (.cons _ ?_)
    exact .of_eq (List.append_nil _).symm

/-- A step of `erase` in the ring with its token. -/
theorem produce {p p' : Producer Nat} {n : RingQueue.Shared Nat} (h : Inv m pc)
    (hpc : (pc i).pc = .erasing p) (hclaim : ∀ head v, p ≠ .claim head v)
    (hn : RingQueue.produce fixedMpmcFlags m.queue p .access = some (n, p'))
    (ht : t.pc.producer = p') (htakes : t.pc.takes = none) (hheld : t.own = (pc i).held)
    (hw : t.pc.writesHeap = false) :
    Inv { m with ring := n.ring, hist := n.hist } (Function.update pc i t) := by
  obtain ⟨q, hq⟩ := h.queue
  have hp : (pc i).pc.producer = p := by rw [hpc]; rfl
  have hgb : ¬ p.isGiveBack := hp ▸ h.noGiveBack i
  obtain ⟨htaken, hhead, htail, hgb', -⟩ := produce_keeps hclaim hgb hn
  have hq' := hq.produce (u := { m with ring := n.ring, hist := n.hist }) (t := t)
    (by rw [hp]; exact hn) (fun head v he => absurd (hp.symm.trans he) (hclaim head v))
    (h.noGiveBack i) rfl rfl ht (by rw [htakes, hpc]; rfl)
  have hown : (pc i).own = (pc i).held := by
    rw [Thread.own, hpc]
    cases p with
    | claim head v => exact absurd rfl (hclaim head v)
    | idle | awaitSpace _ _ | giveBack _ _ | replace _ _ | mark _ => exact List.append_nil _
  exact h.keep hq' htaken hhead htail rfl rfl rfl (ht ▸ hgb') hw (hheld.trans hown.symm)

/-- A step of thread `i` to `p` that neither the ring nor `heap_` sees. -/
theorem move {p p' : Pc τ} (h : Inv m pc) (hpc : (pc i).pc = p) (set_ : Nat → Option τ)
    (hp : p'.producer = p.producer) (ht : p'.takes = p.takes) (hw : p'.writesHeap = false)
    (htr : p'.transit = p.transit) :
    Inv { m with set_ } (Function.update pc i { pc i with pc := p' }) := by
  subst hpc
  exact h.frame rfl rfl rfl rfl rfl hp ht hw (congrArg ((pc i).held ++ ·) htr)

/-- A step of a thread in the ring's `pop`. -/
theorem popStep {c : Consumer Nat} {v : τ} (h : Inv m pc) (hpc : (pc i).pc = .popping c v)
    (hg : Guarded ⟨m, pc⟩ (i, .access)) (ha : MpmcKeySet.advance m (pc i) .access = some (m', t)) :
    Inv m' (Function.update pc i t) := by
  simp only [MpmcKeySet.advance, hpc] at ha
  cases c with
  | idle =>
    cases ha
    exact h.move hpc _ rfl rfl rfl rfl
  | loadTail head =>
    simp only [popAccess] at ha
    by_cases htail : m.ring.tail_ ≤ head
    · simp only [if_pos htail] at ha
      cases ha
      exact h.move hpc _ rfl rfl rfl rfl
    · simp only [if_neg htail] at ha
      cases ha
      exact h.move hpc _ rfl rfl rfl rfl
  | test head =>
    simp only [Guarded, hpc] at hg
    simp only [popAccess] at ha
    by_cases hany : m.ring.any (m.ring.popIdx head) 1 = true
    · obtain ⟨rfl, hnone⟩ := hg hany
      simp only [if_pos hany] at ha
      cases ha
      exact h.find hpc hany hnone
    · simp only [if_neg hany] at ha
      cases ha
      exact h.move hpc _ rfl rfl rfl rfl
  | moveOut head =>
    cases ha
    exact h.copy hpc
  | clear head key =>
    cases ha
    exact h.clear hpc
  | advance head key =>
    cases key with
    | none => cases ha
    | some key =>
      cases ha
      exact h.advance hpc

/-- A step of a thread in the ring's `emplace`. -/
theorem eraseStep {p : Producer Nat} (h : Inv m pc) (hpc : (pc i).pc = .erasing p)
    (hg : Guarded ⟨m, pc⟩ (i, .access)) (ha : MpmcKeySet.advance m (pc i) .access = some (m', t)) :
    Inv m' (Function.update pc i t) := by
  simp only [MpmcKeySet.advance, hpc] at ha
  obtain ⟨⟨n, p'⟩, hn, he⟩ := Option.map_eq_some_iff.mp ha
  cases he
  by_cases hclaim : ∃ head key, p = .claim head key
  · obtain ⟨head, key, rfl⟩ := hclaim
    simp only [Guarded, hpc] at hg
    obtain ⟨hroom, hw, hidx⟩ := hg
    have hafter : afterClaim fixedMpmcFlags m.ring.depth head m.ring.tail_ key =
        .replace m.ring.tail_ key := by
      rw [afterClaim, if_neg (by decide), if_pos (by decide), if_neg (Nat.not_lt.mpr hroom)]
    simp only [RingQueue.produce, Shared.queue, hafter] at hn
    cases hn
    exact h.claim hpc hroom hw hidx
  · have hclaim : ∀ head key, p ≠ .claim head key := fun head key he => hclaim ⟨head, key, he⟩
    have hgb : ¬ p.isGiveBack := by
      have := h.noGiveBack i
      rw [hpc] at this
      exact this
    obtain ⟨-, -, -, -, hnext⟩ := produce_keeps hclaim hgb hn
    refine h.produce hpc hclaim hn ?_ ?_ ?_ ?_
    · cases p' <;> rfl
    · cases p' <;> rfl
    · cases p' with
      | claim head key => exact absurd rfl (hnext head key)
      | idle | awaitSpace _ _ | giveBack _ _ | replace _ _ | mark _ => exact List.append_nil _
    · cases p' <;> rfl

theorem advance_inv {a : Act τ} (h : Inv m pc) (hg : Guarded ⟨m, pc⟩ (i, a))
    (ha : MpmcKeySet.advance m (pc i) a = some (m', t)) : Inv m' (Function.update pc i t) := by
  cases a with
  | emplace v =>
    cases hpc : (pc i).pc with
    | idle =>
      simp only [MpmcKeySet.advance, hpc] at ha
      cases ha
      exact h.move hpc _ rfl rfl rfl rfl
    | _ =>
      simp only [MpmcKeySet.advance, hpc] at ha
      cases ha
  | erase key =>
    cases hpc : (pc i).pc with
    | idle =>
      simp only [MpmcKeySet.advance, hpc] at ha
      by_cases hkey : key ∈ (pc i).held
      · rw [if_pos hkey] at ha
        cases ha
        exact h.erase hpc hkey
      · rw [if_neg hkey] at ha
        cases ha
    | _ =>
      simp only [MpmcKeySet.advance, hpc] at ha
      cases ha
  | access =>
    cases hpc : (pc i).pc with
    | idle =>
      simp only [MpmcKeySet.advance, hpc] at ha
      cases ha
    | popping c v => exact h.popStep hpc hg ha
    | checkHeap v =>
      simp only [MpmcKeySet.advance, hpc] at ha
      by_cases hlt : m.heap_ < m.max_size_
      · simp only [if_pos hlt] at ha
        cases ha
        exact h.move hpc _ rfl rfl rfl rfl
      · simp only [if_neg hlt] at ha
        cases ha
        exact h.move hpc _ rfl rfl rfl rfl
    | readHeap v =>
      simp only [Guarded, hpc] at hg
      simp only [MpmcKeySet.advance, hpc] at ha
      cases ha
      exact h.readHeap hpc hg.1 hg.2
    | writeHeap key v =>
      simp only [MpmcKeySet.advance, hpc] at ha
      cases ha
      exact h.writeHeap hpc
    | store key v =>
      simp only [MpmcKeySet.advance, hpc] at ha
      cases ha
      exact h.move hpc _ rfl rfl rfl rfl
    | erasing p => exact h.eraseStep hpc hg ha

end Inv

theorem step_inv {s s' : State ι τ} {l : ι × Act τ} (h : Inv s.shared s.pc) (hg : Guarded s l)
    (hs : step s l = some s') : Inv s'.shared s'.pc := by
  obtain ⟨m, t, ha, rfl⟩ := Pool.step_cases hs
  exact h.advance_inv hg ha

/-! ## A set of no keys -/

/-- The thread is in `emplace` and has found no key. -/
def Pc.Searches : Pc τ → Prop
  | .idle | .popping .idle _ | .popping (.loadTail _) _ | .checkHeap _ => True
  | _ => False

/-- There is no key, and no thread has found one. -/
structure Starved (m : Shared τ) (pc : ι → Thread τ) : Prop where
  max_size_ : m.max_size_ = 0
  tail_ : m.ring.tail_ = 0
  erased : m.erased = []
  held : ∀ i, (pc i).held = []
  searching : ∀ i, (pc i).pc.Searches

omit [DecidableEq ι] in
theorem Starved.sound {m : Shared τ} {pc : ι → Thread τ} (h : Starved m pc) :
    Sound (⟨m, pc⟩ : State ι τ) where
  distinct := fun i j k hi => by
    rw [h.held i] at hi
    cases hi
  nodup := fun i => by
    rw [h.held i]
    exact List.nodup_nil
  below := fun i k hk => by
    rw [h.held i] at hk
    cases hk
  kept := fun k hk => by
    rw [h.erased] at hk
    cases hk

theorem Starved.move {m : Shared τ} {pc : ι → Thread τ} {i : ι} {p : Pc τ} (h : Starved m pc)
    (hp : p.Searches) : Starved m (Function.update pc i { pc i with pc := p }) := by
  refine { h with held := fun j => ?_, searching := fun j => ?_ }
  · by_cases hj : j = i
    · subst hj
      rw [Function.update_self]
      exact h.held j
    · rw [Function.update_of_ne hj]
      exact h.held j
  · by_cases hj : j = i
    · subst hj
      rw [Function.update_self]
      exact hp
    · rw [Function.update_of_ne hj]
      exact h.searching j

theorem Starved.step {s s' : State ι τ} {l : ι × Act τ} (h : Starved s.shared s.pc)
    (hs : step s l = some s') : Starved s'.shared s'.pc := by
  obtain ⟨m, t, ha, rfl⟩ := Pool.step_cases hs
  obtain ⟨i, a⟩ := l
  have hsearch := h.searching i
  cases hpc : (s.pc i).pc with
  | idle =>
    cases a with
    | emplace v =>
      simp only [advance, hpc] at ha
      cases ha
      exact h.move trivial
    | erase key =>
      simp only [advance, hpc, h.held i, List.not_mem_nil, if_false] at ha
      cases ha
    | access =>
      simp only [advance, hpc] at ha
      cases ha
  | popping c v =>
    rw [hpc] at hsearch
    cases a with
    | emplace _ | erase _ =>
      simp only [advance, hpc] at ha
      cases ha
    | access =>
      simp only [advance, hpc] at ha
      cases c with
      | idle =>
        cases ha
        exact h.move trivial
      | loadTail head =>
        simp only [popAccess, h.tail_, Nat.zero_le, if_true] at ha
        cases ha
        exact h.move trivial
      | test _ | moveOut _ | clear _ _ | advance _ _ => exact hsearch.elim
  | checkHeap v =>
    cases a with
    | emplace _ | erase _ =>
      simp only [advance, hpc] at ha
      cases ha
    | access =>
      simp only [advance, hpc, h.max_size_, Nat.not_lt_zero, if_false] at ha
      cases ha
      exact h.move trivial
  | readHeap _ | writeHeap _ _ | store _ _ | erasing _ =>
    rw [hpc] at hsearch
    exact hsearch.elim

/-! ## Runs -/

/-- **The keys are sound while the threads take turns.** One thread at a time takes
a key from the ring, out of the slot at `head_`, or from `heap_`, and the ring has
room for the keys given back: in every run no key is held twice, each is below
`max_size_`, and none is lost. -/
theorem turns_sound {max_size : Nat} {ls : List (ι × Act τ)} {s : State ι τ}
    (hmax : max_size < sizeMod) (hr : Run step Guarded (init ι τ max_size) ls s) : Sound s := by
  rcases Nat.eq_zero_or_pos max_size with rfl | hpos
  · have h0 : Starved (init ι τ 0).shared (init ι τ 0).pc :=
      ⟨rfl, rfl, rfl, fun _ => rfl, fun _ => trivial⟩
    exact (hr.invariant (I := fun s : State ι τ => Starved s.shared s.pc) h0
      fun _ _ _ h _ hs => h.step hs).sound
  · exact (hr.invariant (I := fun s : State ι τ => Inv s.shared s.pc) (init_inv hpos hmax)
      fun _ _ _ h hg hs => step_inv h hg hs).sound

private def emplaceBy (i : ι) (v : τ) (n : Nat) : List (ι × Act τ) :=
  (i, .emplace v) :: List.replicate n (i, .access)

private def eraseBy (i : ι) (key : Nat) : List (ι × Act τ) :=
  (i, .erase key) :: List.replicate 3 (i, .access)

/-- Thread 1 gets the key that thread 0 gave back. -/
theorem turns_sound_recycled : ∃ s : State (Fin 2) Nat,
    (s.pc 0).held = [1] ∧ (s.pc 1).held = [0] ∧ Sound s := by
  let ls : List (Fin 2 × Act Nat) :=
    emplaceBy 0 10 6 ++ emplaceBy 0 20 6 ++ eraseBy 0 0 ++ emplaceBy 1 30 7
  have hs : (execOk step Guarded (init (Fin 2) Nat 2) ls).map
      (fun s => ((s.pc 0).held, (s.pc 1).held)) = some ([1], [0]) := by decide +kernel
  obtain ⟨s, hs, hv⟩ := Option.map_eq_some_iff.mp hs
  obtain ⟨h0, h1⟩ := Prod.mk.inj hv
  exact ⟨s, h0, h1, turns_sound (by decide) (run_of_execOk hs)⟩

/-- **Two threads get one key.** Both read `heap_` before either writes it. -/
theorem heap_race_duplicates : ¬ ∀ (max_size : Nat) (ls : List (Fin 2 × Act Nat))
    (s : State (Fin 2) Nat), max_size < sizeMod →
    Run step Unrestricted (init (Fin 2) Nat max_size) ls s → Sound s := by
  intro h
  let ls : List (Fin 2 × Act Nat) :=
    emplaceBy 0 10 4 ++ emplaceBy 1 20 4 ++ [(0, .access), (1, .access)]
  have hs : (exec step (init (Fin 2) Nat 2) ls).map
      (fun s => ((s.pc 0).held, (s.pc 1).held)) = some ([0], [0]) := by decide +kernel
  obtain ⟨s, hs, hv⟩ := Option.map_eq_some_iff.mp hs
  obtain ⟨h0, h1⟩ := Prod.mk.inj hv
  have hsound := h 2 ls s (by decide) (run_iff_exec.mpr hs)
  have := hsound.distinct 0 1 0 (by rw [h0]; exact List.mem_singleton_self _)
    (by rw [h1]; exact List.mem_singleton_self _)
  exact absurd this (by decide)

end HermesShm.Ipc.MpmcKeySet
