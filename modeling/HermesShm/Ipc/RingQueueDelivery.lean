import HermesShm.Ipc.RingQueueInv
import Mathlib.Data.List.Perm.Basic

/-! # What the ring queue delivers

Over every run: pops come in token order, each with the value emplaced under
its token; nothing that waits to be popped is overwritten; and once the
producers are done, a consumer that keeps popping gets everything. A queue that
waits for space delivers in every run. One that gives tokens back does so in the
runs where no given-back token frees a kept one. -/
namespace HermesShm.Ipc.RingQueue
open HermesShm.Base

variable {ι α : Type*}

/-- The value of token `k` is still in the queue: with its producer, in its
slot, or on its way out through the consumer. -/
def InQueue (s : State ι α) (k : Nat) (v : α) : Prop :=
  (∃ i, s.pc i = .awaitSpace k v ∨ s.pc i = .replace k v) ∨ (s.shared.slot k).second = some v ∨
    s.shared.consumer = .clear k (some v) ∨ s.shared.consumer = .advance k (some v)

structure Delivers (s : State ι α) : Prop where
  /-- The `k`-th pop returns token `k` and the value emplaced with it. -/
  popped : ∀ k e, s.shared.hist.popped[k]? = some e →
    ∃ v, e = (k, some v) ∧ (k, v) ∈ s.shared.hist.taken
  /-- A token belongs to one emplace. -/
  unique : (s.shared.hist.taken.map Prod.fst).Nodup
  returned : ∀ k ∈ s.shared.hist.returned, ∃ v, (k, v) ∈ s.shared.hist.taken
  kept : ∀ k v, (k, v) ∈ s.shared.hist.taken → s.shared.hist.popped.length ≤ k → InQueue s k v
  /-- A slot about to be rewritten is empty, and no stored token that is still
  to be popped is read from it. -/
  rewritten : ∀ i tail v, s.pc i = .replace tail v →
    s.shared.ring.queue_ (s.shared.ring.emplaceIdx tail) = {} ∧
    ∀ k ∈ s.shared.hist.stored, s.shared.hist.popped.length ≤ k →
      s.shared.ring.popIdx k ≠ s.shared.ring.emplaceIdx tail
  head_le_tail : s.shared.ring.head_ ≤ s.shared.ring.tail_

theorem Inv.inQueue {flags : RingQueueFlag} {s : State ι α} (h : Inv flags s) {k : Nat} {v : α}
    (hv : (k, v) ∈ s.shared.hist.taken) (hk : s.shared.ring.head_ ≤ k) : InQueue s k v := by
  have hsh : SharedInv s.shared := h.holds.shared
  by_cases hs : k ∈ s.shared.hist.stored
  · by_cases hm : k = s.shared.ring.head_ ∧ s.shared.consumer.moved
    · obtain ⟨rfl, hm⟩ := hm
      have hc := hsh.consumer
      have holds : ∀ {head val first}, Holding s.shared head val first →
          head = s.shared.ring.head_ ∧ val = some v := by
        intro head val first hc
        obtain ⟨w, rfl, hw⟩ := hc.value
        obtain rfl := hc.token
        exact ⟨rfl, congrArg some (hsh.taken_inj hw hv)⟩
      cases hcons : s.shared.consumer with
      | clear head val =>
        rw [hcons] at hc
        obtain ⟨rfl, rfl⟩ := holds hc
        exact .inr (.inr (.inl hcons))
      | advance head val =>
        rw [hcons] at hc
        obtain ⟨rfl, rfl⟩ := holds hc
        exact .inr (.inr (.inr hcons))
      | idle | loadTail _ | test _ | moveOut _ => rw [hcons] at hm; exact hm.elim
    · refine .inr (.inl ?_)
      rw [hsh.full k v hv hs hk fun he hmv => hm ⟨he, hmv⟩]
  · -- not stored, so still with its producer
    rcases h.outstanding _ hv with hr | ⟨i, hi⟩
    · exact absurd (hsh.returned_stored _ hr) hs
    · refine .inl ⟨i, ?_⟩
      have hl : Local flags s.shared (s.pc i) := h.holds.each i
      cases hp : s.pc i with
      | idle | claim _ _ | giveBack _ _ => rw [hp] at hi; cases hi
      | awaitSpace tail w =>
        rw [hp] at hi hl
        cases hi
        exact .inl (by rw [hsh.taken_inj hv hl.1])
      | replace tail w =>
        rw [hp] at hi hl
        cases hi
        exact .inr (by rw [hsh.taken_inj hv hl.1])
      | mark tail =>
        rw [hp] at hi hl
        cases hi
        exact absurd hl.1 hs

theorem Inv.delivers {flags : RingQueueFlag} {s : State ι α} (h : Inv flags s) : Delivers s := by
  have hsh : SharedInv s.shared := h.holds.shared
  refine ⟨fun k e he => (hsh.popped k e he).2, hsh.taken_nodup,
    fun k hk => hsh.stored_taken k (hsh.returned_stored k hk),
    fun k v hv hk => h.inQueue hv (hsh.popped_length ▸ hk), fun i tail v hp => ?_,
    hsh.head_le_tail⟩
  have hl : Local flags s.shared (s.pc i) := h.holds.each i
  rw [hp] at hl
  obtain ⟨-, hs, hidx, hroom⟩ := hl
  rw [show s.shared.ring.emplaceIdx tail = tail % s.shared.ring.depth from Nat.mod_eq_of_lt hidx]
  refine ⟨hsh.slot_empty hs hroom, fun k hk hle hmod => hs ?_⟩
  rw [hsh.popped_length] at hle
  have := window_eq hmod hle (hsh.window k hk) (hsh.head_le (hsh.not_returned hs)) hroom
  exact this ▸ hk

/-! ## What a waiting queue asks for -/

/-- No token counter wraps; nothing else is asked of a step. -/
def NoTokenWrap (s : State ι α) : Label ι α → Prop
  | .produce i _ => NoWrap s.shared (s.pc i)
  | .consume => True

/-- A waiting queue of fewer than 2^32 slots asks for nothing but the counters. -/
theorem Inv.guarded {flags : RingQueueFlag} {s : State ι α} (h : Inv flags s)
    (hf : waitForSpace flags = true) (hd : s.shared.ring.depth < idxMod) {l : Label ι α}
    (hw : NoTokenWrap s l) : Guarded s l := by
  cases l with
  | consume => trivial
  | produce i a =>
    have hsh : SharedInv s.shared := h.holds.shared
    have hl : Local flags s.shared (s.pc i) := h.holds.each i
    have hw : NoWrap s.shared (s.pc i) := hw
    refine ⟨hw, ?_, ?_⟩
    · cases s.pc i with
      | claim _ _ => exact Nat.lt_trans (Nat.mod_lt _ hsh.depth_pos) hd
      | idle | awaitSpace _ _ | giveBack _ _ | replace _ _ | mark _ => trivial
    · cases hp : s.pc i with
      | giveBack _ _ =>
        rw [hp] at hl
        rw [show waitForSpace flags = false from hl] at hf
        cases hf
      | idle | awaitSpace _ _ | claim _ _ | replace _ _ | mark _ => trivial

/-! ## A consumer that keeps popping -/

/-- What the consumer still has to do, in steps. -/
def Consumer.rank : Consumer α → Nat
  | .idle => 5
  | .loadTail _ => 4
  | .test _ => 3
  | .moveOut _ => 2
  | .clear _ _ => 1
  | .advance _ _ => 0

def backlog (m : Shared α) : Nat := 6 * (m.ring.tail_ - m.ring.head_) + m.consumer.rank

def Quiet (s : State ι α) : Prop := ∀ i, s.pc i = .idle

/-- From some number of consumer steps on, every kept token has been popped
exactly once, with its value. -/
def Drains [DecidableEq ι] (flags : RingQueueFlag) (s : State ι α) : Prop :=
  ∃ N, ∀ n, N ≤ n → ∃ t, exec (step flags) s (List.replicate n .consume) = some t ∧
    t.shared.hist.popped.Perm (s.shared.hist.taken.map fun e => (e.1, some e.2))

theorem Inv.returned_of_quiet {flags : RingQueueFlag} {s : State ι α} (h : Inv flags s)
    (hq : Quiet s) {e : Nat × α} (he : e ∈ s.shared.hist.taken) :
    e.1 ∈ s.shared.hist.returned := by
  rcases h.outstanding e he with hr | ⟨i, hi⟩
  · exact hr
  · rw [hq i] at hi; cases hi

/-- With nobody at work, the kept tokens are all those below `tail_`. -/
theorem Inv.taken_of_quiet {flags : RingQueueFlag} {s : State ι α} (h : Inv flags s)
    (hq : Quiet s) {k : Nat} (hk : k < s.shared.ring.tail_) :
    ∃ v, (k, v) ∈ s.shared.hist.taken := by
  have hsh : SharedInv s.shared := h.holds.shared
  obtain ⟨n, hn, htail⟩ := h.balance
  have hzero : n = 0 := by
    obtain ⟨F, hF, rfl⟩ := hn
    refine Finset.card_eq_zero.mpr (Finset.eq_empty_of_forall_notMem fun i hi => ?_)
    have := (hF i).mp hi
    rw [hq i] at this
    exact this
  have hsub : (s.shared.hist.taken.map Prod.fst).Subperm (List.range s.shared.ring.tail_) :=
    hsh.taken_nodup.subperm fun k hk => by
      obtain ⟨e, he, rfl⟩ := List.mem_map.mp hk
      exact List.mem_range.mpr (hsh.taken_lt e he)
  have hperm := hsub.perm_of_length_le (by simp only [List.length_range, List.length_map]; omega)
  obtain ⟨e, he, rfl⟩ := List.mem_map.mp (hperm.mem_iff.mpr (List.mem_range.mpr hk))
  exact ⟨e.2, he⟩

theorem Inv.backlog_consume {flags : RingQueueFlag} {s : State ι α} (h : Inv flags s)
    (hq : Quiet s) (hlt : s.shared.ring.head_ < s.shared.ring.tail_) :
    backlog (consume s.shared) < backlog s.shared := by
  have hsh : SharedInv s.shared := h.holds.shared
  obtain ⟨v, hv⟩ := h.taken_of_quiet hq hlt
  have hr := h.returned_of_quiet hq hv
  have hc := hsh.consumer
  unfold consume backlog
  cases hcons : s.shared.consumer with
  | idle => simp [Consumer.rank]
  | loadTail head =>
    rw [hcons] at hc
    obtain rfl := hc
    simp only [if_neg (Nat.not_le.mpr hlt), Consumer.rank]
    omega
  | test head =>
    rw [hcons] at hc
    obtain rfl := hc
    have hslot := hsh.full _ v hv (hsh.returned_stored _ hr) (Nat.le_refl _) fun _ => by
      rw [hcons]; exact id
    rw [if_pos hr] at hslot
    have hany : s.shared.ring.any (s.shared.ring.popIdx s.shared.ring.head_) 1 = true := by
      show (s.shared.slot s.shared.ring.head_).first &&& 1 != 0
      simp [hslot]
    simp only [hany, if_true, Consumer.rank]
    omega
  | moveOut head => simp [Ring.moveOut, Ring.write, Consumer.rank]
  | clear head val => simp [Ring.clear, Ring.write, Consumer.rank]
  | advance head val =>
    have htail := hsh.tail_lt
    simp only [wordAdd_of_lt (show s.shared.ring.head_ + 1 < sizeMod by omega), Consumer.rank]
    omega

variable [DecidableEq ι]

theorem exec_consume (flags : RingQueueFlag) (s : State ι α) (n : Nat) :
    exec (step flags) s (List.replicate n .consume) =
      some { s with shared := consume^[n] s.shared } := by
  induction n generalizing s with
  | zero => rfl
  | succ n ih =>
    rw [List.replicate_succ, exec]
    exact ih { s with shared := consume s.shared }

theorem Inv.consumes {flags : RingQueueFlag} {s : State ι α} (hf : Bounded flags)
    (h : Inv flags s) (n : Nat) : Inv flags { s with shared := consume^[n] s.shared } := by
  induction n generalizing s with
  | zero => exact h
  | succ n ih =>
    exact ih (s := { s with shared := consume s.shared })
      (step_inv (l := .consume) hf h trivial rfl)

/-- What popping again and again leaves as it is, and what it only raises. -/
theorem Inv.consumes_frame {flags : RingQueueFlag} {s : State ι α} (hf : Bounded flags)
    (h : Inv flags s) (n : Nat) :
    (consume^[n] s.shared).hist.taken = s.shared.hist.taken ∧
    (consume^[n] s.shared).ring.tail_ = s.shared.ring.tail_ ∧
    s.shared.ring.head_ ≤ (consume^[n] s.shared).ring.head_ := by
  induction n with
  | zero => exact ⟨rfl, rfl, Nat.le_refl _⟩
  | succ n ih =>
    rw [Function.iterate_succ_apply']
    obtain ⟨htaken, -, -, htail⟩ := consume_tokens (consume^[n] s.shared)
    have hr := consume_rely (h.consumes hf n).holds.shared
    exact ⟨htaken.trans ih.1, htail.trans ih.2.1, Nat.le_trans ih.2.2 hr.head⟩

theorem Inv.drained {flags : RingQueueFlag} {s : State ι α} (hf : Bounded flags)
    (h : Inv flags s) (hq : Quiet s) (n : Nat) (hn : backlog s.shared ≤ n) :
    s.shared.ring.tail_ ≤ (consume^[n] s.shared).ring.head_ := by
  by_cases hlt : s.shared.ring.head_ < s.shared.ring.tail_
  · induction n generalizing s with
    | zero => rw [backlog] at hn; omega
    | succ n ih =>
      have hstep : Inv flags { s with shared := consume s.shared } := h.consumes hf 1
      have hb := h.backlog_consume hq hlt
      rw [Function.iterate_succ_apply]
      rw [← (consume_tokens s.shared).2.2.2]
      by_cases hlt' : (consume s.shared).ring.head_ < (consume s.shared).ring.tail_
      · exact ih hstep hq (Nat.le_of_lt_succ (Nat.lt_of_lt_of_le hb hn)) hlt'
      · exact Nat.le_trans (Nat.le_of_not_lt hlt') (hstep.consumes_frame hf n).2.2
  · exact Nat.le_trans (Nat.le_of_not_lt hlt) (h.consumes_frame hf n).2.2

theorem SharedInv.popped_perm {m : Shared α} (h : SharedInv m) (hd : m.ring.tail_ ≤ m.ring.head_) :
    m.hist.popped.Perm (m.hist.taken.map fun e => (e.1, some e.2)) := by
  have htokens : m.hist.popped.map Prod.fst = List.range m.hist.popped.length := by
    refine List.ext_getElem (by simp) fun k hk _ => ?_
    simp only [List.length_map] at hk
    obtain ⟨-, v, hv, -⟩ := h.popped k _ (List.getElem?_eq_getElem hk)
    simp [hv]
  have hnodup : m.hist.popped.Nodup :=
    .of_map Prod.fst (htokens ▸ List.nodup_range)
  have hnodup' : (m.hist.taken.map fun e => (e.1, some e.2)).Nodup :=
    .of_map Prod.fst (by simpa [Function.comp_def] using h.taken_nodup)
  refine (List.perm_ext_iff_of_nodup hnodup hnodup').mpr fun e => ⟨fun he => ?_, fun he => ?_⟩
  · obtain ⟨k, hk⟩ := List.getElem?_of_mem he
    obtain ⟨-, v, rfl, hv⟩ := h.popped k e hk
    exact List.mem_map.mpr ⟨_, hv, rfl⟩
  · obtain ⟨⟨k, v⟩, hv, rfl⟩ := List.mem_map.mp he
    obtain ⟨-, w, hw, hkw⟩ := h.popped_lt (Nat.lt_of_lt_of_le (h.taken_lt _ hv) hd)
    rw [h.taken_inj hv hkw]
    exact List.mem_of_getElem? hw

theorem Inv.drains {flags : RingQueueFlag} {s : State ι α} (hf : Bounded flags)
    (h : Inv flags s) (hq : Quiet s) : Drains flags s := by
  refine ⟨backlog s.shared, fun n hn => ⟨_, exec_consume flags s n, ?_⟩⟩
  obtain ⟨htaken, htail, -⟩ := h.consumes_frame hf n
  have hd := h.drained hf hq n hn
  have hsh : SharedInv (consume^[n] s.shared) := (h.consumes hf n).holds.shared
  show (consume^[n] s.shared).hist.popped.Perm _
  rw [← htaken]
  exact hsh.popped_perm (by rw [htail]; exact hd)

/-! ## Queues that wait for space -/

/-- **Waiting queues deliver in order.** `mpsc_queue` with any number of
producers and `spsc_queue` with one, over every interleaving. -/
theorem waiting_delivers {flags : RingQueueFlag} {depth : Nat} {as : List (Label ι α)}
    {s : State ι α} (hf : flags = mpscFlags ∨ (flags = spscFlags ∧ Subsingleton ι))
    (hpos : 0 < depth) (hlt : depth < idxMod)
    (h : Run (step flags) NoTokenWrap (init ι α depth) as s) :
    Delivers s ∧ (Quiet s → Drains flags s) := by
  have hw : waitForSpace flags = true := by rcases hf with rfl | ⟨rfl, -⟩ <;> rfl
  have hb : Bounded flags := by rw [Bounded, hw]; rfl
  have hi : Inv flags s ∧ s.shared.ring.depth < idxMod := by
    refine h.invariant (I := fun s => Inv flags s ∧ s.shared.ring.depth < idxMod)
      ⟨init_inv hpos, hlt⟩ ?_
    rintro t l u ⟨hi, hd⟩ hok hs
    exact ⟨step_inv hb hi (hi.guarded hw hd hok) hs, by rw [step_depth hs]; exact hd⟩
  exact ⟨hi.1.delivers, hi.1.drains hb⟩

instance (s : State ι α) : ∀ l, Decidable (NoTokenWrap s l)
  | .consume => isTrue trivial
  | .produce i _ => inferInstanceAs (Decidable (NoWrap s.shared (s.pc i)))

private def emplaces (i : Nat) (v : Nat) (accesses : Nat) : List (Label Nat Nat) :=
  .produce i (.emplace v) :: List.replicate accesses (.produce i .access)

/-- One slot, two producers: the second one waits until the first value is
popped, and has stored its own when the run ends. -/
theorem waiting_delivers_two : ∃ s : State Nat Nat,
    s.shared.hist.popped = [(0, some 10)] ∧ (s.shared.slot 1).second = some 20 ∧ Delivers s := by
  let as := emplaces 0 10 3 ++ emplaces 1 20 2 ++ List.replicate 6 .consume ++
    List.replicate 3 (.produce 1 .access)
  have hs : (execOk (step mpscFlags) NoTokenWrap (init Nat Nat 1) as).map
      (fun s => (s.shared.hist.popped, (s.shared.slot 1).second)) =
      some ([(0, some 10)], some 20) := by decide +kernel
  obtain ⟨s, hs, hv⟩ := Option.map_eq_some_iff.mp hs
  obtain ⟨hp, hq⟩ := Prod.mk.inj hv
  exact ⟨s, hp, hq,
    (waiting_delivers (.inl rfl) (by decide) (by decide) (run_of_execOk hs)).1⟩

/-! ## Queues that give tokens back -/

/-- **Fixed queues deliver when no kept token is freed.** Over every
interleaving of `fixed_mpsc_queue` in which each token given back frees no kept
one; what only rejected calls emplaced is never popped. -/
theorem returning_delivers {depth : Nat} {as : List (Label ι α)} {s : State ι α}
    (hpos : 0 < depth) (h : Run (step fixedMpmcFlags) Guarded (init ι α depth) as s) :
    Delivers s ∧
    (∀ v ∈ s.shared.hist.rejected, (∀ k, (k, v) ∉ s.shared.hist.taken) →
      ∀ k, (k, some v) ∉ s.shared.hist.popped) ∧
    (Quiet s → Drains fixedMpmcFlags s) := by
  have hb : Bounded fixedMpmcFlags := rfl
  have hi : Inv fixedMpmcFlags s :=
    h.invariant (init_inv hpos) fun _ _ _ hi hok hs => step_inv hb hi hok hs
  refine ⟨hi.delivers, fun v _ hv k hk => ?_, hi.drains hb⟩
  obtain ⟨n, hn⟩ := List.getElem?_of_mem hk
  obtain ⟨w, he, hw⟩ := hi.delivers.popped n _ hn
  cases he
  exact hv _ hw

/-- A full queue of one slot rejects 20; after a pop there is room for 30. -/
theorem returning_delivers_one : ∃ s : State Nat Nat,
    s.shared.hist.popped = [(0, some 10)] ∧ s.shared.hist.rejected = [20] ∧
    s.shared.hist.returned = [0, 1] ∧ Delivers s := by
  let as := emplaces 0 10 3 ++ emplaces 1 20 2 ++ List.replicate 6 .consume ++ emplaces 1 30 3
  have hs : (execOk (step fixedMpmcFlags) Guarded (init Nat Nat 1) as).map
      (fun s => (s.shared.hist.popped, s.shared.hist.rejected, s.shared.hist.returned)) =
      some ([(0, some 10)], [20], [0, 1]) := by decide +kernel
  obtain ⟨s, hs, hv⟩ := Option.map_eq_some_iff.mp hs
  simp only [Prod.mk.injEq] at hv
  obtain ⟨hp, hr, ht⟩ := hv
  exact ⟨s, hp, hr, ht, (returning_delivers (by decide) (run_of_execOk hs)).1⟩

/-- **A token given back late loses a value.** Two slots: producer 1 takes token
2 while both are full; they are popped; producer 2 is given token 3; producer 1
gives a token back; producer 3 is given token 3 too and rewrites its slot. -/
theorem returning_overwrites : ¬ ∀ (depth : Nat) (as : List (Label Nat Nat)) (s : State Nat Nat),
    0 < depth → Run (step fixedMpmcFlags) Unrestricted (init Nat Nat depth) as s →
      Delivers s ∧ (Quiet s → Drains fixedMpmcFlags s) := by
  intro h
  let as := emplaces 0 10 3 ++ emplaces 0 11 3 ++ emplaces 1 12 1 ++ List.replicate 12 .consume ++
    emplaces 2 13 3 ++ [.produce 1 .access] ++ emplaces 3 14 1
  have hs : (exec (step fixedMpmcFlags) (init Nat Nat 2) as).map
      (fun s => (s.pc 3, (s.shared.ring.queue_ (s.shared.ring.emplaceIdx 3)).second)) =
      some (.replace 3 14, some 13) := by decide +kernel
  obtain ⟨s, hs, hv⟩ := Option.map_eq_some_iff.mp hs
  obtain ⟨hp, hslot⟩ := Prod.mk.inj hv
  obtain ⟨hempty, -⟩ := (h 2 as s (by decide) (run_iff_exec.mpr hs)).1.rewritten 3 3 14 hp
  rw [hempty] at hslot
  cases hslot

end HermesShm.Ipc.RingQueue
