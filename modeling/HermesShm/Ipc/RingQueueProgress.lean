import HermesShm.Base.Fairness
import HermesShm.Ipc.RingQueueDelivery

/-! # A queue that waits for space gets everything through

`emplace` spins until there is room for its token, `pop` looks again until the slot of its token is
ready. The producer of token `head_` never has to wait, and no other thread takes its slot; so the
consumer gets on, and with it every producer behind. -/
namespace HermesShm.Ipc.RingQueue
open HermesShm.Base

variable {ι α : Type*} {flags : RingQueueFlag} {m m' : Shared α} {p p' : Producer α}

/-! ## One step -/

/-- The accesses left to a producer that has its token and does not wait. -/
def Producer.left : Producer α → Nat
  | .awaitSpace _ _ => 3
  | .replace _ _ => 2
  | .mark _ => 1
  | .idle | .claim _ _ | .giveBack _ _ => 0

/-- There is room for token `head_`. -/
theorem produce_front {a : ProducerAct α} (h : SharedInv m) (hl : Local flags m p)
    (hheld : p.held = some m.ring.head_) (hs : produce flags m p a = some (m', p')) :
    m'.ring.head_ = m.ring.head_ ∧ (m.ring.head_ ∈ m'.hist.returned ∨
      (p'.held = some m.ring.head_ ∧ p'.left < p.left)) := by
  cases p with
  | idle | claim _ _ | giveBack _ _ => cases hheld
  | awaitSpace tail v =>
    obtain rfl : tail = m.ring.head_ := Option.some.inj hheld
    cases a with
    | emplace w => cases hs
    | access =>
      have hlt := h.taken_lt _ hl.1
      have htail := h.tail_lt
      have hpos := h.depth_pos
      dsimp only at hlt
      have hroom : Ring.spaceFor m.ring.head_ m.ring.head_ ≤ m.ring.depth := by
        rw [spaceFor_eq (Nat.le_refl _) (by omega)]
        omega
      rw [produce, if_pos hroom] at hs
      cases hs
      exact ⟨rfl, .inr ⟨rfl, Nat.lt_succ_self 2⟩⟩
  | replace tail v =>
    obtain rfl : tail = m.ring.head_ := Option.some.inj hheld
    cases a with
    | emplace w => cases hs
    | access => cases hs; exact ⟨rfl, .inr ⟨rfl, Nat.lt_succ_self 1⟩⟩
  | mark tail =>
    obtain rfl : tail = m.ring.head_ := Option.some.inj hheld
    cases a with
    | emplace w => cases hs
    | access => cases hs; exact ⟨rfl, .inl (List.mem_append_right _ (List.mem_singleton_self _))⟩

/-- Producers leave `head_` and the consumer alone, and take nothing back. -/
theorem Produced.consumer (h : Produced flags m p m' p') :
    m'.ring.head_ = m.ring.head_ ∧ m'.consumer = m.consumer ∧
      ∀ k ∈ m.hist.returned, k ∈ m'.hist.returned := by
  cases h with
  | call | again | room | refuse | giveBack | take | replace => exact ⟨rfl, rfl, fun _ => id⟩
  | mark => exact ⟨rfl, rfl, fun _ => List.mem_append_left _⟩

/-- A producer keeps its token until `emplace` returns. -/
theorem Produced.keeps (h : Produced flags m p m' p') {k : Nat} (hk : p.held = some k) :
    p'.held = some k ∨ p' = .idle := by
  cases h with
  | call | take | refuse | giveBack => cases hk
  | again | room | replace => exact .inl hk
  | mark => exact .inr rfl

/-- The consumer gets on when the slot of token `head_` is ready. -/
theorem consume_front (h : SharedInv m) (hr : m.ring.head_ ∈ m.hist.returned) :
    m.ring.head_ < (consume m).ring.head_ ∨
      ((consume m).ring.head_ = m.ring.head_ ∧ (consume m).consumer.rank < m.consumer.rank) := by
  obtain ⟨v, hv⟩ := h.stored_taken _ (h.returned_stored _ hr)
  have hlt := h.taken_lt _ hv
  have hc := h.consumer
  dsimp only at hlt
  unfold consume
  cases hcons : m.consumer with
  | idle => exact .inr ⟨rfl, Nat.lt_succ_self 4⟩
  | loadTail head =>
    rw [hcons] at hc
    obtain rfl := hc
    simp only [if_neg (Nat.not_le.mpr hlt)]
    exact .inr ⟨trivial, Nat.lt_succ_self 3⟩
  | test head =>
    rw [hcons] at hc
    obtain rfl := hc
    have hslot := h.full _ v hv (h.returned_stored _ hr) (Nat.le_refl _) fun _ => by
      rw [hcons]; exact id
    rw [if_pos hr] at hslot
    have hany : m.ring.any (m.ring.popIdx m.ring.head_) 1 = true := by
      change (m.slot m.ring.head_).first &&& 1 != 0
      rw [hslot, Nat.and_self]
      rfl
    simp only [hany, if_true]
    exact .inr ⟨trivial, Nat.lt_succ_self 2⟩
  | moveOut head => exact .inr ⟨rfl, Nat.lt_succ_self 1⟩
  | clear head val => exact .inr ⟨rfl, Nat.one_pos⟩
  | advance head val =>
    have htail := h.tail_lt
    refine .inl ?_
    rw [wordAdd_of_lt (by omega)]
    exact Nat.lt_succ_self _

/-- What every state of a queue that waits for space satisfies. -/
def Waiting (flags : RingQueueFlag) (s : State ι α) : Prop :=
  waitForSpace flags = true ∧ Inv flags s ∧ s.shared.ring.depth < idxMod

/-- Every token handed out is kept. -/
theorem Waiting.taken {s : State ι α} (h : Waiting flags s) {k : Nat}
    (hk : k < s.shared.ring.tail_) : ∃ v, (k, v) ∈ s.shared.hist.taken := by
  obtain ⟨hw, hi, -⟩ := h
  have hsh : SharedInv s.shared := hi.holds.shared
  obtain ⟨n, hn, htail⟩ := hi.balance
  have hzero : n = 0 := hn.eq_zero fun i hgive => by
    have hl : Local flags s.shared (s.pc i) := hi.holds.each i
    cases hp : s.pc i with
    | giveBack tail v =>
      rw [hp] at hl
      rw [show waitForSpace flags = false from hl] at hw
      cases hw
    | idle | claim _ _ | awaitSpace _ _ | replace _ _ | mark _ => rw [hp] at hgive; exact hgive
  have hsub : (s.shared.hist.taken.map Prod.fst).Subperm (List.range s.shared.ring.tail_) :=
    hsh.taken_nodup.subperm fun k hk => by
      obtain ⟨e, he, rfl⟩ := List.mem_map.mp hk
      exact List.mem_range.mpr (hsh.taken_lt e he)
  have hperm := hsub.perm_of_length_le (by simp only [List.length_range, List.length_map]; omega)
  obtain ⟨e, he, rfl⟩ := List.mem_map.mp (hperm.mem_iff.mpr (List.mem_range.mpr hk))
  exact ⟨e.2, he⟩

/-- A producer holds a token that was handed out and has not been returned. -/
theorem Waiting.held_taken {s : State ι α} (h : Waiting flags s) {i : ι} {k : Nat}
    (hk : (s.pc i).held = some k) : ∃ v, (k, v) ∈ s.shared.hist.taken :=
  h.taken ((h.2.1.holds.each i).held_lt h.2.1.holds.shared hk)

theorem Waiting.held_not_returned {s : State ι α} (h : Waiting flags s) {i : ι} {k : Nat}
    (hk : (s.pc i).held = some k) : k ∉ s.shared.hist.returned := by
  have hsh : SharedInv s.shared := h.2.1.holds.shared
  have hl : Local flags s.shared (s.pc i) := h.2.1.holds.each i
  cases hp : s.pc i with
  | idle | claim _ _ | giveBack _ _ => rw [hp] at hk; cases hk
  | awaitSpace tail v | replace tail v =>
    rw [hp] at hk hl
    cases hk
    exact hsh.not_returned hl.2.1
  | mark tail =>
    rw [hp] at hk hl
    cases hk
    exact hl.2.1

variable [DecidableEq ι]

/-- What a step of such a queue can be. -/
theorem Waiting.step_cases {s t : State ι α} {l : Label ι α} (h : Waiting flags s)
    (hok : NoTokenWrap s l) (hs : step flags s l = some t) : Waiting flags t ∧
      ((l = .consume ∧ t = { s with shared := consume s.shared }) ∨
        ∃ i a m' p', l = .produce i a ∧ produce flags s.shared (s.pc i) a = some (m', p') ∧
          Produced flags s.shared (s.pc i) m' p' ∧ t = ⟨m', Function.update s.pc i p'⟩) := by
  obtain ⟨hw, hi, hd⟩ := h
  have hf : Bounded flags := by rw [Bounded, hw]; rfl
  refine ⟨⟨hw, step_inv hf hi (hi.guarded hw hd hok) hs, by rwa [step_depth hs]⟩, ?_⟩
  cases l with
  | consume => exact .inl ⟨rfl, (Option.some.inj hs).symm⟩
  | produce i a =>
    obtain ⟨m', p', hp, rfl⟩ := Pool.step_cases hs
    have hpos : (s.pc i).isGiveBack → 0 < s.shared.ring.tail_ := fun hb => by
      obtain ⟨n, hn, htail⟩ := hi.balance
      have := hn.pos hb
      omega
    exact .inr ⟨i, a, m', p', rfl, hp,
      produce_cases hf hi.holds.shared (hi.holds.each i) hpos hok hp, rfl⟩

theorem Waiting.mono {s t : State ι α} {l : Label ι α} (h : Waiting flags s)
    (hok : NoTokenWrap s l) (hs : step flags s l = some t) :
    s.shared.ring.head_ ≤ t.shared.ring.head_ ∧
      ∀ e ∈ s.shared.hist.taken, e ∈ t.shared.hist.taken := by
  obtain ⟨-, ⟨-, rfl⟩ | ⟨i, a, m', p', -, -, hpr, rfl⟩⟩ := h.step_cases hok hs
  · have hr := consume_rely h.2.1.holds.shared
    exact ⟨hr.head, hr.taken⟩
  · have hr := hpr.rely
    exact ⟨hr.head, hr.taken⟩

/-! ## Fair behaviors -/

/-- The accesses of producer `i`. -/
def Produces (i : ι) : Label ι α → Prop
  | .produce j _ => j = i
  | .consume => False

/-- The accesses of the consumer. -/
def Consumes : Label ι α → Prop
  | .produce _ _ => False
  | .consume => True

/-- Producer `i` is in `emplace`. -/
def Inside (i : ι) (s : State ι α) : Prop := s.pc i ≠ .idle

/-- Every producer in `emplace` goes on at some time, and the consumer pops again and again. -/
structure Scheduled {s : State ι α} (ρ : Behavior (step flags) NoTokenWrap s) : Prop where
  producers : ∀ i, ρ.Fair (Produces i) (Inside i)
  consumer : ρ.Fair Consumes fun _ => True

variable {s : State ι α} {ρ : Behavior (step flags) NoTokenWrap s}

/-- The producer of token `head_` returns. -/
theorem front_returned (hfair : Scheduled ρ) {n h : Nat} (hwait : Waiting flags (ρ.state n))
    (hhead : (ρ.state n).shared.ring.head_ = h) {i : ι} (hi : ((ρ.state n).pc i).held = some h) :
    ρ.Eventually n fun t => Waiting flags t ∧ (h < t.shared.ring.head_ ∨
      (t.shared.ring.head_ = h ∧ h ∈ t.shared.hist.returned)) := by
  refine Behavior.helped (P := fun t => Waiting flags t ∧ t.shared.ring.head_ = h ∧
    (t.pc i).held = some h) (fun t => (t.pc i).left) (hfair.producers i) ?_ ?_ ⟨hwait, hhead, hi⟩
  · intro t ⟨_, _, hheld⟩ hidle
    rw [hidle] at hheld
    cases hheld
  · intro t l u ⟨ht, rfl, hheld⟩ hok hs
    obtain ⟨hu, ⟨rfl, rfl⟩ | ⟨j, a, m', p', rfl, hp, hpr, rfl⟩⟩ := ht.step_cases hok hs
    · have hle := (ht.mono hok hs).1
      rcases Nat.lt_or_eq_of_le hle with hlt | heq
      · exact .inl ⟨hu, .inl hlt⟩
      · exact .inr ⟨⟨hu, heq.symm, hheld⟩, Nat.le_refl _, fun hf => hf.elim⟩
    · obtain rfl | hne := eq_or_ne i j
      · obtain ⟨hhead', hret | ⟨hheld', hlt⟩⟩ :=
          produce_front ht.2.1.holds.shared (ht.2.1.holds.each i) hheld hp
        · exact .inl ⟨hu, .inr ⟨hhead', hret⟩⟩
        · refine .inr ⟨⟨hu, hhead', ?_⟩, ?_, fun _ => ?_⟩
          · dsimp only
            rwa [Function.update_self]
          · dsimp only
            rw [Function.update_self]
            exact hlt.le
          · dsimp only
            rwa [Function.update_self]
      · refine .inr ⟨⟨hu, hpr.consumer.1, ?_⟩, ?_, fun hmine => absurd hmine.symm hne⟩
        · dsimp only
          rwa [Function.update_of_ne hne]
        · dsimp only
          rw [Function.update_of_ne hne]

/-- The consumer takes the value of token `head_`. -/
theorem front_popped (hfair : Scheduled ρ) {n h : Nat} (hwait : Waiting flags (ρ.state n))
    (hhead : (ρ.state n).shared.ring.head_ = h)
    (hret : h ∈ (ρ.state n).shared.hist.returned) :
    ρ.Eventually n fun t => Waiting flags t ∧ h < t.shared.ring.head_ := by
  refine Behavior.helped (P := fun t => Waiting flags t ∧ t.shared.ring.head_ = h ∧
    h ∈ t.shared.hist.returned) (fun t => t.shared.consumer.rank) hfair.consumer
    (fun _ _ => trivial) ?_ ⟨hwait, hhead, hret⟩
  intro t l u ⟨ht, rfl, hr⟩ hok hs
  obtain ⟨hu, ⟨rfl, rfl⟩ | ⟨j, a, m', p', rfl, hp, hpr, rfl⟩⟩ := ht.step_cases hok hs
  · rcases consume_front ht.2.1.holds.shared hr with hlt | ⟨heq, hlt⟩
    · exact .inl ⟨hu, hlt⟩
    · refine .inr ⟨⟨hu, heq, ?_⟩, hlt.le, fun _ => hlt⟩
      exact (consume_tokens t.shared).2.1 ▸ hr
  · obtain ⟨hhead', hcons, hmono⟩ := hpr.consumer
    exact .inr ⟨⟨hu, hhead', hmono _ hr⟩, (congrArg Consumer.rank hcons).le, fun hf => hf.elim⟩

theorem Waiting.later {n m : Nat} (hle : n ≤ m) {e : Nat × α} (hwait : Waiting flags (ρ.state n))
    (he : e ∈ (ρ.state n).shared.hist.taken) :
    Waiting flags (ρ.state m) ∧ e ∈ (ρ.state m).shared.hist.taken := by
  refine Behavior.stays (P := fun t => Waiting flags t ∧ e ∈ t.shared.hist.taken) ?_ hle ⟨hwait, he⟩
  intro t l u ⟨ht, hmem⟩ hok hs
  exact ⟨(ht.step_cases hok hs).1, (ht.mono hok hs).2 e hmem⟩

/-- Token `head_` gets through. -/
theorem front_passes (hfair : Scheduled ρ) {n h : Nat} (hwait : Waiting flags (ρ.state n))
    (hhead : (ρ.state n).shared.ring.head_ = h) (hlt : h < (ρ.state n).shared.ring.tail_) :
    ρ.Eventually n fun t => h < t.shared.ring.head_ := by
  obtain ⟨v, hv⟩ := hwait.taken hlt
  rcases hwait.2.1.outstanding _ hv with hret | ⟨i, hi⟩
  · exact (front_popped hfair hwait hhead hret).mono fun _ ht => ht.2
  · refine (front_returned hfair hwait hhead hi).bind fun m _ ⟨hm, hor⟩ => ?_
    rcases hor with hpast | ⟨heq, hret⟩
    · exact .now hpast
    · exact (front_popped hfair hm heq hret).mono fun _ ht => ht.2

/-- The consumer gets past every token that was handed out. -/
theorem token_passes (hfair : Scheduled ρ) {n k : Nat} {v : α} (hwait : Waiting flags (ρ.state n))
    (hv : (k, v) ∈ (ρ.state n).shared.hist.taken) :
    ρ.Eventually n fun t => k < t.shared.ring.head_ := by
  refine Behavior.descend (P := fun t => Waiting flags t ∧ (k, v) ∈ t.shared.hist.taken)
    (fun t => k + 1 - t.shared.ring.head_) ?_ ⟨hwait, hv⟩
  intro m ⟨hm, hvm⟩
  by_cases hdone : k < (ρ.state m).shared.ring.head_
  · exact .now (.inl hdone)
  have hlt := hm.2.1.holds.shared.taken_lt _ hvm
  dsimp only at hlt
  obtain ⟨j, hj, hpast⟩ := front_passes hfair hm rfl (by omega)
  exact ⟨j, hj, .inr ⟨hm.later hj hvm, by omega⟩⟩

/-- Nothing emplaced is left behind, and no producer waits for ever. -/
structure GetsThrough (ρ : Behavior (step flags) NoTokenWrap s) : Prop where
  popped : ∀ n k v, (k, v) ∈ (ρ.state n).shared.hist.taken →
    ρ.Eventually n fun t => (k, some v) ∈ t.shared.hist.popped
  returned : ∀ i n, ρ.Eventually n fun t => t.pc i = .idle

theorem value_popped (hfair : Scheduled ρ) {n k : Nat} {v : α} (hwait : Waiting flags (ρ.state n))
    (hv : (k, v) ∈ (ρ.state n).shared.hist.taken) :
    ρ.Eventually n fun t => Waiting flags t ∧ (k, some v) ∈ t.shared.hist.popped := by
  obtain ⟨m, hle, hpast⟩ := token_passes hfair hwait hv
  obtain ⟨hm, hvm⟩ := hwait.later hle hv
  have hsh : SharedInv (ρ.state m).shared := hm.2.1.holds.shared
  obtain ⟨-, w, hw, hkw⟩ := hsh.popped_lt hpast
  rw [hsh.taken_inj hkw hvm] at hw
  exact ⟨m, hle, hm, List.mem_of_getElem? hw⟩

/-- A producer that has its token returns before the value is popped. -/
theorem held_returns (hfair : Scheduled ρ) {n k : Nat} {i : ι} (hwait : Waiting flags (ρ.state n))
    (hi : ((ρ.state n).pc i).held = some k) : ρ.Eventually n fun t => t.pc i = .idle := by
  obtain ⟨v, hv⟩ := hwait.held_taken hi
  obtain ⟨m, hle, hm, hpopped⟩ := value_popped hfair hwait hv
  have hkeep := Behavior.until_eventually (ρ := ρ) (Q := fun t => t.pc i = .idle)
    (P := fun t => Waiting flags t ∧ (t.pc i).held = some k) ?_ hle ⟨hwait, hi⟩
  · rcases hkeep with ⟨-, hheld⟩ | hidle
    · obtain ⟨j, hj⟩ := List.getElem?_of_mem hpopped
      obtain ⟨hret, w, he, -⟩ := hm.2.1.holds.shared.popped j _ hj
      obtain rfl : k = j := congrArg Prod.fst he
      exact absurd hret (hm.held_not_returned hheld)
    · exact hidle
  · intro t l u ⟨ht, hheld⟩ hok hs
    obtain ⟨hu, ⟨rfl, rfl⟩ | ⟨j, a, m', p', rfl, hp, hpr, rfl⟩⟩ := ht.step_cases hok hs
    · exact .inl ⟨hu, hheld⟩
    · obtain rfl | hne := eq_or_ne i j
      · rcases hpr.keeps hheld with hheld' | rfl
        · refine .inl ⟨hu, ?_⟩
          dsimp only
          rwa [Function.update_self]
        · exact .inr (Function.update_self ..)
      · refine .inl ⟨hu, ?_⟩
        dsimp only
        rwa [Function.update_of_ne hne]

/-- A producer that has looked at `head_` takes its token. -/
theorem claim_takes (hfair : Scheduled ρ) {n : Nat} {i : ι} {head : Nat} {v : α}
    (hwait : Waiting flags (ρ.state n)) (hi : (ρ.state n).pc i = .claim head v) :
    ρ.Eventually n fun t => Waiting flags t ∧ ∃ k, (t.pc i).held = some k := by
  refine Behavior.helped (P := fun t => Waiting flags t ∧ t.pc i = .claim head v) (fun _ => 0)
    (hfair.producers i) ?_ ?_ ⟨hwait, hi⟩
  · intro t ⟨_, hpc⟩ hidle
    rw [hpc] at hidle
    cases hidle
  · intro t l u ⟨ht, hpc⟩ hok hs
    obtain ⟨hu, ⟨rfl, rfl⟩ | ⟨j, a, m', p', rfl, hp, hpr, rfl⟩⟩ := ht.step_cases hok hs
    · exact .inr ⟨⟨hu, hpc⟩, Nat.le_refl _, fun hf => hf.elim⟩
    · obtain rfl | hne := eq_or_ne i j
      · refine .inl ⟨hu, t.shared.ring.tail_, ?_⟩
        dsimp only
        rw [Function.update_self]
        rw [hpc] at hpr
        cases hpr with
        | take _ hp' => rcases hp' with rfl | ⟨rfl, -⟩ <;> rfl
        | refuse _ hno =>
          rw [ht.1] at hno
          cases hno
      · refine .inr ⟨⟨hu, ?_⟩, Nat.le_refl _, fun hmine => absurd hmine.symm hne⟩
        dsimp only
        rwa [Function.update_of_ne hne]

/-- **Waiting queues get everything through.** `mpsc_queue` with any number of producers and
`spsc_queue` with one: in every infinite run in which no token counter wraps, every producer in
`emplace` goes on at some time and the consumer pops again and again, every value emplaced is
popped, and every `emplace` returns. -/
theorem gets_through_of_fair {depth : Nat}
    (hf : flags = mpscFlags ∨ (flags = spscFlags ∧ Subsingleton ι)) (hpos : 0 < depth)
    (hlt : depth < idxMod) (ρ : Behavior (step flags) NoTokenWrap (init ι α depth))
    (hfair : Scheduled ρ) : GetsThrough ρ := by
  have hw : waitForSpace flags = true := by rcases hf with rfl | ⟨rfl, -⟩ <;> rfl
  have hwait : ∀ n, Waiting flags (ρ.state n) := by
    intro n
    exact ρ.invariant (I := Waiting flags) ⟨hw, init_inv hpos, hlt⟩
      (fun _ _ _ ht hok hs => (ht.step_cases hok hs).1) n
  refine ⟨fun n k v hv => (value_popped hfair (hwait n) hv).mono fun _ ht => ht.2, fun i n => ?_⟩
  cases hpc : (ρ.state n).pc i with
  | idle => exact .now hpc
  | claim head v =>
    refine (claim_takes hfair (hwait n) hpc).bind fun m _ ⟨hm, k, hk⟩ => ?_
    exact held_returns hfair hm hk
  | awaitSpace tail v | replace tail v =>
    exact held_returns hfair (k := tail) (hwait n) (by rw [hpc]; rfl)
  | mark tail => exact held_returns hfair (k := tail) (hwait n) (by rw [hpc]; rfl)
  | giveBack tail v =>
    have hl : Local flags (ρ.state n).shared ((ρ.state n).pc i) := (hwait n).2.1.holds.each i
    rw [hpc] at hl
    rw [show waitForSpace flags = false from hl] at hw
    cases hw

/-- The consumer goes on popping. -/
def popping (s : State ι α) : Behavior (step flags) NoTokenWrap s where
  state n := { s with shared := consume^[n] s.shared }
  label _ := some .consume
  start := rfl
  next n := ⟨trivial, by
    rw [Function.iterate_succ_apply']
    rfl⟩

/-- One slot, two producers, and the second one has to wait. -/
def twoProducers : List (Label (Fin 2) Nat) :=
  let i : Fin 2 := ⟨0, Nat.zero_lt_two⟩
  let j : Fin 2 := ⟨1, Nat.one_lt_two⟩
  .produce i (.emplace 10) :: List.replicate 3 (.produce i .access) ++
    (.produce j (.emplace 20) :: List.replicate 2 (.produce j .access)) ++
    List.replicate 6 .consume ++ List.replicate 3 (.produce j .access)

theorem gets_through_of_fair_two :
    ∃ ρ : Behavior (step mpscFlags) NoTokenWrap (init (Fin 2) Nat 1),
      (∀ n, n < twoProducers.length → ρ.label n = twoProducers[n]?) ∧ GetsThrough ρ := by
  have hex : (execOk (step mpscFlags) NoTokenWrap (init (Fin 2) Nat 1) twoProducers).map
      (fun s => (s.pc 0, s.pc 1)) = some (.idle, .idle) := by
    decide +kernel
  obtain ⟨s, hs, he⟩ := Option.map_eq_some_iff.mp hex
  have hidle : ∀ i, s.pc i = .idle :=
    Fin.forall_fin_two.mpr ⟨congrArg Prod.fst he, congrArg Prod.snd he⟩
  obtain ⟨ρ, hlabel, hrest⟩ := (run_of_execOk hs).behavior (popping s)
  refine ⟨ρ, hlabel, gets_through_of_fair (.inl rfl) (by decide) (by decide) ρ ⟨?_, ?_⟩⟩
  · intro i n
    refine ⟨twoProducers.length + n, Nat.le_add_left .., fun hin => absurd ?_ hin⟩
    rw [(hrest n).1]
    exact hidle i
  · intro n
    exact ⟨twoProducers.length + n, Nat.le_add_left .., fun _ => ⟨.consume, (hrest n).2, trivial⟩⟩

end HermesShm.Ipc.RingQueue
