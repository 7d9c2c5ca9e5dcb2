import HermesShm.Base.Fairness
import HermesShm.Thread.TicketLockOrder

/-! # Every call on a ticket lock returns

Tickets are 64 bits wide and wrap. With fewer threads than tickets, the threads queued have
consecutive tickets from `head_` on, so the lock keeps its promises in runs of any length. The
thread in front gets the lock by its own steps, and every `Unlock` moves the queue up. -/
namespace HermesShm.Thread.TicketLock
open HermesShm.Base

variable {ι : Type*} {yields : Bool}

/-- The threads queued, the one whose ticket is `head_` first. -/
structure Queue (l : TicketLock) (pc : ι → Pc) (took entered q : List ι) : Prop where
  head_lt : l.head_ < minU64
  lock : l.lock_ = wordAdd minU64 l.head_ q.length
  nodup : q.Nodup
  mem : ∀ i, i ∈ q ↔ (pc i).Queued
  ticket : ∀ n i, q[n]? = some i → (pc i).ticket = some (wordAdd minU64 l.head_ n)
  held : ∀ i, (pc i).Holding → q.head? = some i ∧ took = entered ++ q.tail
  free : (∀ i, ¬ (pc i).Holding) → took = entered ++ q

abbrev State.Queue (s : State ι) (q : List ι) : Prop :=
  TicketLock.Queue s.pool.shared s.pool.pc s.took s.entered q

variable {l l' : TicketLock} {pc : ι → Pc} {took entered q : List ι} {i j : ι} {p : Pc} {n : Nat}

theorem Queue.exclusive (h : Queue l pc took entered q) (hi : (pc i).Holding)
    (hj : (pc j).Holding) : i = j := by
  have heq := (h.held i hi).1.symm.trans (h.held j hj).1
  exact Option.some.inj heq

theorem Queue.fifo (h : Queue l pc took entered q) : entered <+: took := by
  by_cases hhold : ∃ i, (pc i).Holding
  · obtain ⟨i, hi⟩ := hhold
    exact ⟨_, (h.held i hi).2.symm⟩
  · exact ⟨_, (h.free fun i hi => hhold ⟨i, hi⟩).symm⟩

theorem Queue.length_lt [Fintype ι] (h : Queue l pc took entered q)
    (hcard : Fintype.card ι < minU64) : q.length < minU64 :=
  lt_of_le_of_lt (List.Nodup.length_le_card h.nodup) hcard

/-- Only the thread in front has the ticket that is due. -/
theorem Queue.front (h : Queue l pc took entered q) (hlen : q.length < minU64)
    (hi : (pc i).ticket = some l.head_) : q.head? = some i := by
  have hmem : i ∈ q := (h.mem i).mpr (by rw [Pc.Queued, hi]; rfl)
  obtain ⟨n, hn, rfl⟩ := List.mem_iff_getElem.mp hmem
  have htkt := h.ticket n _ (List.getElem?_eq_getElem hn)
  rw [hi, Option.some.injEq, eq_comm, wordAdd_eq_left h.head_lt (by omega)] at htkt
  subst htkt
  rw [List.head?_eq_getElem?, List.getElem?_eq_getElem hn]

theorem init_queue : (init ι).Queue [] where
  head_lt := Nat.two_pow_pos 64
  lock := rfl
  nodup := .nil
  mem _ := iff_of_false List.not_mem_nil nofun
  ticket := nofun
  held := nofun
  free _ := rfl

/-! ## How far a thread is -/

/-- How many steps a thread is away from the end of the test of `TryLock`. -/
def Pc.testLeft : Pc → Nat
  | .loadEither => 3
  | .loadHead _ | .loadLock _ => 2
  | .undoTry | .takeTicket => 1
  | .idle | .spin _ | .yield _ | .holding _ => 0

/-- How many steps the thread in front is away from holding the lock. -/
def Pc.spinLeft : Pc → Nat
  | .yield _ => 2
  | .spin _ => 1
  | _ => 0

theorem afterLoads_testLeft (lock head : Nat) : (afterLoads lock head).testLeft = 1 := by
  unfold afterLoads
  split <;> rfl

/-- A thread that tests comes nearer to its end by every step. -/
theorem act_testLeft {p p' : Pc} {a : Act} (h : act yields l p a = some (l', p'))
    (hin : p ≠ .idle) (hq : ¬ p.Queued) : p'.testLeft < p.testLeft := by
  cases p with
  | idle => exact absurd rfl hin
  | spin tkt | yield tkt | holding tkt => exact absurd rfl hq
  | loadEither =>
    cases a with
    | lock | tryLock => cases h
    | access b =>
      cases h
      cases b with
      | true => exact Nat.lt_succ_self 2
      | false => exact Nat.lt_succ_self 2
  | loadHead n | loadLock n =>
    cases a with
    | lock | tryLock => cases h
    | access b => cases h; exact (afterLoads_testLeft _ _).trans_lt (Nat.lt_succ_self 1)
  | undoTry | takeTicket =>
    cases a with
    | lock | tryLock => cases h
    | access b => cases h; exact Nat.one_pos

/-- The thread in front comes nearer to holding the lock by every step, or leaves. -/
theorem act_spinLeft {p p' : Pc} {a : Act} (h : act yields l p a = some (l', p'))
    (htkt : p.ticket = some l.head_) : p' = .idle ∨ p'.spinLeft < p.spinLeft := by
  cases p with
  | idle | loadEither | loadHead _ | loadLock _ | undoTry | takeTicket => cases htkt
  | spin tkt =>
    obtain rfl : tkt = l.head_ := Option.some.inj htkt
    cases a with
    | lock | tryLock => cases h
    | access b =>
      rw [act, access, if_pos rfl] at h
      cases h
      exact .inr Nat.one_pos
  | yield tkt =>
    cases a with
    | lock | tryLock => cases h
    | access b => cases h; exact .inr (Nat.lt_succ_self 1)
  | holding tkt =>
    cases a with
    | lock | tryLock => cases h
    | access b => cases h; exact .inl rfl

/-! ## One step -/

variable [DecidableEq ι]

theorem Queue.quiet (h : Queue l pc took entered q) (hlock : l'.lock_ = l.lock_)
    (hhead : l'.head_ = l.head_) (htkt : p.ticket = (pc i).ticket)
    (hhold : p.Holding ↔ (pc i).Holding) :
    Queue l' (Function.update pc i p) took entered q := by
  have hticket : ∀ j, (Function.update pc i p j).ticket = (pc j).ticket := by
    intro j
    obtain rfl | hj := eq_or_ne j i
    · rw [Function.update_self, htkt]
    · rw [Function.update_of_ne hj]
  have hholding : ∀ j, (Function.update pc i p j).Holding ↔ (pc j).Holding := by
    intro j
    obtain rfl | hj := eq_or_ne j i
    · rw [Function.update_self, hhold]
    · rw [Function.update_of_ne hj]
  refine ⟨hhead ▸ h.head_lt, by rw [hlock, hhead, h.lock], h.nodup, fun j => ?_, fun n j hj => ?_,
    fun j hj => h.held j ((hholding j).mp hj),
    fun hj => h.free fun j hh => hj j ((hholding j).mpr hh)⟩
  · rw [Pc.Queued, hticket]
    exact h.mem j
  · rw [hticket, hhead]
    exact h.ticket n j hj

/-- A ticket is taken at the end of the queue. -/
theorem Queue.take (h : Queue l pc took entered q) (hnone : (pc i).ticket = none) :
    Queue { l with lock_ := wordAdd minU64 l.lock_ 1 } (Function.update pc i (.spin l.lock_))
      (took ++ [i]) entered (q ++ [i]) := by
  have hnot : i ∉ q := fun hi => by
    have := (h.mem i).mp hi
    rw [Pc.Queued, hnone] at this
    cases this
  have hi : ¬ (pc i).Holding := by
    cases hp : pc i with
    | holding tkt => rw [hp] at hnone; cases hnone
    | idle | loadEither | loadHead _ | loadLock _ | undoTry | takeTicket | spin _ | yield _ =>
      exact id
  have hholding : ∀ j, (Function.update pc i (.spin l.lock_) j).Holding ↔ (pc j).Holding := by
    intro j
    obtain rfl | hj := eq_or_ne j i
    · rw [Function.update_self]
      exact iff_of_false id hi
    · rw [Function.update_of_ne hj]
  refine ⟨h.head_lt, ?_, List.nodup_append'.mpr ⟨h.nodup, List.nodup_singleton i, by simpa⟩,
    fun j => ?_, fun n j hj => ?_, fun j hj => ?_, fun hj => ?_⟩
  · rw [List.length_append, List.length_singleton, h.lock, wordAdd, wordAdd, wordAdd,
      Nat.mod_add_mod, Nat.add_assoc]
  · obtain rfl | hj := eq_or_ne j i
    · rw [Function.update_self]
      exact iff_of_true (by simp) rfl
    · rw [Function.update_of_ne hj, ← h.mem j]
      simp [hj]
  · rcases Nat.lt_or_ge n q.length with hlt | hge
    · rw [List.getElem?_append_left hlt] at hj
      have hne : j ≠ i := by
        rintro rfl
        exact hnot (List.mem_of_getElem? hj)
      rw [Function.update_of_ne hne]
      exact h.ticket n j hj
    · obtain ⟨hn, rfl⟩ : n = q.length ∧ j = i := by
        have hlen : n < (q ++ [i]).length := (List.getElem?_eq_some_iff.mp hj).1
        have hn : n = q.length := by simp at hlen; omega
        subst hn
        rw [List.getElem?_concat_length] at hj
        exact ⟨rfl, (Option.some.inj hj).symm⟩
      rw [Function.update_self, hn, ← h.lock]
      rfl
  · obtain ⟨hfront, htook⟩ := h.held j ((hholding j).mp hj)
    cases q with
    | nil => cases hfront
    | cons k q =>
      refine ⟨hfront, ?_⟩
      rw [htook, List.append_assoc]
      rfl
  · rw [h.free fun j hh => hj j ((hholding j).mpr hh), List.append_assoc]

/-- The thread in front finds its ticket due. -/
theorem Queue.enter (h : Queue l pc took entered q) (hlen : q.length < minU64)
    (hi : pc i = .spin l.head_) :
    Queue l (Function.update pc i (.holding l.head_)) took (entered ++ [i]) q := by
  have hfront : q.head? = some i := h.front hlen (by rw [hi]; rfl)
  obtain ⟨q, rfl⟩ : ∃ q', q = i :: q' := by
    cases q with
    | nil => cases hfront
    | cons k q => exact ⟨q, by rw [Option.some.inj hfront]⟩
  have hfree : ∀ j, ¬ (pc j).Holding := by
    intro j hj
    have hji : some j = some i := (h.held j hj).1.symm.trans hfront
    rw [Option.some.inj hji, hi] at hj
    exact hj
  have hticket : ∀ j, (Function.update pc i (.holding l.head_) j).ticket = (pc j).ticket := by
    intro j
    obtain rfl | hj := eq_or_ne j i
    · rw [Function.update_self, hi]
      rfl
    · rw [Function.update_of_ne hj]
  refine ⟨h.head_lt, h.lock, h.nodup, fun j => ?_, fun n j hj => ?_, fun j hj => ?_, fun hj => ?_⟩
  · rw [Pc.Queued, hticket]
    exact h.mem j
  · rw [hticket]
    exact h.ticket n j hj
  · obtain rfl | hne := eq_or_ne j i
    · refine ⟨hfront, ?_⟩
      rw [h.free hfree, List.append_assoc]
      rfl
    · rw [Function.update_of_ne hne] at hj
      exact absurd hj (hfree j)
  · exact absurd (by rw [Function.update_self]; trivial) (hj i)

/-- The holder leaves, and the next ticket is due. -/
theorem Queue.leave (h : Queue l pc took entered q) (hhold : (pc i).Holding) :
    ∃ q', q = i :: q' ∧ Queue { l with head_ := wordAdd minU64 l.head_ 1 }
      (Function.update pc i .idle) took entered q' := by
  obtain ⟨hfront, htook⟩ := h.held i hhold
  obtain ⟨q, rfl⟩ : ∃ q', q = i :: q' := by
    cases q with
    | nil => cases hfront
    | cons k q => exact ⟨q, by rw [Option.some.inj hfront]⟩
  obtain ⟨hnot, hnodup⟩ := List.nodup_cons.mp h.nodup
  have hadd : ∀ m, wordAdd minU64 (wordAdd minU64 l.head_ 1) m = wordAdd minU64 l.head_ (m + 1) :=
    fun m => by rw [wordAdd, wordAdd, wordAdd, Nat.mod_add_mod, Nat.add_assoc, Nat.add_comm 1]
  refine ⟨q, rfl, Nat.mod_lt _ (Nat.two_pow_pos 64), ?_, hnodup, fun j => ?_, fun n j hj => ?_,
    fun j hj => ?_, fun _ => htook⟩
  · exact h.lock.trans (hadd q.length).symm
  · obtain rfl | hj := eq_or_ne j i
    · rw [Function.update_self]
      exact iff_of_false hnot (by simp [Pc.Queued, Pc.ticket])
    · rw [Function.update_of_ne hj, ← h.mem j]
      simp [hj]
  · have hne : j ≠ i := by
      rintro rfl
      exact hnot (List.mem_of_getElem? hj)
    rw [Function.update_of_ne hne, hadd]
    exact h.ticket (n + 1) j hj
  · obtain rfl | hne := eq_or_ne j i
    · rw [Function.update_self] at hj
      exact hj.elim
    · rw [Function.update_of_ne hne] at hj
      exact absurd (h.exclusive hj hhold) hne

/-- The queue loses its front or grows. -/
theorem step_queue [Fintype ι] (hcard : Fintype.card ι < minU64) {s t : State ι} {a : Act}
    (h : s.Queue q) (hs : step yields s (i, a) = some t) :
    ∃ q', t.Queue q' ∧ (((s.pool.pc i).Holding ∧ q = i :: q') ∨ q <+: q') := by
  obtain ⟨l, p, heff, rfl⟩ := step_cases hs
  cases heff with
  | quiet hlock hhead htkt hhold =>
    rw [if_neg (by rw [Pc.Queued, Pc.Queued, htkt]; exact fun hq => hq.1 hq.2),
      if_neg (by rw [hhold]; exact fun hq => hq.1 hq.2)]
    exact ⟨q, h.quiet hlock hhead htkt hhold, .inr (List.prefix_refl q)⟩
  | take ht hnone hp hl =>
    subst hp hl
    rw [if_pos ⟨by rw [Pc.Queued, hnone]; simp, rfl⟩, if_neg fun hq => hq.2]
    exact ⟨_, h.take hnone, .inr (List.prefix_append q [i])⟩
  | enter hi hp hl =>
    subst hp hl
    rw [hi, if_neg fun hq => hq.1 rfl, if_pos ⟨id, trivial⟩]
    exact ⟨q, h.enter (h.length_lt hcard) hi, .inr (List.prefix_refl q)⟩
  | leave tkt hi hp hl =>
    subst hp hl
    have hhold : (s.pool.pc i).Holding := by rw [hi]; trivial
    obtain ⟨q', hq, hQ⟩ := h.leave hhold
    rw [hi, if_neg fun hq => hq.1 rfl, if_neg fun hq => hq.2]
    exact ⟨q', hQ, .inl ⟨trivial, hq⟩⟩

theorem run_queue [Fintype ι] (hcard : Fintype.card ι < minU64) {as : List (ι × Act)}
    {s : State ι} (hr : Run (step yields) Unrestricted (init ι) as s) : ∃ q, s.Queue q := by
  refine hr.invariant (I := fun s => ∃ q, s.Queue q) ⟨[], init_queue⟩ ?_
  intro s (i, a) t ⟨q, hq⟩ _ hs
  obtain ⟨q', hq', -⟩ := step_queue hcard hq hs
  exact ⟨q', hq'⟩

/-! ## Fair behaviors -/

/-- The steps of thread `i`. -/
def Mine (i : ι) (l : ι × Act) : Prop := l.1 = i

/-- Thread `i` is in a call, or holds the lock and is to release it. -/
def Inside (i : ι) (s : State ι) : Prop := s.pool.pc i ≠ .idle

theorem step_other {s t : State ι} {a : Act} (hs : step yields s (i, a) = some t) (hj : j ≠ i) :
    t.pool.pc j = s.pool.pc j := by
  obtain ⟨l, p, -, rfl⟩ := step_cases hs
  exact Function.update_of_ne hj ..

theorem step_own {s t : State ι} {a : Act} (hs : step yields s (i, a) = some t) :
    act yields s.pool.shared (s.pool.pc i) a = some (t.pool.shared, t.pool.pc i) := by
  obtain ⟨u, hu, rfl⟩ := Option.map_eq_some_iff.mp hs
  obtain ⟨l, p, hact, rfl⟩ := Pool.step_cases hu
  simpa using hact

/-- Thread `i` waits, with `n` threads before it, of which `h` is the first. -/
def Behind (i h : ι) (n : Nat) (s : State ι) : Prop :=
  ¬ (s.pool.pc i).Holding ∧ ∃ pre post, s.Queue (pre ++ i :: post) ∧ pre.length = n ∧
    (pre ++ [i]).head? = some h

/-- Thread `i` comes nearer to the lock. -/
def Nearer (i : ι) (n : Nat) (s : State ι) : Prop :=
  (s.pool.pc i).Holding ∨ ∃ h k, k < n ∧ Behind i h k s

theorem Behind.helps [Fintype ι] (hcard : Fintype.card ι < minU64) {h : ι} {s t : State ι}
    {la : ι × Act} (hs : Behind i h n s) (hstep : step yields s la = some t) :
    Behavior.Helps (Behind i h n) (Nearer i n) (Mine h) (fun s => (s.pool.pc h).spinLeft)
      s la t := by
  obtain ⟨j, a⟩ := la
  obtain ⟨hi, pre, post, hq, rfl, hhead⟩ := hs
  obtain ⟨q', hq', ⟨hj, heq⟩ | ⟨rest, rfl⟩⟩ := step_queue hcard hq hstep
  · -- the thread in front leaves
    refine .inl (.inr ?_)
    have hne : i ≠ j := by
      rintro rfl
      exact hi hj
    cases pre with
    | nil => exact absurd (List.cons.inj heq).1 hne
    | cons k pre =>
      obtain ⟨rfl, rfl⟩ := List.cons.inj heq
      obtain ⟨h', hh'⟩ : ∃ h', (pre ++ [i]).head? = some h' := by
        cases pre with
        | nil => exact ⟨i, rfl⟩
        | cons m pre => exact ⟨m, rfl⟩
      exact ⟨h', pre.length, Nat.lt_succ_self _, by rwa [step_other hstep hne], pre, post, hq', rfl,
        hh'⟩
  · by_cases hhold : (t.pool.pc i).Holding
    · exact .inl (.inl hhold)
    have hfront : (pre ++ i :: post)[0]? = some h := by
      cases pre with
      | nil => exact hhead
      | cons m pre => exact hhead
    have hown : j = h → (t.pool.pc h).spinLeft < (s.pool.pc h).spinLeft := by
      rintro rfl
      rcases act_spinLeft (step_own hstep) ((hq.ticket 0 j hfront).trans
        (congrArg some (wordAdd_of_lt hq.head_lt))) with hidle | hlt
      · -- it stays in the queue
        have hmem : j ∈ pre ++ i :: post ++ rest :=
          List.mem_append_left rest (List.mem_of_getElem? hfront)
        have hqueued := (hq'.mem j).mp hmem
        rw [hidle] at hqueued
        cases hqueued
      · exact hlt
    refine .inr ⟨⟨hhold, pre, post ++ rest, by simpa using hq', rfl, hhead⟩, ?_, hown⟩
    by_cases hj : j = h
    · exact (hown hj).le
    · exact (congrArg Pc.spinLeft (step_other hstep (Ne.symm hj))).le

variable {ρ : Behavior (step yields) Unrestricted (init ι)}

/-- The threads before it give way one by one. -/
theorem Behind.holds [Fintype ι] (hcard : Fintype.card ι < minU64)
    (hfair : ∀ i, ρ.Fair (Mine i) (Inside i)) {m : Nat} (h : ∃ h, Behind i h n (ρ.state m)) :
    ρ.Eventually m fun s => (s.pool.pc i).Holding := by
  induction n using Nat.strong_induction_on generalizing m with
  | _ n ih =>
    obtain ⟨h, hb⟩ := h
    have hin : ∀ s, Behind i h n s → Inside h s := by
      intro s ⟨_, pre, post, hq, _, hhead⟩ hidle
      have hmem : h ∈ pre ++ i :: post := by
        rcases List.mem_append.mp (List.mem_of_mem_head? hhead) with hpre | hi
        · exact List.mem_append_left _ hpre
        · rw [List.mem_singleton.mp hi]
          exact List.mem_append_right _ List.mem_cons_self
      have hqueued := (hq.mem h).mp hmem
      rw [hidle] at hqueued
      cases hqueued
    refine (Behavior.helped _ (hfair h) hin (fun _ _ _ hp _ hs => hp.helps hcard hs) hb).bind ?_
    rintro k - (hhold | ⟨h', n', hlt, hb'⟩)
    · exact .now hhold
    · exact ih n' hlt ⟨h', hb'⟩

/-- Every call returns, and a thread with a ticket comes to hold the lock. -/
structure Live (ρ : Behavior (step yields) Unrestricted (init ι)) : Prop where
  granted : ∀ i n, ((ρ.state n).pool.pc i).Queued →
    ρ.Eventually n fun s => (s.pool.pc i).Holding
  returned : ∀ i n, ρ.Eventually n fun s => s.pool.pc i = .idle ∨ (s.pool.pc i).Holding
  released : ∀ i n, ρ.Eventually n fun s => s.pool.pc i = .idle

theorem granted [Fintype ι] (hcard : Fintype.card ι < minU64)
    (hfair : ∀ i, ρ.Fair (Mine i) (Inside i)) (hq : ((ρ.state n).pool.pc i).Queued) :
    ρ.Eventually n fun s => (s.pool.pc i).Holding := by
  by_cases hhold : ((ρ.state n).pool.pc i).Holding
  · exact .now hhold
  obtain ⟨as, hr⟩ := ρ.run n
  obtain ⟨q, hQ⟩ := run_queue hcard hr
  obtain ⟨pre, post, rfl⟩ := List.append_of_mem ((hQ.mem i).mpr hq)
  obtain ⟨h, hhead⟩ : ∃ h, (pre ++ [i]).head? = some h := by
    cases pre with
    | nil => exact ⟨i, rfl⟩
    | cons k pre => exact ⟨k, rfl⟩
  exact Behind.holds hcard hfair ⟨h, hhold, pre, post, hQ, rfl, hhead⟩

/-- A call of `TryLock` comes to the end of its test. -/
theorem tested (hfair : ∀ i, ρ.Fair (Mine i) (Inside i)) (i : ι) (n : Nat) :
    ρ.Eventually n fun s => s.pool.pc i = .idle ∨ (s.pool.pc i).Queued := by
  by_cases hout : (ρ.state n).pool.pc i = .idle ∨ ((ρ.state n).pool.pc i).Queued
  · exact .now hout
  refine Behavior.helped (P := fun s => Inside i s ∧ ¬ (s.pool.pc i).Queued)
    (fun s => (s.pool.pc i).testLeft) (hfair i) (fun _ hp => hp.1) ?_ (not_or.mp hout)
  intro s (j, a) t ⟨hin, hq⟩ _ hs
  by_cases hdone : t.pool.pc i = .idle ∨ (t.pool.pc i).Queued
  · exact .inl hdone
  refine .inr ⟨not_or.mp hdone, ?_, ?_⟩
  · obtain rfl | hj := eq_or_ne i j
    · exact (act_testLeft (step_own hs) hin hq).le
    · exact (congrArg Pc.testLeft (step_other hs hj)).le
  · rintro rfl
    exact act_testLeft (step_own hs) hin hq

/-- The holder gives the lock back. -/
theorem released (hfair : ∀ i, ρ.Fair (Mine i) (Inside i))
    (hhold : ((ρ.state n).pool.pc i).Holding) : ρ.Eventually n fun s => s.pool.pc i = .idle := by
  refine Behavior.helped (P := fun s => (s.pool.pc i).Holding) (fun _ => 0) (hfair i)
    (fun s hp hidle => by rw [hidle] at hp; exact hp) ?_ hhold
  intro s (j, a) t hp _ hs
  obtain rfl | hj := eq_or_ne i j
  · refine .inl ?_
    have hown := step_own hs
    cases hpc : s.pool.pc i with
    | holding tkt =>
      rw [hpc] at hown
      cases a with
      | lock | tryLock => cases hown
      | access b => exact (Prod.mk.inj (Option.some.inj hown)).2.symm
    | idle | loadEither | loadHead _ | loadLock _ | undoTry | takeTicket | spin _ | yield _ =>
      rw [hpc] at hp
      exact hp.elim
  · rw [Behavior.Helps, step_other hs hj]
    exact .inr ⟨hp, le_refl _, fun hmine => absurd hmine (Ne.symm hj)⟩

/-- **No thread starves.** With fewer than `2 ^ 64` threads, in every infinite run of `Mutex` and
of `SpinLock`, however often the tickets wrap, in which every thread inside a call or holding the
lock goes on at some time: a thread that has taken a ticket comes to hold the lock, every call
returns, and the lock is given back. -/
theorem live_of_fair [Fintype ι] (hcard : Fintype.card ι < minU64)
    (hfair : ∀ i, ρ.Fair (Mine i) (Inside i)) : Live ρ where
  granted _ _ hq := granted hcard hfair hq
  returned i n := by
    refine (tested hfair i n).bind fun m _ hm => ?_
    rcases hm with hidle | hq
    · exact .now (.inl hidle)
    · exact (granted hcard hfair hq).mono fun _ => .inr
  released i n := by
    refine (tested hfair i n).bind fun m _ hm => ?_
    rcases hm with hidle | hq
    · exact .now hidle
    · exact (granted hcard hfair hq).bind fun _ _ hhold => released hfair hhold

/-- `TryLock` of thread 1 passes its test before thread 0 takes its ticket, and then waits for
thread 0. Both give the lock back. -/
def bothReturn : List (Fin 2 × Act) :=
  let j : Fin 2 := ⟨1, Nat.one_lt_two⟩
  staleTry ++ [(j, .access false)]

theorem live_of_fair_bothReturn : ∃ ρ : Behavior (step true) Unrestricted (init (Fin 2)),
    (∀ n, ρ.label n = bothReturn[n]?) ∧ Live ρ := by
  have hex : (exec (step true) (init (Fin 2)) bothReturn).map
      (fun s => (s.pool.pc 0, s.pool.pc 1)) = some (.idle, .idle) := by
    decide +kernel
  obtain ⟨s, hs, he⟩ := Option.map_eq_some_iff.mp hex
  obtain ⟨ρ, hlabel, hstate⟩ := (run_iff_exec.mpr hs).halts
  have hidle : ∀ i, s.pool.pc i = .idle :=
    Fin.forall_fin_two.mpr ⟨congrArg Prod.fst he, congrArg Prod.snd he⟩
  refine ⟨ρ, hlabel, live_of_fair (by decide) fun i n => ?_⟩
  refine ⟨max n bothReturn.length, le_max_left .., fun hin => absurd ?_ hin⟩
  rw [hstate _ (le_max_right ..)]
  exact hidle i

/-! ## Runs of any length -/

/-- What the lock promises, with the count of the threads queued taken as tickets are. -/
structure Ordered (s : State ι) : Prop where
  exclusive : ∀ i j, (s.pool.pc i).Holding → (s.pool.pc j).Holding → i = j
  fifo : s.entered <+: s.took
  queued : ∃ k, Count Pc.Queued s.pool.pc k ∧
    s.pool.shared.lock_ = wordAdd minU64 s.pool.shared.head_ k

/-- With fewer than `2 ^ 64` threads the lock excludes and is first come, first served, although
the tickets wrap. -/
theorem ordered_of_few [Fintype ι] (hcard : Fintype.card ι < minU64) {as : List (ι × Act)}
    {s : State ι} (hr : Run (step yields) Unrestricted (init ι) as s) : Ordered s := by
  obtain ⟨q, hq⟩ := run_queue hcard hr
  refine ⟨fun _ _ => hq.exclusive, hq.fifo, q.length, ⟨q.toFinset, fun i => ?_, ?_⟩, hq.lock⟩
  · rw [List.mem_toFinset]
    exact hq.mem i
  · exact List.toFinset_card_of_nodup hq.nodup

theorem ordered_of_few_staleTry : ∃ s : State (Fin 2), s.entered = [0, 1] ∧ Ordered s := by
  have hex : (exec (step true) (init (Fin 2)) staleTry).map (fun s => s.entered) =
      some [0, 1] := by
    decide +kernel
  obtain ⟨s, hs, he⟩ := Option.map_eq_some_iff.mp hex
  exact ⟨s, he, ordered_of_few (by decide) (run_iff_exec.mpr hs)⟩

end HermesShm.Thread.TicketLock
